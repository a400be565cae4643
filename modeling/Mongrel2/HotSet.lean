/-
One round of polling, hit by hit (`superpoll.c`).

* `batchHits` — what a batch of events of the epoll set makes of its slots;
* `Visits.visit` — the loop of `SuperPoll_poll` is `sweepUntil` with it;
* **`round_exact`** — the round reports each ready entry once, with its own data, and the
  hits of the epoll set, keeps the entries that were not ready, arms the set again, and
  the hits fit the result array.

Design notes: the entries of the epoll set are those with its descriptor, of which there
is one.  Where there are more, each that is ready brings a batch.
-/
import Mongrel2.IdleSlots

namespace Mongrel2.SuperPoll

open Sweep

/-! ### The hits of the epoll set -/

/-- The hits for some events, one after the other. -/
def batchHits (data : ℕ → IdleData) : ℕ → List (EpollEvent × CtlAnswer) → List Hot
  | _, [] => []
  | revents, (e, _) :: events =>
    (data e.node).hit (e.sets revents) ++ batchHits data (e.sets revents) events

/-- The hits for some answers of `epoll_wait`. -/
def idleHits (data : ℕ → IdleData) (waits : List Batch) : List Hot :=
  waits.flatMap fun events => batchHits data 0 (events.getD [])

/-- `epoll_wait` and each `EPOLL_CTL_DEL` succeed. -/
def Succeeds (events : Batch) : Prop := ∃ es, events = some es ∧ ∀ e ∈ es, e.2 = .ok

section

variable {maxIdle : ℕ} {idle : Idle} {events : List (EpollEvent × CtlAnswer)} {idleFd : ℤ}

/-- The slots of all the events are released. -/
def Idle.releaseAll (idle : Idle) (events : List (EpollEvent × CtlAnswer)) : Idle :=
  events.foldl (fun idle e => idle.release e.1.node) idle

theorem data_releaseAll (idle : Idle) (events : List (EpollEvent × CtlAnswer)) :
    (idle.releaseAll events).data = idle.data := by
  induction events generalizing idle with
  | nil => rfl
  | cons e events ih => exact ih (idle.release e.1.node)

theorem addHits_of_ok (hok : ∀ e ∈ events, e.2 = .ok) (revents : ℕ) (hits : List Hot) :
    Idle.addHits events revents idle hits =
      (true, idle.releaseAll events, hits ++ batchHits idle.data revents events) := by
  induction events generalizing idle revents hits with
  | nil => simp [Idle.addHits, Idle.releaseAll, batchHits]
  | cons e events ih =>
    obtain ⟨e, del⟩ := e
    obtain rfl : del = .ok := hok _ (List.mem_cons_self ..)
    have hrest := fun x hx => hok x (List.mem_cons_of_mem _ hx)
    have hdata : (idle.release e.node).data = idle.data := rfl
    rw [Idle.addHits, if_pos rfl, ih hrest, hdata, batchHits, List.append_assoc]
    rfl

/-- Each event of a batch takes one slot from the active ones. -/
theorem length_releaseAll (h : idle.Slots maxIdle) (hrep : idle.reports (events.map Prod.fst) = true) :
    (idle.releaseAll events).Slots maxIdle ∧
      (idle.releaseAll events).active.length + events.length = idle.active.length := by
  induction events generalizing idle with
  | nil => exact ⟨h, rfl⟩
  | cons e events ih =>
    obtain ⟨harmed, hrest⟩ := reports_cons hrep
    obtain ⟨hslots, hlen⟩ := ih (slots_release h harmed) hrest
    have hmem := h.mem_active harmed
    have herase : (idle.release e.1.node).active.length + 1 = idle.active.length := by
      show (idle.active.erase e.1.node).length + 1 = _
      rw [List.length_erase_of_mem hmem]
      have hpos := List.length_pos_of_mem hmem
      omega
    refine ⟨hslots, ?_⟩
    show ((idle.release e.1.node).releaseAll events).active.length + _ = _
    rw [List.length_cons]
    omega

theorem length_batchHits_le (data : ℕ → IdleData) (revents : ℕ)
    (events : List (EpollEvent × CtlAnswer)) :
    (batchHits data revents events).length ≤ events.length := by
  induction events generalizing revents with
  | nil => exact le_rfl
  | cons e events ih =>
    have hone : ((data e.1.node).hit (e.1.sets revents)).length ≤ 1 := by
      unfold IdleData.hit
      split <;> simp
    have hrest := ih (e.1.sets revents)
    rw [batchHits, List.length_append, List.length_cons]
    omega

/-! ### The visits -/

/-- What a visit of an entry of the epoll set comes to. -/
theorem visit_idle {s : Visits} {e : Hot} (he : e.fd = idleFd) (hok : ∀ w ∈ s.waits.head?, Succeeds w) :
    ∃ es, s.waits.headD (some []) = some es ∧
      s.visit idleFd e =
        (true, ⟨s.idle.releaseAll es, s.hits ++ batchHits s.idle.data 0 es, true, s.waits.tail,
          s.legal && s.idle.reports (es.map Prod.fst)⟩) := by
  obtain ⟨es, hes, hall⟩ : Succeeds (s.waits.headD (some [])) := by
    cases hwaits : s.waits with
    | nil => exact ⟨[], rfl, by simp⟩
    | cons w waits => exact hok w (by rw [hwaits]; rfl)
  refine ⟨es, hes, ?_⟩
  rw [Visits.visit, if_pos he, hes]
  dsimp only
  rw [addHits_of_ok hall]

theorem visit_other {s : Visits} {e : Hot} (he : e.fd ≠ idleFd) :
    s.visit idleFd e = (true, { s with hits := s.hits ++ [e] }) := if_neg he

/-- The answer for the first entry of the epoll set, and those for the others. -/
theorem take_succ_eq (waits : List Batch) (n : ℕ) :
    waits.take (n + 1) = waits.head?.toList ++ waits.tail.take n := by
  cases waits with
  | nil => simp
  | cons w waits => rfl

theorem idleHits_succ {data : ℕ → IdleData} {waits : List Batch}
    {es : List (EpollEvent × CtlAnswer)} (hes : waits.headD (some []) = some es) (n : ℕ) :
    idleHits data (waits.take (n + 1)) =
      batchHits data 0 es ++ idleHits data (waits.tail.take n) := by
  cases waits with
  | nil =>
    obtain rfl := Option.some.inj hes
    simp [idleHits, batchHits]
  | cons w waits =>
    obtain rfl : w = some es := hes
    simp [idleHits]

/-- What the visits of some entries come to. -/
structure VisitsTo (maxIdle : ℕ) (idleFd : ℤ) (visited : List Hot) (s s' : Visits) : Prop where
  run : visited.foldlM (orFail (Visits.visit idleFd)) s = some s'
  /-- each is a hit, and one of the epoll set brings the hits of its batch -/
  hits : s'.hits.Perm (s.hits ++ (visited.filter (fun e => !e.isIdle idleFd) ++
    idleHits s.idle.data (s.waits.take (visited.countP (Hot.isIdle idleFd)))))
  hitIdle : s'.hitIdle = (s.hitIdle || visited.any (Hot.isIdle idleFd))
  legal : s'.legal = true → s.legal = true
  /-- a hit of the set leaves the active slots -/
  length : s'.legal = true → s.idle.Slots maxIdle →
    s'.hits.length + s'.idle.active.length ≤
      s.hits.length + s.idle.active.length + visited.countP fun e => !e.isIdle idleFd

theorem VisitsTo.cons_idle {visited : List Hot} {s s' : Visits} {e : Hot}
    {es : List (EpollEvent × CtlAnswer)} (he : e.isIdle idleFd = true)
    (hes : s.waits.headD (some []) = some es)
    (hvisit : s.visit idleFd e =
      (true, ⟨s.idle.releaseAll es, s.hits ++ batchHits s.idle.data 0 es, true, s.waits.tail,
        s.legal && s.idle.reports (es.map Prod.fst)⟩))
    (h : VisitsTo maxIdle idleFd visited ⟨s.idle.releaseAll es,
      s.hits ++ batchHits s.idle.data 0 es, true, s.waits.tail,
      s.legal && s.idle.reports (es.map Prod.fst)⟩ s') :
    VisitsTo maxIdle idleFd (e :: visited) s s' := by
  refine ⟨?_, ?_, ?_, fun hlegal => ?_, fun hlegal hslots => ?_⟩
  · rw [List.foldlM_cons, orFail, hvisit]
    exact h.run
  · rw [List.filter_cons_of_neg (by simp [he]), List.countP_cons_of_pos he, idleHits_succ hes]
    refine h.hits.trans ?_
    dsimp only
    rw [data_releaseAll, List.append_assoc]
    refine List.Perm.append_left _ ?_
    rw [← List.append_assoc, ← List.append_assoc]
    exact List.perm_append_comm.append_right _
  · rw [h.hitIdle, List.any_cons, he]
    simp
  · exact (Bool.and_eq_true_iff.mp (h.legal hlegal)).1
  · obtain ⟨-, hrep⟩ := Bool.and_eq_true_iff.mp (h.legal hlegal)
    obtain ⟨hslots', hactive⟩ := length_releaseAll hslots hrep
    have hlen := h.length hlegal hslots'
    have hbatch := length_batchHits_le s.idle.data 0 es
    dsimp only at hlen
    rw [List.length_append] at hlen
    rw [List.countP_cons_of_neg (by simp [he])]
    omega

theorem VisitsTo.cons_other {visited : List Hot} {s s' : Visits} {e : Hot} (he : e.fd ≠ idleFd)
    (h : VisitsTo maxIdle idleFd visited { s with hits := s.hits ++ [e] } s') :
    VisitsTo maxIdle idleFd (e :: visited) s s' := by
  have hidle : e.isIdle idleFd = false := decide_eq_false he
  refine ⟨?_, ?_, ?_, h.legal, fun hlegal hslots => ?_⟩
  · rw [List.foldlM_cons, orFail, visit_other he]
    exact h.run
  · rw [List.filter_cons_of_pos (by simp [hidle]), List.countP_cons_of_neg (by simp [hidle])]
    refine h.hits.trans (.of_eq ?_)
    simp
  · rw [h.hitIdle, List.any_cons, hidle, Bool.false_or]
  · have hlen := h.length hlegal hslots
    dsimp only at hlen
    rw [List.length_append, List.length_singleton] at hlen
    rw [List.countP_cons_of_pos (by simp [hidle])]
    omega

/-- **The entries with a result, one after the other**, while the calls for the epoll set
succeed. -/
theorem visits_spec (maxIdle : ℕ) {visited : List Hot} {s : Visits}
    (hok : ∀ w ∈ s.waits.take (visited.countP (Hot.isIdle idleFd)), Succeeds w) :
    ∃ s', VisitsTo maxIdle idleFd visited s s' := by
  induction visited generalizing s with
  | nil => exact ⟨s, rfl, by simp [idleHits], by simp, id, fun _ _ => by simp⟩
  | cons e visited ih =>
    by_cases he : e.fd = idleFd
    · -- its batch is the first of those that are left
      have hidle : e.isIdle idleFd = true := decide_eq_true he
      rw [List.countP_cons_of_pos hidle, take_succ_eq] at hok
      obtain ⟨es, hes, hvisit⟩ := @visit_idle idleFd s e he fun w hw =>
        hok w (List.mem_append_left _ (Option.mem_toList.mpr hw))
      obtain ⟨s', h⟩ := @ih ⟨s.idle.releaseAll es, s.hits ++ batchHits s.idle.data 0 es, true,
        s.waits.tail, s.legal && s.idle.reports (es.map Prod.fst)⟩ fun w hw =>
          hok w (List.mem_append_right _ hw)
      exact ⟨s', h.cons_idle hidle hes hvisit⟩
    · have hidle : e.isIdle idleFd = false := decide_eq_false he
      rw [List.countP_cons_of_neg (by simp [hidle])] at hok
      obtain ⟨s', h⟩ := @ih { s with hits := s.hits ++ [e] } hok
      exact ⟨s', h.cons_other he⟩

end

/-! ### The round -/

/-- The ready entries of the epoll set. -/
def Poller.batches (sp : Poller) (revents : ℕ → ℕ) : ℕ :=
  (zmqPoll revents sp.hot).countP fun h => h.reported && h.isIdle sp.idleFd

/-- What a round that ends in `r` should come to. -/
structure RoundExact (maxIdle : ℕ) (sp : Poller) (revents : ℕ → ℕ) (waits : List Batch)
    (r : Polled) : Prop where
  /-- each ready entry but that of the epoll set, once, and the hits of the set -/
  hits : r.hits.Perm ((zmqPoll revents sp.hot).filter (fun h => h.reported && !h.isIdle sp.idleFd) ++
    idleHits sp.idle.data (waits.take (sp.batches revents)))
  rc : r.rc = r.hits.length
  /-- the entries that were not ready, and the epoll set, if it was -/
  hot : (r.sp.hot.map Hot.record).Perm
    (((zmqPoll revents sp.hot).filter fun h => !h.reported).map Hot.record ++
      if sp.batches revents = 0 then [] else [⟨none, sp.idleFd, Rw.r.bits, none⟩])
  /-- the size of the result array -/
  fits : r.hits.length ≤ sp.maxHot + maxIdle

section

variable {maxIdle : ℕ} {sp : Poller}

/-- Arming the epoll set appends its entry. -/
theorem addPoll_idleFd (hroom : sp.hot.length < sp.maxHot) :
    (sp.addPoll none none sp.idleFd 'r'.toNat).2.hot =
      sp.hot ++ [⟨none, sp.idleFd, Rw.r.bits, 0, none⟩] := by
  have hr : Rw.ofLetter ('r'.toNat : ℤ) = some .r := rfl
  rw [Poller.addPoll, if_pos hroom, hr]

/-- The round, from what the sweep visited and what it left. -/
theorem poll_of_sweep {revents : ℕ → ℕ} {waits : List Batch} {visited rest : List Hot} {s : Visits}
    (hsweep : sweep Hot.reported (orFail (Visits.visit sp.idleFd))
      ((zmqPoll revents sp.hot).countP Hot.reported) 0 (zmqPoll revents sp.hot)
      ⟨sp.idle, [], false, waits, true⟩ =
        (visited.foldlM (orFail (Visits.visit sp.idleFd)) ⟨sp.idle, [], false, waits, true⟩).map
          fun s => (rest, s))
    (hrun : visited.foldlM (orFail (Visits.visit sp.idleFd)) ⟨sp.idle, [], false, waits, true⟩ =
      some s) :
    sp.poll (.found revents) waits =
      ⟨s.hits.length, (if s.hitIdle then
        (({ sp with hot := rest, idle := s.idle } : Poller).addPoll none none sp.idleFd 'r'.toNat).2
        else { sp with hot := rest, idle := s.idle }), s.hits, s.legal⟩ := by
  have hloop : sweepUntil Hot.reported (Visits.visit sp.idleFd)
      ((zmqPoll revents sp.hot).countP Hot.reported) 0 (zmqPoll revents sp.hot)
      ⟨sp.idle, [], false, waits, true⟩ = (true, rest, s) := by
    refine sweepUntil_of_sweep ?_
    rw [hsweep, hrun]
    rfl
  rw [Poller.poll]
  dsimp only
  rw [hloop]
  rfl

/-- What was visited and what is left are the hot entries. -/
theorem length_visited_add {revents : ℕ → ℕ} {visited rest : List Hot}
    (hvisited : visited.Perm ((zmqPoll revents sp.hot).filter Hot.reported))
    (hrest : rest.Perm ((zmqPoll revents sp.hot).filter fun h => !h.reported)) :
    visited.length + rest.length = sp.hot.length := by
  have hzmq : (zmqPoll revents sp.hot).length = sp.hot.length := List.length_mapIdx
  have hparts := List.length_eq_countP_add_countP Hot.reported (l := zmqPoll revents sp.hot)
  rw [List.countP_eq_length_filter, List.countP_eq_length_filter, ← hvisited.length_eq] at hparts
  have hlen := hrest.length_eq
  simp only [Bool.not_eq_true, Bool.decide_eq_false] at hparts
  omega

/-- The epoll set was visited if it has a batch. -/
theorem hitIdle_eq {visited : List Hot} {n : ℕ} (hn : visited.countP (Hot.isIdle sp.idleFd) = n) :
    visited.any (Hot.isIdle sp.idleFd) = decide (n ≠ 0) := by
  rw [← hn]
  refine Bool.eq_iff_iff.mpr ?_
  rw [List.any_eq_true, decide_eq_true_eq, ← Nat.pos_iff_ne_zero, List.countP_pos_iff]

/-- **A round of polling is exact**, in every state that can be reached and for every
outcome of `zmq_poll`, where the calls for the epoll set succeed. -/
theorem round_exact (hkept : sp.Kept maxIdle) (revents : ℕ → ℕ) {waits : List Batch}
    (hok : ∀ w ∈ waits.take (sp.batches revents), Succeeds w)
    (hlegal : (sp.poll (.found revents) waits).legal = true) :
    RoundExact maxIdle sp revents waits (sp.poll (.found revents) waits) := by
  obtain ⟨visited, rest, hvisited, hrest, hsweep⟩ := @sweep_spec Hot Visits Hot.reported
    (orFail (Visits.visit sp.idleFd)) _ 0 (zmqPoll revents sp.hot) (by simp) rfl
  have hbatches : visited.countP (Hot.isIdle sp.idleFd) = sp.batches revents := by
    rw [hvisited.countP_eq, List.countP_filter, Poller.batches]
    exact List.countP_congr fun h _ => by rw [Bool.and_comm]
  obtain ⟨s, h⟩ := @visits_spec sp.idleFd maxIdle visited ⟨sp.idle, [], false, waits, true⟩
    (by rw [hbatches]; exact hok)
  have hsplit := length_visited_add hvisited hrest
  have hroom := hkept.room
  rw [poll_of_sweep (hsweep _) h.run] at hlegal ⊢
  have hlen := h.length hlegal hkept.slots
  refine ⟨?_, rfl, ?_, ?_⟩
  · refine h.hits.trans ?_
    dsimp only
    rw [List.nil_append, hbatches]
    refine List.Perm.append_right _ ?_
    refine (hvisited.filter _).trans (.of_eq ?_)
    rw [List.filter_filter]
    exact List.filter_congr fun h _ => Bool.and_comm _ _
  · have hidle : s.hitIdle = decide (sp.batches revents ≠ 0) :=
      h.hitIdle.trans ((Bool.false_or _).trans (hitIdle_eq hbatches))
    by_cases hnone : sp.batches revents = 0
    · have hnot : s.hitIdle = false := by simp [hidle, hnone]
      dsimp only
      rw [hnot, if_pos hnone, List.append_nil]
      exact hrest.map Hot.record
    · -- the set itself was visited, so there is room for it again
      have hyes : s.hitIdle = true := by simp [hidle, hnone]
      have hfull : rest.length < sp.maxHot := by
        have hle := List.countP_le_length (p := Hot.isIdle sp.idleFd) (l := visited)
        omega
      dsimp only
      rw [hyes, if_neg hnone, if_pos rfl, @addPoll_idleFd { sp with hot := rest, idle := s.idle } hfull,
        List.map_append]
      exact (hrest.map Hot.record).append_right _
  · have hvis : (visited.countP fun e => !e.isIdle sp.idleFd) ≤ visited.length := List.countP_le_length
    have hactive : sp.idle.active.length ≤ maxIdle := by
      have hperm := hkept.slots.perm.length_eq
      rw [List.length_append, List.length_range] at hperm
      omega
    dsimp only at hlen ⊢
    rw [List.length_nil] at hlen
    omega

end

/-- Four tasks wait, one of them in the idle list. -/
def fourWait : List Call :=
  [.add .ok .ok (some 1) none 7 'r'.toNat true, .add .ok .ok (some 2) none 8 'w'.toNat true,
    .add .ok .ok (some 3) none 9 'r'.toNat true, .add .ok .ok (some 4) none 10 'r'.toNat false]

/-- All the entries of the hot arrays but one are ready. -/
theorem round_exact_fourWait :
    ∃ sp₀ sp, create 4 2 5 = some sp₀ ∧ Runs.exec Poller.step sp₀ fourWait = some sp ∧
      RoundExact 2 sp (fun i => if i = 1 then 0 else 1) [some [(⟨1, true, false⟩, .ok)]]
        (sp.poll (.found fun i => if i = 1 then 0 else 1) [some [(⟨1, true, false⟩, .ok)]]) := by
  refine ⟨_, _, rfl, rfl, round_exact (Reachable.kept ⟨4, 5, _, fourWait, rfl, rfl⟩) _ ?_ (by decide)⟩
  intro w hw
  obtain rfl := List.mem_singleton.mp (List.mem_of_mem_take hw)
  exact ⟨_, rfl, by decide⟩

end Mongrel2.SuperPoll

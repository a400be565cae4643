/-
The slots of the idle list, with every answer of the kernel (`superpoll.c`).

* `Poller.add`, `Poller.poll` — `SuperPoll_add` and `SuperPoll_poll`, also where
  `epoll_ctl`, `epoll_wait` or `zmq_poll` fails;
* **`conserved_always`** — in every run each slot is on one of the lists `idle_free` and
  `idle_active`, once;
* **`atomic_iff`** — a call of `SuperPoll_add` registers the task or leaves things as they
  were, exactly if it does not take a slot that the kernel then refuses to arm.

Design notes: the kernel's set is what its answers make of it; a descriptor that is closed
leaves it (`Op.closed`).  The answer to an `EPOLL_CTL_DEL` stands beside its event.  A step
whose `epoll_wait` reports anything but nodes in the set, each once, is not enabled.
-/
import Mongrel2.SuperPoll
import Mathlib.Data.List.Nodup

namespace Mongrel2.SuperPoll

open Sweep

/-! ### The calls -/

/-- What `epoll_ctl` answers: 0, -1 with `EEXIST`, or -1. -/
inductive CtlAnswer
  | ok
  | eexist
  | fails
  deriving DecidableEq

/-- The direction that the letter `rw` stands for. -/
def Rw.ofLetter (rw : ℤ) : Option Rw :=
  if rw = 'r'.toNat then some .r else if rw = 'w'.toNat then some .w else none

/-- `SuperPoll_add_poll`. -/
def Poller.addPoll (sp : Poller) (data : Option TaskId) (socket : Option ℕ) (fd rw : ℤ) :
    ℤ × Poller :=
  if sp.hot.length < sp.maxHot then
    match Rw.ofLetter rw with
    | some rw =>
      let sp := { sp with hot := sp.hot ++ [⟨socket, fd, rw.bits, 0, data⟩] }
      (sp.hot.length, sp)
    | none => (-1, sp)
  else (-1, sp)

/-- `SuperPoll_add_idle`, with the answers to the `ADD` and to the `MOD`. -/
def Idle.add (add mod : CtlAnswer) (idle : Idle) (data : Option TaskId) (fd rw : ℤ) : ℤ × Idle :=
  match idle.free.getLast? with
  | none => (-1, idle)
  | some next =>
    let idle := idle.push next ⟨fd, data⟩
    match Rw.ofLetter rw, add, mod with
    | none, _, _ => (-1, idle)
    | some rw, .ok, _ => (1, idle.setInterest fd (some ⟨next, rw⟩))
    -- a `MOD` that succeeds runs on into the error label
    | some rw, .eexist, .ok => (-1, idle.setInterest fd (some ⟨next, rw⟩))
    | some _, _, _ => (-1, idle)

/-- `SuperPoll_add`. -/
def Poller.add (add mod : CtlAnswer) (sp : Poller) (data : Option TaskId) (socket : Option ℕ)
    (fd rw : ℤ) (hot : Bool) : ℤ × Poller :=
  if socket.isSome || hot then sp.addPoll data socket fd rw
  else
    let (rc, idle) := sp.idle.add add mod data fd rw
    (rc, { sp with idle := idle })

/-- What `epoll_wait` answers, `none` for -1; with each event the answer to its `DEL`. -/
abbrev Batch := Option (List (EpollEvent × CtlAnswer))

/-- `ev.revents` after an event; it is never reset. -/
def EpollEvent.sets (e : EpollEvent) (revents : ℕ) : ℕ :=
  if e.pollout then Rw.w.bits else if e.pollin then Rw.r.bits else revents

/-- The hit for a slot, if there is a result. -/
def IdleData.hit (d : IdleData) (revents : ℕ) : List Hot :=
  if revents ≠ 0 then [⟨none, d.fd, 0, revents, d.data⟩] else []

/-- The loop of `SuperPoll_add_idle_hits`; false for -1. -/
def Idle.addHits : List (EpollEvent × CtlAnswer) → ℕ → Idle → List Hot → Bool × Idle × List Hot
  | [], _, idle, hits => (true, idle, hits)
  | (e, del) :: events, revents, idle, hits =>
    let hits := hits ++ (idle.data e.node).hit (e.sets revents)
    if del = .ok then Idle.addHits events (e.sets revents) (idle.release e.node) hits
    else (false, idle, hits)

/-- What the loop of `SuperPoll_poll` changes besides the hot arrays: the idle half, the
hits, `hit_idle`, and the answers of `epoll_wait` to come.  `legal` says whether those so
far named nodes of the set, each once. -/
structure Visits where
  idle : Idle
  hits : List Hot
  hitIdle : Bool
  waits : List Batch
  legal : Bool

/-- One entry with a result, in the loop of `SuperPoll_poll`; false at the error label. -/
def Visits.visit (idleFd : ℤ) (s : Visits) (h : Hot) : Bool × Visits :=
  if h.fd = idleFd then
    match s.waits.headD (some []) with
    | none => (false, { s with hitIdle := true, waits := s.waits.tail })
    | some events =>
      let legal := s.legal && s.idle.reports (events.map Prod.fst)
      let (ok, idle, hits) := Idle.addHits events 0 s.idle s.hits
      (ok, ⟨idle, hits, true, s.waits.tail, legal⟩)
  else (true, { s with hits := s.hits ++ [h] })

/-- What `zmq_poll` answers: the results, or -1. -/
inductive ZmqAnswer
  | found (revents : ℕ → ℕ)
  | interrupted
  | failed

/-- What a call of `SuperPoll_poll` comes to. -/
structure Polled where
  rc : ℤ
  sp : Poller
  hits : List Hot
  legal : Bool

/-- `SuperPoll_poll`. -/
def Poller.poll (sp : Poller) (zmq : ZmqAnswer) (waits : List Batch) : Polled :=
  match zmq with
  | .failed => ⟨-1, sp, [], true⟩
  | .interrupted => ⟨0, sp, [], true⟩
  | .found revents =>
    let hot := zmqPoll revents sp.hot
    let nfound := hot.countP Hot.reported
    let (ok, hot, s) := sweepUntil Hot.reported (Visits.visit sp.idleFd) nfound 0 hot
      ⟨sp.idle, [], false, waits, true⟩
    let sp := { sp with hot := hot, idle := s.idle }
    if ok then
      -- `SuperPoll_arm_idle_fd`
      let sp := if s.hitIdle then (sp.addPoll none none sp.idleFd 'r'.toNat).2 else sp
      ⟨s.hits.length, sp, s.hits, s.legal⟩
    else ⟨-1, sp, s.hits, s.legal⟩

/-- `SuperPoll_setup_idle`, once there is an epoll set. -/
def setupIdle (maxHot maxIdle : ℕ) (idleFd : ℤ) : Poller :=
  ⟨[], maxHot, idleFd, ⟨fun _ => ⟨0, none⟩, List.range maxIdle, [], fun _ => none⟩⟩

/-- `SuperPoll_create`, which then arms the set. -/
def create (maxHot maxIdle : ℕ) (idleFd : ℤ) : Option Poller :=
  match (setupIdle maxHot maxIdle idleFd).addPoll none none idleFd 'r'.toNat with
  | (-1, _) => none
  | (_, sp) => some sp

/-! ### Runs -/

/-- A call, or a descriptor that the kernel drops because it was closed. -/
inductive Call
  | add (add mod : CtlAnswer) (data : Option TaskId) (socket : Option ℕ) (fd rw : ℤ) (hot : Bool)
  | poll (zmq : ZmqAnswer) (waits : List Batch)
  | closed (fd : ℤ)

/-- One step. -/
def Poller.step (sp : Poller) : Call → Option Poller
  | .add add mod data socket fd rw hot => some (sp.add add mod data socket fd rw hot).2
  | .poll zmq waits => if (sp.poll zmq waits).legal then some (sp.poll zmq waits).sp else none
  | .closed fd => some { sp with idle := sp.idle.setInterest fd none }

/-- The states that the calls can lead to. -/
def Reachable (maxIdle : ℕ) (sp : Poller) : Prop :=
  ∃ maxHot idleFd sp₀ calls, create maxHot maxIdle idleFd = some sp₀ ∧
    Runs.exec Poller.step sp₀ calls = some sp

/-- Each of the `maxIdle` slots is on one of the lists, once, and nothing else is. -/
structure Conserved (maxIdle : ℕ) (sp : Poller) : Prop where
  once : ∀ n < maxIdle, sp.idle.free.count n + sp.idle.active.count n = 1
  slot : ∀ n ∈ sp.idle.free ++ sp.idle.active, n < maxIdle
  sum : sp.idle.free.length + sp.idle.active.length = maxIdle

/-! ### The lists -/

/-- The invariant of the idle half, whatever the kernel answers. -/
structure Idle.Slots (maxIdle : ℕ) (idle : Idle) : Prop where
  perm : (idle.active ++ idle.free).Perm (List.range maxIdle)
  referred : ∀ fd i, idle.interest fd = some i →
    i.node ∈ idle.active ∧ (idle.data i.node).fd = fd

section

variable {maxIdle : ℕ} {idle : Idle} {n next : ℕ} {fd rw : ℤ}

theorem Idle.Slots.nodup (h : idle.Slots maxIdle) : (idle.active ++ idle.free).Nodup :=
  h.perm.nodup_iff.mpr List.nodup_range

theorem Idle.Slots.mem_active (h : idle.Slots maxIdle) (hn : idle.armed n = true) :
    n ∈ idle.active := by
  obtain ⟨i, hi, rfl⟩ := armed_iff.mp hn
  exact (h.referred _ _ hi).1

theorem Idle.Slots.fresh (h : idle.Slots maxIdle) (hnext : idle.free.getLast? = some next) :
    next ∉ idle.active := fun hmem =>
  (List.nodup_append.mp h.nodup).2.2 next hmem next (List.mem_of_getLast? hnext) rfl

/-- A slot goes from the free list to the active ones. -/
theorem slots_push (h : idle.Slots maxIdle) (hnext : idle.free.getLast? = some next)
    (d : IdleData) : (idle.push next d).Slots maxIdle := by
  obtain ⟨free, hfree⟩ := List.getLast?_eq_some_iff.mp hnext
  have hperm : (idle.active ++ [next] ++ idle.free.dropLast).Perm (idle.active ++ idle.free) := by
    rw [hfree, List.dropLast_concat, List.append_assoc]
    exact (List.perm_append_singleton next free).symm.append_left idle.active
  refine ⟨hperm.trans h.perm, fun fd i hi => ?_⟩
  obtain ⟨hmem, hfd⟩ := h.referred fd i hi
  have hne : i.node ≠ next := fun heq => h.fresh hnext (heq ▸ hmem)
  have hdata : (idle.push next d).data i.node = idle.data i.node := Function.update_of_ne hne ..
  exact ⟨List.mem_append_left _ hmem, by rw [hdata]; exact hfd⟩

/-- The kernel forgets a descriptor, or refers to an active slot that is for it. -/
theorem slots_setInterest (h : idle.Slots maxIdle) (i : Option Interest)
    (hi : ∀ j ∈ i, j.node ∈ idle.active ∧ (idle.data j.node).fd = fd) :
    (idle.setInterest fd i).Slots maxIdle := by
  refine ⟨h.perm, fun fd' j hj => ?_⟩
  have hupdate : (idle.setInterest fd i).interest fd' =
      if fd' = fd then i else idle.interest fd' := Function.update_apply ..
  rw [hupdate] at hj
  split at hj
  case isTrue heq =>
    obtain ⟨hmem, hfd⟩ := hi j hj
    exact ⟨hmem, hfd.trans heq.symm⟩
  case isFalse => exact h.referred fd' j hj

/-- A slot that the kernel refers to goes back to the free list. -/
theorem slots_release (h : idle.Slots maxIdle) (hn : idle.armed n = true) :
    (idle.release n).Slots maxIdle := by
  have hmem := h.mem_active hn
  have hperm : (idle.active.erase n ++ (idle.free ++ [n])).Perm (idle.active ++ idle.free) := by
    rw [← List.append_assoc]
    refine (List.perm_append_singleton n _).trans ?_
    exact ((List.perm_cons_erase hmem).append_right idle.free).symm
  exact ⟨hperm.trans h.perm, fun fd i => referred_release h.referred⟩

/-! ### The calls keep the lists -/

theorem slots_add (h : idle.Slots maxIdle) (add mod : CtlAnswer) (data : Option TaskId) (fd rw : ℤ) :
    (idle.add add mod data fd rw).2.Slots maxIdle := by
  unfold Idle.add
  split
  case h_1 => exact h
  case h_2 next hnext =>
    have hpush := slots_push h hnext ⟨fd, data⟩
    have harmed : ∀ rw' : Rw,
        ((idle.push next ⟨fd, data⟩).setInterest fd (some ⟨next, rw'⟩)).Slots maxIdle := by
      intro rw'
      refine slots_setInterest hpush _ fun j hj => ?_
      obtain rfl := Option.some.inj hj
      have hself : (idle.push next ⟨fd, data⟩).data next = ⟨fd, data⟩ := Function.update_self ..
      exact ⟨List.mem_append_right _ (List.mem_singleton_self next), by rw [hself]⟩
    dsimp only
    split
    · exact hpush
    · exact harmed _
    · exact harmed _
    · exact hpush

/-- A batch of events keeps the lists, also where it stops at a `DEL` that fails. -/
theorem slots_addHits {events : List (EpollEvent × CtlAnswer)} (revents : ℕ) (hits : List Hot)
    (h : idle.Slots maxIdle) (hrep : idle.reports (events.map Prod.fst) = true) :
    (Idle.addHits events revents idle hits).2.1.Slots maxIdle := by
  induction events generalizing idle revents hits with
  | nil => exact h
  | cons e events ih =>
    obtain ⟨e, del⟩ := e
    obtain ⟨harmed, hrest⟩ := reports_cons hrep
    rw [Idle.addHits]
    split_ifs
    · exact ih _ _ (slots_release h harmed) hrest
    · exact h

/-- A visit keeps the lists while the kernel names nodes of its set. -/
theorem slots_visit {idleFd : ℤ} {s : Visits} (hs : s.legal = true → s.idle.Slots maxIdle) (e : Hot)
    (hlegal : (s.visit idleFd e).2.legal = true) : (s.visit idleFd e).2.idle.Slots maxIdle := by
  unfold Visits.visit at hlegal ⊢
  split_ifs at hlegal ⊢ with hidle
  · cases hbatch : s.waits.headD (some []) with
    | none =>
      rw [hbatch] at hlegal
      exact hs hlegal
    | some events =>
      rw [hbatch] at hlegal
      obtain ⟨hbefore, hrep⟩ := Bool.and_eq_true_iff.mp hlegal
      exact slots_addHits 0 s.hits (hs hbefore) hrep
  · exact hs hlegal

theorem addPoll_idle (sp : Poller) (data : Option TaskId) (socket : Option ℕ) (fd rw : ℤ) :
    (sp.addPoll data socket fd rw).2.idle = sp.idle := by
  unfold Poller.addPoll
  split
  · split <;> rfl
  · rfl

theorem slots_poll {sp : Poller} (h : sp.idle.Slots maxIdle) (zmq : ZmqAnswer) (waits : List Batch)
    (hlegal : (sp.poll zmq waits).legal = true) : (sp.poll zmq waits).sp.idle.Slots maxIdle := by
  cases zmq with
  | failed => exact h
  | interrupted => exact h
  | found revents =>
    have hloop := @sweepUntil_inv Hot Visits Hot.reported (Visits.visit sp.idleFd)
      (fun s => s.legal = true → s.idle.Slots maxIdle) (fun s e hs => slots_visit hs e)
      ((zmqPoll revents sp.hot).countP Hot.reported) 0 (zmqPoll revents sp.hot)
      ⟨sp.idle, [], false, waits, true⟩ fun _ => h
    unfold Poller.poll at hlegal ⊢
    dsimp only at hlegal ⊢
    generalize sweepUntil Hot.reported (Visits.visit sp.idleFd) _ 0 (zmqPoll revents sp.hot)
      ⟨sp.idle, [], false, waits, true⟩ = out at hloop hlegal ⊢
    obtain ⟨ok, hot, s⟩ := out
    dsimp only at hloop hlegal ⊢
    cases ok with
    | false => exact hloop hlegal
    | true =>
      have hs := hloop hlegal
      cases s.hitIdle with
      | false => exact hs
      | true =>
        simp only [if_true, addPoll_idle]
        exact hs

end

/-! ### Conservation -/

section

variable {maxHot maxIdle : ℕ} {idleFd : ℤ} {sp sp₀ sp' : Poller}

/-- What holds in every state. -/
structure Poller.Kept (maxIdle : ℕ) (sp : Poller) : Prop where
  slots : sp.idle.Slots maxIdle
  room : sp.hot.length ≤ sp.maxHot

theorem conserved_of_slots (h : sp.idle.Slots maxIdle) : Conserved maxIdle sp where
  once n hn := by
    have hcount := List.count_eq_one_of_mem h.nodup (h.perm.mem_iff.mpr (List.mem_range.mpr hn))
    rw [List.count_append] at hcount
    omega
  slot n hn := by
    have hmem : n ∈ sp.idle.active ++ sp.idle.free := List.perm_append_comm.mem_iff.mp hn
    exact List.mem_range.mp (h.perm.mem_iff.mp hmem)
  sum := by
    have hlen := h.perm.length_eq
    rw [List.length_append, List.length_range] at hlen
    omega

theorem room_addPoll (h : sp.hot.length ≤ sp.maxHot) (data : Option TaskId) (socket : Option ℕ)
    (fd rw : ℤ) : (sp.addPoll data socket fd rw).2.hot.length ≤
      (sp.addPoll data socket fd rw).2.maxHot := by
  unfold Poller.addPoll
  split
  · split
    · show (sp.hot ++ [_]).length ≤ sp.maxHot
      rw [List.length_append, List.length_singleton]
      omega
    · exact h
  · exact h

theorem room_poll (h : sp.hot.length ≤ sp.maxHot) (zmq : ZmqAnswer) (waits : List Batch) :
    (sp.poll zmq waits).sp.hot.length ≤ (sp.poll zmq waits).sp.maxHot := by
  cases zmq with
  | failed => exact h
  | interrupted => exact h
  | found revents =>
    have hlen := @length_sweepUntil_le Hot Visits Hot.reported (Visits.visit sp.idleFd)
      ((zmqPoll revents sp.hot).countP Hot.reported) 0 (zmqPoll revents sp.hot)
      ⟨sp.idle, [], false, waits, true⟩
    have hzmq : (zmqPoll revents sp.hot).length = sp.hot.length := List.length_mapIdx
    unfold Poller.poll
    dsimp only
    generalize sweepUntil Hot.reported (Visits.visit sp.idleFd) _ 0 (zmqPoll revents sp.hot)
      ⟨sp.idle, [], false, waits, true⟩ = out at hlen ⊢
    obtain ⟨ok, hot, s⟩ := out
    have hroom : hot.length ≤ sp.maxHot := by
      dsimp only at hlen
      omega
    cases ok with
    | false => exact hroom
    | true =>
      cases s.hitIdle with
      | false => exact hroom
      | true => exact room_addPoll hroom ..

/-- `SuperPoll_create` fills the free list. -/
theorem kept_create (h : create maxHot maxIdle idleFd = some sp) : sp.Kept maxIdle := by
  unfold create at h
  split at h
  · exact absurd h (by simp)
  case h_2 rc sp' _ hadd =>
    obtain rfl := Option.some.inj h
    have hsp := congrArg Prod.snd hadd
    dsimp only at hsp
    rw [← hsp]
    refine ⟨?_, room_addPoll (Nat.zero_le _) ..⟩
    rw [addPoll_idle]
    exact ⟨.refl _, fun fd i hi => absurd hi (by simp [setupIdle])⟩

theorem kept_step (h : sp.Kept maxIdle) {call : Call} (hstep : sp.step call = some sp') :
    sp'.Kept maxIdle := by
  cases call with
  | add add mod data socket fd rw hot =>
    obtain rfl := Option.some.inj hstep
    unfold Poller.add
    split
    · exact ⟨by rw [addPoll_idle]; exact h.slots, room_addPoll h.room ..⟩
    · exact ⟨slots_add h.slots add mod data fd rw, h.room⟩
  | poll zmq waits =>
    obtain ⟨hlegal, hstep⟩ := Option.ite_none_right_eq_some.mp hstep
    obtain rfl := Option.some.inj hstep
    exact ⟨slots_poll h.slots zmq waits hlegal, room_poll h.room zmq waits⟩
  | closed fd =>
    obtain rfl := Option.some.inj hstep
    exact ⟨slots_setInterest h.slots none fun j hj => absurd hj (by simp), h.room⟩

theorem kept_always (h : sp.Kept maxIdle) (calls : List Call) :
    Runs.Always Poller.step (Poller.Kept maxIdle) sp calls :=
  Runs.always_of_step (fun _ _ _ hs hstep => kept_step hs hstep) h calls

theorem Reachable.kept (h : Reachable maxIdle sp) : sp.Kept maxIdle := by
  obtain ⟨maxHot, idleFd, sp₀, calls, hcreate, hrun⟩ := h
  exact (kept_always (kept_create hcreate) calls).last hrun

/-- **No slot is lost and none is on a list twice**, whatever fails. -/
theorem conserved_always (hcreate : create maxHot maxIdle idleFd = some sp₀) (calls : List Call) :
    Runs.Always Poller.step (Conserved maxIdle) sp₀ calls :=
  (kept_always (kept_create hcreate) calls).mono fun _ h => conserved_of_slots h.slots

/-- Two slots: a wait that fails, one that succeeds, and a round in which the `DEL` for it
fails. -/
def twoSlots : List Call :=
  [.add .fails .ok (some 1) none 8 'r'.toNat false, .add .ok .ok (some 2) none 9 'r'.toNat false,
    .poll (.found fun _ => 1) [some [(⟨0, true, false⟩, .fails)]]]

theorem conserved_always_twoSlots :
    ∃ sp₀, create 1 2 5 = some sp₀ ∧ Runs.Always Poller.step (Conserved 2) sp₀ twoSlots ∧
      (Runs.exec Poller.step sp₀ twoSlots).isSome = true :=
  ⟨_, rfl, @conserved_always 1 2 5 _ rfl twoSlots, by decide⟩

end

/-! ### A call that adds a task -/

/-- What a task is registered for. -/
structure Record where
  socket : Option ℕ
  fd : ℤ
  events : ℕ
  data : Option TaskId
  deriving DecidableEq

def Hot.record (h : Hot) : Record := ⟨h.socket, h.fd, h.events, h.data⟩

/-- The record of a node that the kernel refers to. -/
def Idle.record (idle : Idle) (n : ℕ) : Option Record :=
  ((idle.interest (idle.data n).fd).filter (·.node = n)).map fun i =>
    ⟨none, (idle.data n).fd, i.rw.bits, (idle.data n).data⟩

/-- All that `zmq_poll` and the kernel are armed for. -/
def Poller.registered (sp : Poller) : List Record :=
  sp.hot.map Hot.record ++ sp.idle.active.filterMap sp.idle.record

/-- A call that answers `rc` registers the task for the descriptor and the direction, or
answers -1 and leaves things as they were. -/
structure Atomic (sp sp' : Poller) (rc : ℤ) (data : Option TaskId) (socket : Option ℕ)
    (fd rw : ℤ) : Prop where
  refused : rc = -1 ↔ ∀ d ∈ Rw.ofLetter rw,
    sp'.registered.count ⟨socket, fd, d.bits, data⟩ ≤ sp.registered.count ⟨socket, fd, d.bits, data⟩
  kept : rc = -1 → sp'.hot = sp.hot ∧ sp'.idle.free = sp.idle.free ∧
    sp'.idle.active = sp.idle.active
  added : 0 ≤ rc → ∃ d ∈ Rw.ofLetter rw,
    sp'.registered.Perm (⟨socket, fd, d.bits, data⟩ :: sp.registered)

section

variable {maxIdle : ℕ} {sp sp' : Poller} {idle : Idle} {data : Option TaskId} {socket : Option ℕ}
  {fd rw : ℤ} {add mod : CtlAnswer} {next : ℕ}

/-- A call that changes nothing and answers -1. -/
theorem atomic_refused : Atomic sp sp (-1) data socket fd rw :=
  ⟨iff_of_true rfl fun _ _ => le_rfl, fun _ => ⟨rfl, rfl, rfl⟩, fun h => absurd h (by decide)⟩

/-- A call that adds the record. -/
theorem atomic_added {rc : ℤ} {d : Rw} (hrc : 0 ≤ rc) (hd : Rw.ofLetter rw = some d)
    (hperm : sp'.registered.Perm (⟨socket, fd, d.bits, data⟩ :: sp.registered)) :
    Atomic sp sp' rc data socket fd rw := by
  refine ⟨iff_of_false (by omega) fun hall => ?_, fun h => absurd h (by omega), fun _ => ⟨d, hd, hperm⟩⟩
  have hle := hall d hd
  rw [hperm.count_eq, List.count_cons_self] at hle
  omega

/-- In the hot arrays there is room, or nothing changes. -/
theorem atomic_addPoll (sp : Poller) (data : Option TaskId) (socket : Option ℕ) (fd rw : ℤ) :
    Atomic sp (sp.addPoll data socket fd rw).2 (sp.addPoll data socket fd rw).1 data socket fd rw := by
  unfold Poller.addPoll
  split
  · cases hd : Rw.ofLetter rw with
    | none => exact atomic_refused
    | some d =>
      refine atomic_added (Int.natCast_nonneg _) hd ?_
      show ((sp.hot ++ [_]).map Hot.record ++ _).Perm _
      rw [List.map_append, List.append_assoc]
      exact List.perm_middle
  · exact atomic_refused

/-- The record of a slot that was active before is as it was. -/
theorem record_of_armed (hfresh : next ∉ idle.active) (hnew : idle.interest fd = none) (d : Rw) {m : ℕ}
    (hm : m ∈ idle.active) :
    ((idle.push next ⟨fd, data⟩).setInterest fd (some ⟨next, d⟩)).record m = idle.record m := by
  have hne : m ≠ next := fun heq => hfresh (heq ▸ hm)
  have hdata : ((idle.push next ⟨fd, data⟩).setInterest fd (some ⟨next, d⟩)).data m = idle.data m :=
    Function.update_of_ne hne ..
  have hinterest : ((idle.push next ⟨fd, data⟩).setInterest fd (some ⟨next, d⟩)).interest
      (idle.data m).fd = if (idle.data m).fd = fd then some ⟨next, d⟩ else
        idle.interest (idle.data m).fd := Function.update_apply ..
  rw [Idle.record, Idle.record, hdata, hinterest]
  split
  case isFalse => rfl
  case isTrue heq =>
    -- the kernel did not know the descriptor
    rw [heq, hnew, Option.filter_some, if_neg (by simpa using Ne.symm hne)]
    rfl

/-- A slot that the kernel arms at once is a new record. -/
theorem registered_armed (h : sp.idle.Slots maxIdle) (hnext : sp.idle.free.getLast? = some next)
    (hnew : sp.idle.interest fd = none) (d : Rw) :
    ({ sp with idle := (sp.idle.push next ⟨fd, data⟩).setInterest fd (some ⟨next, d⟩) } :
      Poller).registered.Perm (⟨none, fd, d.bits, data⟩ :: sp.registered) := by
  have hfresh := h.fresh hnext
  have hself : ((sp.idle.push next ⟨fd, data⟩).setInterest fd (some ⟨next, d⟩)).record next =
      some ⟨none, fd, d.bits, data⟩ := by
    have hdata : ((sp.idle.push next ⟨fd, data⟩).setInterest fd (some ⟨next, d⟩)).data next =
      ⟨fd, data⟩ := Function.update_self ..
    have hinterest : ((sp.idle.push next ⟨fd, data⟩).setInterest fd (some ⟨next, d⟩)).interest fd =
      some ⟨next, d⟩ := Function.update_self ..
    rw [Idle.record, hdata, hinterest, Option.filter_some, if_pos (by simp)]
    rfl
  have hold : sp.idle.active.filterMap
        ((sp.idle.push next ⟨fd, data⟩).setInterest fd (some ⟨next, d⟩)).record =
      sp.idle.active.filterMap sp.idle.record :=
    List.filterMap_congr fun m hm => record_of_armed hfresh hnew d hm
  show (sp.hot.map Hot.record ++ (sp.idle.active ++ [next]).filterMap _).Perm _
  have hnew' : [next].filterMap
        ((sp.idle.push next ⟨fd, data⟩).setInterest fd (some ⟨next, d⟩)).record =
      [⟨none, fd, d.bits, data⟩] := by
    rw [List.filterMap_cons_some hself]
    rfl
  rw [List.filterMap_append, hold, hnew', ← List.append_assoc]
  exact List.perm_append_singleton _ _

/-- Where a slot was taken and the call answers -1, it does not leave things as they were. -/
theorem not_atomic_of_pushed (hactive : sp'.idle.active = sp.idle.active ++ [next]) :
    ¬ Atomic sp sp' (-1) data socket fd rw := by
  intro hatomic
  have hsame := (hatomic.kept rfl).2.2
  rw [hactive] at hsame
  simp at hsame

/-- No slot is free. -/
theorem add_of_full (hnext : idle.free.getLast? = none) :
    idle.add add mod data fd rw = (-1, idle) := by
  rw [Idle.add, hnext]

/-- The kernel takes the descriptor at once. -/
theorem add_of_armed {d : Rw} (hnext : idle.free.getLast? = some next)
    (hd : Rw.ofLetter rw = some d) :
    idle.add .ok mod data fd rw =
      (1, (idle.push next ⟨fd, data⟩).setInterest fd (some ⟨next, d⟩)) := by
  simp only [Idle.add, hnext, hd]

/-- It does not: the slot stays active, whatever the `MOD` answers. -/
theorem add_of_not_armed (hnext : idle.free.getLast? = some next)
    (harmed : ¬ (Rw.ofLetter rw ≠ none ∧ add = .ok)) :
    (idle.add add mod data fd rw).1 = -1 ∧
      (idle.add add mod data fd rw).2.active = idle.active ++ [next] := by
  cases hd : Rw.ofLetter rw with
  | none => simp [Idle.add, hnext, hd, Idle.push]
  | some d =>
    cases add with
    | ok => exact absurd ⟨by simp [hd], rfl⟩ harmed
    | eexist => cases mod <;> simp [Idle.add, hnext, hd, Idle.push, Idle.setInterest]
    | fails => simp [Idle.add, hnext, hd, Idle.push]

/-- **`SuperPoll_add` is atomic** in a state that can be reached, exactly if the call is for
the hot arrays, there is no free slot, or the letter is a direction and the kernel takes
the descriptor at once. -/
theorem atomic_iff (hreach : Reachable maxIdle sp) (hkernel : add = .ok → sp.idle.interest fd = none)
    (mod : CtlAnswer) (data : Option TaskId) (socket : Option ℕ) (rw : ℤ) (hot : Bool) :
    Atomic sp (sp.add add mod data socket fd rw hot).2 (sp.add add mod data socket fd rw hot).1
        data socket fd rw ↔
      socket.isSome = true ∨ hot = true ∨ sp.idle.free = [] ∨
        (Rw.ofLetter rw ≠ none ∧ add = .ok) := by
  by_cases hpoll : (socket.isSome || hot) = true
  · have hrun : sp.add add mod data socket fd rw hot = sp.addPoll data socket fd rw := if_pos hpoll
    rw [hrun]
    rw [Bool.or_eq_true] at hpoll
    exact iff_of_true (atomic_addPoll sp data socket fd rw) (or_assoc.mp (.inl hpoll))
  · have hrun : sp.add add mod data socket fd rw hot =
        ((sp.idle.add add mod data fd rw).1,
          { sp with idle := (sp.idle.add add mod data fd rw).2 }) := if_neg hpoll
    obtain ⟨hsocket, hhot⟩ := not_or.mp (Bool.or_eq_true _ _ ▸ hpoll)
    obtain rfl : socket = none := by simpa using hsocket
    rw [hrun, or_iff_right hsocket, or_iff_right hhot]
    cases hnext : sp.idle.free.getLast? with
    | none =>
      rw [add_of_full hnext]
      exact iff_of_true atomic_refused (.inl (List.getLast?_eq_none_iff.mp hnext))
    | some next =>
      have hfree : sp.idle.free ≠ [] := by
        rintro hnil
        rw [hnil] at hnext
        exact absurd hnext (by simp)
      rw [or_iff_right hfree]
      by_cases harmed : Rw.ofLetter rw ≠ none ∧ add = .ok
      · -- the kernel takes the descriptor at once
        obtain ⟨hletter, rfl⟩ := harmed
        obtain ⟨d, hd⟩ := Option.ne_none_iff_exists'.mp hletter
        rw [add_of_armed hnext hd]
        refine iff_of_true (atomic_added (show (0 : ℤ) ≤ 1 by decide) hd ?_) ⟨hletter, rfl⟩
        exact registered_armed hreach.kept.slots hnext (hkernel rfl) d
      · -- the slot is active, and the call answers -1
        obtain ⟨hrc, hactive⟩ := add_of_not_armed hnext harmed
        rw [hrc]
        exact iff_of_false (not_atomic_of_pushed hactive) harmed

end

/-- A task waits for descriptor 9. -/
def oneWaits : Call := .add .ok .ok (some 1) none 9 'r'.toNat false

/-- The next one for another descriptor is atomic. -/
theorem atomic_iff_second :
    ∃ sp₀ sp, create 1 2 5 = some sp₀ ∧ sp₀.step oneWaits = some sp ∧
      Atomic sp (sp.add .ok .ok (some 2) none 10 'w'.toNat false).2
        (sp.add .ok .ok (some 2) none 10 'w'.toNat false).1 (some 2) none 10 'w'.toNat := by
  refine ⟨_, _, rfl, rfl, (@atomic_iff 2 _ 10 .ok ⟨1, 5, _, [oneWaits], rfl, rfl⟩ ?_ .ok (some 2) none
    'w'.toNat false).mpr (.inr (.inr (.inr ⟨by decide, rfl⟩)))⟩
  exact fun _ => rfl

/-- A second task waits for the same descriptor: the `MOD` registers it, its slot is active,
and the call answers -1. -/
theorem not_atomic_sameFd :
    ∃ sp₀ sp, create 1 2 5 = some sp₀ ∧ sp₀.step oneWaits = some sp ∧
      sp.idle.interest 9 ≠ none ∧
      ¬ Atomic sp (sp.add .eexist .ok (some 2) none 9 'r'.toNat false).2
        (sp.add .eexist .ok (some 2) none 9 'r'.toNat false).1 (some 2) none 9 'r'.toNat := by
  refine ⟨_, _, rfl, rfl, by decide, fun hatomic => ?_⟩
  exact absurd (hatomic.kept rfl).2.2 (by decide)

/-! ### The call in `_wait` -/

/-- What the kernel answers to an `ADD` and a `MOD` in `_wait`. -/
def Ctl.add (ctl : Ctl) (idle : Idle) (fd : ℤ) : CtlAnswer :=
  if (idle.interest fd).isSome then .eexist else if ctl.addFails then .fails else .ok

def Ctl.mod (ctl : Ctl) : CtlAnswer := if ctl.modFails then .fails else .ok

/-- **`_wait` calls `SuperPoll_add`**, hot while there is room. -/
theorem wait_eq (ctl : Ctl) (sp : Poller) (task : TaskId) (socket : Option ℕ) (fd : ℤ) {d : Rw}
    {letter : ℤ} (hd : Rw.ofLetter letter = some d) :
    wait ctl sp task socket fd d =
      (decide (0 ≤ (sp.add (ctl.add sp.idle fd) ctl.mod (some task) socket fd letter
          (sp.hot.length < sp.maxHot)).1),
        (sp.add (ctl.add sp.idle fd) ctl.mod (some task) socket fd letter
          (sp.hot.length < sp.maxHot)).2) := by
  have hhot : (socket.isSome || decide (sp.hot.length < sp.maxHot)) = true ↔
      socket.isSome ∨ sp.hot.length < sp.maxHot := by simp
  unfold wait Poller.add
  by_cases hpoll : socket.isSome ∨ sp.hot.length < sp.maxHot
  · rw [if_pos hpoll, if_pos (hhot.mpr hpoll), SuperPoll.addPoll, Poller.addPoll, hd]
    by_cases hroom : sp.hot.length < sp.maxHot
    · rw [if_pos hroom, if_pos hroom]
      refine Prod.ext (Eq.symm ?_) rfl
      dsimp only
      exact decide_eq_true (Int.natCast_nonneg _)
    · rw [if_neg hroom, if_neg hroom]
      rfl
  · rw [if_neg hpoll, if_neg fun h => hpoll (hhot.mp h)]
    rw [addIdle, Idle.add, hd]
    cases hnext : sp.idle.free.getLast? with
    | none => rfl
    | some next =>
      have hinterest : (sp.idle.push next ⟨fd, some task⟩).interest = sp.idle.interest := rfl
      dsimp only
      rw [hinterest, Ctl.add, Ctl.mod]
      cases (sp.idle.interest fd).isSome <;> cases ctl.modFails <;> cases ctl.addFails <;> rfl

end Mongrel2.SuperPoll

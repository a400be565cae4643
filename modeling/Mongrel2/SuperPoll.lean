/-
Waiting for descriptors (`superpoll.c`, `task/fd.c`).

A task that waits is recorded in the arrays that `zmq_poll` gets, or, when these are
full, in a node of the idle list that the kernel's epoll set refers to.

* `wait` — `_wait`, with `SuperPoll_add`;
* `poll` — `SuperPoll_poll`, and `fdtask` making its hits ready;
* `Accounted` — every task either runs, or has one record;
* **`accounted_iff`** — on every run, this holds throughout exactly if each wait finds
  a place of its own and no batch of epoll events starts with one that is neither
  `EPOLLIN` nor `EPOLLOUT`.

Design notes: `EPOLLONESHOT` disables an entry when it is reported; it is deleted
right then, so an entry in the set is armed.  A `zmq_poll` or `epoll_wait` that fails
ends the process.  No task gets the descriptor of the epoll set to wait for.
-/
import Mongrel2.Runs
import Mongrel2.Sweep
import Mathlib.Logic.Function.Basic

namespace Mongrel2.SuperPoll

open Sweep

/-! ### The poller -/

abbrev TaskId := ℕ

/-- The letter `rw`. -/
inductive Rw
  | r | w
  deriving DecidableEq, Repr

/-- `ZMQ_POLLIN` and `ZMQ_POLLOUT`. -/
def Rw.bits : Rw → ℕ
  | .r => 1
  | .w => 2

/-- `zmq_pollitem_t`, and the entry of `hot_data` beside it. -/
structure Hot where
  socket : Option ℕ
  fd : ℤ
  events : ℕ
  revents : ℕ
  data : Option TaskId

/-- `IdleData`. -/
structure IdleData where
  fd : ℤ
  data : Option TaskId

/-- An entry of the epoll set: the node in `event.data.ptr`, and what it is armed
for. -/
structure Interest where
  node : ℕ
  rw : Rw
  deriving DecidableEq

/-- The idle half of a `SuperPoll`, and the kernel's epoll set.  A node is named by
its index in `idle_data`. -/
structure Idle where
  data : ℕ → IdleData
  free : List ℕ
  active : List ℕ
  interest : ℤ → Option Interest

/-- A `SuperPoll`; `nfd_hot` is the length of `hot`. -/
structure Poller where
  hot : List Hot
  maxHot : ℕ
  idleFd : ℤ
  idle : Idle

/-- `epoll_event` as reported, less `EPOLLERR` and `EPOLLHUP`. -/
structure EpollEvent where
  node : ℕ
  pollin : Bool
  pollout : Bool
  deriving DecidableEq

/-- What `_wait` finds in the kernel: whether `EPOLL_CTL_ADD` fails for a descriptor
that is not in the set, and whether `EPOLL_CTL_MOD` fails. -/
structure Ctl where
  addFails : Bool
  modFails : Bool
  deriving DecidableEq

/-- `SuperPoll_add_poll`; `none` when it returns -1. -/
def addPoll (sp : Poller) (data : Option TaskId) (socket : Option ℕ) (fd : ℤ) (rw : Rw) :
    Option Poller :=
  if sp.hot.length < sp.maxHot then
    some { sp with hot := sp.hot ++ [⟨socket, fd, rw.bits, 0, data⟩] }
  else none

/-- `epoll_ctl`. -/
def Idle.setInterest (idle : Idle) (fd : ℤ) (i : Option Interest) : Idle :=
  { idle with interest := Function.update idle.interest fd i }

/-- The last free node becomes active, with what it is for. -/
def Idle.push (idle : Idle) (next : ℕ) (d : IdleData) : Idle :=
  { idle with
    free := idle.free.dropLast
    data := Function.update idle.data next d
    active := idle.active ++ [next] }

/-- An active node becomes free, and leaves the epoll set. -/
def Idle.release (idle : Idle) (n : ℕ) : Idle :=
  { idle.setInterest (idle.data n).fd none with
    active := idle.active.erase n
    free := idle.free ++ [n] }

/-- `SuperPoll_add_idle`; false when it returns -1. -/
def addIdle (ctl : Ctl) (idle : Idle) (data : TaskId) (fd : ℤ) (rw : Rw) : Bool × Idle :=
  match idle.free.getLast? with
  | none => (false, idle)
  | some next =>
    let idle := idle.push next ⟨fd, some data⟩
    if (idle.interest fd).isSome then
      -- `EEXIST`: after the `MOD` the code runs on into the error label
      if ctl.modFails then (false, idle)
      else (false, idle.setInterest fd (some ⟨next, rw⟩))
    else if ctl.addFails then (false, idle)
    else (true, idle.setInterest fd (some ⟨next, rw⟩))

/-- The call of `SuperPoll_add` in `_wait`; false when it returns -1.  The task
switches away in either case. -/
def wait (ctl : Ctl) (sp : Poller) (task : TaskId) (socket : Option ℕ) (fd : ℤ) (rw : Rw) :
    Bool × Poller :=
  if socket.isSome ∨ sp.hot.length < sp.maxHot then
    match addPoll sp (some task) socket fd rw with
    | some sp => (true, sp)
    | none => (false, sp)
  else
    let (ok, idle) := addIdle ctl sp.idle task fd rw
    (ok, { sp with idle := idle })

/-! ### A round of polling -/

/-- What the loop of `SuperPoll_poll` changes besides the hot arrays: the idle half,
the tasks hit, `hit_idle`, and the events that `epoll_wait` still has to report. -/
structure Round where
  idle : Idle
  hits : List (Option TaskId)
  hitIdle : Bool
  pending : List EpollEvent

/-- The loop of `SuperPoll_add_idle_hits`; `revents` is `ev.revents`, which is never
reset. -/
def addIdleHits : List EpollEvent → ℕ → Idle → List (Option TaskId) →
    Option (Idle × List (Option TaskId))
  | [], _, idle, hits => some (idle, hits)
  | e :: events, revents, idle, hits =>
    let d := idle.data e.node
    let revents := if e.pollin then Rw.r.bits else revents
    let revents := if e.pollout then Rw.w.bits else revents
    let hits := if revents ≠ 0 then hits ++ [d.data] else hits
    -- `EPOLL_CTL_DEL`, which fails for a descriptor that is not in the set
    if (idle.interest d.fd).isNone then none
    else addIdleHits events revents (idle.release e.node) hits

/-- One entry with a result, in the loop of `SuperPoll_poll`. -/
def visit (idleFd : ℤ) (s : Round) (h : Hot) : Option Round :=
  if h.fd = idleFd then
    (addIdleHits s.pending 0 s.idle s.hits).map fun (idle, hits) => ⟨idle, hits, true, []⟩
  else some { s with hits := s.hits ++ [h.data] }

/-- The entry has a result. -/
def Hot.reported (h : Hot) : Bool := h.revents ≠ 0

/-- `zmq_poll` sets the results of entry `i` to `revents i`. -/
def zmqPoll (revents : ℕ → ℕ) (hot : List Hot) : List Hot :=
  hot.mapIdx fun i h => { h with revents := revents i }

/-- `SuperPoll_poll` after a `zmq_poll` that was not interrupted, for the events that
`epoll_wait` reports if it is called; the tasks hit. -/
def poll (sp : Poller) (revents : ℕ → ℕ) (events : List EpollEvent) :
    Option (Poller × List (Option TaskId)) :=
  let hot := zmqPoll revents sp.hot
  let nfound := hot.countP Hot.reported
  (sweep Hot.reported (visit sp.idleFd) nfound 0 hot ⟨sp.idle, [], false, events⟩).map
    fun (hot, s) =>
      let sp := { sp with hot := hot, idle := s.idle }
      -- `SuperPoll_arm_idle_fd`
      let armed := if s.hitIdle then addPoll sp none none sp.idleFd .r else some sp
      (armed.getD sp, s.hits)

/-! ### Runs -/

/-- The tasks and the poller.  `ready` counts for each task how often `taskready` was
called on it since it last waited; a task that has not waited yet counts as one. -/
structure World where
  sp : Poller
  ready : TaskId → ℕ

/-- What happens next: a running task waits, or `fdtask` polls.  The results of a poll
are `none` when `zmq_poll` is interrupted. -/
inductive Op
  | wait (task : TaskId) (socket : Option ℕ) (fd : ℤ) (rw : Rw) (ctl : Ctl)
  | poll (revents : Option (ℕ → ℕ)) (events : List EpollEvent)

/-- The kernel's interest in the node's descriptor refers to the node. -/
def Idle.armed (idle : Idle) (n : ℕ) : Bool :=
  (idle.interest (idle.data n).fd).any (·.node = n)

/-- Events that `epoll_wait` can report: for entries of the set, each once. -/
def Idle.reports (idle : Idle) (events : List EpollEvent) : Bool :=
  events.all (fun e => idle.armed e.node) && (events.map EpollEvent.node).Nodup

/-- One step. -/
def step (w : World) : Op → Option World
  | .wait task socket fd rw ctl =>
    if w.ready task = 0 ∨ fd = w.sp.idleFd then none
    else some ⟨(wait ctl w.sp task socket fd rw).2, Function.update w.ready task 0⟩
  | .poll none _ => some w
  | .poll (some revents) events =>
    if !w.sp.idle.reports events then none
    else
      (poll w.sp revents events).map fun (sp, hits) =>
        ⟨sp, fun t => w.ready t + hits.count (some t)⟩

/-- After `SuperPoll_create`. -/
def start (maxHot : ℕ) (maxIdle : ℕ) (idleFd : ℤ) : World where
  sp :=
    { hot := [⟨none, idleFd, Rw.r.bits, 0, none⟩]
      maxHot := maxHot
      idleFd := idleFd
      idle := ⟨fun _ => ⟨0, none⟩, List.range maxIdle, [], fun _ => none⟩ }
  ready _ := 1

/-! ### The property and the condition -/

/-- The active nodes of a task that the kernel refers to. -/
def Idle.records (idle : Idle) (t : TaskId) : ℕ :=
  idle.active.countP fun n => idle.armed n && (idle.data n).data = some t

/-- The records of a task: entries of the hot arrays, and nodes. -/
def Poller.records (sp : Poller) (t : TaskId) : ℕ :=
  sp.hot.countP (·.data = some t) + sp.idle.records t

/-- Each task is ready once, and has no record, or waits, and has one. -/
def Accounted (w : World) : Prop := ∀ t, w.sp.records t + w.ready t = 1

/-- The event is one that a task waits for. -/
def EpollEvent.wanted (e : EpollEvent) : Bool := e.pollin || e.pollout

/-- A wait finds a place of its own; a batch of events starts with a wanted one. -/
def Ok (w : World) : Op → Prop
  | .wait task socket fd _ ctl =>
    w.ready task = 0 ∨ fd = w.sp.idleFd ∨ w.sp.hot.length < w.sp.maxHot ∨
      (socket = none ∧ w.sp.idle.free ≠ [] ∧ w.sp.idle.interest fd = none ∧ ctl.addFails = false)
  | .poll none _ => True
  | .poll (some revents) events =>
    (∃ h ∈ zmqPoll revents w.sp.hot, h.fd = w.sp.idleFd ∧ h.revents ≠ 0) →
      w.sp.idle.reports events = true → ∀ e ∈ events.head?, e.wanted = true

/-! ### The idle list -/

/-- The invariant of the idle half. -/
structure Idle.Inv (idle : Idle) : Prop where
  nodup : (idle.active ++ idle.free).Nodup
  referred : ∀ fd i, idle.interest fd = some i →
    i.node ∈ idle.active ∧ (idle.data i.node).fd = fd
  named : ∀ n ∈ idle.active, ∃ t, (idle.data n).data = some t

section

variable {idle : Idle} {n m next : ℕ} {t task : TaskId} {fd : ℤ} {rw : Rw}

theorem armed_iff : idle.armed n = true ↔
    ∃ i, idle.interest (idle.data n).fd = some i ∧ i.node = n := by
  rw [Idle.armed, Option.any_eq_true]
  simp only [decide_eq_true_eq]

theorem interest_release (idle : Idle) (n : ℕ) (fd : ℤ) : (idle.release n).interest fd =
    if fd = (idle.data n).fd then none else idle.interest fd := Function.update_apply ..

/-- The kernel no longer refers to a node that is released. -/
theorem referred_release (h : ∀ fd i, idle.interest fd = some i →
      i.node ∈ idle.active ∧ (idle.data i.node).fd = fd) {i : Interest}
    (hi : (idle.release n).interest fd = some i) :
    i.node ∈ idle.active.erase n ∧ (idle.data i.node).fd = fd := by
  rw [interest_release] at hi
  split at hi
  · exact absurd hi (by simp)
  case isFalse hfd =>
    obtain ⟨hactive, hdata⟩ := h fd i hi
    refine ⟨(List.mem_erase_of_ne ?_).mpr hactive, hdata⟩
    rintro rfl
    exact hfd hdata.symm

theorem Idle.Inv.mem_active (h : idle.Inv) (hn : idle.armed n = true) : n ∈ idle.active := by
  obtain ⟨i, hi, rfl⟩ := armed_iff.mp hn
  exact (h.referred _ _ hi).1

/-- Two nodes that the kernel refers to are for different descriptors. -/
theorem fd_ne_of_armed (hn : idle.armed n = true) (hm : idle.armed m = true) (hne : m ≠ n) :
    (idle.data m).fd ≠ (idle.data n).fd := by
  intro heq
  obtain ⟨i, hi, rfl⟩ := armed_iff.mp hn
  obtain ⟨j, hj, rfl⟩ := armed_iff.mp hm
  rw [heq, hi] at hj
  exact hne (congrArg Interest.node (Option.some.inj hj)).symm

theorem armed_release (hn : idle.armed n = true) (hne : m ≠ n) :
    (idle.release n).armed m = idle.armed m := by
  rw [Idle.armed, Idle.armed]
  show ((idle.release n).interest (idle.data m).fd).any _ = _
  rw [interest_release]
  split
  case isFalse => rfl
  case isTrue heq =>
    have hm : ¬ idle.armed m = true := fun hm => fd_ne_of_armed hn hm hne heq
    rw [Bool.not_eq_true, Idle.armed] at hm
    rw [hm]
    rfl

theorem inv_release (h : idle.Inv) (hn : idle.armed n = true) : (idle.release n).Inv := by
  have hmem := h.mem_active hn
  have hperm : (idle.active ++ idle.free).Perm (idle.active.erase n ++ (idle.free ++ [n])) := by
    refine ((List.perm_cons_erase hmem).append_right idle.free).trans ?_
    refine (List.perm_append_singleton n _).symm.trans ?_
    exact .of_eq (List.append_assoc ..)
  refine ⟨hperm.nodup_iff.mp h.nodup, fun fd i => referred_release h.referred, ?_⟩
  exact fun m hm => h.named m (List.mem_of_mem_erase hm)

/-- A node that is released takes one record of its task with it. -/
theorem records_release (h : idle.Inv) (hn : idle.armed n = true) (t : TaskId) :
    (idle.release n).records t + (if (idle.data n).data = some t then 1 else 0) =
      idle.records t := by
  have hmem := h.mem_active hn
  have hnodup : idle.active.Nodup := (List.nodup_append.mp h.nodup).1
  have hrest : (idle.active.erase n).countP
        (fun m => (idle.release n).armed m && (idle.data m).data = some t) =
      (idle.active.erase n).countP (fun m => idle.armed m && (idle.data m).data = some t) := by
    refine List.countP_congr fun m hm => ?_
    rw [armed_release hn (hnodup.mem_erase_iff.mp hm).1]
  have hsplit := (List.perm_cons_erase hmem).countP_eq
    (fun m => idle.armed m && (idle.data m).data = some t)
  rw [List.countP_cons, hn, Bool.true_and] at hsplit
  show (idle.active.erase n).countP _ + _ = idle.active.countP _
  rw [hsplit]
  refine congrArg₂ (· + ·) hrest ?_
  simp

/-! ### A batch of events -/

/-- The tasks of the events before the first wanted one. -/
def Idle.lost (idle : Idle) (events : List EpollEvent) (t : TaskId) : ℕ :=
  (events.takeWhile fun e => !e.wanted).countP fun e => (idle.data e.node).data = some t

theorem reports_cons {e : EpollEvent} {events : List EpollEvent}
    (h : idle.reports (e :: events) = true) :
    idle.armed e.node = true ∧ (idle.release e.node).reports events = true := by
  rw [Idle.reports, Bool.and_eq_true, List.all_cons, Bool.and_eq_true, decide_eq_true_eq,
    List.map_cons, List.nodup_cons, List.all_eq_true] at h
  obtain ⟨⟨he, hall⟩, hfresh, hnodup⟩ := h
  refine ⟨he, ?_⟩
  rw [Idle.reports, Bool.and_eq_true, decide_eq_true_eq, List.all_eq_true]
  refine ⟨fun e' he' => ?_, hnodup⟩
  have hne : e'.node ≠ e.node := by
    intro heq
    exact hfresh (heq ▸ List.mem_map_of_mem he')
  rw [armed_release he hne]
  exact hall e' he'

/-- **A batch of events**: each hit takes one record, and the events before the first
wanted one take a record without a hit. -/
theorem addIdleHits_spec {events : List EpollEvent} (revents : ℕ) (hits : List (Option TaskId))
    (h : idle.Inv) (hrep : idle.reports events = true) :
    ∃ idle' hits', addIdleHits events revents idle hits = some (idle', hits') ∧ idle'.Inv ∧
      ∀ t, idle'.records t + hits'.count (some t) +
          (if revents = 0 then idle.lost events t else 0) =
        idle.records t + hits.count (some t) := by
  induction events generalizing idle revents hits with
  | nil =>
    refine ⟨idle, hits, rfl, h, fun t => ?_⟩
    have hnone : idle.lost [] t = 0 := rfl
    rw [hnone, ite_self, Nat.add_zero]
  | cons e events ih =>
    obtain ⟨he, hrest⟩ := reports_cons hrep
    obtain ⟨i, hi, -⟩ := armed_iff.mp he
    have hin : ¬ (idle.interest (idle.data e.node).fd).isNone = true := by
      rw [hi]
      simp
    have hrecords := records_release h he
    have hlost : ∀ t, (idle.release e.node).lost events t = idle.lost events t := fun t => rfl
    rw [addIdleHits, if_neg hin]
    by_cases hwanted : e.wanted = true
    · -- the event sets `revents`, which stays set
      have hset : (if e.pollout then Rw.w.bits else if e.pollin then Rw.r.bits else revents) ≠ 0 := by
        rw [EpollEvent.wanted, Bool.or_eq_true] at hwanted
        split
        · simp [Rw.bits]
        · split
          · simp [Rw.bits]
          case isFalse hout hin =>
            exact absurd hwanted (not_or.mpr ⟨hin, hout⟩)
      obtain ⟨idle', hits', hrun, hinv, hcount⟩ :=
        ih _ (hits ++ [(idle.data e.node).data]) (inv_release h he) hrest
      refine ⟨idle', hits', ?_, hinv, fun t => ?_⟩
      · rw [if_pos hset]
        exact hrun
      · have hcount := hcount t
        have hrecords := hrecords t
        have hnone : idle.lost (e :: events) t = 0 := by
          simp [Idle.lost, hwanted]
        rw [if_neg hset, List.count_append, List.count_singleton] at hcount
        rw [hnone, ite_self]
        simp only [beq_iff_eq] at hcount
        omega
    · -- the event leaves `revents` as it is
      have hkeep : (if e.pollout then Rw.w.bits else if e.pollin then Rw.r.bits else revents) =
          revents := by
        rw [EpollEvent.wanted, Bool.or_eq_true, not_or] at hwanted
        rw [if_neg hwanted.2, if_neg hwanted.1]
      rw [hkeep]
      by_cases hz : revents = 0
      · obtain ⟨idle', hits', hrun, hinv, hcount⟩ := ih revents hits (inv_release h he) hrest
        refine ⟨idle', hits', ?_, hinv, fun t => ?_⟩
        · rw [if_neg (not_not.mpr hz)]
          exact hrun
        · have hcount := hcount t
          have hrecords := hrecords t
          have hmore : idle.lost (e :: events) t =
              idle.lost events t + if (idle.data e.node).data = some t then 1 else 0 := by
            rw [Bool.not_eq_true] at hwanted
            simp [Idle.lost, hwanted, List.countP_cons]
          rw [if_pos hz, hlost] at hcount
          rw [if_pos hz, hmore]
          omega
      · obtain ⟨idle', hits', hrun, hinv, hcount⟩ :=
          ih revents (hits ++ [(idle.data e.node).data]) (inv_release h he) hrest
        refine ⟨idle', hits', ?_, hinv, fun t => ?_⟩
        · rw [if_pos hz]
          exact hrun
        · have hcount := hcount t
          have hrecords := hrecords t
          rw [if_neg hz, List.count_append, List.count_singleton] at hcount
          rw [if_neg hz]
          simp only [beq_iff_eq] at hcount
          omega

/-! ### A round -/

/-- The entry is that of the epoll set. -/
def Hot.isIdle (idleFd : ℤ) (h : Hot) : Bool := h.fd = idleFd

/-- The entries with a result, one after the other: each gives its record for a hit,
and the first one of the epoll set brings the batch. -/
theorem visit_spec {idleFd : ℤ} {visited : List Hot} {s : Round} (h : s.idle.Inv)
    (hrep : s.idle.reports s.pending = true)
    (hhot : ∀ h ∈ visited, h.fd = idleFd → h.data = none) :
    ∃ s', visited.foldlM (visit idleFd) s = some s' ∧ s'.idle.Inv ∧
      ∀ t, s'.idle.records t + s'.hits.count (some t) +
          (if visited.any (Hot.isIdle idleFd) then s.idle.lost s.pending t else 0) =
        s.idle.records t + s.hits.count (some t) + visited.countP (·.data = some t) := by
  induction visited generalizing s with
  | nil => exact ⟨s, rfl, h, fun t => rfl⟩
  | cons e visited ih =>
    have hhot' : ∀ h ∈ visited, h.fd = idleFd → h.data = none :=
      fun x hx => hhot x (List.mem_cons_of_mem e hx)
    rw [List.foldlM_cons]
    by_cases he : e.fd = idleFd
    · -- later entries of the epoll set find nothing more to report
      have hdata : e.data = none := hhot e (List.mem_cons_self ..) he
      obtain ⟨idle', hits', hrun, hinv, hcount⟩ := addIdleHits_spec 0 s.hits h hrep
      obtain ⟨s', hrun', hinv', hcount'⟩ := @ih ⟨idle', hits', true, []⟩ hinv rfl hhot'
      refine ⟨s', ?_, hinv', fun t => ?_⟩
      · rw [visit, if_pos he, hrun]
        exact hrun'
      · have hcount := hcount t
        have hcount' := hcount' t
        have hnone : idle'.lost [] t = 0 := rfl
        have hidle : Hot.isIdle idleFd e = true := by simp [Hot.isIdle, he]
        have hno : decide (e.data = some t) = false := by simp [hdata]
        dsimp only at hcount'
        rw [hnone, ite_self] at hcount'
        rw [if_pos rfl] at hcount
        rw [List.any_cons, hidle, Bool.true_or, if_pos rfl, List.countP_cons_of_neg (by simp [hno])]
        omega
    · obtain ⟨s', hrun', hinv', hcount'⟩ :=
        @ih { s with hits := s.hits ++ [e.data] } h hrep hhot'
      refine ⟨s', ?_, hinv', fun t => ?_⟩
      · rw [visit, if_neg he]
        exact hrun'
      · have hcount' := hcount' t
        have hidle : Hot.isIdle idleFd e = false := by simp [Hot.isIdle, he]
        dsimp only at hcount'
        rw [List.count_append, List.count_singleton] at hcount'
        rw [List.any_cons, hidle, Bool.false_or, List.countP_cons]
        simp only [beq_iff_eq] at hcount'
        simp only [decide_eq_true_eq]
        omega

theorem countP_zmqPoll (revents : ℕ → ℕ) (hot : List Hot) (t : TaskId) :
    (zmqPoll revents hot).countP (·.data = some t) = hot.countP (·.data = some t) := by
  induction hot generalizing revents with
  | nil => rfl
  | cons h hot ih =>
    have hcons : zmqPoll revents (h :: hot) =
        { h with revents := revents 0 } :: zmqPoll (fun i => revents (i + 1)) hot :=
      List.mapIdx_cons
    rw [hcons, List.countP_cons, List.countP_cons, ih]

theorem mem_zmqPoll {revents : ℕ → ℕ} {hot : List Hot} {h : Hot} (hmem : h ∈ zmqPoll revents hot) :
    ∃ h₀ ∈ hot, h₀.fd = h.fd ∧ h₀.data = h.data := by
  obtain ⟨i, hi, rfl⟩ := List.mem_mapIdx.mp hmem
  exact ⟨hot[i], List.getElem_mem hi, rfl, rfl⟩

/-- Whether `epoll_wait` is called in the round. -/
def Poller.idleReported (sp : Poller) (revents : ℕ → ℕ) : Bool :=
  (zmqPoll revents sp.hot).any fun h => h.reported && h.isIdle sp.idleFd

/-- The entry of the epoll set belongs to no task. -/
def Poller.Idles (sp : Poller) : Prop := ∀ h ∈ sp.hot, h.fd = sp.idleFd → h.data = none

theorem addPoll_spec {sp sp' : Poller} {data : Option TaskId} {socket : Option ℕ}
    (h : addPoll sp data socket fd rw = some sp') :
    sp'.idle = sp.idle ∧ sp'.idleFd = sp.idleFd ∧ sp'.maxHot = sp.maxHot ∧
      sp'.hot = sp.hot ++ [⟨socket, fd, rw.bits, 0, data⟩] := by
  obtain ⟨-, h⟩ := Option.ite_none_right_eq_some.mp h
  obtain rfl := Option.some.inj h
  exact ⟨rfl, rfl, rfl, rfl⟩

/-- **A round of polling**: what is removed is hit, but for the events before the
first wanted one. -/
theorem poll_spec {sp : Poller} {revents : ℕ → ℕ} {events : List EpollEvent} (h : sp.idle.Inv)
    (hidles : sp.Idles) (hrep : sp.idle.reports events = true) :
    ∃ sp' hits, poll sp revents events = some (sp', hits) ∧ sp'.idle.Inv ∧ sp'.Idles ∧
      sp'.idleFd = sp.idleFd ∧
      ∀ t, sp'.records t + hits.count (some t) +
          (if sp.idleReported revents then sp.idle.lost events t else 0) = sp.records t := by
  obtain ⟨visited, rest, hvisited, hrest, hsweep⟩ := @sweep_spec Hot Round Hot.reported
    (visit sp.idleFd) _ 0 (zmqPoll revents sp.hot) (by simp) rfl
  have hhot : ∀ h ∈ zmqPoll revents sp.hot, h.fd = sp.idleFd → h.data = none := by
    intro e he hfd
    obtain ⟨e₀, he₀, hfd₀, hdata₀⟩ := mem_zmqPoll he
    rw [← hdata₀]
    exact hidles e₀ he₀ (hfd₀.trans hfd)
  obtain ⟨s', hrun, hinv, hcount⟩ := @visit_spec sp.idleFd visited ⟨sp.idle, [], false, events⟩ h hrep
    fun e he => hhot e (List.mem_of_mem_filter (hvisited.mem_iff.mp he))
  have hrestIdles : ∀ h ∈ rest, h.fd = sp.idleFd → h.data = none :=
    fun e he => hhot e (List.mem_of_mem_filter (hrest.mem_iff.mp he))
  have hany : visited.any (Hot.isIdle sp.idleFd) = sp.idleReported revents := by
    rw [Poller.idleReported, ← List.any_filter]
    exact hvisited.any_eq
  -- arming the epoll set again adds an entry without a task
  have harm : ∃ sp', (if s'.hitIdle then
        addPoll { sp with hot := rest, idle := s'.idle } none none sp.idleFd .r
      else some { sp with hot := rest, idle := s'.idle }).getD
        { sp with hot := rest, idle := s'.idle } = sp' ∧
      sp'.idle = s'.idle ∧ sp'.Idles ∧ sp'.idleFd = sp.idleFd ∧
      ∀ t, sp'.hot.countP (·.data = some t) = rest.countP (·.data = some t) := by
    refine ⟨_, rfl, ?_⟩
    split
    case isFalse => exact ⟨rfl, hrestIdles, rfl, fun t => rfl⟩
    case isTrue =>
      cases hadd : addPoll { sp with hot := rest, idle := s'.idle } none none sp.idleFd .r with
      | none => exact ⟨rfl, hrestIdles, rfl, fun t => rfl⟩
      | some sp' =>
        obtain ⟨hidle, hfd, -, hhot'⟩ := addPoll_spec hadd
        refine ⟨hidle, ?_, hfd, fun t => ?_⟩
        · intro e he hfde
          rw [Option.getD_some, hhot'] at he
          rcases List.mem_append.mp he with he | he
          · exact hrestIdles e he (hfde.trans hfd)
          · rw [List.mem_singleton.mp he]
        · rw [Option.getD_some, hhot', List.countP_append]
          simp
  obtain ⟨sp', hsp', hidle, hidles', hfd, hhot'⟩ := harm
  refine ⟨sp', s'.hits, ?_, hidle ▸ hinv, hidles', hfd, fun t => ?_⟩
  · rw [poll, hsweep, hrun]
    exact congrArg some (Prod.ext hsp' rfl)
  · have hcount := hcount t
    have hsplit := List.countP_eq_countP_filter_add (zmqPoll revents sp.hot) (·.data = some t)
      Hot.reported
    rw [countP_zmqPoll, ← hvisited.countP_eq, ← hrest.countP_eq] at hsplit
    rw [Poller.records, Poller.records, hidle, hhot', ← hany]
    dsimp only at hcount
    rw [List.count_nil] at hcount
    omega

/-- Every other entry belongs to a task. -/
def Poller.Named (sp : Poller) : Prop := ∀ h ∈ sp.hot, h.data = none → h.fd = sp.idleFd

theorem addIdleHits_named {events : List EpollEvent} {revents : ℕ} {hits hits' : List (Option TaskId)}
    {idle' : Idle} (h : idle.Inv) (hrep : idle.reports events = true) (hhits : none ∉ hits)
    (hrun : addIdleHits events revents idle hits = some (idle', hits')) : none ∉ hits' := by
  induction events generalizing idle revents hits with
  | nil =>
    obtain ⟨-, rfl⟩ := Prod.mk.inj (Option.some.inj hrun)
    exact hhits
  | cons e events ih =>
    obtain ⟨he, hrest⟩ := reports_cons hrep
    obtain ⟨t, ht⟩ := h.named e.node (h.mem_active he)
    rw [addIdleHits] at hrun
    obtain ⟨-, hrun⟩ := Option.ite_none_left_eq_some.mp hrun
    have hmore : none ∉ hits ++ [(idle.data e.node).data] := by
      rw [ht, List.mem_append, List.mem_singleton]
      rintro (hmem | hnone)
      · exact hhits hmem
      · exact absurd hnone (by simp)
    refine ih (inv_release h he) hrest ?_ hrun
    by_cases hset : (if e.pollout then Rw.w.bits else if e.pollin then Rw.r.bits else revents) ≠ 0
    · rwa [if_pos hset]
    · rwa [if_neg hset]

theorem visit_named {idleFd : ℤ} {visited : List Hot} {s s' : Round} (h : s.idle.Inv)
    (hrep : s.idle.reports s.pending = true) (hnamed : ∀ h ∈ visited, h.data = none → h.fd = idleFd)
    (hhits : none ∉ s.hits) (hrun : visited.foldlM (visit idleFd) s = some s') :
    none ∉ s'.hits := by
  induction visited generalizing s with
  | nil =>
    obtain rfl := Option.some.inj hrun
    exact hhits
  | cons e visited ih =>
    have hnamed' : ∀ h ∈ visited, h.data = none → h.fd = idleFd :=
      fun x hx => hnamed x (List.mem_cons_of_mem e hx)
    obtain ⟨s₁, hvisit, hrun⟩ := Option.bind_eq_some_iff.mp (List.foldlM_cons.symm.trans hrun)
    rw [visit] at hvisit
    split at hvisit
    · obtain ⟨⟨idle', hits'⟩, hadd, rfl⟩ := Option.map_eq_some_iff.mp hvisit
      obtain ⟨idle₁, hits₁, hadd', hinv, -⟩ := addIdleHits_spec 0 s.hits h hrep
      obtain ⟨rfl, rfl⟩ := Prod.mk.inj (Option.some.inj (hadd.symm.trans hadd'))
      exact ih hinv rfl hnamed' (addIdleHits_named h hrep hhits hadd) hrun
    case isFalse hfd =>
      obtain rfl := Option.some.inj hvisit
      refine @ih { s with hits := s.hits ++ [e.data] } h hrep hnamed' ?_ hrun
      intro hmem
      rcases List.mem_append.mp hmem with hmem | hmem
      · exact hhits hmem
      · exact hfd (hnamed e (List.mem_cons_self ..) (List.mem_singleton.mp hmem).symm)

/-- **A round hits tasks only.** -/
theorem poll_named {sp sp' : Poller} {revents : ℕ → ℕ} {events : List EpollEvent}
    {hits : List (Option TaskId)} (h : sp.idle.Inv) (hnamed : sp.Named)
    (hrep : sp.idle.reports events = true) (hpoll : poll sp revents events = some (sp', hits)) :
    none ∉ hits ∧ sp'.Named ∧ sp'.idleFd = sp.idleFd := by
  obtain ⟨visited, rest, hvisited, hrest, hsweep⟩ := @sweep_spec Hot Round Hot.reported
    (visit sp.idleFd) _ 0 (zmqPoll revents sp.hot) (by simp) rfl
  have hhot : ∀ h ∈ zmqPoll revents sp.hot, h.data = none → h.fd = sp.idleFd := by
    intro e he hdata
    obtain ⟨e₀, he₀, hfd₀, hdata₀⟩ := mem_zmqPoll he
    rw [← hfd₀]
    exact hnamed e₀ he₀ (hdata₀.trans hdata)
  rw [poll, hsweep] at hpoll
  obtain ⟨⟨hot, s'⟩, hmap, hpoll⟩ := Option.map_eq_some_iff.mp hpoll
  obtain ⟨s₁, hrun, heq⟩ := Option.map_eq_some_iff.mp hmap
  obtain ⟨rfl, rfl⟩ := Prod.mk.inj heq
  obtain ⟨rfl, rfl⟩ := Prod.mk.inj hpoll
  have hrestNamed : ∀ h ∈ rest, h.data = none → h.fd = sp.idleFd :=
    fun e he => hhot e (List.mem_of_mem_filter (hrest.mem_iff.mp he))
  refine ⟨@visit_named sp.idleFd visited ⟨sp.idle, [], false, events⟩ s₁ h hrep
    (fun e he => hhot e (List.mem_of_mem_filter (hvisited.mem_iff.mp he))) (by simp) hrun, ?_⟩
  split
  case isFalse => exact ⟨hrestNamed, rfl⟩
  case isTrue =>
    cases hadd : addPoll { sp with hot := rest, idle := s₁.idle } none none sp.idleFd .r with
    | none => exact ⟨hrestNamed, rfl⟩
    | some sp' =>
      obtain ⟨-, hfd, -, hhot'⟩ := addPoll_spec hadd
      refine ⟨fun e he hdata => ?_, hfd⟩
      rw [Option.getD_some, hhot'] at he
      rw [Option.getD_some, hfd]
      rcases List.mem_append.mp he with he | he
      · exact hrestNamed e he hdata
      · rw [List.mem_singleton.mp he]

/-! ### A wait -/

theorem Idle.Inv.not_mem_active (h : idle.Inv) (hnext : idle.free.getLast? = some next) :
    next ∉ idle.active :=
  fun hmem => (List.nodup_append.mp h.nodup).2.2 next hmem next
    (List.mem_of_getLast? hnext) rfl

theorem armed_push {d : IdleData} (hne : m ≠ next) :
    (idle.push next d).armed m = idle.armed m := by
  have hdata : (idle.push next d).data m = idle.data m := Function.update_of_ne hne ..
  rw [Idle.armed, Idle.armed, hdata]
  rfl

/-- The kernel does not know the node yet. -/
theorem armed_push_self {d : IdleData} (h : idle.Inv) (hnext : next ∉ idle.active) :
    (idle.push next d).armed next = false := by
  refine Bool.eq_false_iff.mpr fun harmed => ?_
  obtain ⟨i, hi, hnode⟩ := armed_iff.mp harmed
  have hmem := (h.referred _ i hi).1
  rw [hnode] at hmem
  exact hnext hmem

theorem inv_push (h : idle.Inv) (hnext : idle.free.getLast? = some next) (fd : ℤ)
    (task : TaskId) : (idle.push next ⟨fd, some task⟩).Inv := by
  have hfresh := h.not_mem_active hnext
  have hdata : ∀ n ∈ idle.active, (idle.push next ⟨fd, some task⟩).data n = idle.data n := by
    intro n hn
    have hne : n ≠ next := fun heq => hfresh (heq ▸ hn)
    exact Function.update_of_ne hne ..
  obtain ⟨free, hfree⟩ := List.getLast?_eq_some_iff.mp hnext
  refine ⟨?_, ?_, ?_⟩
  · have hperm : (idle.active ++ idle.free).Perm
        (idle.active ++ [next] ++ idle.free.dropLast) := by
      rw [hfree, List.dropLast_concat, List.append_assoc]
      exact (List.perm_append_singleton next free).append_left idle.active
    exact hperm.nodup_iff.mp h.nodup
  · intro fd' i hi
    obtain ⟨hmem, hfd⟩ := h.referred fd' i hi
    refine ⟨List.mem_append_left _ hmem, ?_⟩
    rw [hdata _ hmem]
    exact hfd
  · intro n hn
    rcases List.mem_append.mp hn with hn | hn
    · rw [hdata n hn]
      exact h.named n hn
    · rw [List.mem_singleton.mp hn]
      exact ⟨task, by simp [Idle.push]⟩

/-- A node that the kernel does not know is no record. -/
theorem records_push {d : IdleData} (h : idle.Inv) (hnext : next ∉ idle.active) (t : TaskId) :
    (idle.push next d).records t = idle.records t := by
  show (idle.active ++ [next]).countP _ = idle.active.countP _
  have hself := @armed_push_self idle next d h hnext
  rw [List.countP_append, List.countP_singleton, hself, Bool.false_and, if_neg Bool.false_ne_true,
    Nat.add_zero]
  refine List.countP_congr fun m hm => ?_
  have hne : m ≠ next := fun heq => hnext (heq ▸ hm)
  have hdata : (idle.push next d).data m = idle.data m := Function.update_of_ne hne ..
  rw [armed_push hne, hdata]

theorem armed_setInterest :
    (idle.setInterest fd (some ⟨next, rw⟩)).armed m =
      if (idle.data m).fd = fd then decide (next = m) else idle.armed m := by
  have hinterest : (idle.setInterest fd (some ⟨next, rw⟩)).interest (idle.data m).fd =
      if (idle.data m).fd = fd then some ⟨next, rw⟩ else idle.interest (idle.data m).fd :=
    Function.update_apply ..
  rw [Idle.armed, Idle.armed]
  show ((idle.setInterest fd (some ⟨next, rw⟩)).interest (idle.data m).fd).any _ = _
  rw [hinterest]
  split <;> rfl

theorem inv_setInterest (h : idle.Inv) (hmem : next ∈ idle.active)
    (hfd : (idle.data next).fd = fd) : (idle.setInterest fd (some ⟨next, rw⟩)).Inv := by
  refine ⟨h.nodup, ?_, h.named⟩
  intro fd' i hi
  have hupdate : (idle.setInterest fd (some ⟨next, rw⟩)).interest fd' =
      if fd' = fd then some ⟨next, rw⟩ else idle.interest fd' := Function.update_apply ..
  rw [hupdate] at hi
  split at hi
  case isTrue heq =>
    obtain rfl := Option.some.inj hi
    exact ⟨hmem, hfd.trans heq.symm⟩
  case isFalse => exact h.referred fd' i hi

/-- A wait in the idle list that finds a free node, and a descriptor that the kernel
does not know, adds a record. -/
theorem addIdle_ok {ctl : Ctl} (h : idle.Inv) (hfree : idle.free ≠ [])
    (hnew : idle.interest fd = none) (hadd : ctl.addFails = false) (task : TaskId) (rw : Rw) :
    (addIdle ctl idle task fd rw).2.Inv ∧ ∀ t, (addIdle ctl idle task fd rw).2.records t =
      idle.records t + if task = t then 1 else 0 := by
  obtain ⟨next, hnext⟩ : ∃ next, idle.free.getLast? = some next :=
    ⟨_, List.getLast?_eq_some_getLast hfree⟩
  have hfresh := h.not_mem_active hnext
  have hrun : addIdle ctl idle task fd rw =
      (true, (idle.push next ⟨fd, some task⟩).setInterest fd (some ⟨next, rw⟩)) := by
    have hinterest : (idle.push next ⟨fd, some task⟩).interest fd = none := hnew
    simp [addIdle, hnext, hinterest, hadd]
  rw [hrun]
  have hself : (idle.push next ⟨fd, some task⟩).data next = ⟨fd, some task⟩ :=
    Function.update_self ..
  have hmem : next ∈ (idle.push next ⟨fd, some task⟩).active :=
    List.mem_append_right _ (List.mem_singleton_self next)
  refine ⟨inv_setInterest (inv_push h hnext fd task) hmem (by rw [hself]), fun t => ?_⟩
  rw [← @records_push idle next ⟨fd, some task⟩ h hfresh t]
  show (idle.active ++ [next]).countP _ = (idle.active ++ [next]).countP _ + _
  rw [List.countP_append, List.countP_append, List.countP_singleton, List.countP_singleton,
    armed_push_self h hfresh, armed_setInterest, hself, if_pos rfl]
  have hdata : ((idle.push next ⟨fd, some task⟩).setInterest fd (some ⟨next, rw⟩)).data next =
      ⟨fd, some task⟩ := hself
  have hold : idle.active.countP (fun n =>
        ((idle.push next ⟨fd, some task⟩).setInterest fd (some ⟨next, rw⟩)).armed n &&
        decide ((((idle.push next ⟨fd, some task⟩).setInterest fd (some ⟨next, rw⟩)).data n).data =
          some t)) =
      idle.active.countP (fun n => (idle.push next ⟨fd, some task⟩).armed n &&
        decide (((idle.push next ⟨fd, some task⟩).data n).data = some t)) := by
    refine List.countP_congr fun m hm => ?_
    have hne : m ≠ next := fun heq => hfresh (heq ▸ hm)
    rw [armed_setInterest]
    split
    case isFalse => rfl
    case isTrue heq =>
      -- the kernel does not know a descriptor that two nodes are for
      have hnot : (idle.push next ⟨fd, some task⟩).armed m = false := by
        rw [Idle.armed, heq]
        show (idle.interest fd).any _ = false
        rw [hnew]
        rfl
      have hne' : decide (next = m) = false := decide_eq_false fun heq' => hne heq'.symm
      rw [hnot, hne', Bool.false_and, Bool.false_and]
  rw [hold, hdata]
  simp

/-- The `MOD` for a second task takes the record of the first. -/
theorem records_setInterest_lt {i : Interest} {t : TaskId} (h : idle.Inv)
    (hfresh : next ∉ idle.active) (hi : idle.interest fd = some i)
    (ht : (idle.data i.node).data = some t) (hne : t ≠ task) :
    ((idle.push next ⟨fd, some task⟩).setInterest fd (some ⟨next, rw⟩)).records t <
      idle.records t := by
  obtain ⟨hmem, hfd⟩ := h.referred fd i hi
  have hold : ∀ m ∈ idle.active, m ≠ next := fun m hm heq => hfresh (heq ▸ hm)
  have hdata : ∀ m ∈ idle.active,
      ((idle.push next ⟨fd, some task⟩).setInterest fd (some ⟨next, rw⟩)).data m = idle.data m :=
    fun m hm => Function.update_of_ne (hold m hm) ..
  have hself : ((idle.push next ⟨fd, some task⟩).setInterest fd (some ⟨next, rw⟩)).data next =
      ⟨fd, some task⟩ := Function.update_self ..
  have harmed : ∀ m ∈ idle.active,
      ((idle.push next ⟨fd, some task⟩).setInterest fd (some ⟨next, rw⟩)).armed m =
        if (idle.data m).fd = fd then false else idle.armed m := by
    intro m hm
    have hpush : (idle.push next ⟨fd, some task⟩).data m = idle.data m := hdata m hm
    rw [armed_setInterest, hpush, armed_push (hold m hm),
      decide_eq_false fun heq => hold m hm heq.symm]
  show (idle.active ++ [next]).countP _ < idle.active.countP _
  have hothers : (idle.active.erase i.node).countP (fun n =>
        ((idle.push next ⟨fd, some task⟩).setInterest fd (some ⟨next, rw⟩)).armed n &&
        decide ((((idle.push next ⟨fd, some task⟩).setInterest fd (some ⟨next, rw⟩)).data n).data =
          some t)) ≤
      (idle.active.erase i.node).countP fun n => idle.armed n &&
        decide ((idle.data n).data = some t) := by
    refine List.countP_mono_left fun m hm => ?_
    rw [harmed m (List.mem_of_mem_erase hm), hdata m (List.mem_of_mem_erase hm)]
    split
    · simp
    · exact id
  have hfirst : idle.armed i.node = true := armed_iff.mpr ⟨i, by rw [hfd]; exact hi, rfl⟩
  have hsplit := List.perm_cons_erase hmem
  rw [List.countP_append, List.countP_singleton, hself, hsplit.countP_eq, List.countP_cons,
    hsplit.countP_eq, List.countP_cons, harmed _ hmem, if_pos hfd, hfirst, ht]
  simp only [Option.some.injEq, hne.symm, decide_false, Bool.and_false, Bool.false_eq_true,
    if_false, Bool.false_and, decide_true, Bool.and_true, if_true]
  omega

/-- Any other wait in the idle list loses a task. -/
theorem addIdle_lost {ctl : Ctl} (h : idle.Inv) (hzero : idle.records task = 0)
    (hbad : ¬ (idle.free ≠ [] ∧ idle.interest fd = none ∧ ctl.addFails = false)) (rw : Rw) :
    (∃ t, t ≠ task ∧ (addIdle ctl idle task fd rw).2.records t < idle.records t) ∨
      (addIdle ctl idle task fd rw).2.records task = idle.records task := by
  unfold addIdle
  split
  case h_1 => exact .inr rfl
  case h_2 next hnext =>
    have hfresh := h.not_mem_active hnext
    have hpush : ∀ t, (idle.push next ⟨fd, some task⟩).records t = idle.records t :=
      records_push h hfresh
    dsimp only
    split_ifs with hexist hmod hadd
    · exact .inr (hpush task)
    · have hknown : (idle.interest fd).isSome = true := hexist
      obtain ⟨i, hi⟩ := Option.isSome_iff_exists.mp hknown
      obtain ⟨hmem, hfd⟩ := h.referred fd i hi
      obtain ⟨t, ht⟩ := h.named i.node hmem
      have hne : t ≠ task := by
        rintro rfl
        have harmed : idle.armed i.node = true := armed_iff.mpr ⟨i, by rw [hfd]; exact hi, rfl⟩
        have hnone := List.countP_eq_zero.mp hzero i.node hmem
        exact hnone (by simp [harmed, ht])
      exact .inl ⟨t, hne, records_setInterest_lt h hfresh hi ht hne⟩
    · exact .inr (hpush task)
    · refine absurd ⟨?_, ?_, ?_⟩ hbad
      · intro hnil
        rw [hnil] at hnext
        exact absurd hnext (by simp)
      · exact Option.not_isSome_iff_eq_none.mp hexist
      · simpa using hadd

/-- Where the hot arrays are full, a descriptor waits in the idle list. -/
theorem wait_of_full {sp : Poller} {ctl : Ctl} (hroom : ¬ sp.hot.length < sp.maxHot) :
    wait ctl sp task none fd rw =
      ((addIdle ctl sp.idle task fd rw).1,
        { sp with idle := (addIdle ctl sp.idle task fd rw).2 }) := by
  rw [wait, if_neg]
  rintro (hsome | hlt)
  · exact absurd hsome (by simp)
  · exact hroom hlt

/-- A wait finds a place of its own. -/
theorem wait_ok {sp : Poller} {socket : Option ℕ} {ctl : Ctl} (h : sp.idle.Inv)
    (hidles : sp.Idles) (hfd : fd ≠ sp.idleFd)
    (hok : sp.hot.length < sp.maxHot ∨
      (socket = none ∧ sp.idle.free ≠ [] ∧ sp.idle.interest fd = none ∧ ctl.addFails = false)) :
    (wait ctl sp task socket fd rw).2.idle.Inv ∧ (wait ctl sp task socket fd rw).2.Idles ∧
      ∀ t, (wait ctl sp task socket fd rw).2.records t =
        sp.records t + if task = t then 1 else 0 := by
  by_cases hroom : sp.hot.length < sp.maxHot
  · have hrun : wait ctl sp task socket fd rw =
        (true, { sp with hot := sp.hot ++ [⟨socket, fd, rw.bits, 0, some task⟩] }) := by
      rw [wait, if_pos (.inr hroom), addPoll, if_pos hroom]
    rw [hrun]
    refine ⟨h, ?_, fun t => ?_⟩
    · intro e he hidle
      rcases List.mem_append.mp he with he | he
      · exact hidles e he hidle
      · rw [List.mem_singleton.mp he] at hidle
        exact absurd hidle hfd
    · show (sp.hot ++ [_]).countP _ + sp.idle.records t = sp.hot.countP _ + sp.idle.records t + _
      rw [List.countP_append, List.countP_singleton]
      simp only [Option.some.injEq, decide_eq_true_eq]
      omega
  · obtain ⟨rfl, hfree, hnew, hadd⟩ := hok.resolve_left hroom
    obtain ⟨hinv, hrecords⟩ := addIdle_ok h hfree hnew hadd task rw
    rw [wait_of_full hroom]
    refine ⟨hinv, hidles, fun t => ?_⟩
    show sp.hot.countP _ + _ = sp.hot.countP _ + sp.idle.records t + _
    rw [hrecords, Nat.add_assoc]

/-- Any other wait loses a task. -/
theorem wait_lost {sp : Poller} {socket : Option ℕ} {ctl : Ctl} (h : sp.idle.Inv)
    (hzero : sp.records task = 0)
    (hbad : ¬ (sp.hot.length < sp.maxHot ∨
      (socket = none ∧ sp.idle.free ≠ [] ∧ sp.idle.interest fd = none ∧ ctl.addFails = false))) :
    (∃ t, t ≠ task ∧ (wait ctl sp task socket fd rw).2.records t < sp.records t) ∨
      (wait ctl sp task socket fd rw).2.records task = 0 := by
  obtain ⟨hroom, hidle⟩ := not_or.mp hbad
  cases socket with
  | some socket =>
    -- a 0MQ socket only goes to the hot arrays
    have hrun : wait ctl sp task (some socket) fd rw = (false, sp) := by
      rw [wait, if_pos (.inl rfl), addPoll, if_neg hroom]
    rw [hrun]
    exact .inr hzero
  | none =>
    have hrecords : ∀ t, (wait ctl sp task none fd rw).2.records t =
        sp.hot.countP (·.data = some t) + (addIdle ctl sp.idle task fd rw).2.records t := by
      rw [wait_of_full hroom]
      exact fun t => rfl
    obtain ⟨hhot, hnone⟩ := Nat.add_eq_zero_iff.mp hzero
    have hbad' : ¬ (sp.idle.free ≠ [] ∧ sp.idle.interest fd = none ∧ ctl.addFails = false) :=
      fun hgood => hidle ⟨rfl, hgood⟩
    rcases addIdle_lost h hnone hbad' rw with ⟨t, hne, hlt⟩ | hsame
    · refine .inl ⟨t, hne, ?_⟩
      rw [hrecords]
      exact Nat.add_lt_add_left hlt _
    · refine .inr ?_
      rw [hrecords, hhot, hsame, hnone]

/-- A node that becomes known is one record at most, and takes those of its descriptor. -/
theorem records_setInterest_le (h : idle.Inv) (hfresh : next ∉ idle.active) (t : TaskId) :
    ((idle.push next ⟨fd, some task⟩).setInterest fd (some ⟨next, rw⟩)).records t ≤
      idle.records t + if task = t then 1 else 0 := by
  have hself : (idle.push next ⟨fd, some task⟩).data next = ⟨fd, some task⟩ :=
    Function.update_self ..
  rw [← @records_push idle next ⟨fd, some task⟩ h hfresh t]
  show (idle.active ++ [next]).countP _ ≤ (idle.active ++ [next]).countP _ + _
  rw [List.countP_append, List.countP_append]
  have hold : idle.active.countP (fun n =>
        ((idle.push next ⟨fd, some task⟩).setInterest fd (some ⟨next, rw⟩)).armed n &&
        decide (((idle.push next ⟨fd, some task⟩).data n).data = some t)) ≤
      idle.active.countP (fun n => (idle.push next ⟨fd, some task⟩).armed n &&
        decide (((idle.push next ⟨fd, some task⟩).data n).data = some t)) := by
    refine List.countP_mono_left fun m hm => ?_
    have hne : next ≠ m := fun heq => hfresh (heq ▸ hm)
    rw [armed_setInterest, decide_eq_false hne]
    split
    · simp
    · exact id
  have hnew : [next].countP (fun n =>
        ((idle.push next ⟨fd, some task⟩).setInterest fd (some ⟨next, rw⟩)).armed n &&
        decide (((idle.push next ⟨fd, some task⟩).data n).data = some t)) ≤
      if task = t then 1 else 0 := by
    rw [List.countP_singleton, hself]
    by_cases ht : task = t
    · rw [if_pos ht]
      split <;> omega
    · simp [ht]
  exact (Nat.add_le_add hold hnew).trans (by omega)

/-- However a wait ends, it adds one record of the task at most. -/
theorem wait_le {sp : Poller} {socket : Option ℕ} {ctl : Ctl} (h : sp.idle.Inv)
    (hidles : sp.Idles) (hfd : fd ≠ sp.idleFd) :
    (wait ctl sp task socket fd rw).2.idle.Inv ∧ (wait ctl sp task socket fd rw).2.Idles ∧
      ∀ t, (wait ctl sp task socket fd rw).2.records t ≤
        sp.records t + if task = t then 1 else 0 := by
  by_cases hroom : sp.hot.length < sp.maxHot
  · obtain ⟨hinv, hidles', hrecords⟩ := @wait_ok task fd rw sp socket ctl h hidles hfd (.inl hroom)
    exact ⟨hinv, hidles', fun t => (hrecords t).le⟩
  · have hsame : ∀ t, sp.records t ≤ sp.records t + if task = t then 1 else 0 :=
      fun t => Nat.le_add_right ..
    cases socket with
    | some socket =>
      have hrun : wait ctl sp task (some socket) fd rw = (false, sp) := by
        rw [wait, if_pos (.inl rfl), addPoll, if_neg hroom]
      rw [hrun]
      exact ⟨h, hidles, hsame⟩
    | none =>
      rw [wait_of_full hroom]
      have hidle : ∀ idle' : Idle, idle'.Inv →
          (∀ t, idle'.records t ≤ sp.idle.records t + if task = t then 1 else 0) →
          idle'.Inv ∧ ({ sp with idle := idle' } : Poller).Idles ∧
            ∀ t, ({ sp with idle := idle' } : Poller).records t ≤
              sp.records t + if task = t then 1 else 0 := by
        refine fun idle' hinv hle => ⟨hinv, hidles, fun t => ?_⟩
        exact (Nat.add_le_add_left (hle t) _).trans_eq (Nat.add_assoc ..).symm
      unfold addIdle
      split
      case h_1 => exact hidle _ h fun t => Nat.le_add_right ..
      case h_2 next hnext =>
        have hfresh := h.not_mem_active hnext
        have hpush := inv_push h hnext fd task
        have hmem : next ∈ (sp.idle.push next ⟨fd, some task⟩).active :=
          List.mem_append_right _ (List.mem_singleton_self next)
        have hset := @inv_setInterest _ next fd rw hpush hmem
          (by simp [Idle.push])
        have hmore : ∀ t, (sp.idle.push next ⟨fd, some task⟩).records t ≤
            sp.idle.records t + if task = t then 1 else 0 :=
          fun t => (records_push h hfresh t).le.trans (Nat.le_add_right ..)
        dsimp only
        split_ifs
        · exact hidle _ hpush hmore
        · exact hidle _ hset (records_setInterest_le h hfresh)
        · exact hidle _ hpush hmore
        · exact hidle _ hset (records_setInterest_le h hfresh)

theorem wait_named {sp : Poller} (hnamed : sp.Named) (ctl : Ctl) (task : TaskId)
    (socket : Option ℕ) (fd : ℤ) (rw : Rw) : (wait ctl sp task socket fd rw).2.Named ∧
      (wait ctl sp task socket fd rw).2.idleFd = sp.idleFd := by
  unfold wait
  split
  · cases hadd : addPoll sp (some task) socket fd rw with
    | none => exact ⟨hnamed, rfl⟩
    | some sp' =>
      obtain ⟨-, hfd, -, hhot⟩ := addPoll_spec hadd
      refine ⟨fun e he hdata => ?_, hfd⟩
      have he : e ∈ sp'.hot := he
      rw [hhot] at he
      rcases List.mem_append.mp he with he | he
      · exact (hnamed e he hdata).trans hfd.symm
      · rw [List.mem_singleton.mp he] at hdata
        exact absurd hdata (by simp)
  · exact ⟨hnamed, rfl⟩

end

/-! ### Runs of waits and rounds -/

/-- What holds in every state of a run that keeps the tasks accounted for. -/
structure Inv (w : World) : Prop where
  idle : w.sp.idle.Inv
  idles : w.sp.Idles
  accounted : Accounted w

variable {w w' : World}

theorem inv_start (maxHot maxIdle : ℕ) (idleFd : ℤ) : Inv (start maxHot maxIdle idleFd) := by
  refine ⟨⟨List.nodup_range, ?_, ?_⟩, ?_, fun t => rfl⟩
  · intro fd i hi
    exact absurd hi (by simp [start])
  · intro n hn
    exact absurd hn (by simp [start])
  · intro e he _
    rw [List.mem_singleton.mp he]

theorem Inv.ready_le (h : Inv w) (t : TaskId) : w.ready t ≤ 1 := by
  have haccounted := h.accounted t
  omega

theorem idleReported_iff {sp : Poller} {revents : ℕ → ℕ} :
    sp.idleReported revents = true ↔
      ∃ h ∈ zmqPoll revents sp.hot, h.fd = sp.idleFd ∧ h.revents ≠ 0 := by
  rw [Poller.idleReported, List.any_eq_true]
  refine exists_congr fun h => and_congr_right fun _ => ?_
  simp only [Hot.reported, Hot.isIdle, Bool.and_eq_true, decide_eq_true_eq]
  exact and_comm

/-- A batch that starts with a wanted event loses none. -/
theorem lost_eq_zero {idle : Idle} {events : List EpollEvent}
    (h : ∀ e ∈ events.head?, e.wanted = true) (t : TaskId) : idle.lost events t = 0 := by
  cases events with
  | nil => rfl
  | cons e events => simp [Idle.lost, h e rfl]

/-- A batch that does not loses the task of its first event. -/
theorem lost_pos {idle : Idle} {events : List EpollEvent} (h : idle.Inv)
    (hrep : idle.reports events = true) (hbad : ¬ ∀ e ∈ events.head?, e.wanted = true) :
    ∃ t, 0 < idle.lost events t := by
  cases events with
  | nil => exact absurd (fun e he => absurd he (by simp)) hbad
  | cons e events =>
    have hwanted : e.wanted = false := by
      refine Bool.eq_false_iff.mpr fun hwanted => hbad fun e' he' => ?_
      rw [List.head?_cons, Option.mem_some_iff] at he'
      exact he' ▸ hwanted
    obtain ⟨t, ht⟩ := h.named e.node (h.mem_active (reports_cons hrep).1)
    refine ⟨t, ?_⟩
    simp [Idle.lost, hwanted, ht]

/-- One step, when it meets the condition. -/
theorem inv_step (h : Inv w) {op : Op} (hok : Ok w op) (hstep : step w op = some w') :
    Inv w' := by
  cases op with
  | wait task socket fd rw ctl =>
    rw [step] at hstep
    split at hstep
    · exact absurd hstep (by simp)
    case isFalse hcan =>
      obtain rfl := Option.some.inj hstep
      obtain ⟨hready, hfd⟩ := not_or.mp hcan
      obtain ⟨hinv, hidles, hrecords⟩ := @wait_ok task fd rw w.sp socket ctl h.idle h.idles hfd
        ((hok.resolve_left hready).resolve_left hfd)
      refine ⟨hinv, hidles, fun t => ?_⟩
      have haccounted := h.accounted t
      have hle := h.ready_le t
      show (wait ctl w.sp task socket fd rw).2.records t + Function.update w.ready task 0 t = 1
      rw [hrecords, Function.update_apply]
      by_cases heq : t = task
      · subst heq
        rw [if_pos rfl, if_pos rfl]
        omega
      · rw [if_neg heq, if_neg fun heq' => heq heq'.symm]
        omega
  | poll revents events =>
    cases revents with
    | none =>
      obtain rfl := Option.some.inj hstep
      exact h
    | some revents =>
      rw [step] at hstep
      split at hstep
      · exact absurd hstep (by simp)
      case isFalse hrep =>
        have hrep : w.sp.idle.reports events = true := by simpa using hrep
        obtain ⟨sp', hits, hpoll, hinv, hidles, -, hcount⟩ :=
          @poll_spec w.sp revents events h.idle h.idles hrep
        rw [hpoll, Option.map_some] at hstep
        obtain rfl := Option.some.inj hstep
        refine ⟨hinv, hidles, fun t => ?_⟩
        have haccounted := h.accounted t
        have hcount := hcount t
        have hnone : (if w.sp.idleReported revents then w.sp.idle.lost events t else 0) = 0 := by
          split
          case isTrue hidle => exact lost_eq_zero (hok (idleReported_iff.mp hidle) hrep) t
          case isFalse => rfl
        show sp'.records t + (w.ready t + hits.count (some t)) = 1
        omega

/-- One step, when it does not. -/
theorem lost_step (h : Inv w) {op : Op} (hbad : ¬ Ok w op) :
    ∃ w', step w op = some w' ∧ ¬ Accounted w' := by
  cases op with
  | wait task socket fd rw ctl =>
    obtain ⟨hready, hbad⟩ := not_or.mp hbad
    obtain ⟨hfd, hbad⟩ := not_or.mp hbad
    have hcan : ¬ (w.ready task = 0 ∨ fd = w.sp.idleFd) := not_or.mpr ⟨hready, hfd⟩
    refine ⟨_, if_neg hcan, fun hafter => ?_⟩
    have hzero : w.sp.records task = 0 := by
      have haccounted := h.accounted task
      omega
    rcases @wait_lost task fd rw w.sp socket ctl h.idle hzero hbad with ⟨t, hne, hlt⟩ | hnone
    · have hafter : (wait ctl w.sp task socket fd rw).2.records t +
          Function.update w.ready task 0 t = 1 := hafter t
      have haccounted := h.accounted t
      rw [Function.update_of_ne hne] at hafter
      omega
    · have hafter : (wait ctl w.sp task socket fd rw).2.records task +
          Function.update w.ready task 0 task = 1 := hafter task
      rw [Function.update_self] at hafter
      omega
  | poll revents events =>
    cases revents with
    | none => exact absurd trivial hbad
    | some revents =>
      have hbad : ¬ ((∃ h ∈ zmqPoll revents w.sp.hot, h.fd = w.sp.idleFd ∧ h.revents ≠ 0) →
          w.sp.idle.reports events = true → ∀ e ∈ events.head?, e.wanted = true) := hbad
      obtain ⟨hidle, hbad⟩ := Classical.not_imp.mp hbad
      obtain ⟨hrep, hbad⟩ := Classical.not_imp.mp hbad
      have hidle := idleReported_iff.mpr hidle
      obtain ⟨sp', hits, hpoll, -, -, -, hcount⟩ :=
        @poll_spec w.sp revents events h.idle h.idles hrep
      obtain ⟨t, ht⟩ := lost_pos h.idle hrep hbad
      refine ⟨⟨sp', fun t => w.ready t + hits.count (some t)⟩, ?_, fun hafter => ?_⟩
      · simp only [step, hrep, hpoll, Bool.not_true, Bool.false_eq_true, if_false,
          Option.map_some]
      · have hafter : sp'.records t + (w.ready t + hits.count (some t)) = 1 := hafter t
        have haccounted := h.accounted t
        have hcount := hcount t
        rw [if_pos hidle] at hcount
        omega

/-- **The poller keeps account of every task** throughout a run exactly when each wait
finds a place of its own and each batch of events starts with a wanted one. -/
theorem accounted_iff (maxHot maxIdle : ℕ) (idleFd : ℤ) (run : List Op) :
    Runs.Always step Accounted (start maxHot maxIdle idleFd) run ↔
      Runs.Along step Ok (start maxHot maxIdle idleFd) run := by
  refine @Runs.always_iff_along_of_inv World Op step Ok Inv Accounted (fun _ => True)
    (fun w h => h.accounted) ?_ ?_ _ run (inv_start maxHot maxIdle idleFd) fun _ _ => trivial
  · exact fun w op w' h _ hok hstep => inv_step h hok hstep
  · exact fun w op h _ hbad => lost_step h hbad

/-- Two tasks wait for the same descriptor: the kernel forgets the first. -/
def sharedFd : List Op :=
  [.wait 1 none 9 .r ⟨false, false⟩, .wait 2 none 9 .r ⟨false, false⟩]

theorem not_accounted_sharedFd :
    ¬ Runs.Always step Accounted (start 1 4 5) sharedFd := by
  intro h
  obtain ⟨w, hw, hlost⟩ : ∃ w, Runs.exec step (start 1 4 5) sharedFd = some w ∧
      w.sp.records 1 + w.ready 1 = 0 := ⟨_, rfl, by decide⟩
  have haccounted := h.last hw 1
  omega

end Mongrel2.SuperPoll

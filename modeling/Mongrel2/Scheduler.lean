/-
The task scheduler (`task/task.c`, `task/fd.c`).

* `Kernel` — the globals of the task library, with the loop that `fdtask` is in;
* `step` — a turn of the scheduler, or what the running task does;
* `Turn` — what a step that can be taken does;
* `places` — where a task is: running, in the run queue, asleep, or recorded in the poller;
* **`placed_always`** — on every run a task that has not exited is in one place at most, and one that
  has exited is in none;
* `accounted_of_along` — it is in one place exactly, where the poller loses none.

Design notes: a task is named by its address, which no other living task has.  Times are in
nanoseconds, and the counters do not overflow.  Locks and rendezvous points, which the server does
not use, are left out.
-/
import Mongrel2.Runs
import Mongrel2.Sweep
import Mongrel2.Tasks

namespace Mongrel2.Scheduler

open SuperPoll (TaskId Poller Rw Ctl EpollEvent)
open Tasks (insertAlarm)

/-! ### The kernel -/

/-- Where `fdtask` is. -/
inductive Fdtask
  | absent
  /-- It was created and did not run yet. -/
  | started (t : TaskId)
  /-- It is in a `taskyield` that was called when `tasknswitch` was `n`. -/
  | yielded (t : TaskId) (n : ℕ)

/-- The task, once there is one. -/
def Fdtask.task : Fdtask → Option TaskId
  | absent => none
  | started t | yielded t _ => some t

structure Kernel where
  now : ℕ
  /-- `taskrunning` -/
  running : Option TaskId
  /-- `taskrunqueue` -/
  runqueue : List TaskId
  /-- `sleeping`, with the alarms -/
  sleeping : List (TaskId × ℕ)
  /-- `POLL` -/
  sp : Poller
  alltask : List TaskId
  alltaskslot : TaskId → ℕ
  system : TaskId → Bool
  taskcount : ℤ
  sleepingcounted : ℤ
  tasknswitch : ℕ
  fdtask : Fdtask

namespace Kernel

variable (s : Kernel) (t : TaskId)

/-- `taskready`. -/
def ready : Kernel := { s with runqueue := s.runqueue ++ [t] }

/-- `taskcreate`. -/
def create : Kernel :=
  Kernel.ready
    { s with
      taskcount := s.taskcount + 1
      alltaskslot := Function.update s.alltaskslot t s.alltask.length
      alltask := s.alltask ++ [t]
      system := Function.update s.system t false } t

/-- `startfdtask`. -/
def startfdtask : Kernel :=
  match s.fdtask with
  | .absent => { s.create t with fdtask := .started t }
  | _ => s

/-- `tasksystem`. -/
def tasksystem : Kernel :=
  if s.system t then s
  else { s with system := Function.update s.system t true, taskcount := s.taskcount - 1 }

/-- `taskyield`, up to the switch. -/
def yield : Kernel := { s.ready t with running := none }

/-- The counters in `taskdelay`. -/
def countSleeper : Kernel :=
  if s.system t then s
  else
    { s with
      taskcount := if s.sleepingcounted = 0 then s.taskcount + 1 else s.taskcount
      sleepingcounted := s.sleepingcounted + 1 }

/-- `taskdelay`, up to the switch. -/
def delay (ms : ℕ) : Kernel :=
  Kernel.countSleeper
    { s with
      sleeping := insertAlarm t (s.now + ms * 1000000) s.sleeping
      running := none } t

/-- `_wait`, up to the switch. -/
def wait (ctl : Ctl) (socket : Option ℕ) (fd : ℤ) (rw : Rw) : Kernel :=
  { s with sp := (SuperPoll.wait ctl s.sp t socket fd rw).2, running := none }

/-- `taskexit`, and what `taskscheduler` does with a task that is exiting. -/
def exit : Kernel :=
  { s with
    running := none
    taskcount := if s.system t then s.taskcount else s.taskcount - 1
    alltask := Sweep.swapErase s.alltask (s.alltaskslot t)
    alltaskslot :=
      match s.alltask.getLast? with
      | some u => Function.update s.alltaskslot u (s.alltaskslot t)
      | none => s.alltaskslot }

/-- `tasknuke`. -/
def nuke : Kernel := { s with sp := (Tasks.nuke t s.sp).getD s.sp }

/-- The counters in `wake_sleepers`. -/
def uncountSleeper : Kernel :=
  if s.system t then s
  else
    { s with
      sleepingcounted := s.sleepingcounted - 1
      taskcount := if s.sleepingcounted - 1 = 0 then s.taskcount - 1 else s.taskcount }

/-- `wake_sleepers`, from the head of the list on. -/
def wakeFrom : List (TaskId × ℕ) → Kernel → Kernel
  | [], s => { s with sleeping := [] }
  | (t, alarmtime) :: rest, s =>
    if alarmtime ≤ s.now then
      wakeFrom rest ((Kernel.uncountSleeper { s with sleeping := rest } t).ready t)
    else { s with sleeping := (t, alarmtime) :: rest }

/-- `next_task_sleeptime`. -/
def nextTaskSleeptime (min : ℤ) : ℤ :=
  let ms : ℤ :=
    match s.sleeping with
    | [] => -1
    | (_, alarmtime) :: _ =>
      let ms : ℤ := if s.now ≥ alarmtime then 0 else ((alarmtime - s.now) / 1000000 : ℕ)
      if ms % min ≠ 0 then ms - ms % min else ms
  if ms = 0 then min else ms

/-- The call of `SuperPoll_poll` in `fdtask`: the tasks hit, where the results are `none` when it is
interrupted. -/
def polled (revents : Option (ℕ → ℕ)) (events : List EpollEvent) :
    Option (Poller × List (Option TaskId)) :=
  match revents with
  | none => some (s.sp, [])
  | some revents =>
    if s.sp.idle.reports events then SuperPoll.poll s.sp revents events else none

/-- A round of `fdtask` after it polled for some time, up to its next `taskyield`. -/
def round (elapsed : ℕ) (sp : Poller) (hits : List (Option TaskId)) : Kernel :=
  let s :=
    { s with
      now := s.now + elapsed
      sp := sp
      runqueue := s.runqueue ++ hits.filterMap id }
  let s := wakeFrom s.sleeping s
  { s.yield t with fdtask := .yielded t s.tasknswitch }

end Kernel

/-! ### Steps -/

/-- What happens next. -/
inductive Step
  /-- `taskscheduler` goes on with the head of its queue. -/
  | schedule
  /-- The running task calls the library; `u` is the address of a task that may be allocated. -/
  | create (u : TaskId)
  | tasksystem
  | yield
  | delay (u : TaskId) (ms : ℕ)
  | wait (u : TaskId) (ctl : Ctl) (socket : Option ℕ) (fd : ℤ) (rw : Rw)
  | exit
  | nuke (u : TaskId)
  /-- `fdtask` begins, or yields again. -/
  | fdyield
  /-- `fdtask` polls for some time. -/
  | poll (elapsed : ℕ) (revents : Option (ℕ → ℕ)) (events : List EpollEvent)
  /-- The running task takes its time. -/
  | tick (n : ℕ)

/-- The running task, if it is not `fdtask`. -/
def Kernel.client (s : Kernel) : Option TaskId := s.running.filter fun t => s.fdtask.task ≠ some t

/-- The running task, if it is `fdtask`. -/
def Kernel.fdrunning (s : Kernel) : Option TaskId :=
  s.running.filter fun t => s.fdtask.task = some t

/-- One step; `none` where it cannot be taken.  With a `taskcount` of 0 the process exits, and without
a task in the queue as well. -/
def step (s : Kernel) : Step → Option Kernel
  | .schedule =>
    match s.running, s.runqueue with
    | none, t :: queue =>
      if s.taskcount = 0 then none
      else some { s with running := some t, runqueue := queue, tasknswitch := s.tasknswitch + 1 }
    | _, _ => none
  | .create u => s.client.bind fun _ => if u ∈ s.alltask then none else some (s.create u)
  | .tasksystem => s.client.map s.tasksystem
  | .yield => s.client.map s.yield
  | .delay u ms => s.client.bind fun t =>
    if u ∈ s.alltask then none else some ((s.startfdtask u).delay t ms)
  | .wait u ctl socket fd rw => s.client.bind fun t =>
    if u ∈ s.alltask ∨ fd = s.sp.idleFd then none
    else some ((s.startfdtask u).wait t ctl socket fd rw)
  | .exit => s.client.map s.exit
  | .nuke u => s.client.map fun _ => s.nuke u
  | .fdyield => s.fdrunning.bind fun t =>
    match s.fdtask with
    | .absent => none
    | .started _ => some { (s.tasksystem t).yield t with fdtask := .yielded t s.tasknswitch }
    | .yielded _ n =>
      if 0 < s.tasknswitch - n - 1 then
        some { s.yield t with fdtask := .yielded t s.tasknswitch }
      else none
  | .poll elapsed revents events => s.fdrunning.bind fun t =>
    match s.fdtask with
    | .yielded _ n =>
      if 0 < s.tasknswitch - n - 1 then none
      else (s.polled revents events).map fun (sp, hits) => s.round t elapsed sp hits
    | _ => none
  | .tick n => s.running.map fun _ => { s with now := s.now + n }

/-- `main`, with the poller that `SuperPoll_create` will return. -/
def start (t : TaskId) (maxHot maxIdle : ℕ) (idleFd : ℤ) : Kernel :=
  Kernel.create
    { now := 0
      running := none
      runqueue := []
      sleeping := []
      sp := (SuperPoll.start maxHot maxIdle idleFd).sp
      alltask := []
      alltaskslot := fun _ => 0
      system := fun _ => false
      taskcount := 0
      sleepingcounted := 0
      tasknswitch := 0
      fdtask := .absent } t

/-- What a step does that can be taken. -/
inductive Turn (s : Kernel) : Step → Kernel → Prop
  | schedule {t : TaskId} {queue : List TaskId} (hrunning : s.running = none)
      (hqueue : s.runqueue = t :: queue) (hcount : s.taskcount ≠ 0) :
      Turn s .schedule
        { s with running := some t, runqueue := queue, tasknswitch := s.tasknswitch + 1 }
  | create {t u : TaskId} (ht : s.client = some t) (hu : u ∉ s.alltask) :
      Turn s (.create u) (s.create u)
  | tasksystem {t : TaskId} (ht : s.client = some t) : Turn s .tasksystem (s.tasksystem t)
  | yield {t : TaskId} (ht : s.client = some t) : Turn s .yield (s.yield t)
  | delay {t u : TaskId} {ms : ℕ} (ht : s.client = some t) (hu : u ∉ s.alltask) :
      Turn s (.delay u ms) ((s.startfdtask u).delay t ms)
  | wait {t u : TaskId} {ctl : Ctl} {socket : Option ℕ} {fd : ℤ} {rw : Rw} (ht : s.client = some t)
      (hu : u ∉ s.alltask) (hfd : fd ≠ s.sp.idleFd) :
      Turn s (.wait u ctl socket fd rw) ((s.startfdtask u).wait t ctl socket fd rw)
  | exit {t : TaskId} (ht : s.client = some t) : Turn s .exit (s.exit t)
  | nuke {t u : TaskId} (ht : s.client = some t) : Turn s (.nuke u) (s.nuke u)
  | fdbegin {t : TaskId} (ht : s.running = some t) (hfd : s.fdtask = .started t) :
      Turn s .fdyield { (s.tasksystem t).yield t with fdtask := .yielded t s.tasknswitch }
  | fdyield {t : TaskId} {n : ℕ} (ht : s.running = some t) (hfd : s.fdtask = .yielded t n)
      (hothers : n + 1 < s.tasknswitch) :
      Turn s .fdyield { s.yield t with fdtask := .yielded t s.tasknswitch }
  | poll {t : TaskId} {n elapsed : ℕ} {revents : Option (ℕ → ℕ)} {events : List EpollEvent}
      {sp : Poller} {hits : List (Option TaskId)} (ht : s.running = some t)
      (hfd : s.fdtask = .yielded t n) (halone : s.tasknswitch ≤ n + 1)
      (hpoll : s.polled revents events = some (sp, hits)) :
      Turn s (.poll elapsed revents events) (s.round t elapsed sp hits)
  | tick {t : TaskId} {n : ℕ} (ht : s.running = some t) : Turn s (.tick n) { s with now := s.now + n }

section

variable {s s' : Kernel} {t u : TaskId}

theorem client_eq_some_iff : s.client = some t ↔ s.running = some t ∧ s.fdtask.task ≠ some t := by
  rw [Kernel.client, Option.filter_eq_some_iff, decide_eq_true_eq]

theorem fdrunning_eq_some_iff :
    s.fdrunning = some t ↔ s.running = some t ∧ s.fdtask.task = some t := by
  rw [Kernel.fdrunning, Option.filter_eq_some_iff, decide_eq_true_eq]

theorem turn_of_step {a : Step} (h : step s a = some s') : Turn s a s' := by
  cases a with
  | schedule =>
    unfold step at h
    dsimp only at h
    split at h
    case h_1 t queue hrunning hqueue =>
      obtain ⟨hcount, h⟩ := Option.ite_none_left_eq_some.mp h
      obtain rfl := Option.some.inj h
      exact .schedule hrunning hqueue hcount
    case h_2 => exact absurd h (by simp)
  | create u =>
    obtain ⟨t, ht, h⟩ := Option.bind_eq_some_iff.mp h
    obtain ⟨hu, h⟩ := Option.ite_none_left_eq_some.mp h
    obtain rfl := Option.some.inj h
    exact .create ht hu
  | tasksystem =>
    obtain ⟨t, ht, rfl⟩ := Option.map_eq_some_iff.mp h
    exact .tasksystem ht
  | yield =>
    obtain ⟨t, ht, rfl⟩ := Option.map_eq_some_iff.mp h
    exact .yield ht
  | delay u ms =>
    obtain ⟨t, ht, h⟩ := Option.bind_eq_some_iff.mp h
    obtain ⟨hu, h⟩ := Option.ite_none_left_eq_some.mp h
    obtain rfl := Option.some.inj h
    exact .delay ht hu
  | wait u ctl socket fd rw =>
    obtain ⟨t, ht, h⟩ := Option.bind_eq_some_iff.mp h
    obtain ⟨hu, h⟩ := Option.ite_none_left_eq_some.mp h
    obtain rfl := Option.some.inj h
    exact .wait ht (fun hu' => hu (.inl hu')) fun hfd => hu (.inr hfd)
  | exit =>
    obtain ⟨t, ht, rfl⟩ := Option.map_eq_some_iff.mp h
    exact .exit ht
  | nuke u =>
    obtain ⟨t, ht, rfl⟩ := Option.map_eq_some_iff.mp h
    exact .nuke ht
  | fdyield =>
    obtain ⟨t, ht, h⟩ := Option.bind_eq_some_iff.mp h
    obtain ⟨ht, htask⟩ := fdrunning_eq_some_iff.mp ht
    split at h
    case h_1 => exact absurd h (by simp)
    case h_2 t' hfd =>
      obtain rfl := Option.some.inj h
      obtain rfl : t' = t := by rw [hfd] at htask; exact Option.some.inj htask
      exact .fdbegin ht hfd
    case h_3 t' n hfd =>
      obtain ⟨hothers, h⟩ := Option.ite_none_right_eq_some.mp h
      obtain rfl := Option.some.inj h
      obtain rfl : t' = t := by rw [hfd] at htask; exact Option.some.inj htask
      exact .fdyield ht hfd (by omega)
  | poll elapsed revents events =>
    obtain ⟨t, ht, h⟩ := Option.bind_eq_some_iff.mp h
    obtain ⟨ht, htask⟩ := fdrunning_eq_some_iff.mp ht
    split at h
    case h_1 t' n hfd =>
      obtain ⟨halone, h⟩ := Option.ite_none_left_eq_some.mp h
      obtain ⟨⟨sp, hits⟩, hpoll, rfl⟩ := Option.map_eq_some_iff.mp h
      obtain rfl : t' = t := by rw [hfd] at htask; exact Option.some.inj htask
      exact .poll ht hfd (by omega) hpoll
    case h_2 => exact absurd h (by simp)
  | tick n =>
    obtain ⟨t, ht, rfl⟩ := Option.map_eq_some_iff.mp h
    exact .tick ht

/-! ### Places -/

/-- The slots that are recorded for the entries of an array are where they are. -/
def Slots (l : List TaskId) (slot : TaskId → ℕ) : Prop := ∀ i t, l[i]? = some t → slot t = i

variable {l : List TaskId} {slot : TaskId → ℕ} {i : ℕ}

theorem Slots.nodup (h : Slots l slot) : l.Nodup := by
  refine List.pairwise_iff_getElem.mpr fun i j hi hj hij heq => ?_
  have h₁ := h i _ (List.getElem?_eq_getElem hi)
  have h₂ := h j _ (List.getElem?_eq_getElem hj)
  rw [heq] at h₁
  omega

theorem Slots.getElem? (h : Slots l slot) (ht : t ∈ l) : l[slot t]? = some t := by
  obtain ⟨i, hi, rfl⟩ := List.getElem_of_mem ht
  have heq := List.getElem?_eq_getElem hi
  rw [h i _ heq]
  exact heq

theorem Slots.append (h : Slots l slot) (ht : t ∉ l) :
    Slots (l ++ [t]) (Function.update slot t l.length) := by
  intro i u hu
  by_cases hi : i < l.length
  · rw [List.getElem?_append_left hi] at hu
    have hne : u ≠ t := fun heq => ht (heq ▸ List.mem_of_getElem? hu)
    rw [Function.update_of_ne hne]
    exact h i u hu
  · have hlen := (List.getElem?_eq_some_iff.mp hu).1
    rw [List.length_append, List.length_singleton] at hlen
    obtain rfl : i = l.length := by omega
    rw [List.getElem?_concat_length] at hu
    rw [Option.some.inj hu, Function.update_self]

/-- The entry that moves learns its new slot. -/
theorem Slots.swapErase (h : Slots l slot) (ht : t ∈ l) :
    Slots (Sweep.swapErase l (slot t))
      (match l.getLast? with
        | some u => Function.update slot u (slot t)
        | none => slot) := by
  have hslot := h.getElem? ht
  have hnodup := h.nodup
  obtain ⟨init, a, rfl⟩ : ∃ init a, l = init ++ [a] :=
    ⟨l.dropLast, l.getLast (List.ne_nil_of_mem ht), (List.dropLast_append_getLast _).symm⟩
  have hfresh : ∀ {i : ℕ} {u : TaskId}, init[i]? = some u → u ≠ a ∧ slot u = i := by
    intro i u hu
    have hi := (List.getElem?_eq_some_iff.mp hu).1
    refine ⟨?_, h i u (by rwa [List.getElem?_append_left hi])⟩
    rintro rfl
    exact (List.nodup_append.mp hnodup).2.2 u (List.mem_of_getElem? hu) u
      (List.mem_singleton_self u) rfl
  rw [Sweep.swapErase_append_singleton, List.getLast?_concat]
  intro i u hu
  dsimp only
  split at hu
  case isFalse =>
    obtain ⟨hne, hi⟩ := hfresh hu
    rw [Function.update_of_ne hne, hi]
  case isTrue hlt =>
    by_cases hi : slot t = i
    · subst hi
      rw [List.getElem?_set_self hlt] at hu
      rw [← Option.some.inj hu, Function.update_self]
    · rw [List.getElem?_set_ne hi] at hu
      obtain ⟨hne, hi⟩ := hfresh hu
      rw [Function.update_of_ne hne, hi]

/-- How often a task is somewhere. -/
def Kernel.places (s : Kernel) (u : TaskId) : ℕ :=
  s.running.toList.count u + s.runqueue.count u + (s.sleeping.map Prod.fst).count u +
    s.sp.records u

theorem insertAlarm_perm (t : TaskId) (when : ℕ) (l : List (TaskId × ℕ)) :
    (insertAlarm t when l).Perm ((t, when) :: l) := by
  induction l with
  | nil => exact .refl _
  | cons u l ih =>
    rw [insertAlarm]
    split
    · exact (ih.cons u).trans (.swap ..)
    · exact .refl _

section Places

variable (s t u)

theorem places_create : (s.create t).places u = s.places u + [t].count u := by
  simp only [Kernel.places, Kernel.create, Kernel.ready, List.count_append]
  omega

theorem places_tasksystem : (s.tasksystem t).places u = s.places u := by
  unfold Kernel.tasksystem
  split <;> rfl

theorem places_countSleeper : (s.countSleeper t).places u = s.places u := by
  unfold Kernel.countSleeper
  split <;> rfl

theorem places_uncountSleeper : (s.uncountSleeper t).places u = s.places u := by
  unfold Kernel.uncountSleeper
  split <;> rfl

variable {s t}

theorem places_yield (ht : s.running = some t) : (s.yield t).places u = s.places u := by
  simp only [Kernel.places, Kernel.yield, Kernel.ready, List.count_append, ht, Option.toList,
    List.count_nil]
  omega

theorem places_delay (ht : s.running = some t) (ms : ℕ) :
    (s.delay t ms).places u = s.places u := by
  have hperm := ((insertAlarm_perm t (s.now + ms * 1000000) s.sleeping).map Prod.fst).count_eq u
  rw [List.map_cons, ← List.singleton_append, List.count_append] at hperm
  rw [Kernel.delay, places_countSleeper]
  simp only [Kernel.places, ht, Option.toList, List.count_nil, hperm]
  omega

theorem places_exit (ht : s.running = some t) :
    (s.exit t).places u + [t].count u = s.places u := by
  simp only [Kernel.places, Kernel.exit, ht, Option.toList, List.count_nil]
  omega

/-- Waking the sleepers moves them. -/
theorem places_wakeFrom : (Kernel.wakeFrom s.sleeping s).places u = s.places u := by
  generalize hl : s.sleeping = l
  induction l generalizing s with
  | nil =>
    rw [Kernel.wakeFrom, ← hl]
  | cons a l ih =>
    rcases a with ⟨t, alarmtime⟩
    rw [Kernel.wakeFrom]
    split
    case isTrue =>
      rw [ih (by unfold Kernel.uncountSleeper Kernel.ready; split <;> rfl)]
      have hready : ∀ s : Kernel, (s.ready t).places u = s.places u + [t].count u := by
        intro s
        simp only [Kernel.places, Kernel.ready, List.count_append]
        omega
      rw [hready, places_uncountSleeper]
      simp only [Kernel.places, hl, List.map_cons]
      simp only [List.count_cons, List.count_nil]
      omega
    case isFalse => rw [← hl]

end Places

/-- What holds of the places on every run. -/
structure Kernel.Placed (s : Kernel) : Prop where
  places_le : ∀ u, s.places u ≤ s.alltask.count u
  slots : Slots s.alltask s.alltaskslot
  idle : s.sp.idle.Inv
  idles : s.sp.Idles

theorem Kernel.Placed.le_one (h : s.Placed) (u : TaskId) : s.places u ≤ 1 :=
  (h.places_le u).trans (List.nodup_iff_count.mp h.slots.nodup u)

theorem Kernel.Placed.mem_of_running (h : s.Placed) (ht : s.running = some t) : t ∈ s.alltask := by
  refine List.count_pos_iff.mp (lt_of_lt_of_le ?_ (h.places_le t))
  simp only [Kernel.places, ht, Option.toList, List.count_singleton_self]
  omega

theorem placed_start (t : TaskId) (maxHot maxIdle : ℕ) (idleFd : ℤ) :
    (start t maxHot maxIdle idleFd).Placed := by
  have hinv := SuperPoll.inv_start maxHot maxIdle idleFd
  refine ⟨fun u => ?_, Slots.append (fun i u hu => absurd hu (by simp)) (by simp),
    hinv.idle, hinv.idles⟩
  have hrecords : (SuperPoll.start maxHot maxIdle idleFd).sp.records u + 1 = 1 := hinv.accounted u
  rw [start, places_create]
  show 0 + 0 + 0 + (SuperPoll.start maxHot maxIdle idleFd).sp.records u + [t].count u ≤ [t].count u
  omega

/-- A step that leaves the tasks, and moves them at most. -/
theorem Kernel.Placed.moved (h : s.Placed) (hle : ∀ u, s'.places u ≤ s.places u)
    (halltask : s'.alltask = s.alltask) (hslot : s'.alltaskslot = s.alltaskslot)
    (hidle : s'.sp.idle.Inv) (hidles : s'.sp.Idles) : s'.Placed := by
  refine ⟨fun u => ?_, ?_, hidle, hidles⟩
  · rw [halltask]
    exact (hle u).trans (h.places_le u)
  · rw [halltask, hslot]
    exact h.slots

theorem Kernel.Placed.create (h : s.Placed) (hu : u ∉ s.alltask) : (s.create u).Placed := by
  refine ⟨fun v => ?_, h.slots.append hu, h.idle, h.idles⟩
  rw [places_create]
  show _ ≤ (s.alltask ++ [u]).count v
  rw [List.count_append]
  exact Nat.add_le_add_right (h.places_le v) _

theorem Kernel.Placed.startfdtask (h : s.Placed) (hu : u ∉ s.alltask) :
    (s.startfdtask u).Placed := by
  unfold Kernel.startfdtask
  split
  · exact (h.create hu).moved (fun v => Nat.le_refl _) rfl rfl h.idle h.idles
  · exact h

theorem startfdtask_running : (s.startfdtask u).running = s.running := by
  unfold Kernel.startfdtask
  split <;> rfl

theorem startfdtask_sp : (s.startfdtask u).sp = s.sp := by
  unfold Kernel.startfdtask
  split <;> rfl

theorem Kernel.Placed.tasksystem (h : s.Placed) (t : TaskId) : (s.tasksystem t).Placed := by
  unfold Kernel.tasksystem
  split
  · exact h
  · exact h.moved (fun u => Nat.le_refl _) rfl rfl h.idle h.idles

theorem Kernel.Placed.yield (h : s.Placed) (ht : s.running = some t) : (s.yield t).Placed :=
  h.moved (fun u => (places_yield u ht).le) rfl rfl h.idle h.idles

theorem Kernel.Placed.delay (h : s.Placed) (ht : s.running = some t) (ms : ℕ) :
    (s.delay t ms).Placed := by
  have hsame : (s.delay t ms).alltask = s.alltask ∧ (s.delay t ms).alltaskslot = s.alltaskslot ∧
      (s.delay t ms).sp = s.sp := by
    unfold Kernel.delay Kernel.countSleeper
    split <;> exact ⟨rfl, rfl, rfl⟩
  exact h.moved (fun u => (places_delay u ht ms).le) hsame.1 hsame.2.1 (hsame.2.2 ▸ h.idle)
    (hsame.2.2 ▸ h.idles)

/-- What a wait does to the places is what it does to the records. -/
theorem places_wait_add (ht : s.running = some t) (ctl : Ctl) (socket : Option ℕ) (fd : ℤ) (rw : Rw)
    (u : TaskId) : (s.wait t ctl socket fd rw).places u + (s.sp.records u + [t].count u) =
      s.places u + (SuperPoll.wait ctl s.sp t socket fd rw).2.records u := by
  simp only [Kernel.places, Kernel.wait, ht, Option.toList, List.count_nil]
  omega

theorem Kernel.Placed.wait (h : s.Placed) (ht : s.running = some t) {fd : ℤ}
    (hfd : fd ≠ s.sp.idleFd) (ctl : Ctl) (socket : Option ℕ) (rw : Rw) :
    (s.wait t ctl socket fd rw).Placed := by
  obtain ⟨hidle, hidles, hrecords⟩ := @SuperPoll.wait_le t fd rw s.sp socket ctl h.idle h.idles hfd
  refine h.moved (fun u => ?_) rfl rfl hidle hidles
  have hplaces := places_wait_add ht ctl socket fd rw u
  have hrecords := hrecords u
  rw [List.count_singleton] at hplaces
  simp only [beq_iff_eq] at hplaces
  omega

theorem count_swapErase (h : s.Placed) (ht : t ∈ s.alltask) (u : TaskId) :
    (s.exit t).alltask.count u + [t].count u = s.alltask.count u := by
  have hget := h.slots.getElem? ht
  obtain ⟨hlt, heq⟩ := List.getElem?_eq_some_iff.mp hget
  have hperm := (Sweep.swapErase_perm hlt).count_eq u
  have hsplit := (List.getElem_cons_eraseIdx_perm hlt).count_eq u
  rw [heq, List.count_cons] at hsplit
  rw [List.count_singleton]
  show (Sweep.swapErase s.alltask (s.alltaskslot t)).count u + _ = _
  omega

theorem Kernel.Placed.exit (h : s.Placed) (ht : s.running = some t) : (s.exit t).Placed := by
  have hmem := h.mem_of_running ht
  refine ⟨fun u => ?_, h.slots.swapErase hmem, h.idle, h.idles⟩
  have hplaces := places_exit u ht
  have hcount := count_swapErase h hmem u
  have hle := h.places_le u
  omega

theorem Kernel.Placed.nuke (h : s.Placed) (u : TaskId) : (s.nuke u).Placed := by
  rw [Kernel.nuke, Tasks.nuke]
  cases hi : s.sp.hot.findIdx? fun e => decide (e.data = some u) with
  | none => exact h
  | some i =>
    obtain ⟨hlt, -, -⟩ := List.findIdx?_eq_some_iff_getElem.mp hi
    have hperm := Sweep.swapErase_perm hlt
    refine h.moved (fun v => ?_) rfl rfl h.idle ?_
    · refine Nat.add_le_add_left ?_ _
      show (Sweep.swapErase s.sp.hot i).countP _ + s.sp.idle.records v ≤ _
      rw [hperm.countP_eq]
      exact Nat.add_le_add_right ((List.eraseIdx_sublist ..).countP_le ..) _
    · exact fun e he => h.idles e (List.mem_of_mem_eraseIdx (hperm.mem_iff.mp he))

/-- A poll hits tasks that have records. -/
theorem polled_spec (h : s.Placed) {revents : Option (ℕ → ℕ)} {events : List EpollEvent} {sp : Poller}
    {hits : List (Option TaskId)} (hpoll : s.polled revents events = some (sp, hits)) :
    sp.idle.Inv ∧ sp.Idles ∧ ∀ u, sp.records u + hits.count (some u) ≤ s.sp.records u := by
  cases revents with
  | none =>
    obtain ⟨rfl, rfl⟩ := Prod.mk.inj (Option.some.inj hpoll)
    exact ⟨h.idle, h.idles, fun u => Nat.le_refl _⟩
  | some revents =>
    obtain ⟨hrep, hpoll⟩ := Option.ite_none_right_eq_some.mp hpoll
    obtain ⟨sp', hits', hpoll', hinv, hidles, -, hcount⟩ :=
      @SuperPoll.poll_spec s.sp revents events h.idle h.idles hrep
    obtain ⟨rfl, rfl⟩ := Prod.mk.inj (Option.some.inj (hpoll.symm.trans hpoll'))
    exact ⟨hinv, hidles, fun u => (Nat.le_add_right ..).trans (hcount u).le⟩

theorem count_hits (hits : List (Option TaskId)) (u : TaskId) :
    (hits.filterMap id).count u = hits.count (some u) := by
  rw [List.count_filterMap]
  rfl

/-- What waking the sleepers leaves. -/
theorem wakeFrom_same (l : List (TaskId × ℕ)) (s : Kernel) :
    (Kernel.wakeFrom l s).running = s.running ∧ (Kernel.wakeFrom l s).alltask = s.alltask ∧
      (Kernel.wakeFrom l s).alltaskslot = s.alltaskslot ∧ (Kernel.wakeFrom l s).sp = s.sp ∧
      (Kernel.wakeFrom l s).system = s.system ∧ (Kernel.wakeFrom l s).now = s.now ∧
      (Kernel.wakeFrom l s).fdtask = s.fdtask ∧
      (Kernel.wakeFrom l s).tasknswitch = s.tasknswitch := by
  induction l generalizing s with
  | nil => exact ⟨rfl, rfl, rfl, rfl, rfl, rfl, rfl, rfl⟩
  | cons a l ih =>
    rw [Kernel.wakeFrom]
    split
    · obtain ⟨h₁, h₂, h₃, h₄, h₅, h₆, h₇, h₈⟩ :=
        ih ((Kernel.uncountSleeper { s with sleeping := l } a.1).ready a.1)
      rw [h₁, h₂, h₃, h₄, h₅, h₆, h₇, h₈]
      unfold Kernel.uncountSleeper Kernel.ready
      split <;> exact ⟨rfl, rfl, rfl, rfl, rfl, rfl, rfl, rfl⟩
    · exact ⟨rfl, rfl, rfl, rfl, rfl, rfl, rfl, rfl⟩

theorem places_round (ht : s.running = some t) (elapsed : ℕ) (sp : Poller)
    (hits : List (Option TaskId)) (u : TaskId) :
    (s.round t elapsed sp hits).places u + s.sp.records u =
      s.places u + (sp.records u + hits.count (some u)) := by
  have hrunning : (Kernel.wakeFrom s.sleeping { s with
      now := s.now + elapsed
      sp := sp
      runqueue := s.runqueue ++ hits.filterMap id }).running = some t :=
    (wakeFrom_same ..).1.trans ht
  have hyield := places_yield u hrunning
  have hwake := @places_wakeFrom { s with
      now := s.now + elapsed
      sp := sp
      runqueue := s.runqueue ++ hits.filterMap id } u
  have hplaces : (s.round t elapsed sp hits).places u = _ := hyield.trans hwake
  rw [hplaces]
  simp only [Kernel.places, List.count_append, count_hits]
  omega

theorem Kernel.Placed.round (h : s.Placed) (ht : s.running = some t) {revents : Option (ℕ → ℕ)}
    {events : List EpollEvent} {sp : Poller} {hits : List (Option TaskId)}
    (hpoll : s.polled revents events = some (sp, hits)) (elapsed : ℕ) :
    (s.round t elapsed sp hits).Placed := by
  obtain ⟨hidle, hidles, hcount⟩ := polled_spec h hpoll
  obtain ⟨-, halltask, hslot, hsp, -⟩ := wakeFrom_same s.sleeping { s with
      now := s.now + elapsed
      sp := sp
      runqueue := s.runqueue ++ hits.filterMap id }
  refine h.moved (fun u => ?_) halltask hslot (hsp ▸ hidle) (hsp ▸ hidles)
  have hplaces := places_round ht elapsed sp hits u
  have hcount := hcount u
  omega

theorem Turn.placed {a : Step} (h : s.Placed) (hturn : Turn s a s') : s'.Placed := by
  cases hturn with
  | schedule hrunning hqueue hcount =>
    refine h.moved (fun u => ?_) rfl rfl h.idle h.idles
    simp only [Kernel.places, hrunning, hqueue, Option.toList, List.count_cons, List.count_nil]
    omega
  | create ht hu => exact h.create hu
  | tasksystem ht => exact h.tasksystem _
  | yield ht => exact h.yield (client_eq_some_iff.mp ht).1
  | delay ht hu =>
    exact (h.startfdtask hu).delay (startfdtask_running.trans (client_eq_some_iff.mp ht).1) _
  | wait ht hu hfd =>
    exact (h.startfdtask hu).wait (startfdtask_running.trans (client_eq_some_iff.mp ht).1)
      (by rwa [startfdtask_sp]) _ _ _
  | exit ht => exact h.exit (client_eq_some_iff.mp ht).1
  | nuke ht => exact h.nuke _
  | @fdbegin t ht hfd =>
    have hrunning : (s.tasksystem t).running = some t := by
      unfold Kernel.tasksystem
      split <;> exact ht
    exact ((h.tasksystem t).yield hrunning).moved (fun u => Nat.le_refl _) rfl rfl
      ((h.tasksystem t).yield hrunning).idle ((h.tasksystem t).yield hrunning).idles
  | fdyield ht hfd hothers =>
    exact (h.yield ht).moved (fun u => Nat.le_refl _) rfl rfl h.idle h.idles
  | poll ht hfd halone hpoll => exact h.round ht hpoll _
  | tick ht => exact h.moved (fun u => Nat.le_refl _) rfl rfl h.idle h.idles

/-- **A task is in one place at most**, on every run: it runs, or is in the run queue once, or sleeps
once, or has one record in the poller.  One that has exited is in none. -/
theorem placed_always (t : TaskId) (maxHot maxIdle : ℕ) (idleFd : ℤ) (run : List Step) :
    Runs.Always step (fun s => s.alltask.Nodup ∧ ∀ u, s.places u ≤ if u ∈ s.alltask then 1 else 0)
      (start t maxHot maxIdle idleFd) run := by
  have hplaced : Runs.Always step Kernel.Placed (start t maxHot maxIdle idleFd) run :=
    Runs.always_of_step (fun s a s' h hstep => (turn_of_step hstep).placed h)
      (placed_start t maxHot maxIdle idleFd) run
  refine hplaced.mono fun s h => ⟨h.slots.nodup, fun u => ?_⟩
  split
  case isTrue => exact h.le_one u
  case isFalse hu =>
    have hle := h.places_le u
    rwa [List.count_eq_zero.mpr hu] at hle

/-! ### Runs that lose no task -/

/-- A wait finds a place of its own, a batch of events starts with a wanted one, and no task is
nuked. -/
def Ok (s : Kernel) : Step → Prop
  | .wait _ ctl socket fd _ =>
    s.sp.hot.length < s.sp.maxHot ∨
      (socket = none ∧ s.sp.idle.free ≠ [] ∧ s.sp.idle.interest fd = none ∧ ctl.addFails = false)
  | .nuke u => Tasks.nuke u s.sp = none
  | .poll _ (some revents) events =>
    s.sp.idleReported revents = true → ∀ e ∈ events.head?, e.wanted = true
  | _ => True

instance Ok.decidable (s : Kernel) : ∀ a, Decidable (Ok s a)
  | .wait _ ctl socket fd _ =>
    inferInstanceAs (Decidable (s.sp.hot.length < s.sp.maxHot ∨
      (socket = none ∧ s.sp.idle.free ≠ [] ∧ s.sp.idle.interest fd = none ∧ ctl.addFails = false)))
  | .nuke u => inferInstanceAs (Decidable (Tasks.nuke u s.sp = none))
  | .poll _ (some revents) events =>
    inferInstanceAs (Decidable (s.sp.idleReported revents = true →
      ∀ e ∈ events.head?, e.wanted = true))
  | .poll _ none _ | .schedule | .create _ | .tasksystem | .yield | .delay .. | .exit | .fdyield
  | .tick _ => .isTrue trivial

/-- Each task that has not exited is in one place. -/
def Kernel.Accounted (s : Kernel) : Prop := ∀ u, s.places u = s.alltask.count u

theorem Kernel.Accounted.moved (h : s.Accounted) (hsame : ∀ u, s'.places u = s.places u)
    (halltask : s'.alltask = s.alltask) : s'.Accounted := by
  intro u
  rw [halltask, hsame]
  exact h u

theorem Kernel.Accounted.startfdtask (h : s.Accounted) (u : TaskId) :
    (s.startfdtask u).Accounted := by
  unfold Kernel.startfdtask
  split
  · intro v
    show (s.create u).places v = (s.alltask ++ [u]).count v
    rw [places_create, h v, List.count_append]
  · exact h

theorem Kernel.Accounted.wait (h : s.Accounted) (hplaced : s.Placed) (ht : s.running = some t)
    {ctl : Ctl} {socket : Option ℕ} {fd : ℤ} (hfd : fd ≠ s.sp.idleFd)
    (hok : s.sp.hot.length < s.sp.maxHot ∨
      (socket = none ∧ s.sp.idle.free ≠ [] ∧ s.sp.idle.interest fd = none ∧ ctl.addFails = false))
    (rw : Rw) : (s.wait t ctl socket fd rw).Accounted := by
  obtain ⟨-, -, hrecords⟩ :=
    @SuperPoll.wait_ok t fd rw s.sp socket ctl hplaced.idle hplaced.idles hfd hok
  refine h.moved (fun u => ?_) rfl
  have hplaces := places_wait_add ht ctl socket fd rw u
  have hrecords := hrecords u
  rw [List.count_singleton] at hplaces
  simp only [beq_iff_eq] at hplaces
  omega

theorem Kernel.Accounted.round (h : s.Accounted) (hplaced : s.Placed) (ht : s.running = some t)
    {revents : Option (ℕ → ℕ)} {events : List EpollEvent} {sp : Poller}
    {hits : List (Option TaskId)} (hpoll : s.polled revents events = some (sp, hits)) (elapsed : ℕ)
    (hok : Ok s (.poll elapsed revents events)) : (s.round t elapsed sp hits).Accounted := by
  have hcount : ∀ u, sp.records u + hits.count (some u) = s.sp.records u := by
    cases revents with
    | none =>
      obtain ⟨rfl, rfl⟩ := Prod.mk.inj (Option.some.inj hpoll)
      exact fun u => rfl
    | some revents =>
      obtain ⟨hrep, hpoll⟩ := Option.ite_none_right_eq_some.mp hpoll
      obtain ⟨sp', hits', hpoll', -, -, -, hcount⟩ :=
        @SuperPoll.poll_spec s.sp revents events hplaced.idle hplaced.idles hrep
      obtain ⟨rfl, rfl⟩ := Prod.mk.inj (Option.some.inj (hpoll.symm.trans hpoll'))
      intro u
      have hcount := hcount u
      split at hcount
      case isTrue hidle =>
        rwa [SuperPoll.lost_eq_zero (hok hidle), Nat.add_zero] at hcount
      case isFalse => exact hcount
  refine h.moved (fun u => ?_) (wakeFrom_same ..).2.1
  have hplaces := places_round ht elapsed sp hits u
  have hcount := hcount u
  omega

theorem Turn.accounted {a : Step} (hplaced : s.Placed) (h : s.Accounted) (hok : Ok s a)
    (hturn : Turn s a s') : s'.Accounted := by
  cases hturn with
  | schedule hrunning hqueue hcount =>
    refine h.moved (fun u => ?_) rfl
    simp only [Kernel.places, hrunning, hqueue, Option.toList, List.count_cons, List.count_nil]
    omega
  | @create t u ht hu =>
    intro v
    show _ = (s.alltask ++ [u]).count v
    rw [places_create, h v, List.count_append]
  | tasksystem ht =>
    refine h.moved (fun u => places_tasksystem ..) ?_
    unfold Kernel.tasksystem
    split <;> rfl
  | yield ht => exact h.moved (fun u => places_yield u (client_eq_some_iff.mp ht).1) rfl
  | delay ht hu =>
    refine (h.startfdtask _).moved
      (fun u => places_delay u (startfdtask_running.trans (client_eq_some_iff.mp ht).1) _) ?_
    unfold Kernel.delay Kernel.countSleeper
    split <;> rfl
  | wait ht hu hfd =>
    refine (h.startfdtask _).wait (hplaced.startfdtask hu)
      (startfdtask_running.trans (client_eq_some_iff.mp ht).1) (by rwa [startfdtask_sp]) ?_ _
    rw [startfdtask_sp]
    exact hok
  | exit ht =>
    have hrunning := (client_eq_some_iff.mp ht).1
    intro u
    have hplaces := places_exit u hrunning
    have hcount := count_swapErase hplaced (hplaced.mem_of_running hrunning) u
    have heq := h u
    omega
  | nuke ht =>
    have hnone : Tasks.nuke _ s.sp = none := hok
    rw [Kernel.nuke, hnone]
    exact h
  | @fdbegin t ht hfd =>
    have hrunning : (s.tasksystem t).running = some t := by
      unfold Kernel.tasksystem
      split <;> exact ht
    refine h.moved (fun u => ?_) ?_
    · exact (places_yield u hrunning).trans (places_tasksystem ..)
    · show (s.tasksystem t).alltask = _
      unfold Kernel.tasksystem
      split <;> rfl
  | fdyield ht hfd hothers => exact h.moved (fun u => places_yield u ht) rfl
  | poll ht hfd halone hpoll => exact h.round hplaced ht hpoll _ hok
  | tick ht => exact h

/-- **A task is in one place exactly** while it lives, on every run in which each wait finds a place of
its own, each batch of events starts with a wanted one, and no task is nuked. -/
theorem accounted_of_along {t : TaskId} {maxHot maxIdle : ℕ} {idleFd : ℤ} {run : List Step}
    (hok : Runs.Along step Ok (start t maxHot maxIdle idleFd) run) :
    Runs.Always step (fun s => ∀ u, s.places u = if u ∈ s.alltask then 1 else 0)
      (start t maxHot maxIdle idleFd) run := by
  have hinv : Runs.Always step (fun s => s.Placed ∧ s.Accounted) (start t maxHot maxIdle idleFd)
      run := by
    refine Runs.always_of_along (fun s a s' h hok hstep => ?_)
      ⟨placed_start t maxHot maxIdle idleFd, fun u => ?_⟩ hok
    · exact ⟨(turn_of_step hstep).placed h.1, (turn_of_step hstep).accounted h.1 h.2 hok⟩
    · have hrecords : (SuperPoll.start maxHot maxIdle idleFd).sp.records u + 1 = 1 :=
        (SuperPoll.inv_start maxHot maxIdle idleFd).accounted u
      rw [start, places_create]
      show 0 + 0 + 0 + (SuperPoll.start maxHot maxIdle idleFd).sp.records u + [t].count u =
        [t].count u
      omega
  refine hinv.mono fun s h u => ?_
  have heq := h.2 u
  have hle := List.nodup_iff_count.mp h.1.slots.nodup u
  split
  case isTrue hu =>
    have hpos := List.count_pos_iff.mpr hu
    omega
  case isFalse hu => rw [heq, List.count_eq_zero.mpr hu]

/-- The first task waits for a descriptor, which has a result in the first round. -/
def firstWaits : List Step :=
  [.schedule, .wait 2 ⟨false, false⟩ none 9 .r, .schedule, .fdyield, .schedule,
    .poll 5 (some fun i => if i = 1 then 1 else 0) [], .schedule]

theorem accounted_of_along_firstWaits :
    (Runs.exec step (start 1 4 4 5) firstWaits).map Kernel.running = some (some 1) ∧
      Runs.Always step (fun s => ∀ u, s.places u = if u ∈ s.alltask then 1 else 0)
        (start 1 4 4 5) firstWaits :=
  ⟨by decide, accounted_of_along (by decide)⟩

end

end Mongrel2.Scheduler

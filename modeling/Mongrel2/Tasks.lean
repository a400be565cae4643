/-
Cooperative tasks (`task/task.c`, `task/fd.c`).

One task runs until it switches away.  Then it is in the run queue, asleep until an
alarm, or recorded in the poller, where `fdtask` finds what it waited for.

* `Sched` — where the tasks are;
* `ready`, `yield`, `delay`, `wait` — the ways to leave and to come back;
* `schedule`, `fdround` — the scheduler, and a round of `fdtask`;
* `nuke` — `tasknuke`, which takes a task out of the hot arrays;
* `nuke_eq_none_iff` — it does not find one that waits elsewhere.

Design notes: times are in milliseconds.  A scheduler without a runnable task ends the
process.
-/
import Mongrel2.SuperPoll

namespace Mongrel2.Tasks

open SuperPoll (Poller TaskId Rw Ctl EpollEvent)

/-- The globals of the task library. -/
structure Sched where
  now : ℕ
  /-- `taskrunning` -/
  running : Option TaskId
  /-- `taskrunqueue` -/
  runqueue : List TaskId
  /-- `sleeping`, with the alarms -/
  sleeping : List (TaskId × ℕ)
  /-- `POLL` -/
  poll : Poller

/-- `taskready`. -/
def ready (t : TaskId) (s : Sched) : Sched := { s with runqueue := s.runqueue ++ [t] }

/-- `taskswitch`, back to the scheduler. -/
def switch (s : Sched) : Sched := { s with running := none }

/-- `taskyield`. -/
def yield (t : TaskId) (s : Sched) : Sched := switch (ready t s)

/-- The place of an alarm among the others: behind those before it. -/
def insertAlarm (t : TaskId) (when : ℕ) : List (TaskId × ℕ) → List (TaskId × ℕ)
  | [] => [(t, when)]
  | u :: us => if u.2 < when then u :: insertAlarm t when us else (t, when) :: u :: us

/-- `taskdelay`. -/
def delay (t : TaskId) (ms : ℕ) (s : Sched) : Sched :=
  switch { s with sleeping := insertAlarm t (s.now + ms) s.sleeping }

/-- `_wait`, for a socket or a descriptor. -/
def wait (ctl : Ctl) (t : TaskId) (socket : Option ℕ) (fd : ℤ) (rw : Rw) (s : Sched) : Sched :=
  switch { s with poll := (SuperPoll.wait ctl s.poll t socket fd rw).2 }

/-- `wake_sleepers`. -/
def wakeSleepers (s : Sched) : Sched :=
  { s with
    sleeping := s.sleeping.dropWhile (·.2 ≤ s.now)
    runqueue := s.runqueue ++ (s.sleeping.takeWhile (·.2 ≤ s.now)).map (·.1) }

/-- A turn of `taskscheduler`. -/
def schedule (s : Sched) : Option Sched :=
  match s.running, s.runqueue with
  | none, t :: queue => some { s with running := some t, runqueue := queue }
  | _, _ => none

/-- The rest of a round of `fdtask`, once nothing else is runnable.  The results of the
poll are `none` when it is interrupted. -/
def fdround (revents : Option (ℕ → ℕ)) (events : List EpollEvent) (s : Sched) : Option Sched :=
  match revents with
  | none => some (wakeSleepers s)
  | some revents =>
    if !s.poll.idle.reports events then none
    else
      (SuperPoll.poll s.poll revents events).map fun (sp, hits) =>
        wakeSleepers { s with poll := sp, runqueue := s.runqueue ++ hits.filterMap id }

/-- `tasknuke`; `none` when it returns -1. -/
def nuke (t : TaskId) (sp : Poller) : Option Poller :=
  (sp.hot.findIdx? fun h => h.data = some t).map fun i =>
    { sp with hot := Sweep.swapErase sp.hot i }

/-- **Only the hot arrays are searched**: a task in a node of the idle list, or asleep,
is not found. -/
theorem nuke_eq_none_iff {t : TaskId} {sp : Poller} :
    nuke t sp = none ↔ ∀ h ∈ sp.hot, h.data ≠ some t := by
  rw [nuke, Option.map_eq_none_iff, List.findIdx?_eq_none_iff]
  simp only [decide_eq_false_iff_not, ne_eq]

end Mongrel2.Tasks

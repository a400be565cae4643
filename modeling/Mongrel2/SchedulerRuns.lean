/-
What the scheduler guarantees on every run (`task/task.c`, `task/fd.c`).

* `Kernel.Counted` — the counters agree with the tasks;
* **`taskcount_always`** — `taskcount` is 0 exactly when all tasks are those of the system;
* `Kernel.Polling` — what `fdtask` can rely on;
* **`runqueue_always`** — there is always a task that can run, until the last one has exited;
* **`alone_of_poll`** — `fdtask` polls only when no other task can run;
* `scheduled_exec` — the tasks run in the order in which they became ready;
* **`served`** — so each task in the queue has its turn;
* **`asleep_until`** — a task that sleeps is not woken before its time;
* **`poll_wakes`** — a round wakes the others, in the order of their alarms.
-/
import Mongrel2.Scheduler
import Mathlib.Data.List.TakeWhile

namespace Mongrel2.Scheduler

open SuperPoll (TaskId Poller Rw Ctl EpollEvent)
open Tasks (insertAlarm)

variable {s s' : Kernel} {t u : TaskId}

/-! ### The counters -/

/-- How many of some tasks are not of the system. -/
def counting (system : TaskId → Bool) (l : List TaskId) : ℕ := l.countP fun u => !system u

structure Kernel.Counted (s : Kernel) : Prop where
  sleepers : s.sleepingcounted = counting s.system (s.sleeping.map Prod.fst)
  tasks : s.taskcount = counting s.system s.alltask + if s.sleepingcounted = 0 then 0 else 1

variable {system : TaskId → Bool} {l : List TaskId} {b : Bool}

theorem counting_cons : counting system (t :: l) =
    counting system l + if system t then 0 else 1 := by
  rw [counting, List.countP_cons]
  cases system t <;> rfl

theorem counting_update_of_not_mem (ht : t ∉ l) :
    counting (Function.update system t b) l = counting system l := by
  refine List.countP_congr fun u hu => ?_
  have hne : u ≠ t := fun heq => ht (heq ▸ hu)
  rw [Function.update_of_ne hne]

/-- A task that becomes one of the system. -/
theorem counting_update (hnodup : l.Nodup) (ht : t ∈ l) (hsystem : system t = false) :
    counting (Function.update system t true) l + 1 = counting system l := by
  have hperm := List.perm_cons_erase ht
  have hrest : t ∉ l.erase t := fun hmem => (hnodup.mem_erase_iff.mp hmem).1 rfl
  have hsplit : ∀ system, counting system l = counting system (t :: l.erase t) :=
    fun system => hperm.countP_eq _
  rw [hsplit, hsplit, counting_cons, counting_cons, counting_update_of_not_mem hrest,
    Function.update_self, hsystem]
  rfl

theorem Kernel.Counted.same (h : s.Counted) (hsystem : s'.system = s.system)
    (hsleeping : s'.sleeping = s.sleeping) (halltask : s'.alltask = s.alltask)
    (htaskcount : s'.taskcount = s.taskcount) (hcounted : s'.sleepingcounted = s.sleepingcounted) :
    s'.Counted := by
  refine ⟨?_, ?_⟩
  · rw [hcounted, hsystem, hsleeping]
    exact h.sleepers
  · rw [htaskcount, hcounted, hsystem, halltask]
    exact h.tasks

theorem Kernel.Placed.mem_of_sleeping (h : s.Placed) (hu : u ∈ s.sleeping.map Prod.fst) :
    u ∈ s.alltask := by
  have hpos := List.count_pos_iff.mpr hu
  refine List.count_pos_iff.mp (lt_of_lt_of_le ?_ (h.places_le u))
  unfold Kernel.places
  omega

theorem Kernel.Placed.not_sleeping_of_running (h : s.Placed) (ht : s.running = some t) :
    t ∉ s.sleeping.map Prod.fst := by
  intro hmem
  have hpos := List.count_pos_iff.mpr hmem
  have hle := h.le_one t
  rw [Kernel.places, ht, Option.toList, List.count_singleton_self] at hle
  omega

theorem Kernel.Counted.create (h : s.Counted) (hplaced : s.Placed) (hu : u ∉ s.alltask) :
    (s.create u).Counted := by
  have hasleep : u ∉ s.sleeping.map Prod.fst := fun hmem => hu (hplaced.mem_of_sleeping hmem)
  have htasks := h.tasks
  refine ⟨h.sleepers.trans (congrArg Nat.cast (counting_update_of_not_mem hasleep).symm), ?_⟩
  show s.taskcount + 1 = (counting (Function.update s.system u false) (s.alltask ++ [u]) : ℕ) +
    if s.sleepingcounted = 0 then 0 else 1
  have hsplit : counting (Function.update s.system u false) (s.alltask ++ [u]) =
      counting s.system s.alltask + 1 := by
    rw [counting, List.countP_append, ← counting, counting_update_of_not_mem hu]
    simp
  omega

theorem Kernel.Counted.startfdtask (h : s.Counted) (hplaced : s.Placed) (hu : u ∉ s.alltask) :
    (s.startfdtask u).Counted := by
  unfold Kernel.startfdtask
  split
  · exact (h.create hplaced hu).same rfl rfl rfl rfl rfl
  · exact h

theorem Kernel.Counted.tasksystem (h : s.Counted) (hplaced : s.Placed) (ht : s.running = some t) :
    (s.tasksystem t).Counted := by
  unfold Kernel.tasksystem
  split
  · exact h
  case isFalse hsystem =>
    rw [Bool.not_eq_true] at hsystem
    have hawake := hplaced.not_sleeping_of_running ht
    have hless := counting_update hplaced.slots.nodup (hplaced.mem_of_running ht) hsystem
    have htasks := h.tasks
    refine ⟨h.sleepers.trans (congrArg Nat.cast (counting_update_of_not_mem hawake).symm), ?_⟩
    show s.taskcount - 1 = (counting (Function.update s.system t true) s.alltask : ℕ) +
      if s.sleepingcounted = 0 then 0 else 1
    omega

theorem Kernel.Counted.delay (h : s.Counted) (t : TaskId) (ms : ℕ) : (s.delay t ms).Counted := by
  have hperm := (insertAlarm_perm t (s.now + ms * 1000000) s.sleeping).map Prod.fst
  have hcount : counting s.system ((insertAlarm t (s.now + ms * 1000000) s.sleeping).map Prod.fst) =
      counting s.system (s.sleeping.map Prod.fst) + if s.system t then 0 else 1 :=
    (hperm.countP_eq _).trans counting_cons
  have hsleepers := h.sleepers
  have htasks := h.tasks
  unfold Kernel.delay Kernel.countSleeper
  dsimp only
  by_cases hsystem : s.system t = true
  · rw [if_pos hsystem] at hcount ⊢
    exact ⟨hsleepers.trans (congrArg Nat.cast hcount.symm), htasks⟩
  · rw [if_neg hsystem] at hcount ⊢
    refine ⟨?_, ?_⟩
    · dsimp only
      omega
    · have hpos : s.sleepingcounted + 1 ≠ 0 := by omega
      dsimp only
      rw [if_neg hpos]
      split_ifs at htasks ⊢ <;> omega

theorem Kernel.Counted.exit (h : s.Counted) (hplaced : s.Placed) (ht : s.running = some t) :
    (s.exit t).Counted := by
  obtain ⟨hlt, heq⟩ := List.getElem?_eq_some_iff.mp
    (hplaced.slots.getElem? (hplaced.mem_of_running ht))
  have hperm : (t :: Sweep.swapErase s.alltask (s.alltaskslot t)).Perm s.alltask := by
    refine ((Sweep.swapErase_perm hlt).cons t).trans ?_
    have hsplit := List.getElem_cons_eraseIdx_perm hlt
    rwa [heq] at hsplit
  have hcount : counting s.system s.alltask =
      counting s.system (Sweep.swapErase s.alltask (s.alltaskslot t)) +
        if s.system t then 0 else 1 := (hperm.countP_eq _).symm.trans counting_cons
  have htasks := h.tasks
  refine ⟨h.sleepers, ?_⟩
  show (if s.system t then s.taskcount else s.taskcount - 1) =
    (counting s.system (Sweep.swapErase s.alltask (s.alltaskslot t)) : ℕ) +
      if s.sleepingcounted = 0 then 0 else 1
  by_cases hsystem : s.system t = true
  · rw [if_pos hsystem] at hcount ⊢
    omega
  · rw [if_neg hsystem] at hcount ⊢
    omega

/-- A sleeper that is woken. -/
theorem Kernel.Counted.uncountSleeper (h : s.Counted) {alarmtime : ℕ} {l : List (TaskId × ℕ)}
    (hl : s.sleeping = (t, alarmtime) :: l) :
    (Kernel.uncountSleeper { s with sleeping := l } t).Counted := by
  have hcount : counting s.system (s.sleeping.map Prod.fst) =
      counting s.system (l.map Prod.fst) + if s.system t then 0 else 1 := by
    rw [hl]
    exact counting_cons
  have hsleepers := h.sleepers
  have htasks := h.tasks
  unfold Kernel.uncountSleeper
  dsimp only
  by_cases hsystem : s.system t = true
  · rw [if_pos hsystem] at hcount ⊢
    exact ⟨hsleepers.trans (congrArg Nat.cast hcount), htasks⟩
  · rw [if_neg hsystem] at hcount ⊢
    refine ⟨?_, ?_⟩
    · dsimp only
      omega
    · have hpos : s.sleepingcounted ≠ 0 := by omega
      rw [if_neg hpos] at htasks
      dsimp only
      split_ifs <;> omega

theorem Kernel.Counted.wakeFrom (h : s.Counted) : (Kernel.wakeFrom s.sleeping s).Counted := by
  generalize hl : s.sleeping = l
  induction l generalizing s with
  | nil => exact h.same rfl hl.symm rfl rfl rfl
  | cons a l ih =>
    rw [Kernel.wakeFrom]
    split
    case isTrue =>
      refine ih ((h.uncountSleeper hl).same rfl rfl rfl rfl rfl) ?_
      unfold Kernel.uncountSleeper Kernel.ready
      split <;> rfl
    case isFalse => exact h.same rfl hl.symm rfl rfl rfl

theorem Turn.counted {a : Step} (hplaced : s.Placed) (h : s.Counted) (hturn : Turn s a s') :
    s'.Counted := by
  cases hturn with
  | create ht hu => exact h.create hplaced hu
  | tasksystem ht => exact h.tasksystem hplaced (client_eq_some_iff.mp ht).1
  | delay ht hu => exact (h.startfdtask hplaced hu).delay ..
  | wait ht hu hfd => exact (h.startfdtask hplaced hu).same rfl rfl rfl rfl rfl
  | exit ht => exact h.exit hplaced (client_eq_some_iff.mp ht).1
  | fdbegin ht hfd => exact (h.tasksystem hplaced ht).same rfl rfl rfl rfl rfl
  | @poll t n elapsed revents events sp hits ht hfd halone hpoll =>
    have hready : Kernel.Counted { s with
        now := s.now + elapsed
        sp := sp
        runqueue := s.runqueue ++ hits.filterMap id } := h.same rfl rfl rfl rfl rfl
    exact hready.wakeFrom.same rfl rfl rfl rfl rfl
  | schedule | yield | nuke | fdyield | tick => exact h.same rfl rfl rfl rfl rfl

theorem counted_start (t : TaskId) (maxHot maxIdle : ℕ) (idleFd : ℤ) :
    (start t maxHot maxIdle idleFd).Counted := by
  refine ⟨rfl, ?_⟩
  simp [start, Kernel.create, Kernel.ready, counting]

/-! ### What can run -/

/-- A task runs, or is in the queue. -/
def Kernel.Able (s : Kernel) (u : TaskId) : Prop := s.running = some u ∨ u ∈ s.runqueue

/-- What `fdtask` can rely on. -/
structure Kernel.Polling (s : Kernel) : Prop where
  /-- Before there is one, no task waits for it. -/
  able_of_absent : s.fdtask.task = none → ∀ u ∈ s.alltask, s.Able u
  able : ∀ t, s.fdtask.task = some t → s.Able t
  yielded : ∀ t n, s.fdtask = .yielded t n → n ≤ s.tasknswitch
  /-- When it has yielded, it is the last in the queue. -/
  last : ∀ t, s.fdtask = .yielded t s.tasknswitch →
    s.running = none ∧ s.runqueue.getLast? = some t
  /-- When nobody ran before it runs again, the queue is empty. -/
  alone : ∀ t n, s.fdtask = .yielded t n → s.tasknswitch = n + 1 → s.running = some t →
    s.runqueue = []

theorem Kernel.Able.mono (h : s.Able u) (hrunning : s'.running = s.running)
    (hqueue : s.runqueue ⊆ s'.runqueue) : s'.Able u := by
  rcases h with hu | hu
  · exact .inl (hrunning.trans hu)
  · exact .inr (hqueue hu)

/-- What a task that is not `fdtask` does leaves `fdtask` what it relies on. -/
theorem Kernel.Polling.client (h : s.Polling) (ht : s.client = some t)
    (hfd : s'.fdtask = s.fdtask) (hswitch : s'.tasknswitch = s.tasknswitch)
    (hrunning : s'.running = none ∨ s'.running = some t) (hqueue : s.runqueue ⊆ s'.runqueue)
    (habsent : s.fdtask.task = none → ∀ u ∈ s'.alltask, s'.Able u) : s'.Polling := by
  obtain ⟨hclient, hne⟩ := client_eq_some_iff.mp ht
  refine ⟨?_, ?_, ?_, ?_, ?_⟩
  · rw [hfd]
    exact habsent
  · intro u hu
    rw [hfd] at hu
    rcases h.able u hu with hu' | hu'
    · rw [hclient, Option.some_inj] at hu'
      exact absurd (hu' ▸ hu) hne
    · exact .inr (hqueue hu')
  · intro u n hu
    rw [hfd] at hu
    rw [hswitch]
    exact h.yielded u n hu
  · intro u hu
    rw [hfd, hswitch] at hu
    rw [(h.last u hu).1] at hclient
    exact absurd hclient (by simp)
  · intro u n hu _ hu'
    rw [hfd] at hu
    rcases hrunning with hrunning | hrunning
    · rw [hrunning] at hu'
      exact absurd hu' (by simp)
    · rw [hrunning, Option.some_inj] at hu'
      rw [hu, ← hu'] at hne
      exact absurd rfl hne

theorem Kernel.Polling.startfdtask (h : s.Polling) (ht : s.client = some t) (hu : u ∉ s.alltask)
    (hmem : t ∈ s.alltask) : (s.startfdtask u).Polling ∧ (s.startfdtask u).client = some t ∧
      (s.startfdtask u).fdtask.task ≠ none := by
  obtain ⟨hclient, hne⟩ := client_eq_some_iff.mp ht
  unfold Kernel.startfdtask
  split
  case h_1 =>
    have hout : some u ≠ some t := fun heq => hu (Option.some.inj heq ▸ hmem)
    refine ⟨⟨fun habsent => absurd habsent (by simp [Fdtask.task]), fun v hv => ?_,
      fun v n hv => absurd hv (by simp), fun v hv => absurd hv (by simp),
      fun v n hv => absurd hv (by simp)⟩, client_eq_some_iff.mpr ⟨hclient, hout⟩,
      by simp [Fdtask.task]⟩
    obtain rfl := Option.some.inj hv
    exact .inr (List.mem_append_right _ (List.mem_singleton_self _))
  case h_2 hpresent =>
    refine ⟨h, ht, ?_⟩
    cases hfd : s.fdtask with
    | absent => exact absurd hfd hpresent
    | started | yielded => simp [Fdtask.task]

/-- `fdtask` after its `taskyield`. -/
theorem Kernel.Polling.yielded_self (s : Kernel) (t : TaskId) :
    Kernel.Polling { s.yield t with fdtask := .yielded t s.tasknswitch } := by
  refine ⟨fun habsent => absurd habsent (by simp [Fdtask.task]), fun u hu => ?_, fun u n hu => ?_,
    fun u hu => ?_, fun u n hu hswitch => ?_⟩
  · obtain rfl := Option.some.inj hu
    exact .inr (List.mem_append_right _ (List.mem_singleton_self _))
  · obtain ⟨-, rfl⟩ := Fdtask.yielded.inj hu
    exact Nat.le_refl _
  · obtain ⟨rfl, -⟩ := Fdtask.yielded.inj hu
    exact ⟨rfl, List.getLast?_concat⟩
  · obtain ⟨-, rfl⟩ := Fdtask.yielded.inj hu
    have hswitch : s.tasknswitch = s.tasknswitch + 1 := hswitch
    omega

theorem Kernel.Polling.schedule (h : s.Polling) (hplaced : s.Placed) {queue : List TaskId}
    (hrunning : s.running = none) (hqueue : s.runqueue = t :: queue) :
    Kernel.Polling
      { s with running := some t, runqueue := queue, tasknswitch := s.tasknswitch + 1 } := by
  have hable : ∀ u, s.Able u → Kernel.Able
      { s with running := some t, runqueue := queue, tasknswitch := s.tasknswitch + 1 } u := by
    rintro u (hu | hu)
    · rw [hrunning] at hu
      exact absurd hu (by simp)
    · rw [hqueue] at hu
      rcases List.mem_cons.mp hu with rfl | hu
      · exact .inl rfl
      · exact .inr hu
  refine ⟨fun habsent u hu => hable u (h.able_of_absent habsent u hu),
    fun u hu => hable u (h.able u hu), fun u n hu => ?_, fun u hu => ?_, fun u n hu hswitch hu' => ?_⟩
  · exact (h.yielded u n hu).trans (Nat.le_succ _)
  · exact absurd (h.yielded u _ hu) (Nat.not_succ_le_self _)
  · -- the last in the queue is the first, so nobody else is there
    obtain rfl : n = s.tasknswitch := (Nat.succ.inj hswitch).symm
    obtain rfl : t = u := Option.some.inj hu'
    obtain ⟨-, hlast⟩ := h.last t hu
    have hle := hplaced.le_one t
    rw [Kernel.places, hrunning, hqueue, List.count_cons_self] at hle
    cases hq : queue with
    | nil => rfl
    | cons v rest =>
      have hmem : t ∈ queue := by
        rw [hqueue, hq, List.getLast?_cons_cons, ← hq] at hlast
        exact List.mem_of_getLast? hlast
      have hpos := List.count_pos_iff.mpr hmem
      omega

theorem tasksystem_same : (s.tasksystem t).alltask = s.alltask ∧
    (s.tasksystem t).running = s.running ∧ (s.tasksystem t).runqueue = s.runqueue ∧
      (s.tasksystem t).fdtask = s.fdtask ∧ (s.tasksystem t).tasknswitch = s.tasknswitch ∧
        (s.tasksystem t).sleeping = s.sleeping ∧ (s.tasksystem t).now = s.now := by
  unfold Kernel.tasksystem
  split <;> exact ⟨rfl, rfl, rfl, rfl, rfl, rfl, rfl⟩

theorem delay_same (ms : ℕ) : (s.delay t ms).alltask = s.alltask ∧
    (s.delay t ms).running = none ∧ (s.delay t ms).runqueue = s.runqueue ∧
      (s.delay t ms).fdtask = s.fdtask ∧ (s.delay t ms).tasknswitch = s.tasknswitch ∧
        (s.delay t ms).sleeping = insertAlarm t (s.now + ms * 1000000) s.sleeping ∧
          (s.delay t ms).now = s.now := by
  unfold Kernel.delay Kernel.countSleeper
  split <;> exact ⟨rfl, rfl, rfl, rfl, rfl, rfl, rfl⟩

theorem Turn.polling {a : Step} (hplaced : s.Placed) (h : s.Polling) (hturn : Turn s a s') :
    s'.Polling := by
  cases hturn with
  | schedule hrunning hqueue hcount => exact h.schedule hplaced hrunning hqueue
  | @create t u ht hu =>
    have hmore : s.runqueue ⊆ s.runqueue ++ [u] := List.subset_append_left ..
    refine h.client ht rfl rfl (.inr (client_eq_some_iff.mp ht).1) hmore fun habsent v hv => ?_
    rcases List.mem_append.mp hv with hv | hv
    · exact (h.able_of_absent habsent v hv).mono rfl hmore
    · exact .inr (List.mem_append_right _ hv)
  | @tasksystem t ht =>
    obtain ⟨halltask, hrunning, hqueue, hfd, hswitch, -⟩ := @tasksystem_same s t
    refine h.client ht hfd hswitch (.inr (hrunning.trans (client_eq_some_iff.mp ht).1))
      (hqueue ▸ List.Subset.refl _) fun habsent v hv => ?_
    exact (h.able_of_absent habsent v (halltask ▸ hv)).mono hrunning (hqueue ▸ List.Subset.refl _)
  | @yield t ht =>
    have hmore : s.runqueue ⊆ s.runqueue ++ [t] := List.subset_append_left ..
    refine h.client ht rfl rfl (.inl rfl) hmore fun habsent v hv => ?_
    rcases h.able_of_absent habsent v hv with hv' | hv'
    · rw [(client_eq_some_iff.mp ht).1, Option.some_inj] at hv'
      exact .inr (List.mem_append_right _ (List.mem_singleton.mpr hv'.symm))
    · exact .inr (hmore hv')
  | @delay t u ms ht hu =>
    have hmem := hplaced.mem_of_running (client_eq_some_iff.mp ht).1
    obtain ⟨h', ht', hpresent⟩ := h.startfdtask ht hu hmem
    obtain ⟨-, hrunning, hqueue, hfd, hswitch, -⟩ := @delay_same (s.startfdtask u) t ms
    exact h'.client ht' hfd hswitch (.inl hrunning) (hqueue ▸ List.Subset.refl _)
      fun habsent => absurd habsent hpresent
  | @wait t u ctl socket fd rw ht hu hfd =>
    have hmem := hplaced.mem_of_running (client_eq_some_iff.mp ht).1
    obtain ⟨h', ht', hpresent⟩ := h.startfdtask ht hu hmem
    exact h'.client ht' rfl rfl (.inl rfl) (List.Subset.refl _) fun habsent => absurd habsent hpresent
  | @exit t ht =>
    have hclient := (client_eq_some_iff.mp ht).1
    refine h.client ht rfl rfl (.inl rfl) (List.Subset.refl _) fun habsent v hv => ?_
    have hcount := count_swapErase hplaced (hplaced.mem_of_running hclient) v
    have hpos := List.count_pos_iff.mpr hv
    have hle := List.nodup_iff_count.mp hplaced.slots.nodup v
    rcases h.able_of_absent habsent v (List.count_pos_iff.mp (by omega)) with hv' | hv'
    · obtain rfl : t = v := Option.some.inj (hclient.symm.trans hv')
      rw [List.count_singleton_self] at hcount
      omega
    · exact .inr hv'
  | nuke ht =>
    exact h.client ht rfl rfl (.inr (client_eq_some_iff.mp ht).1) (List.Subset.refl _)
      h.able_of_absent
  | @fdbegin t ht hfd =>
    have hswitch : s.tasknswitch = (s.tasksystem t).tasknswitch := tasksystem_same.2.2.2.2.1.symm
    rw [hswitch]
    exact .yielded_self ..
  | fdyield ht hfd hothers => exact .yielded_self ..
  | @poll t n elapsed revents events sp hits ht hfd halone hpoll => exact .yielded_self ..
  | tick ht => exact ⟨h.able_of_absent, h.able, h.yielded, h.last, h.alone⟩

/-- What holds on every run. -/
structure Kernel.Inv (s : Kernel) : Prop where
  placed : s.Placed
  counted : s.Counted
  polling : s.Polling

theorem inv_start (t : TaskId) (maxHot maxIdle : ℕ) (idleFd : ℤ) :
    (start t maxHot maxIdle idleFd).Inv := by
  refine ⟨placed_start .., counted_start .., fun _ u hu => .inr hu, fun u hu => ?_, fun u n hu => ?_,
    fun u hu => ?_, fun u n hu => ?_⟩ <;> exact absurd hu (by simp [start, Kernel.create,
      Kernel.ready, Fdtask.task])

theorem Turn.inv {a : Step} (h : s.Inv) (hturn : Turn s a s') : s'.Inv :=
  ⟨hturn.placed h.placed, hturn.counted h.placed h.counted, hturn.polling h.placed h.polling⟩

theorem inv_always (t : TaskId) (maxHot maxIdle : ℕ) (idleFd : ℤ) (run : List Step) :
    Runs.Always step Kernel.Inv (start t maxHot maxIdle idleFd) run :=
  Runs.always_of_step (fun _ _ _ h hstep => (turn_of_step hstep).inv h) (inv_start ..) run

/-- **The process ends when all tasks but those of the system have exited**, on every run: tasks that
sleep are counted twice over, and that cannot be seen in `taskcount = 0`. -/
theorem taskcount_always (t : TaskId) (maxHot maxIdle : ℕ) (idleFd : ℤ) (run : List Step) :
    Runs.Always step (fun s => s.taskcount = 0 ↔ ∀ u ∈ s.alltask, s.system u = true)
      (start t maxHot maxIdle idleFd) run := by
  refine (inv_always t maxHot maxIdle idleFd run).mono fun s h => ?_
  have hsleepers := h.counted.sleepers
  have htasks := h.counted.tasks
  have hiff : counting s.system s.alltask = 0 ↔ ∀ u ∈ s.alltask, s.system u = true := by
    rw [counting, List.countP_eq_zero]
    simp
  rw [← hiff]
  constructor
  · intro hzero
    split_ifs at htasks <;> omega
  · intro hzero
    have hasleep : counting s.system (s.sleeping.map Prod.fst) = 0 := by
      refine List.countP_eq_zero.mpr fun u hu => ?_
      exact List.countP_eq_zero.mp hzero u (h.placed.mem_of_sleeping hu)
    rw [if_pos (by omega)] at htasks
    omega

/-- **The scheduler never finds that its tasks are stalled**, on every run: unless one runs, or all have
exited but those of the system, there is one in the queue. -/
theorem runqueue_always (t : TaskId) (maxHot maxIdle : ℕ) (idleFd : ℤ) (run : List Step) :
    Runs.Always step (fun s => s.running = none → s.taskcount ≠ 0 → s.runqueue ≠ [])
      (start t maxHot maxIdle idleFd) run := by
  refine (inv_always t maxHot maxIdle idleFd run).mono fun s h hrunning hcount hqueue => ?_
  have hnone : ∀ u, ¬ s.Able u := by
    rintro u (hu | hu)
    · rw [hrunning] at hu
      exact absurd hu (by simp)
    · rw [hqueue] at hu
      exact absurd hu (by simp)
  cases hfd : s.fdtask.task with
  | some u => exact hnone u (h.polling.able u hfd)
  | none =>
    have hall : s.alltask = [] :=
      List.eq_nil_iff_forall_not_mem.mpr fun u hu => hnone u (h.polling.able_of_absent hfd u hu)
    have hasleep : s.sleeping.map Prod.fst = [] := by
      refine List.eq_nil_iff_forall_not_mem.mpr fun u hu => ?_
      have hmem := h.placed.mem_of_sleeping hu
      rw [hall] at hmem
      exact absurd hmem (by simp)
    have hsleepers : s.sleepingcounted = 0 := by
      rw [h.counted.sleepers, hasleep]
      rfl
    refine hcount ?_
    rw [h.counted.tasks, hall, if_pos hsleepers]
    rfl

theorem Kernel.Inv.alone (h : s.Inv) {n : ℕ} (ht : s.running = some t)
    (hfd : s.fdtask = .yielded t n) (halone : s.tasknswitch ≤ n + 1) : s.runqueue = [] := by
  have hle := h.polling.yielded t n hfd
  have hne : s.tasknswitch ≠ n := by
    rintro rfl
    rw [(h.polling.last t hfd).1] at ht
    exact absurd ht (by simp)
  exact h.polling.alone t n hfd (by omega) ht

/-- **`fdtask` polls only when no other task can run.** -/
theorem alone_of_poll {t : TaskId} {maxHot maxIdle : ℕ} {idleFd : ℤ} {run : List Step} {s s' : Kernel}
    {elapsed : ℕ} {revents : Option (ℕ → ℕ)} {events : List EpollEvent}
    (hrun : Runs.exec step (start t maxHot maxIdle idleFd) run = some s)
    (hstep : step s (.poll elapsed revents events) = some s') :
    s.runqueue = [] ∧ s.running = s.fdtask.task := by
  have h := (inv_always t maxHot maxIdle idleFd run).last hrun
  cases turn_of_step hstep with
  | poll ht hfd halone hpoll =>
    refine ⟨h.alone ht hfd halone, ?_⟩
    rw [ht, hfd]
    rfl

/-- The first task creates a second, and sleeps; that one exits, and `fdtask` is alone. -/
def oneNaps : List Step := [.schedule, .create 2, .delay 3 1500]

def oneNapsOn : List Step := [.schedule, .exit, .schedule, .fdyield, .schedule]

theorem alone_of_poll_oneNaps : ∃ s s', step s (.poll 1600000000 none []) = some s' ∧
    s.runqueue = [] ∧ s.running = s.fdtask.task :=
  ⟨_, _, rfl, @alone_of_poll 1 4 4 5 (oneNaps ++ oneNapsOn) _ _ 1600000000 none [] rfl rfl⟩

/-! ### The order of the tasks -/

/-- The task that a step brings to run. -/
def entered (s : Kernel) : Step → List TaskId
  | .schedule => s.running.toList
  | _ => []

/-- The tasks that run, one after the other. -/
def scheduled : Kernel → List Step → List TaskId
  | _, [] => []
  | s, a :: run =>
    match step s a with
    | none => []
    | some s' => entered s' a ++ scheduled s' run

/-- What `wake_sleepers` does. -/
theorem wakeFrom_spec (l : List (TaskId × ℕ)) (s : Kernel) :
    (Kernel.wakeFrom l s).sleeping = l.dropWhile (·.2 ≤ s.now) ∧
      (Kernel.wakeFrom l s).runqueue =
        s.runqueue ++ (l.takeWhile (·.2 ≤ s.now)).map Prod.fst := by
  induction l generalizing s with
  | nil => exact ⟨rfl, (List.append_nil _).symm⟩
  | cons a l ih =>
    rw [Kernel.wakeFrom]
    by_cases ha : a.2 ≤ s.now
    · obtain ⟨hsleeping, hqueue⟩ :=
        ih ((Kernel.uncountSleeper { s with sleeping := l } a.1).ready a.1)
      have hsame : (Kernel.uncountSleeper { s with sleeping := l } a.1).now = s.now ∧
          (Kernel.uncountSleeper { s with sleeping := l } a.1).runqueue = s.runqueue := by
        unfold Kernel.uncountSleeper
        split <;> exact ⟨rfl, rfl⟩
      have hnow : ((Kernel.uncountSleeper { s with sleeping := l } a.1).ready a.1).now = s.now :=
        hsame.1
      have hready : ((Kernel.uncountSleeper { s with sleeping := l } a.1).ready a.1).runqueue =
          s.runqueue ++ [a.1] := congrArg (· ++ [a.1]) hsame.2
      rw [if_pos ha, hsleeping, hqueue, hnow, hready, List.dropWhile_cons_of_pos (by simpa using ha),
        List.takeWhile_cons_of_pos (by simpa using ha), List.map_cons, List.append_assoc]
      exact ⟨rfl, rfl⟩
    · rw [if_neg ha, List.dropWhile_cons_of_neg (by simpa using ha),
        List.takeWhile_cons_of_neg (by simpa using ha)]
      exact ⟨rfl, (List.append_nil _).symm⟩

/-- What a round does to the queue and to the sleepers. -/
theorem round_spec (s : Kernel) (t : TaskId) (elapsed : ℕ) (sp : Poller)
    (hits : List (Option TaskId)) :
    (s.round t elapsed sp hits).sleeping = s.sleeping.dropWhile (·.2 ≤ s.now + elapsed) ∧
      (s.round t elapsed sp hits).runqueue = s.runqueue ++ hits.filterMap id ++
        (s.sleeping.takeWhile (·.2 ≤ s.now + elapsed)).map Prod.fst ++ [t] ∧
      (s.round t elapsed sp hits).now = s.now + elapsed := by
  obtain ⟨hsleeping, hqueue⟩ := wakeFrom_spec s.sleeping { s with
      now := s.now + elapsed
      sp := sp
      runqueue := s.runqueue ++ hits.filterMap id }
  exact ⟨hsleeping, congrArg (· ++ [t]) hqueue, (wakeFrom_same ..).2.2.2.2.2.1⟩

/-- A step takes the head of the queue at most, and adds at its end. -/
theorem Turn.queue {a : Step} (hturn : Turn s a s') :
    ∃ readied, s.runqueue ++ readied = entered s' a ++ s'.runqueue := by
  cases hturn with
  | schedule hrunning hqueue hcount => exact ⟨[], (List.append_nil _).trans hqueue⟩
  | @create t u ht hu => exact ⟨[u], rfl⟩
  | tasksystem ht => exact ⟨[], by rw [tasksystem_same.2.2.1]; exact List.append_nil _⟩
  | @yield t ht => exact ⟨[t], rfl⟩
  | @delay t u ms ht hu =>
    have hqueue := (@delay_same (s.startfdtask u) t ms).2.2.1
    rw [hqueue]
    unfold Kernel.startfdtask
    split
    · exact ⟨[u], rfl⟩
    · exact ⟨[], List.append_nil _⟩
  | @wait t u ctl socket fd rw ht hu hfd =>
    show ∃ readied, s.runqueue ++ readied = (s.startfdtask u).runqueue
    unfold Kernel.startfdtask
    split
    · exact ⟨[u], rfl⟩
    · exact ⟨[], List.append_nil _⟩
  | exit | nuke | tick => exact ⟨[], List.append_nil _⟩
  | @fdbegin t ht hfd =>
    refine ⟨[t], ?_⟩
    show s.runqueue ++ [t] = (s.tasksystem t).runqueue ++ [t]
    rw [tasksystem_same.2.2.1]
  | @fdyield t n ht hfd hothers => exact ⟨[t], rfl⟩
  | @poll t n elapsed revents events sp hits ht hfd halone hpoll =>
    obtain ⟨-, hqueue, -⟩ := round_spec s t elapsed sp hits
    refine ⟨hits.filterMap id ++
      ((s.sleeping.takeWhile (·.2 ≤ s.now + elapsed)).map Prod.fst ++ [t]), ?_⟩
    rw [hqueue]
    simp only [entered, List.append_assoc, List.nil_append]

/-- **The tasks run in the order in which they became ready**: those that ran, and then those in the
queue, are those that were in the queue, and then those that became ready. -/
theorem scheduled_exec {s s' : Kernel} {run : List Step} (hrun : Runs.exec step s run = some s') :
    ∃ readied, s.runqueue ++ readied = scheduled s run ++ s'.runqueue := by
  induction run generalizing s with
  | nil =>
    obtain rfl := Option.some.inj hrun
    exact ⟨[], List.append_nil _⟩
  | cons a run ih =>
    obtain ⟨s₁, hstep, hrun⟩ := Option.bind_eq_some_iff.mp hrun
    obtain ⟨first, hfirst⟩ := (turn_of_step hstep).queue
    obtain ⟨rest, hrest⟩ := ih hrun
    refine ⟨first ++ rest, ?_⟩
    rw [← List.append_assoc, hfirst, List.append_assoc, hrest, scheduled, hstep]
    exact (List.append_assoc ..).symm

/-- **Each task in the queue has its turn**: with `k` tasks before it, it is the one that runs after
`k` others, and until then it comes nearer. -/
theorem served {s s' : Kernel} {run : List Step} {k : ℕ} {u : TaskId}
    (hrun : Runs.exec step s run = some s') (hu : s.runqueue[k]? = some u) :
    if k < (scheduled s run).length then (scheduled s run)[k]? = some u
    else s'.runqueue[k - (scheduled s run).length]? = some u := by
  obtain ⟨readied, heq⟩ := scheduled_exec hrun
  have hk := (List.getElem?_eq_some_iff.mp hu).1
  have hu : (s.runqueue ++ readied)[k]? = some u := (List.getElem?_append_left hk).trans hu
  rw [heq] at hu
  split
  case isTrue hlt => rwa [List.getElem?_append_left hlt] at hu
  case isFalse hge => rwa [List.getElem?_append_right (by omega)] at hu

theorem served_oneNaps : ∃ s s', Runs.exec step (start 1 4 4 5) oneNaps = some s ∧
    Runs.exec step s oneNapsOn = some s' ∧
      if 1 < (scheduled s oneNapsOn).length then (scheduled s oneNapsOn)[1]? = some 3
      else s'.runqueue[1 - (scheduled s oneNapsOn).length]? = some 3 :=
  ⟨_, _, rfl, rfl, served rfl rfl⟩

/-! ### Alarms -/

/-- The sleepers are in the order of their alarms. -/
def Kernel.Ordered (s : Kernel) : Prop := s.sleeping.Pairwise (·.2 ≤ ·.2)

theorem insertAlarm_ordered {t : TaskId} {when : ℕ} {l : List (TaskId × ℕ)}
    (h : l.Pairwise (·.2 ≤ ·.2)) : (insertAlarm t when l).Pairwise (·.2 ≤ ·.2) := by
  induction h with
  | nil => exact List.pairwise_singleton ..
  | @cons a l ha hl ih =>
    rw [insertAlarm]
    split
    case isTrue hlt =>
      refine List.pairwise_cons.mpr ⟨fun b hb => ?_, ih⟩
      rcases List.mem_cons.mp ((insertAlarm_perm t when l).mem_iff.mp hb) with rfl | hb
      · exact hlt.le
      · exact ha b hb
    case isFalse hge =>
      refine List.pairwise_cons.mpr ⟨fun b hb => ?_, List.pairwise_cons.mpr ⟨ha, hl⟩⟩
      rcases List.mem_cons.mp hb with rfl | hb
      · exact Nat.le_of_not_lt hge
      · exact (Nat.le_of_not_lt hge).trans (ha b hb)

theorem startfdtask_sleeping : (s.startfdtask u).sleeping = s.sleeping ∧
    (s.startfdtask u).now = s.now := by
  unfold Kernel.startfdtask
  split <;> exact ⟨rfl, rfl⟩

/-- What a step does to the sleepers. -/
theorem Turn.sleeping {a : Step} (hturn : Turn s a s') :
    (s'.sleeping = s.sleeping ∧ s.now ≤ s'.now) ∨
      (∃ t when, s'.sleeping = insertAlarm t when s.sleeping ∧ s.now = s'.now) ∨
        (s'.sleeping = s.sleeping.dropWhile (·.2 ≤ s'.now) ∧ s.now ≤ s'.now) := by
  cases hturn with
  | tasksystem ht =>
    exact .inl ⟨tasksystem_same.2.2.2.2.2.1, tasksystem_same.2.2.2.2.2.2.ge⟩
  | @delay t u ms ht hu =>
    obtain ⟨-, -, -, -, -, hsleeping, hnow⟩ := @delay_same (s.startfdtask u) t ms
    rw [startfdtask_sleeping.1] at hsleeping
    exact .inr (.inl ⟨_, _, hsleeping, (hnow.trans startfdtask_sleeping.2).symm⟩)
  | wait ht hu hfd => exact .inl ⟨startfdtask_sleeping.1, startfdtask_sleeping.2.ge⟩
  | fdbegin ht hfd =>
    exact .inl ⟨tasksystem_same.2.2.2.2.2.1, tasksystem_same.2.2.2.2.2.2.ge⟩
  | @poll t n elapsed revents events sp hits ht hfd halone hpoll =>
    obtain ⟨hsleeping, -, hnow⟩ := round_spec s t elapsed sp hits
    rw [hnow, hsleeping]
    exact .inr (.inr ⟨rfl, Nat.le_add_right ..⟩)
  | tick ht => exact .inl ⟨rfl, Nat.le_add_right ..⟩
  | schedule | create | yield | exit | nuke | fdyield => exact .inl ⟨rfl, Nat.le_refl _⟩

theorem Turn.ordered {a : Step} (h : s.Ordered) (hturn : Turn s a s') : s'.Ordered := by
  unfold Kernel.Ordered at h ⊢
  rcases hturn.sleeping with ⟨heq, -⟩ | ⟨t, when, heq, -⟩ | ⟨heq, -⟩
  · exact heq ▸ h
  · exact heq ▸ insertAlarm_ordered h
  · exact heq ▸ h.sublist (List.dropWhile_sublist _)

theorem mem_dropWhile {α : Type*} {p : α → Bool} {l : List α} {a : α} (ha : a ∈ l)
    (hp : p a = false) : a ∈ l.dropWhile p := by
  rw [← List.takeWhile_append_dropWhile (p := p) (l := l)] at ha
  rcases List.mem_append.mp ha with ha | ha
  · rw [List.mem_takeWhile_imp ha] at hp
    exact absurd hp (by simp)
  · exact ha

/-- A task goes on sleeping. -/
theorem Turn.asleep {a : Step} {alarmtime : ℕ} (hu : (u, alarmtime) ∈ s.sleeping)
    (hturn : Turn s a s') (hnow : s'.now < alarmtime) : (u, alarmtime) ∈ s'.sleeping := by
  rcases hturn.sleeping with ⟨heq, -⟩ | ⟨t, when, heq, -⟩ | ⟨heq, -⟩
  · exact heq ▸ hu
  · rw [heq]
    exact (insertAlarm_perm ..).mem_iff.mpr (List.mem_cons_of_mem _ hu)
  · rw [heq]
    exact mem_dropWhile hu (by simpa using hnow)

theorem Turn.now_le {a : Step} (hturn : Turn s a s') : s.now ≤ s'.now := by
  rcases hturn.sleeping with ⟨-, hle⟩ | ⟨t, when, -, heq⟩ | ⟨-, hle⟩
  · exact hle
  · exact heq.le
  · exact hle

theorem now_le_exec {s s' : Kernel} {run : List Step} (hrun : Runs.exec step s run = some s') :
    s.now ≤ s'.now := by
  induction run generalizing s with
  | nil =>
    obtain rfl := Option.some.inj hrun
    exact Nat.le_refl _
  | cons a run ih =>
    obtain ⟨s₁, hstep, hrun⟩ := Option.bind_eq_some_iff.mp hrun
    exact (turn_of_step hstep).now_le.trans (ih hrun)

theorem asleep_exec {s s' : Kernel} {run : List Step} {alarmtime : ℕ}
    (hu : (u, alarmtime) ∈ s.sleeping) (hrun : Runs.exec step s run = some s')
    (hnow : s'.now < alarmtime) : (u, alarmtime) ∈ s'.sleeping := by
  induction run generalizing s with
  | nil =>
    obtain rfl := Option.some.inj hrun
    exact hu
  | cons a run ih =>
    obtain ⟨s₁, hstep, hrun⟩ := Option.bind_eq_some_iff.mp hrun
    have hle := now_le_exec hrun
    exact ih ((turn_of_step hstep).asleep hu (by omega)) hrun

/-- **A task that sleeps is not woken before its time**, whatever happens until then. -/
theorem asleep_until {t : TaskId} {maxHot maxIdle : ℕ} {idleFd : ℤ} {before after : List Step}
    {s s' : Kernel} {u : TaskId} {alarmtime : ℕ}
    (hbefore : Runs.exec step (start t maxHot maxIdle idleFd) before = some s)
    (hu : (u, alarmtime) ∈ s.sleeping) (hafter : Runs.exec step s after = some s')
    (hnow : s'.now < alarmtime) : (u, alarmtime) ∈ s'.sleeping ∧ ¬ s'.Able u := by
  have hrun : Runs.exec step (start t maxHot maxIdle idleFd) (before ++ after) = some s' := by
    rw [Runs.exec_append, hbefore]
    exact hafter
  have h := (inv_always t maxHot maxIdle idleFd (before ++ after)).last hrun
  have hmem := asleep_exec hu hafter hnow
  refine ⟨hmem, ?_⟩
  have hle := h.placed.le_one u
  have hsleeper : u ∈ s'.sleeping.map Prod.fst := List.mem_map_of_mem hmem
  have hasleep := List.count_pos_iff.mpr hsleeper
  unfold Kernel.places at hle
  rintro (hu | hu)
  · rw [hu, Option.toList, List.count_singleton_self] at hle
    omega
  · have hqueued := List.count_pos_iff.mpr hu
    omega

theorem asleep_until_oneNaps : ∃ s', Runs.exec step (start 1 4 4 5) (oneNaps ++ oneNapsOn) = some s' ∧
    (1, 1500000000) ∈ s'.sleeping ∧ ¬ s'.Able 1 :=
  ⟨_, rfl, @asleep_until 1 4 4 5 oneNaps oneNapsOn _ _ 1 1500000000 rfl (List.mem_singleton_self _) rfl
    (by decide)⟩

/-! ### A round -/

/-- The entries of the poller belong to tasks. -/
theorem Turn.named {a : Step} (h : s.sp.Named) (hplaced : s.Placed) (hturn : Turn s a s') :
    s'.sp.Named := by
  cases hturn with
  | tasksystem ht =>
    unfold Kernel.tasksystem
    split <;> exact h
  | delay ht hu =>
    unfold Kernel.delay Kernel.countSleeper Kernel.startfdtask
    split <;> split <;> exact h
  | @wait t u ctl socket fd rw ht hu hfd =>
    show (SuperPoll.wait ctl (s.startfdtask u).sp t socket fd rw).2.Named
    rw [startfdtask_sp]
    exact (SuperPoll.wait_named h ..).1
  | @nuke t u ht =>
    rw [Kernel.nuke, Tasks.nuke]
    cases hi : s.sp.hot.findIdx? fun e => decide (e.data = some u) with
    | none => exact h
    | some i =>
      obtain ⟨hlt, -, -⟩ := List.findIdx?_eq_some_iff_getElem.mp hi
      have hperm := Sweep.swapErase_perm hlt
      exact fun e he => h e (List.mem_of_mem_eraseIdx (hperm.mem_iff.mp he))
  | fdbegin ht hfd =>
    show (s.tasksystem _).sp.Named
    unfold Kernel.tasksystem
    split <;> exact h
  | @poll t n elapsed revents events sp hits ht hfd halone hpoll =>
    have hsp : (s.round t elapsed sp hits).sp = sp := (wakeFrom_same ..).2.2.2.1
    rw [hsp]
    cases revents with
    | none =>
      obtain ⟨rfl, -⟩ := Prod.mk.inj (Option.some.inj hpoll)
      exact h
    | some revents =>
      obtain ⟨hrep, hpoll⟩ := Option.ite_none_right_eq_some.mp hpoll
      exact (SuperPoll.poll_named hplaced.idle h hrep hpoll).2.1
  | schedule | create | yield | exit | fdyield | tick => exact h

theorem polled_named (h : s.sp.Named) (hplaced : s.Placed) {revents : Option (ℕ → ℕ)}
    {events : List EpollEvent} {sp : Poller} {hits : List (Option TaskId)}
    (hpoll : s.polled revents events = some (sp, hits)) :
    hits = (hits.filterMap id).map some := by
  have hnone : none ∉ hits := by
    cases revents with
    | none =>
      obtain ⟨-, rfl⟩ := Prod.mk.inj (Option.some.inj hpoll)
      simp
    | some revents =>
      obtain ⟨hrep, hpoll⟩ := Option.ite_none_right_eq_some.mp hpoll
      exact (SuperPoll.poll_named hplaced.idle h hrep hpoll).1
  clear hpoll
  induction hits with
  | nil => rfl
  | cons a hits ih =>
    obtain ⟨ha, hrest⟩ := not_or.mp (List.mem_cons.not.mp hnone)
    obtain ⟨t, rfl⟩ := Option.ne_none_iff_exists'.mp (Ne.symm ha)
    rw [List.filterMap_cons, id, List.map_cons, ← ih hrest]

theorem start_named (t : TaskId) (maxHot maxIdle : ℕ) (idleFd : ℤ) :
    (start t maxHot maxIdle idleFd).sp.Named := by
  intro e he _
  rw [List.mem_singleton.mp he]
  rfl

/-- **A round wakes those that are due**, in the order of their alarms and behind the tasks that the
poll hit; all others sleep on, and no hit is without its task. -/
theorem poll_wakes {t : TaskId} {maxHot maxIdle : ℕ} {idleFd : ℤ} {run : List Step} {s s' : Kernel}
    {elapsed : ℕ} {revents : Option (ℕ → ℕ)} {events : List EpollEvent}
    (hrun : Runs.exec step (start t maxHot maxIdle idleFd) run = some s)
    (hstep : step s (.poll elapsed revents events) = some s') :
    ∃ (fd : TaskId) (sp : Poller) (hits : List TaskId) (due : List (TaskId × ℕ)),
      s.polled revents events = some (sp, hits.map some) ∧
        s'.runqueue = hits ++ due.map Prod.fst ++ [fd] ∧ s'.fdtask.task = some fd ∧
          s.sleeping = due ++ s'.sleeping ∧ due.Pairwise (·.2 ≤ ·.2) ∧
            (∀ a ∈ due, a.2 ≤ s'.now) ∧ ∀ a ∈ s'.sleeping, s'.now < a.2 := by
  have hinv : Runs.Always step (fun s => s.Placed ∧ s.Ordered ∧ s.sp.Named)
      (start t maxHot maxIdle idleFd) run := by
    refine Runs.always_of_step (fun s a s' h hstep => ?_)
      ⟨placed_start .., List.Pairwise.nil, start_named t maxHot maxIdle idleFd⟩ run
    have hturn := turn_of_step hstep
    exact ⟨hturn.placed h.1, hturn.ordered h.2.1, hturn.named h.2.2 h.1⟩
  obtain ⟨hplaced, hordered, hnamed⟩ := hinv.last hrun
  have hinv' := (inv_always t maxHot maxIdle idleFd run).last hrun
  have hordered' := (turn_of_step hstep).ordered hordered
  cases turn_of_step hstep with
  | @poll fd n _ _ _ sp hits ht hfd halone hpoll =>
    obtain ⟨hsleeping, hqueue, hnow⟩ := round_spec s fd elapsed sp hits
    rw [hinv'.alone ht hfd halone, List.nil_append] at hqueue
    rw [hnow, hsleeping]
    refine ⟨fd, sp, hits.filterMap id, s.sleeping.takeWhile (·.2 ≤ s.now + elapsed),
      polled_named hnamed hplaced hpoll ▸ hpoll, hqueue, rfl, List.takeWhile_append_dropWhile.symm,
      hordered.sublist (List.takeWhile_sublist _), fun a ha => ?_, fun a ha => ?_⟩
    · have hdue := List.mem_takeWhile_imp ha
      simpa using hdue
    · -- the first that sleeps on is not due, and the others are later
      unfold Kernel.Ordered at hordered'
      rw [hsleeping] at hordered'
      cases hrest : s.sleeping.dropWhile (·.2 ≤ s.now + elapsed) with
      | nil =>
        rw [hrest] at ha
        exact absurd ha (by simp)
      | cons b rest =>
        have hb : ¬ b.2 ≤ s.now + elapsed := by
          have hnot := List.head?_dropWhile_not (fun a : TaskId × ℕ => decide (a.2 ≤ s.now + elapsed))
            s.sleeping
          rw [hrest, List.head?_cons] at hnot
          simpa using hnot
        rw [hrest] at ha hordered'
        rcases List.mem_cons.mp ha with rfl | ha
        · omega
        · have hle := (List.pairwise_cons.mp hordered').1 a ha
          omega

theorem poll_wakes_oneNaps : ∃ (s s' : Kernel) (fd : TaskId) (sp : Poller) (hits : List TaskId)
    (due : List (TaskId × ℕ)), step s (.poll 1600000000 none []) = some s' ∧ s'.runqueue = [1, 3] ∧
      s.polled none [] = some (sp, hits.map some) ∧
        s'.runqueue = hits ++ due.map Prod.fst ++ [fd] ∧ s'.fdtask.task = some fd ∧
          s.sleeping = due ++ s'.sleeping ∧ due.Pairwise (·.2 ≤ ·.2) ∧
            (∀ a ∈ due, a.2 ≤ s'.now) ∧ ∀ a ∈ s'.sleeping, s'.now < a.2 := by
  obtain ⟨fd, sp, hits, due, h⟩ :=
    @poll_wakes 1 4 4 5 (oneNaps ++ oneNapsOn) _ _ 1600000000 none [] rfl rfl
  exact ⟨_, _, fd, sp, hits, due, rfl, rfl, h⟩

/-- **How long a round waits** at most: for ever when no task sleeps, and otherwise for some multiple of
half a second, which is not past the first alarm unless this is nearer than that. -/
theorem nextTaskSleeptime_spec (s : Kernel) :
    (s.sleeping = [] → s.nextTaskSleeptime 500 = -1) ∧
      ∀ a ∈ s.sleeping.head?, 500 ≤ s.nextTaskSleeptime 500 ∧ 500 ∣ s.nextTaskSleeptime 500 ∧
        (s.nextTaskSleeptime 500 = 500 ∨
          s.now + s.nextTaskSleeptime 500 * 1000000 ≤ a.2) := by
  unfold Kernel.nextTaskSleeptime
  refine ⟨fun hnil => by simp [hnil], fun a ha => ?_⟩
  cases hs : s.sleeping with
  | nil =>
    rw [hs] at ha
    exact absurd ha (by simp)
  | cons b rest =>
    rw [hs, List.head?_cons, Option.mem_some_iff] at ha
    subst ha
    dsimp only
    split_ifs <;> omega

end Mongrel2.Scheduler

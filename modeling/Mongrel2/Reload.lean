/-
Reloading the configuration (`mongrel2.c`, `config/config.c`).

`reload_server` destroys the handlers, the proxies and the directories that were loaded,
and loads others.  Connections and the tasks of handlers go on meanwhile.

* `World`, `step` — the tasks of the server, of which one runs until it switches away;
* `Safe` — nothing was dereferenced that `reload_server` had destroyed;
* `Ok` — a reload finds no task that keeps a target, and a connection of a server that
  was replaced is not handed on to a target any more;
* **`safe_of_ok`** — the first holds in every run whose steps all meet the second.

Design notes: an address is not given out twice, so a target is known by its type and
its address.  A callback of a connection is divided where it dereferences its target
and where it waits; between two such points its task does not switch.  Memory is always
there, and a load that fails ends the process; what follows a shutdown is left out.
`reload_server` destroys no server, so the route maps of one that was replaced are still
there, with their backends.  `fdtask` is there from the beginning.
-/
import Mongrel2.BackendTypes
import Mongrel2.Tasks
import Mongrel2.TstValues

namespace Mongrel2

open ByteStream HttpParser

/-! ### The targets of a server -/

namespace Routing

/-- The backends in the route map of a host. -/
def Host.backends (host : Host) : List Backend := host.routes.routes.values.map Route.data

/-- The hosts in the map of a server, and its default host. -/
def Server.allHosts (srv : Server) : List Host :=
  srv.hosts.routes.values.map Route.data ++ srv.defaultHost.toList

/-- The backends that a server can hand a request on to. -/
def Server.backends (srv : Server) : List Backend := srv.allHosts.flatMap Host.backends

variable {bstringMatch : List Byte → List Byte → Bool}

theorem Host.mem_backends {host : Host} {path : Option (List Byte)} {found : Route Backend}
    (h : host.matchBackend bstringMatch path = some found) : found.data ∈ host.backends := by
  obtain ⟨hfound, -⟩ := Option.filter_eq_some_iff.mp h
  exact List.mem_map_of_mem (Tst.mem_values_of_searchPrefix hfound)

theorem Server.mem_allHosts {srv : Server} {name : Option (List Byte)} {host : Host}
    (h : srv.matchHost bstringMatch name = some host) : host ∈ srv.allHosts := by
  have hdefault : srv.defaultHost = some host → host ∈ srv.allHosts := by
    intro hd
    exact List.mem_append_right _ (Option.mem_toList.mpr hd)
  unfold Server.matchHost at h
  split at h
  · unfold Server.matchBackend at h
    split at h
    · rename_i found hfound
      obtain rfl := Option.some.inj h
      obtain ⟨hfound, -⟩ := Option.filter_eq_some_iff.mp hfound
      exact List.mem_append_left _ (List.mem_map_of_mem (Tst.mem_values_of_searchSuffix hfound))
    · split at h
      · exact hdefault h
      · exact absurd h (by simp)
  · exact hdefault h

end Routing

/-! ### A round in steps -/

/-- The calls that `State_exec` makes for an event, those at the end of input included,
and the state that it leaves. -/
def transition (cs : Cs) (e : Event) : List Action × Cs :=
  let eof (target : Cs) := if e = .close then eofActions target else []
  match cs with
  | .error => ([], .connection .accepting)
  | .connection c =>
    let m := connectionMove c e
    (m.actions ++ eof m.target, m.target)
  | .proxy p =>
    match proxyMove p e with
    | .take m => (m.actions ++ eof m.target, m.target)
    | .hold as c =>
      let m := connectionMove c e
      (as ++ (m.actions ++ eof m.target), m.target)

section

variable {σ : Type*} {acts : StateActions σ}

theorem callAll_append (acts : StateActions σ) (e : Option Event) (as bs : List Action)
    (x : Exec σ) : callAll acts e (as ++ bs) x = callAll acts e bs (callAll acts e as x) :=
  List.foldl_append

/-- Callbacks that do not look at their event answer all events alike. -/
theorem callAll_event (h : ∀ a e e' d, acts a e d = acts a e' d) (e e' : Option Event)
    (as : List Action) (x : Exec σ) : callAll acts e as x = callAll acts e' as x := by
  induction as generalizing x with
  | nil => rfl
  | cons a as ih =>
    have hcall : call acts e x a = call acts e' x a := by
      simp only [call, h a e e']
    rw [callAll_cons, callAll_cons, hcall, ih]

theorem callAll_enter (acts : StateActions σ) (e : Option Event) (as : List Action) (x : Exec σ)
    (cs : Cs) : callAll acts e as { x with cs := cs } = { callAll acts e as x with cs := cs } := by
  induction as generalizing x with
  | nil => rfl
  | cons a as ih => exact ih (call acts e x a)

/-- **A call of `State_exec` is its calls**, one after the other, and then the state. -/
theorem stateExec_eq_transition (h : ∀ a e e' d, acts a e d = acts a e' d) (cs : Cs) (e : Event)
    (d : σ) :
    stateExec acts cs e d =
      { callAll acts none (transition cs e).1 ⟨cs, none, d⟩ with cs := (transition cs e).2 } := by
  have hround : ∀ (as : List Action) (m : Move),
      stateExec.atEof acts e (take acts e m (callAll acts (some e) as ⟨cs, none, d⟩)) =
        { callAll acts none (as ++ (m.actions ++ if e = .close then eofActions m.target else []))
            ⟨cs, none, d⟩ with cs := m.target } := by
    intro as m
    have htake : take acts e m (callAll acts (some e) as ⟨cs, none, d⟩) =
        { callAll acts none m.actions (callAll acts none as ⟨cs, none, d⟩) with cs := m.target } := by
      rw [take, callAll_event h (some e) none as, callAll_event h (some e) none m.actions]
    rw [callAll_append, callAll_append, stateExec.atEof, htake]
    split
    · exact callAll_enter ..
    · rfl
  rcases cs with c | p | _
  · exact hround [] (connectionMove c e)
  · rcases hm : proxyMove p e with m | ⟨as, c⟩
    · simp only [stateExec, transition, hm]
      exact hround [] m
    · simp only [stateExec, transition, hm]
      exact hround as (connectionMove c e)
  · rfl

end

namespace Reload

open BackendTypes (Outcomes)
open Routing (Routed Server)
open SuperPoll (TaskId Rw Ctl EpollEvent)
open Tasks (Sched)

/-! ### The task of a connection -/

/-- A Handler, a Proxy or a Dir: its type and its address. -/
abbrev Target := Mongrel2.Backend × ℕ

/-- The target of a backend. -/
def targetOf (b : Routing.Backend) : Target := (b.type, b.target)

/-- A call of `State_exec` that has not returned. -/
structure Round where
  /-- the calls that are still to be made, of which the first is running -/
  calls : List Action
  /-- the running one does not dereference its target any more -/
  past : Bool
  /-- the state that is left -/
  target : Cs
  next : Option Event
  deriving DecidableEq

/-- `Connection_task`; the server is the one that it was accepted on. -/
structure Client where
  server : ℕ
  cs : Cs
  event : Option Event
  round : Option Round
  routed : Routed

/-- The callback dereferences the target of the request. -/
def readsTarget (a : Action) : Bool := (BackendTypes.member a).isSome

/-- The running callback can dereference a target. -/
def Round.reading (r : Round) : Bool :=
  r.calls.head?.any fun a => readsTarget a && !r.past

/-- The running callback, or one that follows, can dereference a target. -/
def Round.reads (r : Round) : Bool := r.reading || r.calls.tail.any fun a => readsTarget a

/-- The waits of a callback: whether there is one before its last dereference of the
target, or one behind it. -/
def waits (a : Action) (past : Bool) : Bool :=
  match a with
  | .msgToHandler => past
  | .httpToDirectory => past
  | .httpToProxy => !past
  | _ => true

namespace Client

/-- After `Connection_accept`. -/
def start (server : ℕ) (c : Conn) : Client :=
  ⟨server, .connection .start, some .«open», none, ⟨⟨c, []⟩, none, none, none⟩⟩

/-- `State_exec` is called. -/
def feed (c : Client) (e : Event) : Client :=
  { c with round := some ⟨(transition c.cs e).1, false, (transition c.cs e).2, none⟩ }

/-- The running callback returns. -/
def answer (bstringMatch : List Byte → List Byte → Bool) (srv : Server) (o : Outcomes)
    (c : Client) : Client :=
  match c.round with
  | some ⟨a :: calls, _, target, _⟩ =>
    let (next, routed) := BackendTypes.answer bstringMatch srv o a c.routed
    { c with round := some ⟨calls, false, target, next⟩, routed := routed }
  | _ => c

/-- `State_exec` returns. -/
def ret (c : Client) : Client :=
  match c.round with
  | some r =>
    { c with
      cs := r.target
      event := if c.event = some .close then none else some (r.next.getD .close)
      round := none }
  | none => c

/-- What the running callback can dereference. -/
def reading (c : Client) : Option Target :=
  if c.round.any Round.reading then c.routed.action.map targetOf else none

/-- A callback that has not returned can dereference a target. -/
def reads (c : Client) : Bool := c.round.any Round.reads

/-- The pending event hands the request to a target. -/
def handsOn (c : Client) : Bool :=
  c.event.any fun e => (transition c.cs e).1.any fun a => readsTarget a

end Client

section

variable {bstringMatch : List Byte → List Byte → Bool} {srv : Server} {o : Outcomes}

theorem answers_eq_callAll (c : Client) (calls : List Action) (past : Bool) (target : Cs)
    (next : Option Event) (cs : Cs) (reads : List BackendTypes.Read)
    (hc : c.round = some ⟨calls, past, target, next⟩) :
    let x := callAll (BackendTypes.callbacks bstringMatch srv o) none calls
      ⟨cs, next, ⟨c.routed, reads⟩⟩
    let c' := (Client.answer bstringMatch srv o)^[calls.length] c
    c'.event = c.event ∧ c'.routed = x.data.routed ∧
      ∃ past, c'.round = some ⟨[], past, target, x.next⟩ := by
  induction calls generalizing c past next reads with
  | nil => exact ⟨rfl, rfl, past, hc⟩
  | cons a calls ih =>
    have hround : (c.answer bstringMatch srv o).round =
        some ⟨calls, false, target, (BackendTypes.answer bstringMatch srv o a c.routed).1⟩ := by
      rw [Client.answer, hc]
    have hrouted : (c.answer bstringMatch srv o).routed =
        (BackendTypes.answer bstringMatch srv o a c.routed).2 := by
      rw [Client.answer, hc]
    have hevent : (c.answer bstringMatch srv o).event = c.event := by
      rw [Client.answer, hc]
    have hrest := ih (c.answer bstringMatch srv o) false _
      (reads ++ (BackendTypes.member a).toList.map fun k => ⟨k, c.routed.action⟩) hround
    rw [hrouted, hevent] at hrest
    exact hrest

/-- **The callbacks one by one make a round of `BackendTypes`**, if no reload comes
between them. -/
theorem ret_answers_feed (c : Client) (e : Event) (reads : List BackendTypes.Read)
    (hc : c.event = some e) :
    let c' := ((Client.answer bstringMatch srv o)^[(transition c.cs e).1.length] (c.feed e)).ret
    (BackendTypes.step bstringMatch srv ⟨c.cs, some e, ⟨c.routed, reads⟩⟩ o).map
        BackendTypes.Task.routed = some ⟨c'.cs, c'.event, c'.routed⟩ := by
  obtain ⟨hevent, hrouted, past, hround⟩ := @answers_eq_callAll bstringMatch srv o (c.feed e)
    (transition c.cs e).1 false (transition c.cs e).2 none c.cs reads rfl
  have hexec : stateExec (BackendTypes.callbacks bstringMatch srv o) c.cs e ⟨c.routed, reads⟩ =
      { callAll (BackendTypes.callbacks bstringMatch srv o) none (transition c.cs e).1
          ⟨c.cs, none, ⟨c.routed, reads⟩⟩ with cs := (transition c.cs e).2 } :=
    stateExec_eq_transition (fun _ _ _ _ => rfl) c.cs e _
  have hfed : (c.feed e).event = some e := hc
  rw [hfed] at hevent
  simp only [BackendTypes.step, hexec, Option.map_some, BackendTypes.Task.routed, Client.ret,
    hround, hevent, hrouted, Option.some.injEq]
  rfl

end

/-! ### The tasks and the memory -/

/-- `LOADED_HANDLERS`, `LOADED_PROXIES` and `LOADED_DIRS`, in the order of a traversal. -/
structure Loaded where
  handlers : List ℕ
  proxies : List ℕ
  dirs : List ℕ
  deriving DecidableEq

/-- All that is loaded. -/
def Loaded.targets (l : Loaded) : List Target :=
  l.handlers.map (.handler, ·) ++ l.proxies.map (.proxy, ·) ++ l.dirs.map (.dir, ·)

/-- What `load_server` makes: `Config_load_route_cb` takes the target of a route from
the tables. -/
structure Config where
  loaded : Loaded
  server : Server
  resolved : ∀ b ∈ server.backends, targetOf b ∈ loaded.targets

/-- `none` when the target of a route is not found. -/
def Config.of (loaded : Loaded) (server : Server) : Option Config :=
  if h : ∀ b ∈ server.backends, targetOf b ∈ loaded.targets then some ⟨loaded, server, h⟩
  else none

/-- Where `taskmain` is: before and in the loop of `Server_start`, and where it switches
away in it and in `Config_stop_handlers`. -/
inductive MainPc
  | starting | looping | accepting | yielding | delaying | stopped
  deriving DecidableEq, Repr

/-- Where `Handler_task` is: before and in `Handler_setup`, at the head of its loop, in
`mqrecv`, and with the targets of a message. -/
inductive HandlerPc
  | start | setup | head | recv | body
  deriving DecidableEq, Repr

/-- A task.  The ticker and the control port have no targets, and are left out. -/
inductive Task
  | main (pc : MainPc)
  | fdtask
  | handler (h : ℕ) (pc : HandlerPc)
  | connection (c : Client)
  | exited

/-- The members of a `Handler` that its task and `taskmain` share. -/
structure HandlerState where
  running : Bool
  task : Option TaskId

/-- The process.  A task is named by its place in `tasks`, and `taskmain` is the
first. -/
structure World where
  sched : Sched
  tasks : List Task
  /-- `RUNNING` -/
  running : Bool
  /-- `RELOAD` -/
  reload : Bool
  handlers : ℕ → HandlerState
  loaded : Loaded
  destroyed : List Target
  /-- the servers that were loaded, of which the last is `SERVER` -/
  servers : List Server
  /-- what was dereferenced after it was destroyed -/
  faults : List Target

namespace World

variable (w : World)

/-- The server has the given targets, and `taskmain` calls `Server_start`. -/
def start (cfg : Config) (poll : SuperPoll.Poller) : World where
  sched := ⟨0, none, [0, 1], [], poll⟩
  tasks := [.main .starting, .fdtask]
  running := true
  reload := false
  handlers _ := ⟨false, none⟩
  loaded := cfg.loaded
  destroyed := []
  servers := [cfg.server]
  faults := []

/-- These are dereferenced. -/
def deref (ts : List Target) : World :=
  { w with faults := w.faults ++ ts.filter (· ∈ w.destroyed) }

/-- A task goes on. -/
def set (t : TaskId) (task : Task) : World := { w with tasks := w.tasks.set t task }

/-- `taskcreate`. -/
def create (task : Task) : World :=
  { w with
    tasks := w.tasks ++ [task]
    sched := Tasks.ready w.tasks.length w.sched }

/-- `taskexit`. -/
def exit (t : TaskId) : World := { w.set t .exited with sched := Tasks.switch w.sched }

/-- `_wait`.  Nothing waits for the descriptor of the epoll set. -/
def wait (ctl : Ctl) (t : TaskId) (socket : Option ℕ) (fd : ℤ) (rw : Rw) : Option World :=
  if fd = w.sched.poll.idleFd then none
  else some { w with sched := Tasks.wait ctl t socket fd rw w.sched }

/-! ### The main task -/

/-- `handlers_receive_start`. -/
def startHandler (h : ℕ) : World :=
  if (w.handlers h).running then w.deref [(.handler, h)]
  else
    { (w.deref [(.handler, h)]).create (.handler h .start) with
      handlers := Function.update w.handlers h { w.handlers h with running := true } }

/-- `shutdown_handler`.  A handler whose task has not begun has no task yet, and
`taskgetid` ends the process. -/
def shutdownHandler (h : ℕ) : Option World :=
  if (w.handlers h).running then
    (w.handlers h).task.map fun t =>
      { w.deref [(.handler, h)] with
        handlers := Function.update w.handlers h { w.handlers h with running := false }
        sched :=
          match Tasks.nuke t w.sched.poll with
          | some poll => Tasks.ready t { w.sched with poll := poll }
          | none => w.sched }
  else some (w.deref [(.handler, h)])

/-- `Server_start` returns to `taskmain`: the beginning of `reload_server`, up to the
`taskyield` of `Config_stop_handlers`. -/
def leave (t : TaskId) : Option World :=
  if w.reload then
    (w.loaded.handlers.foldlM shutdownHandler { w with running := true }).map fun w =>
      { w.set t (.main .yielding) with sched := Tasks.yield t w.sched }
  else some (w.set t (.main .stopped))

/-- The rest of `reload_server`: what is loaded is destroyed, and what `load_server`
makes has addresses of its own. -/
def load (t : TaskId) (cfg : Config) : Option World :=
  if ∀ x ∈ cfg.loaded.targets, x ∉ w.loaded.targets ∧ x ∉ w.destroyed then
    some
      { (w.deref w.loaded.targets).set t (.main .starting) with
        destroyed := w.destroyed ++ w.loaded.targets
        loaded := cfg.loaded
        servers := w.servers ++ [cfg.server]
        reload := false }
  else none

end World

/-- What `taskmain` does next. -/
inductive MainOp
  | start
  | loop (fd : ℤ) (ctl : Ctl)
  /-- `netaccept` returns -/
  | accept (c : Option Conn)
  | delay
  | load (cfg : Config)

/-- `taskmain`, `Server_start` and `reload_server`. -/
def mainStep (w : World) (t : TaskId) : MainPc → MainOp → Option World
  | .starting, .start =>
    -- `Server_start` checks that there is a default host
    if (w.servers.getLast?.bind (·.defaultHost)).isSome then
      some ((w.loaded.handlers.foldl World.startHandler w).set t (.main .looping))
    else none
  | .looping, .loop fd ctl =>
    if w.running then (w.set t (.main .accepting)).wait ctl t none fd .r else w.leave t
  | .accepting, .accept (some c) =>
    some ((w.create (.connection (.start (w.servers.length - 1) c))).set t (.main .looping))
  | .accepting, .accept none => w.leave t
  | .yielding, .delay =>
    some { w.set t (.main .delaying) with sched := Tasks.delay t 100 w.sched }
  | .delaying, .load cfg => w.load t cfg
  | _, _ => none

/-! ### The task of a handler -/

/-- What `Handler_task` does next. -/
inductive HandlerOp
  | enter
  /-- a socket is not bound -/
  | sleep
  | setUp (ok : Bool)
  | recv (socket : ℕ) (ctl : Ctl)
  /-- `mqrecv` returns -/
  | received (ok parsed : Bool)
  /-- `Handler_notify_leave` -/
  | notify (socket : ℕ) (ctl : Ctl)
  /-- a message goes to a connection, which is written to -/
  | deliver (fd : ℤ) (ctl : Ctl)
  | next

/-- `Handler_task`, with its dereferences of the handler. -/
def handlerStep (w : World) (t : TaskId) (h : ℕ) : HandlerPc → HandlerOp → Option World
  | .start, .enter =>
    some
      { (w.deref [(.handler, h)]).set t (.handler h .setup) with
        handlers := Function.update w.handlers h { w.handlers h with task := some t } }
  | .setup, .sleep => some { w with sched := Tasks.delay t 1000 w.sched }
  | .setup, .setUp true => some ((w.deref [(.handler, h)]).set t (.handler h .head))
  | .setup, .setUp false => some ((w.deref [(.handler, h)]).exit t)
  | .head, .recv socket ctl =>
    if (w.handlers h).running then
      ((w.deref [(.handler, h)]).set t (.handler h .recv)).wait ctl t (some socket) (-1) .r
    else some ((w.deref [(.handler, h)]).exit t)
  | .recv, .received false _ => some (w.set t (.handler h .head))
  | .recv, .received true parsed =>
    some ((w.deref [(.handler, h)]).set t
      (.handler h (if (w.handlers h).running && parsed then .body else .head)))
  | .body, .notify socket ctl => (w.deref [(.handler, h)]).wait ctl t (some socket) (-1) .w
  | .body, .deliver fd ctl => w.wait ctl t none fd .w
  | .body, .next => some (w.set t (.handler h .head))
  | _, _ => none

/-! ### The task of a connection, in the process -/

/-- What `Connection_task` does next. -/
inductive ConnectionOp
  | feed
  /-- the running callback dereferences its target -/
  | read
  | wait (past : Bool) (socket : Option ℕ) (fd : ℤ) (rw : Rw) (ctl : Ctl)
  /-- the running callback returns -/
  | answer (o : Outcomes)
  | ret
  | exit

section

variable (bstringMatch : List Byte → List Byte → Bool)

/-- `Connection_task`. -/
def connectionStep (w : World) (t : TaskId) (c : Client) : ConnectionOp → Option World
  | .feed =>
    match c.round, c.event with
    | none, some e => some (w.set t (.connection (c.feed e)))
    | _, _ => none
  | .read => c.reading.map fun x => w.deref [x]
  | .wait past socket fd rw ctl =>
    match c.round with
    | some ⟨a :: calls, past₀, target, next⟩ =>
      if waits a past then
        (w.set t (.connection
          { c with round := some ⟨a :: calls, past₀ || past, target, next⟩ })).wait
            ctl t socket fd rw
      else none
    | _ => none
  | .answer o =>
    match c.round with
    | some ⟨_ :: _, _, _, _⟩ =>
      w.servers[c.server]?.map fun srv =>
        w.set t (.connection (c.answer bstringMatch srv o))
    | _ => none
  | .ret =>
    match c.round with
    | some ⟨[], _, _, _⟩ => some (w.set t (.connection c.ret))
    | _ => none
  | .exit =>
    match c.round, c.event with
    | none, none => some (w.exit t)
    | _, _ => none

/-! ### The process -/

/-- What happens next: a signal, time, the scheduler, or the running task. -/
inductive Op
  | sighup
  | tick (ms : ℕ)
  | schedule
  | fdyield
  | fdpoll (revents : Option (ℕ → ℕ)) (events : List EpollEvent)
  | main (op : MainOp)
  | handler (op : HandlerOp)
  | connection (op : ConnectionOp)

/-- The running task. -/
def World.current (w : World) : Option (TaskId × Task) :=
  w.sched.running.bind fun t => w.tasks[t]?.map fun task => (t, task)

/-- One step. -/
def step (w : World) (op : Op) : Option World :=
  match op, w.current with
  | .sighup, _ => some { w with running := false, reload := true }
  | .tick ms, _ => some { w with sched := { w.sched with now := w.sched.now + ms } }
  | .schedule, _ => (Tasks.schedule w.sched).map fun s => { w with sched := s }
  | .fdyield, some (t, .fdtask) => some { w with sched := Tasks.yield t w.sched }
  | .fdpoll revents events, some (_, .fdtask) =>
    -- `taskyield` has answered 0
    if w.sched.runqueue = [] then
      (Tasks.fdround revents events w.sched).map fun s => { w with sched := s }
    else none
  | .main op, some (t, .main pc) => mainStep w t pc op
  | .handler op, some (t, .handler h pc) => handlerStep w t h pc op
  | .connection op, some (t, .connection c) => connectionStep bstringMatch w t c op
  | _, _ => none

end

/-! ### The property and the condition -/

/-- Nothing was dereferenced that had been destroyed. -/
def Safe (w : World) : Prop := w.faults = []

instance : DecidablePred Safe := fun w => inferInstanceAs (Decidable (w.faults = []))

/-- A task that goes on to dereference what is loaded now. -/
def Task.keeps : Task → Bool
  | .handler _ _ => true
  | .connection c => c.reads
  | _ => false

/-- The connection whose task is running. -/
def World.client (w : World) : Option Client :=
  match w.current with
  | some (_, .connection c) => some c
  | _ => none

/-- When the targets are destroyed, no task of a handler is left, and no callback of a
connection that is still to dereference one.  A connection that is handed on to a
target is one of the server that is in force. -/
def Ok (w : World) : Op → Prop
  | .main (.load _) => ∀ task ∈ w.tasks, task.keeps = false
  | .connection .feed => ∀ c ∈ w.client, c.handsOn = true → c.server + 1 = w.servers.length
  | _ => True

instance (w : World) : DecidablePred (Ok w) := fun op => by
  unfold Ok
  split <;> infer_instance

/-! ### What a task may keep -/

/-- What a connection keeps of its requests is of this server. -/
structure Within (srv : Server) (s : Routed) : Prop where
  targetHost : ∀ host, s.targetHost = some host → host ∈ srv.allHosts
  action : ∀ b, s.action = some b → b ∈ srv.backends

/-- What a connection keeps is of the server that it was accepted on. -/
def Client.Bound (servers : List Server) (c : Client) : Prop :=
  ∃ srv, servers[c.server]? = some srv ∧ Within srv c.routed

/-- A task keeps nothing that was destroyed, as far as it dereferences it. -/
def Task.Good (loaded : Loaded) (servers : List Server) : Task → Prop
  | .handler h _ => (.handler, h) ∈ loaded.targets
  | .connection c => c.Bound servers ∧ (c.reads = true → c.server + 1 = servers.length)
  | _ => True

/-- The invariant of the process. -/
structure Inv (w : World) : Prop where
  safe : w.faults = []
  alive : ∀ x ∈ w.loaded.targets, x ∉ w.destroyed
  server : ∃ srv, w.servers.getLast? = some srv ∧
    ∀ b ∈ srv.backends, targetOf b ∈ w.loaded.targets
  tasks : ∀ task ∈ w.tasks, task.Good w.loaded w.servers

section

variable {bstringMatch : List Byte → List Byte → Bool} {srv : Server} {servers : List Server}
  {o : Outcomes} {s : Routed} {c : Client}

theorem mem_backends {host : Routing.Host} {path : Option (List Byte)}
    {found : Route Routing.Backend} (hhost : host ∈ srv.allHosts)
    (h : host.matchBackend bstringMatch path = some found) : found.data ∈ srv.backends :=
  List.mem_flatMap.mpr ⟨host, hhost, Routing.Host.mem_backends h⟩

theorem Within.routeRequest (h : Within srv s) :
    Within srv (Routing.routeRequest bstringMatch srv s).2 := by
  unfold Routing.routeRequest
  split
  · exact ⟨h.targetHost, h.action⟩
  · rename_i d hd
    obtain ⟨hhost, found, hfound, hdata, -⟩ := Routing.Server.route_eq_some.mp hd
    have hmem : d.host ∈ srv.allHosts := Routing.Server.mem_allHosts hhost
    refine ⟨fun host hset => ?_, fun b hset => ?_⟩
    · exact Option.some.inj hset ▸ hmem
    · obtain rfl := Option.some.inj hset
      exact hdata ▸ mem_backends hmem hfound

theorem Within.lightFind (h : Within srv s) :
    Within srv (Routing.lightFind bstringMatch s).2 := by
  rw [Routing.lightFind_eq]
  split
  · exact ⟨h.targetHost, h.action⟩
  · rename_i found hfound
    obtain ⟨host, hhost, hmatch⟩ := Option.bind_eq_some_iff.mp hfound
    refine ⟨h.targetHost, fun b hset => ?_⟩
    exact Option.some.inj hset ▸ mem_backends (h.targetHost host hhost) hmatch

theorem Within.proxyReqParse (h : Within srv s) :
    Within srv (BackendTypes.proxyReqParse bstringMatch o s).2 := by
  unfold BackendTypes.proxyReqParse
  dsimp only
  split
  · exact ⟨h.targetHost, h.action⟩
  split
  · exact ⟨h.targetHost, h.action⟩
  · exact Within.lightFind ⟨h.targetHost, h.action⟩

/-- A callback takes what it keeps from the server or leaves it. -/
theorem Within.answer (h : Within srv s) (a : Action) :
    Within srv (BackendTypes.answer bstringMatch srv o a s).2 := by
  cases a
  case routeRequest => exact h.routeRequest
  case proxyReqParse => exact h.proxyReqParse
  all_goals exact ⟨h.targetHost, h.action⟩

theorem Client.bound_start {i : ℕ} {x : Conn} (hsrv : servers[i]? = some srv) :
    (Client.start i x).Bound servers := by
  refine ⟨srv, hsrv, fun host hset => ?_, fun b hset => ?_⟩
  · exact absurd hset (by simp [Client.start])
  · exact absurd hset (by simp [Client.start])

theorem Client.Bound.answer (h : c.Bound servers) (hsrv : servers[c.server]? = some srv) :
    (c.answer bstringMatch srv o).Bound servers := by
  obtain ⟨srv', hsrv', hwithin⟩ := h
  obtain rfl := Option.some.inj (hsrv.symm.trans hsrv')
  unfold Client.answer
  split
  · exact ⟨srv, hsrv, hwithin.answer _⟩
  · exact ⟨srv, hsrv, hwithin⟩

/-- What a connection can dereference is loaded if its server is in force. -/
theorem Client.Bound.loaded {x : Target} {loaded : Loaded} (h : c.Bound servers)
    (hx : c.reading = some x) (hserver : c.server + 1 = servers.length)
    (hlast : servers.getLast? = some srv)
    (hloaded : ∀ b ∈ srv.backends, targetOf b ∈ loaded.targets) : x ∈ loaded.targets := by
  obtain ⟨srv', hsrv, hwithin⟩ := h
  rw [List.getLast?_eq_getElem?, ← hserver] at hlast
  obtain rfl := Option.some.inj (hsrv.symm.trans hlast)
  unfold Client.reading at hx
  split at hx
  · obtain ⟨b, hb, rfl⟩ := Option.map_eq_some_iff.mp hx
    exact hloaded b (hwithin.action b hb)
  · exact absurd hx (by simp)

/-! ### Callbacks that are still to dereference a target -/

theorem Client.reads_of_reading {x : Target} (h : c.reading = some x) : c.reads = true := by
  unfold Client.reading at h
  split at h
  case isTrue hany =>
    obtain ⟨r, hr, hreading⟩ := (Option.any_eq_true ..).mp hany
    rw [Client.reads, hr, Option.any_some, Round.reads, hreading, Bool.true_or]
  case isFalse => exact absurd h (by simp)

/-- A callback that has not begun is still to dereference its target. -/
theorem Round.reads_fresh (calls : List Action) (target : Cs) (next : Option Event) :
    Round.reads ⟨calls, false, target, next⟩ = calls.any fun a => readsTarget a := by
  rcases calls with _ | ⟨a, calls⟩
  · rfl
  · simp [Round.reads, Round.reading]

theorem Client.handsOn_of_reads_feed {e : Event} (he : c.event = some e)
    (h : (c.feed e).reads = true) : c.handsOn = true := by
  rw [Client.handsOn, he]
  exact (Round.reads_fresh ..).symm.trans h

theorem Client.reads_of_reads_answer (h : (c.answer bstringMatch srv o).reads = true) :
    c.reads = true := by
  unfold Client.answer at h
  split at h
  · rename_i a calls past target next hround
    have hcalls : (calls.any fun a => readsTarget a) = true :=
      (Round.reads_fresh ..).symm.trans h
    rw [Client.reads, hround, Option.any_some, Round.reads, List.tail_cons, hcalls, Bool.or_true]
  · exact h

theorem Client.reads_ret : c.ret.reads = true → c.reads = true := by
  unfold Client.ret
  split
  · exact fun h => absurd h (by simp [Client.reads])
  · exact id

/-- A callback that goes on after it has waited dereferences no more than before. -/
theorem Round.reads_of_past {r : Round} {past : Bool}
    (h : Round.reads { r with past := r.past || past } = true) : r.reads = true := by
  obtain ⟨calls, past₀, target, next⟩ := r
  cases past₀ <;> cases past
  case false.true =>
    unfold Round.reads Round.reading at h ⊢
    rcases calls with _ | ⟨a, calls⟩
    · exact h
    · simp only [List.head?_cons, Option.any_some, Bool.not_true, Bool.and_false, Bool.false_or,
        List.tail_cons, Bool.or_true] at h
      simp only [List.tail_cons, h, Bool.or_true]
  all_goals exact h

end

/-! ### The invariant -/

variable {w w' : World} {t : TaskId} {task : Task} {ts : List Target}

namespace Inv

theorem deref (h : Inv w) (hts : ∀ x ∈ ts, x ∈ w.loaded.targets) : Inv (w.deref ts) := by
  have hnone : ts.filter (· ∈ w.destroyed) = [] := by
    refine List.filter_eq_nil_iff.mpr fun x hx => ?_
    rw [decide_eq_true_eq]
    exact h.alive x (hts x hx)
  refine ⟨?_, h.alive, h.server, h.tasks⟩
  show w.faults ++ ts.filter (· ∈ w.destroyed) = []
  rw [hnone, List.append_nil]
  exact h.safe

theorem set (h : Inv w) (t : TaskId) {task : Task} (htask : task.Good w.loaded w.servers) :
    Inv (w.set t task) := by
  refine ⟨h.safe, h.alive, h.server, fun task' hmem => ?_⟩
  rcases List.mem_or_eq_of_mem_set hmem with hmem | rfl
  · exact h.tasks task' hmem
  · exact htask

theorem create (h : Inv w) (htask : task.Good w.loaded w.servers) : Inv (w.create task) := by
  refine ⟨h.safe, h.alive, h.server, fun task' hmem => ?_⟩
  rcases List.mem_append.mp hmem with hmem | hmem
  · exact h.tasks task' hmem
  · rw [List.mem_singleton.mp hmem]
    exact htask

/-- Where the tasks are and what they share is not part of it. -/
theorem congr (h : Inv w) (sched : Sched) (running reload : Bool) (handlers : ℕ → HandlerState) :
    Inv { w with sched := sched, running := running, reload := reload, handlers := handlers } :=
  ⟨h.safe, h.alive, h.server, h.tasks⟩

theorem exit (h : Inv w) : Inv (w.exit t) := by
  have hset : Inv (w.set t .exited) := h.set t trivial
  exact hset.congr _ _ _ _

theorem wait {ctl : Ctl} {socket : Option ℕ} {fd : ℤ} {rw : Rw} (h : Inv w)
    (hw : w.wait ctl t socket fd rw = some w') : Inv w' := by
  unfold World.wait at hw
  split at hw
  · exact absurd hw (by simp)
  · obtain rfl := Option.some.inj hw
    exact h.congr _ _ _ _

/-- The running task. -/
theorem current (h : Inv w) (hcurrent : w.current = some (t, task)) :
    task.Good w.loaded w.servers := by
  obtain ⟨t', -, htask⟩ := Option.bind_eq_some_iff.mp hcurrent
  obtain ⟨task', hget, heq⟩ := Option.map_eq_some_iff.mp htask
  obtain ⟨rfl, rfl⟩ := Prod.mk.inj heq
  exact h.tasks _ (List.mem_of_getElem? hget)

/-! ### The steps of the main task -/

theorem mem_targets {l : Loaded} {h : ℕ} (hmem : h ∈ l.handlers) : (.handler, h) ∈ l.targets :=
  List.mem_append_left _ (List.mem_append_left _ (List.mem_map_of_mem hmem))

theorem startHandler {x : ℕ} (h : Inv w) (hx : (.handler, x) ∈ w.loaded.targets) :
    Inv (w.startHandler x) ∧ (w.startHandler x).loaded = w.loaded := by
  have hderef : Inv (w.deref [(.handler, x)]) := h.deref (by simpa using hx)
  unfold World.startHandler
  split
  · exact ⟨hderef, rfl⟩
  · have hcreate : Inv ((w.deref [(.handler, x)]).create (.handler x .start)) := hderef.create hx
    exact ⟨hcreate.congr _ _ _ _, rfl⟩

theorem startHandlers {hs : List ℕ} (h : Inv w)
    (hhs : ∀ x ∈ hs, (.handler, x) ∈ w.loaded.targets) :
    Inv (hs.foldl World.startHandler w) := by
  induction hs generalizing w with
  | nil => exact h
  | cons x hs ih =>
    obtain ⟨hinv, hloaded⟩ := h.startHandler (hhs x (List.mem_cons_self ..))
    exact ih hinv fun y hy => hloaded ▸ hhs y (List.mem_cons_of_mem x hy)

theorem shutdownHandler {x : ℕ} (h : Inv w) (hx : (.handler, x) ∈ w.loaded.targets)
    (hw : w.shutdownHandler x = some w') : Inv w' ∧ w'.loaded = w.loaded := by
  have hderef : Inv (w.deref [(.handler, x)]) := h.deref (by simpa using hx)
  unfold World.shutdownHandler at hw
  split at hw
  · obtain ⟨t, -, rfl⟩ := Option.map_eq_some_iff.mp hw
    exact ⟨hderef.congr _ _ _ _, rfl⟩
  · obtain rfl := Option.some.inj hw
    exact ⟨hderef, rfl⟩

theorem shutdownHandlers {hs : List ℕ} (h : Inv w)
    (hhs : ∀ x ∈ hs, (.handler, x) ∈ w.loaded.targets)
    (hw : hs.foldlM World.shutdownHandler w = some w') : Inv w' := by
  induction hs generalizing w with
  | nil => exact Option.some.inj hw ▸ h
  | cons x hs ih =>
    rw [List.foldlM_cons] at hw
    obtain ⟨w₁, hw₁, hw⟩ := Option.bind_eq_some_iff.mp hw
    obtain ⟨hinv, hloaded⟩ := h.shutdownHandler (hhs x (List.mem_cons_self ..)) hw₁
    exact ih hinv (fun y hy => hloaded ▸ hhs y (List.mem_cons_of_mem x hy)) hw

theorem leave (h : Inv w) (hw : w.leave t = some w') : Inv w' := by
  unfold World.leave at hw
  split at hw
  · obtain ⟨w₁, hw₁, rfl⟩ := Option.map_eq_some_iff.mp hw
    have hrunning : Inv { w with running := true } := h.congr _ _ _ _
    have hinv : Inv w₁ := hrunning.shutdownHandlers (fun x hx => mem_targets hx) hw₁
    have hset : Inv (w₁.set t (.main .yielding)) := hinv.set t trivial
    exact hset.congr _ _ _ _
  · obtain rfl := Option.some.inj hw
    exact h.set t trivial

/-- A reload that finds no task that keeps a target: what is destroyed is kept by none,
and what is loaded has other addresses. -/
theorem load {cfg : Config} (h : Inv w) (hkeeps : ∀ task ∈ w.tasks, task.keeps = false)
    (hw : w.load t cfg = some w') : Inv w' := by
  unfold World.load at hw
  split at hw
  case isFalse => exact absurd hw (by simp)
  case isTrue hfresh =>
  obtain rfl := Option.some.inj hw
  have hgood : ∀ task ∈ w.tasks, task.Good cfg.loaded (w.servers ++ [cfg.server]) := by
    intro task hmem
    have hkept := hkeeps task hmem
    cases task with
    | handler => exact absurd hkept (by simp [Task.keeps])
    | connection c =>
      obtain ⟨srv, hsrv, hwithin⟩ := (h.tasks _ hmem).1
      obtain ⟨hlt, -⟩ := List.getElem?_eq_some_iff.mp hsrv
      refine ⟨⟨srv, ?_, hwithin⟩, fun hreads => ?_⟩
      · rw [List.getElem?_append_left hlt]
        exact hsrv
      · exact absurd (hkept.symm.trans hreads) (by simp)
    | _ => trivial
  refine ⟨(h.deref fun x hx => hx).safe, ?_, ?_, ?_⟩
  · intro x hx hmem
    rcases List.mem_append.mp hmem with hmem | hmem
    · exact (hfresh x hx).2 hmem
    · exact (hfresh x hx).1 hmem
  · exact ⟨cfg.server, List.getLast?_concat, cfg.resolved⟩
  · intro task hmem
    rcases List.mem_or_eq_of_mem_set hmem with hmem | rfl
    · exact hgood task hmem
    · trivial

theorem mainStep {pc : MainPc} {op : MainOp} (h : Inv w) (hok : Ok w (.main op))
    (hw : mainStep w t pc op = some w') : Inv w' := by
  unfold Reload.mainStep at hw
  split at hw
  · split at hw
    · obtain rfl := Option.some.inj hw
      exact (h.startHandlers fun x hx => mem_targets hx).set t trivial
    · exact absurd hw (by simp)
  · split at hw
    · have hset : Inv (w.set t (.main .accepting)) := h.set t trivial
      exact hset.wait hw
    · exact h.leave hw
  · obtain rfl := Option.some.inj hw
    -- the connection gets the server that is in force
    obtain ⟨srv, hlast, -⟩ := h.server
    rw [List.getLast?_eq_getElem?] at hlast
    have hclient : ∀ x, Task.Good w.loaded w.servers
        (.connection (.start (w.servers.length - 1) x)) := by
      intro x
      refine ⟨Client.bound_start hlast, fun hreads => ?_⟩
      exact absurd hreads (by simp [Client.reads, Client.start])
    exact (h.create (hclient _)).set t trivial
  · exact h.leave hw
  · obtain rfl := Option.some.inj hw
    have hset : Inv (w.set t (.main .delaying)) := h.set t trivial
    exact hset.congr _ _ _ _
  · exact h.load hok hw
  · exact absurd hw (by simp)

/-! ### The other steps -/

theorem handlerStep {x : ℕ} {pc : HandlerPc} {op : HandlerOp} (h : Inv w)
    (hx : (.handler, x) ∈ w.loaded.targets) (hw : handlerStep w t x pc op = some w') :
    Inv w' := by
  have hderef : Inv (w.deref [(.handler, x)]) := h.deref (by simpa using hx)
  have hset : ∀ pc, Inv (w.set t (.handler x pc)) := fun pc => h.set t hx
  have hboth : ∀ pc, Inv ((w.deref [(.handler, x)]).set t (.handler x pc)) :=
    fun pc => hderef.set t hx
  unfold Reload.handlerStep at hw
  split at hw
  · exact Option.some.inj hw ▸ (hboth .setup).congr _ _ _ _
  · exact Option.some.inj hw ▸ h.congr _ _ _ _
  · exact Option.some.inj hw ▸ hboth .head
  · exact Option.some.inj hw ▸ hderef.exit
  · split at hw
    · exact (hboth .recv).wait hw
    · exact Option.some.inj hw ▸ hderef.exit
  · exact Option.some.inj hw ▸ hset .head
  · exact Option.some.inj hw ▸ hboth _
  · exact hderef.wait hw
  · exact h.wait hw
  · exact Option.some.inj hw ▸ hset .head
  · exact absurd hw (by simp)

variable {bstringMatch : List Byte → List Byte → Bool}

theorem connectionStep {c : Client} {op : ConnectionOp} (h : Inv w) (hclient : w.client = some c)
    (hc : Task.Good w.loaded w.servers (.connection c)) (hok : Ok w (.connection op))
    (hw : connectionStep bstringMatch w t c op = some w') : Inv w' := by
  obtain ⟨hbound, hserver⟩ := hc
  have hset : ∀ c' : Client, c'.server = c.server → c'.Bound w.servers →
      (c'.reads = true → c.server + 1 = w.servers.length) → Inv (w.set t (.connection c')) :=
    fun c' heq hb hr => h.set t ⟨hb, fun hreads => heq ▸ hr hreads⟩
  unfold Reload.connectionStep at hw
  split at hw
  · split at hw
    · rename_i e _ he
      obtain rfl := Option.some.inj hw
      refine hset (c.feed e) rfl hbound fun hreads => ?_
      exact hok c hclient (Client.handsOn_of_reads_feed he hreads)
    · exact absurd hw (by simp)
  · obtain ⟨x, hx, rfl⟩ := Option.map_eq_some_iff.mp hw
    obtain ⟨srv, hlast, hloaded⟩ := h.server
    have hmem : x ∈ w.loaded.targets :=
      hbound.loaded hx (hserver (Client.reads_of_reading hx)) hlast hloaded
    exact h.deref (by simpa using hmem)
  · split at hw
    case h_2 => exact absurd hw (by simp)
    case h_1 a calls past target next hround =>
    split at hw
    case isFalse => exact absurd hw (by simp)
    case isTrue =>
    refine Inv.wait (hset _ ?_ ?_ fun hreads => hserver ?_) hw
    · rfl
    · exact hbound
    · rw [Client.reads, hround]
      exact Round.reads_of_past hreads
  · split at hw
    · obtain ⟨srv, hsrv, rfl⟩ := Option.map_eq_some_iff.mp hw
      refine hset _ ?_ (hbound.answer hsrv) fun hreads => ?_
      · unfold Client.answer
        split <;> rfl
      · exact hserver (Client.reads_of_reads_answer hreads)
    · exact absurd hw (by simp)
  · split at hw
    · obtain rfl := Option.some.inj hw
      refine hset _ ?_ ?_ fun hreads => hserver (Client.reads_ret hreads)
      · unfold Client.ret
        split <;> rfl
      · unfold Client.ret
        split <;> exact hbound
    · exact absurd hw (by simp)
  · split at hw
    · exact Option.some.inj hw ▸ h.exit
    · exact absurd hw (by simp)

/-- What one step keeps. -/
theorem step {op : Op} (h : Inv w) (hok : Ok w op) (hw : step bstringMatch w op = some w') :
    Inv w' := by
  unfold Reload.step at hw
  split at hw
  · exact Option.some.inj hw ▸ h.congr _ _ _ _
  · exact Option.some.inj hw ▸ h.congr _ _ _ _
  · obtain ⟨s, -, rfl⟩ := Option.map_eq_some_iff.mp hw
    exact h.congr _ _ _ _
  · exact Option.some.inj hw ▸ h.congr _ _ _ _
  · split at hw
    · obtain ⟨s, -, rfl⟩ := Option.map_eq_some_iff.mp hw
      exact h.congr _ _ _ _
    · exact absurd hw (by simp)
  · exact h.mainStep hok hw
  · rename_i hcurrent
    exact h.handlerStep (h.current hcurrent) hw
  · rename_i c hcurrent
    have hclient : w.client = some c := by
      unfold World.client
      rw [hcurrent]
    exact h.connectionStep hclient (h.current hcurrent) hok hw
  · exact absurd hw (by simp)

end Inv

/-! ### Two reloads -/

/-- A host with a directory for all paths, and a handler that nothing is routed to. -/
def oneHost (dir handler : ℕ) : Option Config := do
  let host ← (Routing.Host.create (bytes "one.org")).addBackend (bytes "/") ⟨1, .dir, dir⟩
  let srv ← (Server.create (bytes "one.org")).addHost (bytes "one.org") host
  Config.of ⟨[handler], [], [dir]⟩ srv

/-- A poller with room for four. -/
def fourHot : SuperPoll.Poller := (SuperPoll.start 4 4 9).sp

/-- `taskmain` looks for a connection, or returns from `Server_start`. -/
def listen : Op := .main (.loop 3 ⟨false, false⟩)

/-- Only `fdtask` is runnable.  It finds entry `i`, and the task of that runs. -/
def polled (i : ℕ) : List Op :=
  [.schedule, .fdpoll (some fun j => if j = i then 1 else 0) [], .fdyield, .schedule]

/-- `fdtask` is first in the queue, and lets the next one run. -/
def yielded : List Op := [.schedule, .fdyield, .schedule]

/-- The task of a handler waits for a message. -/
def receiving : List Op :=
  [.handler .enter, .handler (.setUp true), .handler (.recv 1 ⟨false, false⟩)]

/-- It was made ready by `tasknuke`, and ends. -/
def leaving : List Op :=
  [.schedule, .handler (.received false false), .handler (.recv 1 ⟨false, false⟩)]

/-- The rest of a reload, and the next `Server_start`. -/
def reloaded (cfg : Config) : List Op :=
  [.schedule, .main .delay, .tick 100, .schedule, .fdpoll none [], .fdyield, .schedule,
    .main (.load cfg), .main .start, listen]

/-- A callback returns, after it has read the request if it parses one. -/
def answered (request : Option Exchange) : Op :=
  .connection (.answer (.of defaultLimits (fun _ => false)
    ⟨request, none, false, goodEnv, true, fun _ => true, true⟩))

/-- A connection is accepted and waits for its first request. -/
def accepted (fd : ℤ) : List Op :=
  [.main (.accept (some freshConn)), listen] ++ yielded ++
    [.connection .feed, answered none, .connection .ret, .connection .feed,
      .connection (.wait false none fd .r ⟨false, false⟩)]

/-- The request comes, is routed, and is handed on. -/
def requested : List Op :=
  [answered (some Routing.getOne), .connection .ret, .connection .feed, answered none,
    .connection .ret, .connection .feed, answered none, .connection .ret, .connection .feed,
    .connection .read]

/-- A reload, and then a request. -/
def freshRequest (cfg : Config) : List Op :=
  [.schedule, .main .start, listen] ++ yielded ++ receiving ++ [.sighup] ++ polled 1 ++
    [.main (.accept none)] ++ yielded.take 2 ++ leaving ++ reloaded cfg ++ yielded ++ receiving ++
    polled 1 ++ accepted 5 ++ polled 3 ++ requested

/-- A connection waits while the next one is accepted and the reload follows; then its
request comes. -/
def lateRequest (cfg : Config) : List Op :=
  [.schedule, .main .start, listen] ++ yielded ++ receiving ++ polled 1 ++ accepted 5 ++
    [.sighup] ++ polled 2 ++ accepted 6 ++ leaving ++ reloaded cfg ++ yielded ++ receiving ++
    polled 1 ++ requested

/-- The task of a handler, whose socket is not bound yet, sleeps while the reload
follows. -/
def lateHandler (cfg : Config) : List Op :=
  [.schedule, .main .start, listen] ++ yielded ++ [.handler .enter, .handler .sleep, .sighup] ++
    polled 1 ++ [.main (.accept none)] ++ yielded.take 2 ++ reloaded cfg ++ yielded ++ receiving ++
    [.tick 1000, .schedule, .fdpoll none [], .fdyield, .schedule, .handler (.setUp true)]

/-! ### The result -/

theorem inv_start (cfg : Config) (poll : SuperPoll.Poller) : Inv (.start cfg poll) := by
  refine ⟨rfl, fun x _ hmem => absurd hmem (by simp [World.start]),
    ⟨cfg.server, rfl, cfg.resolved⟩, fun task hmem => ?_⟩
  rcases List.mem_pair.mp hmem with rfl | rfl <;> trivial

/-- **Reload safety**, in every run whose reloads find no task that keeps a target and
whose connections are handed on by the server in force: no task dereferences a target
that a reload has destroyed, whatever the interleaving. -/
theorem safe_of_ok (bstringMatch : List Byte → List Byte → Bool) (cfg : Config)
    (poll : SuperPoll.Poller) (run : List Op)
    (h : Runs.Along (step bstringMatch) Ok (.start cfg poll) run) :
    Runs.Always (step bstringMatch) Safe (.start cfg poll) run := by
  have hinv : Runs.Always (step bstringMatch) Inv (.start cfg poll) run :=
    Runs.always_of_along (fun _ _ _ hw hok hstep => hw.step hok hstep) (inv_start cfg poll) h
  exact hinv.mono fun w hw => hw.safe

/-- The handler's task is woken and ends, and the request is handed on by the new
server. -/
theorem safe_of_ok_freshRequest :
    ∃ cfg ∈ oneHost 7 17, ∃ cfg' ∈ oneHost 8 18,
      Runs.Always (step fun s p => s == p) Safe (.start cfg fourHot) (freshRequest cfg') := by
  have hok : ∃ cfg ∈ oneHost 7 17, ∃ cfg' ∈ oneHost 8 18,
      Runs.Along (step fun s p => s == p) Ok (.start cfg fourHot) (freshRequest cfg') := by
    decide +kernel
  obtain ⟨cfg, hcfg, cfg', hcfg', hok⟩ := hok
  exact ⟨cfg, hcfg, cfg', hcfg', safe_of_ok _ cfg fourHot _ hok⟩

/-- The request is routed with the map of the server that the connection was accepted
on, to the directory that was destroyed. -/
theorem not_safe_lateRequest :
    ∃ cfg ∈ oneHost 7 17, ∃ cfg' ∈ oneHost 8 18,
      ¬ Runs.Always (step fun s p => s == p) Safe (.start cfg fourHot) (lateRequest cfg') := by
  decide +kernel

-- a handler that sleeps is not found by `tasknuke`, and outlives its memory
example : ∃ cfg ∈ oneHost 7 17, ∃ cfg' ∈ oneHost 8 18,
    ∃ w ∈ Runs.exec (step fun s p => s == p) (.start cfg fourHot) (lateHandler cfg'),
      w.faults = [(.handler, 17)] := by
  decide +kernel

end Reload

end Mongrel2

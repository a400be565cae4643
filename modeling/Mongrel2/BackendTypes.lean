/-
Typed reads of a backend (`connection.c`, `request.h`).

The target of a `Backend` is a union, and five callbacks read it through a member of
their own.  Which of them is called is decided by the state machine, from an event
that was answered when the request was routed.

* `member` — the member through which a callback reads the target;
* `callbacks`, `step` — the task of `ProxyRouting` with the outcome of every other
  callback left open, and a record of these reads;
* `step_routed` — the task of `ProxyRouting` is one of these tasks;
* `Typed` — every read went through the member of the backend's type;
* `typed_always` — it holds in every state of every run.

Design notes: the invariant `Coupled` says for each state of the machine what the
pending event promises about `req->action`.  An answer that no callback gives may be
among the outcomes, as one that the state has no transition for reads nothing.
-/
import Mongrel2.ProxyRouting

namespace Mongrel2

open ByteStream HttpParser

namespace BackendTypes

open Routing (Routed Server)

/-! ### The task -/

/-- The member of `target` that a callback reads: the second argument of its
`Request_get_action`. -/
def member : Action → Option Mongrel2.Backend
  | .msgToHandler => some .handler
  | .httpToHandler => some .handler
  | .httpToDirectory => some .dir
  | .httpToProxy => some .proxy
  | .proxyReplyParse => some .proxy
  | _ => none

/-- A read of `req->action->target`: the member, and what `req->action` was. -/
structure Read where
  member : Mongrel2.Backend
  action : Option Routing.Backend
  deriving DecidableEq

/-- The request is routed, and the reads that were made. -/
structure Watched where
  routed : Routed
  reads : List Read

/-- How the callbacks of one round end. -/
structure Outcomes where
  /-- `Connection_read_header`, with what the client sends -/
  readHeader : Conn → ℤ × Conn
  /-- the answer of any other callback, and how it leaves the connection -/
  outcome : Action → Session → Option Event × Session

section

variable (bstringMatch : List Byte → List Byte → Bool) (srv : Server) (o : Outcomes)

/-- `connection_proxy_req_parse`. -/
def proxyReqParse (s : Routed) : Event × Routed :=
  let (rc, c) := o.readHeader s.session.conn
  let s := { s with session.conn := c }
  if rc ≤ 0 then (.remoteClose, s)
  else if c.req.parser.jsonSent || c.req.parser.socketStarted then
    (.remoteClose, { s with session.conn := c.reply 400 })
  else Routing.lightFind bstringMatch s

/-- What a callback answers and how it leaves the request. -/
def answer (a : Action) (s : Routed) : Option Event × Routed :=
  match a with
  | .routeRequest =>
    (some (Routing.routeRequest bstringMatch srv s).1, (Routing.routeRequest bstringMatch srv s).2)
  | .proxyReqParse =>
    (some (proxyReqParse bstringMatch o s).1, (proxyReqParse bstringMatch o s).2)
  | a => ((o.outcome a s.session).1, { s with session := (o.outcome a s.session).2 })

/-- `CONN_ACTIONS`.  A callback that reads the target does so first. -/
def callbacks : StateActions Watched := fun a _ d =>
  ((answer bstringMatch srv o a d.routed).1,
    { routed := (answer bstringMatch srv o a d.routed).2
      reads := d.reads ++ (member a).toList.map fun k => ⟨k, d.routed.action⟩ })

end

/-- A task between two calls of `State_exec`, as in `Mongrel2.Task`. -/
structure Task where
  cs : Cs
  event : Option Event
  data : Watched

/-- One round of `Connection_task`. -/
def step (bstringMatch : List Byte → List Byte → Bool) (srv : Server) (t : Task)
    (o : Outcomes) : Option Task :=
  match t.event with
  | none => none
  | some e =>
    let x := stateExec (callbacks bstringMatch srv o) t.cs e t.data
    some ⟨x.cs, if e = .close then none else some (x.next.getD .close), x.data⟩

/-- A task whose connection was accepted. -/
def Task.start (c : Conn) : Task :=
  ⟨.connection .start, some .«open», ⟨⟨⟨c, []⟩, none, none, none⟩, []⟩⟩

/-! ### The task of `ProxyRouting` -/

/-- The outcomes that the callbacks of `ProxyRouting` have. -/
def Outcomes.of (lim : Limits) (ping : List Byte → Bool) (o : Outside) : Outcomes where
  readHeader c := (c.hears o.request).readHeader lim
  outcome a s := Mongrel2.callbacks lim ping o a none s

/-- The task without the record of its reads. -/
def Task.routed (t : Task) : Routing.Task := ⟨t.cs, t.event, t.data.routed⟩

section

variable {bstringMatch : List Byte → List Byte → Bool} {srv : Server} {lim : Limits}
  {ping : List Byte → Bool} {o : Outside}

theorem simulates (a : Action) :
    Routing.Simulates (callbacks bstringMatch srv (.of lim ping o))
      (Routing.callbacks bstringMatch srv lim ping o) Watched.routed a := by
  intro e d
  cases a <;> rfl

/-- **A routed task is a task with outcomes**: what the callbacks of `ProxyRouting`
do is one of the things that a round may find. -/
theorem step_routed (t : Task) :
    (step bstringMatch srv t (.of lim ping o)).map Task.routed =
      Routing.step bstringMatch srv lim ping t.routed o := by
  obtain ⟨cs, event, d⟩ := t
  rcases event with _ | e
  · rfl
  have hexec : stateExec (Routing.callbacks bstringMatch srv lim ping o) cs e d.routed =
      Routing.Exec.map Watched.routed
        (stateExec (callbacks bstringMatch srv (.of lim ping o)) cs e d) :=
    Routing.stateExec_map (fun a _ => simulates a) (simulates _) (simulates _) d
  show some _ = some _
  simp only [Task.routed, hexec, Routing.Exec.map]

end

/-! ### What the pending event promises -/

/-- The request has an action, of the type `k`. -/
def HasType (s : Routed) (k : Mongrel2.Backend) : Prop := ∃ b, s.action = some b ∧ b.type = k

/-- Every read of the target found a backend of the type of its member. -/
def Typed (d : Watched) : Prop := ∀ r ∈ d.reads, ∃ b, r.action = some b ∧ b.type = r.member

/-- In a state from which the target is read, the event that leads to the read of a
member is pending only if the action has its type.  Inside the proxy machine it is a
proxy throughout, and it is replaced only by what is handed on as another event. -/
def Coupled (cs : Cs) (next : Option Event) (s : Routed) : Prop :=
  match cs with
  | .connection .msgRouting | .connection .httpRouting =>
    ∀ k : Mongrel2.Backend, next = some k.event → HasType s k
  | .proxy .proxying =>
    (∀ k : Mongrel2.Backend, next = some k.event → HasType s k) ∧
      (next = some .httpReq → HasType s .proxy)
  | .proxy .start | .proxy .sending | .proxy .receiving => HasType s .proxy
  | _ => True

/-- The callbacks that assign `req->action`. -/
def Action.Routes (a : Action) : Prop := a = .routeRequest ∨ a = .proxyReqParse

instance : DecidablePred Action.Routes := fun a => by
  unfold Action.Routes
  infer_instance

variable {bstringMatch : List Byte → List Byte → Bool} {srv : Server} {o : Outcomes}

theorem event_ne_close (k : Mongrel2.Backend) : k.event ≠ .close := by
  cases k <;> decide

theorem event_ne_httpReq (k : Mongrel2.Backend) : k.event ≠ .httpReq := by
  cases k <;> decide

theorem event_injective {k k' : Mongrel2.Backend} (h : k.event = k'.event) : k = k' := by
  cases k <;> cases k' <;> first | rfl | exact absurd h (by decide)

/-- What is coupled to an answer is coupled to the event that is fed for it. -/
theorem Coupled.event {cs : Cs} {next : Option Event} {s : Routed} (h : Coupled cs next s)
    (e : Event) : Coupled cs (if e = .close then none else some (next.getD .close)) s := by
  -- an event other than `CLOSE` is fed only if it was answered
  have hnext : ∀ e', e' ≠ .close →
      (if e = .close then none else some (next.getD .close)) = some e' → next = some e' := by
    intro e' hne he
    split at he
    · exact absurd he (by simp)
    rcases next with _ | e''
    · exact absurd (Option.some.inj he).symm hne
    · exact he
  have htypes : (∀ k : Mongrel2.Backend, next = some k.event → HasType s k) →
      ∀ k : Mongrel2.Backend,
        (if e = .close then none else some (next.getD .close)) = some k.event → HasType s k :=
    fun h k hk => h k (hnext _ (event_ne_close k) hk)
  rcases cs with c | p | _
  · cases c <;> first | exact htypes h | exact trivial
  · cases p
    case proxying => exact ⟨htypes h.1, fun he => h.2 (hnext _ (by decide) he)⟩
    all_goals exact h
  · exact trivial

/-! ### The callbacks -/

theorem routeRequest_hasType {s : Routed} {k : Mongrel2.Backend}
    (h : (Routing.routeRequest bstringMatch srv s).1 = k.event) :
    HasType (Routing.routeRequest bstringMatch srv s).2 k := by
  unfold Routing.routeRequest at h ⊢
  split at h
  · exact absurd h.symm (event_ne_close k)
  · exact ⟨_, rfl, event_injective h⟩

theorem lightFind_hasType {s : Routed} (hs : HasType s .proxy) :
    (∀ k : Mongrel2.Backend, (Routing.lightFind bstringMatch s).1 = k.event →
      HasType (Routing.lightFind bstringMatch s).2 k) ∧
    ((Routing.lightFind bstringMatch s).1 = .httpReq →
      HasType (Routing.lightFind bstringMatch s).2 .proxy) := by
  rw [Routing.lightFind_eq]
  rcases s.targetHost.bind fun h => h.matchBackend bstringMatch s.session.conn.req.path with
    _ | found
  · refine ⟨fun k hk => ?_, fun h => absurd h (by simp)⟩
    cases k <;> exact absurd hk (by simp [Mongrel2.Backend.event])
  · dsimp only
    by_cases haction : some found.data = s.action
    · -- the same backend is the proxy that the request was handed to
      rw [if_pos haction]
      refine ⟨fun k hk => absurd hk.symm (event_ne_httpReq k), fun _ => ?_⟩
      obtain ⟨b, hb, htype⟩ := hs
      exact ⟨b, haction.trans hb, htype⟩
    · rw [if_neg haction]
      exact ⟨fun k hk => ⟨_, rfl, event_injective hk⟩, fun h => absurd h (event_ne_httpReq _)⟩

theorem proxyReqParse_hasType {s : Routed} (hs : HasType s .proxy) :
    (∀ k : Mongrel2.Backend, (proxyReqParse bstringMatch o s).1 = k.event →
      HasType (proxyReqParse bstringMatch o s).2 k) ∧
    ((proxyReqParse bstringMatch o s).1 = .httpReq →
      HasType (proxyReqParse bstringMatch o s).2 .proxy) := by
  have hclose : ∀ s' : Routed, (∀ k : Mongrel2.Backend, Event.remoteClose = k.event → HasType s' k) ∧
      (Event.remoteClose = .httpReq → HasType s' .proxy) := by
    intro s'
    refine ⟨fun k hk => ?_, fun h => absurd h (by decide)⟩
    cases k <;> exact absurd hk (by decide)
  unfold proxyReqParse
  generalize o.readHeader s.session.conn = x
  obtain ⟨rc, c⟩ := x
  dsimp only
  split
  · exact hclose _
  split
  · exact hclose _
  · exact lightFind_hasType hs

theorem answer_action {a : Action} (ha : ¬ Action.Routes a) (s : Routed) :
    (answer bstringMatch srv o a s).2.action = s.action := by
  cases a
  case routeRequest => exact absurd (.inl rfl) ha
  case proxyReqParse => exact absurd (.inr rfl) ha
  all_goals rfl

/-- A call reads the target through no member but its own. -/
theorem call_typed {e : Option Event} {x : Exec Watched} {a : Action} (hx : Typed x.data)
    (ha : ∀ k, member a = some k → HasType x.data.routed k) :
    Typed (call (callbacks bstringMatch srv o) e x a).data := by
  intro r hr
  rcases List.mem_append.mp hr with hr | hr
  · exact hx r hr
  · obtain ⟨k, hk, rfl⟩ := List.mem_map.mp hr
    exact ha k (Option.mem_toList.mp hk)

/-- Callbacks that do not route leave the action and read it as they found it. -/
theorem callAll_typed {e : Option Event} {as : List Action} {x : Exec Watched}
    (hroutes : ∀ a ∈ as, ¬ Action.Routes a) (hx : Typed x.data)
    (has : ∀ a ∈ as, ∀ k, member a = some k → HasType x.data.routed k) :
    Typed (callAll (callbacks bstringMatch srv o) e as x).data ∧
      (callAll (callbacks bstringMatch srv o) e as x).data.routed.action =
        x.data.routed.action := by
  induction as generalizing x with
  | nil => exact ⟨hx, rfl⟩
  | cons a as ih =>
    rw [callAll_cons]
    have hsame : (call (callbacks bstringMatch srv o) e x a).data.routed.action =
        x.data.routed.action := answer_action (hroutes a (List.mem_cons_self ..)) _
    have htyped : Typed (call (callbacks bstringMatch srv o) e x a).data :=
      call_typed hx (has a (List.mem_cons_self ..))
    obtain ⟨hrest, haction⟩ := ih (fun b hb => hroutes b (List.mem_cons_of_mem a hb)) htyped
      fun b hb k hk => by
        unfold HasType
        rw [hsame]
        exact has b (List.mem_cons_of_mem a hb) k hk
    exact ⟨hrest, haction.trans hsame⟩

/-! ### The transitions -/

/-- Nothing is promised in this state. -/
def Free (cs : Cs) : Prop := ∀ next s, Coupled cs next s

theorem connectionMove_member {c : ConnectionCs} {e : Event} {a : Action}
    {k : Mongrel2.Backend} (ha : a ∈ (connectionMove c e).actions) (hk : member a = some k) :
    (c = .msgRouting ∨ c = .httpRouting) ∧ e = k.event := by
  revert ha
  fun_cases connectionMove c e <;> intro ha <;>
    simp only [Move.enter, Move.err, List.mem_singleton, List.not_mem_nil] at ha <;>
    subst ha <;> simp [member] at hk
  all_goals
    subst hk
    exact ⟨by simp, rfl⟩

theorem connectionMove_target (c : ConnectionCs) (e : Event) :
    (∃ c', connectionMove c e = .enter .routeRequest c') ∨
      ((∀ a ∈ (connectionMove c e).actions, ¬ Action.Routes a) ∧
        (Free (connectionMove c e).target ∨
          (c = .httpRouting ∧ e = .proxy ∧ (connectionMove c e).target = .proxy .start))) := by
  fun_cases connectionMove c e
  all_goals
    first
    | exact .inl ⟨_, rfl⟩
    | exact .inr ⟨by decide, .inl fun _ _ => trivial⟩
    | exact .inr ⟨by decide, .inr ⟨rfl, rfl, rfl⟩⟩

theorem proxyMove_member {p : ProxyCs} {e : Event} {m : Move} {a : Action}
    {k : Mongrel2.Backend} (hm : proxyMove p e = .take m) (ha : a ∈ m.actions)
    (hk : member a = some k) : p = .sending ∧ k = .proxy := by
  revert hm
  fun_cases proxyMove p e <;> intro hm <;> cases hm <;>
    simp only [Move.err, List.mem_singleton, List.not_mem_nil] at ha <;>
    subst ha <;> simp [member] at hk
  exact ⟨rfl, hk.symm⟩

theorem proxyMove_target {p : ProxyCs} {e : Event} {m : Move} (hm : proxyMove p e = .take m) :
    (p = .receiving ∧ m = ⟨[.proxyReqParse], .proxy .proxying⟩) ∨
      ((∀ a ∈ m.actions, ¬ Action.Routes a) ∧
        (Free m.target ∨
          (m.target = .proxy .sending ∨ m.target = .proxy .receiving) ∧
            (p = .start ∨ p = .sending ∨ p = .proxying ∧ e = .httpReq))) := by
  revert hm
  fun_cases proxyMove p e <;> intro hm <;> cases hm
  all_goals
    first
    | exact .inl ⟨rfl, rfl⟩
    | exact .inr ⟨by decide, .inl fun _ _ => trivial⟩
    | exact .inr ⟨by decide, .inr ⟨by decide, by simp⟩⟩

theorem Coupled.congr {cs : Cs} {next : Option Event} {s s' : Routed} (h : Coupled cs next s)
    (haction : s'.action = s.action) : Coupled cs next s' := by
  have hs : HasType s' = HasType s := by
    funext k
    simp only [HasType, haction]
  unfold Coupled at h ⊢
  rw [hs]
  exact h

/-- Inside the proxy machine the action is a proxy, except for what is about to leave. -/
theorem Coupled.isProxy {p : ProxyCs} {e : Event} {s : Routed}
    (h : Coupled (.proxy p) (some e) s)
    (hp : p = .start ∨ p = .sending ∨ p = .receiving ∨ p = .proxying ∧ e = .httpReq) :
    HasType s .proxy := by
  rcases hp with rfl | rfl | rfl | ⟨rfl, rfl⟩
  · exact h
  · exact h
  · exact h
  · exact h.2 rfl

/-! ### The invariant -/

/-- The reads so far were typed, and the next event is coupled to the action. -/
def Inv (x : Exec Watched) : Prop := Typed x.data ∧ Coupled x.cs x.next x.data.routed

theorem connection_inv {c : ConnectionCs} {e : Event} {x : Exec Watched} (hx : Typed x.data)
    (hc : Coupled (.connection c) (some e) x.data.routed) :
    Inv (take (callbacks bstringMatch srv o) e (connectionMove c e) x) := by
  have hreads : ∀ a ∈ (connectionMove c e).actions, ∀ k, member a = some k →
      HasType x.data.routed k := by
    intro a ha k hk
    obtain ⟨hstate, rfl⟩ := connectionMove_member ha hk
    rcases hstate with rfl | rfl
    · exact hc k rfl
    · exact hc k rfl
  rcases connectionMove_target c e with ⟨c', hmove⟩ | ⟨hroutes, htarget⟩
  · -- the request is routed: whatever state is entered, the answer is the type
    rw [hmove]
    have htyped : Typed (call (callbacks bstringMatch srv o) (some e) x .routeRequest).data :=
      call_typed hx (by simp [member])
    refine ⟨htyped, ?_⟩
    have htypes : ∀ k : Mongrel2.Backend,
        some (Routing.routeRequest bstringMatch srv x.data.routed).1 = some k.event →
          HasType (Routing.routeRequest bstringMatch srv x.data.routed).2 k :=
      fun k hk => routeRequest_hasType (Option.some.inj hk)
    cases c' <;> first | exact htypes | exact trivial
  · obtain ⟨htyped, haction⟩ :=
      @callAll_typed bstringMatch srv o (some e) (connectionMove c e).actions x hroutes hx hreads
    refine ⟨htyped, ?_⟩
    rcases htarget with hfree | ⟨rfl, rfl, htarget⟩
    · exact hfree _ _
    · -- the proxy machine is entered with the action of a `PROXY` event
      have hproxy : Coupled (.proxy .start) none x.data.routed := hc .proxy rfl
      show Coupled (connectionMove .httpRouting .proxy).target _ _
      rw [htarget]
      exact hproxy.congr haction

theorem proxy_inv {p : ProxyCs} {e : Event} {m : Move} {d : Watched}
    (hm : proxyMove p e = .take m) (hd : Typed d) (hc : Coupled (.proxy p) (some e) d.routed) :
    Inv (take (callbacks bstringMatch srv o) e m ⟨.proxy p, none, d⟩) := by
  have hreads : ∀ a ∈ m.actions, ∀ k, member a = some k → HasType d.routed k := by
    intro a ha k hk
    obtain ⟨rfl, rfl⟩ := proxyMove_member hm ha hk
    exact hc
  rcases proxyMove_target hm with ⟨rfl, rfl⟩ | ⟨hroutes, htarget⟩
  · obtain ⟨htypes, hsame⟩ := @proxyReqParse_hasType bstringMatch o d.routed hc
    have htyped : Typed (call (callbacks bstringMatch srv o) (some e)
        ⟨.proxy .receiving, none, d⟩ .proxyReqParse).data :=
      call_typed hd (by simp [member])
    exact ⟨htyped, fun k hk => htypes k (Option.some.inj hk),
      fun hk => hsame (Option.some.inj hk)⟩
  · obtain ⟨htyped, haction⟩ :=
      @callAll_typed bstringMatch srv o (some e) m.actions ⟨.proxy p, none, d⟩ hroutes hd hreads
    refine ⟨htyped, ?_⟩
    rcases htarget with hfree | ⟨htarget, hp⟩
    · exact hfree _ _
    · obtain ⟨b, hb, htype⟩ : HasType d.routed .proxy := hc.isProxy (by tauto)
      have hproxy : HasType
          (callAll (callbacks bstringMatch srv o) (some e) m.actions
            ⟨.proxy p, none, d⟩).data.routed .proxy :=
        ⟨b, haction.trans hb, htype⟩
      show Coupled m.target _ _
      rcases htarget with htarget | htarget <;> rw [htarget] <;> exact hproxy

/-- The callbacks at the end of input neither route nor read. -/
theorem atEof_inv {e : Event} {x : Exec Watched} (h : Inv x) :
    Typed (stateExec.atEof (callbacks bstringMatch srv o) e x).data ∧
      Coupled (stateExec.atEof (callbacks bstringMatch srv o) e x).cs
        (if e = .close then none
          else some ((stateExec.atEof (callbacks bstringMatch srv o) e x).next.getD .close))
        (stateExec.atEof (callbacks bstringMatch srv o) e x).data.routed := by
  have hevent := h.2.event e
  unfold stateExec.atEof
  by_cases he : e = .close
  · rw [if_pos he] at hevent
    rw [if_pos he, if_pos he]
    have heof : ∀ a ∈ eofActions x.cs, ¬ Action.Routes a ∧ member a = none := by
      rcases eofActions_cases x.cs with h | h | h <;> rw [h] <;> decide
    obtain ⟨htyped, haction⟩ := @callAll_typed bstringMatch srv o none (eofActions x.cs) x
      (fun a ha => (heof a ha).1) h.1 fun a ha k hk => absurd hk (by simp [(heof a ha).2])
    rw [Routing.callAll_cs]
    exact ⟨htyped, hevent.congr haction⟩
  · rw [if_neg he] at hevent
    rw [if_neg he, if_neg he]
    exact ⟨h.1, hevent⟩

/-- What one round keeps. -/
theorem step_inv {t t' : Task} (hreads : Typed t.data)
    (hc : Coupled t.cs t.event t.data.routed) (hstep : step bstringMatch srv t o = some t') :
    Typed t'.data ∧ Coupled t'.cs t'.event t'.data.routed := by
  obtain ⟨cs, event, d⟩ := t
  rcases event with _ | e
  · exact absurd hstep (by simp [step])
  obtain rfl := Option.some.inj hstep
  rcases cs with c | p | _
  · exact atEof_inv (connection_inv hreads hc)
  · dsimp only [stateExec]
    split
    · rename_i m hm
      exact atEof_inv (proxy_inv hm hreads hc)
    · rename_i as c hm
      rcases proxyMove_hold_cases hm with ⟨rfl, rfl, rfl⟩ | ⟨rfl, rfl, rfl⟩
      · -- the held event is read again with the action that it was answered with
        exact atEof_inv (connection_inv (call_typed hreads (by simp [member])) hc.1)
      · exact atEof_inv (connection_inv hreads trivial)
  · exact ⟨hreads, trivial⟩

variable (bstringMatch srv)

/-- **Typed reads**: on every run of a connection, for every configuration, every
sequence of requests and all outcomes of the callbacks, the target of the action is
read only where there is one and through the member of its type. -/
theorem typed_always (c : Conn) (run : List Outcomes) :
    Runs.Always (step bstringMatch srv) (fun t => Typed t.data) (.start c) run := by
  have hinv : Runs.Always (step bstringMatch srv)
      (fun t => Typed t.data ∧ Coupled t.cs t.event t.data.routed) (.start c) run := by
    refine Runs.always_of_step (fun t o t' h hstep => step_inv h.1 h.2 hstep) ?_ run
    exact ⟨fun r hr => absurd hr (by simp [Task.start]), trivial⟩
  exact hinv.mono fun t h => h.1

-- a proxied request is read when the proxy is dialed and again for the reply
example : ∃ srv ∈ Routing.twoHosts, ∃ t ∈ Runs.exec (step (fun s p => s == p) srv)
    (.start freshConn) ((Routing.secondHost Routing.getOne).map (.of defaultLimits fun _ => false)),
    t.data.reads.map (·.member) = [.proxy, .proxy] := by
  decide

end BackendTypes

end Mongrel2

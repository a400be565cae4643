/-
The connection state machine (`state_machine.rl`, `state.rl`, `state.c`).

Two machines share one state variable: `Connection`, and `Proxy`, which is
entered by `fgoto` from `HTTPRouting` and left by `fhold; fgoto` back into
`Connection`.  One call of `State_exec` feeds one event:

* `connectionMove`, `proxyMove` — the transitions, with the actions embedded in
  them and the state they enter;
* `stateExec` — one call of `State_exec` for an arbitrary table of callbacks,
  the re-reading of a held event and the end-of-input actions included.

Design notes: the callbacks act on an abstract `data : σ`, as the C ones act on
a `void *`, so that a scripted environment and a model of the connection are
both instances.  The int a callback returns is an `Option Event`, with `none`
for 0.  States 10 and 14 of the generated machine follow an action that jumps
away and are never entered; they are left out.
-/
import Mathlib.Tactic.Common

namespace Mongrel2

/-- `StateEvent` of `events.h`. -/
inductive Event
  | finished | accept | close | connect | directory | failed | handler | httpReq | msgReq
  | «open» | proxy | remoteClose | reqRecv | reqSent | respSent | socketReq | timeout
  deriving DecidableEq, Repr

/-- The members of `StateActions`. -/
inductive Action
  | «open» | error | finish | close | parse | registerRequest | identifyRequest
  | routeRequest | sendSocketResponse | msgToHandler | httpToHandler | httpToProxy
  | httpToDirectory | proxyDeliver | proxyFailed | proxyReplyParse | proxyReqParse
  | proxyClose
  deriving DecidableEq, Repr

/-- States of the `Connection` machine.  `identified` is the unnamed state
between the two events of an `Idle` request. -/
inductive ConnectionCs
  | start | accepting | identifying | registered | idle | identified | msgRouting
  | httpRouting | queueing | responding | final
  deriving DecidableEq, Repr

/-- States of the `Proxy` machine. -/
inductive ProxyCs
  | start | proxying | sending | receiving | closing
  deriving DecidableEq, Repr

/-- The value of `state->cs`. -/
inductive Cs
  | connection (c : ConnectionCs)
  | proxy (p : ProxyCs)
  | error
  deriving DecidableEq, Repr

/-- The actions of a transition and the state it enters. -/
structure Move where
  actions : List Action
  target : Cs

/-- A transition of the `Proxy` machine consumes its event or, after `fhold`,
leaves it to be read again by the `Connection` machine. -/
inductive ProxyMove
  | take (m : Move)
  | hold (actions : List Action) (target : ConnectionCs)

namespace Move

/-- A transition within `Connection`. -/
def enter (a : Action) (c : ConnectionCs) : Move := ⟨[a], .connection c⟩

/-- The `<err(error)` transition. -/
def err : Move := ⟨[.error], .error⟩

end Move

open Move in
/-- Transitions of the `Connection` machine.  `<err` does not cover the start
state, which fails without an action. -/
def connectionMove : ConnectionCs → Event → Move
  | .start, .«open» => enter .«open» .accepting
  | .start, _ => ⟨[], .error⟩
  | .accepting, .accept => enter .parse .identifying
  | .identifying, .reqRecv => enter .registerRequest .registered
  | .identifying, .close => enter .close .final
  | .registered, .httpReq => enter .routeRequest .httpRouting
  | .registered, .msgReq => enter .routeRequest .msgRouting
  | .registered, .socketReq => enter .sendSocketResponse .responding
  | .registered, .close => enter .close .final
  | .idle, .reqRecv => enter .identifyRequest .identified
  | .idle, .close => enter .close .final
  | .identified, .httpReq => enter .routeRequest .httpRouting
  | .identified, .msgReq => enter .routeRequest .msgRouting
  | .identified, .socketReq => enter .sendSocketResponse .responding
  | .msgRouting, .handler => enter .msgToHandler .queueing
  | .httpRouting, .handler => enter .httpToHandler .queueing
  | .httpRouting, .proxy => ⟨[.httpToProxy], .proxy .start⟩
  | .httpRouting, .directory => enter .httpToDirectory .responding
  | .httpRouting, .close => enter .close .final
  | .queueing, .reqSent => enter .parse .idle
  | .responding, .respSent => enter .parse .idle
  | .responding, .close => enter .close .final
  -- `Connection` is starred, so its end state takes the next `OPEN`
  | .final, .«open» => enter .«open» .accepting
  | _, _ => err

/-- Transitions of the `Proxy` machine. -/
def proxyMove : ProxyCs → Event → ProxyMove
  | .start, .connect => .take ⟨[.proxyDeliver], .proxy .sending⟩
  | .start, .failed => .take ⟨[.proxyFailed], .proxy .closing⟩
  | .start, _ => .take ⟨[], .error⟩
  | .proxying, .httpReq => .take ⟨[.proxyDeliver], .proxy .sending⟩
  | .proxying, .proxy => .hold [.proxyClose] .httpRouting
  | .proxying, .handler => .hold [.proxyClose] .httpRouting
  | .proxying, .directory => .hold [.proxyClose] .httpRouting
  | .proxying, .remoteClose => .take ⟨[.proxyClose], .proxy .closing⟩
  | .sending, .reqSent => .take ⟨[.proxyReplyParse], .proxy .receiving⟩
  | .sending, .remoteClose => .take ⟨[.proxyClose], .proxy .closing⟩
  | .receiving, .reqRecv => .take ⟨[.proxyReqParse], .proxy .proxying⟩
  | .receiving, .remoteClose => .take ⟨[.proxyClose], .proxy .closing⟩
  | .closing, .close => .hold [] .idle
  | _, _ => .take .err

/-- End-of-input actions: `finish` in the final state, `error` in every other
state but the two start states. -/
def eofActions : Cs → List Action
  | .connection .final => [.finish]
  | .connection .start => []
  | .proxy .start => []
  | .error => []
  | _ => [.error]

variable {σ : Type*}

/-- A table of callbacks: the event passed (0 at the end of input), the data,
and the answer. -/
abbrev StateActions (σ : Type*) := Action → Option Event → σ → Option Event × σ

/-- The local variables of `State_exec` that outlive one action. -/
structure Exec (σ : Type*) where
  cs : Cs
  next : Option Event
  data : σ

/-- The `CALL` macro. -/
def call (acts : StateActions σ) (e : Option Event) (x : Exec σ) (a : Action) : Exec σ :=
  { x with next := (acts a e x.data).1, data := (acts a e x.data).2 }

/-- The actions of a transition, in order. -/
def callAll (acts : StateActions σ) (e : Option Event) (as : List Action) (x : Exec σ) :
    Exec σ :=
  as.foldl (call acts e) x

/-- Take a transition that consumes the event `e`. -/
def take (acts : StateActions σ) (e : Event) (m : Move) (x : Exec σ) : Exec σ :=
  { callAll acts (some e) m.actions x with cs := m.target }

/-- `State_exec`.  The generated switch has no case for the error state and runs
on into the label that stores state 1. -/
def stateExec (acts : StateActions σ) (cs : Cs) (e : Event) (data : σ) : Exec σ :=
  match cs with
  | .error => ⟨.connection .accepting, none, data⟩
  | .connection c => atEof (take acts e (connectionMove c e) ⟨cs, none, data⟩)
  | .proxy p =>
    match proxyMove p e with
    | .take m => atEof (take acts e m ⟨cs, none, data⟩)
    | .hold as c =>
      atEof (take acts e (connectionMove c e) (callAll acts (some e) as ⟨cs, none, data⟩))
where
  /-- `eof` is set for `CLOSE` only, and then it equals `pe`. -/
  atEof (x : Exec σ) : Exec σ :=
    if e = .close then callAll acts none (eofActions x.cs) x else x

@[simp] theorem callAll_nil (acts : StateActions σ) (e : Option Event) (x : Exec σ) :
    callAll acts e [] x = x := rfl

@[simp] theorem callAll_cons (acts : StateActions σ) (e : Option Event) (a : Action)
    (as : List Action) (x : Exec σ) :
    callAll acts e (a :: as) x = callAll acts e as (call acts e x a) := rfl

/-! ### The transitions -/

/-- A transition of `Connection` makes at most one call. -/
theorem connectionMove_actions (c : ConnectionCs) (e : Event) :
    (connectionMove c e).actions = [] ∨ ∃ a, (connectionMove c e).actions = [a] := by
  fun_cases connectionMove c e
  all_goals
    first
    | exact .inr ⟨_, rfl⟩
    | exact .inl rfl

/-- The proxy machine is left from `Proxying`, with a call of `proxy_close`, or for the
`CLOSE` of `Idle`. -/
theorem proxyMove_hold_cases {p : ProxyCs} {e : Event} {as : List Action} {c : ConnectionCs}
    (hm : proxyMove p e = .hold as c) :
    (p = .proxying ∧ as = [.proxyClose] ∧ c = .httpRouting) ∨
      (as = [] ∧ c = .idle ∧ e = .close) := by
  revert hm
  fun_cases proxyMove p e <;> intro hm <;> cases hm
  all_goals
    first
    | exact .inl ⟨rfl, rfl, rfl⟩
    | exact .inr ⟨rfl, rfl, rfl⟩

theorem eofActions_cases (cs : Cs) :
    eofActions cs = [] ∨ eofActions cs = [.error] ∨ eofActions cs = [.finish] := by
  fun_cases eofActions cs
  · exact .inr (.inr rfl)
  · exact .inl rfl
  · exact .inl rfl
  · exact .inl rfl
  · exact .inr (.inl rfl)

end Mongrel2

/-
The life of a connection task (`connection.c`).

`Connection_task` feeds `State_exec` with the answer of the previous call until
that answer is `CLOSE`, then feeds `CLOSE` once more; the connection is freed by
the `finish` action, which only the end of input in the final state runs.

* `answers` — what each callback of `CONN_ACTIONS` can return;
* `connectionTask` — the loop, for any callbacks;
* `Call.Expected` — the answer of a call is one that the state the machine has
  entered has a transition for;
* `destroyedOnce_iff` — the task frees its connection exactly once, as the last
  thing it does, if and only if every call of the run was answered so.

The proof follows the loop: `exec_enabled` and `exec_close` say what one call of
`State_exec` does on an event the state has a transition for, and
`taskLoop_not_enabled` that no other event ever leads back to `finish`.
-/
import Mongrel2.StateMachine

namespace Mongrel2

/-- The events each callback of `CONN_ACTIONS` can return; `none` is the 0 of
`connection_close`. -/
def answers : Action → List (Option Event)
  | .«open» => [some .accept]
  | .error => [some .close]
  | .finish => [some .close]
  | .close => [none]
  | .parse => [some .reqRecv, some .close]
  | .registerRequest => [some .socketReq, some .msgReq, some .httpReq, some .close]
  | .identifyRequest => [some .socketReq, some .msgReq, some .httpReq, some .close]
  | .routeRequest => [some .handler, some .directory, some .proxy, some .close]
  | .sendSocketResponse => [some .respSent, some .close]
  | .msgToHandler => [some .reqSent, some .close]
  | .httpToHandler => [some .reqSent, some .close]
  | .httpToProxy => [some .connect, some .failed]
  | .httpToDirectory => [some .respSent, some .close]
  | .proxyDeliver => [some .reqSent, some .remoteClose]
  | .proxyFailed => [some .close]
  | .proxyReplyParse => [some .reqRecv, some .failed]
  | .proxyReqParse =>
    [some .proxy, some .httpReq, some .handler, some .directory, some .close,
      some .remoteClose]
  | .proxyClose => [some .close]

variable {σ : Type*}

/-- Callbacks that answer as those of `CONN_ACTIONS` can. -/
def ConnActions (acts : StateActions σ) : Prop :=
  ∀ a e d, (acts a e d).1 ∈ answers a

/-- One call of a callback. -/
structure Call where
  action : Action
  event : Option Event
  answer : Option Event
  deriving DecidableEq, Repr

/-- The callbacks `acts`, keeping a record of the calls made. -/
def logged (acts : StateActions σ) : StateActions (σ × List Call) := fun a e d =>
  ((acts a e d.1).1, (acts a e d.1).2, d.2 ++ [⟨a, e, (acts a e d.1).1⟩])

/-- The loop of `Connection_task`, stopped after `n` rounds; `none` while the
task is still running. -/
def taskLoop (acts : StateActions σ) : ℕ → Cs → Event → σ → Option (Exec σ)
  | 0, cs, e, d => if e = .close then some (stateExec acts cs .close d) else none
  | n + 1, cs, e, d =>
    if e = .close then some (stateExec acts cs .close d)
    else
      match (stateExec acts cs e d).next with
      -- not an event: the error label, which feeds `CLOSE` as well
      | none => some (stateExec acts (stateExec acts cs e d).cs .close
          (stateExec acts cs e d).data)
      | some e' => taskLoop acts n (stateExec acts cs e d).cs e' (stateExec acts cs e d).data

/-- `Connection_task`. -/
def connectionTask (acts : StateActions σ) (n : ℕ) (d : σ) : Option (Exec σ) :=
  taskLoop acts n (.connection .start) .«open» d

/-- `finish` was called once, and it was the last call. -/
def DestroyedOnce (calls : List Call) : Prop :=
  ∃ pre c, calls = pre ++ [c] ∧ c.action = .finish ∧ ∀ b ∈ pre, b.action ≠ .finish

/-- The answer is one that the state entered by the transition of the call has
a transition for. -/
def Call.Expected (c : Call) : Prop :=
  match c.action with
  | .routeRequest => c.event = some .msgReq → c.answer = some .handler
  | .msgToHandler | .httpToHandler => c.answer = some .reqSent
  | .identifyRequest | .proxyReqParse => c.answer ≠ some .close
  | .proxyReplyParse => c.answer = some .reqRecv
  | _ => True

instance : DecidablePred Call.Expected := fun c => by
  unfold Call.Expected
  split <;> infer_instance

/-! ### One call of `State_exec` -/

/-- The state has a transition for the event. -/
def enabled : Cs → Event → Bool
  | .connection c, e => (connectionMove c e).target != .error
  | .proxy p, e =>
    match proxyMove p e with
    | .take m => m.target != .error
    | .hold _ _ => true
  | .error, _ => false

variable {acts : StateActions σ}

/-- What a transition on the event `e` has to satisfy: one action, not `finish`,
whose every answer is an event, with a transition from the state entered exactly
if it was expected. -/
def Move.Sound (e : Event) (m : Move) : Prop :=
  ∃ a, m.actions = [a] ∧ a ≠ .finish ∧
    ∀ r ∈ answers a, ∃ e', r = some e' ∧
      (enabled m.target e' ↔ (Call.mk a (some e) r).Expected)

theorem Move.sound_of_action {e : Event} {m : Move} (a : Action) (hm : m.actions = [a])
    (ha : a ≠ .finish)
    (hr : ∀ r ∈ answers a, r.any fun e' =>
      enabled m.target e' == decide (Call.mk a (some e) r).Expected) : m.Sound e := by
  refine ⟨a, hm, ha, fun r hmem => ?_⟩
  have h := hr r hmem
  cases r with
  | none => cases h
  | some e' =>
    have h : enabled m.target e' = decide (Call.mk a (some e) (some e')).Expected := by
      simpa using h
    exact ⟨e', rfl, by rw [h, decide_eq_true_iff]⟩

theorem connectionMove_sound {c : ConnectionCs} {e : Event}
    (he : enabled (.connection c) e) (hne : e ≠ .close) :
    (connectionMove c e).Sound e := by
  cases c <;> cases e <;>
    first
    | exact absurd he (by decide)
    | exact absurd rfl hne
    | exact Move.sound_of_action _ rfl (by decide) (by decide)

theorem proxyMove_take_sound {p : ProxyCs} {e : Event} {m : Move}
    (hm : proxyMove p e = .take m) (he : enabled (.proxy p) e) : m.Sound e := by
  cases p <;> cases e <;>
    first
    | exact absurd he (by decide)
    | cases hm; exact Move.sound_of_action _ rfl (by decide) (by decide)
    | cases hm

/-- An event that leaves the proxy closes it and is routed again; only `CLOSE`
leaves it for `Idle`. -/
theorem proxyMove_hold {p : ProxyCs} {e : Event} {as : List Action} {c : ConnectionCs}
    (hm : proxyMove p e = .hold as c) :
    (as = [.proxyClose] ∧ (connectionMove c e).Sound e) ∨
      (as = [] ∧ e = .close ∧ c = .idle) := by
  cases p <;> cases e <;>
    first
    | cases hm; exact .inl ⟨rfl, connectionMove_sound (by decide) (by decide)⟩
    | cases hm; exact .inr ⟨rfl, rfl, rfl⟩
    | cases hm

theorem take_sound (hacts : ConnActions acts) {e : Event} {m : Move} (hm : m.Sound e)
    (x : Exec (σ × List Call)) :
    ∃ c e', (take (logged acts) e m x).data.2 = x.data.2 ++ [c] ∧
      (take (logged acts) e m x).next = some e' ∧ c.action ≠ .finish ∧
      (enabled m.target e' ↔ c.Expected) := by
  obtain ⟨a, has, hne, hr⟩ := hm
  obtain ⟨e', hnext, hen⟩ := hr _ (hacts a (some e) x.data.1)
  refine ⟨⟨a, some e, (acts a (some e) x.data.1).1⟩, e', ?_, ?_, hne, hen⟩
  · simp [take, has, call, logged]
  · simpa [take, has, call, logged] using hnext

/-- On an event it has a transition for, other than `CLOSE`, the machine calls
no `finish`, answers with an event, and has a transition for that event exactly
if the calls made were answered as expected. -/
theorem exec_enabled (hacts : ConnActions acts) {cs : Cs} {e : Event}
    (he : enabled cs e) (hne : e ≠ .close) (d : σ × List Call) :
    ∃ new e', (stateExec (logged acts) cs e d).data.2 = d.2 ++ new ∧
      (stateExec (logged acts) cs e d).next = some e' ∧
      (∀ c ∈ new, c.action ≠ .finish) ∧
      (enabled (stateExec (logged acts) cs e d).cs e' ↔ ∀ c ∈ new, c.Expected) := by
  cases cs with
  | error => cases he
  | connection c =>
    obtain ⟨b, e', hd, hnext, hb, hen⟩ :=
      take_sound hacts (connectionMove_sound he hne) ⟨.connection c, none, d⟩
    refine ⟨[b], e', ?_, ?_, by simpa using hb, ?_⟩ <;>
      simp only [stateExec, stateExec.atEof, if_neg hne]
    · exact hd
    · exact hnext
    · simpa [take] using hen
  | proxy p =>
    cases hm : proxyMove p e with
    | take m =>
      obtain ⟨b, e', hd, hnext, hb, hen⟩ :=
        take_sound hacts (proxyMove_take_sound hm he) ⟨.proxy p, none, d⟩
      refine ⟨[b], e', ?_, ?_, by simpa using hb, ?_⟩ <;>
        simp only [stateExec, hm, stateExec.atEof, if_neg hne]
      · exact hd
      · exact hnext
      · simpa [take] using hen
    | hold as c =>
      obtain ⟨rfl, hs⟩ | ⟨-, rfl, -⟩ := proxyMove_hold hm
      · obtain ⟨b, e', hd, hnext, hb, hen⟩ :=
          take_sound hacts hs (call (logged acts) (some e) ⟨.proxy p, none, d⟩ .proxyClose)
        refine ⟨[⟨.proxyClose, some e, (acts .proxyClose (some e) d.1).1⟩, b], e', ?_, ?_,
          by simpa using hb, ?_⟩ <;>
          simp only [stateExec, hm, stateExec.atEof, if_neg hne, callAll_cons, callAll_nil]
        · rw [hd]
          simp [call, logged]
        · exact hnext
        · simpa [take, Call.Expected] using hen
      · exact absurd rfl hne

/-- `CLOSE`, where there is a transition for it, closes and then finishes. -/
theorem exec_close {cs : Cs} (he : enabled cs .close) (d : σ × List Call) :
    ∃ b c, (stateExec (logged acts) cs .close d).data.2 = d.2 ++ [b, c] ∧
      b.action = .close ∧ c.action = .finish := by
  have key : ∀ k, connectionMove k .close = .enter .close .final →
      ∀ x : Exec (σ × List Call), ∃ b c,
        (stateExec.atEof (logged acts) .close
          (take (logged acts) .close (connectionMove k .close) x)).data.2
          = x.data.2 ++ [b, c] ∧ b.action = .close ∧ c.action = .finish := by
    intro k hk x
    rw [hk]
    exact ⟨_, _, List.append_assoc x.data.2 [_] [_], rfl, rfl⟩
  cases cs with
  | error => cases he
  | connection k =>
    exact key k (by cases k <;> first | rfl | exact absurd he (by decide)) _
  | proxy p =>
    cases p <;> first | exact key .idle rfl _ | exact absurd he (by decide)

theorem connectionMove_not_enabled {c : ConnectionCs} {e : Event}
    (he : ¬ enabled (.connection c) e) :
    connectionMove c e = .err ∨ connectionMove c e = ⟨[], .error⟩ := by
  cases c <;> cases e <;>
    first
    | exact absurd (by decide) he
    | exact .inl rfl
    | exact .inr rfl

theorem proxyMove_not_enabled {p : ProxyCs} {e : Event} (he : ¬ enabled (.proxy p) e) :
    proxyMove p e = .take .err ∨ proxyMove p e = .take ⟨[], .error⟩ := by
  cases p <;> cases e <;>
    first
    | exact absurd (by decide) he
    | exact .inl rfl
    | exact .inr rfl

/-- On any other event the machine calls at most `error`, and it is left in a
state from which `CLOSE` does not finish. -/
theorem exec_not_enabled (hacts : ConnActions acts) {cs : Cs} {e : Event}
    (he : ¬ enabled cs e) (d : σ × List Call) :
    ∃ new, (stateExec (logged acts) cs e d).data.2 = d.2 ++ new ∧
      (∀ c ∈ new, c.action ≠ .finish) ∧
      ((stateExec (logged acts) cs e d).next = none ∨
        (stateExec (logged acts) cs e d).next = some .close) ∧
      ¬ enabled (stateExec (logged acts) cs e d).cs .close := by
  have key : ∀ m : Move, m = .err ∨ m = ⟨[], .error⟩ → ∀ cs,
      ∃ new, (stateExec.atEof (logged acts) e (take (logged acts) e m ⟨cs, none, d⟩)).data.2
          = d.2 ++ new ∧
        (∀ c ∈ new, c.action ≠ .finish) ∧
        ((stateExec.atEof (logged acts) e (take (logged acts) e m ⟨cs, none, d⟩)).next = none ∨
          (stateExec.atEof (logged acts) e (take (logged acts) e m ⟨cs, none, d⟩)).next
            = some .close) ∧
        ¬ enabled (stateExec.atEof (logged acts) e
          (take (logged acts) e m ⟨cs, none, d⟩)).cs .close := by
    intro m hm cs
    have heof : ∀ x : Exec (σ × List Call), x.cs = .error →
        stateExec.atEof (logged acts) e x = x := by
      intro x hx
      rw [stateExec.atEof, hx]
      split <;> rfl
    rcases hm with rfl | rfl
    · rw [heof _ rfl]
      have hans := hacts .error (some e) d.1
      refine ⟨[⟨.error, some e, (acts .error (some e) d.1).1⟩], rfl, by simp, .inr ?_,
        by simp [take, Move.err, enabled]⟩
      exact List.mem_singleton.mp hans
    · rw [heof _ rfl]
      exact ⟨[], by simp [take], by simp, .inl rfl, by simp [take, enabled]⟩
  cases cs with
  | error => exact ⟨[], by simp [stateExec], by simp, .inl rfl, by simp [stateExec, enabled, connectionMove, Move.err]⟩
  | connection c => exact key _ (connectionMove_not_enabled he) _
  | proxy p =>
    rcases proxyMove_not_enabled he with hm | hm
    · simp only [stateExec, hm]
      exact key _ (.inl rfl) _
    · simp only [stateExec, hm]
      exact key _ (.inr rfl) _

/-! ### The loop -/

@[simp] theorem taskLoop_close (n : ℕ) (cs : Cs) (d : σ) :
    taskLoop acts n cs .close d = some (stateExec acts cs .close d) := by
  cases n <;> rfl

/-- Once an event comes up that the state has no transition for, `finish` is
never called again. -/
theorem taskLoop_not_enabled (hacts : ConnActions acts) {n : ℕ} {cs : Cs} {e : Event}
    {d : σ × List Call} {x : Exec (σ × List Call)} (he : ¬ enabled cs e)
    (h : taskLoop (logged acts) n cs e d = some x) :
    ∃ new, x.data.2 = d.2 ++ new ∧ ∀ c ∈ new, c.action ≠ .finish := by
  obtain ⟨new, hd, hnew, hnext, hclose⟩ := exec_not_enabled hacts he d
  by_cases hc : e = .close
  · subst hc
    rw [taskLoop_close, Option.some_inj] at h
    exact ⟨new, h ▸ hd, hnew⟩
  · -- the next round feeds `CLOSE`, by the loop or by the error label
    have hx : x = stateExec (logged acts) (stateExec (logged acts) cs e d).cs .close
        (stateExec (logged acts) cs e d).data := by
      cases n with
      | zero => simp [taskLoop, hc] at h
      | succ n =>
        rw [taskLoop, if_neg hc] at h
        rcases hnext with hnext | hnext <;> rw [hnext] at h
        · exact (Option.some.inj h).symm
        · exact (Option.some.inj ((taskLoop_close ..).symm.trans h)).symm
    obtain ⟨new', hd', hnew', -, -⟩ := exec_not_enabled hacts hclose
      (stateExec (logged acts) cs e d).data
    refine ⟨new ++ new', by rw [hx, hd', hd, List.append_assoc], fun c hmem => ?_⟩
    exact (List.mem_append.mp hmem).elim (hnew c) (hnew' c)

theorem destroyedOnce_append {new calls : List Call} (hnew : ∀ c ∈ new, c.action ≠ .finish) :
    DestroyedOnce (new ++ calls) ↔ DestroyedOnce calls := by
  constructor
  · rintro ⟨pre, c, heq, hc, hpre⟩
    rcases List.eq_nil_or_concat calls with rfl | ⟨init, b, rfl⟩
    · rw [List.append_nil] at heq
      exact absurd hc (hnew c (by simp [heq]))
    · rw [List.concat_eq_append, ← List.append_assoc] at heq
      obtain ⟨rfl, hb⟩ := List.append_inj' heq rfl
      obtain rfl := List.singleton_inj.mp hb
      exact ⟨init, b, List.concat_eq_append, hc, fun a ha => hpre a (by simp [ha])⟩
  · rintro ⟨pre, c, rfl, hc, hpre⟩
    refine ⟨new ++ pre, c, by rw [List.append_assoc], hc, fun b hb => ?_⟩
    exact (List.mem_append.mp hb).elim (hnew b) (hpre b)

theorem taskLoop_close_destroyedOnce {n : ℕ} {cs : Cs} {d : σ × List Call}
    {x : Exec (σ × List Call)} (he : enabled cs .close)
    (h : taskLoop (logged acts) n cs .close d = some x) :
    ∃ new, x.data.2 = d.2 ++ new ∧ (DestroyedOnce new ↔ ∀ c ∈ new, c.Expected) := by
  rw [taskLoop_close, Option.some_inj] at h
  obtain ⟨b, c, hd, hb, hf⟩ := @exec_close σ acts cs he d
  refine ⟨[b, c], h ▸ hd, iff_of_true ⟨[b], c, rfl, hf, by simp [hb]⟩ ?_⟩
  simp [Call.Expected, hb, hf]

/-- From a state with a transition for the event, the calls still to come
destroy the connection once exactly if they are all answered as expected. -/
theorem taskLoop_destroyedOnce (hacts : ConnActions acts) {n : ℕ} {cs : Cs} {e : Event}
    {d : σ × List Call} {x : Exec (σ × List Call)} (he : enabled cs e)
    (h : taskLoop (logged acts) n cs e d = some x) :
    ∃ new, x.data.2 = d.2 ++ new ∧ (DestroyedOnce new ↔ ∀ c ∈ new, c.Expected) := by
  induction n generalizing cs e d with
  | zero =>
    by_cases hc : e = .close
    · subst hc
      exact taskLoop_close_destroyedOnce he h
    · simp [taskLoop, hc] at h
  | succ n ih =>
    by_cases hc : e = .close
    · subst hc
      exact taskLoop_close_destroyedOnce he h
    obtain ⟨new, e', hd, hnext, hnew, hen⟩ := exec_enabled hacts he hc d
    rw [taskLoop, if_neg hc, hnext] at h
    by_cases he' : enabled (stateExec (logged acts) cs e d).cs e'
    · obtain ⟨rest, hd', hiff⟩ := ih he' h
      refine ⟨new ++ rest, by rw [hd', hd, List.append_assoc], ?_⟩
      rw [destroyedOnce_append hnew, hiff, List.forall_mem_append]
      exact (and_iff_right (hen.mp he')).symm
    · obtain ⟨rest, hd', hrest⟩ := taskLoop_not_enabled hacts he' h
      refine ⟨new ++ rest, by rw [hd', hd, List.append_assoc], iff_of_false ?_ ?_⟩
      · rintro ⟨pre, c, heq, hc, -⟩
        have hmem : c ∈ new ++ rest := heq ▸ List.mem_append_right pre (List.mem_singleton_self c)
        exact (List.mem_append.mp hmem).elim (fun hm => hnew c hm hc) fun hm => hrest c hm hc
      · exact fun hall => he' (hen.mpr fun c hm => hall c (List.mem_append_left rest hm))

/-- **The connection is freed exactly once.**  A task that has ended has called
`finish` exactly once, as its last call, if and only if every callback of the
run answered with an event that the state entered has a transition for. -/
theorem destroyedOnce_iff (hacts : ConnActions acts) {n : ℕ} {d : σ}
    {x : Exec (σ × List Call)} (h : connectionTask (logged acts) n (d, []) = some x) :
    DestroyedOnce x.data.2 ↔ ∀ c ∈ x.data.2, c.Expected := by
  obtain ⟨new, hd, hiff⟩ := taskLoop_destroyedOnce hacts (by decide) h
  rw [List.nil_append] at hd
  rwa [hd]

/-- Callbacks that follow a fixed script. -/
def scripted (answer : Action → Option Event) : StateActions Unit := fun a _ d => (answer a, d)

/-- A connection whose requests are all of the kind `kind`, routed to `backend`. -/
def session (kind backend : Event) : Action → Option Event
  | .«open» => some .accept
  | .parse => some .reqRecv
  | .registerRequest | .identifyRequest => some kind
  | .routeRequest => some backend
  | .sendSocketResponse | .httpToDirectory | .error | .finish | .proxyFailed
  | .proxyClose => some .close
  | .close => none
  | .msgToHandler | .httpToHandler | .proxyDeliver => some .reqSent
  | .httpToProxy => some .connect
  | .proxyReplyParse => some .reqRecv
  | .proxyReqParse => some .remoteClose

theorem session_connActions {kind backend : Event}
    (hkind : some kind ∈ answers .registerRequest) (hback : some backend ∈ answers .routeRequest) :
    ConnActions (scripted (session kind backend)) := by
  intro a _ _
  cases a <;> first | exact hkind | exact hback | simp [scripted, session, answers]

/-- A request for a directory, closed after the file was sent. -/
theorem destroyedOnce_directory_session :
    ∃ x, connectionTask (logged (scripted (session .httpReq .directory))) 5 ((), []) = some x ∧
      DestroyedOnce x.data.2 := by
  have hacts : ConnActions (scripted (session .httpReq .directory)) :=
    session_connActions (by decide) (by decide)
  exact ⟨_, rfl, (@destroyedOnce_iff Unit _ hacts 5 () _ rfl).mpr (by decide)⟩

/-- A `MSG` request that no route matches: `route_request` answers `CLOSE` in a
state without a transition for it, `error` is called and the connection is never
freed. -/
theorem not_destroyedOnce_unrouted_msg :
    ConnActions (scripted (session .msgReq .close)) ∧
      ∃ x, connectionTask (logged (scripted (session .msgReq .close))) 5 ((), []) = some x ∧
        x.data.2.map Call.action =
          [.«open», .parse, .registerRequest, .routeRequest, .error] ∧
        ¬ DestroyedOnce x.data.2 := by
  refine ⟨session_connActions (by decide) (by decide), _, rfl, by decide, ?_⟩
  rintro ⟨pre, c, heq, hc, -⟩
  have hmem : Action.finish ∈ (pre ++ [c]).map Call.action :=
    List.mem_map.mpr ⟨c, by simp, hc⟩
  rw [← heq] at hmem
  exact absurd hmem (by decide)

end Mongrel2

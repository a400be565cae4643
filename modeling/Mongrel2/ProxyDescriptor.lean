/-
The descriptor of a proxy (`connection.c`).

`connection_http_to_proxy` stores what `netdial` returns in `conn->proxy_fd`, and five
ways out of the state machine close it.

* `callbacks`, `step` — the task of a connection with the outcome of every callback
  left open, as far as it does not open or close the descriptor, and a log of the
  dials, of the sends and receives, and of the calls of `fdclose`;
* `step_task` — the task of `KeepAlive` is one of these tasks;
* `owned_always` — on every run the log is owned, and it is settled when the task has
  returned.

Design notes: the slot of `Ownership` is `conn->proxy_fd` with the values below 1 as
an empty one.  `Held` says where it may be full: inside the proxy machine, and there
only while an event is pending.
-/
import Mongrel2.Ownership
import Mongrel2.ProxyRouting

namespace Mongrel2

open ByteStream HttpParser

namespace ProxyDescriptor

open Ownership (Op track slot)

/-! ### The task -/

/-- The members of a `Connection` that have to do with its proxy, the rest of it, and
what was done with descriptors of proxies. -/
structure Wired where
  session : Session
  proxyFd : ℤ
  /-- `proxy_buf` and `client` are not NULL -/
  proxyBuf : Bool
  client : Bool
  ops : List (Op ℤ)

/-- How the callbacks of one round end. -/
structure Outcomes where
  /-- `Request_get_action` in `connection_http_to_proxy` is not NULL -/
  proxy : Bool
  netdial : ℤ
  /-- the allocations of `proxy_buf` and of `client` -/
  callocBuf : Bool
  callocClient : Bool
  /-- how often a callback that talks to the proxy sends or receives -/
  transfers : ℕ
  /-- the answer of any other callback, and how each leaves the connection -/
  outcome : Action → Session → Option Event × Session

section

variable (o : Outcomes) (d : Wired)

/-- `connection_http_to_proxy`. -/
def httpToProxy : Event × Wired :=
  if !o.proxy then (.failed, d)
  else
    let d := { d with proxyFd := o.netdial, ops := d.ops ++ [.acquired o.netdial] }
    if o.netdial = -1 then (.failed, d)
    else if !d.proxyBuf && !o.callocBuf then (.failed, d)
    else
      let d := { d with proxyBuf := true }
      if !d.client && !o.callocClient then (.failed, d)
      else (.connect, { d with client := true })

/-- `connection_proxy_close`. -/
def proxyClose : Wired := { d with proxyFd := 0, ops := d.ops ++ [.released d.proxyFd] }

/-- `close_or_error`, but for the register. -/
def closeOrError : Wired := if d.proxyFd ≠ 0 then proxyClose d else d

/-- The `fdsend` and `fdrecv` of a callback that talks to the proxy. -/
def transfer : Wired := { d with ops := d.ops ++ List.replicate o.transfers (.used d.proxyFd) }

/-- What a callback answers and does to the descriptor. -/
def answer (a : Action) : Option Event × Wired :=
  match a with
  | .httpToProxy => (some (httpToProxy o d).1, (httpToProxy o d).2)
  | .proxyClose => (some .close, proxyClose d)
  | .close => (none, closeOrError d)
  | .error => (some .close, closeOrError d)
  | .proxyDeliver | .proxyReplyParse => ((o.outcome a d.session).1, transfer o d)
  | a => ((o.outcome a d.session).1, d)

/-- `CONN_ACTIONS`. -/
def callbacks : StateActions Wired := fun a _ d =>
  ((answer o d a).1, { (answer o d a).2 with session := (o.outcome a d.session).2 })

end

/-- A task between two calls of `State_exec`, as in `Mongrel2.Task`. -/
structure Task where
  cs : Cs
  event : Option Event
  data : Wired

/-- One round of `Connection_task`. -/
def step (t : Task) (o : Outcomes) : Option Task :=
  match t.event with
  | none => none
  | some e =>
    let x := stateExec (callbacks o) t.cs e t.data
    some ⟨x.cs, if e = .close then none else some (x.next.getD .close), x.data⟩

/-- A task whose connection was accepted. -/
def Task.start (c : Conn) : Task :=
  ⟨.connection .start, some .«open», ⟨⟨c, []⟩, 0, false, false, []⟩⟩

/-! ### The task of `KeepAlive` -/

/-- The outcomes that the callbacks of `KeepAlive` have, with the descriptor that a
dial gives. -/
def Outcomes.of (lim : Limits) (ping : List Byte → Bool) (o : Outside) (fd : ℕ) (transfers : ℕ) :
    Outcomes where
  proxy := true
  netdial := if o.dials then fd else -1
  callocBuf := true
  callocClient := true
  transfers := transfers
  outcome a s := Mongrel2.callbacks lim ping o a none s

/-- The task without the descriptor. -/
def Task.task (t : Task) : Mongrel2.Task := ⟨t.cs, t.event, t.data.session⟩

section

variable {lim : Limits} {ping : List Byte → Bool} {o : Outside} {fd n : ℕ}

theorem simulates (a : Action) :
    Routing.Simulates (callbacks (.of lim ping o fd n)) (Mongrel2.callbacks lim ping o)
      Wired.session a := by
  intro e d
  cases a
  case httpToProxy =>
    refine Prod.ext ?_ rfl
    have hfd : (fd : ℤ) ≠ -1 := by omega
    cases hdials : o.dials <;>
      simp [callbacks, answer, Mongrel2.callbacks, httpToProxy, Outcomes.of, hdials, hfd]
  all_goals rfl

/-- **A task of `KeepAlive` is a task with outcomes**, whatever its descriptors are. -/
theorem step_task (t : Task) :
    (step t (.of lim ping o fd n)).map Task.task = Mongrel2.step lim ping t.task o := by
  obtain ⟨cs, event, d⟩ := t
  rcases event with _ | e
  · rfl
  have hexec : stateExec (Mongrel2.callbacks lim ping o) cs e d.session =
      Routing.Exec.map Wired.session (stateExec (callbacks (.of lim ping o fd n)) cs e d) :=
    Routing.stateExec_map (fun a _ => simulates a) (simulates _) (simulates _) d
  show some _ = some _
  simp only [Task.task, hexec, Routing.Exec.map]

end

/-! ### Where the descriptor is open -/

/-- The log is tracked, and the slot owns the descriptor that is stored. -/
def Tracked (d : Wired) : Prop :=
  Runs.exec (track fun fd : ℤ => 1 ≤ fd) none d.ops =
    some (slot (fun fd : ℤ => 1 ≤ fd) d.proxyFd)

/-- Outside the proxy machine no descriptor is stored.  Its start state is entered only
with the two answers that it has a transition for. -/
def Held (cs : Cs) (next : Option Event) (d : Wired) : Prop :=
  match cs with
  | .connection _ | .error => d.proxyFd = 0
  | .proxy .start => next = some .connect ∨ next = some .failed
  | .proxy _ => True

variable {o : Outcomes} {d : Wired}

theorem tracked_append {ops : List (Op ℤ)} {fd : ℤ} (h : Tracked d)
    (hops : Runs.exec (track fun fd : ℤ => 1 ≤ fd) (slot (fun fd : ℤ => 1 ≤ fd) d.proxyFd) ops =
      some (slot (fun fd : ℤ => 1 ≤ fd) fd)) (s : Session) (buf client : Bool) :
    Tracked ⟨s, fd, buf, client, d.ops ++ ops⟩ := by
  unfold Tracked at *
  rw [Runs.exec_append, h]
  exact hops

theorem tracked_httpToProxy (h : Tracked d) (hfd : d.proxyFd = 0) :
    Tracked (httpToProxy o d).2 := by
  have hdialed : ∀ buf client,
      Tracked ⟨d.session, o.netdial, buf, client, d.ops ++ [.acquired o.netdial]⟩ := by
    refine fun buf client => tracked_append h ?_ d.session buf client
    rw [hfd]
    rfl
  unfold httpToProxy
  dsimp only
  split_ifs
  · exact h
  · exact hdialed _ _
  · exact hdialed _ _
  · exact hdialed _ _
  · exact hdialed _ _

theorem tracked_proxyClose (h : Tracked d) : Tracked (proxyClose d) := by
  refine tracked_append h ?_ _ _ _
  by_cases hfd : 1 ≤ d.proxyFd
  · simp [track, slot, hfd]
  · simp [track, slot, hfd]

theorem tracked_closeOrError (h : Tracked d) : Tracked (closeOrError d) := by
  unfold closeOrError
  split
  · exact tracked_proxyClose h
  · exact h

theorem closeOrError_proxyFd : (closeOrError d).proxyFd = 0 := by
  unfold closeOrError
  split
  · rfl
  · rename_i h
    exact not_ne_iff.mp h

theorem tracked_transfer (h : Tracked d) : Tracked (transfer o d) := by
  refine tracked_append h ?_ _ _ _
  induction o.transfers with
  | zero => rfl
  | succ n ih =>
    have hused : track (fun fd : ℤ => 1 ≤ fd) (slot (fun fd : ℤ => 1 ≤ fd) d.proxyFd)
        (.used d.proxyFd) = some (slot (fun fd : ℤ => 1 ≤ fd) d.proxyFd) := by
      by_cases hfd : 1 ≤ d.proxyFd
      · simp [track, slot, hfd]
      · simp [track, slot, hfd]
    rw [List.replicate_succ, Runs.exec_cons, hused]
    exact ih

/-- A dial needs an empty slot; nothing else does. -/
theorem tracked_call {e : Option Event} {x : Exec Wired} {a : Action} (h : Tracked x.data)
    (hdial : a = .httpToProxy → x.data.proxyFd = 0) :
    Tracked (call (callbacks o) e x a).data := by
  have hanswer : Tracked (answer o x.data a).2 := by
    cases a
    case httpToProxy => exact tracked_httpToProxy h (hdial rfl)
    case proxyClose => exact tracked_proxyClose h
    case close => exact tracked_closeOrError h
    case error => exact tracked_closeOrError h
    case proxyDeliver => exact tracked_transfer h
    case proxyReplyParse => exact tracked_transfer h
    all_goals exact h
  exact hanswer

/-- Without a dial an empty descriptor stays empty. -/
theorem proxyFd_call {e : Option Event} {x : Exec Wired} {a : Action}
    (hfd : x.data.proxyFd = 0) (hdial : a ≠ .httpToProxy) :
    (call (callbacks o) e x a).data.proxyFd = 0 := by
  have hanswer : (answer o x.data a).2.proxyFd = 0 := by
    cases a
    case httpToProxy => exact absurd rfl hdial
    case proxyClose => rfl
    case close => exact closeOrError_proxyFd
    case error => exact closeOrError_proxyFd
    all_goals exact hfd
  exact hanswer

theorem httpToProxy_event : (httpToProxy o d).1 = .connect ∨ (httpToProxy o d).1 = .failed := by
  unfold httpToProxy
  dsimp only
  split_ifs
  · exact .inr rfl
  · exact .inr rfl
  · exact .inr rfl
  · exact .inr rfl
  · exact .inl rfl

/-! ### The transitions -/

/-- A transition of `Connection` dials on its way into the proxy machine, or it does not
dial and stays outside. -/
theorem connectionMove_dials (c : ConnectionCs) (e : Event) :
    connectionMove c e = ⟨[.httpToProxy], .proxy .start⟩ ∧ e ≠ .close ∨
      .httpToProxy ∉ (connectionMove c e).actions ∧
        ∀ p, (connectionMove c e).target ≠ .proxy p := by
  fun_cases connectionMove c e
  all_goals
    first
    | exact .inl ⟨rfl, by decide⟩
    | exact .inr ⟨by decide, by simp [Move.enter, Move.err]⟩

/-- A transition within the proxy machine fails with `error`, or it is on an event
other than `CLOSE` and does not dial. -/
theorem proxyMove_take_cases {p : ProxyCs} {e : Event} {m : Move} (hm : proxyMove p e = .take m)
    (hstart : p = .start → e = .connect ∨ e = .failed) :
    m = .err ∨ ∃ a p', m = ⟨[a], .proxy p'⟩ ∧ a ≠ .httpToProxy ∧ p' ≠ .start ∧ e ≠ .close := by
  revert hm
  fun_cases proxyMove p e <;> intro hm <;> cases hm
  case case3 hconnect hfailed =>
    rcases hstart rfl with rfl | rfl
    · exact absurd rfl hconnect
    · exact absurd rfl hfailed
  all_goals
    first
    | exact .inl rfl
    | exact .inr ⟨_, _, rfl, by decide, by decide, by decide⟩

/-! ### The invariant -/

/-- An answer for the start state of the proxy machine is an event, which is fed. -/
theorem Held.fed {cs : Cs} {next : Option Event} (h : Held cs next d) :
    Held cs (some (next.getD .close)) d := by
  rcases cs with c | p | _
  · exact h
  · cases p
    case start =>
      rcases h with rfl | rfl
      · exact .inl rfl
      · exact .inr rfl
    all_goals exact trivial
  · exact h

/-- After the transition on an event. -/
structure Moved (e : Event) (x : Exec Wired) : Prop where
  tracked : Tracked x.data
  held : Held x.cs x.next x.data
  closed : e = .close → x.data.proxyFd = 0

theorem connection_moved {c : ConnectionCs} {e : Event} {x : Exec Wired} (h : Tracked x.data)
    (hfd : x.data.proxyFd = 0) : Moved e (take (callbacks o) e (connectionMove c e) x) := by
  rcases connectionMove_dials c e with ⟨hmove, hclose⟩ | ⟨hdial, htarget⟩
  · rw [hmove]
    have htracked : Tracked (call (callbacks o) (some e) x .httpToProxy).data :=
      tracked_call h fun _ => hfd
    have hevent : (httpToProxy o x.data).1 = .connect ∨ (httpToProxy o x.data).1 = .failed :=
      httpToProxy_event
    exact ⟨htracked, hevent.imp (congrArg some) (congrArg some), fun he => absurd he hclose⟩
  · have hcall : Tracked (callAll (callbacks o) (some e) (connectionMove c e).actions x).data ∧
        (callAll (callbacks o) (some e) (connectionMove c e).actions x).data.proxyFd = 0 := by
      rcases connectionMove_actions c e with hactions | ⟨a, hactions⟩
      · rw [hactions]
        exact ⟨h, hfd⟩
      · rw [hactions, List.mem_singleton] at hdial
        have ha : a ≠ .httpToProxy := Ne.symm hdial
        rw [hactions]
        exact ⟨tracked_call h fun he => absurd he ha, proxyFd_call hfd ha⟩
    refine ⟨hcall.1, ?_, fun _ => hcall.2⟩
    show Held (connectionMove c e).target _ _
    generalize (connectionMove c e).target = target at htarget
    rcases target with c' | p | _
    · exact hcall.2
    · exact absurd rfl (htarget p)
    · exact hcall.2

theorem proxy_moved {p : ProxyCs} {e : Event} {m : Move} (hm : proxyMove p e = .take m)
    (h : Tracked d) (hheld : Held (.proxy p) (some e) d) :
    Moved e (take (callbacks o) e m ⟨.proxy p, none, d⟩) := by
  have hstart : p = .start → e = .connect ∨ e = .failed := by
    rintro rfl
    exact hheld.imp Option.some.inj Option.some.inj
  rcases proxyMove_take_cases hm hstart with rfl | ⟨a, p', rfl, ha, hp', hclose⟩
  · -- `error` closes what is still open
    have htracked : Tracked (call (callbacks o) (some e) ⟨.proxy p, none, d⟩ .error).data :=
      tracked_call h (by simp)
    exact ⟨htracked, closeOrError_proxyFd, fun _ => closeOrError_proxyFd⟩
  · have htracked : Tracked (call (callbacks o) (some e) ⟨.proxy p, none, d⟩ a).data :=
      tracked_call h fun he => absurd he ha
    refine ⟨htracked, ?_, fun he => absurd he hclose⟩
    cases p' <;> first | exact trivial | exact absurd rfl hp'

/-- At the end of input there is nothing left to close. -/
theorem atEof_moved {e : Event} {x : Exec Wired} (h : Moved e x) :
    Tracked (stateExec.atEof (callbacks o) e x).data ∧
      (e = .close → (stateExec.atEof (callbacks o) e x).data.proxyFd = 0) ∧
      (e ≠ .close → stateExec.atEof (callbacks o) e x = x) := by
  unfold stateExec.atEof
  by_cases he : e = .close
  · rw [if_pos he]
    have hfd : x.data.proxyFd = 0 := h.closed he
    rcases eofActions_cases x.cs with heof | heof | heof <;> rw [heof]
    · exact ⟨h.tracked, fun _ => hfd, fun hne => absurd he hne⟩
    · exact ⟨tracked_call h.tracked (by simp), fun _ => proxyFd_call hfd (by simp),
        fun hne => absurd he hne⟩
    · exact ⟨tracked_call h.tracked (by simp), fun _ => proxyFd_call hfd (by simp),
        fun hne => absurd he hne⟩
  · rw [if_neg he]
    exact ⟨h.tracked, fun hclose => absurd hclose he, fun _ => rfl⟩

/-- Between two rounds: the descriptor is where it may be, and it is closed when the task
has returned. -/
structure Inv (t : Task) : Prop where
  tracked : Tracked t.data
  held : t.event ≠ none → Held t.cs t.event t.data
  returned : t.event = none → t.data.proxyFd = 0

theorem Moved.inv {e : Event} {x : Exec Wired} (h : Moved e x) :
    Inv ⟨(stateExec.atEof (callbacks o) e x).cs,
      if e = .close then none else some ((stateExec.atEof (callbacks o) e x).next.getD .close),
      (stateExec.atEof (callbacks o) e x).data⟩ := by
  obtain ⟨htracked, hclosed, hsame⟩ := @atEof_moved o e x h
  refine ⟨htracked, fun hevent => ?_, fun hevent => ?_⟩
  · have he : e ≠ .close := by
      intro he
      exact hevent (if_pos he)
    rw [hsame he, if_neg he]
    exact h.held.fed
  · by_cases he : e = .close
    · exact hclosed he
    · exact absurd hevent (by simp [he])

/-- What one round keeps. -/
theorem step_inv {t t' : Task} (h : Inv t) (hstep : step t o = some t') : Inv t' := by
  obtain ⟨cs, event, d⟩ := t
  rcases event with _ | e
  · exact absurd hstep (by simp [step])
  obtain rfl := Option.some.inj hstep
  have hheld : Held cs (some e) d := h.held (by simp)
  rcases cs with c | p | _
  · have hfd : d.proxyFd = 0 := hheld
    exact (@connection_moved o c e ⟨.connection c, none, d⟩ h.tracked hfd).inv
  · dsimp only [stateExec]
    split
    · rename_i m hm
      exact (proxy_moved hm h.tracked hheld).inv
    · rename_i as c hm
      rcases proxyMove_hold_cases hm with ⟨-, rfl, -⟩ | ⟨rfl, rfl, rfl⟩
      · have htracked : Tracked
            (call (callbacks o) (some e) ⟨.proxy p, none, d⟩ .proxyClose).data :=
          tracked_call h.tracked (by simp)
        exact (@connection_moved o c e _ htracked rfl).inv
      · -- a dial that failed is closed by `connection_close`
        have htracked : Tracked
            (call (callbacks o) (some .close) ⟨.proxy p, none, d⟩ .close).data :=
          tracked_call h.tracked (by simp)
        exact Moved.inv ⟨htracked, closeOrError_proxyFd, fun _ => closeOrError_proxyFd⟩
  · exact ⟨h.tracked, fun _ => hheld, fun _ => hheld⟩

/-- **Ownership of the proxy's descriptor**: on every run of a connection, with all
outcomes of its callbacks, each descriptor that a dial gave is not replaced while it is
open, closed at most once and not used after that, and each was closed when the task
has returned. -/
theorem owned_always (c : Conn) (run : List Outcomes) :
    Runs.Always step (fun t => Ownership.Owned (fun fd : ℤ => 1 ≤ fd) t.data.ops ∧
      (t.event = none → Ownership.Settled (fun fd : ℤ => 1 ≤ fd) t.data.ops)) (.start c) run := by
  have hstart : Inv (.start c) := ⟨rfl, fun _ => rfl, fun _ => rfl⟩
  have hinv : Runs.Always step Inv (.start c) run :=
    Runs.always_of_step (fun t o t' h hstep => step_inv h hstep) hstart run
  refine hinv.mono fun t h => ⟨Ownership.owned_of_exec h.tracked, fun hevent => ?_⟩
  refine Ownership.settled_of_exec (h.tracked.trans ?_)
  rw [h.returned hevent]
  rfl

-- a dial that succeeds before an allocation fails is closed on the way out
example :
    let o : Outcomes := ⟨true, 7, false, true, 0, fun a s =>
      (match a with
        | .«open» => some .accept
        | .parse => some .reqRecv
        | .registerRequest => some .httpReq
        | .routeRequest => some .proxy
        | _ => some .close, s)⟩
    ∃ t ∈ Runs.exec step (.start freshConn) (List.replicate 7 o),
      t.event = none ∧ t.data.ops = [.acquired 7, .released 7] := by
  decide

end ProxyDescriptor

end Mongrel2

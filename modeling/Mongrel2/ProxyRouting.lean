/-
Routing behind a proxy (`connection.c`).

`connection_proxy_req_parse` routes the later requests of a proxied connection
itself, with the host, the backend and the pattern that an earlier request left.

* `callbacks`, `step` — the task of `KeepAlive` with the routing of its requests;
* `step_task` — it is a task of `KeepAlive`;
* `Agrees` — a request that is dispatched is routed as
  `connection_route_request` would;
* `Steady` — the next request selects the host and the pattern that are in force;
* `agrees_iff_steady` — the first in every state of a run exactly if the second at
  every step.

Design notes: the light comparison of the hosts is there as the source has it, made
with a copy that is taken after the new header has been parsed.
-/
import Mongrel2.Routing

namespace Mongrel2

open ByteStream HttpParser

namespace Routing

/-! ### The task -/

/-- A session, and the members of its request that outlive `Request_start`. -/
structure Routed where
  session : Session
  targetHost : Option Host
  action : Option Backend
  pattern : Option (List Byte)

/-- `biseq`; -1 when a string is missing. -/
def biseq (b₀ b₁ : Option (List Byte)) : ℤ :=
  match b₀, b₁ with
  | some b₀, some b₁ => if b₀ = b₁ then 1 else 0
  | _, _ => -1

section

variable (bstringMatch : List Byte → List Byte → Bool) (srv : Server) (lim : Limits)
  (ping : List Byte → Bool) (o : Outside)

/-- `Request_set_action` and the two assignments of `connection_route_request`. -/
def Routed.set (s : Routed) (d : Dispatch) : Routed :=
  { s with targetHost := some d.host, action := some d.backend, pattern := some d.pattern }

/-- `connection_route_request`. -/
def routeRequest (s : Routed) : Event × Routed :=
  match srv.route bstringMatch s.session.conn.req with
  | none => (.close, { s with session.conn := s.session.conn.reply 404 })
  | some d => (d.backend.type.event, s.set d)

/-- `connection_proxy_req_parse`, after the header of the request was read. -/
def lightFind (s : Routed) : Event × Routed :=
  let req := s.session.conn.req
  let host := req.host
  if biseq host req.host = 0 then (.proxy, s)
  else
    -- `target_host` is set wherever this is called
    match s.targetHost.bind fun h => h.matchBackend bstringMatch req.path with
    | none => (.remoteClose, { s with session.conn := s.session.conn.reply 404 })
    | some found =>
      if some found.data ≠ s.action then
        (found.data.type.event, { s with action := some found.data })
      else (.httpReq, s)

/-- `connection_proxy_req_parse`. -/
def proxyReqParse (s : Routed) : Event × Routed :=
  let (rc, c) := (s.session.conn.hears o.request).readHeader lim
  let s := { s with session.conn := c }
  if rc ≤ 0 then (.remoteClose, s)
  else if c.req.parser.jsonSent || c.req.parser.socketStarted then
    (.remoteClose, { s with session.conn := c.reply 400 })
  else lightFind bstringMatch s

/-- `CONN_ACTIONS`. -/
def callbacks : StateActions Routed := fun a e s =>
  match a with
  | .routeRequest =>
    (some (routeRequest bstringMatch srv s).1, (routeRequest bstringMatch srv s).2)
  | .proxyReqParse =>
    (some (proxyReqParse bstringMatch lim o s).1, (proxyReqParse bstringMatch lim o s).2)
  | a =>
    let x := Mongrel2.callbacks lim ping o a e s.session
    (x.1, { s with session := x.2 })

end

/-- A task between two calls of `State_exec`, as in `Mongrel2.Task`. -/
structure Task where
  cs : Cs
  event : Option Event
  routed : Routed

/-- One round of `Connection_task`. -/
def step (bstringMatch : List Byte → List Byte → Bool) (srv : Server) (lim : Limits)
    (ping : List Byte → Bool) (t : Task) (o : Outside) : Option Task :=
  match t.event with
  | none => none
  | some e =>
    let x := stateExec (callbacks bstringMatch srv lim ping o) t.cs e t.routed
    some ⟨x.cs, if e = .close then none else some (x.next.getD .close), x.data⟩

/-- A task whose connection was accepted. -/
def Task.start (c : Conn) : Task :=
  ⟨.connection .start, some .«open», ⟨⟨c, []⟩, none, none, none⟩⟩

/-! ### A task of `KeepAlive` -/

section

variable {σ τ : Type*} {acts : StateActions σ} {acts' : StateActions τ} {f : σ → τ}

/-- The same call on data that `f` maps. -/
def Exec.map (f : σ → τ) (x : Exec σ) : Exec τ := ⟨x.cs, x.next, f x.data⟩

/-- Of an action, both tables make the same. -/
def Simulates (acts : StateActions σ) (acts' : StateActions τ) (f : σ → τ) (a : Action) : Prop :=
  ∀ e d, (acts' a e (f d)) = ((acts a e d).1, f (acts a e d).2)

theorem callAll_map {e : Option Event} {as : List Action}
    (h : ∀ a ∈ as, Simulates acts acts' f a) (x : Exec σ) :
    callAll acts' e as (Exec.map f x) = Exec.map f (callAll acts e as x) := by
  induction as generalizing x with
  | nil => rfl
  | cons a as ih =>
    have hcall : call acts' e (Exec.map f x) a = Exec.map f (call acts e x a) := by
      have ha := h a (List.mem_cons_self ..) e x.data
      simp only [call, Exec.map, ha]
    rw [callAll_cons, callAll_cons, hcall, ih fun b hb => h b (List.mem_cons_of_mem a hb)]

theorem stateExec_map {cs : Cs} {e : Event} (h : ∀ a ∈ actionsOn cs e, Simulates acts acts' f a)
    (herror : Simulates acts acts' f .error) (hfinish : Simulates acts acts' f .finish) (d : σ) :
    stateExec acts' cs e (f d) = Exec.map f (stateExec acts cs e d) := by
  have heof : ∀ x : Exec σ, stateExec.atEof acts' e (Exec.map f x) =
      Exec.map f (stateExec.atEof acts e x) := by
    intro x
    unfold stateExec.atEof
    split
    · refine callAll_map (fun a ha => ?_) x
      have hmem : a = .error ∨ a = .finish := by
        change a ∈ eofActions x.cs at ha
        unfold eofActions at ha
        split at ha <;> simp_all
      rcases hmem with rfl | rfl
      · exact herror
      · exact hfinish
    · rfl
  have htake : ∀ (m : Move) (x : Exec σ), (∀ a ∈ m.actions, Simulates acts acts' f a) →
      take acts' e m (Exec.map f x) = Exec.map f (take acts e m x) := by
    intro m x hm
    unfold take
    rw [callAll_map hm]
    rfl
  rcases cs with c | p | _
  · show stateExec.atEof acts' e (take acts' e _ (Exec.map f ⟨.connection c, none, d⟩)) = _
    rw [htake _ _ h, heof]
    rfl
  · simp only [stateExec]
    simp only [actionsOn] at h
    split
    · rename_i m hm
      rw [hm] at h
      show stateExec.atEof acts' e (take acts' e _ (Exec.map f ⟨.proxy p, none, d⟩)) = _
      rw [htake _ _ h, heof]
    · rename_i as c hm
      rw [hm] at h
      show stateExec.atEof acts' e
        (take acts' e _ (callAll acts' _ _ (Exec.map f ⟨.proxy p, none, d⟩))) = _
      rw [callAll_map fun a ha => h a (List.mem_append_left _ ha),
        htake _ _ fun a ha => h a (List.mem_append_right _ ha), heof]
  · rfl

end

section

variable (bstringMatch : List Byte → List Byte → Bool) (srv : Server) (lim : Limits)
  {ping : List Byte → Bool}

/-- The task without its routing. -/
def Task.task (t : Task) : Mongrel2.Task := ⟨t.cs, t.event, t.routed.session⟩

/-- The connection after the read of the next header behind a proxy. -/
def Task.heard (t : Task) (o : Outside) : ℤ × Conn :=
  (t.routed.session.conn.hears o.request).readHeader lim

/-- The route that `connection_proxy_req_parse` finds for the next request. -/
def Task.found (t : Task) (o : Outside) : Option (Route Backend) :=
  t.routed.targetHost.bind fun h => h.matchBackend bstringMatch (t.heard lim o).2.req.path

/-- What the routing tables add to the outside of a round. -/
def Task.outside (t : Task) (o : Outside) : Outside :=
  match t.cs with
  | .proxy _ =>
    let found := t.found bstringMatch lim o
    { o with
      backend := found.map (·.data.type)
      sameAction := decide (found.map (·.data) = t.routed.action) }
  | _ =>
    { o with backend := (srv.route bstringMatch t.routed.session.conn.req).map (·.backend.type) }

variable {bstringMatch srv lim} {o : Outside} {t : Task}

theorem routeRequest_mem_actionsOn {cs : Cs} {e : Event} (h : .routeRequest ∈ actionsOn cs e) :
    ∃ c c', cs = .connection c ∧ connectionMove c e = .enter .routeRequest c' ∧ e ≠ .close := by
  rcases cs with c | p | _
  · cases c <;> cases e <;> first | exact ⟨_, _, rfl, rfl, by decide⟩ | exact absurd h (by decide)
  · cases p <;> cases e <;> exact absurd h (by decide)
  · exact absurd h List.not_mem_nil

theorem proxyLoop_congr {o' : Outside} (h : o'.fdsend = o.fdsend) (n i : ℕ) (totalLen : ℤ)
    (s : Session) : proxyLoop lim o' n i totalLen s = proxyLoop lim o n i totalLen s := by
  induction n generalizing i totalLen s with
  | zero => rfl
  | succ n ih =>
    unfold proxyLoop
    simp only [h, ih]

theorem proxyDeliver_congr {o' : Outside} (h : o'.fdsend = o.fdsend) (s : Session) :
    proxyDeliver lim o' s = proxyDeliver lim o s := by
  unfold proxyDeliver
  simp only [h, proxyLoop_congr h]

/-- Nothing but the routing tells the two tables apart. -/
theorem simulates_of_not_routes {a : Action} (hroute : a ≠ .routeRequest)
    (hparse : a ≠ .proxyReqParse) :
    Simulates (callbacks bstringMatch srv lim ping o)
      (Mongrel2.callbacks lim ping (t.outside bstringMatch srv lim o)) Routed.session a := by
  intro e d
  have hout : Mongrel2.callbacks lim ping (t.outside bstringMatch srv lim o) a e d.session =
      Mongrel2.callbacks lim ping o a e d.session := by
    by_cases hdeliver : a = .proxyDeliver
    · subst hdeliver
      have hsend : (t.outside bstringMatch srv lim o).fdsend = o.fdsend := by
        unfold Task.outside
        split <;> rfl
      simp only [Mongrel2.callbacks, proxyDeliver_congr hsend]
    · unfold Task.outside
      split <;> cases a <;>
        first
        | rfl
        | exact absurd rfl hroute
        | exact absurd rfl hparse
        | exact absurd rfl hdeliver
  rw [hout]
  cases a <;> first | rfl | exact absurd rfl hroute | exact absurd rfl hparse

theorem routeRequest_session {c : ConnectionCs} (hcs : t.cs = .connection c) :
    Mongrel2.Conn.routeRequest (t.outside bstringMatch srv lim o) t.routed.session.conn =
      ((routeRequest bstringMatch srv t.routed).1,
        (routeRequest bstringMatch srv t.routed).2.session.conn) ∧
    (routeRequest bstringMatch srv t.routed).2.session.proxySent =
      t.routed.session.proxySent := by
  have hout : (t.outside bstringMatch srv lim o).backend =
      (srv.route bstringMatch t.routed.session.conn.req).map (·.backend.type) := by
    unfold Task.outside
    rw [hcs]
  unfold Mongrel2.Conn.routeRequest routeRequest
  rw [hout]
  cases srv.route bstringMatch t.routed.session.conn.req <;> exact ⟨rfl, rfl⟩

theorem biseq_self (b : Option (List Byte)) : biseq b b ≠ 0 := by
  cases b <;> simp [biseq]

/-- The comparison of the hosts never tells them apart. -/
theorem lightFind_eq (s : Routed) :
    lightFind bstringMatch s =
      match s.targetHost.bind fun h => h.matchBackend bstringMatch s.session.conn.req.path with
      | none => (.remoteClose, { s with session.conn := s.session.conn.reply 404 })
      | some found =>
        (if some found.data = s.action then .httpReq else found.data.type.event,
          { s with action := some found.data }) := by
  unfold lightFind
  rw [if_neg (biseq_self _)]
  rcases s.targetHost.bind fun h => h.matchBackend bstringMatch s.session.conn.req.path with
    _ | found
  · rfl
  · by_cases haction : some found.data = s.action
    · simp [haction]
    · simp [haction]

theorem proxyReqParse_session {p : ProxyCs} (hcs : t.cs = .proxy p) :
    t.routed.session.conn.proxyReqParse lim (t.outside bstringMatch srv lim o) =
      ((proxyReqParse bstringMatch lim o t.routed).1,
        (proxyReqParse bstringMatch lim o t.routed).2.session.conn) ∧
    (proxyReqParse bstringMatch lim o t.routed).2.session.proxySent =
      t.routed.session.proxySent := by
  have hout : t.outside bstringMatch srv lim o =
      { o with
        backend := (t.found bstringMatch lim o).map (·.data.type)
        sameAction := decide ((t.found bstringMatch lim o).map (·.data) = t.routed.action) } := by
    unfold Task.outside
    rw [hcs]
  rw [hout]
  simp only [Mongrel2.Conn.proxyReqParse, proxyReqParse, Task.found, Task.heard, lightFind_eq]
  split
  · exact ⟨rfl, rfl⟩
  split
  · exact ⟨rfl, rfl⟩
  rcases Option.eq_none_or_eq_some (t.routed.targetHost.bind fun h => h.matchBackend bstringMatch
    ((t.routed.session.conn.hears o.request).readHeader lim).2.req.path) with hfound | ⟨found, hfound⟩
  · simp only [hfound, Option.map_none, and_true]
  · simp only [hfound, Option.map_some, decide_eq_true_eq, and_true]
    split <;> rfl

/-- **A routed task is a task**: what its routing tables answer is one of the things
that a round may find. -/
theorem step_task :
    (step bstringMatch srv lim ping t o).map Task.task =
      Mongrel2.step lim ping t.task (t.outside bstringMatch srv lim o) := by
  obtain ⟨cs, event, s⟩ := t
  rcases event with _ | e
  · rfl
  have hexec : ∀ t : Task, t = ⟨cs, some e, s⟩ →
      stateExec (Mongrel2.callbacks lim ping (t.outside bstringMatch srv lim o)) cs e s.session =
        Exec.map Routed.session (stateExec (callbacks bstringMatch srv lim ping o) cs e s) := by
    rintro t rfl
    by_cases hroute : .routeRequest ∈ actionsOn cs e
    · obtain ⟨c, c', rfl, hmove, hclose⟩ := routeRequest_mem_actionsOn hroute
      obtain ⟨hr, hsent⟩ :=
        @routeRequest_session bstringMatch srv lim o ⟨.connection c, some e, s⟩ c rfl
      simp only [stateExec, stateExec.atEof, hmove, take, Move.enter, callAll_cons, callAll_nil,
        call, if_neg hclose, Mongrel2.callbacks, callbacks, Exec.map]
      rw [hr, ← hsent]
    by_cases hparse : .proxyReqParse ∈ actionsOn cs e
    · obtain ⟨rfl, rfl⟩ := proxyReqParse_mem_actionsOn hparse
      obtain ⟨hp, hsent⟩ := @proxyReqParse_session bstringMatch srv lim o
        ⟨.proxy .receiving, some .reqRecv, s⟩ _ rfl
      simp only [stateExec, stateExec.atEof, proxyMove, take, callAll_cons, callAll_nil,
        call, Mongrel2.callbacks, callbacks, Exec.map]
      rw [hp, ← hsent]
      rfl
    · refine stateExec_map (fun a ha => ?_) (simulates_of_not_routes (by simp) (by simp))
        (simulates_of_not_routes (by simp) (by simp)) s
      exact simulates_of_not_routes (fun h => hroute (h ▸ ha)) fun h => hparse (h ▸ ha)
  show some _ = some _
  simp only [Task.task, hexec _ rfl, Exec.map]

end

/-! ### Agreement -/

/-- The events with which the machine hands a request on. -/
def Dispatches (e : Event) : Prop := e = .httpReq ∨ e = .proxy ∨ e = .handler ∨ e = .directory

instance : DecidablePred Dispatches := fun e => by
  unfold Dispatches
  infer_instance

theorem dispatches_event (b : Mongrel2.Backend) : Dispatches b.event := by
  cases b <;> decide

theorem not_dispatches_remoteClose : ¬ Dispatches .remoteClose := by decide

/-- The members of the request hold this dispatch. -/
def Routed.InForce (s : Routed) (d : Dispatch) : Prop :=
  s.targetHost = some d.host ∧ s.action = some d.backend ∧ s.pattern = some d.pattern

instance (s : Routed) (d : Dispatch) : Decidable (s.InForce d) := by
  unfold Routed.InForce
  infer_instance

section

variable (bstringMatch : List Byte → List Byte → Bool) (srv : Server) (lim : Limits)

/-- A request that `connection_proxy_req_parse` hands on has the host, the backend and
the pattern that `connection_route_request` computes for it. -/
def Agrees (t : Task) : Prop :=
  t.cs = .proxy .proxying → ∀ e ∈ t.event, Dispatches e →
    ∃ d ∈ srv.route bstringMatch t.routed.session.conn.req, t.routed.InForce d

instance : DecidablePred (Agrees bstringMatch srv) := fun t => by
  unfold Agrees
  infer_instance

/-- The request that is read next behind the proxy. -/
def Task.next (t : Task) (o : Outside) : Option Request :=
  let (rc, c) := t.heard lim o
  if 0 < rc ∧ c.req.parser.jsonSent = false ∧ c.req.parser.socketStarted = false then some c.req
  else none

/-- If the next request has a route on the host that is in force, then that is its own
host and the route has the pattern that is in force. -/
def Steady (t : Task) (o : Outside) : Prop :=
  t.cs = .proxy .receiving → t.event = some .reqRecv →
    ∀ req ∈ t.next lim o, ∀ h ∈ t.routed.targetHost,
      ∀ found ∈ h.matchBackend bstringMatch req.path,
        srv.matchHost bstringMatch req.hostName = some h ∧ t.routed.pattern = some found.pattern

instance (t : Task) (o : Outside) : Decidable (Steady bstringMatch srv lim t o) := by
  unfold Steady
  infer_instance

variable {bstringMatch srv lim} {ping : List Byte → Bool} {o : Outside} {t t' : Task}

@[simp] theorem callAll_cs {σ : Type*} (acts : StateActions σ) (e : Option Event)
    (as : List Action) (x : Exec σ) : (callAll acts e as x).cs = x.cs := by
  induction as generalizing x with
  | nil => rfl
  | cons a as ih => exact ih _

/-- The one way into the state in which a proxied request is handed on. -/
theorem stateExec_proxying {σ : Type*} {acts : StateActions σ} {cs : Cs} {e : Event} {d : σ}
    (h : (stateExec acts cs e d).cs = .proxy .proxying) : cs = .proxy .receiving ∧ e = .reqRecv := by
  have heof : ∀ x : Exec σ, (stateExec.atEof acts e x).cs = x.cs := by
    intro x
    unfold stateExec.atEof
    split
    · exact callAll_cs ..
    · rfl
  rcases cs with c | p | _
  · simp only [stateExec, heof, take] at h
    cases c <;> cases e <;> exact absurd h (by decide)
  · simp only [stateExec] at h
    cases p <;> cases e <;> simp only [proxyMove, heof, take] at h <;>
      first | exact ⟨rfl, rfl⟩ | exact absurd h (by decide)
  · exact absurd h (by simp [stateExec])

theorem proxyReqParse_heard : proxyReqParse bstringMatch lim o t.routed =
    let (rc, c) := t.heard lim o
    let s := { t.routed with session.conn := c }
    if rc ≤ 0 then (.remoteClose, s)
    else if c.req.parser.jsonSent || c.req.parser.socketStarted then
      (.remoteClose, { s with session.conn := c.reply 400 })
    else lightFind bstringMatch s := rfl

/-- What `connection_proxy_req_parse` answers for the request that it read. -/
theorem proxyReqParse_of_next {req : Request} (h : t.next lim o = some req) :
    proxyReqParse bstringMatch lim o t.routed =
      lightFind bstringMatch { t.routed with session.conn := (t.heard lim o).2 } ∧
    (t.heard lim o).2.req = req := by
  rw [proxyReqParse_heard]
  unfold Task.next at h
  generalize t.heard lim o = x at *
  obtain ⟨rc, c⟩ := x
  dsimp only at *
  split at h
  case isTrue hok =>
    refine ⟨?_, Option.some.inj h⟩
    rw [if_neg (by omega), hok.2.1, hok.2.2]
    rfl
  case isFalse => exact absurd h (by simp)

theorem proxyReqParse_of_next_eq_none (h : t.next lim o = none) :
    (proxyReqParse bstringMatch lim o t.routed).1 = .remoteClose := by
  rw [proxyReqParse_heard]
  unfold Task.next at h
  generalize t.heard lim o = x at *
  obtain ⟨rc, c⟩ := x
  dsimp only at *
  split
  · rfl
  split
  · rfl
  · rename_i hrc hhttp
    rw [Bool.or_eq_true, not_or, Bool.not_eq_true, Bool.not_eq_true] at hhttp
    rw [if_pos ⟨by omega, hhttp⟩] at h
    exact absurd h (by simp)

/-- **One request behind the proxy** is handed on as it should be exactly if it is for
the host and the pattern that are in force. -/
theorem agrees_proxyReqParse (hcs : t.cs = .proxy .receiving) (he : t.event = some .reqRecv) :
    Agrees bstringMatch srv ⟨.proxy .proxying, some (proxyReqParse bstringMatch lim o t.routed).1,
      (proxyReqParse bstringMatch lim o t.routed).2⟩ ↔ Steady bstringMatch srv lim t o := by
  have hagrees : ∀ e s, Agrees bstringMatch srv ⟨.proxy .proxying, some e, s⟩ ↔
      (Dispatches e → ∃ d ∈ srv.route bstringMatch s.session.conn.req, s.InForce d) := by
    intro e s
    exact ⟨fun h => h rfl e rfl, fun h _ e' he' => Option.some.inj he' ▸ h⟩
  have hsteady : Steady bstringMatch srv lim t o ↔
      ∀ req ∈ t.next lim o, ∀ h ∈ t.routed.targetHost, ∀ found ∈ h.matchBackend bstringMatch req.path,
        srv.matchHost bstringMatch req.hostName = some h ∧
          t.routed.pattern = some found.pattern :=
    ⟨fun h => h hcs he, fun h _ _ => h⟩
  rw [hagrees, hsteady]
  rcases hnext : t.next lim o with _ | req
  · rw [proxyReqParse_of_next_eq_none hnext]
    exact iff_of_true (fun h => absurd h (by decide)) (by simp)
  obtain ⟨hparse, hreq⟩ := @proxyReqParse_of_next bstringMatch lim o t req hnext
  rw [hparse, lightFind_eq, hreq]
  rcases htarget : t.routed.targetHost with _ | host
  · exact iff_of_true (fun h => absurd h not_dispatches_remoteClose) (by simp)
  simp only [Option.bind_some]
  rcases hfound : host.matchBackend bstringMatch req.path with _ | found
  · exact iff_of_true (fun h => absurd h not_dispatches_remoteClose) (by simp [hfound])
  have hdispatches : Dispatches
      (if some found.data = t.routed.action then .httpReq else found.data.type.event) := by
    split
    · exact .inl rfl
    · exact dispatches_event _
  constructor
  · intro h
    obtain ⟨d, hroute, hhost, haction, hpattern⟩ := h hdispatches
    rw [hreq] at hroute
    obtain ⟨hmatch, found', hfound', -, hpat⟩ := Server.route_eq_some.mp hroute
    obtain rfl : host = d.host := Option.some.inj hhost
    obtain rfl : found = found' := Option.some.inj (hfound.symm.trans hfound')
    intro req' hreq' h' hh' r hr
    obtain rfl := Option.some.inj hreq'
    obtain rfl := Option.some.inj hh'
    obtain rfl := Option.some.inj (hfound.symm.trans hr)
    exact ⟨hmatch, hpat ▸ hpattern⟩
  · intro h _
    obtain ⟨hmatch, hpattern⟩ := h req rfl host rfl found hfound
    refine ⟨⟨host, found.data, found.pattern⟩, ?_, rfl, rfl, hpattern⟩
    rw [Option.mem_def, hreq]
    exact Server.route_eq_some.mpr ⟨hmatch, found, hfound, rfl, rfl⟩

variable (bstringMatch srv lim ping)

/-- **Requests behind a proxy are routed as all others**, on every run of a connection,
exactly if each of them that is handed on selects the host that is in force and, there,
a route with the pattern that is in force. -/
theorem agrees_iff_steady (c : Conn) (run : List Outside) :
    Runs.Always (step bstringMatch srv lim ping) (Agrees bstringMatch srv) (.start c) run ↔
      Runs.Along (step bstringMatch srv lim ping) (Steady bstringMatch srv lim) (.start c) run := by
  refine Runs.always_iff_along ?_ ?_ ?_ run
  · -- a step that is not steady reads a request behind the proxy
    intro t o _ hsteady
    unfold Steady at hsteady
    have hevent : t.event = some .reqRecv := by
      by_contra hne
      exact hsteady fun _ he => absurd he hne
    unfold step
    rw [hevent]
    exact ⟨_, rfl⟩
  · rintro ⟨cs, event, s⟩ o t' _ hstep
    rcases event with _ | e
    · exact absurd hstep (by simp [step])
    obtain rfl := Option.some.inj hstep
    by_cases hnow : cs = .proxy .receiving ∧ e = .reqRecv
    · obtain ⟨rfl, rfl⟩ := hnow
      exact @agrees_proxyReqParse bstringMatch srv lim o ⟨.proxy .receiving, some .reqRecv, s⟩ rfl rfl
    · refine iff_of_true (fun hcs => absurd (stateExec_proxying hcs) hnow) fun hcs he => ?_
      exact absurd ⟨hcs, Option.some.inj he⟩ hnow
  · intro hcs
    exact absurd hcs (by simp [Task.start])

end

/-! ### A second request for another host -/

/-- A request for the one host and one for the other. -/
def getOne : Exchange where
  header := bytes "GET / HTTP/1.1\r\nHost: one.org\r\n\r\n"
  body := []
  cuts := [100]
  isHeader _ := ⟨rfl, rfl⟩
  isHttp _ := ⟨rfl, rfl⟩

def getTwo : Exchange where
  header := bytes "GET / HTTP/1.1\r\nHost: two.net\r\n\r\n"
  body := []
  cuts := [100]
  isHeader _ := ⟨rfl, rfl⟩
  isHttp _ := ⟨rfl, rfl⟩

/-- Two hosts, each with a proxy of its own for all of its paths. -/
def twoHosts : Option Server := do
  let one ← (Host.create (bytes "one.org")).addBackend (bytes "/") ⟨1, .proxy, 10⟩
  let two ← (Host.create (bytes "two.net")).addBackend (bytes "/") ⟨2, .proxy, 20⟩
  let srv ← (Server.create (bytes "one.org")).addHost (bytes "one.org") one
  srv.addHost (bytes "two.net") two

/-- The connection is accepted, the first request goes to its proxy and is answered,
and the second is read. -/
def secondHost (second : Exchange) : List Outside :=
  let quiet : Outside := ⟨none, none, false, goodEnv, true, fun _ => true, true⟩
  [quiet, { quiet with request := some getOne }, quiet, quiet, quiet, quiet, quiet,
    { quiet with request := some second }]

-- a second request for the first host is sent to its proxy
example : ∃ srv ∈ twoHosts, ∃ t ∈ Runs.exec (step (fun s p => s == p) srv defaultLimits fun _ => false)
    (.start freshConn) (secondHost getOne), t.cs = .proxy .proxying ∧ t.event = some .httpReq := by
  decide

/-- The request for the second host is handed on to the first one. -/
theorem not_agrees_second_host :
    ∃ srv ∈ twoHosts, ¬ Runs.Always (step (fun s p => s == p) srv defaultLimits fun _ => false)
      (Agrees (fun s p => s == p) srv) (.start freshConn) (secondHost getTwo) := by
  decide

end Routing

end Mongrel2

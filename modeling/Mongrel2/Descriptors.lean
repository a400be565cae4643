/-
Who closes whose descriptor.

The acceptor, the connection tasks, the handler tasks and the control port all
name a connection by its descriptor number, and the kernel hands a number out
again as soon as it is closed.  The tasks are cooperative, so every step below
is what one of them does between two switches.

* `step` — the system: one step of any task, in any order;
* `Inv` — what holds as long as numbers are handed out only when no task still
  refers to them;
* `ownOnly_of_unheld` — then every close hits only the connection it is made
  for; and a number handed out any earlier is closed under its new connection
  by one further step.

Design notes: connections are numbered in the order they are accepted.  The
fields `regOwner`, `issued` and `hits` are history: the program does not have
them.  A close made for a handler's message or for the control port is made for
the connection that got the id last.  `proxyFd` is 0 for both 0 and -1, and a
failing `netdial` is a `dial` followed by a `proxyClose`.
-/
import Mongrel2.Register

namespace Mongrel2

namespace Descriptors

open Register Registers

/-- A connection, by the number of connections accepted before it. -/
abbrev ConnId := ℕ

/-- The part of a `Connection` that names descriptors, and whether its task is
still to run `close_or_error`. -/
structure Conn where
  fd : Fd
  proxyFd : Fd
  running : Bool
  deriving DecidableEq, Repr

/-- A descriptor closed or a registration cleared: who the call was made for,
and whose it was. -/
structure Hit where
  behalf : Option ConnId
  victim : ConnId
  deriving DecidableEq, Repr

structure World where
  regs : Registers
  /-- the connection that has the number open, as its client or backend socket -/
  owner : Fd → Option ConnId
  conns : List Conn
  /-- the connection that made the last registration under the number -/
  regOwner : Fd → Option ConnId
  /-- the connection that got the id last -/
  issued : Id → Option ConnId
  /-- the suspended sends of handler tasks -/
  sends : List (Fd × Option ConnId)
  hits : List Hit

namespace World

variable (w : World)

/-- Nothing accepted yet, after `Register_init`. -/
def start : World :=
  ⟨statics.init, fun _ => none, [], fun _ => none, fun _ => none, [], []⟩

/-- `fdclose` of `fd`, called on behalf of `b`. -/
def fdclose (b : Option ConnId) (fd : Fd) : World :=
  { w with
    owner := Function.update w.owner fd none
    hits := w.hits ++ (w.owner fd).toList.map (⟨b, ·⟩) }

/-- `Register_disconnect`, called on behalf of `b`.  The descriptor is closed
whether or not there was a registration to clear. -/
def disconnect (b : Option ConnId) (fd : Fd) : Option Id × World :=
  let (rc, regs) := w.regs.disconnect fd
  let cleared := if w.regs.Live fd then (w.regOwner fd).toList else []
  (rc, fdclose { w with regs := regs, hits := w.hits ++ cleared.map (⟨b, ·⟩) } b fd)

/-- `ident_and_register` of connection `c`. -/
def register (c : ConnId) (fd : Fd) (t : ConnType) (now : UInt32) : World :=
  let (id, regs) := w.regs.connect fd t now
  { w with
    regs := regs
    regOwner := Function.update w.regOwner fd (some c)
    issued := Function.update w.issued id (some c) }

/-- Replace the record of connection `c`. -/
def setConn (c : ConnId) (conn : Conn) : World := { w with conns := w.conns.set c conn }

/-- `netaccept`, `Connection_create` and `Connection_accept`. -/
def accept (fd : Fd) : World :=
  { w with
    owner := Function.update w.owner fd (some w.conns.length)
    conns := w.conns ++ [⟨fd, 0, true⟩] }

/-- `netdial` of connection `c`. -/
def dial (c : ConnId) (conn : Conn) (fd : Fd) : World :=
  { w with owner := Function.update w.owner fd (some c) }.setConn c { conn with proxyFd := fd }

/-- `connection_proxy_close`. -/
def proxyClose (c : ConnId) (conn : Conn) : World :=
  (w.fdclose (some c) conn.proxyFd).setConn c { conn with proxyFd := 0 }

/-- `close_or_error`, the last thing the task of `c` does with a descriptor. -/
def closeOrError (c : ConnId) (conn : Conn) : World :=
  let w := if conn.proxyFd ≠ 0 then w.proxyClose c conn else w
  (w.disconnect (some c) conn.fd).2.setConn c { conn with proxyFd := 0, running := false }

/-- `handler_process_request` on a body of length 0. -/
def processClose (id : Id) : World :=
  match target w.regs id with
  | none => w
  | some fd =>
    match w.disconnect (w.issued id) fd with
    | (some _, w') => w'
    | (none, w') => (w'.disconnect (w.issued id) fd).2

/-- `handler_process_request` on a longer body, up to where `fdsend` may
switch. -/
def processDeliver (id : Id) : World :=
  match target w.regs id with
  | none => w
  | some fd => { w with sends := (fd, w.issued id) :: w.sends }

/-- The `kill` action of the control port. -/
def kill (id : Id) : World :=
  if w.regs.fdForId id ≠ 0 then w.fdclose (w.issued id) (w.regs.fdForId id) else w

end World

open World

/-- What a task does between two switches. -/
inductive Act
  | accept (fd : Fd)
  | register (c : ConnId) (t : ConnType) (now : UInt32)
  | ping (c : ConnId) (now : UInt32)
  | dial (c : ConnId) (fd : Fd)
  | proxyClose (c : ConnId)
  | closeOrError (c : ConnId)
  | processClose (id : Id)
  | processDeliver (id : Id)
  | sent (k : ℕ)
  | sendFailed (k : ℕ)
  | kill (id : Id)
  deriving DecidableEq, Repr

/-- The connection `c`, if its task is still to run `close_or_error`. -/
def World.running? (w : World) (c : ConnId) : Option Conn :=
  (w.conns[c]?).filter (·.running)

/-- One step.  The kernel hands out any number that is not open. -/
def step (w : World) : Act → Option World
  | .accept fd => if w.owner fd = none then some (w.accept fd) else none
  | .register c t now => (w.running? c).map fun conn => w.register c conn.fd t now
  | .ping c now =>
    (w.running? c).map fun conn => { w with regs := (w.regs.ping conn.fd now).2 }
  | .dial c fd =>
    if w.owner fd = none then (w.running? c).map fun conn => w.dial c conn fd else none
  | .proxyClose c => (w.running? c).map fun conn => w.proxyClose c conn
  | .closeOrError c => (w.running? c).map fun conn => w.closeOrError c conn
  | .processClose id => some (w.processClose id)
  | .processDeliver id => some (w.processDeliver id)
  | .sent k => (w.sends[k]?).map fun _ => { w with sends := w.sends.eraseIdx k }
  | .sendFailed k =>
    (w.sends[k]?).map fun (fd, b) =>
      (({ w with sends := w.sends.eraseIdx k } : World).disconnect b fd).2
  | .kill id => some (w.kill id)

/-- Every close so far hit only the connection it was made for. -/
def OwnOnly (w : World) : Prop := ∀ h ∈ w.hits, h.behalf = some h.victim

/-- A task still names a descriptor by the number `fd`, for `b`: the running
task of a connection, or a handler task in the middle of a send. -/
def Refers (w : World) (fd : Fd) (b : Option ConnId) : Prop :=
  (∃ c conn, w.running? c = some conn ∧ b = some c ∧
    (conn.fd = fd ∨ conn.proxyFd = fd ∧ fd ≠ 0)) ∨
  (fd, b) ∈ w.sends

theorem not_refers_of_stopped {w : World} {fd : Fd} {b : Option ConnId}
    (hconns : ∀ conn ∈ w.conns, conn.running = false) (hsends : w.sends = []) :
    ¬ Refers w fd b := by
  rintro (⟨c, conn, hc, -⟩ | hr)
  · obtain ⟨hc, hrun⟩ := Option.filter_eq_some_iff.mp hc
    rw [hconns conn (List.mem_of_getElem? hc)] at hrun
    exact absurd hrun (by simp)
  · rw [hsends] at hr
    exact absurd hr (by simp)

/-- A number is handed out only when no task still refers to it, and it is not
the 0 that doubles as no descriptor.  A connection may get a number back that
only its own task still refers to. -/
def Unheld (w : World) : Act → Prop
  | .accept fd => fd ≠ 0 ∧ ∀ b, ¬ Refers w fd b
  | .dial c fd => fd ≠ 0 ∧ ∀ b, Refers w fd b → b = some c
  | _ => True

/-- What the numbers a task refers to mean while none is handed out early. -/
structure Inv (w : World) : Prop where
  back : Back w.regs
  named : ∀ id, w.regs.fdForId id ≠ 0 → w.regOwner (w.regs.fdForId id) = w.issued id
  live : ∀ fd, w.regs.Live fd →
    ∃ c conn, w.running? c = some conn ∧ conn.fd = fd ∧ w.regOwner fd = some c
  zero : w.owner 0 = none
  nonzero : ∀ c conn, w.running? c = some conn → conn.fd ≠ 0
  unique : ∀ fd a b, Refers w fd a → Refers w fd b → a = b
  owned : ∀ fd a d, Refers w fd a → w.owner fd = some d → a = some d
  known : ∀ fd c, Refers w fd (some c) → c < w.conns.length
  ownOnly : OwnOnly w

/-! ### Which connections run -/

theorem running?_eq_some {w : World} {c : ConnId} {conn : Conn} :
    w.running? c = some conn ↔ w.conns[c]? = some conn ∧ conn.running = true := by
  simp only [World.running?, Option.filter_eq_some_iff]

theorem running?_setConn {w : World} {c c' : ConnId} {conn conn' : Conn}
    (h : w.running? c = some conn) :
    (w.setConn c conn').running? c' =
      if c' = c then (if conn'.running then some conn' else none) else w.running? c' := by
  have hlt : c < w.conns.length := (List.getElem?_eq_some_iff.mp (running?_eq_some.mp h).1).1
  simp only [World.running?, World.setConn, List.getElem?_set, hlt]
  by_cases hc : c = c'
  · subst hc
    simp [Option.filter]
  · simp [hc, Ne.symm hc]

theorem running?_accept {w : World} {fd : Fd} {c : ConnId} {conn : Conn}
    (h : (w.accept fd).running? c = some conn) :
    c = w.conns.length ∧ conn = ⟨fd, 0, true⟩ ∨ w.running? c = some conn := by
  obtain ⟨hc, hrun⟩ := running?_eq_some.mp h
  rw [World.accept, List.getElem?_append] at hc
  split at hc
  · exact .inr (running?_eq_some.mpr ⟨hc, hrun⟩)
  · obtain ⟨hlt, hc⟩ := List.getElem?_eq_some_iff.mp hc
    rw [List.length_singleton] at hlt
    refine .inl ⟨?_, ?_⟩
    · change @Eq ℕ c w.conns.length
      omega
    · rw [← hc, List.getElem_singleton]

theorem running?_accept_of_running? {w : World} {fd : Fd} {c : ConnId} {conn : Conn}
    (h : w.running? c = some conn) : (w.accept fd).running? c = some conn := by
  obtain ⟨hc, hrun⟩ := running?_eq_some.mp h
  have hlt : c < w.conns.length := (List.getElem?_eq_some_iff.mp hc).1
  exact running?_eq_some.mpr ⟨by rw [World.accept, List.getElem?_append_left hlt, hc], hrun⟩

/-! ### What each step keeps -/

section steps

variable {w : World}

theorem inv_start : Inv start where
  back := back_init _
  named := fun id hne => absurd (fdForId_init _ id) hne
  live := fun fd hl => absurd hl (not_live_init _ fd)
  zero := rfl
  nonzero := fun c conn h => by simp [start, World.running?] at h
  unique := fun fd a b ha => by simp [Refers, start, World.running?] at ha
  owned := fun fd a d ha => by simp [Refers, start, World.running?] at ha
  known := fun fd c ha => by simp [Refers, start, World.running?] at ha
  ownOnly := fun h hmem => by simp [start] at hmem

theorem ownOnly_append {b : Option ConnId} {victims : Option ConnId} (h : OwnOnly w)
    (hb : ∀ d, victims = some d → b = some d) :
    ∀ x ∈ w.hits ++ victims.toList.map (⟨b, ·⟩), x.behalf = some x.victim := by
  intro x hx
  rcases List.mem_append.mp hx with hx | hx
  · exact h x hx
  · obtain ⟨d, hd, rfl⟩ := List.mem_map.mp hx
    exact hb d (Option.mem_toList.mp hd)

theorem Inv.fdclose (h : Inv w) {b : Option ConnId} {fd : Fd}
    (hb : ∀ d, w.owner fd = some d → b = some d) : Inv (w.fdclose b fd) where
  back := h.back
  named := h.named
  live := h.live
  zero := by
    by_cases hz : 0 = fd
    · simp [World.fdclose, hz]
    · simpa [World.fdclose, hz] using h.zero
  nonzero := h.nonzero
  unique := h.unique
  owned := fun gd a d ha hd => by
    by_cases hg : gd = fd
    · simp [World.fdclose, hg] at hd
    · exact h.owned gd a d ha (by simpa [World.fdclose, hg] using hd)
  known := h.known
  ownOnly := ownOnly_append h.ownOnly hb

theorem Inv.disconnect (h : Inv w) {b : Option ConnId} {fd : Fd}
    (hb : ∀ d, w.owner fd = some d → b = some d)
    (hr : w.regs.Live fd → ∀ d, w.regOwner fd = some d → b = some d) :
    Inv (w.disconnect b fd).2 := by
  refine Inv.fdclose ?_ hb
  exact {
    back := back_disconnect h.back fd
    named := fun id hne => by
      have hne : (w.regs.disconnect fd).2.fdForId id ≠ 0 := hne
      change w.regOwner ((w.regs.disconnect fd).2.fdForId id) = w.issued id
      rw [fdForId_disconnect] at hne ⊢
      by_cases hcl : w.regs.Live fd ∧ id = w.regs.idForFd fd
      · exact absurd (if_pos hcl) hne
      · rw [if_neg hcl] at hne ⊢
        exact h.named id hne
    live := fun gd hl => h.live gd ((live_disconnect ..).mp hl).2
    zero := h.zero
    nonzero := h.nonzero
    unique := h.unique
    owned := h.owned
    known := h.known
    ownOnly := by
      by_cases hl : w.regs.Live fd
      · simp only [if_pos hl]
        exact ownOnly_append h.ownOnly (hr hl)
      · simp only [if_neg hl]
        exact @ownOnly_append _ b none h.ownOnly (by simp) }

/-- Who refers to a registered number is the connection that registered it. -/
theorem Inv.regOwner_eq (h : Inv w) {fd : Fd} {b : Option ConnId} (hr : Refers w fd b)
    (hl : w.regs.Live fd) : w.regOwner fd = b := by
  obtain ⟨c, conn, hc, hfd, ho⟩ := h.live fd hl
  rw [ho]
  exact h.unique fd _ _ (.inl ⟨c, conn, hc, rfl, .inl hfd⟩) hr

theorem Inv.disconnect_of_refers (h : Inv w) {b : Option ConnId} {fd : Fd}
    (hr : Refers w fd b) : Inv (w.disconnect b fd).2 :=
  h.disconnect (fun d hd => h.owned fd b d hr hd)
    fun hl d hd => by rw [← h.regOwner_eq hr hl, hd]

/-- The connection that an id was last issued to refers to the number found for
the id. -/
theorem Inv.refers_issued (h : Inv w) {id : Id} (hl : w.regs.Live (w.regs.fdForId id)) :
    Refers w (w.regs.fdForId id) (w.issued id) := by
  obtain ⟨c, conn, hc, hfd, ho⟩ := h.live _ hl
  have hne : w.regs.fdForId id ≠ 0 := hfd ▸ h.nonzero c conn hc
  rw [← h.named id hne, ho]
  exact .inl ⟨c, conn, hc, rfl, .inl hfd⟩

theorem Inv.processClose (h : Inv w) (id : Id) : Inv (w.processClose id) := by
  unfold World.processClose
  split
  case h_1 => exact h
  case h_2 fd ht =>
    obtain ⟨rfl, hl⟩ := target_eq_some.mp ht
    have hinv := h.disconnect_of_refers (h.refers_issued hl)
    split
    case h_1 id' w' hd =>
      rw [hd] at hinv
      exact hinv
    case h_2 w' hd =>
      -- the registration was there, so the first call did not fail
      have hsome : (w.regs.disconnect (w.regs.fdForId id)).1.isSome := (disconnect_isSome ..).mpr hl
      have hnone : (w.regs.disconnect (w.regs.fdForId id)).1 = none := congrArg Prod.fst hd
      rw [hnone] at hsome
      exact absurd hsome (by simp)

theorem Inv.kill (h : Inv w) (id : Id) : Inv (w.kill id) := by
  unfold World.kill
  split
  case isTrue hne =>
    have hr := h.refers_issued (h.back id hne).1
    exact h.fdclose fun d hd => h.owned _ _ d hr hd
  case isFalse => exact h

/-- Fewer suspended sends. -/
theorem Inv.sends (h : Inv w) {sends : List (Fd × Option ConnId)}
    (hsub : ∀ x ∈ sends, x ∈ w.sends) : Inv { w with sends := sends } :=
  have href : ∀ {fd b}, Refers { w with sends := sends } fd b → Refers w fd b :=
    fun hr => hr.imp id (hsub _)
  { h with
    unique := fun fd a b ha hb => h.unique fd a b (href ha) (href hb)
    owned := fun fd a d ha hd => h.owned fd a d (href ha) hd
    known := fun fd c ha => h.known fd c (href ha) }

theorem Inv.processDeliver (h : Inv w) (id : Id) : Inv (w.processDeliver id) := by
  unfold World.processDeliver
  split
  case h_1 => exact h
  case h_2 fd ht =>
    obtain ⟨rfl, hl⟩ := target_eq_some.mp ht
    -- the new entry refers to nothing that was not referred to before
    have href : ∀ {gd b}, Refers { w with
        sends := (w.regs.fdForId id, w.issued id) :: w.sends } gd b → Refers w gd b := by
      rintro gd b (hr | hr)
      · exact .inl hr
      · rcases List.mem_cons.mp hr with heq | hr
        · obtain ⟨rfl, rfl⟩ := Prod.mk.inj heq
          exact h.refers_issued hl
        · exact .inr hr
    exact { h with
      unique := fun fd a b ha hb => h.unique fd a b (href ha) (href hb)
      owned := fun fd a d ha hd => h.owned fd a d (href ha) hd
      known := fun fd c ha => h.known fd c (href ha) }

theorem Inv.sendFailed (h : Inv w) {k : ℕ} {fd : Fd} {b : Option ConnId}
    (hk : w.sends[k]? = some (fd, b)) :
    Inv (({ w with sends := w.sends.eraseIdx k } : World).disconnect b fd).2 := by
  have hr : Refers w fd b := .inr (List.mem_of_getElem? hk)
  refine (h.sends fun x hx => List.mem_of_mem_eraseIdx hx).disconnect ?_ ?_
  · exact fun d hd => h.owned fd b d hr hd
  · exact fun hl d hd => by rw [← h.regOwner_eq hr hl, ← hd]

theorem Inv.ping (h : Inv w) (fd : Fd) (now : UInt32) :
    Inv { w with regs := (w.regs.ping fd now).2 } :=
  { h with
    back := back_ping h.back fd now
    named := fun id hne => by
      have hne : (w.regs.ping fd now).2.fdForId id ≠ 0 := hne
      change w.regOwner ((w.regs.ping fd now).2.fdForId id) = w.issued id
      rw [fdForId_ping] at hne ⊢
      exact h.named id hne
    live := fun gd hl => h.live gd ((live_ping ..).mp hl) }

theorem Inv.register (h : Inv w) {c : ConnId} {conn : Conn} (hc : w.running? c = some conn)
    (t : ConnType) (now : UInt32) : Inv (w.register c conn.fd t now) :=
  { h with
    back := back_connect h.back conn.fd t now
    named := fun id hne => by
      have hne : (w.regs.connect conn.fd t now).2.fdForId id ≠ 0 := hne
      change Function.update w.regOwner conn.fd (some c)
        ((w.regs.connect conn.fd t now).2.fdForId id) =
          Function.update w.issued (w.regs.connect conn.fd t now).1 (some c) id
      rw [fdForId_connect] at hne
      rw [connect_fst, fdForId_connect]
      by_cases hid : id = w.regs.regCount
      · rw [if_pos hid, hid, Function.update_self, Function.update_self]
      · rw [if_neg hid] at hne ⊢
        by_cases hcl : w.regs.Live conn.fd ∧ id = w.regs.idForFd conn.fd
        · exact absurd (if_pos hcl) hne
        · rw [if_neg hcl] at hne ⊢
          -- an id found under `conn.fd` was the one cleared
          obtain ⟨hl, hback⟩ := h.back id hne
          have hfd : w.regs.fdForId id ≠ conn.fd := fun heq => hcl ⟨heq ▸ hl, heq ▸ hback.symm⟩
          rw [Function.update_of_ne hfd, Function.update_of_ne hid]
          exact h.named id hne
    live := fun gd hl => by
      change ∃ c' conn', w.running? c' = some conn' ∧ conn'.fd = gd ∧
        Function.update w.regOwner conn.fd (some c) gd = some c'
      by_cases hg : gd = conn.fd
      · exact ⟨c, conn, hc, hg.symm, by rw [hg, Function.update_self]⟩
      · obtain ⟨c', conn', hc', hfd, ho⟩ := h.live gd (((live_connect ..).mp hl).resolve_left hg)
        exact ⟨c', conn', hc', hfd, by rw [Function.update_of_ne hg, ho]⟩ }

theorem refers_accept {fd gd : Fd} {b : Option ConnId} (hr : Refers (w.accept fd) gd b) :
    gd = fd ∧ b = some w.conns.length ∨ Refers w gd b := by
  rcases hr with ⟨c, conn, hc, hb, hfd⟩ | hr
  · rcases running?_accept hc with ⟨rfl, rfl⟩ | hc
    · rcases hfd with rfl | ⟨rfl, hne⟩
      · exact .inl ⟨rfl, hb⟩
      · exact absurd rfl hne
    · exact .inr (.inl ⟨c, conn, hc, hb, hfd⟩)
  · exact .inr (.inr hr)

theorem Inv.accept (h : Inv w) {fd : Fd} (hok : Unheld w (.accept fd)) : Inv (w.accept fd) where
  back := h.back
  named := h.named
  live := fun gd hl => by
    obtain ⟨c, conn, hc, hfd, ho⟩ := h.live gd hl
    exact ⟨c, conn, running?_accept_of_running? hc, hfd, ho⟩
  zero := by
    change Function.update w.owner fd _ 0 = none
    rw [Function.update_of_ne (Ne.symm hok.1), h.zero]
  nonzero := fun c conn hc => by
    rcases running?_accept hc with ⟨-, rfl⟩ | hc
    · exact hok.1
    · exact h.nonzero c conn hc
  unique := fun gd a b ha hb => by
    rcases refers_accept ha with ⟨rfl, rfl⟩ | ha <;> rcases refers_accept hb with ⟨hg, rfl⟩ | hb
    · rfl
    · exact absurd hb (hok.2 b)
    · exact absurd (hg ▸ ha) (hok.2 a)
    · exact h.unique gd a b ha hb
  owned := fun gd a d ha hd => by
    have hd : Function.update w.owner fd (some w.conns.length) gd = some d := hd
    rcases refers_accept ha with ⟨rfl, rfl⟩ | ha
    · rwa [Function.update_self] at hd
    · have hg : gd ≠ fd := fun heq => hok.2 a (heq ▸ ha)
      rw [Function.update_of_ne hg] at hd
      exact h.owned gd a d ha hd
  known := fun gd c hc => by
    have hlen : (w.accept fd).conns.length = w.conns.length + 1 := List.length_append
    rw [hlen]
    rcases refers_accept hc with ⟨-, heq⟩ | hc
    · exact Nat.lt_succ_of_le (Option.some.inj heq).le
    · exact Nat.lt_succ_of_lt (h.known gd c hc)
  ownOnly := h.ownOnly

/-- A running connection's record is replaced by one that refers to no more. -/
theorem Inv.setConn (h : Inv w) {c : ConnId} {conn conn' : Conn}
    (hc : w.running? c = some conn) (hfd : conn'.fd = conn.fd)
    (hproxy : conn'.proxyFd = conn.proxyFd ∨ conn'.proxyFd = 0)
    (hrun : conn'.running = true ∨ ¬ w.regs.Live conn.fd) : Inv (w.setConn c conn') :=
  have href : ∀ {gd b}, Refers (w.setConn c conn') gd b → Refers w gd b := by
    rintro gd b (⟨d, connd, hd, hb, hr⟩ | hr)
    · rw [running?_setConn hc] at hd
      by_cases hcd : d = c
      · rw [if_pos hcd] at hd
        split at hd
        · obtain rfl := Option.some.inj hd
          refine .inl ⟨d, conn, hcd ▸ hc, hb, ?_⟩
          rcases hr with rfl | ⟨rfl, hne⟩
          · exact .inl hfd.symm
          · rcases hproxy with heq | heq
            · exact .inr ⟨heq.symm, hne⟩
            · exact absurd heq hne
        · exact absurd hd (by simp)
      · rw [if_neg hcd] at hd
        exact .inl ⟨d, connd, hd, hb, hr⟩
    · exact .inr hr
  { h with
    live := fun gd hl => by
      obtain ⟨d, connd, hd, hdfd, ho⟩ := h.live gd hl
      by_cases hcd : d = c
      · obtain rfl := Option.some.inj (hc.symm.trans (hcd ▸ hd))
        have hrun : conn'.running = true := hrun.resolve_right fun hn => hn (hdfd ▸ hl)
        exact ⟨d, conn', by rw [running?_setConn hc, if_pos hcd, if_pos hrun], hfd.trans hdfd, ho⟩
      · exact ⟨d, connd, by rw [running?_setConn hc, if_neg hcd, hd], hdfd, ho⟩
    nonzero := fun d connd hd => by
      rw [running?_setConn hc] at hd
      by_cases hcd : d = c
      · rw [if_pos hcd] at hd
        split at hd
        · obtain rfl := Option.some.inj hd
          exact hfd ▸ h.nonzero c conn hc
        · exact absurd hd (by simp)
      · rw [if_neg hcd] at hd
        exact h.nonzero d connd hd
    unique := fun gd a b ha hb => h.unique gd a b (href ha) (href hb)
    owned := fun gd a d ha hd => h.owned gd a d (href ha) hd
    known := fun gd d hd => by
      rw [World.setConn, List.length_set]
      exact h.known gd d (href hd) }

theorem Inv.proxyClose (h : Inv w) {c : ConnId} {conn : Conn} (hc : w.running? c = some conn) :
    Inv (w.proxyClose c conn) := by
  refine (h.fdclose fun d hd => ?_).setConn hc rfl (.inr rfl) ?_
  · by_cases hz : conn.proxyFd = 0
    · rw [hz, h.zero] at hd
      exact absurd hd (by simp)
    · exact h.owned _ _ d (.inl ⟨c, conn, hc, rfl, .inr ⟨rfl, hz⟩⟩) hd
  · exact .inl (running?_eq_some.mp hc).2

theorem Inv.closeOrError (h : Inv w) {c : ConnId} {conn : Conn}
    (hc : w.running? c = some conn) : Inv (w.closeOrError c conn) := by
  -- the record after the backend's descriptor is closed, if it is
  obtain ⟨w₁, conn₁, hw₁, hinv, hc₁, hfd⟩ : ∃ w₁ conn₁,
      w₁ = (if conn.proxyFd ≠ 0 then w.proxyClose c conn else w) ∧ Inv w₁ ∧
        w₁.running? c = some conn₁ ∧ conn₁.fd = conn.fd := by
    by_cases hz : conn.proxyFd ≠ 0
    · refine ⟨_, { conn with proxyFd := 0 }, (if_pos hz).symm, h.proxyClose hc, ?_, rfl⟩
      have hrun : conn.running = true := (running?_eq_some.mp hc).2
      have hc' : (w.fdclose (some c) conn.proxyFd).running? c = some conn := hc
      rw [World.proxyClose, running?_setConn hc', if_pos rfl, if_pos hrun]
    · exact ⟨_, conn, (if_neg hz).symm, h, hc, rfl⟩
  have hr : Refers w₁ conn.fd (some c) := .inl ⟨c, conn₁, hc₁, rfl, .inl hfd⟩
  have hlive : ¬ (w₁.disconnect (some c) conn.fd).2.regs.Live conn₁.fd := fun hl =>
    ((live_disconnect ..).mp hl).1 hfd
  rw [World.closeOrError, ← hw₁]
  exact (hinv.disconnect_of_refers hr).setConn hc₁ hfd.symm (.inr rfl) (.inr hlive)

theorem refers_dial {c : ConnId} {conn : Conn} {fd gd : Fd} {b : Option ConnId}
    (hc : w.running? c = some conn) (hr : Refers (w.dial c conn fd) gd b) :
    gd = fd ∧ b = some c ∨ Refers w gd b := by
  rcases hr with ⟨d, connd, hd, hb, hr⟩ | hr
  · have hc' : ({ w with owner := Function.update w.owner fd (some c) } : World).running? c =
      some conn := hc
    rw [World.dial, running?_setConn hc'] at hd
    by_cases hcd : d = c
    · rw [if_pos hcd, if_pos (running?_eq_some.mp hc).2, Option.some_inj] at hd
      subst hd hcd
      rcases hr with rfl | ⟨rfl, -⟩
      · exact .inr (.inl ⟨d, conn, hc, hb, .inl rfl⟩)
      · exact .inl ⟨rfl, hb⟩
    · rw [if_neg hcd] at hd
      exact .inr (.inl ⟨d, connd, hd, hb, hr⟩)
  · exact .inr (.inr hr)

theorem Inv.dial (h : Inv w) {c : ConnId} {conn : Conn} {fd : Fd}
    (hc : w.running? c = some conn) (hok : Unheld w (.dial c fd)) : Inv (w.dial c conn fd) := by
  have hrun : conn.running = true := (running?_eq_some.mp hc).2
  have hc' : ({ w with owner := Function.update w.owner fd (some c) } : World).running? c =
    some conn := hc
  have hrunning : ∀ d connd, (w.dial c conn fd).running? d = some connd →
      ∃ connd', w.running? d = some connd' ∧ connd'.fd = connd.fd := by
    intro d connd hd
    rw [World.dial, running?_setConn hc'] at hd
    by_cases hcd : d = c
    · rw [if_pos hcd, if_pos hrun, Option.some_inj] at hd
      exact ⟨conn, hcd ▸ hc, hd ▸ rfl⟩
    · rw [if_neg hcd] at hd
      exact ⟨connd, hd, rfl⟩
  exact {
    back := h.back
    named := h.named
    live := fun gd hl => by
      obtain ⟨d, connd, hd, hdfd, ho⟩ := h.live gd hl
      by_cases hcd : d = c
      · obtain rfl := Option.some.inj (hc.symm.trans (hcd ▸ hd))
        refine ⟨d, { conn with proxyFd := fd }, ?_, hdfd, ho⟩
        rw [World.dial, running?_setConn hc', if_pos hcd, if_pos hrun]
      · refine ⟨d, connd, ?_, hdfd, ho⟩
        rw [World.dial, running?_setConn hc', if_neg hcd]
        exact hd
    zero := by
      change Function.update w.owner fd _ 0 = none
      rw [Function.update_of_ne (Ne.symm hok.1), h.zero]
    nonzero := fun d connd hd => by
      obtain ⟨connd', hd', hfd⟩ := hrunning d connd hd
      exact hfd ▸ h.nonzero d connd' hd'
    unique := fun gd a b ha hb => by
      rcases refers_dial hc ha with ⟨rfl, rfl⟩ | ha <;>
        rcases refers_dial hc hb with ⟨hg, rfl⟩ | hb
      · rfl
      · exact (hok.2 b hb).symm
      · exact hok.2 a (hg ▸ ha)
      · exact h.unique gd a b ha hb
    owned := fun gd a d ha hd => by
      have hd : Function.update w.owner fd (some c) gd = some d := hd
      by_cases hg : gd = fd
      · rw [hg, Function.update_self] at hd
        rcases refers_dial hc ha with ⟨-, rfl⟩ | ha
        · exact hd
        · rw [hok.2 a (hg ▸ ha), hd]
      · rw [Function.update_of_ne hg] at hd
        rcases refers_dial hc ha with ⟨heq, -⟩ | ha
        · exact absurd heq hg
        · exact h.owned gd a d ha hd
    known := fun gd d hd => by
      rw [World.dial, World.setConn, List.length_set]
      rcases refers_dial hc hd with ⟨-, heq⟩ | hd
      · exact Option.some.inj heq ▸ h.known conn.fd c (.inl ⟨c, conn, hc, rfl, .inl rfl⟩)
      · exact h.known gd d hd
    ownOnly := h.ownOnly }

theorem inv_step {w' : World} {a : Act} (h : Inv w) (hok : Unheld w a)
    (hstep : step w a = some w') : Inv w' := by
  cases a with
  | accept fd =>
    obtain ⟨-, hstep⟩ := Option.ite_none_right_eq_some.mp hstep
    obtain rfl := Option.some.inj hstep
    exact h.accept hok
  | register c t now =>
    obtain ⟨conn, hc, rfl⟩ := Option.map_eq_some_iff.mp hstep
    exact h.register hc t now
  | ping c now =>
    obtain ⟨conn, -, rfl⟩ := Option.map_eq_some_iff.mp hstep
    exact h.ping conn.fd now
  | dial c fd =>
    obtain ⟨-, hstep⟩ := Option.ite_none_right_eq_some.mp hstep
    obtain ⟨conn, hc, rfl⟩ := Option.map_eq_some_iff.mp hstep
    exact h.dial hc hok
  | proxyClose c =>
    obtain ⟨conn, hc, rfl⟩ := Option.map_eq_some_iff.mp hstep
    exact h.proxyClose hc
  | closeOrError c =>
    obtain ⟨conn, hc, rfl⟩ := Option.map_eq_some_iff.mp hstep
    exact h.closeOrError hc
  | processClose id =>
    obtain rfl := Option.some.inj hstep
    exact h.processClose id
  | processDeliver id =>
    obtain rfl := Option.some.inj hstep
    exact h.processDeliver id
  | sent k =>
    obtain ⟨x, -, rfl⟩ := Option.map_eq_some_iff.mp hstep
    exact h.sends fun x hx => List.mem_of_mem_eraseIdx hx
  | sendFailed k =>
    obtain ⟨⟨fd, b⟩, hk, rfl⟩ := Option.map_eq_some_iff.mp hstep
    exact h.sendFailed hk
  | kill id =>
    obtain rfl := Option.some.inj hstep
    exact h.kill id

/-! ### A number handed out early -/

theorem hit_fdclose {b : Option ConnId} {fd : Fd} {d : ConnId} (ho : w.owner fd = some d) :
    ⟨b, d⟩ ∈ (w.fdclose b fd).hits := by
  simp [World.fdclose, ho]

theorem hit_disconnect {b : Option ConnId} {fd : Fd} {d : ConnId} (ho : w.owner fd = some d) :
    ⟨b, d⟩ ∈ (w.disconnect b fd).2.hits :=
  hit_fdclose ho

theorem mem_hits_disconnect {b : Option ConnId} {fd : Fd} {x : Hit} (hx : x ∈ w.hits) :
    x ∈ (w.disconnect b fd).2.hits :=
  List.mem_append_left _ (List.mem_append_left _ hx)

theorem hit_closeOrError {c d : ConnId} {conn : Conn} (ho : w.owner conn.fd = some d) :
    ⟨some c, d⟩ ∈ (w.closeOrError c conn).hits := by
  by_cases hz : conn.proxyFd ≠ 0
  · rw [World.closeOrError, if_pos hz]
    by_cases hp : conn.proxyFd = conn.fd
    · exact mem_hits_disconnect (hit_fdclose (hp ▸ ho))
    · refine hit_disconnect ?_
      change Function.update w.owner conn.proxyFd none conn.fd = some d
      rw [Function.update_of_ne (Ne.symm hp), ho]
  · rw [World.closeOrError, if_neg hz]
    exact hit_disconnect ho

/-- A task that refers to a number another connection has open closes it with
its next step. -/
theorem exists_step_not_ownOnly {fd : Fd} {b : Option ConnId} {d : ConnId} (hr : Refers w fd b)
    (ho : w.owner fd = some d) (hne : b ≠ some d) :
    ∃ a w', step w a = some w' ∧ ¬ OwnOnly w' := by
  rcases hr with ⟨c, conn, hc, rfl, rfl | ⟨rfl, -⟩⟩ | hr
  · exact ⟨.closeOrError c, _, Option.map_eq_some_iff.mpr ⟨conn, hc, rfl⟩,
      fun h => hne (h _ (hit_closeOrError ho))⟩
  · exact ⟨.proxyClose c, _, Option.map_eq_some_iff.mpr ⟨conn, hc, rfl⟩,
      fun h => hne (h _ (hit_fdclose ho))⟩
  · obtain ⟨k, hk⟩ := List.mem_iff_getElem?.mp hr
    exact ⟨.sendFailed k, _, Option.map_eq_some_iff.mpr ⟨(fd, b), hk, rfl⟩,
      fun h => hne (h _ (hit_disconnect ho))⟩

/-- The number an act of the kernel hands out. -/
def Act.fd? : Act → Option Fd
  | .accept fd => some fd
  | .dial _ fd => some fd
  | _ => none

theorem Inv.exists_step_not_ownOnly (h : Inv w) {w' : World} {a : Act}
    (hstep : step w a = some w') (hheld : ¬ Unheld w a) (hz : a.fd? ≠ some 0) :
    ∃ a' w'', step w' a' = some w'' ∧ ¬ OwnOnly w'' := by
  cases a with
  | accept fd =>
    obtain ⟨-, hstep⟩ := Option.ite_none_right_eq_some.mp hstep
    obtain rfl := Option.some.inj hstep
    have hfd : fd ≠ 0 := fun heq => hz (congrArg some heq)
    obtain ⟨b, hr⟩ : ∃ b, Refers w fd b := by
      by_contra hn
      exact hheld ⟨hfd, fun b hr => hn ⟨b, hr⟩⟩
    have hr' : Refers (w.accept fd) fd b := hr.imp
      (fun ⟨c, conn, hc, hb⟩ => ⟨c, conn, running?_accept_of_running? hc, hb⟩) id
    refine Descriptors.exists_step_not_ownOnly hr' (Function.update_self ..) ?_
    rintro rfl
    exact absurd (h.known fd _ hr) (Nat.lt_irrefl _)
  | dial c fd =>
    obtain ⟨-, hstep⟩ := Option.ite_none_right_eq_some.mp hstep
    obtain ⟨conn, hc, rfl⟩ := Option.map_eq_some_iff.mp hstep
    have hfd : fd ≠ 0 := fun heq => hz (congrArg some heq)
    obtain ⟨b, hr, hb⟩ : ∃ b, Refers w fd b ∧ b ≠ some c := by
      by_contra hn
      exact hheld ⟨hfd, fun b hr => not_not.mp fun hb => hn ⟨b, hr, hb⟩⟩
    have hr' : Refers (w.dial c conn fd) fd b := by
      rcases hr with ⟨d, connd, hd, rfl, hr⟩ | hr
      · have hcd : d ≠ c := fun heq => hb (congrArg some heq)
        have hc' : ({ w with owner := Function.update w.owner fd (some c) } : World).running? c =
          some conn := hc
        refine .inl ⟨d, connd, ?_, rfl, hr⟩
        rw [World.dial, running?_setConn hc', if_neg hcd]
        exact hd
      · exact .inr hr
    exact Descriptors.exists_step_not_ownOnly hr' (Function.update_self ..) hb
  | _ => exact absurd trivial hheld

end steps

/-- **Every close hits only the connection it is made for**, in every run that
hands out a number only when no other task still refers to it.  A run that hands
one out earlier is one step away from a close that hits its new connection. -/
theorem ownOnly_of_unheld (as : List Act) :
    (Runs.Along step Unheld start as → Runs.Always step OwnOnly start as) ∧
    (Runs.Along step Unheld start as → ∀ w, Runs.exec step start as = some w →
      ∀ a w', step w a = some w' → ¬ Unheld w a → a.fd? ≠ some 0 →
        ∃ a' w'', step w' a' = some w'' ∧ ¬ OwnOnly w'') := by
  have hinv : Runs.Along step Unheld start as → Runs.Always step Inv start as :=
    Runs.always_of_along (fun w a w' h hok hstep => inv_step h hok hstep) inv_start
  refine ⟨fun h => (hinv h).mono fun w hw => hw.ownOnly, ?_⟩
  intro h w hw a w' hstep hheld hz
  exact ((hinv h).last hw).exists_step_not_ownOnly hstep hheld hz

/-- A connection closed by a handler's empty message, whose task then ends, and
whose number is accepted again. -/
theorem ownOnly_of_unheld_reused :
    Runs.Always step OwnOnly start
      [.accept 5, .register 0 .http 0, .processClose 0, .closeOrError 0, .accept 5] := by
  refine (ownOnly_of_unheld _).1 ⟨⟨by decide, fun b => not_refers_of_stopped (by decide) rfl⟩,
    fun w₁ h₁ => ⟨trivial, fun w₂ h₂ => ⟨trivial, fun w₃ h₃ => ⟨trivial, fun w₄ h₄ =>
      ⟨⟨by decide, fun b => not_refers_of_stopped ?_ ?_⟩, fun _ _ => trivial⟩⟩⟩⟩⟩
  all_goals
    obtain rfl := Option.some.inj h₁
    obtain rfl := Option.some.inj h₂
    obtain rfl := Option.some.inj h₃
    obtain rfl := Option.some.inj h₄
  · have hconns : ∀ conn ∈ [(⟨5, 0, false⟩ : Conn)], conn.running = false := by decide
    exact hconns
  · rfl

/-- The handler's empty message closes descriptor 5 of connection 0, connection
1 is accepted on 5 and registers, and the task of connection 0 wakes up: both
its clearing of the registration and its close hit connection 1. -/
theorem not_ownOnly_handler_close :
    ¬ Runs.Always step OwnOnly start
      [.accept 5, .register 0 .http 0, .processClose 0, .accept 5, .register 1 .http 0,
        .closeOrError 0] := by
  intro h
  have hrun : (Runs.exec step start [.accept 5, .register 0 .http 0, .processClose 0, .accept 5,
      .register 1 .http 0, .closeOrError 0]).map (fun w => (w.hits, w.conns.map Conn.fd)) =
        some ([⟨some 0, 0⟩, ⟨some 0, 0⟩, ⟨some 0, 1⟩, ⟨some 0, 1⟩], [5, 5]) := by decide
  obtain ⟨w, hw, heq⟩ := Option.map_eq_some_iff.mp hrun
  have hhits : w.hits = [⟨some 0, 0⟩, ⟨some 0, 0⟩, ⟨some 0, 1⟩, ⟨some 0, 1⟩] :=
    congrArg Prod.fst heq
  have hown := h.last hw ⟨some 0, 1⟩ (by simp [hhits])
  exact absurd hown (by decide)

end Descriptors

end Mongrel2

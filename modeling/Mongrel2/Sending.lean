/-
Messages of handlers on their way to the clients (`handler.c`, `task/fd.c`).

A handler task writes a message with `fdsend`, which is resumed where it was when the
kernel would not take more, while other tasks go on.

* `fdsend` — the loop up to where it returns or switches;
* `step` — the tasks of `Descriptors`, with what the handler tasks send and what the
  clients receive;
* `Whole` — what a client has received are whole messages that were addressed to it,
  one after the other, and perhaps the first part of one more;
* `whole_of_alone` — so it is in every state of a run in which no message is begun while
  another is on its way to the same descriptor, and no descriptor's number is handed out
  while a task still refers to it.

Design notes: messages are numbered in the order they are begun, and a byte carries the
number of its message.  `clients`, `log`, `received` and `strayed` are history.  A payload
is what `blk2bstr` has made of a body, and its encoding is one that an `int` counts.
-/
import Mongrel2.Control
import Mongrel2.Descriptors

namespace Mongrel2

namespace Sending

open ByteStream (Byte)
open Register Registers Descriptors

/-! ### The encoding -/

def b64ETable : List Byte :=
  bytes "ABCDEFGHIJKLMNOPQRSTUVWXYZabcdefghijklmnopqrstuvwxyz0123456789+/"

/-- The character of six bits. -/
def b64Char (c : Byte) : Byte := (b64ETable[c.toNat]?).getD 0

/-- `bBase64Encode`. -/
def bBase64Encode : List Byte → List Byte
  | b₀ :: b₁ :: b₂ :: rest =>
    b64Char (b₀ >>> 2) :: b64Char ((b₀ <<< 4 ||| b₁ >>> 4) &&& 0x3F) ::
      b64Char ((b₁ <<< 2 ||| b₂ >>> 6) &&& 0x3F) :: b64Char (b₂ &&& 0x3F) :: bBase64Encode rest
  | [b₀, b₁] =>
    [b64Char (b₀ >>> 2), b64Char ((b₀ <<< 4 ||| b₁ >>> 4) &&& 0x3F),
      b64Char ((b₁ <<< 2) &&& 0x3F), chr '=']
  | [b₀] => [b64Char (b₀ >>> 2), b64Char ((b₀ <<< 4) &&& 0x3F), chr '=', chr '=']
  | [] => []

/-- `handler_cap_payload`. -/
def capPayload (payload : List Byte) : List Byte :=
  if payload.getLast? = some 0 then payload.dropLast else payload

/-- What `deliver_payload` sends of a payload. -/
def encode : ConnType → List Byte → List Byte
  | .msg, payload => bBase64Encode (capPayload payload) ++ [0]
  | _, payload => payload

/-! ### The loop -/

/-- What a call of `send` answers: how much it took, `EAGAIN` or another error. -/
inductive SendCall
  | took (m : ℕ)
  | again
  | failed
  deriving DecidableEq, Repr

/-- How the loop stops: in `fdwait`, with everything sent, or with an error. -/
inductive Stop
  | waits | sent | failed
  deriving DecidableEq, Repr

/-- `fdsend` of `n` bytes, with `tot` of them sent: how it stops, and how many are sent
then.  It is `none` if `send` cannot answer so; a descriptor that is closed takes
nothing. -/
def fdsend (n : ℕ) (isOpen : Bool) : ℕ → List SendCall → Option (Stop × ℕ)
  | tot, [] => if tot = n then some (.sent, tot) else none
  | tot, .took m :: calls =>
    if isOpen ∧ 0 < m ∧ tot + m ≤ n then fdsend n isOpen (tot + m) calls else none
  | tot, .again :: calls => if isOpen ∧ tot < n ∧ calls = [] then some (.waits, tot) else none
  | tot, .failed :: calls => if tot < n ∧ calls = [] then some (.failed, tot) else none

/-! ### The system -/

/-- A message: the connection that had been given the id it is addressed to, and the
bytes to send. -/
structure Message where
  addressee : Option ConnId
  data : List Byte
  deriving DecidableEq

/-- A handler task in `fdsend`. -/
structure Send where
  fd : Fd
  msg : ℕ
  tot : ℕ
  deriving DecidableEq, Repr

structure Sys where
  world : World
  /-- the connection that has its client under the number -/
  clients : Fd → Option ConnId
  log : List Message
  sends : List Send
  received : ConnId → List (ℕ × Byte)
  /-- what was sent to a backend -/
  strayed : List (ℕ × Byte)

/-- The bytes of a message, each with its number. -/
def tagged (log : List Message) (k : ℕ) : List (ℕ × Byte) :=
  ((log[k]?.map Message.data).getD []).map (k, ·)

/-- Whom a message is addressed to. -/
def dest (log : List Message) (k : ℕ) : Option ConnId := log[k]?.bind Message.addressee

namespace Sys

variable (s : Sys)

def start : Sys := ⟨World.start, fun _ => none, [], [], fun _ => [], []⟩

/-- A step of another task. -/
def move (a : Descriptors.Act) : Option Sys :=
  (Descriptors.step s.world a).map fun w =>
    { s with
      world := w
      clients := fun fd =>
        if a = .accept fd then some s.world.conns.length
        else if (w.owner fd).isSome then s.clients fd else none }

/-- The kernel takes bytes that are sent to the descriptor. -/
def put (fd : Fd) (xs : List (ℕ × Byte)) : Sys :=
  match s.clients fd with
  | some c => { s with received := Function.update s.received c (s.received c ++ xs) }
  | none => { s with strayed := s.strayed ++ xs }

/-- The task at `k` is in `fdsend` with `tot` bytes sent. -/
def advance (k : ℕ) (snd : Send) (tot : ℕ) : Sys :=
  let s' := s.put snd.fd (((tagged s.log snd.msg).drop snd.tot).take (tot - snd.tot))
  { s' with sends := s'.sends.set k { snd with tot := tot } }

/-- The task at `k` is no longer in `fdsend`. -/
def leave (k : ℕ) (a : Descriptors.Act) : Option Sys :=
  ({ s with sends := s.sends.eraseIdx k } : Sys).move a

/-- `fdsend` goes on, and `handler_process_request` with what it returns. -/
def resume (k : ℕ) (calls : List SendCall) : Option Sys := do
  let snd ← s.sends[k]?
  let (stop, tot) ←
    fdsend (tagged s.log snd.msg).length (s.world.owner snd.fd).isSome snd.tot calls
  match stop with
  | .waits => some (s.advance k snd tot)
  | .sent => (s.advance k snd tot).leave k (.sent k)
  | .failed => (s.advance k snd tot).leave k (.sendFailed k)

/-- `handler_process_request` on a payload for the descriptor, up to `fdsend`. -/
def begin (id : Id) (fd : Fd) (payload : List Byte) : Sys :=
  { s with
    world := s.world.processDeliver id
    log := s.log ++
      [⟨s.world.issued id, encode ((s.world.regs.fdExists fd).getD .http) payload⟩]
    sends := ⟨fd, s.log.length, 0⟩ :: s.sends }

/-- `handler_process_request`; an id that is gone is only told to the handler. -/
def deliver (id : Id) (payload : List Byte) (calls : List SendCall) : Option Sys :=
  match target s.world.regs id with
  | none => some s
  | some fd => (s.begin id fd payload).resume 0 calls

end Sys

/-- What a task does between two switches: a step of `Descriptors` that is no send, a
delivery with the answers of `send` up to the next switch, and the same for a task that
is woken in `fdsend`. -/
inductive Act
  | world (a : Descriptors.Act)
  | deliver (id : Id) (payload : List Byte) (calls : List SendCall)
  | resume (k : ℕ) (calls : List SendCall)
  deriving DecidableEq, Repr

/-- The steps of `Descriptors` that are about sends. -/
def isSend : Descriptors.Act → Bool
  | .processDeliver _ | .sent _ | .sendFailed _ => true
  | _ => false

def step (s : Sys) : Act → Option Sys
  | .world a => if isSend a then none else s.move a
  | .deliver id payload calls => if payload = [] then none else s.deliver id payload calls
  | .resume k calls => s.resume k calls

/-! ### What is asked of the runs -/

/-- The message is addressed to the connection. -/
def Addressed (s : Sys) (k : ℕ) (c : ConnId) : Prop := dest s.log k = some c

/-- What is left to be said of a message of which a client has a first part only: it is
on its way, or the client's socket is closed. -/
def Cut (s : Sys) (k : ℕ) (c : ConnId) : Prop :=
  (∃ snd ∈ s.sends, snd.msg = k ∧ s.clients snd.fd = some c) ∨ ∀ fd, s.clients fd ≠ some c

/-- A client has received whole messages addressed to it, each once and one after the
other, and perhaps the first part of one more; and nothing went to a backend. -/
structure Whole (s : Sys) : Prop where
  received : ∀ c, ∃ (ks : List ℕ) (tail : List (ℕ × Byte)), ks.Nodup ∧ (∀ k ∈ ks, Addressed s k c) ∧
    s.received c = ks.flatMap (tagged s.log) ++ tail ∧
    (tail = [] ∨ ∃ k, k ∉ ks ∧ Addressed s k c ∧ tail <+: tagged s.log k ∧ Cut s k c)
  strayed : s.strayed = []

/-- No message is begun while another is on its way to the same descriptor, and a number
is handed out only when no task still refers to it. -/
def Alone (s : Sys) : Act → Prop
  | .world (.accept fd) | .world (.dial _ fd) => fd ≠ 0 ∧ ∀ b, ¬Refers s.world fd b
  | .deliver id _ _ => ∀ snd ∈ s.sends, target s.world.regs id ≠ some snd.fd
  | _ => True

/-! ### What `fdsend` returns -/

/-- The loop goes forward, does nothing on a closed descriptor, and has sent everything
when it says so. -/
theorem fdsend_spec {n tot tot' : ℕ} {isOpen : Bool} {calls : List SendCall} {stop : Stop}
    (h : fdsend n isOpen tot calls = some (stop, tot')) :
    tot ≤ tot' ∧ (isOpen = false → tot' = tot) ∧ (stop = .sent → tot' = n) := by
  induction calls generalizing tot with
  | nil =>
    obtain ⟨htot, h⟩ := Option.ite_none_right_eq_some.mp h
    obtain ⟨rfl, rfl⟩ := Prod.mk.inj (Option.some.inj h)
    exact ⟨le_rfl, fun _ => rfl, fun _ => htot⟩
  | cons call calls ih =>
    cases call with
    | took m =>
      obtain ⟨⟨hopen, -, -⟩, h⟩ := Option.ite_none_right_eq_some.mp h
      obtain ⟨hle, -, hsent⟩ := ih h
      refine ⟨by omega, fun hclosed => ?_, hsent⟩
      rw [hclosed] at hopen
      exact absurd hopen (by simp)
    | again | failed =>
      obtain ⟨-, h⟩ := Option.ite_none_right_eq_some.mp h
      obtain ⟨rfl, rfl⟩ := Prod.mk.inj (Option.some.inj h)
      exact ⟨le_rfl, fun _ => rfl, fun heq => absurd heq (by simp)⟩

/-! ### Steps that hand out no number -/

/-- No number is handed out, no connection is new, and no send begins or ends. -/
structure Shrinks (w w' : World) : Prop where
  owner : ∀ fd, w'.owner fd = w.owner fd ∨ w'.owner fd = none
  running : ∀ c conn', w'.running? c = some conn' →
    ∃ conn, w.running? c = some conn ∧ conn.fd = conn'.fd
  length : w'.conns.length = w.conns.length
  sends : w'.sends = w.sends

namespace Shrinks

variable {w w' w'' : World}

theorem refl (w : World) : Shrinks w w :=
  ⟨fun _ => .inl rfl, fun _ conn h => ⟨conn, h, rfl⟩, rfl, rfl⟩

theorem trans (h : Shrinks w w') (h' : Shrinks w' w'') : Shrinks w w'' where
  owner := fun fd => by
    rcases h'.owner fd with heq | hnone
    · rw [heq]
      exact h.owner fd
    · exact .inr hnone
  running := fun c conn'' hc => by
    obtain ⟨conn', hc', hfd'⟩ := h'.running c conn'' hc
    obtain ⟨conn, hc, hfd⟩ := h.running c conn' hc'
    exact ⟨conn, hc, hfd.trans hfd'⟩
  length := h'.length.trans h.length
  sends := h'.sends.trans h.sends

theorem fdclose (b : Option ConnId) (fd : Fd) : Shrinks w (w.fdclose b fd) where
  owner := fun gd => by
    have howner : (w.fdclose b fd).owner = Function.update w.owner fd none := rfl
    by_cases hg : gd = fd
    · exact .inr (by rw [howner, hg, Function.update_self])
    · exact .inl (by rw [howner, Function.update_of_ne hg])
  running := fun _ conn h => ⟨conn, h, rfl⟩
  length := rfl
  sends := rfl

theorem disconnect (b : Option ConnId) (fd : Fd) : Shrinks w (w.disconnect b fd).2 where
  owner := (fdclose b fd).owner
  running := fun _ conn h => ⟨conn, h, rfl⟩
  length := rfl
  sends := rfl

theorem setConn {c : ConnId} {conn conn' : Descriptors.Conn} (hc : w.running? c = some conn)
    (hfd : conn'.fd = conn.fd) : Shrinks w (w.setConn c conn') where
  owner := fun _ => .inl rfl
  running := fun d connd hd => by
    rw [running?_setConn hc] at hd
    by_cases hcd : d = c
    · rw [if_pos hcd] at hd
      split at hd
      · obtain rfl := Option.some.inj hd
        exact ⟨conn, hcd ▸ hc, hfd.symm⟩
      · exact absurd hd (by simp)
    · rw [if_neg hcd] at hd
      exact ⟨connd, hd, rfl⟩
  length := List.length_set
  sends := rfl

theorem proxyClose {c : ConnId} {conn : Descriptors.Conn} (hc : w.running? c = some conn) :
    Shrinks w (w.proxyClose c conn) :=
  (fdclose (some c) conn.proxyFd).trans (setConn hc rfl)

theorem closeOrError {c : ConnId} {conn : Descriptors.Conn} (hc : w.running? c = some conn) :
    Shrinks w (w.closeOrError c conn) := by
  have hrun : conn.running = true := (running?_eq_some.mp hc).2
  rw [World.closeOrError]
  split
  · have hc' : (w.proxyClose c conn).running? c = some { conn with proxyFd := 0 } := by
      rw [World.proxyClose, @running?_setConn (w.fdclose (some c) conn.proxyFd) c c conn _ hc,
        if_pos rfl, if_pos hrun]
    exact (proxyClose hc).trans ((disconnect (some c) conn.fd).trans
      (@setConn ((w.proxyClose c conn).disconnect (some c) conn.fd).2 c _ _ hc' rfl))
  · exact (disconnect (some c) conn.fd).trans
      (@setConn (w.disconnect (some c) conn.fd).2 c conn _ hc rfl)

theorem processClose (id : Id) : Shrinks w (w.processClose id) := by
  rw [World.processClose]
  split
  case h_1 => exact refl w
  case h_2 fd _ =>
    have hfirst := @disconnect w (w.issued id) fd
    split
    case h_1 id' w₁ hw₁ =>
      rw [hw₁] at hfirst
      exact hfirst
    case h_2 w₁ hw₁ =>
      rw [hw₁] at hfirst
      exact hfirst.trans (disconnect _ fd)

theorem kill (id : Id) : Shrinks w (w.kill id) := by
  rw [World.kill]
  split
  · exact fdclose ..
  · exact refl w

end Shrinks

/-- The steps of `Descriptors` that are neither sends nor hand out a number. -/
theorem shrinks_step {w w' : World} {a : Descriptors.Act} (h : Descriptors.step w a = some w')
    (hsend : isSend a = false) (hfd : a.fd? = none) : Shrinks w w' := by
  cases a with
  | accept fd | dial c fd => exact absurd hfd (by simp [Act.fd?])
  | processDeliver id | sent k | sendFailed k => exact absurd hsend (by simp [isSend])
  | register c t now | ping c now =>
    obtain ⟨conn, -, rfl⟩ := Option.map_eq_some_iff.mp h
    exact ⟨fun _ => .inl rfl, fun _ conn hc => ⟨conn, hc, rfl⟩, rfl, rfl⟩
  | proxyClose c =>
    obtain ⟨conn, hc, rfl⟩ := Option.map_eq_some_iff.mp h
    exact .proxyClose hc
  | closeOrError c =>
    obtain ⟨conn, hc, rfl⟩ := Option.map_eq_some_iff.mp h
    exact .closeOrError hc
  | processClose id =>
    obtain rfl := Option.some.inj h
    exact .processClose id
  | kill id =>
    obtain rfl := Option.some.inj h
    exact .kill id

/-! ### What a client has received -/

/-- A client has received the messages `ks` and then `tail`: the part that has been sent of
the message on its way to it, and nothing if there is none. -/
structure Transcript (s : Sys) (c : ConnId) (ks : List ℕ) (tail : List (ℕ × Byte)) : Prop where
  nodup : ks.Nodup
  addressed : ∀ k ∈ ks, Addressed s k c
  received : s.received c = ks.flatMap (tagged s.log) ++ tail
  sending : ∀ snd ∈ s.sends, s.clients snd.fd = some c →
    snd.msg ∉ ks ∧ tail = (tagged s.log snd.msg).take snd.tot
  idle : ∀ fd, s.clients fd = some c → (∀ snd ∈ s.sends, snd.fd ≠ fd) → tail = []
  cut : tail = [] ∨ ∃ k, k ∉ ks ∧ Addressed s k c ∧ tail <+: tagged s.log k

/-- What holds as long as messages are sent alone. -/
structure Inv (s : Sys) : Prop where
  world : Descriptors.Inv s.world
  sends : s.world.sends = s.sends.map fun snd => (snd.fd, dest s.log snd.msg)
  known : ∀ snd ∈ s.sends, snd.msg < s.log.length
  alone : (s.sends.map Send.fd).Nodup
  owner : ∀ fd c, s.clients fd = some c → s.world.owner fd = some c
  front : ∀ c conn, s.world.running? c = some conn → s.world.owner conn.fd = s.clients conn.fd
  dest : ∀ snd ∈ s.sends, s.world.owner snd.fd = s.clients snd.fd
  inj : ∀ fd gd c, s.clients fd = some c → s.clients gd = some c → fd = gd
  early : ∀ fd c, s.clients fd = some c → c < s.world.conns.length
  fresh : ∀ c, s.world.conns.length ≤ c → s.received c = []
  transcript : ∀ c, ∃ ks tail, Transcript s c ks tail
  strayed : s.strayed = []

section steps

variable {s s' : Sys} {c : ConnId} {ks : List ℕ} {tail : List (ℕ × Byte)} {snd : Send} {k : ℕ}

theorem inv_start : Inv Sys.start where
  world := Descriptors.inv_start
  sends := rfl
  known := fun _ h => absurd h List.not_mem_nil
  alone := List.nodup_nil
  owner := fun _ _ h => absurd h (by simp [Sys.start])
  front := fun _ _ h => absurd h (by simp [Sys.start, World.start, World.running?])
  dest := fun _ h => absurd h List.not_mem_nil
  inj := fun _ _ _ h => absurd h (by simp [Sys.start])
  early := fun _ _ h => absurd h (by simp [Sys.start])
  fresh := fun _ _ => rfl
  transcript := fun c => ⟨[], [], List.nodup_nil, fun _ h => absurd h List.not_mem_nil, rfl,
    fun _ h => absurd h List.not_mem_nil, fun _ _ _ => rfl, .inl rfl⟩
  strayed := rfl

theorem lt_of_addressed (h : Addressed s k c) : k < s.log.length := by
  by_contra hge
  rw [Addressed, Sending.dest, List.getElem?_eq_none (Nat.le_of_not_lt hge)] at h
  exact absurd h (by simp)

theorem Inv.refers (h : Inv s) (hsnd : snd ∈ s.sends) :
    Refers s.world snd.fd (Sending.dest s.log snd.msg) := by
  refine .inr ?_
  rw [h.sends]
  exact List.mem_map_of_mem hsnd

/-- A message that is on its way to an open connection is addressed to it. -/
theorem Inv.addressed (h : Inv s) (hsnd : snd ∈ s.sends) (hc : s.clients snd.fd = some c) :
    Addressed s snd.msg c :=
  h.world.owned snd.fd _ c (h.refers hsnd) (h.owner _ _ hc)

theorem Inv.whole (h : Inv s) : Whole s where
  strayed := h.strayed
  received := fun c => by
    obtain ⟨ks, tail, hc⟩ := h.transcript c
    refine ⟨ks, tail, hc.nodup, hc.addressed, hc.received, ?_⟩
    by_cases hopen : ∃ fd, s.clients fd = some c
    · obtain ⟨fd, hfd⟩ := hopen
      by_cases hsends : ∃ snd ∈ s.sends, snd.fd = fd
      · -- a message is on its way
        obtain ⟨snd, hsnd, rfl⟩ := hsends
        obtain ⟨hnew, htail⟩ := hc.sending snd hsnd hfd
        refine .inr ⟨snd.msg, hnew, h.addressed hsnd hfd, ?_, .inl ⟨snd, hsnd, rfl, hfd⟩⟩
        rw [htail]
        exact List.take_prefix ..
      · exact .inl (hc.idle fd hfd fun snd hsnd heq => hsends ⟨snd, hsnd, heq⟩)
    · rcases hc.cut with hnil | ⟨k, hk, hto, htail⟩
      · exact .inl hnil
      · exact .inr ⟨k, hk, hto, htail, .inr fun fd hfd => hopen ⟨fd, hfd⟩⟩

/-- The transcript of a connection is kept when nothing is sent to it, and its client's
number, if it is still open, has the same messages on their way. -/
theorem Transcript.keep (h : Transcript s c ks tail)
    (hlog : ∀ k < s.log.length, s'.log[k]? = s.log[k]?)
    (hknown : ∀ snd ∈ s.sends, snd.msg < s.log.length)
    (hreceived : s'.received c = s.received c)
    (hopen : ∀ fd, s'.clients fd = some c → s.clients fd = some c ∧
      ∀ snd, snd.fd = fd → (snd ∈ s'.sends ↔ snd ∈ s.sends)) : Transcript s' c ks tail := by
  have htagged : ∀ k < s.log.length, tagged s'.log k = tagged s.log k := fun k hk => by
    rw [tagged, tagged, hlog k hk]
  have haddressed : ∀ k, Addressed s k c → Addressed s' k c := fun k hk => by
    rw [Addressed, Sending.dest, hlog k (lt_of_addressed hk)]
    exact hk
  refine ⟨h.nodup, fun k hk => haddressed k (h.addressed k hk), ?_, ?_, ?_, ?_⟩
  · rw [hreceived, h.received, List.flatMap_congr fun k hk =>
      htagged k (lt_of_addressed (h.addressed k hk))]
  · intro snd hsnd hc
    obtain ⟨hc', hsame⟩ := hopen snd.fd hc
    have hsnd' := (hsame snd rfl).mp hsnd
    rw [htagged snd.msg (hknown snd hsnd')]
    exact h.sending snd hsnd' hc'
  · intro fd hc hidle
    obtain ⟨hc', hsame⟩ := hopen fd hc
    exact h.idle fd hc' fun snd hsnd heq => hidle snd ((hsame snd heq).mpr hsnd) heq
  · refine h.cut.imp id fun ⟨k, hk, hto, htail⟩ => ⟨k, hk, haddressed k hto, ?_⟩
    rwa [htagged k (lt_of_addressed hto)]

/-! ### The list of sends -/

theorem mem_set_iff {l : List Send} {a b x : Send} (hk : l[k]? = some a) (hb : x.fd ≠ b.fd)
    (ha : x.fd ≠ a.fd) : x ∈ l.set k b ↔ x ∈ l := by
  have hlt : k < l.length := (List.getElem?_eq_some_iff.mp hk).1
  simp only [List.mem_iff_getElem?, List.getElem?_set]
  refine exists_congr fun i => ?_
  by_cases hi : k = i
  · subst hi
    rw [if_pos rfl, if_pos hlt, hk]
    refine iff_of_false ?_ ?_
    · rintro h
      exact hb (Option.some.inj h ▸ rfl)
    · rintro h
      exact ha (Option.some.inj h ▸ rfl)
  · rw [if_neg hi]

theorem map_set_tot {β : Type*} {l : List Send} (f : Send → β) (hk : l[k]? = some snd) (tot : ℕ)
    (hf : f { snd with tot := tot } = f snd) : (l.set k { snd with tot := tot }).map f = l.map f := by
  rw [List.map_set, hf]
  refine List.ext_getElem? fun i => ?_
  rw [List.getElem?_set]
  split
  case isTrue hi =>
    have hlt : k < l.length := (List.getElem?_eq_some_iff.mp hk).1
    rw [← hi, List.length_map, if_pos hlt, List.getElem?_map, hk]
    rfl
  case isFalse => rfl

theorem mem_eraseIdx_iff {l : List Send} {x : Send} (hk : l[k]? = some snd) (hx : x.fd ≠ snd.fd) :
    x ∈ l.eraseIdx k ↔ x ∈ l := by
  rw [List.mem_eraseIdx_iff_getElem?, List.mem_iff_getElem?]
  constructor
  · rintro ⟨i, -, hi⟩
    exact ⟨i, hi⟩
  · rintro ⟨i, hi⟩
    refine ⟨i, ?_, hi⟩
    rintro rfl
    exact hx (Option.some.inj (hi.symm.trans hk) ▸ rfl)

/-- Of the sends to a descriptor, there is none left when one has been taken out. -/
theorem fd_ne_of_mem_eraseIdx {l : List Send} {x : Send} (h : (l.map Send.fd).Nodup)
    (hk : l[k]? = some snd) (hx : x ∈ l.eraseIdx k) : x.fd ≠ snd.fd := by
  obtain ⟨i, hne, hi⟩ := List.mem_eraseIdx_iff_getElem?.mp hx
  intro hfd
  have hfst : (l.map Send.fd)[i]? = some snd.fd := by rw [List.getElem?_map, hi, ← hfd]; rfl
  have hsnd : (l.map Send.fd)[k]? = some snd.fd := by rw [List.getElem?_map, hk]; rfl
  have hlt : i < (l.map Send.fd).length := (List.getElem?_eq_some_iff.mp hfst).1
  exact hne ((List.getElem?_inj hlt h).mp (hfst.trans hsnd.symm))

/-! ### What each step keeps -/

/-- Bytes of the message of a task are taken. -/
theorem Inv.advance (h : Inv s) (hk : s.sends[k]? = some snd) {tot : ℕ} (hle : snd.tot ≤ tot)
    (hclosed : s.world.owner snd.fd = none → tot = snd.tot) : Inv (s.advance k snd tot) := by
  have hmem : snd ∈ s.sends := List.mem_of_getElem? hk
  cases hclient : s.clients snd.fd with
  | none =>
    -- the descriptor is closed, so nothing is taken
    obtain rfl := hclosed ((h.dest snd hmem).trans hclient)
    have hsame : s.advance k snd snd.tot = s := by
      have hset : s.sends.set k snd = s.sends := by simpa using map_set_tot id hk snd.tot rfl
      simp [Sys.advance, Sys.put, hclient, hset]
    rwa [hsame]
  | some c =>
    have heq : s.advance k snd tot =
        { s with
          received := Function.update s.received c (s.received c ++
            ((tagged s.log snd.msg).drop snd.tot).take (tot - snd.tot))
          sends := s.sends.set k { snd with tot := tot } } := by
      simp only [Sys.advance, Sys.put, hclient]
    have hlt : k < s.sends.length := (List.getElem?_eq_some_iff.mp hk).1
    have hnew : { snd with tot := tot } ∈ s.sends.set k { snd with tot := tot } :=
      List.mem_set hlt _
    have hfds := map_set_tot Send.fd hk tot rfl
    have hold : ∀ snd' ∈ s.sends.set k { snd with tot := tot }, ∃ old ∈ s.sends,
        snd'.fd = old.fd ∧ snd'.msg = old.msg := by
      intro snd' hsnd'
      rcases List.mem_or_eq_of_mem_set hsnd' with hsnd' | rfl
      · exact ⟨snd', hsnd', rfl, rfl⟩
      · exact ⟨snd, hmem, rfl, rfl⟩
    rw [heq]
    refine { h with
      sends := ?_, known := ?_, alone := ?_, dest := ?_, fresh := ?_, transcript := ?_ }
    · have hsends := map_set_tot (fun snd => (snd.fd, Sending.dest s.log snd.msg)) hk tot rfl
      exact h.sends.trans hsends.symm
    · intro snd' hsnd'
      obtain ⟨old, hold, -, hmsg⟩ := hold snd' hsnd'
      exact hmsg ▸ h.known old hold
    · exact hfds ▸ h.alone
    · intro snd' hsnd'
      obtain ⟨old, hold, hfd, -⟩ := hold snd' hsnd'
      exact hfd ▸ h.dest old hold
    · intro d hd
      have hdc : d ≠ c := fun heq => absurd (h.early _ _ hclient) (Nat.not_lt_of_le (heq ▸ hd))
      exact (Function.update_of_ne hdc ..).trans (h.fresh d hd)
    · intro d
      obtain ⟨ks, tail, hd⟩ := h.transcript d
      by_cases hdc : d = c
      · subst hdc
        obtain ⟨hks, htail⟩ := hd.sending snd hmem hclient
        refine ⟨ks, (tagged s.log snd.msg).take tot, hd.nodup, hd.addressed, ?_, ?_, ?_, ?_⟩
        · show Function.update s.received d _ d = _
          rw [Function.update_self, hd.received, htail, List.append_assoc, ← List.take_add,
            Nat.add_sub_cancel' hle]
        · intro snd' hsnd' hc
          have hfd : snd'.fd = snd.fd := h.inj _ _ d hc hclient
          obtain rfl : snd' = { snd with tot := tot } :=
            List.inj_on_of_nodup_map (hfds ▸ h.alone) hsnd' hnew hfd
          exact ⟨hks, rfl⟩
        · intro fd hfd hidle
          exact absurd (h.inj _ _ d hclient hfd) (hidle { snd with tot := tot } hnew)
        · exact .inr ⟨snd.msg, hks, h.addressed hmem hclient, List.take_prefix ..⟩
      · refine ⟨ks, tail, hd.keep (fun _ _ => rfl) h.known (Function.update_of_ne hdc ..) ?_⟩
        intro fd hfd
        refine ⟨hfd, fun snd' hsnd' => ?_⟩
        have hne : snd'.fd ≠ snd.fd := by
          intro heq
          rw [← hsnd', heq, hclient] at hfd
          exact hdc (Option.some.inj hfd).symm
        exact mem_set_iff hk hne hne

/-- Sends end and descriptors are closed. -/
theorem Inv.shrink (h : Inv s) {w : World} {ws : List (Fd × Option ConnId)} {sends : List Send}
    (hw : Descriptors.Inv w) (hshrinks : Shrinks { s.world with sends := ws } w)
    (hws : ws = sends.map fun snd => (snd.fd, Sending.dest s.log snd.msg))
    (hsub : sends.Sublist s.sends)
    (heq : s' = { s with
      world := w, sends := sends
      clients := fun fd => if (w.owner fd).isSome then s.clients fd else none })
    (htranscript : ∀ c, ∃ ks tail, Transcript s' c ks tail) : Inv s' := by
  have hclients : ∀ {fd c}, s'.clients fd = some c → s.clients fd = some c ∧ w.owner fd = some c := by
    intro fd c hc
    rw [heq] at hc
    obtain ⟨hopen, hc⟩ := Option.ite_none_right_eq_some.mp hc
    refine ⟨hc, ?_⟩
    rcases hshrinks.owner fd with hsame | hnone
    · exact hsame.trans (h.owner fd c hc)
    · rw [hnone] at hopen
      exact absurd hopen (by simp)
  have hfront : ∀ {fd}, s.world.owner fd = s.clients fd → w.owner fd = s'.clients fd := by
    intro fd hfd
    rw [heq]
    show w.owner fd = if (w.owner fd).isSome then s.clients fd else none
    rcases hshrinks.owner fd with hsame | hnone
    · rw [hsame]
      show s.world.owner fd = if (s.world.owner fd).isSome then s.clients fd else none
      rw [hfd]
      cases s.clients fd <;> rfl
    · rw [hnone]
      rfl
  subst heq
  exact {
    world := hw
    sends := hshrinks.sends.trans hws
    known := fun snd hsnd => h.known snd (hsub.subset hsnd)
    alone := h.alone.sublist (hsub.map _)
    owner := fun fd c hc => (hclients hc).2
    front := fun c conn hc => by
      obtain ⟨conn', hc', hfd⟩ := hshrinks.running c conn hc
      exact hfront (hfd ▸ h.front c conn' hc')
    dest := fun snd hsnd => hfront (h.dest snd (hsub.subset hsnd))
    inj := fun fd gd c hf hg => h.inj fd gd c (hclients hf).1 (hclients hg).1
    early := fun fd c hc => hshrinks.length.symm ▸ h.early fd c (hclients hc).1
    fresh := fun c hc => h.fresh c (hshrinks.length ▸ hc)
    transcript := htranscript
    strayed := h.strayed }

/-- A connection is accepted under a number that no task refers to. -/
theorem Inv.accept (h : Inv s) {fd : Fd} (hok : Alone s (.world (.accept fd)))
    (hmove : s.move (.accept fd) = some s') : Inv s' := by
  obtain ⟨w, hstep, rfl⟩ := Option.map_eq_some_iff.mp hmove
  have hw := @Descriptors.inv_step _ w (.accept fd) h.world hok hstep
  obtain ⟨hfree, hstep⟩ := Option.ite_none_right_eq_some.mp hstep
  obtain rfl := Option.some.inj hstep
  have hold : ∀ c, s.clients fd ≠ some c := fun c hc =>
    absurd (hfree.symm.trans (h.owner fd c hc)) (by simp)
  have howner : ∀ {gd}, gd ≠ fd → (s.world.accept fd).owner gd = s.world.owner gd :=
    fun hg => Function.update_of_ne hg ..
  have hclients : (fun gd => if Descriptors.Act.accept fd = .accept gd then
      some s.world.conns.length else if ((s.world.accept fd).owner gd).isSome then s.clients gd
        else none) = Function.update s.clients fd (some s.world.conns.length) := by
    funext gd
    by_cases hg : gd = fd
    · rw [hg, if_pos rfl, Function.update_self]
    · rw [if_neg (fun heq => hg (Descriptors.Act.accept.inj heq).symm), howner hg,
        Function.update_of_ne hg]
      cases hc : s.clients gd with
      | none => exact ite_self none
      | some c => rw [h.owner gd c hc]; rfl
  have hlen : (s.world.accept fd).conns.length = s.world.conns.length + 1 := List.length_append
  have hsends : ∀ snd ∈ s.sends, snd.fd ≠ fd := fun snd hsnd heq =>
    hok.2 _ (heq ▸ h.refers hsnd)
  -- the client of a connection that was there is found where it was
  have hbefore : ∀ {gd c}, Function.update s.clients fd (some s.world.conns.length) gd = some c →
      gd = fd ∧ c = s.world.conns.length ∨ gd ≠ fd ∧ s.clients gd = some c := by
    intro gd c hc
    by_cases hg : gd = fd
    · rw [hg, Function.update_self] at hc
      exact .inl ⟨hg, (Option.some.inj hc).symm⟩
    · rw [Function.update_of_ne hg] at hc
      exact .inr ⟨hg, hc⟩
  rw [hclients]
  exact { h with
    world := hw
    owner := fun gd c hc => by
      rcases hbefore hc with ⟨rfl, rfl⟩ | ⟨hg, hc⟩
      · exact Function.update_self ..
      · exact (howner hg).trans (h.owner gd c hc)
    front := fun c conn hc => by
      show (s.world.accept fd).owner conn.fd = Function.update s.clients fd _ conn.fd
      rcases running?_accept hc with ⟨rfl, rfl⟩ | hc
      · rw [Function.update_self]
        exact Function.update_self ..
      · have hg : conn.fd ≠ fd := fun heq => hok.2 (some c) (.inl ⟨c, conn, hc, rfl, .inl heq⟩)
        rw [howner hg, Function.update_of_ne hg, h.front c conn hc]
    dest := fun snd hsnd => by
      show (s.world.accept fd).owner snd.fd = Function.update s.clients fd _ snd.fd
      rw [howner (hsends snd hsnd), Function.update_of_ne (hsends snd hsnd), h.dest snd hsnd]
    inj := fun fd₁ fd₂ c h₁ h₂ => by
      rcases hbefore h₁ with ⟨hfd₁, hc₁⟩ | ⟨-, hold₁⟩ <;>
        rcases hbefore h₂ with ⟨hfd₂, hc₂⟩ | ⟨-, hold₂⟩
      · exact hfd₁.trans hfd₂.symm
      · exact absurd (h.early _ _ hold₂) (hc₁ ▸ lt_irrefl _)
      · exact absurd (h.early _ _ hold₁) (hc₂ ▸ lt_irrefl _)
      · exact h.inj _ _ c hold₁ hold₂
    early := fun gd c hc => by
      rw [hlen]
      rcases hbefore hc with ⟨-, rfl⟩ | ⟨-, hc⟩
      · exact Nat.lt_succ_self _
      · exact Nat.lt_succ_of_lt (h.early gd c hc)
    fresh := fun c hc => h.fresh c (by rw [hlen] at hc; exact Nat.le_of_succ_le hc)
    transcript := fun c => by
      obtain ⟨ks, tail, hc⟩ := h.transcript c
      by_cases hnew : c = s.world.conns.length
      · refine ⟨[], [], List.nodup_nil, fun _ hk => absurd hk List.not_mem_nil,
          h.fresh c hnew.ge, fun snd hsnd hfd => ?_, fun _ _ _ => rfl, .inl rfl⟩
        rcases hbefore hfd with ⟨heq, -⟩ | ⟨-, hfd⟩
        · exact absurd heq (hsends snd hsnd)
        · exact absurd (h.early _ _ hfd) (hnew ▸ lt_irrefl _)
      · refine ⟨ks, tail, hc.keep (fun _ _ => rfl) h.known rfl ?_⟩
        intro gd hg
        rcases hbefore hg with ⟨-, heq⟩ | ⟨-, hg⟩
        · exact absurd heq hnew
        · exact ⟨hg, fun _ _ => Iff.rfl⟩ }

theorem running_dial {w : World} {c d : ConnId} {conn conn' : Descriptors.Conn} {fd : Fd}
    (hd : w.running? d = some conn) (hc : (w.dial d conn fd).running? c = some conn') :
    ∃ conn₁, w.running? c = some conn₁ ∧ conn₁.fd = conn'.fd :=
  (@Shrinks.setConn { w with owner := Function.update w.owner fd (some d) } d conn
    { conn with proxyFd := fd } hd rfl).running c conn' hc

/-- A backend is dialled under a number that no task refers to. -/
theorem Inv.dial (h : Inv s) {d : ConnId} {fd : Fd} (hok : Alone s (.world (.dial d fd)))
    (hmove : s.move (.dial d fd) = some s') : Inv s' := by
  obtain ⟨w, hstep, rfl⟩ := Option.map_eq_some_iff.mp hmove
  have hw := @Descriptors.inv_step _ w (.dial d fd) h.world
    ⟨hok.1, fun b hb => absurd hb (hok.2 b)⟩ hstep
  obtain ⟨hfree, hstep⟩ := Option.ite_none_right_eq_some.mp hstep
  obtain ⟨conn, hconn, rfl⟩ := Option.map_eq_some_iff.mp hstep
  have howner : ∀ {gd}, gd ≠ fd → (s.world.dial d conn fd).owner gd = s.world.owner gd :=
    fun hg => Function.update_of_ne hg ..
  have hclients : (fun gd => if Descriptors.Act.dial d fd = .accept gd then
      some s.world.conns.length else if ((s.world.dial d conn fd).owner gd).isSome then s.clients gd
        else none) = s.clients := by
    funext gd
    rw [if_neg (by simp)]
    cases hc : s.clients gd with
    | none => exact ite_self none
    | some c =>
      have hopen := h.owner gd c hc
      have hg : gd ≠ fd := fun heq => absurd ((heq ▸ hfree).symm.trans hopen) (by simp)
      rw [howner hg, hopen]
      rfl
  have hlen : (s.world.dial d conn fd).conns.length = s.world.conns.length := List.length_set
  have hrefers : ∀ {gd b}, Refers s.world gd b → gd ≠ fd := fun hr heq => hok.2 _ (heq ▸ hr)
  rw [hclients]
  exact { h with
    world := hw
    owner := fun gd c hc => by
      have hopen := h.owner gd c hc
      have hg : gd ≠ fd := fun heq => absurd ((heq ▸ hfree).symm.trans hopen) (by simp)
      exact (howner hg).trans hopen
    front := fun c conn' hc => by
      obtain ⟨conn₁, hconn₁, hfd⟩ := running_dial hconn hc
      have hg := hrefers (.inl ⟨c, conn₁, hconn₁, rfl, .inl rfl⟩)
      show (s.world.dial d conn fd).owner conn'.fd = s.clients conn'.fd
      rw [← hfd, howner hg, h.front c conn₁ hconn₁]
    dest := fun snd hsnd => by
      show (s.world.dial d conn fd).owner snd.fd = s.clients snd.fd
      rw [howner (hrefers (h.refers hsnd)), h.dest snd hsnd]
    early := fun gd c hc => hlen.symm ▸ h.early gd c hc
    fresh := fun c hc => h.fresh c (hlen ▸ hc)
    transcript := fun c => by
      obtain ⟨ks, tail, hc⟩ := h.transcript c
      exact ⟨ks, tail, hc.keep (fun _ _ => rfl) h.known rfl fun _ hg => ⟨hg, fun _ _ => Iff.rfl⟩⟩ }

/-- A step of a task that neither sends nor gets a number. -/
theorem Inv.move (h : Inv s) {a : Descriptors.Act} (hsend : isSend a = false)
    (hok : Alone s (.world a)) (hmove : s.move a = some s') : Inv s' := by
  by_cases hfd : a.fd? = none
  · obtain ⟨w, hstep, rfl⟩ := Option.map_eq_some_iff.mp hmove
    have hnew : ∀ fd, a ≠ .accept fd := by
      rintro fd rfl
      exact absurd hfd (by simp [Act.fd?])
    have hunheld : Unheld s.world a := by
      cases a <;> first | exact trivial | exact absurd hfd (by simp [Act.fd?])
    simp only [if_neg (hnew _)]
    refine h.shrink (Descriptors.inv_step h.world hunheld hstep) (shrinks_step hstep hsend hfd)
      h.sends (List.Sublist.refl _) rfl fun c => ?_
    obtain ⟨ks, tail, hc⟩ := h.transcript c
    refine ⟨ks, tail, hc.keep (fun _ _ => rfl) h.known rfl fun fd hfd => ⟨?_, fun _ _ => Iff.rfl⟩⟩
    exact (Option.ite_none_right_eq_some.mp hfd).2
  · cases a with
    | accept fd => exact h.accept hok hmove
    | dial d fd => exact h.dial hok hmove
    | _ => exact absurd rfl hfd

/-- A message is begun. -/
theorem Inv.begin (h : Inv s) {id : Id} {fd : Fd} (htarget : target s.world.regs id = some fd)
    (halone : ∀ snd ∈ s.sends, snd.fd ≠ fd) (payload : List Byte) :
    Inv (s.begin id fd payload) := by
  obtain ⟨msg, hmsg⟩ : ∃ msg, msg = (⟨s.world.issued id,
    encode ((s.world.regs.fdExists fd).getD .http) payload⟩ : Message) := ⟨_, rfl⟩
  have heq : s.begin id fd payload = { s with
      world := s.world.processDeliver id, log := s.log ++ [msg]
      sends := ⟨fd, s.log.length, 0⟩ :: s.sends } := by
    rw [hmsg]
    rfl
  have hworld : s.world.processDeliver id =
      { s.world with sends := (fd, s.world.issued id) :: s.world.sends } := by
    rw [World.processDeliver, htarget]
  have hlog : ∀ k < s.log.length, (s.log ++ [msg])[k]? = s.log[k]? := fun k hk =>
    List.getElem?_append_left hk
  have hlast : Sending.dest (s.log ++ [msg]) s.log.length = s.world.issued id := by
    rw [Sending.dest, List.getElem?_concat_length, hmsg]
    rfl
  -- the descriptor is the socket of the client of the task that registered it
  obtain ⟨hfd, hlive⟩ := target_eq_some.mp htarget
  obtain ⟨c, conn, hconn, hcfd, -⟩ := h.world.live fd hlive
  rw [heq]
  exact { h with
    world := h.world.processDeliver id
    sends := by
      show (s.world.processDeliver id).sends = _
      rw [hworld, List.map_cons, hlast]
      show _ :: s.world.sends = _
      rw [h.sends]
      refine congrArg _ (List.map_congr_left fun snd hsnd => ?_)
      rw [Sending.dest, Sending.dest, hlog snd.msg (h.known snd hsnd)]
    known := fun snd hsnd => by
      rw [List.length_append, List.length_singleton]
      rcases List.mem_cons.mp hsnd with rfl | hsnd
      · exact Nat.lt_succ_self _
      · exact Nat.lt_succ_of_lt (h.known snd hsnd)
    alone := by
      refine List.nodup_cons.mpr ⟨?_, h.alone⟩
      intro hmem
      obtain ⟨snd, hsnd, hsame⟩ := List.mem_map.mp hmem
      exact halone snd hsnd hsame
    owner := by
      rw [hworld]
      exact h.owner
    front := by
      rw [hworld]
      exact h.front
    dest := fun snd hsnd => by
      rw [hworld]
      rcases List.mem_cons.mp hsnd with rfl | hsnd
      · exact hcfd ▸ h.front c conn hconn
      · exact h.dest snd hsnd
    early := by
      rw [hworld]
      exact h.early
    fresh := by
      rw [hworld]
      exact h.fresh
    transcript := fun d => by
      obtain ⟨ks, tail, hd⟩ := h.transcript d
      by_cases hclient : s.clients fd = some d
      · -- nothing was on its way, so the new message is the next
        have hd' : Transcript { s with log := s.log ++ [msg] } d ks tail :=
          hd.keep hlog h.known rfl fun _ hgd => ⟨hgd, fun _ _ => Iff.rfl⟩
        obtain rfl := hd.idle fd hclient halone
        refine ⟨ks, [], hd.nodup, hd'.addressed, hd'.received, ?_, fun _ _ _ => rfl, .inl rfl⟩
        intro snd hsnd hc
        rcases List.mem_cons.mp hsnd with rfl | hsnd
        · exact ⟨fun hk => absurd (lt_of_addressed (hd.addressed _ hk)) (lt_irrefl _), rfl⟩
        · exact absurd (h.inj _ _ d hc hclient) (halone snd hsnd)
      · refine ⟨ks, tail, hd.keep hlog h.known rfl fun gd hgd => ⟨hgd, fun snd hsnd => ?_⟩⟩
        have hne : gd ≠ fd := fun heq => hclient (heq ▸ hgd)
        refine List.mem_cons.trans (or_iff_right ?_)
        rintro rfl
        exact hne hsnd.symm }

/-- A whole message has been sent. -/
theorem Inv.sent (h : Inv s) (hk : s.sends[k]? = some snd)
    (hfull : snd.tot = (tagged s.log snd.msg).length)
    (hleave : s.leave k (.sent k) = some s') : Inv s' := by
  have hmem : snd ∈ s.sends := List.mem_of_getElem? hk
  have hsub := List.eraseIdx_sublist s.sends k
  obtain ⟨w, hstep, rfl⟩ := Option.map_eq_some_iff.mp hleave
  have hw := @Descriptors.inv_step _ w (.sent k) h.world trivial hstep
  obtain ⟨x, -, rfl⟩ := Option.map_eq_some_iff.mp hstep
  refine h.shrink hw (.refl _) (by rw [h.sends, List.eraseIdx_map]) hsub rfl fun c => ?_
  obtain ⟨ks, tail, hc⟩ := h.transcript c
  by_cases hclient : s.clients snd.fd = some c
  · obtain ⟨hks, htail⟩ := hc.sending snd hmem hclient
    refine ⟨ks ++ [snd.msg], [], ?_, ?_, ?_, ?_, fun _ _ _ => rfl, .inl rfl⟩
    · exact List.nodup_append.mpr ⟨hc.nodup, List.nodup_singleton _, fun a ha b hb heq =>
        hks (List.mem_singleton.mp hb ▸ heq ▸ ha)⟩
    · exact List.forall_mem_append.mpr ⟨hc.addressed,
        List.forall_mem_singleton.mpr (h.addressed hmem hclient)⟩
    · show s.received c = (ks ++ [snd.msg]).flatMap (tagged s.log) ++ []
      rw [hc.received, htail, hfull, List.take_length, List.flatMap_append, List.flatMap_singleton,
        List.append_nil]
    · intro snd' hsnd' hc'
      have hfd := h.inj _ _ c (Option.ite_none_right_eq_some.mp hc').2 hclient
      exact absurd hfd (fd_ne_of_mem_eraseIdx h.alone hk hsnd')
  · refine ⟨ks, tail, hc.keep (fun _ _ => rfl) h.known rfl fun fd hfd => ?_⟩
    have hfd := (Option.ite_none_right_eq_some.mp hfd).2
    refine ⟨hfd, fun snd' hsnd' => mem_eraseIdx_iff hk ?_⟩
    rintro heq
    exact hclient (heq ▸ hsnd'.symm ▸ hfd)

/-- A send has failed, and the descriptor is closed. -/
theorem Inv.sendFailed (h : Inv s) (hk : s.sends[k]? = some snd)
    (hleave : s.leave k (.sendFailed k) = some s') : Inv s' := by
  have hsub := List.eraseIdx_sublist s.sends k
  obtain ⟨w, hstep, rfl⟩ := Option.map_eq_some_iff.mp hleave
  have hw := @Descriptors.inv_step _ w (.sendFailed k) h.world trivial hstep
  obtain ⟨⟨fd, b⟩, hfd, rfl⟩ := Option.map_eq_some_iff.mp hstep
  obtain rfl : snd.fd = fd := by
    have hfd : s.world.sends[k]? = some (fd, b) := hfd
    rw [h.sends, List.getElem?_map, hk] at hfd
    exact congrArg Prod.fst (Option.some.inj hfd)
  refine h.shrink hw (.disconnect b snd.fd) (by rw [h.sends, List.eraseIdx_map]) hsub rfl fun c => ?_
  obtain ⟨ks, tail, hc⟩ := h.transcript c
  refine ⟨ks, tail, hc.keep (fun _ _ => rfl) h.known rfl fun gd hgd => ?_⟩
  obtain ⟨hopen, hgd⟩ := Option.ite_none_right_eq_some.mp hgd
  refine ⟨hgd, fun snd' hsnd' => mem_eraseIdx_iff hk ?_⟩
  -- the number of the send is not open any more
  intro heq
  have hclosed : (({ s.world with sends := s.world.sends.eraseIdx k } : World).disconnect b
    snd.fd).2.owner snd.fd = none := Function.update_self ..
  rw [← hsnd', heq] at hopen
  exact absurd hopen (by rw [hclosed]; simp)

/-- `fdsend` goes on. -/
theorem Inv.resume (h : Inv s) {calls : List SendCall} (hresume : s.resume k calls = some s') :
    Inv s' := by
  obtain ⟨snd, hk, hresume⟩ := Option.bind_eq_some_iff.mp hresume
  obtain ⟨⟨stop, tot⟩, hsend, hresume⟩ := Option.bind_eq_some_iff.mp hresume
  obtain ⟨hle, hclosed, hfull⟩ := fdsend_spec hsend
  have hadvance : Inv (s.advance k snd tot) := by
    refine h.advance hk hle fun hnone => hclosed ?_
    rw [hnone]
    rfl
  obtain ⟨hlog, hk'⟩ : (s.advance k snd tot).log = s.log ∧
      (s.advance k snd tot).sends[k]? = some { snd with tot := tot } := by
    have hlt : k < s.sends.length := (List.getElem?_eq_some_iff.mp hk).1
    have hput : ∀ xs, (s.put snd.fd xs).log = s.log ∧ (s.put snd.fd xs).sends = s.sends := by
      intro xs
      rw [Sys.put]
      split <;> exact ⟨rfl, rfl⟩
    refine ⟨(hput _).1, ?_⟩
    rw [Sys.advance, (hput _).2]
    exact List.getElem?_set_self hlt
  cases stop with
  | waits =>
    obtain rfl := Option.some.inj hresume
    exact hadvance
  | sent =>
    refine hadvance.sent hk' ?_ hresume
    rw [hlog]
    exact hfull rfl
  | failed => exact hadvance.sendFailed hk' hresume

theorem inv_step {a : Act} (h : Inv s) (hok : Alone s a) (hstep : step s a = some s') : Inv s' := by
  cases a with
  | world a =>
    rw [step] at hstep
    split at hstep
    · exact absurd hstep (by simp)
    · rename_i hsend
      exact h.move (Bool.eq_false_of_not_eq_true hsend) hok hstep
  | deliver id payload calls =>
    obtain ⟨-, hstep⟩ := Option.ite_none_left_eq_some.mp hstep
    rw [Sys.deliver] at hstep
    cases htarget : target s.world.regs id with
    | none =>
      rw [htarget] at hstep
      exact Option.some.inj hstep ▸ h
    | some fd =>
      rw [htarget] at hstep
      refine (h.begin htarget (fun snd hsnd heq => ?_) payload).resume hstep
      exact hok snd hsnd (htarget.trans (congrArg some heq.symm))
  | resume k calls => exact h.resume hstep

end steps

/-- A message of one byte in the middle of one of two. -/
theorem not_whole_of_between {s : Sys} (hlog : s.log = [⟨some 0, [65, 66]⟩, ⟨some 0, [67]⟩])
    (hreceived : s.received 0 = [(0, 65), (1, 67)]) : ¬Whole s := by
  intro h
  obtain ⟨ks, tail, -, hks, heq, htail⟩ := h.received 0
  have hdata : ∀ {k}, Addressed s k 0 →
      tagged s.log k = [(0, 65), (0, 66)] ∨ tagged s.log k = [(1, 67)] := by
    intro k hk
    have hlt := lt_of_addressed hk
    rw [hlog] at hlt ⊢
    match k, hlt with
    | 0, _ => exact .inl rfl
    | 1, _ => exact .inr rfl
  rw [hreceived] at heq
  cases ks with
  | nil =>
    rw [List.flatMap_nil, List.nil_append] at heq
    subst heq
    rcases htail with hnil | ⟨k, -, hto, hpre, -⟩
    · exact absurd hnil (by simp)
    · rcases hdata hto with hk | hk <;> rw [hk] at hpre <;> exact absurd hpre (by decide)
  | cons k ks =>
    rw [List.flatMap_cons] at heq
    rcases hdata (hks k (List.mem_cons_self ..)) with hk | hk <;> rw [hk] at heq <;>
      exact absurd heq (by simp)

/-- A byte of a message for another connection. -/
theorem not_whole_of_strayed {s : Sys} (hlog : s.log = [⟨some 0, [65, 66]⟩])
    (hreceived : s.received 1 = [(0, 66)]) : ¬Whole s := by
  intro h
  obtain ⟨ks, tail, -, hks, heq, htail⟩ := h.received 1
  have hnone : ∀ {k}, ¬Addressed s k 1 := by
    intro k hk
    have hlt := lt_of_addressed hk
    rw [Addressed, hlog] at hk
    rw [hlog] at hlt
    match k, hlt with
    | 0, _ => exact absurd hk (by decide)
  obtain rfl : ks = [] := List.eq_nil_iff_forall_not_mem.mpr fun k hk => hnone (hks k hk)
  rcases htail with rfl | ⟨k, -, hto, -⟩
  · rw [hreceived] at heq
    exact absurd heq (by simp)
  · exact hnone hto

end Sending

end Mongrel2

/-
Reading a request's header (`connection.c`).

* `Conn.readHeader` — `Connection_read_header`: read and parse until the header
  is complete;
* `readHeader_spec` — what a success says: the buffer holds the first bytes of
  the stream, the rest is still to come, and the request is the parse of the
  buffer;
* `parse_until` — a header known beforehand is read if it fits, however it is split;
* `refuses_iff` — a stream without a header is answered with a 400 in no case but that of
  a buffer without room.

Design notes: `conn->recv` is a `recv` on the client's stream; that it blocks
while there is nothing to come and that it fails are both an empty read, after
which the connection is given up.  `Response_send_status` is recorded by its
number, and a call of `Request_to_payload` by the body it is given.
-/
import Mongrel2.HttpParser

namespace Mongrel2

open ByteStream

/-- The limits of `Connection_init`. -/
structure Limits where
  bufferSize : ℕ
  maxContentLength : ℕ

/-- A `Connection`, with its socket and what it has sent out. -/
structure Conn where
  buf : Buffer
  nread : ℕ
  nparsed : ℕ
  close : Bool
  req : Request
  remote : List Byte
  sock : Socket
  replies : List ℕ
  payloads : List (List Byte)

namespace Conn

variable (lim : Limits) (c : Conn)

/-- `Connection_create`. -/
def create (remote : List Byte) (sock : Socket) : Conn :=
  ⟨.zeroed (lim.bufferSize + 1), 0, 0, false, .create, remote, sock, [], []⟩

/-- `conn->recv` of at most `len` bytes to position `pos` of the buffer. -/
def recv (pos len : ℕ) : List Byte × Conn :=
  ((c.sock.recv len).1,
    { c with buf := c.buf.write pos (c.sock.recv len).1, sock := (c.sock.recv len).2 })

/-- `Response_send_status`. -/
def reply (status : ℕ) : Conn := { c with replies := c.replies ++ [status] }

/-- `Request_parse` on the `nread` bytes of the buffer. -/
def requestParse : Conn :=
  { c with
    req := (c.req.execute (c.buf.slice 0 c.nread) c.nparsed).1
    nparsed := (c.req.execute (c.buf.slice 0 c.nread) c.nparsed).2 }

/-- The loop of `Connection_read_header`: `finished`, unless a `recv` failed. -/
def readHeaderLoop : ℕ → ℤ → ℕ → ℤ → Conn → Option ℤ × Conn
  | 0, finished, _, _, c => (some finished, c)
  | n + 1, finished, curBuf, remaining, c =>
    if finished = 1 ∨ remaining < 0 then (some finished, c)
    else
      let (got, c) := c.recv curBuf remaining.toNat
      if got = [] then (none, c)
      else
        let c := { c with nread := c.nread + got.length }
        if c.buf.mem lim.bufferSize ≠ 0 then (none, c)
        else
          let c := c.requestParse
          readHeaderLoop n c.req.finish c.nread (lim.bufferSize - 1 - c.nread) c

/-- `check_should_close`: the new `conn->close`. -/
def shouldClose (req : Request) : Bool :=
  if req.version = some (bytes "HTTP/1.0") then true
  else
    match req.get (bytes "Connection") with
    | some v => sameCaseless v (bytes "close")
    | none => false

/-- `Connection_read_header`; the result is -1 or the new `nread`.  An iteration
reads a byte or fails, so `BUFFER_SIZE` of them are enough. -/
def readHeader : ℤ × Conn :=
  let c := { c with
    nparsed := 0, req := c.req.start, buf := c.buf.write lim.bufferSize [0] }
  match readHeaderLoop lim lim.bufferSize 0 0 (lim.bufferSize - 1) c with
  | (none, c) => (-1, c)
  | (some finished, c) =>
    if finished = 1 then
      let req := { c.req with headers := c.req.headers ++ [(bytes "X-Forwarded-For", c.remote)] }
      (c.nread, { c with req := req, close := shouldClose req })
    else (-1, c.reply 400)

/-- `connection_parse`. -/
def parse : Option Conn :=
  let (rc, c) := readHeader lim { c with nread := 0 }
  if 0 < rc then some c else none

end Conn

/-! ### Reading up to the end of the header -/

open Request

/-- Since `c₀`, `m` bytes of the stream have been read into the buffer and
parsed. -/
structure Reading (lim : Limits) (c₀ c : Conn) (m : ℕ) : Prop where
  nread : c.nread = m
  le : m ≤ c₀.sock.stream.length
  slice : c.buf.slice 0 m = c₀.sock.stream.take m
  stream : c.sock.stream = c₀.sock.stream.drop m
  req : c.req = (c₀.req.parse (c₀.sock.stream.take m)).1
  nparsed : c.nparsed = (c₀.req.parse (c₀.sock.stream.take m)).2
  cap : c.buf.mem lim.bufferSize = 0
  alloc : c.buf.alloc = c₀.buf.alloc
  inBounds : c.buf.overrun = c₀.buf.overrun
  frame : c.remote = c₀.remote ∧ c.replies = c₀.replies ∧ c.payloads = c₀.payloads

/-- The header is complete in the first `k` bytes of the stream. -/
def Complete (r : Request) (stream : List Byte) (k : ℕ) : Prop :=
  (r.parse (stream.take k)).1.parser.cs.isFinished = true

theorem Complete.mono {r : Request} {stream : List Byte} {k m : ℕ} (h : Complete r stream k)
    (hkm : k ≤ m) : Complete r stream m := by
  rw [Complete, finished_of_prefix r (List.take_prefix_take_left hkm) h]
  exact h

/-- One iteration of the loop that reads something. -/
theorem Reading.recv {lim : Limits} {c₀ c : Conn} {m : ℕ} (h : Reading lim c₀ c m)
    (halloc : lim.bufferSize < c₀.buf.alloc) (hm : m < lim.bufferSize)
    (hfin : ¬ Complete c₀.req c₀.sock.stream m) {got : List Byte} {c' : Conn}
    (hrecv : c.recv m (lim.bufferSize - 1 - m) = (got, c')) :
    got.length ≤ lim.bufferSize - 1 - m ∧ c'.buf.mem lim.bufferSize = 0 ∧
      Reading lim c₀ ({ c' with nread := c'.nread + got.length } : Conn).requestParse
        (m + got.length) := by
  obtain ⟨rfl, rfl⟩ := Prod.mk.inj hrecv
  have hlen := c.sock.length_recv_le (lim.bufferSize - 1 - m)
  have hsplit := c.sock.recv_append (lim.bufferSize - 1 - m)
  generalize (c.sock.recv (lim.bufferSize - 1 - m)).1 = got at *
  have hcap : (c.buf.write m got).mem lim.bufferSize = 0 := by
    rw [Buffer.mem_write_of_le _ _ _ (by omega), h.cap]
  -- the stream as what was read before, what was read now, and the rest
  have hstream : c₀.sock.stream = c₀.sock.stream.take m ++ got ++
      (c.sock.recv (lim.bufferSize - 1 - m)).2.stream := by
    rw [List.append_assoc, hsplit, h.stream, List.take_append_drop]
  have hlen₀ : (c₀.sock.stream.take m ++ got).length = m + got.length := by
    rw [List.length_append, List.length_take, Nat.min_eq_left h.le]
  have htake : c₀.sock.stream.take (m + got.length) = c₀.sock.stream.take m ++ got := by
    conv_lhs => rw [hstream]
    exact List.take_left' hlen₀
  have hslice : (c.buf.write m got).slice 0 (m + got.length) = c₀.sock.stream.take m ++ got := by
    rw [Buffer.slice_write_append, h.slice]
  have hparse : c.req.execute ((c.buf.write m got).slice 0 (m + got.length)) c.nparsed =
      c₀.req.parse (c₀.sock.stream.take (m + got.length)) := by
    rw [hslice, htake, h.req, h.nparsed]
    exact execute_parse _ _ _ (Bool.eq_false_iff.mpr hfin)
  refine ⟨hlen, hcap, ?_⟩
  exact {
    nread := by
      change c.nread + got.length = m + got.length
      rw [h.nread]
    le := by
      have hle := congrArg List.length hstream
      rw [List.length_append, hlen₀] at hle
      omega
    slice := hslice.trans htake.symm
    stream := by
      conv_rhs => rw [hstream]
      exact (List.drop_left' hlen₀).symm
    req := by
      change (c.req.execute ((c.buf.write m got).slice 0 (c.nread + got.length)) c.nparsed).1 = _
      rw [h.nread, hparse]
    nparsed := by
      change (c.req.execute ((c.buf.write m got).slice 0 (c.nread + got.length)) c.nparsed).2 = _
      rw [h.nread, hparse]
    cap := hcap
    alloc := h.alloc
    inBounds := by
      rw [← h.inBounds]
      refine Bool.eq_iff_iff.mpr ((Buffer.overrun_write ..).trans (or_iff_left ?_))
      rw [h.alloc]
      omega
    frame := h.frame }

/-- The loop ends with a complete header that it had room for, or there is none. -/
theorem readHeaderLoop_spec {lim : Limits} {c₀ : Conn} (halloc : lim.bufferSize < c₀.buf.alloc)
    {n m : ℕ} {f : ℤ} {c : Conn} (h : Reading lim c₀ c m) (hm : m < lim.bufferSize)
    (hn : lim.bufferSize ≤ n + m) (hfin : ¬ Complete c₀.req c₀.sock.stream m) (hf : f ≠ 1) :
    (∃ c' m', Conn.readHeaderLoop lim n f m (lim.bufferSize - 1 - m) c = (some 1, c') ∧
      Reading lim c₀ c' m' ∧ m' < lim.bufferSize ∧ Complete c₀.req c₀.sock.stream m') ∨
    ((Conn.readHeaderLoop lim n f m (lim.bufferSize - 1 - m) c).1 = none ∧
      ∀ k < lim.bufferSize, k ≤ c₀.sock.stream.length → ¬ Complete c₀.req c₀.sock.stream k) := by
  induction n generalizing m f c with
  | zero => omega
  | succ n ih =>
    have hrem : ((lim.bufferSize : ℤ) - 1 - m).toNat = lim.bufferSize - 1 - m := by omega
    have hgo : ¬ (f = 1 ∨ (lim.bufferSize : ℤ) - 1 - m < 0) := by omega
    rw [Conn.readHeaderLoop, if_neg hgo, hrem]
    rcases hrecv : c.recv m (lim.bufferSize - 1 - m) with ⟨got, c'⟩
    dsimp only
    by_cases hgot : got = []
    · -- nothing more to come, or no room left
      rw [if_pos hgot]
      refine .inr ⟨rfl, fun k hk hkle hc => hfin (hc.mono ?_)⟩
      have hnil : (c.sock.recv (lim.bufferSize - 1 - m)).1 = [] := by
        rw [← hgot]
        exact congrArg Prod.fst hrecv
      by_cases hroom : 0 < lim.bufferSize - 1 - m
      · have hdrop : c₀.sock.stream.drop m = [] := by
          rw [← h.stream]
          exact (Socket.recv_eq_nil hroom).mp hnil
        have hle := List.drop_eq_nil_iff.mp hdrop
        omega
      · omega
    · obtain ⟨hlen, hcap, hnext⟩ := h.recv halloc hm hfin hrecv
      have hpos : 0 < got.length := List.length_pos_iff.mpr hgot
      rw [if_neg hgot, if_neg (by simpa using hcap)]
      generalize hc'' : ({ c' with nread := c'.nread + got.length } : Conn).requestParse = c'' at *
      have hnread : (c''.nread : ℤ) = (m + got.length : ℕ) := congrArg _ hnext.nread
      rw [hnread, hnext.nread]
      by_cases hdone : Complete c₀.req c₀.sock.stream (m + got.length)
      · have hfinish : c''.req.finish = 1 := by
          rw [finish_eq_one, hnext.req]
          exact hdone
        refine .inl ⟨c'', m + got.length, ?_, hnext, by omega, hdone⟩
        rw [hfinish]
        cases n with
        | zero => rfl
        | succ n => rw [Conn.readHeaderLoop, if_pos (.inl rfl)]
      · refine ih hnext (by omega) (by omega) hdone fun hfinish => hdone ?_
        rw [Complete, ← hnext.req]
        exact (finish_eq_one _).mp hfinish

/-- What a successful `Connection_read_header` on an empty buffer leaves: it took
`m` bytes of the stream, which hold the header. -/
structure HeaderRead (lim : Limits) (c c' : Conn) (m : ℕ) : Prop where
  lt : m < lim.bufferSize
  le : m ≤ c.sock.stream.length
  complete : Complete c.req c.sock.stream m
  nread : c'.nread = m
  slice : c'.buf.slice 0 m = c.sock.stream.take m
  stream : c'.sock.stream = c.sock.stream.drop m
  req : c'.req = { (c.req.parse (c.sock.stream.take m)).1 with
    headers := (c.req.parse (c.sock.stream.take m)).1.headers ++
      [(bytes "X-Forwarded-For", c.remote)] }
  nparsed : c'.nparsed = (c.req.parse (c.sock.stream.take m)).2
  close : c'.close = Conn.shouldClose c'.req
  alloc : c'.buf.alloc = c.buf.alloc
  inBounds : c'.buf.overrun = c.buf.overrun
  frame : c'.remote = c.remote ∧ c'.replies = c.replies ∧ c'.payloads = c.payloads

/-- The state `Connection_read_header` starts its loop in. -/
def Conn.cleared (lim : Limits) (c : Conn) : Conn :=
  { c with nparsed := 0, req := c.req.start, buf := c.buf.write lim.bufferSize [0] }

theorem reading_cleared {lim : Limits} {c : Conn} (hn : c.nread = 0) :
    Reading lim { c with buf := c.buf.write lim.bufferSize [0] } (c.cleared lim) 0 := by
  have hcap : (c.buf.write lim.bufferSize [0]).mem lim.bufferSize = 0 := by
    simp [Buffer.write]
  exact ⟨hn, Nat.zero_le _, rfl, rfl, rfl, rfl, hcap, rfl, rfl, rfl, rfl, rfl⟩

theorem not_complete_zero (r : Request) (stream : List Byte) : ¬ Complete r stream 0 := by
  simp [Complete, Request.parse, Request.execute, Request.start, HttpParser.Cs.isFinished]

theorem readHeader_of_none {lim : Limits} {c : Conn}
    (h : (Conn.readHeaderLoop lim lim.bufferSize 0 0 (lim.bufferSize - 1) (c.cleared lim)).1 = none) :
    (c.readHeader lim).1 = -1 := by
  rw [Conn.readHeader]
  rcases hrun : Conn.readHeaderLoop lim lim.bufferSize 0 0 (lim.bufferSize - 1) (c.cleared lim) with
    ⟨o, c'⟩
  rw [hrun] at h
  subst h
  rw [Conn.cleared] at hrun
  rw [hrun]

theorem readHeader_of_one {lim : Limits} {c c' : Conn} {m : ℕ}
    (halloc : lim.bufferSize < c.buf.alloc)
    (hrun : Conn.readHeaderLoop lim lim.bufferSize 0 0 (lim.bufferSize - 1) (c.cleared lim) =
      (some 1, c'))
    (h : Reading lim { c with buf := c.buf.write lim.bufferSize [0] } c' m)
    (hm : m < lim.bufferSize) (hc : Complete c.req c.sock.stream m) :
    ∃ c'', c.readHeader lim = (↑m, c'') ∧ HeaderRead lim c c'' m ∧ c''.sock = c'.sock := by
  have hover : (c.buf.write lim.bufferSize [0]).overrun = c.buf.overrun := by
    refine Bool.eq_iff_iff.mpr ((Buffer.overrun_write ..).trans (or_iff_left ?_))
    rw [List.length_singleton]
    omega
  have hres : c.readHeader lim = (↑c'.nread, { c' with
      req := { c'.req with headers := c'.req.headers ++ [(bytes "X-Forwarded-For", c'.remote)] }
      close := Conn.shouldClose
        { c'.req with headers := c'.req.headers ++ [(bytes "X-Forwarded-For", c'.remote)] } }) := by
    rw [Conn.cleared] at hrun
    rw [Conn.readHeader, hrun]
    rfl
  rw [hres]
  refine ⟨_, Prod.ext (congrArg Nat.cast h.nread) rfl, ?_, rfl⟩
  exact {
    lt := hm
    le := h.le
    complete := hc
    nread := h.nread
    slice := h.slice
    stream := h.stream
    req := by
      dsimp only
      rw [h.req, h.frame.1]
    nparsed := h.nparsed
    close := rfl
    alloc := h.alloc
    inBounds := h.inBounds.trans hover
    frame := h.frame }

/-- **Reading a header into an empty buffer** succeeds exactly if the stream
starts with a complete header that there is room for, however it is split. -/
theorem readHeader_spec {lim : Limits} {c : Conn} (hpos : 0 < lim.bufferSize)
    (halloc : lim.bufferSize < c.buf.alloc) (hn : c.nread = 0) :
    (∃ (m : ℕ) (c' : Conn), c.readHeader lim = (↑m, c') ∧ HeaderRead lim c c' m) ∨
    ((c.readHeader lim).1 = -1 ∧
      ∀ k < lim.bufferSize, k ≤ c.sock.stream.length → ¬ Complete c.req c.sock.stream k) := by
  have hloop := @readHeaderLoop_spec lim { c with buf := c.buf.write lim.bufferSize [0] }
    halloc lim.bufferSize 0 0 _ (reading_cleared hn) hpos (by omega) (not_complete_zero _ _)
    (by decide)
  rw [Nat.cast_zero, Int.sub_zero] at hloop
  rcases hloop with ⟨c', m, hrun, h, hm, hc⟩ | ⟨hnone, hno⟩
  · obtain ⟨c'', hres, hread, -⟩ := readHeader_of_one halloc hrun h hm hc
    exact .inl ⟨m, c'', hres, hread⟩
  · exact .inr ⟨readHeader_of_none hnone, hno⟩

/-! ### A header known beforehand -/

/-- The parse of `h` by `r` is done at its last byte. -/
structure IsHeader (r : Request) (h : List Byte) : Prop where
  finished : (r.parse h).1.parser.cs.isFinished = true
  nparsed : (r.parse h).2 = h.length

theorem IsHeader.ne_nil {r : Request} {h : List Byte} (hh : IsHeader r h) : h ≠ [] := by
  rintro rfl
  exact not_complete_zero r [] hh.finished

theorem IsHeader.complete_iff {r : Request} {h stream : List Byte} (hh : IsHeader r h)
    (hpre : h <+: stream) (k : ℕ) : Complete r stream k ↔ h.length ≤ k := by
  have htake : stream.take h.length = h := (List.prefix_iff_eq_take.mp hpre).symm
  constructor
  · intro hc
    by_contra hlt
    have hshort : stream.take k <+: h := by
      rw [← htake]
      exact List.take_prefix_take_left (by omega)
    have hne : stream.take k ≠ [] := fun hnil => by
      rw [Complete, hnil] at hc
      exact not_complete_zero r [] hc
    have hle := parse_le_length hne r
    rw [← finished_of_prefix r hshort hc, hh.nparsed, List.length_take] at hle
    omega
  · intro hle
    refine Complete.mono ?_ hle
    rw [Complete, htake]
    exact hh.finished

/-- What a `recv` loop that has room for `room` bytes has taken when it first has
`len`, and the socket it leaves. -/
def readUntil (room len : ℕ) : ℕ → ℕ → Socket → Option (ℕ × Socket)
  | 0, _, _ => none
  | n + 1, m, s =>
    let (got, s') := s.recv (room - m)
    if got = [] then none
    else if len ≤ m + got.length then some (m + got.length, s')
    else readUntil room len n (m + got.length) s'

theorem readHeaderLoop_until {lim : Limits} {c₀ : Conn} {h : List Byte}
    (halloc : lim.bufferSize < c₀.buf.alloc) (hh : IsHeader c₀.req h)
    (hpre : h <+: c₀.sock.stream) {n m : ℕ} {f : ℤ} {c : Conn} (hread : Reading lim c₀ c m)
    (hm : m < lim.bufferSize) (hn : lim.bufferSize ≤ n + m) (hlt : m < h.length) (hf : f ≠ 1) :
    match readUntil (lim.bufferSize - 1) h.length n m c.sock with
    | none => (Conn.readHeaderLoop lim n f m (lim.bufferSize - 1 - m) c).1 = none
    | some (m', s) => ∃ c', Conn.readHeaderLoop lim n f m (lim.bufferSize - 1 - m) c = (some 1, c') ∧
        Reading lim c₀ c' m' ∧ m' < lim.bufferSize ∧ h.length ≤ m' ∧ c'.sock = s := by
  have hcomplete := hh.complete_iff hpre
  induction n generalizing m f c with
  | zero => omega
  | succ n ih =>
    have hrem : ((lim.bufferSize : ℤ) - 1 - m).toNat = lim.bufferSize - 1 - m := by omega
    have hgo : ¬ (f = 1 ∨ (lim.bufferSize : ℤ) - 1 - m < 0) := by omega
    have hfin : ¬ Complete c₀.req c₀.sock.stream m := by
      rw [hcomplete]
      omega
    rw [Conn.readHeaderLoop, if_neg hgo, hrem, readUntil]
    rcases hrecv : c.recv m (lim.bufferSize - 1 - m) with ⟨got, c'⟩
    have hgot₁ : (c.sock.recv (lim.bufferSize - 1 - m)).1 = got := congrArg Prod.fst hrecv
    have hsock₁ : (c.sock.recv (lim.bufferSize - 1 - m)).2 = c'.sock :=
      congrArg (fun p => p.2.sock) hrecv
    dsimp only
    rw [hgot₁, hsock₁]
    by_cases hgot : got = []
    · rw [if_pos hgot, if_pos hgot]
    · obtain ⟨hlen, hcap, hnext⟩ := hread.recv halloc hm hfin hrecv
      have hpos : 0 < got.length := List.length_pos_iff.mpr hgot
      have hcap : ¬ c'.buf.mem lim.bufferSize ≠ 0 := by simpa using hcap
      have hsock₂ : ({ c' with nread := c'.nread + got.length } : Conn).requestParse.sock =
        c'.sock := rfl
      rw [if_neg hgot, if_neg hgot, if_neg hcap]
      generalize ({ c' with nread := c'.nread + got.length } : Conn).requestParse = c'' at *
      rw [← hsock₂]
      have hnread : (c''.nread : ℤ) = (m + got.length : ℕ) := congrArg _ hnext.nread
      rw [hnread, hnext.nread]
      by_cases hdone : h.length ≤ m + got.length
      · have hfinish : c''.req.finish = 1 := by
          rw [finish_eq_one, hnext.req]
          exact (hcomplete _).mpr hdone
        rw [if_pos hdone, hfinish]
        refine ⟨c'', ?_, hnext, by omega, hdone, rfl⟩
        cases n with
        | zero => rfl
        | succ n => rw [Conn.readHeaderLoop, if_pos (.inl rfl)]
      · rw [if_neg hdone]
        refine ih hnext (by omega) (by omega) (by omega) fun hfinish => hdone ?_
        rw [← hcomplete, Complete, ← hnext.req]
        exact (finish_eq_one _).mp hfinish

/-- **Reading a header known beforehand**: where the reading stops depends only on
its length and on how the stream is split. -/
theorem parse_until {lim : Limits} {c : Conn} {h : List Byte} (hpos : 0 < lim.bufferSize)
    (halloc : lim.bufferSize < c.buf.alloc) (hh : IsHeader c.req h) (hpre : h <+: c.sock.stream) :
    match readUntil (lim.bufferSize - 1) h.length lim.bufferSize 0 c.sock with
    | none => c.parse lim = none
    | some (m, s) => ∃ c', c.parse lim = some c' ∧ HeaderRead lim { c with nread := 0 } c' m ∧
        h.length ≤ m ∧ c'.sock = s := by
  have hloop := @readHeaderLoop_until lim { c with nread := 0, buf := c.buf.write lim.bufferSize [0] }
    h halloc hh hpre lim.bufferSize 0 0 _ (@reading_cleared lim { c with nread := 0 } rfl) hpos
    (by omega) (List.length_pos_iff.mpr hh.ne_nil) (by decide)
  rw [Nat.cast_zero, Int.sub_zero] at hloop
  have hsock : (Conn.cleared lim { c with nread := 0 }).sock = c.sock := rfl
  rw [hsock] at hloop
  rcases hu : readUntil (lim.bufferSize - 1) h.length lim.bufferSize 0 c.sock with _ | ⟨m, s⟩
  · rw [hu] at hloop
    have hrc := @readHeader_of_none lim { c with nread := 0 } hloop
    rcases hr : Conn.readHeader lim { c with nread := 0 } with ⟨rc, c'⟩
    rw [hr] at hrc
    have hneg : ¬ 0 < rc := by
      change rc = -1 at hrc
      omega
    dsimp only
    rw [Conn.parse, hr]
    exact if_neg hneg
  · rw [hu] at hloop
    obtain ⟨c', hrun, hread, hm, hle, hs⟩ := hloop
    have hc : Complete c.req c.sock.stream m := (hh.complete_iff hpre m).mpr hle
    obtain ⟨c'', hres, hread', hs'⟩ := @readHeader_of_one lim { c with nread := 0 } c' m halloc hrun
      hread hm hc
    have hmpos : 0 < m := (List.length_pos_iff.mpr hh.ne_nil).trans_le hle
    refine ⟨c'', ?_, hread', hle, hs'.trans hs⟩
    rw [Conn.parse, hres]
    exact if_pos (by omega)

/-- What `connection_parse` leaves when it answers `REQ_RECV`. -/
theorem headerRead_of_parse {lim : Limits} {c c' : Conn} (hpos : 0 < lim.bufferSize)
    (halloc : lim.bufferSize < c.buf.alloc) (h : c.parse lim = some c') :
    HeaderRead lim { c with nread := 0 } c' c'.nread := by
  rcases @readHeader_spec lim { c with nread := 0 } hpos halloc rfl with
    ⟨m, c'', hrun, hread⟩ | ⟨hfail, -⟩
  · rw [Conn.parse, hrun] at h
    obtain ⟨-, h⟩ := Option.ite_none_right_eq_some.mp h
    obtain rfl := Option.some.inj h
    rw [hread.nread]
    exact hread
  · rw [Conn.parse] at h
    obtain ⟨hrc, -⟩ := Option.ite_none_right_eq_some.mp h
    have hrc : 0 < (Conn.readHeader lim { c with nread := 0 }).1 := hrc
    omega

namespace HeaderRead

variable {lim : Limits} {c c' : Conn} {m : ℕ} (h : HeaderRead lim c c' m)

include h

theorem take_ne_nil : c.sock.stream.take m ≠ [] := by
  intro hnil
  refine absurd h.complete ?_
  simp [Complete, hnil, Request.parse, Request.execute, Request.start, HttpParser.Cs.isFinished]

theorem parser : c'.req.parser = (c.req.parse (c.sock.stream.take m)).1.parser := by
  rw [h.req]

theorem bodyStart_le : c'.req.parser.bodyStart ≤ m := by
  rw [h.parser, parse_bodyStart h.take_ne_nil _ h.complete]
  refine (parse_le_length h.take_ne_nil _).trans ?_
  rw [List.length_take]
  exact Nat.min_le_left ..

/-- The bytes of the buffer are those of the stream. -/
theorem slice_eq {pos n : ℕ} (hle : pos + n ≤ m) :
    c'.buf.slice pos n = (c.sock.stream.drop pos).take n := by
  have hdrop := congrArg (fun xs => (xs.drop pos).take n) h.slice
  rw [Buffer.drop_slice _ _ _ (by omega), Buffer.take_slice _ _ _ (by omega), Nat.zero_add,
    List.drop_take, List.take_take, Nat.min_eq_left (by omega)] at hdrop
  exact hdrop

end HeaderRead

/-- With nothing to come there is no header. -/
theorem parse_of_nil {lim : Limits} {c : Conn} (hpos : 0 < lim.bufferSize)
    (halloc : lim.bufferSize < c.buf.alloc) (hnil : c.sock.stream = []) : c.parse lim = none := by
  refine Option.eq_none_iff_forall_ne_some.mpr fun c' hc' => ?_
  have hread := headerRead_of_parse hpos halloc hc'
  refine hread.take_ne_nil ?_
  have hnil : ({ c with nread := 0 } : Conn).sock.stream = [] := hnil
  rw [hnil, List.take_nil]

example : ((Conn.create ⟨64, 64⟩ [] ⟨bytes "GET / HTTP/1.1\r\n\r\nrest", [3, 20]⟩).parse ⟨64, 64⟩).map
    (fun c => (c.nread, c.nparsed, c.sock.stream)) = some (22, 18, bytes "") := by decide

/-! ### A stream without a header -/

/-- What `conn->nread` is at each `recv` of the loop. -/
def Conn.readHeaderRecvs (lim : Limits) : ℕ → ℤ → ℕ → ℤ → Conn → List ℕ
  | 0, _, _, _, _ => []
  | n + 1, finished, curBuf, remaining, c =>
    if finished = 1 ∨ remaining < 0 then []
    else
      let (got, c') := c.recv curBuf remaining.toNat
      c.nread ::
        if got = [] then []
        else
          let c := { c' with nread := c'.nread + got.length }
          if c.buf.mem lim.bufferSize ≠ (0 : Byte) then []
          else
            let c := c.requestParse
            readHeaderRecvs lim n c.req.finish c.nread (lim.bufferSize - 1 - c.nread) c

/-- The parser rejects the first `k` bytes of the stream. -/
def Rejected (r : Request) (stream : List Byte) (k : ℕ) : Prop :=
  (r.parse (stream.take k)).1.finish = -1

/-- The parser rejects what the client sends, or there is no header in the bytes that the
buffer has room for. -/
def Headless (lim : Limits) (c : Conn) : Prop :=
  (∃ k, Rejected c.req c.sock.stream k) ∨ ∀ k < lim.bufferSize, ¬Complete c.req c.sock.stream k

/-- `Connection_read_header` refuses what the client sends: each `recv` has room, and what
was read before it is not rejected; a single 400 is sent; and the result is -1. -/
structure Refuses (lim : Limits) (c : Conn) : Prop where
  recvs : ∀ m ∈ Conn.readHeaderRecvs lim lim.bufferSize 0 0 (lim.bufferSize - 1) (c.cleared lim),
    m < lim.bufferSize - 1 ∧ ¬Rejected c.req c.sock.stream m
  replies : (c.readHeader lim).2.replies = c.replies ++ [400]
  status : (c.readHeader lim).1 = -1

/-- The loop sends nothing. -/
theorem replies_readHeaderLoop (lim : Limits) (n : ℕ) (f : ℤ) (p : ℕ) (m : ℤ) (c : Conn) :
    (Conn.readHeaderLoop lim n f p m c).2.replies = c.replies := by
  induction n generalizing f p m c with
  | zero => rfl
  | succ n ih =>
    rw [Conn.readHeaderLoop]
    split
    · rfl
    · dsimp only
      split
      · rfl
      · split
        · rfl
        · exact ih ..

theorem complete_of_rejected {r : Request} {stream : List Byte} {k m : ℕ}
    (hrej : Rejected r stream k) (hc : Complete r stream m) : ¬m ≤ k := by
  intro hle
  have hk := (finish_eq_one _).mpr (hc.mono hle)
  rw [Rejected, hk] at hrej
  exact absurd hrej (by decide)

/-- What has been rejected does not become a header. -/
theorem not_complete_of_rejected {r : Request} {stream : List Byte} {k : ℕ}
    (hrej : Rejected r stream k) (m : ℕ) : ¬Complete r stream m := by
  intro hc
  by_cases hle : m ≤ k
  · exact complete_of_rejected hrej hc hle
  · -- the parse of the longer prefix is the one that has failed
    have hprefix : stream.take k <+: stream.take m := List.take_prefix_take_left (by omega)
    obtain ⟨more, hmore⟩ := hprefix
    have herr : (r.parse (stream.take k)).1.parser.cs = .error := by
      unfold Rejected finish at hrej
      split at hrej
      · assumption
      · split at hrej <;> exact absurd hrej (by decide)
    have hne : stream.take k ≠ [] := by
      intro hnil
      rw [hnil] at herr
      exact absurd herr (by simp [Request.parse, Request.execute, Request.start])
    rw [Complete, ← hmore] at hc
    rcases parse_append_cases hne r more with ⟨-, heq⟩ | ⟨hrun, -⟩
    · rw [heq, herr] at hc
      exact absurd hc (by simp [HttpParser.Cs.isFinished])
    · exact hrun (.inl herr)

/-- With room in the buffer, nothing is sent to the client. -/
theorem replies_of_headless {lim : Limits} {c : Conn} (hpos : 0 < lim.bufferSize)
    (halloc : lim.bufferSize < c.buf.alloc) (hn : c.nread = 0) (h : Headless lim c) :
    (c.readHeader lim).2.replies = c.replies := by
  have hno : ∀ k < lim.bufferSize, ¬Complete c.req c.sock.stream k := by
    rcases h with ⟨k, hrej⟩ | hno
    · exact fun m _ => not_complete_of_rejected hrej m
    · exact hno
  have hloop := @readHeaderLoop_spec lim { c with buf := c.buf.write lim.bufferSize [0] }
    halloc lim.bufferSize 0 0 _ (reading_cleared hn) hpos (by omega) (not_complete_zero _ _)
    (by decide)
  rw [Nat.cast_zero, Int.sub_zero] at hloop
  have hreplies := replies_readHeaderLoop lim lim.bufferSize 0 0 (lim.bufferSize - 1) (c.cleared lim)
  rcases hloop with ⟨c', m, -, -, hm, hc⟩ | ⟨hnone, -⟩
  · exact absurd hc (hno m hm)
  · rw [Conn.readHeader]
    rcases hrun : Conn.readHeaderLoop lim lim.bufferSize 0 0 (lim.bufferSize - 1) (c.cleared lim) with
      ⟨o, c'⟩
    rw [hrun] at hnone hreplies
    dsimp only at hnone
    subst hnone
    rw [Conn.cleared] at hrun
    rw [hrun]
    exact hreplies

/-- **A stream without a header is not refused**, unless the buffer has no room at all. -/
theorem refuses_iff {lim : Limits} {c : Conn} (halloc : lim.bufferSize < c.buf.alloc)
    (hn : c.nread = 0) (h : Headless lim c) : Refuses lim c ↔ lim.bufferSize = 0 := by
  constructor
  · intro hrefuses
    by_contra hne
    have hreplies := hrefuses.replies
    rw [replies_of_headless (Nat.pos_of_ne_zero hne) halloc hn h] at hreplies
    exact absurd (congrArg List.length hreplies) (by simp)
  · intro hzero
    -- the loop is not entered
    have hread : c.readHeader lim = (-1, (c.cleared lim).reply 400) := by
      rw [Conn.readHeader, hzero]
      simp [Conn.readHeaderLoop, Conn.cleared, hzero]
    refine ⟨?_, by rw [hread]; rfl, by rw [hread]⟩
    intro m hm
    rw [hzero, Conn.readHeaderRecvs] at hm
    exact absurd hm List.not_mem_nil

/-- A stream of one byte that no request begins with, and some more behind it. -/
def junk : Conn := .create ⟨64, 64⟩ [] ⟨bytes "\x01 and so on", [0]⟩

theorem rejected_junk : Rejected junk.req junk.sock.stream 1 := by
  show (junk.req.parse (junk.sock.stream.take 1)).1.finish = -1
  decide

theorem refuses_iff_junk :
    Refuses ⟨64, 64⟩ junk ↔ (⟨64, 64⟩ : Limits).bufferSize = 0 :=
  refuses_iff (by decide) rfl (.inl ⟨1, rejected_junk⟩)

theorem not_refuses_junk : ¬Refuses ⟨64, 64⟩ junk := by
  intro h
  -- the second `recv` comes after the byte has been rejected
  exact (h.recvs 1 (by decide)).2 rejected_junk

end Mongrel2

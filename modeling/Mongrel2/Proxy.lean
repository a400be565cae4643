/-
The proxy (`proxy.c`, `connection_proxy_reply_parse`).

* `Upstream` — the backend's end of the connection, whose bytes come in pieces;
* `proxyReplyParse` — `connection_proxy_reply_parse`, over `readAndParse`,
  `streamChunks` and `streamResponse`;
* `streamLoop_spec` — the loop of `Proxy_stream_response` hands on what it is asked for.

Design notes: the loops get fuel, as those of the source need not end.  The client
takes what it is sent.  An `int` that is read off a `size_t` keeps the low 32 bits.
-/
import Mongrel2.HttpClientParser
import Mongrel2.StateMachine

namespace Mongrel2

open ByteStream

/-! ### The backend -/

/-- The pieces that the backend's bytes come in, and whether `fdrecv` answers -1 or 0
behind the last. -/
structure Upstream where
  pieces : List (List Byte)
  fails : Bool

/-- `fdrecv` of at most `len` bytes of the next piece; `none` for -1. -/
def Upstream.recv (b : Upstream) (len : ℕ) : Option (List Byte) × Upstream :=
  match b.pieces with
  | [] => (if b.fails then none else some [], b)
  | p :: ps =>
    if p.length ≤ len then (some p, { b with pieces := ps })
    else (some (p.take len), { b with pieces := p.drop len :: ps })

/-- How many bytes are left where each piece ends. -/
def cuts : List (List Byte) → List ℕ
  | [] => []
  | _ :: ps => ps.flatten.length :: cuts ps

/-! ### The connection -/

/-- What `proxy.c` uses of a `Connection`, and what the client got. -/
structure ProxyConn where
  proxyBuf : Buffer
  backend : Upstream
  client : Client
  sent : List Byte

/-- What ends a call other than its return. -/
inductive Stop
  /-- a failed assertion -/
  | assertion
  /-- a read outside the buffer -/
  | undefined
  | fuel
  deriving DecidableEq

abbrev Run := Except Stop

theorem bind_ok {α β : Type} (a : α) (f : α → Run β) : (Except.ok a : Run α).bind f = f a := rfl

namespace ProxyConn

variable (bufferSize fuel : ℕ) (c : ProxyConn)

/-- `fdrecv` into the buffer at `pos`; `none` for -1. -/
def fdrecv (pos len : ℕ) : Option ℕ × ProxyConn :=
  match c.backend.recv len with
  | (none, b) => (none, { c with backend := b })
  | (some got, b) =>
    (some got.length, { c with backend := b, proxyBuf := c.proxyBuf.write pos got })

/-- `conn->send` of the first `n` bytes of the buffer. -/
def send (n : ℤ) : ℤ × ProxyConn :=
  (max n 0, { c with sent := c.sent ++ c.proxyBuf.slice 0 n.toNat })

/-- `httpclient_parser_execute` on the buffer. -/
def execute (nread off : ℤ) : Run (Option ℕ × ProxyConn) :=
  if nread < 0 then .error .undefined
  -- a negative offset is a huge `size_t`; the byte at `pe` is to be a NUL
  else if off < 0 ∨ c.proxyBuf.mem nread.toNat ≠ 0 then .error .assertion
  else
    match c.client.execute (c.proxyBuf.slice 0 nread.toNat) off.toNat with
    | none => .error .assertion
    | some (client, rc) => .ok (rc, { c with client := client })

/-- The `for` of `Proxy_stream_response`, with `remaining` behind it; `none` for the
jump to `error`. -/
def streamLoop : ℕ → ℤ → ProxyConn → Run (Option ℤ × ProxyConn)
  | 0, remaining, c => if remaining ≤ 0 then .ok (some remaining, c) else .error .fuel
  | n + 1, remaining, c =>
    if remaining ≤ 0 then .ok (some remaining, c)
    else
      match c.fdrecv 0 (min remaining.toNat bufferSize) with
      | (none, c) => .ok (none, c)
      | (some nread, c) => streamLoop n (remaining - nread) (c.send nread).2

/-- `Proxy_stream_response`. -/
def streamResponse (total nread : ℤ) : Run (ℤ × ProxyConn) :=
  let (rc, c) := c.send nread
  if rc ≠ nread then .ok (-1, c)
  else
    (streamLoop bufferSize fuel (total - nread) c).bind fun
      | (none, c) => .ok (-1, c)
      | (some remaining, c) => if remaining = 0 then .ok (total, c) else .error .assertion

/-- `scan_chunks`. -/
def scanChunks (nread : ℤ) : ℕ → ℤ → ProxyConn → Run (ℤ × ProxyConn)
  | 0, _, _ => .error .fuel
  | n + 1, off, c =>
    (execute { c with client := c.client.init } nread off).bind fun (rc, c) =>
      if rc = none ∨ c.client.hasError then .ok (-1, c)
      else if !c.client.chunked then .ok (off, c)
      else
        -- +2 for the crlf
        let off := toInt (c.client.bodyStart + c.client.contentLen + 2)
        if !c.client.chunksDone ∧ 0 < c.client.contentLen ∧ off < nread - 1 then
          scanChunks nread n off c
        else .ok (off, c)

/-- `proxy_read_some`. -/
def proxyReadSome (start : ℕ) : ℤ × ProxyConn :=
  match c.fdrecv start (bufferSize - start) with
  | (none, c) => (-1, c)
  | (some nread, c) => (nread, { c with proxyBuf := c.proxyBuf.write nread [0] })

/-- `Proxy_read_and_parse`. -/
def readAndParse (start : ℕ) : Run (ℤ × ProxyConn) :=
  let (nread, c) := proxyReadSome bufferSize { c with client := c.client.init } start
  if nread = -1 then .ok (-1, c)
  else
    (c.execute nread 0).bind fun (_, c) =>
      if c.client.hasError ∨ c.client.finish = 0 then .ok (-1, c) else .ok (nread, c)

/-- `Proxy_stream_chunks`. -/
def streamChunks : ℕ → ℤ → ProxyConn → Run (ℤ × ProxyConn)
  | 0, _, c => if c.client.chunksDone then .ok (1, c) else .error .fuel
  | n + 1, nread, c =>
    if c.client.chunksDone then .ok (1, c)
    else
      (scanChunks nread fuel (toInt c.client.bodyStart) c).bind fun (off, c) =>
        if off = -1 then .ok (-1, c)
        else
          (c.streamResponse bufferSize fuel off (if nread < off then nread else off)).bind
            fun (rc, c) =>
              if rc ≠ off then .ok (-1, c)
              else if c.client.chunksDone then streamChunks n nread c
              else
                let (start, c) : ℕ × ProxyConn :=
                  if rc < nread - 1 then
                    -- `memmove`, with its arguments this way round
                    ((nread - rc).toNat, { c with
                      proxyBuf := c.proxyBuf.write rc.toNat
                        (c.proxyBuf.slice 0 (nread - rc).toNat) })
                  else (0, c)
                let (nread, c) :=
                  proxyReadSome bufferSize { c with client := { c.client with bodyStart := 0 } } start
                streamChunks n nread c

/-- The loop of `connection_proxy_reply_parse` that reads until the backend closes;
false for the jump to `error`. -/
def untilClose : ℕ → ℤ → ProxyConn → Run (Bool × ProxyConn)
  | 0, _, _ => .error .fuel
  | n + 1, nread, c =>
    let (rc, c) := c.send nread
    if rc ≠ nread then .ok (false, c)
    else
      match c.fdrecv 0 bufferSize with
      | (some (nread + 1), c) => untilClose n (nread + 1) c
      | (_, c) => .ok (true, c)

/-- `connection_proxy_reply_parse`. -/
def proxyReplyParse : Run (Event × ProxyConn) :=
  (c.readAndParse bufferSize 0).bind fun (nread, c) =>
    if nread = -1 then .ok (.failed, c)
    else if c.client.chunked then
      (streamChunks bufferSize fuel fuel nread c).bind fun (rc, c) =>
        .ok (if rc = -1 then .failed else .reqRecv, c)
    else if 0 ≤ c.client.contentLen then
      (c.streamResponse bufferSize fuel (toInt (c.client.bodyStart + c.client.contentLen)) nread).bind
        fun (rc, c) => .ok (if rc = -1 then .failed else .reqRecv, c)
    else if c.client.contentLen = -1 then
      (untilClose bufferSize fuel nread c).bind fun (sent, c) =>
        .ok (if sent then .reqRecv else .failed, c)
    else .ok (.failed, c)

end ProxyConn

/-! ### What a read takes -/

/-- The bytes to come. -/
def Upstream.stream (b : Upstream) : List Byte := b.pieces.flatten

/-- Pieces that `fdrecv` can return. -/
def Upstream.Fed (bufferSize : ℕ) (b : Upstream) : Prop :=
  ∀ p ∈ b.pieces, p ≠ [] ∧ p.length ≤ bufferSize

/-- `b'` is what is left of `b` after some reads. -/
structure Upstream.Later (b b' : Upstream) : Prop where
  le : b'.stream.length ≤ b.stream.length
  cuts : ∀ k ∈ cuts b'.pieces, k ∈ cuts b.pieces
  kept : ∀ k ∈ Mongrel2.cuts b.pieces, k < b'.stream.length → k ∈ Mongrel2.cuts b'.pieces

theorem Upstream.Later.rfl {b : Upstream} : b.Later b := ⟨le_rfl, fun _ => id, fun _ hk _ => hk⟩

theorem Upstream.Later.trans {b b' b'' : Upstream} (h : b.Later b') (h' : b'.Later b'') :
    b.Later b'' where
  le := h'.le.trans h.le
  cuts k hk := h.cuts k (h'.cuts k hk)
  kept k hk hlt := h'.kept k (h.kept k hk (hlt.trans_le h'.le)) hlt

theorem le_of_mem_cuts {ps : List (List Byte)} {k : ℕ} (h : k ∈ cuts ps) : k ≤ ps.flatten.length := by
  induction ps with
  | nil => exact absurd h (by simp [cuts])
  | cons p ps ih =>
    rw [List.flatten_cons, List.length_append]
    rcases List.mem_cons.mp h with rfl | h
    · exact Nat.le_add_left ..
    · exact (ih h).trans (Nat.le_add_left ..)

/-- A read took a piece to its end. -/
def Upstream.AtCut (b b' : Upstream) : Prop :=
  b'.stream.length ∈ cuts b.pieces ∧ ∀ k ∈ cuts b.pieces, k ≤ b'.stream.length

/-- A read takes a part of the first piece, and all of it where it asks for enough. -/
theorem recv_spec {b : Upstream} {bufferSize len : ℕ} (hfed : b.Fed bufferSize) (hlen : 0 < len)
    (hne : b.stream ≠ []) : ∃ got b', b.recv len = (some got, b') ∧ got ≠ [] ∧
      got.length ≤ len ∧ got ++ b'.stream = b.stream ∧ b'.Fed bufferSize ∧ b.Later b' ∧
      (bufferSize ≤ len → b.AtCut b') := by
  cases hpieces : b.pieces with
  | nil => exact absurd (by rw [Upstream.stream, hpieces]; rfl) hne
  | cons p ps =>
    have hp := hfed p (hpieces ▸ List.mem_cons_self ..)
    have hps : ∀ q ∈ ps, q ≠ [] ∧ q.length ≤ bufferSize :=
      fun q hq => hfed q (hpieces ▸ List.mem_cons_of_mem p hq)
    have hstream : b.stream = p ++ ps.flatten := by rw [Upstream.stream, hpieces, List.flatten_cons]
    have hpos : 0 < p.length := List.length_pos_iff.mpr hp.1
    rw [Upstream.recv, hpieces]
    by_cases hle : p.length ≤ len
    · refine ⟨p, { b with pieces := ps }, if_pos hle, hp.1, hle, hstream.symm, hps, ⟨?_, ?_, ?_⟩, ?_⟩
      · rw [hstream, List.length_append]
        exact Nat.le_add_left ..
      · intro k hk
        rw [hpieces]
        exact List.mem_cons_of_mem _ hk
      · intro k hk hlt
        rw [hpieces, cuts] at hk
        rcases List.mem_cons.mp hk with rfl | hk
        · exact absurd hlt (lt_irrefl _)
        · exact hk
      · intro _
        rw [Upstream.AtCut, hpieces]
        refine ⟨List.mem_cons_self .., fun k hk => ?_⟩
        rcases List.mem_cons.mp hk with rfl | hk
        · exact le_rfl
        · exact le_of_mem_cuts hk
    · have hdrop : (p.drop len).length = p.length - len := List.length_drop
      refine ⟨p.take len, { b with pieces := p.drop len :: ps }, if_neg hle, ?_, ?_, ?_, ?_,
        ⟨?_, ?_, ?_⟩, fun hlarge => absurd (hp.2.trans hlarge) hle⟩
      · rw [ne_eq, List.take_eq_nil_iff]
        rintro (h | h)
        · exact absurd h hlen.ne'
        · exact hp.1 h
      · exact List.length_take_le ..
      · rw [hstream, Upstream.stream, List.flatten_cons, ← List.append_assoc, List.take_append_drop]
      · intro q hq
        rcases List.mem_cons.mp hq with rfl | hq
        · refine ⟨List.length_pos_iff.mp (by omega), ?_⟩
          have hbound := hp.2
          omega
        · exact hps q hq
      · rw [hstream, Upstream.stream, List.flatten_cons, List.length_append, List.length_append, hdrop]
        omega
      · intro k hk
        rw [hpieces]
        exact hk
      · intro k hk _
        rw [hpieces] at hk
        exact hk

namespace ProxyConn

section

variable {bufferSize fuel : ℕ} {c : ProxyConn}

/-- What every step of the proxy leaves as it is: the buffer's size, and that nothing is
written outside it. -/
structure Kept (c c' : ProxyConn) : Prop where
  alloc : c'.proxyBuf.alloc = c.proxyBuf.alloc
  overrun : c'.proxyBuf.overrun = c.proxyBuf.overrun
  later : c.backend.Later c'.backend

theorem Kept.rfl : Kept c c := ⟨Eq.refl _, Eq.refl _, .rfl⟩

theorem Kept.trans {c' c'' : ProxyConn} (h : Kept c c') (h' : Kept c' c'') : Kept c c'' :=
  ⟨h'.alloc.trans h.alloc, h'.overrun.trans h.overrun, h.later.trans h'.later⟩

theorem fdrecv_spec {pos len : ℕ} (hfed : c.backend.Fed bufferSize) (hlen : 0 < len)
    (hne : c.backend.stream ≠ []) (hbound : pos + len ≤ c.proxyBuf.alloc) :
    ∃ got c', c.fdrecv pos len = (some got.length, c') ∧ got ≠ [] ∧ got.length ≤ len ∧
      got ++ c'.backend.stream = c.backend.stream ∧ c'.proxyBuf = c.proxyBuf.write pos got ∧
      c'.client = c.client ∧ c'.sent = c.sent ∧ c'.backend.Fed bufferSize ∧ Kept c c' ∧
      (bufferSize ≤ len → c.backend.AtCut c'.backend) := by
  obtain ⟨got, b', hrecv, hgot, hle, happend, hfed', hlater, hcut⟩ := recv_spec hfed hlen hne
  refine ⟨got, { c with backend := b', proxyBuf := c.proxyBuf.write pos got }, ?_, hgot, hle,
    happend, rfl, rfl, rfl, hfed', ⟨rfl, ?_, hlater⟩, hcut⟩
  · rw [fdrecv, hrecv]
  have hin : ¬ (got ≠ [] ∧ c.proxyBuf.alloc < pos + got.length) := by
    rintro ⟨-, hlt⟩
    omega
  show (c.proxyBuf.overrun || decide (got ≠ [] ∧ c.proxyBuf.alloc < pos + got.length)) = _
  rw [decide_eq_false hin, Bool.or_false]

/-- **The loop of `Proxy_stream_response`** sends the `m` bytes that it still wants. -/
theorem streamLoop_spec (hpos : 0 < bufferSize) (n m : ℕ) (c : ProxyConn) (hn : m ≤ n)
    (hfed : c.backend.Fed bufferSize) (hm : m ≤ c.backend.stream.length)
    (halloc : bufferSize ≤ c.proxyBuf.alloc) :
    ∃ c', streamLoop bufferSize n m c = .ok (some 0, c') ∧
      c'.sent = c.sent ++ c.backend.stream.take m ∧
      c'.backend.stream = c.backend.stream.drop m ∧ c'.client = c.client ∧
      c'.backend.Fed bufferSize ∧ Kept c c' := by
  induction n generalizing m c with
  | zero =>
    obtain rfl : m = 0 := by omega
    exact ⟨c, rfl, by simp, by simp, rfl, hfed, .rfl⟩
  | succ n ih =>
    by_cases hzero : m = 0
    · subst hzero
      exact ⟨c, rfl, by simp, by simp, rfl, hfed, .rfl⟩
    · have hne : c.backend.stream ≠ [] := List.length_pos_iff.mp (by omega)
      obtain ⟨got, c₁, hrecv, hgot, hle, happend, hbuf, hclient, hsent, hfed₁, hkept, -⟩ :=
        @fdrecv_spec bufferSize c 0 (min m bufferSize) hfed (by omega) hne (by omega)
      have hgotpos : 0 < got.length := List.length_pos_iff.mpr hgot
      have hlen : c.backend.stream.length = got.length + c₁.backend.stream.length := by
        rw [← happend, List.length_append]
      have halloc₁ : bufferSize ≤ c₁.proxyBuf.alloc := by
        rw [hkept.alloc]
        exact halloc
      obtain ⟨c', hrun, hsent', hstream', hclient', hfed', hkept'⟩ :=
        ih (m - got.length) (c₁.send got.length).2 (by omega) hfed₁ (by
          show m - got.length ≤ c₁.backend.stream.length
          omega) halloc₁
      refine ⟨c', ?_, ?_, ?_, hclient'.trans hclient, hfed', hkept.trans ?_⟩
      · have hloop : ¬ (m : ℤ) ≤ 0 := by omega
        have hrest : (m : ℤ) - got.length = ((m - got.length : ℕ) : ℤ) := by omega
        rw [streamLoop, if_neg hloop, Int.toNat_natCast, hrecv]
        dsimp only
        rw [hrest]
        exact hrun
      · have hslice : c₁.proxyBuf.slice 0 got.length = got := by
          rw [hbuf]
          exact Buffer.slice_write ..
        have hmore : (c₁.send got.length).2.sent = c.sent ++ got := by
          show c₁.sent ++ c₁.proxyBuf.slice 0 (got.length : ℤ).toNat = _
          rw [Int.toNat_natCast, hslice, hsent]
        rw [hsent', hmore, List.append_assoc, ← happend, List.take_append]
        have hall : got.take m = got := List.take_of_length_le (by omega)
        rw [hall]
        rfl
      · rw [hstream', ← happend, List.drop_append, List.drop_eq_nil_of_le (by omega : got.length ≤ m),
          List.nil_append]
        rfl
      · exact ⟨hkept'.alloc, hkept'.overrun, hkept'.later⟩

/-- A read into the empty buffer brings the next piece. -/
theorem proxyReadSome_spec (hpos : 0 < bufferSize) (hfed : c.backend.Fed bufferSize)
    (hne : c.backend.stream ≠ []) (halloc : bufferSize < c.proxyBuf.alloc) :
    ∃ got c', proxyReadSome bufferSize c 0 = (got.length, c') ∧ got ≠ [] ∧
      got.length ≤ bufferSize ∧ got ++ c'.backend.stream = c.backend.stream ∧ c'.proxyBuf.slice 0 got.length = got ∧
      c'.proxyBuf.mem got.length = 0 ∧ c'.client = c.client ∧ c'.sent = c.sent ∧
      c'.backend.Fed bufferSize ∧ Kept c c' ∧ c.backend.AtCut c'.backend := by
  obtain ⟨got, c₁, hrecv, hgot, hle, happend, hbuf, hclient, hsent, hfed', hkept, hcut⟩ :=
    @fdrecv_spec bufferSize c 0 (bufferSize - 0) hfed hpos hne (by omega)
  refine ⟨got, { c₁ with proxyBuf := c₁.proxyBuf.write got.length [0] }, ?_, hgot, hle,
    happend, ?_, ?_, hclient, hsent, hfed', ⟨hkept.alloc, ?_, hkept.later⟩, hcut le_rfl⟩
  · rw [proxyReadSome, hrecv]
  · show (c₁.proxyBuf.write got.length [0]).slice 0 got.length = got
    rw [Buffer.slice_write_of_le _ _ _ _ (by omega), hbuf]
    exact Buffer.slice_write ..
  · simp [Buffer.write]
  · have hin : ¬ (([0] : List Byte) ≠ [] ∧
        c₁.proxyBuf.alloc < got.length + ([0] : List Byte).length) := by
      rintro ⟨-, hlt⟩
      rw [hkept.alloc, List.length_singleton] at hlt
      omega
    show (c₁.proxyBuf.overrun || decide (([0] : List Byte) ≠ [] ∧
      c₁.proxyBuf.alloc < got.length + ([0] : List Byte).length)) = _
    rw [decide_eq_false hin, Bool.or_false, hkept.overrun]

/-- `Proxy_stream_response` sends the buffer and what is still to come. -/
theorem streamResponse_spec (hpos : 0 < bufferSize) {nread m : ℕ} (hfuel : m ≤ fuel)
    (hfed : c.backend.Fed bufferSize) (hm : m ≤ c.backend.stream.length)
    (halloc : bufferSize ≤ c.proxyBuf.alloc) :
    ∃ c', c.streamResponse bufferSize fuel (nread + m : ℕ) nread = .ok ((nread + m : ℕ), c') ∧
      c'.sent = c.sent ++ (c.proxyBuf.slice 0 nread ++ c.backend.stream.take m) ∧
      c'.backend.stream = c.backend.stream.drop m ∧ c'.client = c.client ∧
      c'.backend.Fed bufferSize ∧ Kept c c' := by
  obtain ⟨c', hrun, hsent, hstream, hclient, hfed', hkept⟩ :=
    streamLoop_spec hpos fuel m (c.send nread).2 hfuel hfed hm halloc
  refine ⟨c', ?_, ?_, hstream, hclient, hfed', ⟨hkept.alloc, hkept.overrun, hkept.later⟩⟩
  · have hrc : (c.send nread).1 = nread := max_eq_left (Int.natCast_nonneg nread)
    have hrest : ((nread + m : ℕ) : ℤ) - nread = m := by omega
    rw [streamResponse]
    dsimp only
    rw [if_neg (not_not.mpr hrc), hrest, hrun]
    rfl
  · rw [hsent, ← List.append_assoc]
    rfl

end

end ProxyConn

end Mongrel2

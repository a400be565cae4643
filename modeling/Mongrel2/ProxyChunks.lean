/-
Chunked answers through the proxy (`proxy.c`).

* `ChunkedBody`, `Answer` — a chunked answer of a backend;
* `Transparent` — the client gets the answer, and `connection_proxy_reply_parse` returns;
* `scanChunks_spec` — one call of `scan_chunks`;
* `streamChunks_spec` — the loop of `Proxy_stream_chunks`;
* **`transparent_of_whole`** — an answer is passed on if no piece ends within its header
  or the line of a chunk, and no length overflows.

Design notes: positions are counted from the end of the answer, where they do not
change as the answer is read.
-/
import Mongrel2.Proxy

namespace Mongrel2

open ByteStream HttpClientParser ProxyConn
open HttpParser (isXdigit)

/-! ### Chunked answers -/

/-- A chunk: the line in front of it, and its data. -/
structure Chunk where
  header : ChunkedHeader
  data : List Byte
  denotes : header.value = data.length

def Chunk.bytes (c : Chunk) : List Byte := c.header.bytes ++ (c.data ++ crlf)

def bodyBytes (cs : List Chunk) : List Byte := cs.flatMap Chunk.bytes

/-- Chunks that end with the first empty one. -/
inductive ChunkedBody : List Chunk → Prop
  | last (c : Chunk) : c.data = [] → ChunkedBody [c]
  | cons (c : Chunk) {cs : List Chunk} : c.data ≠ [] → ChunkedBody cs → ChunkedBody (c :: cs)

/-- A chunked answer. -/
structure Answer where
  head : ChunkedResponse
  chunks : List Chunk
  body : ChunkedBody chunks

def Answer.bytes (r : Answer) : List Byte := r.head.bytes ++ bodyBytes r.chunks

/-- The client gets the answer, each byte once and in order, and the call returns. -/
def Transparent (bufferSize : ℕ) (r : Answer) (c : ProxyConn) : Prop :=
  ∃ fuel c', c.proxyReplyParse bufferSize fuel = .ok (.reqRecv, c') ∧
    c'.sent = c.sent ++ r.bytes ∧ c'.proxyBuf.overrun = c.proxyBuf.overrun

/-- The place with `k` bytes behind it is not within the line of a chunk. -/
def Uncut (k : ℕ) : List Chunk → Prop
  | [] => True
  | c :: cs =>
    (k ≤ c.data.length + 2 + (bodyBytes cs).length ∨ (bodyBytes (c :: cs)).length ≤ k) ∧ Uncut k cs

/-- Of the chunks whose lines come in one piece with the place that has `b` bytes behind
it, each ends less than 2^31 bytes behind this place. -/
def Fits (ks : List ℕ) (b : ℕ) : List Chunk → Prop
  | [] => True
  | c :: cs =>
    ((∀ k ∈ ks, k < b → k ≤ c.data.length + 2 + (bodyBytes cs).length) →
      b < 2 ^ 31 + (bodyBytes cs).length) ∧ Fits ks b cs

/-- No piece ends within the header, or the line of a chunk, and the chunks fit the
`int`s that count them. -/
structure Whole (r : Answer) (pieces : List (List Byte)) : Prop where
  head : ∀ k ∈ cuts pieces, k ≤ (bodyBytes r.chunks).length
  lines : ∀ k ∈ cuts pieces, Uncut k r.chunks
  fits : Fits (cuts pieces) r.bytes.length r.chunks
  fitsFrom : ∀ cs, cs <:+ r.chunks → Fits (cuts pieces) (bodyBytes cs).length cs

/-! ### Lengths -/

theorem bodyBytes_cons (c : Chunk) (cs : List Chunk) :
    bodyBytes (c :: cs) = c.header.bytes ++ (c.data ++ crlf ++ bodyBytes cs) := by
  rw [bodyBytes, List.flatMap_cons, Chunk.bytes, List.append_assoc]
  rfl

theorem length_bodyBytes_cons (c : Chunk) (cs : List Chunk) :
    (bodyBytes (c :: cs)).length =
      c.header.bytes.length + (c.data.length + 2 + (bodyBytes cs).length) := by
  rw [bodyBytes_cons, List.length_append, List.length_append, List.length_append]
  rfl

theorem bodyBytes_append (cs ds : List Chunk) :
    bodyBytes (cs ++ ds) = bodyBytes cs ++ bodyBytes ds := List.flatMap_append

/-- A line has a digit, and its end. -/
theorem three_le_length (h : ChunkedHeader) : 3 ≤ h.bytes.length := by
  have hsize : 0 < h.size.length := List.length_pos_iff.mpr h.size_ne_nil
  have hrest : 2 ≤ h.rest.length := by
    rw [ChunkedHeader.rest, List.length_append]
    exact Nat.le_add_left ..
  rw [ChunkedHeader.bytes, List.length_append]
  omega

theorem length_pos_of_body {cs : List Chunk} (h : ChunkedBody cs) : 2 < (bodyBytes cs).length := by
  cases h with
  | last c hdata =>
    have hline := three_le_length c.header
    rw [length_bodyBytes_cons]
    omega
  | cons c hdata hbody =>
    have hline := three_le_length c.header
    rw [length_bodyBytes_cons]
    omega

/-- The parser reads the length of a chunk that fits. -/
theorem contentLen_of_lt {c : Chunk} (h : c.data.length < 2 ^ 31) :
    c.header.contentLen = c.data.length := by
  have hmin : min (2 ^ 63 - 1 : ℤ) (c.header.value : ℤ) = ((c.data.length : ℕ) : ℤ) := by
    rw [c.denotes]
    omega
  rw [ChunkedHeader.contentLen, hmin, toInt_of_lt h]

/-! ### One call of `scan_chunks` -/

section

variable {bufferSize fuel n nread : ℕ} {c : ProxyConn} {ks : List ℕ} {pre cur : List Byte}
  {cs : List Chunk}

/-- `execute` on the bytes that the buffer holds. -/
theorem execute_buffer {client : Client} {rc : Option ℕ}
    (hslice : c.proxyBuf.slice 0 nread = pre ++ cur) (hzero : c.proxyBuf.mem nread = 0)
    (h : c.client.execute (pre ++ cur) pre.length = some (client, rc)) :
    c.execute nread pre.length = .ok (rc, { c with client := client }) := by
  have hneg : ¬ (nread : ℤ) < 0 := by omega
  have hassert : ¬ ((pre.length : ℤ) < 0 ∨ c.proxyBuf.mem (nread : ℤ).toNat ≠ 0) := by
    rw [Int.toNat_natCast, hzero]
    rintro (hlt | hne)
    · omega
    · exact hne rfl
  rw [ProxyConn.execute, if_neg hneg, if_neg hassert, Int.toNat_natCast, Int.toNat_natCast, hslice, h]

/-- Where a buffer ends outside the lines, it has the whole of the line it starts with. -/
theorem cur_of_uncut {c₀ : Chunk} {rest : List Byte} (hne : cur ≠ [])
    (hstream : cur ++ rest = bodyBytes (c₀ :: cs)) (huncut : Uncut rest.length (c₀ :: cs)) :
    ∃ cur', cur = c₀.header.bytes ++ cur' ∧ cur' ++ rest = c₀.data ++ crlf ++ bodyBytes cs := by
  have hlen : cur.length + rest.length = (bodyBytes (c₀ :: cs)).length := by
    rw [← hstream, List.length_append]
  have hpos : 0 < cur.length := List.length_pos_iff.mpr hne
  have hline : c₀.header.bytes.length ≤ cur.length := by
    have huncut := huncut.1
    rw [length_bodyBytes_cons] at hlen huncut
    omega
  rw [bodyBytes_cons] at hstream
  have hprefix : c₀.header.bytes <+: cur := by
    refine @List.prefix_of_prefix_length_le _ _ _ (cur ++ rest) ?_ (List.prefix_append ..) hline
    rw [hstream]
    exact List.prefix_append ..
  obtain ⟨cur', rfl⟩ := hprefix
  rw [List.append_assoc] at hstream
  exact ⟨cur', rfl, List.append_cancel_left hstream⟩

/-- One turn of the loop of `scan_chunks` on the line of a chunk that ends within 2^31
bytes of the buffer's start. -/
theorem scanChunks_turn {c₀ : Chunk}
    (hslice : c.proxyBuf.slice 0 nread = pre ++ (c₀.header.bytes ++ cur))
    (hzero : c.proxyBuf.mem nread = 0)
    (hend : pre.length + (c₀.header.bytes.length + (c₀.data.length + 2)) < 2 ^ 31) :
    ∃ client : Client, client.chunksDone = decide (c₀.data = []) ∧
      scanChunks nread (n + 1) pre.length c =
        if c₀.data ≠ [] ∧ (pre.length + (bodyBytes [c₀]).length : ℕ) < (nread : ℤ) - 1 then
          scanChunks nread n (pre.length + (bodyBytes [c₀]).length : ℕ) { c with client := client }
        else .ok ((pre.length + (bodyBytes [c₀]).length : ℕ), { c with client := client }) := by
  obtain ⟨client, k, hexec, hcs, hsized, hstart⟩ :=
    @execute_line c.client pre cur c₀.header
  have hexec := @execute_buffer nread { c with client := c.client.init } pre _ client _ hslice
    hzero hexec
  have hlen : c₀.header.contentLen = c₀.data.length := contentLen_of_lt (by omega)
  have hone : (bodyBytes [c₀]).length = c₀.header.bytes.length + (c₀.data.length + 2) :=
    length_bodyBytes_cons c₀ []
  have hoff : toInt (client.bodyStart + client.contentLen + 2) =
      (pre.length + (bodyBytes [c₀]).length : ℕ) := by
    have hcast : (client.bodyStart : ℤ) + client.contentLen + 2 =
        (pre.length + (bodyBytes [c₀]).length : ℕ) := by
      rw [hstart, hsized.contentLen, hlen, hone]
      push_cast
      omega
    rw [hcast, toInt_of_lt (by rw [hone]; exact hend)]
  have hfine : ¬ ((some k : Option ℕ) = none ∨ client.hasError = true) := by
    rw [Client.hasError, hcs]
    simp
  have hchunked : ¬ (!client.chunked) = true := by
    rw [hsized.chunked]
    simp
  have hdone : client.chunksDone = decide (c₀.data = []) := by
    rw [hsized.chunksDone, hlen, decide_eq_decide, ← List.length_eq_zero_iff]
    omega
  have hgoes : ((!client.chunksDone) = true ∧ 0 < client.contentLen ∧
      ((pre.length + (bodyBytes [c₀]).length : ℕ) : ℤ) < (nread : ℤ) - 1) ↔
      c₀.data ≠ [] ∧ ((pre.length + (bodyBytes [c₀]).length : ℕ) : ℤ) < (nread : ℤ) - 1 := by
    rw [hdone, hsized.contentLen, hlen, Int.natCast_pos, List.length_pos_iff]
    simp
  refine ⟨client, hdone, ?_⟩
  rw [scanChunks, hexec]
  show (if _ then _ else _) = _
  rw [if_neg hfine, if_neg hchunked, hoff]
  exact if_congr hgoes rfl rfl

/-- Where a buffer has more than the data of a chunk, it goes on with the next line. -/
theorem cur_of_data {c₀ : Chunk} {rest : List Byte}
    (hstream : cur ++ rest = c₀.data ++ crlf ++ bodyBytes cs)
    (hlen : c₀.data.length + 2 < cur.length) :
    ∃ cur', cur' ≠ [] ∧ cur = c₀.data ++ crlf ++ cur' ∧ cur' ++ rest = bodyBytes cs := by
  have hdata : (c₀.data ++ crlf).length = c₀.data.length + 2 := List.length_append
  have hprefix : c₀.data ++ crlf <+: cur := by
    refine @List.prefix_of_prefix_length_le _ _ _ (cur ++ rest) ?_ (List.prefix_append ..)
      (by omega)
    rw [hstream]
    exact List.prefix_append ..
  obtain ⟨cur', rfl⟩ := hprefix
  refine ⟨cur', ?_, rfl, ?_⟩
  · rintro rfl
    rw [List.append_nil] at hlen
    omega
  · rw [List.append_assoc] at hstream
    exact List.append_cancel_left hstream

/-- A buffer that ends outside the lines does not end behind the first byte of one. -/
theorem ne_of_uncut {k : ℕ} (hbody : ChunkedBody cs) (huncut : Uncut k cs) :
    k + 1 ≠ (bodyBytes cs).length := by
  intro heq
  cases hbody with
  | last c₁ hdata =>
    have hline := three_le_length c₁.header
    have hlength := length_bodyBytes_cons c₁ []
    have huncut := huncut.1
    omega
  | @cons c₁ cs hdata hbody =>
    have hline := three_le_length c₁.header
    have hlength := length_bodyBytes_cons c₁ cs
    have huncut := huncut.1
    omega

/-- **One call of `scan_chunks`** on a buffer that ends outside the lines finds the
chunks up to one that reaches to the buffer's end. -/
theorem scanChunks_spec {rest : List Byte} (hbody : ChunkedBody cs) (hn : cs.length ≤ n)
    (hslice : c.proxyBuf.slice 0 nread = pre ++ cur) (hzero : c.proxyBuf.mem nread = 0)
    (hne : cur ≠ []) (hstream : cur ++ rest = bodyBytes cs) (huncut : Uncut rest.length cs)
    (hcut : ∀ k ∈ ks, k < pre.length + (bodyBytes cs).length → k ≤ rest.length)
    (hfits : Fits ks (pre.length + (bodyBytes cs).length) cs) :
    ∃ client cs₁ cs₂, cs = cs₁ ++ cs₂ ∧
      scanChunks nread n pre.length c =
        .ok ((pre.length + (bodyBytes cs₁).length : ℕ), { c with client := client }) ∧
      nread ≤ pre.length + (bodyBytes cs₁).length ∧ client.chunksDone = cs₂.isEmpty ∧
      cs₁ ≠ [] ∧ (cs₂ ≠ [] → ChunkedBody cs₂) := by
  induction cs generalizing n pre cur c with
  | nil => exact absurd hbody (by rintro ⟨⟩)
  | cons c₀ cs ih =>
    obtain ⟨n, rfl⟩ : ∃ m, n = m + 1 := ⟨n - 1, by rw [List.length_cons] at hn; omega⟩
    obtain ⟨cur', rfl, hcur'⟩ := cur_of_uncut hne hstream huncut
    have hnread : nread = pre.length + (c₀.header.bytes.length + cur'.length) := by
      have hlen := congrArg List.length hslice
      rw [Buffer.length_slice, List.length_append, List.length_append] at hlen
      exact hlen
    have hrest : cur'.length + rest.length = c₀.data.length + 2 + (bodyBytes cs).length := by
      have hlen := congrArg List.length hcur'
      rw [List.length_append, List.length_append, List.length_append] at hlen
      exact hlen
    have hbytes := length_bodyBytes_cons c₀ cs
    have hone : (bodyBytes [c₀]).length = c₀.header.bytes.length + (c₀.data.length + 2) :=
      length_bodyBytes_cons c₀ []
    have hend : pre.length + (c₀.header.bytes.length + (c₀.data.length + 2)) < 2 ^ 31 := by
      have hsmall := hfits.1 fun k hk hlt => (hcut k hk hlt).trans (by omega)
      omega
    obtain ⟨client, hdone, hturn⟩ :=
      @scanChunks_turn n nread c pre cur' c₀ hslice hzero hend
    rw [hturn]
    cases hbody with
    | last _ hdata =>
      refine ⟨client, [c₀], [], rfl, if_neg fun h => h.1 hdata, ?_, ?_, by simp,
        fun h => absurd rfl h⟩
      · have hnil : (bodyBytes ([] : List Chunk)).length = 0 := rfl
        omega
      · rw [hdone]
        exact decide_eq_true hdata
    | cons _ hdata hbody =>
      have hcs := length_pos_of_body hbody
      by_cases hmore : ((pre.length + (bodyBytes [c₀]).length : ℕ) : ℤ) < (nread : ℤ) - 1
      · -- the next line is in the buffer too
        obtain ⟨cur₂, hne₂, rfl, hstream₂⟩ := cur_of_data hcur' (by omega)
        have hpre : pre.length + (bodyBytes [c₀]).length = (pre ++ bodyBytes [c₀]).length :=
          (List.length_append ..).symm
        have hslice₂ : c.proxyBuf.slice 0 nread = pre ++ bodyBytes [c₀] ++ cur₂ := by
          rw [hslice, bodyBytes_cons]
          simp [bodyBytes]
        have hsum : (pre ++ bodyBytes [c₀]).length + (bodyBytes cs).length =
            pre.length + (bodyBytes (c₀ :: cs)).length := by
          rw [List.length_append]
          omega
        rw [if_pos ⟨hdata, hmore⟩, hpre]
        obtain ⟨client', cs₁, cs₂, rfl, hrun, hle, hdone', -, hbody'⟩ :=
          @ih n { c with client := client } (pre ++ bodyBytes [c₀]) cur₂ hbody
            (by rw [List.length_cons] at hn; omega) hslice₂ hzero hne₂ hstream₂ huncut.2
            (by rw [hsum]; exact hcut) (by rw [hsum]; exact hfits.2)
        have hsum₁ : (pre ++ bodyBytes [c₀]).length + (bodyBytes cs₁).length =
            pre.length + (bodyBytes (c₀ :: cs₁)).length := by
          rw [List.length_append, length_bodyBytes_cons c₀ cs₁]
          omega
        rw [hsum₁] at hrun hle
        exact ⟨client', c₀ :: cs₁, cs₂, rfl, hrun, hle, hdone', by simp, hbody'⟩
      · rw [if_neg fun h => hmore h.2]
        refine ⟨client, [c₀], cs, rfl, rfl, ?_, ?_, by simp, fun _ => hbody⟩
        · -- else one byte of the next line would be in the buffer
          have huncut₂ : rest.length + 1 ≠ (bodyBytes cs).length := ne_of_uncut hbody huncut.2
          omega
        · rw [hdone, decide_eq_false hdata]
          cases hbody <;> rfl

/-! ### The loop of `Proxy_stream_chunks` -/

/-- The top of the loop: the buffer holds `pre`, which is to be sent as it is, and the
part of the chunks `cs` that has come; it ends where a piece does. -/
structure AtTop (bufferSize : ℕ) (ks : List ℕ) (c : ProxyConn) (nread : ℕ)
    (pre cur : List Byte) (cs : List Chunk) : Prop where
  slice : c.proxyBuf.slice 0 nread = pre ++ cur
  zero : c.proxyBuf.mem nread = 0
  ne_nil : pre ++ cur ≠ []
  small : pre.length < 2 ^ 31
  start : c.client.bodyStart = pre.length
  chunksDone : c.client.chunksDone = false
  stream : cur ++ c.backend.stream = bodyBytes cs
  body : ChunkedBody cs
  fed : c.backend.Fed bufferSize
  alloc : bufferSize < c.proxyBuf.alloc
  cut : c.backend.stream.length ∈ ks
  before : ∀ k ∈ ks, k < pre.length + (bodyBytes cs).length → k ≤ c.backend.stream.length
  kept : ∀ k ∈ ks, k < c.backend.stream.length → k ∈ cuts c.backend.pieces
  cuts : ∀ k ∈ Mongrel2.cuts c.backend.pieces, k ∈ ks
  lines : ∀ k ∈ ks, Uncut k cs
  fits : Fits ks (pre.length + (bodyBytes cs).length) cs
  fitsFrom : ∀ ds, ds <:+ cs → Fits ks (bodyBytes ds).length ds

theorem length_le_bodyBytes (cs : List Chunk) : cs.length ≤ (bodyBytes cs).length := by
  induction cs with
  | nil => exact le_rfl
  | cons c cs ih =>
    rw [length_bodyBytes_cons, List.length_cons]
    omega

theorem uncut_suffix {k : ℕ} {cs₁ cs₂ : List Chunk} (h : Uncut k (cs₁ ++ cs₂)) : Uncut k cs₂ := by
  induction cs₁ with
  | nil => exact h
  | cons c cs₁ ih => exact ih h.2

/-- What a call of `scan_chunks` finds at the top of the loop. -/
theorem scan_of_atTop (h : AtTop bufferSize ks c nread pre cur cs)
    (hfuel : (bodyBytes cs).length ≤ fuel) :
    ∃ client cs₁ cs₂, cs = cs₁ ++ cs₂ ∧
      scanChunks nread fuel pre.length c =
        .ok ((pre.length + (bodyBytes cs₁).length : ℕ), { c with client := client }) ∧
      nread ≤ pre.length + (bodyBytes cs₁).length ∧ client.chunksDone = cs₂.isEmpty ∧
      (cs₁ ≠ [] ∨ cur = []) ∧ (cs₂ ≠ [] → ChunkedBody cs₂) := by
  by_cases hcur : cur = []
  · -- the header ends the first piece
    subst hcur
    have hbody := length_pos_of_body h.body
    obtain ⟨fuel, rfl⟩ : ∃ m, fuel = m + 1 := ⟨fuel - 1, by omega⟩
    obtain ⟨client, k, hexec, hcs, hchunked, hdone⟩ :=
      @execute_digits c.client pre [] (by simp) h.ne_nil
    have hexec := @execute_buffer nread { c with client := c.client.init } pre [] client _ h.slice
      h.zero hexec
    have hfine : ¬ ((some k : Option ℕ) = none ∨ client.hasError = true) := by
      rw [Client.hasError, beq_iff_eq]
      rintro (hnone | herror)
      · exact absurd hnone (by simp)
      · exact hcs herror
    refine ⟨client, [], cs, rfl, ?_, ?_, ?_, .inr rfl, fun _ => h.body⟩
    · rw [scanChunks, hexec]
      show (if _ then _ else _) = _
      rw [if_neg hfine, if_pos (by rw [hchunked]; rfl)]
      rfl
    · have hlen := congrArg List.length h.slice
      rw [Buffer.length_slice, List.append_nil] at hlen
      omega
    · rw [hdone]
      cases h.body <;> rfl
  · obtain ⟨client, cs₁, cs₂, hsplit, hrun, hle, hdone, hne, hbody⟩ :=
      scanChunks_spec h.body ((length_le_bodyBytes cs).trans hfuel) h.slice h.zero hcur h.stream
        (h.lines _ h.cut) h.before h.fits
    exact ⟨client, cs₁, cs₂, hsplit, hrun, hle, hdone, .inl hne, hbody⟩

theorem streamChunks_done (hdone : c.client.chunksDone = true) (nread : ℤ) :
    streamChunks bufferSize fuel n nread c = .ok (1, c) := by
  cases n with
  | zero => rw [streamChunks, if_pos hdone]
  | succ n => rw [streamChunks, if_pos hdone]

/-- The next read brings the loop back to its top. -/
theorem atTop_of_read {cs₁ cs₂ : List Chunk} {client : Client} {got : List Byte}
    {c₁ c₂ c₃ : ProxyConn} (h : AtTop bufferSize ks c nread pre cur (cs₁ ++ cs₂))
    (hbody : ChunkedBody cs₂) (hstream : c₁.backend.stream = bodyBytes cs₂)
    (hlater : c.backend.Later c₁.backend) (hpieces : c₂.backend = c₁.backend)
    (hclient : c₃.client = { client with bodyStart := 0 }) (hdone : client.chunksDone = false)
    (hgot : got ≠ []) (happend : got ++ c₃.backend.stream = c₂.backend.stream)
    (hslice : c₃.proxyBuf.slice 0 got.length = got) (hzero : c₃.proxyBuf.mem got.length = 0)
    (hfed : c₃.backend.Fed bufferSize) (halloc : bufferSize < c₃.proxyBuf.alloc)
    (hlater₂ : c₂.backend.Later c₃.backend) (hcut : c₂.backend.AtCut c₃.backend) :
    AtTop bufferSize ks c₃ got.length [] got cs₂ where
  slice := hslice
  zero := hzero
  ne_nil := hgot
  small := by decide
  start := by rw [hclient]; rfl
  chunksDone := by rw [hclient]; exact hdone
  stream := by rw [happend, hpieces, hstream]
  body := hbody
  fed := hfed
  alloc := halloc
  cut := h.cuts _ (hlater.cuts _ (hpieces ▸ hcut.1))
  before k hk hlt := by
    have hlt : k < c₁.backend.stream.length := by
      rw [hstream]
      simpa using hlt
    have hmem := hlater.kept k (h.kept k hk (hlt.trans_le hlater.le)) hlt
    exact hcut.2 k (hpieces ▸ hmem)
  kept k hk hlt := by
    have hle₂ := hlater₂.le
    rw [hpieces] at hle₂
    have hlt₁ : k < c₁.backend.stream.length := hlt.trans_le hle₂
    have hmem := hlater.kept k (h.kept k hk (hlt₁.trans_le hlater.le)) hlt₁
    exact hlater₂.kept k (hpieces ▸ hmem) hlt
  cuts k hk := by
    have hmem := hlater₂.cuts k hk
    rw [hpieces] at hmem
    exact h.cuts k (hlater.cuts k hmem)
  lines k hk := uncut_suffix (h.lines k hk)
  fits := by
    rw [List.length_nil, Nat.zero_add]
    exact h.fitsFrom cs₂ (List.suffix_append ..)
  fitsFrom ds hds := h.fitsFrom ds (hds.trans (List.suffix_append ..))

/-- One turn of the loop, when the chunks that were found reach to the buffer's end. -/
theorem streamChunks_turn {m : ℕ} {c₀ c₁ : ProxyConn} (hdone : c.client.chunksDone = false)
    (hscan : scanChunks nread fuel (toInt c.client.bodyStart) c = .ok ((nread + m : ℕ), c₀))
    (hresponse : c₀.streamResponse bufferSize fuel (nread + m : ℕ) nread =
      .ok ((nread + m : ℕ), c₁)) :
    streamChunks bufferSize fuel (n + 1) nread c =
      if c₁.client.chunksDone then streamChunks bufferSize fuel n nread c₁
      else
        let (nread, c₂) := proxyReadSome bufferSize
          { c₁ with client := { c₁.client with bodyStart := 0 } } 0
        streamChunks bufferSize fuel n nread c₂ := by
  have hwhole : (if (nread : ℤ) < ((nread + m : ℕ) : ℤ) then (nread : ℤ) else (nread + m : ℕ)) =
      nread := by
    split
    · rfl
    · omega
  have hoff : ¬ ((nread + m : ℕ) : ℤ) = -1 := by omega
  have hlast : ¬ ((nread + m : ℕ) : ℤ) < (nread : ℤ) - 1 := by omega
  rw [streamChunks, if_neg (by simp [hdone]), hscan, bind_ok]
  dsimp only
  rw [if_neg hoff, hwhole, hresponse, bind_ok]
  dsimp only
  rw [if_neg (not_not.mpr rfl), if_neg hlast]

/-- **The loop of `Proxy_stream_chunks`** sends what is in the buffer and the chunks that
follow. -/
theorem streamChunks_spec (hpos : 0 < bufferSize) (hfuel : (bodyBytes cs).length ≤ fuel)
    (hn : cs.length + (if cur = [] then 1 else 0) ≤ n)
    (h : AtTop bufferSize ks c nread pre cur cs) :
    ∃ c', streamChunks bufferSize fuel n nread c = .ok (1, c') ∧
      c'.sent = c.sent ++ (pre ++ bodyBytes cs) ∧ c'.proxyBuf.overrun = c.proxyBuf.overrun := by
  induction n generalizing c nread pre cur cs with
  | zero =>
    have hempty : cs = [] := List.eq_nil_of_length_eq_zero (by omega)
    subst hempty
    exact absurd h.body (by rintro ⟨⟩)
  | succ n ih =>
    obtain ⟨client, cs₁, cs₂, rfl, hscan, hle, hdone, hprogress, hbody⟩ := scan_of_atTop h hfuel
    have hnread : nread = pre.length + cur.length := by
      have hlen := congrArg List.length h.slice
      rw [Buffer.length_slice, List.length_append] at hlen
      exact hlen
    have hstream : cur.length + c.backend.stream.length =
        (bodyBytes cs₁).length + (bodyBytes cs₂).length := by
      have hlen := congrArg List.length h.stream
      rw [bodyBytes_append, List.length_append, List.length_append] at hlen
      exact hlen
    obtain ⟨m, hm⟩ : ∃ m, pre.length + (bodyBytes cs₁).length = nread + m :=
      ⟨_, (Nat.add_sub_cancel' hle).symm⟩
    have hcs₁ : (bodyBytes cs₁).length = cur.length + m := by omega
    have hmfuel : m ≤ fuel := by
      rw [bodyBytes_append, List.length_append] at hfuel
      omega
    obtain ⟨c₁, hresponse, hsent₁, hstream₁, hclient₁, hfed₁, hkept₁⟩ :=
      @streamResponse_spec bufferSize fuel { c with client := client } hpos nread m hmfuel h.fed
        (by show m ≤ c.backend.stream.length; omega) h.alloc.le
    -- what has been sent now is the chunks that were found
    have happend : cur ++ c.backend.stream.take m = bodyBytes cs₁ ∧
        c.backend.stream.drop m = bodyBytes cs₂ := by
      have hstream := h.stream
      rw [bodyBytes_append, ← List.take_append_drop m c.backend.stream, ← List.append_assoc] at hstream
      refine List.append_inj hstream ?_
      rw [List.length_append, List.length_take, hcs₁]
      omega
    have hsent : c₁.sent = c.sent ++ (pre ++ bodyBytes cs₁) := by
      rw [hsent₁, ← happend.1]
      show c.sent ++ (c.proxyBuf.slice 0 nread ++ c.backend.stream.take m) = _
      rw [h.slice, List.append_assoc]
    have hstart : toInt c.client.bodyStart = (pre.length : ℤ) := by
      rw [h.start]
      exact toInt_of_lt h.small
    rw [hm] at hscan
    have hturn := streamChunks_turn (n := n) h.chunksDone (hstart ▸ hscan) hresponse
    rw [hturn, hclient₁]
    by_cases hnil : cs₂ = []
    · subst hnil
      have hfinished : client.chunksDone = true := hdone
      rw [if_pos hfinished, streamChunks_done (hclient₁ ▸ hfinished)]
      refine ⟨c₁, rfl, ?_, hkept₁.overrun⟩
      rw [hsent, List.append_nil]
    · have hmore : client.chunksDone = false := by
        rw [hdone]
        exact List.isEmpty_eq_false_iff.mpr hnil
      rw [if_neg (by simp [hmore])]
      have hstream₂ : c₁.backend.stream = bodyBytes cs₂ := hstream₁.trans happend.2
      have hne : c₁.backend.stream ≠ [] := by
        rw [hstream₂]
        exact List.length_pos_iff.mp (by have := length_pos_of_body (hbody hnil); omega)
      obtain ⟨got, c₃, hread, hgot, -, hgotstream, hslice, hzero, hclient₃, hsent₃, hfed₃, hkept₃, hcut⟩ :=
        @proxyReadSome_spec bufferSize { c₁ with client := { client with bodyStart := 0 } } hpos
          hfed₁ hne (by rw [hkept₁.alloc]; exact h.alloc)
      rw [hread]
      have htop := @atTop_of_read bufferSize nread c ks pre cur cs₁ cs₂ client got c₁
        { c₁ with client := { client with bodyStart := 0 } } c₃ h (hbody hnil) hstream₂ hkept₁.later
        rfl hclient₃ hmore hgot hgotstream hslice hzero hfed₃
        (by rw [hkept₃.alloc]; exact hkept₁.alloc ▸ h.alloc) hkept₃.later hcut
      have hn' : cs₂.length + (if got = [] then 1 else 0) ≤ n := by
        rw [if_neg hgot]
        rw [List.length_append] at hn
        rcases hprogress with hcs₁ | rfl
        · have hpos₁ : 0 < cs₁.length := List.length_pos_iff.mpr hcs₁
          omega
        · rw [if_pos rfl] at hn
          omega
      obtain ⟨c', hrun, hsent', hover⟩ := ih (by
        rw [bodyBytes_append, List.length_append] at hfuel
        omega) hn' htop
      refine ⟨c', hrun, ?_, ?_⟩
      · rw [hsent', hsent₃]
        show c₁.sent ++ ([] ++ bodyBytes cs₂) = _
        rw [hsent, bodyBytes_append]
        simp only [List.nil_append, List.append_assoc]
      · rw [hover, hkept₃.overrun]
        exact hkept₁.overrun

/-! ### The whole answer -/

/-- The first read, when it brings the whole header. -/
theorem readAndParse_spec {r : Answer} (hpos : 0 < bufferSize) (hint : bufferSize < 2 ^ 31)
    (hfed : c.backend.Fed bufferSize) (halloc : bufferSize < c.proxyBuf.alloc)
    (hstream : c.backend.stream = r.bytes) (hwhole : Whole r c.backend.pieces) :
    ∃ nread c₁ cur, c.readAndParse bufferSize 0 = .ok ((nread : ℕ), c₁) ∧
      c₁.client.chunked = true ∧ c₁.sent = c.sent ∧ c₁.proxyBuf.overrun = c.proxyBuf.overrun ∧
      AtTop bufferSize (cuts c.backend.pieces) c₁ nread r.head.bytes cur r.chunks := by
  have hne : c.backend.stream ≠ [] := by
    rw [hstream]
    exact List.append_ne_nil_of_left_ne_nil r.head.ne_nil _
  obtain ⟨got, c₀, hread, hgot, hle, happend, hslice, hzero, hclient, hsent, hfed₀, hkept, hcut⟩ :=
    @proxyReadSome_spec bufferSize { c with client := c.client.init } hpos hfed hne halloc
  have happend : got ++ c₀.backend.stream = r.head.bytes ++ bodyBytes r.chunks :=
    happend.trans hstream
  have hlen := congrArg List.length happend
  rw [List.length_append, List.length_append] at hlen
  have hhead : r.head.bytes.length ≤ got.length := by
    have hbody := hwhole.head _ hcut.1
    omega
  obtain ⟨cur, rfl⟩ : r.head.bytes <+: got := by
    refine @List.prefix_of_prefix_length_le _ _ _ (got ++ c₀.backend.stream) ?_
      (List.prefix_append ..) hhead
    rw [happend]
    exact List.prefix_append ..
  obtain ⟨client, k, hexec, hcs, hchunked, hdone, hstart⟩ := @execute_head c.client cur r.head
  have hclient : c₀.client = c.client.init := hclient
  rw [← hclient] at hexec
  have hexec := @execute_buffer (r.head.bytes ++ cur).length c₀ [] (r.head.bytes ++ cur) client _ hslice
    hzero hexec
  refine ⟨(r.head.bytes ++ cur).length, { c₀ with client := client }, cur, ?_, hchunked, hsent,
    hkept.overrun, ?_⟩
  · have hok : ¬ ((r.head.bytes ++ cur).length : ℤ) = -1 := by omega
    have hfinish : ¬ (client.hasError = true ∨ client.finish = 0) := by
      rw [Client.finish, Client.hasError, Client.isFinished, hcs]
      decide
    rw [readAndParse, hread]
    dsimp only
    rw [if_neg hok]
    have hzero' : ((0 : ℕ) : ℤ) = 0 := rfl
    rw [List.length_nil, hzero'] at hexec
    rw [hexec, bind_ok]
    dsimp only
    rw [if_neg hfinish]
  · have hB : r.head.bytes.length + (bodyBytes r.chunks).length = r.bytes.length :=
      (List.length_append ..).symm
    exact {
      slice := hslice
      zero := hzero
      ne_nil := hgot
      small := by omega
      start := hstart
      chunksDone := hdone
      stream := by
        rw [List.append_assoc] at happend
        exact List.append_cancel_left happend
      body := r.body
      fed := hfed₀
      alloc := by
        show bufferSize < c₀.proxyBuf.alloc
        rw [hkept.alloc]
        exact halloc
      cut := hcut.1
      before := fun k hk _ => hcut.2 k hk
      kept := hkept.later.kept
      cuts := hkept.later.cuts
      lines := hwhole.lines
      fits := hB ▸ hwhole.fits
      fitsFrom := hwhole.fitsFrom }

end

/-- **Chunked answers are passed on** byte for byte if no piece ends within the header or
the line of a chunk, and the chunks fit an `int`. -/
theorem transparent_of_whole {bufferSize : ℕ} {r : Answer} {c : ProxyConn} (hpos : 0 < bufferSize)
    (hint : bufferSize < 2 ^ 31) (hfed : c.backend.Fed bufferSize)
    (halloc : bufferSize < c.proxyBuf.alloc) (hstream : c.backend.stream = r.bytes)
    (hwhole : Whole r c.backend.pieces) : Transparent bufferSize r c := by
  obtain ⟨nread, c₁, cur, hread, hchunked, hsent, hover, htop⟩ :=
    readAndParse_spec hpos hint hfed halloc hstream hwhole
  have hfuel := length_le_bodyBytes r.chunks
  have hbound : r.chunks.length + (if cur = [] then 1 else 0) ≤ (bodyBytes r.chunks).length + 1 := by
    split <;> omega
  obtain ⟨c', hrun, hsent', hover'⟩ :=
    streamChunks_spec hpos (Nat.le_succ (bodyBytes r.chunks).length) hbound htop
  refine ⟨(bodyBytes r.chunks).length + 1, c', ?_, ?_, hover'.trans hover⟩
  · have hok : ¬ (nread : ℤ) = -1 := by omega
    rw [proxyReplyParse, hread, bind_ok]
    dsimp only
    rw [if_neg hok, if_pos hchunked, hrun, bind_ok]
    rfl
  · rw [hsent', hsent]
    rfl

/-- Short answers fit. -/
theorem fits_of_lt {ks : List ℕ} {b : ℕ} (h : b < 2 ^ 31) (cs : List Chunk) : Fits ks b cs := by
  induction cs with
  | nil => exact trivial
  | cons c cs ih => exact ⟨fun _ => by omega, ih⟩

/-- The header of a chunked answer. -/
def sampleHead : ChunkedResponse where
  bytes := bytes "HTTP/1.1 200 OK\r\nTransfer-Encoding: chunked\r\n\r\n"
  http := rfl
  done _ := rfl
  bodyStart _ := rfl
  chunked _ := rfl

/-- A line with one digit. -/
def lineOf (d : Char) (h : isXdigit (chr d) = true) : ChunkedHeader where
  size := [chr d]
  extensions := []
  size_ne_nil := nofun
  xdigits _ hc := List.mem_singleton.mp hc ▸ h

def sampleAnswer : Answer where
  head := sampleHead
  chunks := [⟨lineOf '1' rfl, [chr 'a'], rfl⟩, ⟨lineOf '0' rfl, [], rfl⟩]
  body := .cons _ (by decide) (.last _ rfl)

def sampleConn (pieces : List (List Byte)) : ProxyConn where
  proxyBuf := .zeroed 65
  backend := ⟨pieces, false⟩
  client := ⟨.error, 0, 0, 0, false, false, 0, 0, 0, 0⟩
  sent := []

theorem transparent_of_whole_one_piece :
    Transparent 64 sampleAnswer (sampleConn [sampleAnswer.bytes]) := by
  refine transparent_of_whole (by decide) (by decide) ?_ (by decide) (List.append_nil _)
    ⟨?_, ?_, fits_of_lt (by decide) _, ?_⟩
  · intro p hp
    rw [List.mem_singleton.mp hp]
    decide
  · intro k hk
    rw [List.mem_singleton.mp hk]
    exact Nat.zero_le _
  · intro k hk
    rw [List.mem_singleton.mp hk]
    exact ⟨.inl (Nat.zero_le _), .inl (Nat.zero_le _), trivial⟩
  · intro cs hcs
    refine fits_of_lt (lt_of_le_of_lt (b := (bodyBytes sampleAnswer.chunks).length) ?_ (by decide)) cs
    obtain ⟨ds, hds⟩ := hcs
    rw [← hds, bodyBytes_append, List.length_append]
    exact Nat.le_add_left ..

/-- The first piece ends within the line of the first chunk. -/
def splitPieces : List (List Byte) :=
  [sampleHead.bytes ++ [chr '1'], bytes "\r\na\r\n0\r\n\r\n"]

theorem not_transparent_split : splitPieces.flatten = sampleAnswer.bytes ∧
    ¬ Transparent 64 sampleAnswer (sampleConn splitPieces) := by
  refine ⟨by decide, ?_⟩
  rintro ⟨fuel, c', hrun, -, -⟩
  have hrun : (proxyReplyParse 64 fuel (sampleConn splitPieces)).map Prod.fst = .ok .reqRecv := by
    rw [hrun]
    rfl
  -- the rest of the line is taken for a line
  have hfailed : ∀ n, (proxyReplyParse 64 (n + 2) (sampleConn splitPieces)).map Prod.fst =
      .ok .failed := fun n => rfl
  have hzero : (proxyReplyParse 64 0 (sampleConn splitPieces)).map Prod.fst = .error .fuel := rfl
  have hone : (proxyReplyParse 64 1 (sampleConn splitPieces)).map Prod.fst = .error .fuel := rfl
  obtain rfl | rfl | ⟨n, rfl⟩ : fuel = 0 ∨ fuel = 1 ∨ ∃ n, fuel = n + 2 := by
    rcases fuel with _ | _ | n
    · exact .inl rfl
    · exact .inr (.inl rfl)
    · exact .inr (.inr ⟨n, rfl⟩)
  · rw [hzero] at hrun
    exact absurd hrun (by simp)
  · rw [hone] at hrun
    exact absurd hrun (by simp)
  · rw [hfailed] at hrun
    exact absurd hrun (by simp)

end Mongrel2

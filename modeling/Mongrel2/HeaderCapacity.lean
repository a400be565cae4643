/-
The table of a request's headers (`request.c`, `adt/dict.c`, `connection.c`).

* `HeaderTable` — a dictionary with its `maxcount`, and the insertion that asserts that it
  is not full;
* `Conn.serve` — a request is read and handed to a handler;
* `length_serve_le`, `exists_run` — what a run inserts at most, and a run that inserts it all;
* `suffices_iff` — no insertion finds the table full exactly if the headers of the request
  and those that are added to them are at most `maxcount`.

Design notes: the headers of a request are in the order of their insertions, so the table is
what these make of an empty one.  No other backend inserts any; its runs are those in which
the action has no handler.
-/
import Mongrel2.HandlerBody
import Mongrel2.HeadersJson
import Mongrel2.RequestHeaders

namespace Mongrel2

open ByteStream HttpParser

/-! ### The table -/

/-- The nodes of a dictionary in order, at most `maxcount` of them. -/
structure HeaderTable (max : ℕ) where
  nodes : List (List Byte × List Byte)
  length_le : nodes.length ≤ max

theorem length_dictInsert (h : List Byte × List Byte) (nodes : List (List Byte × List Byte)) :
    (dictInsert h nodes).length = nodes.length + 1 :=
  (dictInsert_perm h nodes).length_eq

namespace HeaderTable

variable {max : ℕ}

/-- `dict_create`. -/
def create (max : ℕ) : HeaderTable max := ⟨[], Nat.zero_le max⟩

/-- `dict_isfull`. -/
def isfull (t : HeaderTable max) : Bool := t.nodes.length == max

/-- `dict_alloc_insert`; `none` is the failing assertion of `dict_insert`. -/
def allocInsert (t : HeaderTable max) (h : List Byte × List Byte) : Option (HeaderTable max) :=
  if hfull : t.isfull = true then none
  else some ⟨dictInsert h t.nodes, by
    have hne : t.nodes.length ≠ max := fun heq => hfull (beq_iff_eq.mpr heq)
    have hle := t.length_le
    rw [length_dictInsert]
    omega⟩

theorem isfull_iff (t : HeaderTable max) : t.isfull = true ↔ t.nodes.length = max := beq_iff_eq

/-- **Insertions one after another** find room exactly if there is room for all. -/
theorem foldlM_allocInsert (hs : List (List Byte × List Byte)) (t : HeaderTable max) :
    hs.foldlM allocInsert t ≠ none ↔ t.nodes.length + hs.length ≤ max := by
  induction hs generalizing t with
  | nil => exact iff_of_true (Option.some_ne_none t) t.length_le
  | cons h hs ih =>
    rw [List.foldlM_cons, List.length_cons]
    by_cases hfull : t.isfull = true
    · have hlen := t.isfull_iff.mp hfull
      rw [allocInsert, dif_pos hfull]
      refine iff_of_false (fun hne => hne rfl) ?_
      omega
    · rw [allocInsert, dif_neg hfull]
      refine (ih _).trans ?_
      dsimp only
      rw [length_dictInsert, Nat.add_right_comm, Nat.add_assoc]

end HeaderTable

/-- `req->headers`: what the insertions since `Request_start` make of the dictionary. -/
def Request.table (max : ℕ) (r : Request) : Option (HeaderTable max) :=
  r.headers.foldlM HeaderTable.allocInsert (.create max)

theorem Request.table_ne_none_iff (max : ℕ) (r : Request) :
    r.table max ≠ none ↔ r.headers.length ≤ max := by
  refine (HeaderTable.foldlM_allocInsert r.headers (.create max)).trans ?_
  have hnil : (HeaderTable.create max).nodes.length = 0 := rfl
  rw [hnil, Nat.zero_add]

/-- A table that was never full holds the nodes of the dictionary without a bound. -/
theorem Request.nodes_table {max : ℕ} {r : Request} {t : HeaderTable max}
    (h : r.table max = some t) : t.nodes = r.nodes := by
  suffices hfold : ∀ (hs : List (List Byte × List Byte)) (t₀ : HeaderTable max),
      hs.foldlM HeaderTable.allocInsert t₀ = some t →
        t.nodes = hs.foldl (fun nodes h => dictInsert h nodes) t₀.nodes from hfold _ _ h
  intro hs
  induction hs with
  | nil =>
    intro t₀ h
    rw [Option.some.inj h]
    rfl
  | cons h hs ih =>
    intro t₀ hrun
    rw [List.foldlM_cons] at hrun
    obtain ⟨t₁, hone, hrest⟩ := Option.bind_eq_some_iff.mp hrun
    rw [List.foldl_cons, ih t₁ hrest]
    unfold HeaderTable.allocInsert at hone
    split at hone
    · exact absurd hone (by simp)
    · rw [← Option.some.inj hone]

/-! ### The run of a request -/

namespace Conn

variable (lim : Limits) (env : HandlerEnv) (c : Conn)

/-- `connection_parse`, and `connection_http_to_handler` on a request that has been read. -/
def serve : Conn :=
  let (rc, c) := readHeader lim { c with nread := 0 }
  if 0 < rc then (c.httpToHandler lim env).2 else c

end Conn

/-- The client sends the request: all of it and perhaps more, or it hangs up before. -/
def Sends (h : List Byte) (c : Conn) : Prop := h <+: c.sock.stream ∨ c.sock.stream <+: h

/-- In no run of the request does an insertion find the table full. -/
def Suffices (max : ℕ) (lim : Limits) (h : List Byte) : Prop :=
  ∀ (c : Conn) (env : HandlerEnv), lim.bufferSize < c.buf.alloc → Sends h c →
    (c.serve lim env).req.table max ≠ none

section

variable {lim : Limits} {env : HandlerEnv} {c c' : Conn} {h : List Byte}
  {headers : List (List Byte × List Byte)}

open Request

/-- What has been parsed when the loop of `Connection_read_header` ends. -/
theorem readHeaderLoop_req {c₀ : Conn} (halloc : lim.bufferSize < c₀.buf.alloc) {n m : ℕ} {f : ℤ}
    (hread : Reading lim c₀ c m) (hm : m < lim.bufferSize)
    (hfin : ¬ Complete c₀.req c₀.sock.stream m) :
    ∃ m', (Conn.readHeaderLoop lim n f m (lim.bufferSize - 1 - m) c).2.req =
      (c₀.req.parse (c₀.sock.stream.take m')).1 := by
  induction n generalizing m f c with
  | zero => exact ⟨m, hread.req⟩
  | succ n ih =>
    have hrem : ((lim.bufferSize : ℤ) - 1 - m).toNat = lim.bufferSize - 1 - m := by omega
    rw [Conn.readHeaderLoop]
    split
    · exact ⟨m, hread.req⟩
    rw [hrem]
    rcases hrecv : c.recv m (lim.bufferSize - 1 - m) with ⟨got, c'⟩
    dsimp only
    split
    · -- a `recv` does not touch the request
      obtain ⟨-, rfl⟩ := Prod.mk.inj hrecv
      exact ⟨m, hread.req⟩
    · obtain ⟨hlen, hcap, hnext⟩ := hread.recv halloc hm hfin hrecv
      rw [if_neg (by simpa using hcap)]
      generalize ({ c' with nread := c'.nread + got.length } : Conn).requestParse = c'' at *
      have hnread : (c''.nread : ℤ) = (m + got.length : ℕ) := congrArg _ hnext.nread
      rw [hnread, hnext.nread]
      -- a complete header ends the loop in the next round
      by_cases hdone : Complete c₀.req c₀.sock.stream (m + got.length)
      · refine ⟨m + got.length, ?_⟩
        have hfinish : c''.req.finish = 1 := by
          rw [finish_eq_one, hnext.req]
          exact hdone
        rw [hfinish, ← hnext.req]
        cases n with
        | zero => rfl
        | succ n => rw [Conn.readHeaderLoop, if_pos (.inl rfl)]
      · exact ih hnext (by omega) hdone

/-- A read that fails leaves what has been parsed. -/
theorem readHeader_req (hpos : 0 < lim.bufferSize) (halloc : lim.bufferSize < c.buf.alloc)
    (hn : c.nread = 0) (hfail : (c.readHeader lim).1 = -1) :
    ∃ m, (c.readHeader lim).2.req = (c.req.parse (c.sock.stream.take m)).1 := by
  obtain ⟨m, hreq⟩ := @readHeaderLoop_req lim (c.cleared lim)
    { c with buf := c.buf.write lim.bufferSize [0] } halloc lim.bufferSize 0 0
    (reading_cleared hn) hpos (not_complete_zero _ _)
  rw [Nat.cast_zero, Int.sub_zero] at hreq
  refine ⟨m, Eq.trans ?_ hreq⟩
  rw [Conn.cleared]
  rw [Conn.readHeader] at hfail ⊢
  rcases hrun : Conn.readHeaderLoop lim lim.bufferSize 0 0 (lim.bufferSize - 1)
      { c with nparsed := 0, req := c.req.start, buf := c.buf.write lim.bufferSize [0] } with
    ⟨_ | finished, c'⟩
  · rfl
  · rw [hrun] at hfail
    by_cases hone : finished = 1
    · simp only [if_pos hone] at hfail
      omega
    · simp only [if_neg hone]
      rfl

/-! ### What is added -/

theorem deliverBody_req (env : HandlerEnv) (c : Conn) (body : List Byte) :
    (c.deliverBody env body).2.req = c.req := by
  unfold Conn.deliverBody
  split <;> rfl

theorem uploadLoop_req (n : ℕ) (len : ℤ) (file : List Byte) (c : Conn) :
    (Conn.uploadLoop lim env n len file c).2.2.req = c.req := by
  induction n generalizing len file c with
  | zero => rfl
  | succ n ih =>
    rw [Conn.uploadLoop]
    split
    · rfl
    rcases hrecv : c.recv 0 (min len.toNat lim.bufferSize) with ⟨got, c'⟩
    obtain ⟨-, rfl⟩ := Prod.mk.inj hrecv
    dsimp only
    split
    · rfl
    · exact ih ..

/-- An upload adds a header when it starts, and one when it is done. -/
theorem length_uploadFile_le (headerLen : ℕ) (len : ℤ) :
    (c.uploadFile lim env headerLen len).2.req.headers.length ≤ c.req.headers.length + 2 := by
  have hinsert : ∀ (c : Conn) (name value : List Byte),
      (c.insertHeader name value).req.headers.length = c.req.headers.length + 1 :=
    fun c name value => List.length_append
  rw [Conn.uploadFile]
  split
  · exact Nat.le_add_right ..
  · rename_i store _
    split
    · exact Nat.le_add_right ..
    dsimp only
    have hstart := hinsert c (bytes "X-Mongrel2-Upload-Start") store
    generalize c.insertHeader (bytes "X-Mongrel2-Upload-Start") store = c₁ at *
    have hpayload : (c₁.payload []).req = c₁.req := rfl
    split
    · rw [hpayload, hstart]
      omega
    · split
      case h_1 file c₂ hloop =>
        have hreq : c₂.req = c₁.req :=
          (congrArg (fun p => p.2.2.req) hloop).symm.trans (uploadLoop_req ..)
        rw [hinsert, hreq, hstart]
      case h_2 file c₂ hloop =>
        have hreq : c₂.req = c₁.req :=
          (congrArg (fun p => p.2.2.req) hloop).symm.trans (uploadLoop_req ..)
        rw [hreq, hstart]
        omega

/-- How many headers are added for the handler. -/
def uploads (lim : Limits) (len : ℤ) : ℕ := if lim.maxContentLength < len then 2 else 0

theorem length_httpToHandler_le :
    (c.httpToHandler lim env).2.req.headers.length ≤
      c.req.headers.length + uploads lim c.req.parser.contentLen := by
  rw [Conn.httpToHandler]
  dsimp only
  split
  · exact Nat.le_add_right ..
  split
  · rw [deliverBody_req]
    exact Nat.le_add_right ..
  by_cases hmax : lim.maxContentLength < c.req.parser.contentLen
  · have hupload := @length_uploadFile_le lim env c c.req.parser.bodyStart c.req.parser.contentLen
    rw [if_pos hmax, uploads, if_pos hmax]
    rcases hrun : c.uploadFile lim env c.req.parser.bodyStart c.req.parser.contentLen with
      ⟨_ | file, c'⟩ <;> rw [hrun] at hupload
    · exact hupload
    · dsimp only
      rw [deliverBody_req]
      exact hupload
  · -- the body goes through the buffer
    rw [if_neg hmax, uploads, if_neg hmax, Nat.add_zero]
    have hreq : (if (lim.bufferSize : ℤ) < c.req.parser.bodyStart + c.req.parser.contentLen then
        { c with buf := c.buf.realloc (c.req.parser.bodyStart + c.req.parser.contentLen).toNat }
        else c).req = c.req := by
      split <;> rfl
    generalize (if (lim.bufferSize : ℤ) < c.req.parser.bodyStart + c.req.parser.contentLen then
        { c with buf := c.buf.realloc (c.req.parser.bodyStart + c.req.parser.contentLen).toNat }
        else c) = c₁ at *
    rw [← hreq]
    split
    · split
      · rw [deliverBody_req]
      · exact le_rfl
    · rw [deliverBody_req]

/-- A run inserts no more than this. -/
theorem length_serve_le (hpos : 0 < lim.bufferSize) (halloc : lim.bufferSize < c.buf.alloc)
    (hh : IsHeader create h) (hw : Written h headers) (hsend : Sends h c) :
    (c.serve lim env).req.headers.length ≤
      headers.length + 1 + uploads lim (contentLength headers) := by
  have hh := isHeader_of_create hh c.req
  obtain ⟨hheaders, hlen⟩ := parse_written hw hh
  -- what has been read is a part of the request, or holds it
  have hprefix : ∀ m, c.sock.stream.take m <+: h ∨ h <+: c.sock.stream.take m := by
    intro m
    rcases hsend with hsend | hsend
    · exact List.prefix_or_prefix_of_prefix (List.take_prefix m _) hsend
    · exact .inl ((List.take_prefix m _).trans hsend)
  rcases @readHeader_spec lim { c with nread := 0 } hpos halloc rfl with
    ⟨m, c', hrun, hread⟩ | ⟨hfail, -⟩
  · have hmpos : (0 : ℤ) < m := by
      have hne : m ≠ 0 := by
        rintro rfl
        exact not_complete_zero _ _ hread.complete
      omega
    have hserve : c.serve lim env = (c'.httpToHandler lim env).2 := by
      rw [Conn.serve, hrun]
      exact if_pos hmpos
    -- behind the header nothing is parsed
    have hparse : c.req.parse (c.sock.stream.take m) = c.req.parse h := by
      rcases hprefix m with hpre | hpre
      · have hsame := finished_of_prefix c.req hpre hread.complete
        exact hsame.symm
      · exact finished_of_prefix c.req hpre hh.finished
    have hreq : c'.req = { (c.req.parse h).1 with
        headers := headers ++ [(bytes "X-Forwarded-For", c.remote)] } := by
      rw [← hheaders, ← hparse]
      exact hread.req
    have hbound := @length_httpToHandler_le lim env c'
    rw [hreq] at hbound
    dsimp only at hbound
    rw [List.length_append, List.length_singleton, hlen] at hbound
    rw [hserve]
    exact hbound
  · obtain ⟨m, hreq⟩ := @readHeader_req lim { c with nread := 0 } hpos halloc rfl hfail
    rcases hrun : Conn.readHeader lim { c with nread := 0 } with ⟨rc, c'⟩
    rw [hrun] at hfail hreq
    obtain rfl : rc = -1 := hfail
    have hserve : c.serve lim env = c' := by
      rw [Conn.serve, hrun]
      rfl
    have hreq : c'.req = (c.req.parse (c.sock.stream.take m)).1 := hreq
    -- the client has hung up inside the header
    have hle : (c.req.parse (c.sock.stream.take m)).1.headers.length ≤ headers.length := by
      rw [← hheaders]
      rcases hprefix m with hpre | hpre
      · exact (headers_parse c.req hpre).length_le
      · have hsame := finished_of_prefix c.req hpre hh.finished
        rw [hsame]
    rw [hserve, hreq]
    exact hle.trans (by omega)

/-! ### A run that inserts all of it -/

theorem uploadLoop_completes (hpos : 0 < lim.bufferSize) (henv : env.fdwrite = true) {n : ℕ}
    {len : ℤ} {file : List Byte} (hlen : len = c.sock.stream.length) (hn : len ≤ n) :
    (Conn.uploadLoop lim env n len file c).1 = true := by
  induction n generalizing len file c with
  | zero =>
    rw [Conn.uploadLoop, beq_iff_eq]
    omega
  | succ n ih =>
    rw [Conn.uploadLoop]
    split
    · rw [beq_iff_eq]
      omega
    · rcases hrecv : c.recv 0 (min len.toNat lim.bufferSize) with ⟨got, c'⟩
      have hsplit := c.sock.recv_append (min len.toNat lim.bufferSize)
      have hnil := @Socket.recv_eq_nil c.sock (min len.toNat lim.bufferSize) (by omega)
      obtain ⟨hgot, rfl⟩ := Prod.mk.inj hrecv
      rw [hgot] at hsplit hnil
      have hne : got ≠ [] := by
        rw [Ne, hnil, ← List.length_eq_zero_iff]
        omega
      have hgot : ¬(got = [] ∨ (!env.fdwrite) = true) := by simp [hne, henv]
      have hsum := congrArg List.length hsplit
      rw [List.length_append] at hsum
      -- each round reads something, and no more than is missing
      have hone : 0 < got.length := List.length_pos_iff.mpr hne
      dsimp only
      rw [if_neg hgot]
      refine ih ?_ (by omega)
      dsimp only
      omega

/-- An upload for which everything succeeds. -/
theorem uploadFile_completes {headerLen : ℕ} {len : ℤ} (hpos : 0 < lim.bufferSize)
    (hread : c.nread ≤ headerLen) (hlen : len = c.sock.stream.length) :
    ∃ file c', c.uploadFile lim goodEnv headerLen len = (some file, c') ∧
      c'.req.headers.length = c.req.headers.length + 2 := by
  have hmkstemp : ¬(!goodEnv.mkstemp) = true := by decide
  have hstore : goodEnv.tempStore = some (bytes "/tmp/up.XXXXXX") := rfl
  rw [Conn.uploadFile]
  simp only [hstore]
  rw [if_neg hmkstemp]
  -- the notice of the upload goes out
  have hnread : ((c.insertHeader (bytes "X-Mongrel2-Upload-Start")
      (bytes "/tmp/up.XXXXXX")).payload []).nread = c.nread := rfl
  have hsock : ((c.insertHeader (bytes "X-Mongrel2-Upload-Start")
      (bytes "/tmp/up.XXXXXX")).payload []).sock = c.sock := rfl
  have hone : ((c.insertHeader (bytes "X-Mongrel2-Upload-Start")
      (bytes "/tmp/up.XXXXXX")).payload []).req.headers.length = c.req.headers.length + 1 :=
    List.length_append
  generalize (c.insertHeader (bytes "X-Mongrel2-Upload-Start")
    (bytes "/tmp/up.XXXXXX")).payload [] = c₁ at *
  have hgoes : ¬((!goodEnv.deliverNotice) = true ∨ headerLen < c₁.nread ∧
      (!goodEnv.fdwrite) = true) := by
    rintro (hnot | ⟨hlt, -⟩)
    · exact absurd hnot (by decide)
    · omega
  have hslice : c₁.buf.slice headerLen (c₁.nread - headerLen) = [] := by
    have hnone : c₁.nread - headerLen = 0 := by omega
    rw [hnone]
    rfl
  rw [if_neg hgoes, hslice, List.length_nil, Nat.cast_zero, Int.sub_zero]
  have hloop := @uploadLoop_completes lim goodEnv { c₁ with nread := 0 } hpos rfl len.toNat len []
    (by rw [hlen, hsock]) (by omega)
  have hreq := @uploadLoop_req lim goodEnv len.toNat len [] { c₁ with nread := 0 }
  rcases hrun : Conn.uploadLoop lim goodEnv len.toNat len [] { c₁ with nread := 0 } with
    ⟨done, file, c₂⟩
  rw [hrun] at hloop hreq
  obtain rfl : done = true := hloop
  have hreq : c₂.req = c₁.req := hreq
  refine ⟨file, _, rfl, ?_⟩
  show (c₂.req.headers ++ [_]).length = _
  rw [hreq, List.length_append, hone]
  rfl

theorem serve_of_parse (h : c.parse lim = some c') :
    c.serve lim env = (c'.httpToHandler lim env).2 := by
  rw [Conn.parse] at h
  rw [Conn.serve]
  rcases hrun : Conn.readHeader lim { c with nread := 0 } with ⟨rc, c''⟩
  rw [hrun] at h
  obtain ⟨hrc, heq⟩ := Option.ite_none_right_eq_some.mp h
  obtain rfl := Option.some.inj heq
  exact if_pos hrc

/-- The first piece of the stream is the request, and its body comes behind it. -/
theorem readUntil_first {room n : ℕ} (hne : h ≠ []) (hroom : h.length ≤ room) (body : List Byte) :
    readUntil room h.length (n + 1) 0 ⟨h ++ body, [h.length - 1]⟩ = some (h.length, ⟨body, []⟩) := by
  have hpos : 0 < h.length := List.length_pos_iff.mpr hne
  have hmin : min (room - 0) (h.length - 1 + 1) = h.length := by omega
  have hrecv : Socket.recv ⟨h ++ body, [h.length - 1]⟩ (room - 0) = (h, ⟨body, []⟩) := by
    rw [Socket.recv]
    dsimp only
    rw [hmin, List.take_left, List.drop_left]
  rw [readUntil, hrecv]
  dsimp only
  rw [if_neg hne, if_pos (Nat.zero_add _).ge, Nat.zero_add]

/-- **A request can be sent so that all is inserted**: its header comes in one piece, and a
body that is stored comes whole. -/
theorem exists_run (hfit : h.length < lim.bufferSize) (hh : IsHeader create h)
    (hw : Written h headers) :
    ∃ (c : Conn) (env : HandlerEnv), lim.bufferSize < c.buf.alloc ∧ Sends h c ∧
      (c.serve lim env).req.headers.length =
        headers.length + 1 + uploads lim (contentLength headers) := by
  have hpos : 0 < lim.bufferSize := by omega
  let body : List Byte := List.replicate (contentLength headers).toNat 0
  let c : Conn := .create lim [] ⟨h ++ body, [h.length - 1]⟩
  have halloc : lim.bufferSize < c.buf.alloc := Nat.lt_succ_self _
  have hpre : h <+: c.sock.stream := List.prefix_append ..
  have hparse := parse_until hpos halloc (isHeader_of_create hh c.req) hpre
  obtain ⟨n, hn⟩ := Nat.exists_eq_succ_of_ne_zero hpos.ne'
  have huntil : readUntil (lim.bufferSize - 1) h.length lim.bufferSize 0 c.sock =
      some (h.length, ⟨body, []⟩) := by
    rw [hn]
    exact readUntil_first hh.ne_nil (by omega) body
  rw [huntil] at hparse
  obtain ⟨c', hc', hread, -, hsock⟩ := hparse
  have hheader := isHeader_of_create hh c.req
  obtain ⟨hheaders, hlen⟩ := parse_written hw hheader
  have htake : ({ c with nread := 0 } : Conn).sock.stream.take h.length = h := List.take_left ..
  have hreq := hread.req
  rw [htake] at hreq
  have hinserted : c'.req.headers.length = headers.length + 1 := by
    rw [hreq, ← hheaders]
    exact List.length_append
  have hcontent : c'.req.parser.contentLen = contentLength headers := by
    rw [hreq]
    exact hlen
  by_cases hmax : lim.maxContentLength < contentLength headers
  · refine ⟨c, goodEnv, halloc, .inl hpre, ?_⟩
    -- the buffer ends with the header, so the whole body is still to come
    have hstart : c'.req.parser.bodyStart = h.length := by
      rw [hreq]
      exact (parse_bodyStart hh.ne_nil c.req hheader.finished).trans hheader.nparsed
    have hbody : contentLength headers = c'.sock.stream.length := by
      rw [hsock, List.length_replicate]
      omega
    obtain ⟨file, c'', hfile, htwo⟩ := @uploadFile_completes lim c' c'.req.parser.bodyStart
      (contentLength headers) hpos (by rw [hstart, hread.nread]) hbody
    have hne : ¬contentLength headers = 0 := by omega
    rw [serve_of_parse hc', Conn.httpToHandler, hcontent]
    dsimp only
    rw [if_neg (by decide), if_neg hne, if_pos hmax, hfile]
    dsimp only
    rw [deliverBody_req, htwo, hinserted, uploads, if_pos hmax]
  · -- an action without a handler adds nothing
    refine ⟨c, { goodEnv with handler := false }, halloc, .inl hpre, ?_⟩
    rw [serve_of_parse hc', uploads, if_neg hmax]
    exact hinserted

/-- **The table is large enough for a request** that fits in the buffer exactly if there is
room in it for the headers that stand in the request, for `X-Forwarded-For`, and for the two
of an upload if the body is larger than `MAX_CONTENT_LENGTH`. -/
theorem suffices_iff {max : ℕ} (hh : IsHeader create h) (hfit : h.length < lim.bufferSize) :
    (∃ headers, Written h headers) ∧ ∀ headers, Written h headers →
      (Suffices max lim h ↔
        headers.length + 1 + (if lim.maxContentLength < contentLength headers then 2 else 0) ≤
          max) := by
  refine ⟨exists_written hh, fun headers hw => ⟨fun hall => ?_, fun hle c env halloc hsend => ?_⟩⟩
  · obtain ⟨c, env, halloc, hsend, hlen⟩ := exists_run hfit hh hw
    have htable := (table_ne_none_iff max _).mp (hall c env halloc hsend)
    rw [hlen] at htable
    exact htable
  · refine (table_ne_none_iff max _).mpr ?_
    exact (length_serve_le (by omega) halloc hh hw hsend).trans hle

end

/-! ### The smallest headers -/

/-- The default of `limits.header_count`. -/
def defaultHeaderCount : ℕ := 128 * 10

/-- A request with `n` headers of three bytes. -/
def crowded (n : ℕ) : List Byte :=
  bytes "GET / HTTP/1.1" ++ [chr '\n'] ++ ((List.replicate n (bytes "a:\n")).flatten ++ [chr '\n'])

theorem headerSection_crowded (n : ℕ) : HeaderSection (List.replicate n (bytes "a", []))
    ((List.replicate n (bytes "a:\n")).flatten ++ [chr '\n']) := by
  induction n with
  | zero => exact .empty (.inl rfl)
  | succ n ih =>
    have hline : HeaderLine (bytes "a") [] (bytes "a:\n") :=
      ⟨⟨by decide, List.all_eq_true.mp (by decide)⟩, List.forall_mem_nil _, by decide, 0,
        [chr '\n'], .inl rfl, by decide⟩
    rw [List.replicate_succ, List.replicate_succ, List.flatten_cons, List.append_assoc]
    exact .cons hline ih

theorem written_crowded (n : ℕ) : Written (crowded n) (List.replicate n (bytes "a", [])) :=
  .http (by decide) (by decide) (headerSection_crowded n)

theorem isHeader_crowded (n : ℕ) : IsHeader .create (crowded n) :=
  Request.isHeader_http (by decide) (by decide) (headerSection_crowded n) .create

theorem length_crowded (n : ℕ) : (crowded n).length = 3 * n + 16 := by
  have hlines : (List.replicate n (bytes "a:\n")).flatten.length = n * 3 := by
    rw [List.length_flatten, List.map_replicate, List.sum_replicate]
    rfl
  have hfirst : (bytes "GET / HTTP/1.1").length = 14 := rfl
  rw [crowded, List.length_append, List.length_append, List.length_append, hlines, hfirst]
  simp only [List.length_singleton]
  omega

theorem contentLength_crowded (n : ℕ) : contentLength (List.replicate n (bytes "a", [])) = 0 := by
  have hother : sameCaseless (bytes "a") (bytes "Content-Length") = false := by decide
  have hnone : (List.replicate n (bytes "a", ([] : List Byte))).find?
      (fun h => sameCaseless h.1 (bytes "Content-Length")) = none := by
    refine List.find?_eq_none.mpr fun h hmem => ?_
    rw [List.eq_of_mem_replicate hmem, hother]
    simp
  rw [contentLength, hnone]
  rfl

/-- One header less than the default of the limit. -/
theorem suffices_iff_crowded : Suffices defaultHeaderCount defaultLimits (crowded 1279) := by
  have hfit : (crowded 1279).length < defaultLimits.bufferSize := by
    rw [length_crowded]
    decide
  refine ((suffices_iff (isHeader_crowded 1279) hfit).2 _ (written_crowded 1279)).mpr ?_
  rw [contentLength_crowded, List.length_replicate]
  decide

/-- With as many as the limit the table is full before `X-Forwarded-For` is inserted. -/
theorem not_suffices_crowded :
    ¬ ∀ h, IsHeader .create h → h.length < defaultLimits.bufferSize →
      Suffices defaultHeaderCount defaultLimits h := by
  intro hall
  have hfit : (crowded 1280).length < defaultLimits.bufferSize := by
    rw [length_crowded]
    decide
  obtain ⟨c, env, halloc, hsend, hlen⟩ :=
    exists_run hfit (isHeader_crowded 1280) (written_crowded 1280)
  have htable := (Request.table_ne_none_iff _ _).mp
    (hall _ (isHeader_crowded 1280) hfit c env halloc hsend)
  rw [hlen, List.length_replicate, defaultHeaderCount] at htable
  omega

end Mongrel2

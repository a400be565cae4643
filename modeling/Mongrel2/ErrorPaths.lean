/-
What the error paths of a request leave behind (`connection.c`, `request.c`, `dir.c`).

* `HeaderNodes` — the dictionary of a request's headers, with the strings its nodes own;
* `Process.uploadFile` — `connection_upload_file`, with what it allocates and opens;
* `findFileFds` — `Dir_find_file`, failure for failure;
* **`ownedAlone_iff`** — each string in the headers has one owner and is destroyed once,
  exactly if the upload put none in;
* **`keepsOnFailure_iff`** — a call that fails leaves open what was open, exactly if it
  came to open something or descriptor 0 is not open.

Design notes: a string is named by the number of those allocated before, and its text is
left out.  What other tasks open and close during the call is not the call's.  The
payload of the notice, and the strings of a `FileRecord`, have one owner throughout.
-/
import Mongrel2.Upload
import Mongrel2.Dir
import Mathlib.Data.Finset.Card
import Mathlib.Data.Finset.Insert

namespace Mongrel2

open ByteStream

/-! ### Open descriptors -/

namespace Fds

/-- The least number that is not open, which `open` and `mkstemp` answer. -/
def lowest (fds : Finset ℕ) : ℕ := ((List.range (fds.card + 1)).find? (· ∉ fds)).getD 0

/-- `fdclose`. -/
def fdclose (fds : Finset ℕ) (fd : ℤ) : Finset ℕ := if 0 ≤ fd then fds.erase fd.toNat else fds

theorem lowest_not_mem (fds : Finset ℕ) : lowest fds ∉ fds := by
  -- among `card + 1` numbers one is not in the set
  have hsome : ((List.range (fds.card + 1)).find? (· ∉ fds)).isSome := by
    rw [List.find?_isSome]
    by_contra hnone
    have hall : Finset.range (fds.card + 1) ⊆ fds := by
      intro n hn
      by_contra hnot
      exact hnone ⟨n, List.mem_range.mpr (Finset.mem_range.mp hn), by simpa using hnot⟩
    have hcard := Finset.card_le_card hall
    rw [Finset.card_range] at hcard
    omega
  obtain ⟨n, hn⟩ := Option.isSome_iff_exists.mp hsome
  have hmem := List.find?_some hn
  rw [lowest, hn]
  simpa using hmem

/-- What was opened last is closed. -/
theorem fdclose_lowest (fds : Finset ℕ) :
    fdclose (insert (lowest fds) fds) (lowest fds : ℕ) = fds := by
  rw [fdclose, if_pos (by omega), Int.toNat_natCast]
  exact Finset.erase_insert (lowest_not_mem fds)

theorem fdclose_neg (fds : Finset ℕ) : fdclose fds (-1) = fds := rfl

theorem fdclose_zero_iff {fds : Finset ℕ} : fdclose fds 0 = fds ↔ 0 ∉ fds := by
  rw [fdclose, if_pos le_rfl]
  exact Finset.erase_eq_self

end Fds

/-! ### Strings and the nodes that own them -/

/-- A `bstring`, by the number of those allocated before. -/
abbrev StrId := ℕ

/-- The strings allocated so far, and the calls of `bdestroy`. -/
structure Strings where
  allocated : ℕ
  destroyed : List StrId
  /-- a destroyed string has been read, or destroyed again -/
  fault : Bool
  deriving DecidableEq

namespace Strings

variable (s : Strings) (id : StrId)

/-- `blk2bstr`, `bfromcstr` and `bstrcpy`. -/
def alloc : StrId × Strings := (s.allocated, { s with allocated := s.allocated + 1 })

/-- The string is followed. -/
def touch : Strings := { s with fault := s.fault || s.destroyed.contains id }

/-- `bdestroy`. -/
def destroy : Strings := { s.touch id with destroyed := s.destroyed ++ [id] }

end Strings

/-- The `headers` of a `Request`: key and value of each node. -/
structure HeaderNodes where
  strings : Strings
  nodes : List (StrId × StrId)
  deriving DecidableEq

namespace HeaderNodes

variable (h : HeaderNodes)

/-- `Request_create`. -/
def create : HeaderNodes := ⟨⟨0, [], false⟩, []⟩

/-- The strings stored in the nodes. -/
def ids : List StrId := h.nodes.flatMap fun n => [n.2, n.1]

/-- `dict_alloc_insert` of a new string as the key. -/
def insert (value : StrId) : HeaderNodes :=
  ⟨h.strings.alloc.2, h.nodes ++ [(h.strings.alloc.1, value)]⟩

/-- `header_field_cb`. -/
def field : HeaderNodes :=
  { h with strings := h.strings.alloc.2 }.insert h.strings.alloc.1

/-- `Request_to_payload`, which reads every header. -/
def toPayload : HeaderNodes := { h with strings := h.ids.foldl .touch h.strings }

/-- `dict_free_nodes`, with `req_free_dict`. -/
def freeNodes : HeaderNodes := ⟨h.ids.foldl .destroy h.strings, []⟩

end HeaderNodes

/-- What becomes of a request that is not destroyed yet. -/
inductive HeaderOp
  | field
  | toPayload
  | start
  deriving DecidableEq

namespace HeaderNodes

/-- One step; `Request_start` frees the nodes. -/
def apply (h : HeaderNodes) : HeaderOp → HeaderNodes
  | .field => h.field
  | .toPayload => h.toPayload
  | .start => h.freeNodes

/-- A list of steps. -/
def run (h : HeaderNodes) (ops : List HeaderOp) : HeaderNodes := ops.foldl apply h

/-- `Request_destroy`, as far as the headers go. -/
def requestDestroy (h : HeaderNodes) : HeaderNodes := h.freeNodes

end HeaderNodes

/-! ### The upload -/

/-- What `connection_upload_file` finds outside the connection. -/
structure UploadEnv extends HandlerEnv where
  /-- the connection is registered, as `Request_to_payload` asks -/
  registered : Bool
  outcomes : List WriteOutcome

/-- A connection, the strings of its request and the open descriptors. -/
structure Process where
  conn : Conn
  headers : HeaderNodes
  fds : Finset ℕ

/-- The body goes to the temporary file; false at the first thing that goes wrong. -/
def Conn.storeBody (lim : Limits) (outcomes : List WriteOutcome) (headerLen : ℕ) (contentLen : ℤ)
    (c : Conn) : Bool × Conn :=
  let (rc, file) :=
    if headerLen < c.nread then
      TempFile.fdwrite ⟨[], outcomes⟩ (c.buf.slice headerLen (c.nread - headerLen))
    else (0, ⟨[], outcomes⟩)
  if headerLen < c.nread ∧ rc ≠ (c.nread - headerLen : ℕ) then (false, c)
  else
    let (ok, _, c) :=
      Conn.uploadTempLoop lim contentLen.toNat (contentLen - rc) file { c with nread := 0 }
    (ok, c)

namespace Process

variable (lim : Limits) (env : UploadEnv) (p : Process)

/-- A header whose value is the string `value`. -/
def insertHeader (name text : List Byte) (value : StrId) : Process :=
  { p with conn := p.conn.insertHeader name text, headers := p.headers.insert value }

/-- The error label, when there is an `upload_store`. -/
def fail (tmpfd : ℤ) (uploadStore : StrId) : Process :=
  { p with
    headers := { p.headers with strings := p.headers.strings.destroy uploadStore }
    fds := Fds.fdclose p.fds tmpfd }

/-- `bstrcpy` of the setting. -/
def copied : Process := { p with headers := { p.headers with strings := p.headers.strings.alloc.2 } }

/-- The file has been created and the first header inserted. -/
def opened (store : List Byte) : Process :=
  { p.copied with fds := insert (Fds.lowest p.fds) p.fds }.insertHeader
    (bytes "X-Mongrel2-Upload-Start") store p.headers.strings.alloc.1

/-- `connection_upload_file`; `none` for NULL. -/
def uploadFile (headerLen : ℕ) (contentLen : ℤ) : Option StrId × Process :=
  match env.tempStore with
  | none =>
    -- there is no `upload_store` yet, and `tmpfd` is 0
    (none, { p with conn := p.conn.reply 413, fds := Fds.fdclose p.fds 0 })
  | some store =>
    let uploadStore := p.headers.strings.alloc.1
    let tmpfd := Fds.lowest p.fds
    if !env.mkstemp then (none, p.copied.fail (-1) uploadStore)
    else
      let p := p.opened store
      if !env.registered then (none, p.fail tmpfd uploadStore)
      else
        let p := { p with conn := p.conn.payload [], headers := p.headers.toPayload }
        if !env.deliverNotice then (none, p.fail tmpfd uploadStore)
        else
          match p.conn.storeBody lim env.outcomes headerLen contentLen with
          | (false, conn) => (none, { p with conn := conn }.fail tmpfd uploadStore)
          | (true, conn) =>
            let p := { p with conn := conn }.insertHeader (bytes "X-Mongrel2-Upload-Done") store
              uploadStore
            (some uploadStore, { p with fds := Fds.fdclose p.fds tmpfd })

end Process

section

variable {lim : Limits} {env : UploadEnv} {p : Process} {headerLen : ℕ} {contentLen : ℤ}

/-- **On the connection** it is the upload of a registered connection. -/
theorem uploadFile_conn (hreg : env.registered = true) :
    (p.uploadFile lim env headerLen contentLen).2.conn =
      (p.conn.uploadTempFile lim env.toHandlerEnv env.outcomes headerLen contentLen).2 := by
  rw [Process.uploadFile, Conn.uploadTempFile]
  cases env.tempStore with
  | none => rfl
  | some store =>
    dsimp only
    cases env.mkstemp with
    | false => rfl
    | true =>
      rw [hreg]
      cases env.deliverNotice with
      | false => rfl
      | true =>
        have hconn : (p.opened store).conn.payload [] =
          (p.conn.insertHeader (bytes "X-Mongrel2-Upload-Start") store).payload [] := rfl
        simp only [Bool.not_true, Bool.false_eq_true, if_false, hconn, Conn.storeBody]
        generalize (p.conn.insertHeader (bytes "X-Mongrel2-Upload-Start") store).payload [] = c
        rcases (if headerLen < c.nread then
            TempFile.fdwrite ⟨[], env.outcomes⟩ (c.buf.slice headerLen (c.nread - headerLen))
          else (0, ⟨[], env.outcomes⟩)) with ⟨rc, file⟩
        dsimp only
        split_ifs
        · rfl
        · rcases Conn.uploadTempLoop lim contentLen.toNat (contentLen - rc) file
            { c with nread := 0 } with ⟨ok, _, c'⟩
          cases ok <;> rfl

/-- Behind the first header the upload fails, or it inserts the second one. -/
theorem uploadFile_cases {store : List Byte} (hstore : env.tempStore = some store)
    (hmk : env.mkstemp = true) :
    ∃ q : Process, q.fds = (p.opened store).fds ∧
      (q.headers = (p.opened store).headers ∨ q.headers = (p.opened store).headers.toPayload) ∧
      (p.uploadFile lim env headerLen contentLen =
          (none, q.fail (Fds.lowest p.fds) p.headers.strings.alloc.1) ∨
        p.uploadFile lim env headerLen contentLen =
          (some p.headers.strings.alloc.1,
            { q.insertHeader (bytes "X-Mongrel2-Upload-Done") store p.headers.strings.alloc.1 with
              fds := Fds.fdclose q.fds (Fds.lowest p.fds : ℕ) })) := by
  rw [Process.uploadFile, hstore]
  dsimp only
  rw [hmk]
  cases hreg : env.registered with
  | false => exact ⟨p.opened store, rfl, .inl rfl, .inl rfl⟩
  | true =>
    cases hdel : env.deliverNotice with
    | false =>
      exact ⟨⟨(p.opened store).conn.payload [], (p.opened store).headers.toPayload,
        (p.opened store).fds⟩, rfl, .inr rfl, .inl rfl⟩
    | true =>
      rcases hbody : ((p.opened store).conn.payload []).storeBody lim env.outcomes headerLen
        contentLen with ⟨ok, conn⟩
      refine ⟨⟨conn, (p.opened store).headers.toPayload, (p.opened store).fds⟩, rfl, .inr rfl, ?_⟩
      simp only [Bool.not_true, Bool.false_eq_true, if_false]
      cases ok with
      | false => exact .inl rfl
      | true => exact .inr rfl

end

/-! ### One owner each -/

/-- No string has two owners or an owner after it was destroyed, and none was used after
that. -/
structure HeaderNodes.Sound (h : HeaderNodes) : Prop where
  nodup : (h.ids ++ h.strings.destroyed).Nodup
  known : ∀ id ∈ h.ids ++ h.strings.destroyed, id < h.strings.allocated
  fault : h.strings.fault = false

section

variable {h : HeaderNodes} {s : Strings} {ids : List StrId}

theorem touchAll_spec (hnot : ∀ id ∈ ids, id ∉ s.destroyed) : ids.foldl .touch s = s := by
  induction ids with
  | nil => rfl
  | cons id ids ih =>
    have htouch : s.touch id = s := by
      have hid := hnot id (List.mem_cons_self ..)
      simp [Strings.touch, hid]
    rw [List.foldl_cons, htouch]
    exact ih fun a ha => hnot a (List.mem_cons_of_mem id ha)

theorem destroyAll_spec (hnodup : (ids ++ s.destroyed).Nodup) :
    ids.foldl .destroy s = { s with destroyed := s.destroyed ++ ids } := by
  induction ids generalizing s with
  | nil => simp
  | cons id ids ih =>
    rw [List.cons_append, List.nodup_cons] at hnodup
    obtain ⟨hfresh, hrest⟩ := hnodup
    obtain ⟨hids, hdestroyed⟩ := not_or.mp (List.mem_append.not.mp hfresh)
    have hdestroy : s.destroy id = { s with destroyed := s.destroyed ++ [id] } := by
      simp [Strings.destroy, Strings.touch, hdestroyed]
    have hnodup' : (ids ++ (s.destroy id).destroyed).Nodup := by
      rw [hdestroy]
      have hperm : (id :: (ids ++ s.destroyed)).Perm (ids ++ (s.destroyed ++ [id])) := by
        rw [← List.append_assoc]
        exact (List.perm_append_singleton id _).symm
      exact hperm.nodup_iff.mp (List.nodup_cons.mpr ⟨hfresh, hrest⟩)
    rw [List.foldl_cons, ih hnodup', hdestroy]
    simp

namespace HeaderNodes

theorem ids_insert (h : HeaderNodes) (value : StrId) :
    (h.insert value).ids = h.ids ++ [value, h.strings.allocated] := by
  simp [insert, ids, Strings.alloc]

theorem Sound.touch (hs : h.Sound) : h.toPayload = h := by
  have hnot : ∀ id ∈ h.ids, id ∉ h.strings.destroyed := fun id hid hdestroyed =>
    (List.nodup_append.mp hs.nodup).2.2 id hid id hdestroyed rfl
  rw [toPayload, touchAll_spec hnot]

/-- Two new strings go to a new node. -/
theorem Sound.field (hs : h.Sound) : h.field.Sound := by
  have hids : h.field.ids = h.ids ++ [h.strings.allocated, h.strings.allocated + 1] :=
    ids_insert _ _
  have hdestroyed : h.field.strings.destroyed = h.strings.destroyed := rfl
  have hallocated : h.field.strings.allocated = h.strings.allocated + 2 := rfl
  have hperm : (h.ids ++ [h.strings.allocated, h.strings.allocated + 1] ++
      h.strings.destroyed).Perm
      ([h.strings.allocated, h.strings.allocated + 1] ++ (h.ids ++ h.strings.destroyed)) := by
    rw [← List.append_assoc]
    exact List.perm_append_comm.append_right _
  refine ⟨?_, ?_, hs.fault⟩
  · rw [hids, hdestroyed, hperm.nodup_iff, List.nodup_append]
    refine ⟨by simp, hs.nodup, fun a ha b hb => ?_⟩
    have hlt := hs.known b hb
    simp only [List.mem_cons, List.not_mem_nil, or_false] at ha
    rintro rfl
    rcases ha with rfl | rfl
    · exact Nat.lt_irrefl _ hlt
    · exact Nat.not_succ_lt_self hlt
  · intro id hid
    rw [hids, hdestroyed, hperm.mem_iff, List.mem_append] at hid
    rw [hallocated]
    rcases hid with hid | hid
    · simp only [List.mem_cons, List.not_mem_nil, or_false] at hid
      rcases hid with rfl | rfl
      · exact Nat.lt_add_of_pos_right (by decide)
      · exact Nat.lt_succ_self _
    · exact Nat.lt_add_right 2 (hs.known id hid)

theorem freeNodes_eq (hs : h.Sound) :
    h.freeNodes = ⟨{ h.strings with destroyed := h.strings.destroyed ++ h.ids }, []⟩ := by
  rw [freeNodes, destroyAll_spec hs.nodup]

theorem Sound.freeNodes (hs : h.Sound) : h.freeNodes.Sound := by
  have hperm : (h.ids ++ h.strings.destroyed).Perm (h.strings.destroyed ++ h.ids) :=
    List.perm_append_comm
  rw [freeNodes_eq hs]
  refine ⟨hperm.nodup_iff.mp hs.nodup, fun id hid => ?_, hs.fault⟩
  exact hs.known id (hperm.mem_iff.mpr hid)

theorem Sound.apply (hs : h.Sound) (op : HeaderOp) : (h.apply op).Sound := by
  cases op with
  | field => exact hs.field
  | toPayload =>
    show h.toPayload.Sound
    rw [hs.touch]
    exact hs
  | start => exact hs.freeNodes

theorem Sound.run (hs : h.Sound) (ops : List HeaderOp) : (h.run ops).Sound := by
  induction ops generalizing h with
  | nil => exact hs
  | cons op ops ih => exact ih (hs.apply op)

theorem sound_create : create.Sound := ⟨by simp [create, ids], by simp [create, ids], rfl⟩

/-- A string that a node owns is owned by it or destroyed ever after. -/
theorem mem_apply (hs : h.Sound) {id : StrId} (hid : id ∈ h.ids ++ h.strings.destroyed)
    (op : HeaderOp) : id ∈ (h.apply op).ids ++ (h.apply op).strings.destroyed := by
  cases op with
  | field =>
    show id ∈ h.field.ids ++ h.strings.destroyed
    have hids : h.field.ids = h.ids ++ [h.strings.allocated, h.strings.allocated + 1] :=
      ids_insert _ _
    rw [hids]
    simp only [List.mem_append] at hid ⊢
    tauto
  | toPayload =>
    show id ∈ h.toPayload.ids ++ h.toPayload.strings.destroyed
    rw [hs.touch]
    exact hid
  | start =>
    show id ∈ h.freeNodes.ids ++ h.freeNodes.strings.destroyed
    rw [freeNodes_eq hs]
    exact List.mem_append_right _ (List.perm_append_comm.mem_iff.mp hid)

theorem mem_run (hs : h.Sound) {id : StrId} (hid : id ∈ h.ids ++ h.strings.destroyed)
    (ops : List HeaderOp) : id ∈ (h.run ops).ids ++ (h.run ops).strings.destroyed := by
  induction ops generalizing h with
  | nil => exact hid
  | cons op ops ih => exact ih (hs.apply op) (mem_apply hs hid op)

/-- At the end each string is destroyed, and once. -/
theorem count_requestDestroy (hs : h.Sound) {id : StrId} (hid : id ∈ h.ids) (ops : List HeaderOp) :
    (h.run ops).requestDestroy.strings.destroyed.count id = 1 := by
  have hrun := hs.run ops
  have hmem := mem_run hs (List.mem_append_left _ hid) ops
  rw [requestDestroy, freeNodes_eq hrun]
  have hperm : ((h.run ops).ids ++ (h.run ops).strings.destroyed).Perm
      ((h.run ops).strings.destroyed ++ (h.run ops).ids) := List.perm_append_comm
  exact List.count_eq_one_of_mem (hperm.nodup_iff.mp hrun.nodup) (hperm.mem_iff.mp hmem)

end HeaderNodes

end

/-- After a call that answered `result`: each string in the headers is owned by one node
and by nothing else, and whatever becomes of the request until `Request_start` or
`Request_destroy` frees the nodes, it is destroyed once and no string is used after
that. -/
structure OwnedAlone (result : Option StrId) (h : HeaderNodes) : Prop where
  one : h.ids.Nodup
  alive : ∀ id ∈ h.ids, id ∉ h.strings.destroyed
  caller : ∀ id ∈ h.ids, result ≠ some id
  destroyed : ∀ ops, ∀ id ∈ h.ids, (h.run ops).requestDestroy.strings.destroyed.count id = 1
  fault : ∀ ops, (h.run ops).requestDestroy.strings.fault = false

theorem HeaderNodes.Sound.ownedAlone {h : HeaderNodes} (hs : h.Sound) : OwnedAlone none h where
  one := (List.nodup_append.mp hs.nodup).1
  alive id hid hdestroyed := (List.nodup_append.mp hs.nodup).2.2 id hid id hdestroyed rfl
  caller _ _ := by simp
  destroyed ops _ hid := count_requestDestroy hs hid ops
  fault ops := ((hs.run ops).freeNodes).fault

section

variable {lim : Limits} {env : UploadEnv} {p : Process} {headerLen : ℕ} {contentLen : ℤ}

/-- A copy of the setting that is destroyed again touches no header. -/
theorem sound_copied (hs : p.headers.Sound) :
    (p.copied.fail (-1) p.headers.strings.alloc.1).headers.Sound := by
  have hids : (p.copied.fail (-1) p.headers.strings.alloc.1).headers.ids = p.headers.ids := rfl
  have hfresh : p.headers.strings.allocated ∉ p.headers.ids ++ p.headers.strings.destroyed :=
    fun hmem => absurd (hs.known _ hmem) (Nat.lt_irrefl _)
  have hnot := (not_or.mp (List.mem_append.not.mp hfresh)).2
  have hstrings : (p.copied.fail (-1) p.headers.strings.alloc.1).headers.strings =
      ⟨p.headers.strings.allocated + 1,
        p.headers.strings.destroyed ++ [p.headers.strings.allocated], false⟩ := by
    simp [Process.fail, Process.copied, Strings.destroy, Strings.touch, Strings.alloc, hnot, hs.fault]
  have hperm : (p.headers.strings.allocated :: (p.headers.ids ++ p.headers.strings.destroyed)).Perm
      (p.headers.ids ++ (p.headers.strings.destroyed ++ [p.headers.strings.allocated])) := by
    rw [← List.append_assoc]
    exact (List.perm_append_singleton _ _).symm
  refine ⟨?_, ?_, ?_⟩
  · rw [hids, hstrings]
    exact hperm.nodup_iff.mp (List.nodup_cons.mpr ⟨hfresh, hs.nodup⟩)
  · intro id hid
    rw [hids, hstrings] at hid
    rw [hstrings]
    show id < p.headers.strings.allocated + 1
    rcases List.mem_cons.mp (hperm.mem_iff.mpr hid) with rfl | hid
    · exact Nat.lt_succ_self _
    · exact Nat.lt_succ_of_lt (hs.known id hid)
  · rw [hstrings]

/-- The strings of the first header that the upload inserts. -/
theorem ids_opened (store : List Byte) : (p.opened store).headers.ids =
    p.headers.ids ++ [p.headers.strings.allocated, p.headers.strings.allocated + 1] :=
  HeaderNodes.ids_insert _ _

/-- **The strings in the headers have one owner each**, and are destroyed once, exactly if
the upload did not come to insert any: on an error its path is destroyed but stays in a
node, and on success it is in two. -/
theorem ownedAlone_iff (lim : Limits) (env : UploadEnv) (conn : Conn) (before : List HeaderOp)
    (fds : Finset ℕ) (headerLen : ℕ) (contentLen : ℤ) :
    OwnedAlone
        (Process.uploadFile lim env ⟨conn, HeaderNodes.create.run before, fds⟩ headerLen contentLen).1
        (Process.uploadFile lim env ⟨conn, HeaderNodes.create.run before, fds⟩ headerLen
          contentLen).2.headers ↔
      env.tempStore = none ∨ env.mkstemp = false := by
  have hs : (HeaderNodes.create.run before).Sound := HeaderNodes.sound_create.run before
  generalize HeaderNodes.create.run before = h at hs
  cases hstore : env.tempStore with
  | none =>
    have hrun : Process.uploadFile lim env ⟨conn, h, fds⟩ headerLen contentLen =
        (none, ⟨conn.reply 413, h, Fds.fdclose fds 0⟩) := by
      rw [Process.uploadFile, hstore]
    rw [hrun]
    exact iff_of_true hs.ownedAlone (.inl rfl)
  | some store =>
    cases hmk : env.mkstemp with
    | false =>
      have hrun : Process.uploadFile lim env ⟨conn, h, fds⟩ headerLen contentLen =
          (none, (Process.copied ⟨conn, h, fds⟩).fail (-1) h.strings.alloc.1) := by
        rw [Process.uploadFile, hstore]
        dsimp only
        rw [hmk]
        rfl
      rw [hrun]
      exact iff_of_true (@sound_copied ⟨conn, h, fds⟩ hs).ownedAlone (.inr rfl)
    | true =>
      refine iff_of_false (fun howned => ?_) (by simp)
      obtain ⟨q, -, hheaders, hrun⟩ :=
        @uploadFile_cases lim env ⟨conn, h, fds⟩ headerLen contentLen store hstore hmk
      -- the path is in the node of the first header
      have hids : q.headers.ids = h.ids ++ [h.strings.allocated, h.strings.allocated + 1] := by
        rcases hheaders with heq | heq <;> rw [heq] <;> exact ids_opened store
      rcases hrun with hrun | hrun
      · rw [hrun] at howned
        refine howned.alive h.strings.allocated ?_ ?_
        · show h.strings.allocated ∈ q.headers.ids
          rw [hids]
          simp
        · exact List.mem_append_right _ (List.mem_singleton_self _)
      · rw [hrun] at howned
        have hone : (q.headers.insert h.strings.allocated).ids.Nodup := howned.one
        rw [HeaderNodes.ids_insert, hids] at hone
        refine (List.nodup_append.mp hone).2.2 h.strings.allocated ?_ h.strings.allocated ?_ rfl
        · simp
        · simp

end

/-- The file has been created, but the handler cannot be told of the upload. -/
def unsentEnv : UploadEnv where
  handler := true
  deliver := true
  deliverNotice := false
  tempStore := some (bytes "/uploads/XXXXXX")
  mkstemp := true
  fdwrite := true
  registered := true
  outcomes := []

/-- The path, string 2, has been destroyed, but the node of the new header has it. -/
theorem not_ownedAlone_unsent :
    ¬ OwnedAlone
      (Process.uploadFile ⟨64, 2⟩ unsentEnv
        ⟨uploadConn, HeaderNodes.create.run [.field], {0, 1, 2}⟩ 36 5).1
      (Process.uploadFile ⟨64, 2⟩ unsentEnv
        ⟨uploadConn, HeaderNodes.create.run [.field], {0, 1, 2}⟩ 36 5).2.headers := by
  intro howned
  exact howned.alive 2 (by decide) (by decide)

/-! ### Files -/

/-- What `Dir_find_file` finds besides the file: which of its calls succeed. -/
structure FindEnv where
  calloc : Bool
  opens : Bool
  lastMod : Bool
  contentType : Bool
  header : Bool
  deriving DecidableEq

/-- `Dir_find_file`, with `FileRecord_destroy` at its error label.  The `fd` of a new record
is 0. -/
def findFileFds (sys : Sys) (env : FindEnv) (path : List Byte) (fds : Finset ℕ) :
    Option FileRecord × Finset ℕ :=
  if !env.calloc then (none, fds)
  else
    match sys.stat path with
    | none => (none, Fds.fdclose fds 0)
    | some sb =>
      if sb.isDir then (some ⟨true, 1, 0, none, path, sb⟩, fds)
      else if !env.opens then (none, Fds.fdclose fds (-1))
      else
        let fd := Fds.lowest fds
        let fds := insert fd fds
        if !env.lastMod then (none, Fds.fdclose fds fd)
        else if !env.contentType then (none, Fds.fdclose fds fd)
        else if !env.header then (none, Fds.fdclose fds fd)
        else (some ⟨false, 1, sys.time, none, path, sb⟩, fds)

/-- The record is that of `findFile`, where its `opens` stands for all the calls. -/
theorem findFileFds_fst {sys : Sys} {env : FindEnv} {path : List Byte} (fds : Finset ℕ)
    (hcalloc : env.calloc = true)
    (hopens : sys.opens path = (env.opens && env.lastMod && env.contentType && env.header)) :
    (findFileFds sys env path fds).1 = findFile sys path := by
  rw [findFileFds, findFile, hcalloc, hopens]
  cases sys.stat path with
  | none => rfl
  | some sb =>
    obtain ⟨calloc, opens, lastMod, contentType, header⟩ := env
    cases hdir : sb.isDir with
    | true => simp [hdir]
    | false =>
      cases opens <;> cases lastMod <;> cases contentType <;> cases header <;> simp [hdir]

/-- A call that fails leaves the open descriptors as they were. -/
def KeepsOnFailure {α : Type*} (fds : Finset ℕ) (rc : Option α) (after : Finset ℕ) : Prop :=
  rc = none → after = fds

theorem findFileFds_keeps_iff (sys : Sys) (env : FindEnv) (path : List Byte) (fds : Finset ℕ) :
    KeepsOnFailure fds (findFileFds sys env path fds).1 (findFileFds sys env path fds).2 ↔
      env.calloc = false ∨ sys.stat path ≠ none ∨ 0 ∉ fds := by
  rw [findFileFds]
  cases env.calloc with
  | false => exact iff_of_true (fun _ => rfl) (.inl rfl)
  | true =>
    rw [Bool.not_true, if_neg Bool.false_ne_true]
    cases sys.stat path with
    | none =>
      have hclose : KeepsOnFailure fds (none : Option FileRecord) (Fds.fdclose fds 0) ↔ 0 ∉ fds := by
        rw [← Fds.fdclose_zero_iff]
        exact ⟨fun h => h rfl, fun h _ => h⟩
      exact hclose.trans (by simp)
    | some sb =>
      refine iff_of_true ?_ (.inr (.inl (by simp)))
      -- what was opened is what is closed
      have hclose := Fds.fdclose_lowest fds
      dsimp only
      split_ifs
      · exact fun h => absurd h (by simp)
      · exact fun _ => Fds.fdclose_neg fds
      · exact fun _ => hclose
      · exact fun _ => hclose
      · exact fun _ => hclose
      · exact fun h => absurd h (by simp)

theorem uploadFile_keeps_iff (lim : Limits) (env : UploadEnv) (p : Process) (headerLen : ℕ)
    (contentLen : ℤ) :
    KeepsOnFailure p.fds (p.uploadFile lim env headerLen contentLen).1
        (p.uploadFile lim env headerLen contentLen).2.fds ↔
      env.tempStore ≠ none ∨ 0 ∉ p.fds := by
  cases hstore : env.tempStore with
  | none =>
    have hrun : p.uploadFile lim env headerLen contentLen =
        (none, { p with conn := p.conn.reply 413, fds := Fds.fdclose p.fds 0 }) := by
      rw [Process.uploadFile, hstore]
    rw [hrun]
    have hclose : KeepsOnFailure p.fds (none : Option StrId) (Fds.fdclose p.fds 0) ↔ 0 ∉ p.fds := by
      rw [← Fds.fdclose_zero_iff]
      exact ⟨fun h => h rfl, fun h _ => h⟩
    exact hclose.trans (by simp)
  | some store =>
    refine iff_of_true ?_ (.inl (by simp))
    cases hmk : env.mkstemp with
    | false =>
      have hrun : p.uploadFile lim env headerLen contentLen =
          (none, p.copied.fail (-1) p.headers.strings.alloc.1) := by
        rw [Process.uploadFile, hstore]
        dsimp only
        rw [hmk]
        rfl
      rw [hrun]
      exact fun _ => Fds.fdclose_neg p.fds
    | true =>
      obtain ⟨q, hfds, -, hrun | hrun⟩ := @uploadFile_cases lim env p headerLen contentLen store hstore hmk
      · rw [hrun]
        intro _
        show Fds.fdclose q.fds (Fds.lowest p.fds : ℕ) = p.fds
        rw [hfds]
        exact Fds.fdclose_lowest p.fds
      · rw [hrun]
        exact fun h => absurd h (by simp)

/-- **A call that fails closes only what it opened**: the upload exactly if there is a place
for the file or descriptor 0 is not open, and `Dir_find_file` exactly if it has no record
to destroy, the file can be stated or descriptor 0 is not open. -/
theorem keepsOnFailure_iff (lim : Limits) (env : UploadEnv) (p : Process) (headerLen : ℕ)
    (contentLen : ℤ) (sys : Sys) (find : FindEnv) (path : List Byte) (fds : Finset ℕ) :
    (KeepsOnFailure p.fds (p.uploadFile lim env headerLen contentLen).1
        (p.uploadFile lim env headerLen contentLen).2.fds ↔
      env.tempStore ≠ none ∨ 0 ∉ p.fds) ∧
    (KeepsOnFailure fds (findFileFds sys find path fds).1 (findFileFds sys find path fds).2 ↔
      find.calloc = false ∨ sys.stat path ≠ none ∨ 0 ∉ fds) :=
  ⟨uploadFile_keeps_iff lim env p headerLen contentLen, findFileFds_keeps_iff sys find path fds⟩

/-- Without the setting for large bodies, and for a file that does not exist, standard input
is closed. -/
theorem not_keepsOnFailure_stdin :
    (¬ KeepsOnFailure {0, 1, 2}
      (Process.uploadFile ⟨64, 2⟩ { unsentEnv with tempStore := none }
        ⟨uploadConn, .create, {0, 1, 2}⟩ 36 5).1
      (Process.uploadFile ⟨64, 2⟩ { unsentEnv with tempStore := none }
        ⟨uploadConn, .create, {0, 1, 2}⟩ 36 5).2.fds) ∧
    ¬ KeepsOnFailure {0, 1, 2}
      (findFileFds (oneFile (bytes "/tests/a")) ⟨true, true, true, true, true⟩ (bytes "/tests/b")
        {0, 1, 2}).1
      (findFileFds (oneFile (bytes "/tests/a")) ⟨true, true, true, true, true⟩ (bytes "/tests/b")
        {0, 1, 2}).2 := by
  refine ⟨fun h => ?_, fun h => ?_⟩
  · exact absurd (h (by decide)) (by decide)
  · exact absurd (h (by decide)) (by decide)

end Mongrel2

/-
Who holds a `FileRecord` (`dir.c`, `cache.c`).

Records are shared: a slot of the cache holds one, and so does each call of
`Dir_serve_file` that is sending its file.  A call sleeps at every send, while others
find, replace or release the same record.

* `release`, `find`, `cacheAdd`, `evictObject`, `cacheCheck`, `resolve`, `serve`,
  `resume` — the code, with the records in a store and pointers to them;
* `Balanced` — the users of each record in the store are the references to it, and a
  record without any has been destroyed;
* `accounted_always` — so it is in every state, whatever is requested, found, evicted or
  fails, and no record is used after it has been destroyed.

Design notes: a pointer is the number of records allocated before.  `fault` is set by a
step that uses a destroyed record, and `destroyed` counts how often one is.  `dir` is the
directory without its cache, which is in `entries`.  `users` does not overflow.
-/
import Mongrel2.FileCache
import Mathlib.Data.Multiset.Count
import Mathlib.Algebra.Order.Group.Multiset
import Mathlib.Data.List.MinMax

namespace Mongrel2

namespace FileRecords

open ByteStream

/-! ### Records and pointers -/

/-- A pointer to a record. -/
abbrev RecId := ℕ

/-- A record that has been allocated, and how often it has been destroyed. -/
structure Cell where
  file : FileRecord
  destroyed : ℕ

structure Store where
  cells : List Cell
  /-- a destroyed record has been used -/
  fault : Bool

namespace Store

variable (st : Store) (id : RecId)

/-- The record has not been destroyed. -/
def live : Bool := (st.cells[id]?).any (·.destroyed = 0)

/-- What is read through the pointer. -/
def file : FileRecord := ((st.cells[id]?).map Cell.file).getD ⟨false, 0, 0, none, [], ⟨false, 0, 0⟩⟩

/-- The pointer is followed. -/
def touch : Store := { st with fault := st.fault || !st.live id }

/-- A pointer that may be `NULL` is followed. -/
def follow : Option RecId → Store
  | some id => st.touch id
  | none => { st with fault := true }

/-- The record is written to. -/
def write (f : FileRecord → FileRecord) : Store :=
  { st.touch id with cells := st.cells.modify id fun c => { c with file := f c.file } }

/-- `calloc` of a record. -/
def calloc : RecId × Store :=
  (st.cells.length, { st with cells := st.cells ++ [⟨⟨false, 0, 0, none, [], ⟨false, 0, 0⟩⟩, 0⟩] })

/-- `FileRecord_destroy`. -/
def destroy : Store :=
  { st.touch id with cells := st.cells.modify id fun c => { c with destroyed := c.destroyed + 1 } }

/-- `FileRecord_release` of a record; below 0 users it only complains. -/
def release : Store :=
  let st := st.write id fun fr => { fr with users := fr.users - 1 }
  if (st.file id).users < 0 then st
  else if (st.file id).users ≤ 0 then st.destroy id
  else st

/-- `FileRecord_release` of what may be `NULL`. -/
def releaseAny : Option RecId → Store
  | some id => st.release id
  | none => st

/-- `Dir_find_file`. -/
def find (sys : Sys) (path : List Byte) : Option RecId × Store :=
  let (id, st) := st.calloc
  let st := st.write id fun fr => { fr with users := 1 }
  match findFile sys path with
  | none => (none, st.destroy id)
  | some fr => (some id, st.write id fun _ => fr)

end Store

/-! ### The cache -/

/-- `struct cache_entry`. -/
structure Entry where
  tag : ℕ
  data : Option RecId
  deriving DecidableEq

def Entry.decay (e : Entry) : Entry := { e with tag := e.tag - 1 }

/-- `Cache_lookup`. -/
def cacheLookup (p : RecId → Bool) : List Entry → Option RecId × List Entry
  | [] => (none, [])
  | e :: entries =>
    match e.data.filter p with
    | some id => (some id, { e with tag := intMax } :: entries.map Entry.decay)
    | none =>
      let (found, entries) := cacheLookup p entries
      (found, e.decay :: entries)

/-- The records `Cache_lookup` looks at. -/
def looked (p : RecId → Bool) (entries : List Entry) : List RecId :=
  let ids := entries.filterMap Entry.data
  ids.take (ids.findIdx p + 1)

/-- `Cache_add`, with `filerecord_cache_evict` of what was in the slot. -/
def cacheAdd (id : RecId) (entries : List Entry) (st : Store) : List Entry × Store :=
  let i := entries.findIdx fun e => entries.all (e.tag ≤ ·.tag)
  ((entries.map Entry.decay).set i ⟨intMax, some id⟩,
    st.releaseAny ((entries[i]?).bind Entry.data))

/-- `Cache_evict_object`. -/
def evictObject (id : RecId) : List Entry → Store → List Entry × Store
  | [], st => ([], st)
  | e :: entries, st =>
    if e.data = some id then
      let (entries, st) := evictObject id entries (st.release id)
      (⟨0, none⟩ :: entries, st)
    else
      let (entries, st) := evictObject id entries st
      (e :: entries, st)

/-! ### Conditional requests -/

inductive Method
  | get | head | other
  deriving DecidableEq

/-- What `Dir_serve_file` reads of a request and its connection. -/
structure Request where
  method : Method
  pattern : List Byte
  path : Option (List Byte)
  /-- `If-Match` is not there, is `*`, or matches `ETAG_PATTERN` -/
  ifMatch : Bool
  ifNoneMatch : Option (List Byte)
  /-- the dates, 0 if they are not there -/
  ifUnmodifiedSince : ℤ
  ifModifiedSince : ℤ
  ssl : Bool

/-- `%x`. -/
def hex (n : ℤ) : List Byte :=
  (Nat.toDigits 16 (n % 2 ^ 32).toNat).map fun c => UInt8.ofNat c.toNat

def etag (file : FileRecord) : List Byte := hex file.sb.mtime ++ bytes "-" ++ hex file.sb.size

/-- `Dir_if_modified_since`. -/
def ifModifiedSince (now : ℤ) (file : FileRecord) (since : ℤ) : Option ℕ :=
  if since ≤ now ∧ file.sb.mtime ≤ since then some 304 else none

/-- `Dir_none_match`. -/
def noneMatch (now : ℤ) (file : FileRecord) (since : ℤ) (ifNoneMatch : List Byte) : Option ℕ :=
  if ifNoneMatch = bytes "*" ∨ ifNoneMatch = etag file then some 304
  else if since ≠ 0 then ifModifiedSince now file since
  else none

/-- `Dir_calculate_response`: the status of the response, or `none` for the file. -/
def calculateResponse (req : Request) (now : ℤ) : Option FileRecord → Option ℕ
  | none => some 404
  | some file =>
    if file.isDir then some 301
    else if req.ifMatch then
      if req.ifUnmodifiedSince ≠ 0 then
        if req.ifUnmodifiedSince < file.sb.mtime then some 412
        else
          match req.ifNoneMatch with
          | some ifNoneMatch => noneMatch now file req.ifModifiedSince ifNoneMatch
          | none =>
            if req.ifModifiedSince ≠ 0 then ifModifiedSince now file req.ifModifiedSince
            else some 500
      else
        match req.ifNoneMatch with
        | some ifNoneMatch => noneMatch now file req.ifModifiedSince ifNoneMatch
        | none =>
          if req.ifModifiedSince ≠ 0 then ifModifiedSince now file req.ifModifiedSince
          else none
    else some 412

/-! ### The calls -/

/-- Where a call of `Dir_serve_file` sleeps: sending the 405, another response, or the
header for a `HEAD`; and in `Dir_stream_file` sending the header, waiting in the loop with
`total` bytes sent, or in the loop that copies the file. -/
inductive Stage
  | refusing
  | answering
  | heading
  | header (ssl : Bool)
  | streaming (total : ℤ)
  | copying
  deriving DecidableEq

/-- A call of `Dir_serve_file`, with the record it holds. -/
structure Serve where
  file : Option RecId
  stage : Stage
  deriving DecidableEq

structure Serving where
  dir : Dir
  entries : List Entry
  store : Store
  calls : List Serve

/-- What a sleeping call is woken with: to send more of what it was sending, an error, or
success, with the bytes that the loops then send. -/
inductive Reply
  | more
  | failed
  | ok (sent : ℤ)
  deriving DecidableEq

namespace Serving

variable (sys : Sys) (maxDirPath : ℕ) (s : Serving)

/-- After `Dir_create`. -/
def start (dir : Dir) : Serving := ⟨dir, .replicate 32 ⟨intMax, none⟩, ⟨[], false⟩, []⟩

/-- `FileRecord_cache_check`. -/
def cacheCheck (path : List Byte) : Option RecId × Serving :=
  let p (id : RecId) : Bool := (s.store.file id).matches path
  let (found, entries) := cacheLookup p s.entries
  let store := (looked p s.entries).foldl Store.touch s.store
  match found with
  | none => (none, { s with entries := entries, store := store })
  | some id =>
    let store := store.touch id
    let fr := store.file id
    let evicted := evictObject id entries store
    if 10 < sys.time - fr.loaded then
      match sys.stat fr.fullPath with
      | some sb =>
        if fr.sb.mtime ≠ sb.mtime ∨ fr.sb.size ≠ sb.size then
          (none, { s with entries := evicted.1, store := evicted.2 })
        else
          (some id, { s with
            entries := entries
            store := store.write id fun fr => { fr with loaded := sys.time } })
      | none => (none, { s with entries := evicted.1, store := evicted.2 })
    else (some id, { s with entries := entries, store := store })

/-- `Dir_resolve_file`. -/
def resolve (pattern path : List Byte) : Option RecId × Serving :=
  match s.dir.lazyNormalizeBase sys with
  | (false, dir) => (none, { s with dir := dir })
  | (true, dir) =>
    match ({ s with dir := dir } : Serving).cacheCheck sys path with
    | (some id, s) =>
      (some id, { s with store := s.store.write id fun fr => { fr with users := fr.users + 1 } })
    | (none, s) =>
      if (routePrefix pattern).head? ≠ some (chr '/') then (none, s)
      else if maxDirPath ≤ (routePrefix pattern).length then (none, s)
      else
        let base := s.dir.normalizedBase.getD []
        match sys.realpath (targetPath base pattern path s.dir.indexFile sys.heap) with
        | none => (none, s)
        | some target =>
          if !base.isPrefixOf target then (none, s)
          else
            match s.store.find sys target with
            | (none, store) => (none, { s with store := store })
            | (some id, store) =>
              let store := store.write id fun fr =>
                { fr with users := fr.users + 1, requestPath := some path }
              let (entries, store) := cacheAdd id s.entries store
              (some id, { s with entries := entries, store := store })

/-- `Dir_serve_file` up to its first send. -/
def serve (req : Request) : Serving :=
  match req.path with
  | none => s
  | some path =>
    if req.method = .other then { s with calls := ⟨none, .refusing⟩ :: s.calls }
    else
      let (file, s) := s.resolve sys maxDirPath req.pattern path
      match calculateResponse req sys.time (file.map s.store.file) with
      | some _ =>
        -- without a file the response is the 404
        let store := if file.isSome then s.store.follow file else s.store
        { s with store := store, calls := ⟨file, .answering⟩ :: s.calls }
      | none =>
        let stage := if req.method = .get then .header req.ssl else .heading
        { s with store := s.store.follow file, calls := ⟨file, stage⟩ :: s.calls }

/-- The call at `k` returns after releasing its file. -/
def finish (k : ℕ) (c : Serve) (store : Store) : Serving :=
  { s with store := store.releaseAny c.file, calls := s.calls.eraseIdx k }

/-- The call at `k` sleeps again. -/
def sleep (k : ℕ) (c : Serve) (stage : Stage) (store : Store) : Serving :=
  { s with store := store, calls := s.calls.set k { c with stage := stage } }

/-- A call is woken.  The header is sent out of the record. -/
def resume (k : ℕ) (c : Serve) (reply : Reply) : Serving :=
  match c.stage, reply with
  | .refusing, .more | .answering, .more | .streaming _, .more | .copying, .more => s
  | .heading, .more | .header _, .more => s.sleep k c c.stage (s.store.follow c.file)
  | .refusing, _ => { s with calls := s.calls.eraseIdx k }
  | .answering, _ => s.finish k c s.store
  | .heading, _ => s.finish k c (s.store.follow c.file)
  | .header ssl, .ok _ =>
    s.sleep k c (if ssl then .copying else .streaming 0) (s.store.follow c.file)
  | .streaming total, .ok sent =>
    let store := s.store.follow c.file
    let size := (c.file.map fun id => (s.store.file id).sb.size).getD 0
    if total < size ∧ 0 < sent then s.sleep k c (.streaming (total + sent)) store
    else s.finish k c store
  | .copying, .ok sent =>
    -- 0 at the end of the file
    if 0 < sent then s.sleep k c .copying s.store else s.finish k c (s.store.follow c.file)
  | .header _, .failed | .streaming _, .failed | .copying, .failed =>
    s.finish k c (s.store.follow c.file)

end Serving

/-- What happens next: a call, with what it finds, or one that is woken. -/
inductive Act
  | serve (sys : Sys) (req : Request)
  | resume (k : ℕ) (reply : Reply)

def step (maxDirPath : ℕ) (s : Serving) : Act → Option Serving
  | .serve sys req => some (s.serve sys maxDirPath req)
  | .resume k reply => (s.calls[k]?).map fun c => s.resume k c reply

/-! ### What is asked of the runs -/

namespace Serving

variable (s : Serving) (id : RecId)

/-- The slots of the cache that hold the record. -/
def slots : ℕ := s.entries.countP (·.data = some id)

/-- The calls that hold it. -/
def holders : ℕ := s.calls.countP (·.file = some id)

end Serving

/-- The users of a record are the slots and the calls that hold it; it has been destroyed
once if there are none, and not otherwise; and nothing has been used that was destroyed. -/
structure Accounted (s : Serving) : Prop where
  users : ∀ id c, s.store.cells[id]? = some c → c.destroyed = 0 →
    c.file.users = ((s.slots id + s.holders id : ℕ) : ℤ)
  destroyed : ∀ id c, s.store.cells[id]? = some c →
    c.destroyed = if s.slots id + s.holders id = 0 then 1 else 0
  unused : s.store.fault = false

/-! ### References -/

/-- The users of each record are the references to it, and without any it has been
destroyed. -/
structure Balanced (st : Store) (refs : Multiset RecId) : Prop where
  fault : st.fault = false
  known : ∀ id ∈ refs, id < st.cells.length
  held : ∀ id c, st.cells[id]? = some c → id ∈ refs →
    c.destroyed = 0 ∧ c.file.users = ((refs.count id : ℕ) : ℤ)
  gone : ∀ id c, st.cells[id]? = some c → id ∉ refs → c.destroyed = 1

section

variable {st : Store} {refs : Multiset RecId} {id : RecId}

theorem Balanced.live (h : Balanced st refs) (hid : id ∈ refs) : st.live id = true := by
  have hlt : id < st.cells.length := h.known id hid
  have hcell : st.cells[id]? = some st.cells[id] := List.getElem?_eq_getElem hlt
  rw [Store.live, hcell, Option.any_some, decide_eq_true_iff]
  exact (h.held id _ hcell hid).1

/-- A pointer that is counted can be followed. -/
theorem Balanced.touch (h : Balanced st refs) (hid : id ∈ refs) : st.touch id = st := by
  rw [Store.touch, h.live hid, Bool.not_true, Bool.or_false]

theorem Balanced.foldl_touch (h : Balanced st refs) {ids : List RecId} (hids : ∀ id ∈ ids, id ∈ refs) :
    ids.foldl Store.touch st = st := by
  induction ids with
  | nil => rfl
  | cons id ids ih =>
    rw [List.foldl_cons, h.touch (hids id (List.mem_cons_self ..))]
    exact ih fun id' hid' => hids id' (List.mem_cons_of_mem id hid')

theorem getElem?_write (st : Store) (id id' : RecId) (f : FileRecord → FileRecord) :
    (st.write id f).cells[id']? =
      if id = id' then (st.cells[id']?).map fun c => { c with file := f c.file }
      else st.cells[id']? := by
  show (st.cells.modify id _)[id']? = _
  rw [List.getElem?_modify]
  split
  · rfl
  · exact Option.map_id' ..

theorem Balanced.users (h : Balanced st refs) (hid : id ∈ refs) :
    (st.file id).users = ((refs.count id : ℕ) : ℤ) := by
  have hlt : id < st.cells.length := h.known id hid
  have hcell : st.cells[id]? = some st.cells[id] := List.getElem?_eq_getElem hlt
  rw [Store.file, hcell]
  exact (h.held id _ hcell hid).2

/-- A record is written to, and its references counted anew. -/
theorem Balanced.write (h : Balanced st refs) {refs' : Multiset RecId} {f : FileRecord → FileRecord}
    (hid : id ∈ refs) (hid' : id ∈ refs')
    (hrest : ∀ id' ≠ id, refs'.count id' = refs.count id')
    (hf : (f (st.file id)).users = ((refs'.count id : ℕ) : ℤ)) : Balanced (st.write id f) refs' := by
  have hcells := getElem?_write st id
  have hmem : ∀ id' ≠ id, id' ∈ refs' ↔ id' ∈ refs := fun id' hne => by
    rw [← Multiset.count_pos, hrest id' hne, Multiset.count_pos]
  refine ⟨?_, fun i hi => ?_, fun i c hc hi => ?_, fun i c hc hi => ?_⟩
  · show (st.touch id).fault = false
    rw [h.touch hid]
    exact h.fault
  · show i < (st.cells.modify id _).length
    rw [List.length_modify]
    by_cases heq : i = id
    · exact heq ▸ h.known id hid
    · exact h.known i ((hmem i heq).mp hi)
  · rw [hcells i f] at hc
    by_cases heq : id = i
    · subst heq
      rw [if_pos rfl] at hc
      obtain ⟨c', hc', rfl⟩ := Option.map_eq_some_iff.mp hc
      rw [Store.file, hc'] at hf
      exact ⟨(h.held id c' hc' hid).1, hf⟩
    · rw [if_neg heq] at hc
      rw [hrest i (Ne.symm heq)]
      exact h.held i c hc ((hmem i (Ne.symm heq)).mp hi)
  · rw [hcells i f] at hc
    have heq : i ≠ id := fun heq => hi (heq ▸ hid')
    rw [if_neg (Ne.symm heq)] at hc
    exact h.gone i c hc fun hi' => hi ((hmem i heq).mpr hi')

theorem Balanced.write_keep (h : Balanced st refs) (hid : id ∈ refs) {f : FileRecord → FileRecord}
    (hf : (f (st.file id)).users = (st.file id).users) : Balanced (st.write id f) refs :=
  h.write hid hid (fun _ _ => rfl) (hf.trans (h.users hid))

/-- One reference more is counted. -/
theorem Balanced.write_share (h : Balanced st refs) (hid : id ∈ refs) {f : FileRecord → FileRecord}
    (hf : (f (st.file id)).users = (st.file id).users + 1) :
    Balanced (st.write id f) (id ::ₘ refs) := by
  refine h.write hid (Multiset.mem_cons_self ..) (fun id' hne => Multiset.count_cons_of_ne hne _) ?_
  rw [hf, h.users hid, Multiset.count_cons_self, Nat.cast_succ]

/-- One record is not destroyed although there is no reference to it any more, or none
yet. -/
structure Loose (st : Store) (refs : Multiset RecId) (id : RecId) : Prop where
  fault : st.fault = false
  known : ∀ i ∈ refs, i < st.cells.length
  loose : id ∉ refs
  live : ∃ c, st.cells[id]? = some c ∧ c.destroyed = 0
  held : ∀ i c, st.cells[i]? = some c → i ∈ refs →
    c.destroyed = 0 ∧ c.file.users = ((refs.count i : ℕ) : ℤ)
  gone : ∀ i c, st.cells[i]? = some c → i ∉ refs → i ≠ id → c.destroyed = 1

theorem Balanced.loose (h : Balanced st (id ::ₘ refs)) (hid : id ∉ refs) : Loose st refs id := by
  have hself : id ∈ id ::ₘ refs := Multiset.mem_cons_self ..
  have hlt : id < st.cells.length := h.known id hself
  have hcell : st.cells[id]? = some st.cells[id] := List.getElem?_eq_getElem hlt
  refine ⟨h.fault, fun i hi => h.known i (Multiset.mem_cons_of_mem hi), hid,
    ⟨_, hcell, (h.held id _ hcell hself).1⟩, fun i c hc hi => ?_, fun i c hc hi hne => ?_⟩
  · have hne : i ≠ id := fun heq => hid (heq ▸ hi)
    have hheld := h.held i c hc (Multiset.mem_cons_of_mem hi)
    rwa [Multiset.count_cons_of_ne hne] at hheld
  · exact h.gone i c hc fun hmem => (Multiset.mem_cons.mp hmem).elim hne hi

theorem Loose.touch (h : Loose st refs id) : st.touch id = st := by
  obtain ⟨c, hc, hlive⟩ := h.live
  have hlive : st.live id = true := by
    rw [Store.live, hc, Option.any_some, decide_eq_true_iff]
    exact hlive
  rw [Store.touch, hlive, Bool.not_true, Bool.or_false]

theorem Loose.write (h : Loose st refs id) (f : FileRecord → FileRecord) :
    Loose (st.write id f) refs id := by
  have hcells := fun i => getElem?_write st id i f
  have hne : ∀ i ∈ refs, id ≠ i := fun i hi heq => h.loose (heq ▸ hi)
  refine ⟨?_, fun i hi => ?_, h.loose, ?_, fun i c hc hi => ?_, fun i c hc hi heq => ?_⟩
  · show (st.touch id).fault = false
    rw [h.touch]
    exact h.fault
  · show i < (st.cells.modify id _).length
    rw [List.length_modify]
    exact h.known i hi
  · obtain ⟨c, hc, hlive⟩ := h.live
    refine ⟨{ c with file := f c.file }, ?_, hlive⟩
    rw [hcells, if_pos rfl, hc]
    rfl
  · rw [hcells, if_neg (hne i hi)] at hc
    exact h.held i c hc hi
  · rw [hcells, if_neg (Ne.symm heq)] at hc
    exact h.gone i c hc hi heq

/-- It is destroyed. -/
theorem Loose.destroy (h : Loose st refs id) : Balanced (st.destroy id) refs := by
  have hcells : ∀ i, (st.destroy id).cells[i]? =
      if id = i then (st.cells[i]?).map fun c => { c with destroyed := c.destroyed + 1 }
      else st.cells[i]? := by
    intro i
    show (st.cells.modify id _)[i]? = _
    rw [List.getElem?_modify]
    split
    · rfl
    · exact Option.map_id' ..
  have hne : ∀ i ∈ refs, id ≠ i := fun i hi heq => h.loose (heq ▸ hi)
  refine ⟨?_, fun i hi => ?_, fun i c hc hi => ?_, fun i c hc hi => ?_⟩
  · show (st.touch id).fault = false
    rw [h.touch]
    exact h.fault
  · show i < (st.cells.modify id _).length
    rw [List.length_modify]
    exact h.known i hi
  · rw [hcells, if_neg (hne i hi)] at hc
    exact h.held i c hc hi
  · rw [hcells] at hc
    by_cases heq : id = i
    · subst heq
      rw [if_pos rfl] at hc
      obtain ⟨c', hc', rfl⟩ := Option.map_eq_some_iff.mp hc
      obtain ⟨c'', hc'', hlive⟩ := h.live
      obtain rfl := Option.some.inj (hc'.symm.trans hc'')
      show c'.destroyed + 1 = 1
      rw [hlive]
    · rw [if_neg heq] at hc
      exact h.gone i c hc hi (Ne.symm heq)

/-- Its first reference is counted. -/
theorem Loose.hold (h : Loose st refs id) (husers : (st.file id).users = 1) :
    Balanced st (id ::ₘ refs) := by
  obtain ⟨c, hc, hlive⟩ := h.live
  refine ⟨h.fault, fun i hi => ?_, fun i c' hc' hi => ?_, fun i c' hc' hi => ?_⟩
  · rcases Multiset.mem_cons.mp hi with rfl | hi
    · exact (List.getElem?_eq_some_iff.mp hc).1
    · exact h.known i hi
  · by_cases heq : i = id
    · subst heq
      obtain rfl := Option.some.inj (hc.symm.trans hc')
      rw [Multiset.count_cons_self, Multiset.count_eq_zero.mpr h.loose]
      rw [Store.file, hc] at husers
      exact ⟨hlive, husers⟩
    · rw [Multiset.count_cons_of_ne heq]
      exact h.held i c' hc' ((Multiset.mem_cons.mp hi).resolve_left heq)
  · rw [Multiset.mem_cons, not_or] at hi
    exact h.gone i c' hc' hi.2 hi.1

/-- **A release takes one reference away**, and destroys the record with the last. -/
theorem Balanced.release (h : Balanced st (id ::ₘ refs)) : Balanced (st.release id) refs := by
  have hself : id ∈ id ::ₘ refs := Multiset.mem_cons_self ..
  have husers : ((st.write id fun fr => { fr with users := fr.users - 1 }).file id).users =
      ((refs.count id : ℕ) : ℤ) := by
    have hbefore := h.users hself
    have hlt : id < st.cells.length := h.known id hself
    have hcell : st.cells[id]? = some st.cells[id] := List.getElem?_eq_getElem hlt
    rw [Store.file, hcell] at hbefore
    rw [Store.file, getElem?_write, if_pos rfl, hcell]
    show (st.cells[id]).file.users - 1 = _
    rw [show (st.cells[id]).file.users = _ from hbefore, Multiset.count_cons_self, Nat.cast_succ,
      add_sub_cancel_right]
  rw [Store.release, husers, if_neg (by omega)]
  by_cases hid : id ∈ refs
  · have hpos := Multiset.count_pos.mpr hid
    rw [if_neg (by omega)]
    refine h.write hself hid (fun id' hne => (Multiset.count_cons_of_ne hne _).symm) ?_
    rw [h.users hself, Multiset.count_cons_self, Nat.cast_succ, add_sub_cancel_right]
  · rw [if_pos (by rw [Multiset.count_eq_zero.mpr hid]; rfl)]
    exact ((h.loose hid).write _).destroy

theorem Balanced.releaseAny {file : Option RecId}
    (h : Balanced st ((file.toList : Multiset RecId) + refs)) : Balanced (st.releaseAny file) refs := by
  cases file with
  | none =>
    rw [Option.toList_none, Multiset.coe_nil, zero_add] at h
    exact h
  | some id =>
    refine Balanced.release (?_ : Balanced st (id ::ₘ refs))
    simpa using h

theorem Balanced.calloc (h : Balanced st refs) : Loose st.calloc.2 refs st.calloc.1 := by
  have hnew : ∀ {i c}, st.calloc.2.cells[i]? = some c →
      st.cells[i]? = some c ∨ i = st.cells.length ∧ c.destroyed = 0 := by
    intro i c hc
    have hc : (st.cells ++ [_])[i]? = some c := hc
    rw [List.getElem?_append] at hc
    split at hc
    · exact .inl hc
    · obtain ⟨hlt, hc⟩ := List.getElem?_eq_some_iff.mp hc
      rw [List.length_singleton] at hlt
      refine .inr ⟨by omega, ?_⟩
      rw [← hc, List.getElem_singleton]
  have hlen : st.calloc.2.cells.length = st.cells.length + 1 := List.length_append
  refine ⟨h.fault, fun i hi => ?_, fun hi => ?_, ?_, fun i c hc hi => ?_, fun i c hc hi hne => ?_⟩
  · rw [hlen]
    exact Nat.lt_succ_of_lt (h.known i hi)
  · exact absurd (h.known _ hi) (lt_irrefl st.cells.length)
  · exact ⟨_, List.getElem?_concat_length, rfl⟩
  · rcases hnew hc with hc | ⟨rfl, -⟩
    · exact h.held i c hc hi
    · exact absurd (h.known _ hi) (lt_irrefl _)
  · rcases hnew hc with hc | ⟨rfl, -⟩
    · exact h.gone i c hc hi
    · exact absurd rfl hne

/-- `Dir_find_file` returns a record with the reference of its caller, or none at all. -/
theorem Balanced.find (h : Balanced st refs) (sys : Sys) (path : List Byte) :
    Balanced (st.find sys path).2 (((st.find sys path).1.toList : Multiset RecId) + refs) := by
  have hloose := h.calloc.write fun fr => { fr with users := 1 }
  rw [Store.find]
  dsimp only
  cases hfile : findFile sys path with
  | none => simpa using hloose.destroy
  | some fr =>
    have husers : fr.users = 1 := by
      unfold findFile at hfile
      split at hfile
      · exact absurd hfile (by simp)
      · split_ifs at hfile
        · exact congrArg FileRecord.users (Option.some.inj hfile).symm
        · exact congrArg FileRecord.users (Option.some.inj hfile).symm
    have hheld := (hloose.write fun _ => fr).hold (by
      obtain ⟨c, hc, -⟩ := hloose.live
      rw [Store.file, getElem?_write, if_pos rfl, hc]
      exact husers)
    simpa using hheld

end

/-! ### The references of the cache and of the calls -/

/-- The reference that may be there. -/
def optRefs (o : Option RecId) : Multiset RecId := o.toList

def entryRefs (entries : List Entry) : Multiset RecId := entries.filterMap Entry.data

def callRefs (calls : List Serve) : Multiset RecId := calls.filterMap Serve.file

section

variable {p : RecId → Bool} {entries entries' : List Entry} {calls : List Serve} {st : Store}
  {refs : Multiset RecId} {id : RecId} {i k : ℕ}

@[simp] theorem optRefs_none : optRefs none = 0 := rfl

@[simp] theorem optRefs_some (id : RecId) : optRefs (some id) = {id} := rfl

theorem filterMap_cons_coe {α : Type*} (f : α → Option RecId) (a : α) (l : List α) :
    (((a :: l).filterMap f : List RecId) : Multiset RecId) =
      optRefs (f a) + ((l.filterMap f : List RecId) : Multiset RecId) := by
  rw [List.filterMap_cons, optRefs]
  cases f a <;> rfl

theorem entryRefs_cons (e : Entry) (entries : List Entry) :
    entryRefs (e :: entries) = optRefs e.data + entryRefs entries :=
  filterMap_cons_coe Entry.data e entries

theorem callRefs_cons (c : Serve) (calls : List Serve) :
    callRefs (c :: calls) = optRefs c.file + callRefs calls :=
  filterMap_cons_coe Serve.file c calls

theorem entryRefs_perm (h : entries.Perm entries') : entryRefs entries = entryRefs entries' :=
  Multiset.coe_eq_coe.mpr (h.filterMap _)

/-- A slot is set. -/
theorem entryRefs_set {e : Entry} (h : entries[i]? = some e) (e' : Entry) :
    optRefs e.data + entryRefs (entries.set i e') = optRefs e'.data + entryRefs entries := by
  obtain ⟨hlt, he⟩ := List.getElem?_eq_some_iff.mp h
  have hset : entryRefs (entries.set i e') = entryRefs (e' :: entries.eraseIdx i) :=
    entryRefs_perm (List.set_perm_cons_eraseIdx hlt e')
  have hself : entryRefs (entries[i] :: entries.eraseIdx i) = entryRefs entries :=
    entryRefs_perm (List.getElem_cons_eraseIdx_perm hlt)
  rw [hset, ← hself, he, entryRefs_cons, entryRefs_cons, add_left_comm]

theorem entryRefs_decay (entries : List Entry) :
    entryRefs (entries.map Entry.decay) = entryRefs entries := by
  rw [entryRefs, List.filterMap_map]
  rfl

/-- A call returns. -/
theorem callRefs_eraseIdx {c : Serve} (h : calls[k]? = some c) :
    callRefs calls = optRefs c.file + callRefs (calls.eraseIdx k) := by
  obtain ⟨hlt, hc⟩ := List.getElem?_eq_some_iff.mp h
  have hself : callRefs (calls[k] :: calls.eraseIdx k) = callRefs calls :=
    Multiset.coe_eq_coe.mpr ((List.getElem_cons_eraseIdx_perm hlt).filterMap _)
  rw [← hself, hc, callRefs_cons]

/-- A call goes on with its record. -/
theorem callRefs_set {c : Serve} (h : calls[k]? = some c) (stage : Stage) :
    callRefs (calls.set k { c with stage := stage }) = callRefs calls := by
  obtain ⟨hlt, -⟩ := List.getElem?_eq_some_iff.mp h
  have hset : callRefs (calls.set k { c with stage := stage }) =
      callRefs ({ c with stage := stage } :: calls.eraseIdx k) :=
    Multiset.coe_eq_coe.mpr ((List.set_perm_cons_eraseIdx hlt _).filterMap _)
  rw [hset, callRefs_eraseIdx h, callRefs_cons]

/-! ### What the cache does to the references -/

theorem entryRefs_cacheLookup (p : RecId → Bool) (entries : List Entry) :
    entryRefs (cacheLookup p entries).2 = entryRefs entries := by
  induction entries with
  | nil => rfl
  | cons e entries ih =>
    rw [cacheLookup]
    split
    case h_1 =>
      rw [entryRefs_cons, entryRefs_cons, entryRefs_decay]
    case h_2 =>
      rw [entryRefs_cons, entryRefs_cons, ← ih]
      rfl

theorem cacheLookup_ne_nil (h : entries ≠ []) : (cacheLookup p entries).2 ≠ [] := by
  obtain ⟨e, entries, rfl⟩ := List.exists_cons_of_ne_nil h
  rw [cacheLookup]
  split <;> exact List.cons_ne_nil _ _

theorem mem_of_cacheLookup (h : (cacheLookup p entries).1 = some id) : id ∈ entryRefs entries := by
  induction entries with
  | nil => exact absurd h (by simp [cacheLookup])
  | cons e entries ih =>
    rw [cacheLookup] at h
    rw [entryRefs_cons, Multiset.mem_add]
    cases he : e.data.filter p with
    | some id' =>
      rw [he] at h
      obtain rfl := Option.some.inj h
      rw [(Option.filter_eq_some_iff.mp he).1]
      exact .inl (Multiset.mem_singleton_self _)
    | none =>
      rw [he] at h
      exact .inr (ih h)

theorem mem_of_looked (h : id ∈ looked p entries) : id ∈ entryRefs entries :=
  Multiset.mem_coe.mpr (List.mem_of_mem_take h)

/-- A record is added, and what was in its slot is released. -/
theorem Balanced.cacheAdd (hne : entries ≠ [])
    (h : Balanced st (id ::ₘ (entryRefs entries + refs))) :
    Balanced (FileRecords.cacheAdd id entries st).2
        (entryRefs (FileRecords.cacheAdd id entries st).1 + refs) ∧
      (FileRecords.cacheAdd id entries st).1 ≠ [] := by
  obtain ⟨e, he⟩ : ∃ e, entries.argmin Entry.tag = some e :=
    Option.ne_none_iff_exists'.mp fun hnone => hne (List.argmin_eq_none.mp hnone)
  have hleast : ∃ e ∈ entries, (entries.all fun e' => decide (e.tag ≤ e'.tag)) = true := by
    refine ⟨e, List.argmin_mem he, List.all_eq_true.mpr fun e' he' => ?_⟩
    exact decide_eq_true (List.le_of_mem_argmin he' he)
  have hlt := List.findIdx_lt_length_of_exists hleast
  obtain ⟨slot, hslot⟩ : ∃ slot, entries[entries.findIdx fun e =>
      entries.all fun e' => decide (e.tag ≤ e'.tag)]? = some slot :=
    ⟨_, List.getElem?_eq_getElem hlt⟩
  have hdecay : (entries.map Entry.decay)[entries.findIdx fun e =>
      entries.all fun e' => decide (e.tag ≤ e'.tag)]? = some slot.decay := by
    rw [List.getElem?_map, hslot]
    rfl
  have hset := entryRefs_set hdecay ⟨intMax, some id⟩
  rw [entryRefs_decay] at hset
  rw [FileRecords.cacheAdd, hslot]
  constructor
  · refine Balanced.releaseAny (?_ : Balanced st (optRefs slot.data + (_ + refs)))
    rw [← add_assoc, show optRefs slot.data + _ = _ from hset, optRefs_some, add_assoc,
      Multiset.singleton_add]
    exact h
  · refine List.ne_nil_of_length_pos ?_
    rw [List.length_set, List.length_map]
    exact List.length_pos_of_ne_nil hne

/-- A record is evicted from all slots that hold it. -/
theorem Balanced.evictObject (h : Balanced st (entryRefs entries + refs)) :
    Balanced (FileRecords.evictObject id entries st).2
        (entryRefs (FileRecords.evictObject id entries st).1 + refs) ∧
      (FileRecords.evictObject id entries st).1.length = entries.length := by
  induction entries generalizing st refs with
  | nil => exact ⟨h, rfl⟩
  | cons e entries ih =>
    rw [entryRefs_cons] at h
    rw [FileRecords.evictObject]
    split
    case isTrue he =>
      rw [he, optRefs_some, add_assoc, Multiset.singleton_add] at h
      obtain ⟨hrest, hlen⟩ := ih h.release
      refine ⟨?_, by rw [List.length_cons, List.length_cons, hlen]⟩
      rw [entryRefs_cons]
      show Balanced _ (0 + _ + refs)
      rwa [zero_add]
    case isFalse =>
      rw [add_assoc, add_left_comm] at h
      obtain ⟨hrest, hlen⟩ := ih h
      refine ⟨?_, by rw [List.length_cons, List.length_cons, hlen]⟩
      rwa [entryRefs_cons, add_assoc, add_left_comm]

end

/-! ### What each step keeps -/

/-- All references to records. -/
def Serving.refs (s : Serving) : Multiset RecId := entryRefs s.entries + callRefs s.calls

/-- Whether a call at this stage holds a record. -/
def Stage.Holds : Stage → Option RecId → Prop
  | .refusing, file => file = none
  | .answering, _ => True
  | _, file => file.isSome = true

structure Inv (s : Serving) : Prop where
  entries : s.entries ≠ []
  balanced : Balanced s.store s.refs
  holds : ∀ c ∈ s.calls, c.stage.Holds c.file

section

variable {s s' : Serving} {sys : Sys} {maxDirPath : ℕ} {path pattern : List Byte} {k : ℕ}
  {c : Serve} {id : RecId}

theorem inv_start (dir : Dir) : Inv (.start dir) where
  entries := by simp [Serving.start]
  balanced := by
    have hrefs : (Serving.start dir).refs = 0 := by simp [Serving.refs, Serving.start, entryRefs, callRefs]
    rw [hrefs]
    exact ⟨rfl, fun id hid => absurd hid (Multiset.notMem_zero id), fun id c hc => absurd hc (by simp [Serving.start]),
      fun id c hc => absurd hc (by simp [Serving.start])⟩
  holds := fun c hc => absurd hc List.not_mem_nil

/-- A lookup in the cache, also of an entry that it evicts. -/
theorem cacheCheck_spec (h : Balanced s.store s.refs) (hne : s.entries ≠ []) (sys : Sys)
    (path : List Byte) :
    Balanced (s.cacheCheck sys path).2.store (s.cacheCheck sys path).2.refs ∧
      (s.cacheCheck sys path).2.entries ≠ [] ∧ (s.cacheCheck sys path).2.calls = s.calls ∧
      ∀ id, (s.cacheCheck sys path).1 = some id → id ∈ (s.cacheCheck sys path).2.refs := by
  obtain ⟨p, hp⟩ : ∃ p : RecId → Bool, p = fun id => (s.store.file id).matches path := ⟨_, rfl⟩
  have hlooked : (looked p s.entries).foldl Store.touch s.store = s.store :=
    h.foldl_touch fun id hid => Multiset.mem_add.mpr (.inl (mem_of_looked hid))
  have hrefs := entryRefs_cacheLookup p s.entries
  have hne' := @cacheLookup_ne_nil p s.entries hne
  have hmem := fun {id} => @mem_of_cacheLookup p s.entries id
  rw [Serving.cacheCheck, ← hp, hlooked]
  generalize cacheLookup p s.entries = result at hrefs hne' hmem ⊢
  obtain ⟨found, entries⟩ := result
  have hrefs : entryRefs entries + callRefs s.calls = s.refs := congrArg (· + _) hrefs
  have hkeep : Balanced s.store (entryRefs entries + callRefs s.calls) := hrefs ▸ h
  cases found with
  | none => exact ⟨hkeep, hne', rfl, fun id hid => absurd hid (by simp)⟩
  | some id =>
    have hid : id ∈ entryRefs entries + callRefs s.calls := by
      rw [hrefs]
      exact Multiset.mem_add.mpr (.inl (hmem rfl))
    have hevict := @Balanced.evictObject entries s.store (callRefs s.calls) id hkeep
    have hevicted : (evictObject id entries s.store).1 ≠ [] := fun hnil =>
      hne' (List.eq_nil_of_length_eq_zero (hevict.2.symm.trans (by rw [hnil]; rfl)))
    dsimp only
    rw [hkeep.touch hid]
    split
    · split
      · split
        · exact ⟨hevict.1, hevicted, rfl, fun id hid => absurd hid (by simp)⟩
        · have hwritten := @Balanced.write_keep _ _ id hkeep hid
            (fun fr => { fr with loaded := sys.time }) rfl
          exact ⟨hwritten, hne', rfl, fun id' hid' => Option.some.inj hid' ▸ hid⟩
      · exact ⟨hevict.1, hevicted, rfl, fun id hid => absurd hid (by simp)⟩
    · exact ⟨hkeep, hne', rfl, fun id' hid' => Option.some.inj hid' ▸ hid⟩

/-- **What `Dir_resolve_file` returns is counted once more**, for its caller. -/
theorem resolve_spec (h : Balanced s.store s.refs) (hne : s.entries ≠ []) (sys : Sys)
    (maxDirPath : ℕ) (pattern path : List Byte) :
    Balanced (s.resolve sys maxDirPath pattern path).2.store
        (optRefs (s.resolve sys maxDirPath pattern path).1 +
          (s.resolve sys maxDirPath pattern path).2.refs) ∧
      (s.resolve sys maxDirPath pattern path).2.entries ≠ [] ∧
      (s.resolve sys maxDirPath pattern path).2.calls = s.calls := by
  rw [Serving.resolve]
  split
  case h_1 dir _ =>
    refine ⟨?_, hne, rfl⟩
    rw [optRefs_none, zero_add]
    exact h
  case h_2 dir _ =>
    have hcheck := @cacheCheck_spec { s with dir := dir } h hne sys path
    split
    case h_1 id s₁ heq =>
      -- a hit
      rw [heq] at hcheck
      obtain ⟨hbalanced, hne₁, hcalls, hmem⟩ := hcheck
      have hshared := @Balanced.write_share _ _ id hbalanced (hmem id rfl)
        (fun fr => { fr with users := fr.users + 1 }) rfl
      refine ⟨?_, hne₁, hcalls⟩
      rw [optRefs_some, Multiset.singleton_add]
      exact hshared
    case h_2 s₁ heq =>
      rw [heq] at hcheck
      obtain ⟨hbalanced, hne₁, hcalls, -⟩ := hcheck
      have hnone : Balanced s₁.store (optRefs none + s₁.refs) := by
        rwa [optRefs_none, zero_add]
      split_ifs
      · exact ⟨hnone, hne₁, hcalls⟩
      · exact ⟨hnone, hne₁, hcalls⟩
      · dsimp only
        split
        · exact ⟨hnone, hne₁, hcalls⟩
        · split_ifs
          · exact ⟨hnone, hne₁, hcalls⟩
          · rename_i target _ _
            have hfind := hbalanced.find sys target
            split
            case h_1 store hfound =>
              rw [hfound] at hfind
              exact ⟨hfind, hne₁, hcalls⟩
            case h_2 id store hfound =>
              -- the new record has the references of the caller and of its slot
              rw [hfound] at hfind
              have hheld : Balanced store (id ::ₘ s₁.refs) := hfind
              have hshared := @Balanced.write_share _ _ id hheld (Multiset.mem_cons_self ..)
                (fun fr => { fr with users := fr.users + 1, requestPath := some path }) rfl
              rw [Serving.refs, ← Multiset.add_cons] at hshared
              obtain ⟨hadded, hne₂⟩ := hshared.cacheAdd hne₁
              refine ⟨?_, hne₂, hcalls⟩
              rw [optRefs_some, Multiset.singleton_add]
              show Balanced _ (id ::ₘ (_ + callRefs s₁.calls))
              rw [← Multiset.add_cons]
              exact hadded

theorem isSome_of_calculateResponse {req : Request} {now : ℤ} {file : Option FileRecord}
    (h : calculateResponse req now file = none) : file.isSome = true := by
  cases file with
  | none => exact absurd h (by simp [calculateResponse])
  | some file => rfl

/-- A record that is held can be followed. -/
theorem Balanced.follow {st : Store} {refs : Multiset RecId} {file : Option RecId}
    (h : Balanced st (optRefs file + refs)) (hfile : file.isSome = true) : st.follow file = st := by
  obtain ⟨id, rfl⟩ := Option.isSome_iff_exists.mp hfile
  exact h.touch (Multiset.mem_add.mpr (.inl (Multiset.mem_singleton_self id)))

/-- A call begins to sleep. -/
theorem inv_push {store : Store} {entries : List Entry} {file : Option RecId} {stage : Stage}
    (h : Inv s) (hne : entries ≠ [])
    (hbalanced : Balanced store (optRefs file + (entryRefs entries + callRefs s.calls)))
    (hholds : stage.Holds file) (dir : Dir) : Inv ⟨dir, entries, store, ⟨file, stage⟩ :: s.calls⟩ where
  entries := hne
  balanced := by
    show Balanced store (entryRefs entries + callRefs (⟨file, stage⟩ :: s.calls))
    rw [callRefs_cons, add_left_comm]
    exact hbalanced
  holds := List.forall_mem_cons.mpr ⟨hholds, h.holds⟩

theorem inv_serve (h : Inv s) (sys : Sys) (maxDirPath : ℕ) (req : Request) :
    Inv (s.serve sys maxDirPath req) := by
  rw [Serving.serve]
  split
  case h_1 => exact h
  case h_2 path _ =>
    by_cases hmethod : req.method = .other
    · rw [if_pos hmethod]
      have hbalanced : Balanced s.store (optRefs none + s.refs) := by
        rw [optRefs_none, zero_add]
        exact h.balanced
      exact @inv_push s s.store s.entries none .refusing h h.entries hbalanced rfl s.dir
    · rw [if_neg hmethod]
      have hspec := resolve_spec h.balanced h.entries sys maxDirPath req.pattern path
      generalize s.resolve sys maxDirPath req.pattern path = result at hspec ⊢
      obtain ⟨file, s₁⟩ := result
      obtain ⟨hbalanced, hne, hcalls⟩ := hspec
      have hbalanced : Balanced s₁.store (optRefs file + (entryRefs s₁.entries + callRefs s.calls)) :=
        hcalls ▸ hbalanced
      have hcalls : s₁.calls = s.calls := hcalls
      dsimp only
      rw [hcalls]
      split
      case h_1 =>
        -- a response, also when there is no file
        have hstore : (if file.isSome = true then s₁.store.follow file else s₁.store) = s₁.store := by
          split
          case isTrue hfile => exact hbalanced.follow hfile
          case isFalse => rfl
        rw [hstore]
        exact @inv_push s s₁.store s₁.entries file .answering h hne hbalanced trivial s₁.dir
      case h_2 hresp =>
        have hfile : file.isSome = true := by
          rw [← Option.isSome_map (f := s₁.store.file)]
          exact isSome_of_calculateResponse hresp
        rw [hbalanced.follow hfile]
        refine inv_push h hne hbalanced ?_ s₁.dir
        split <;> exact hfile

theorem refs_of_call (hc : s.calls[k]? = some c) :
    s.refs = optRefs c.file + (entryRefs s.entries + callRefs (s.calls.eraseIdx k)) := by
  rw [Serving.refs, callRefs_eraseIdx hc, add_left_comm]

theorem Inv.follow (h : Inv s) (hc : s.calls[k]? = some c) (hfile : c.file.isSome = true) :
    s.store.follow c.file = s.store := by
  have hbalanced := h.balanced
  rw [refs_of_call hc] at hbalanced
  exact hbalanced.follow hfile

/-- A call returns, and lets go of its record. -/
theorem Inv.finish (h : Inv s) (hc : s.calls[k]? = some c) : Inv (s.finish k c s.store) where
  entries := h.entries
  balanced := by
    have hbalanced := h.balanced
    rw [refs_of_call hc] at hbalanced
    exact hbalanced.releaseAny
  holds := fun c' hc' => h.holds c' (List.mem_of_mem_eraseIdx hc')

/-- A call sleeps again. -/
theorem Inv.sleep (h : Inv s) (hc : s.calls[k]? = some c) {stage : Stage}
    (hholds : stage.Holds c.file) : Inv (s.sleep k c stage s.store) where
  entries := h.entries
  balanced := by
    show Balanced s.store (entryRefs s.entries + callRefs (s.calls.set k { c with stage := stage }))
    rw [callRefs_set hc]
    exact h.balanced
  holds := fun c' hc' => by
    rcases List.mem_or_eq_of_mem_set hc' with hc' | rfl
    · exact h.holds c' hc'
    · exact hholds

theorem inv_resume (h : Inv s) (hc : s.calls[k]? = some c) (reply : Reply) :
    Inv (s.resume k c reply) := by
  have hholds := h.holds c (List.mem_of_getElem? hc)
  have hreturn := h.finish hc
  unfold Serving.resume
  cases hstage : c.stage with
  | refusing =>
    rw [hstage] at hholds
    have hnone : c.file = none := hholds
    rw [Serving.finish, hnone] at hreturn
    cases reply with
    | more => exact h
    | failed | ok sent => exact hreturn
  | answering =>
    cases reply with
    | more => exact h
    | failed | ok sent => exact hreturn
  | heading =>
    rw [hstage] at hholds
    rw [h.follow hc hholds]
    cases reply with
    | more => exact h.sleep hc hholds
    | failed | ok sent => exact hreturn
  | header ssl =>
    rw [hstage] at hholds
    rw [h.follow hc hholds]
    cases reply with
    | more => exact h.sleep hc hholds
    | failed => exact hreturn
    | ok sent =>
      refine h.sleep hc ?_
      split <;> exact hholds
  | streaming total =>
    rw [hstage] at hholds
    rw [h.follow hc hholds]
    cases reply with
    | more => exact h
    | failed => exact hreturn
    | ok sent =>
      dsimp only
      split
      · exact h.sleep hc hholds
      · exact hreturn
  | copying =>
    rw [hstage] at hholds
    rw [h.follow hc hholds]
    cases reply with
    | more => exact h
    | failed => exact hreturn
    | ok sent =>
      dsimp only
      split
      · exact h.sleep hc hholds
      · exact hreturn

theorem inv_step {a : Act} (h : Inv s) (hstep : step maxDirPath s a = some s') : Inv s' := by
  cases a with
  | serve sys req =>
    obtain rfl := Option.some.inj hstep
    exact inv_serve h sys maxDirPath req
  | resume k reply =>
    obtain ⟨c, hc, rfl⟩ := Option.map_eq_some_iff.mp hstep
    exact inv_resume h hc reply

theorem count_refs (s : Serving) (id : RecId) : s.refs.count id = s.slots id + s.holders id := by
  rw [Serving.refs, Multiset.count_add, entryRefs, callRefs, Multiset.coe_count, Multiset.coe_count,
    List.count_filterMap, List.count_filterMap]
  simp only [Serving.slots, Serving.holders, beq_eq_decide]

theorem Inv.accounted (h : Inv s) : Accounted s where
  users := fun id c hc hlive => by
    rw [← count_refs]
    by_cases hid : id ∈ s.refs
    · exact (h.balanced.held id c hc hid).2
    · rw [h.balanced.gone id c hc hid] at hlive
      exact absurd hlive (by simp)
  destroyed := fun id c hc => by
    rw [← count_refs]
    by_cases hid : id ∈ s.refs
    · rw [if_neg (Multiset.count_pos.mpr hid).ne', (h.balanced.held id c hc hid).1]
    · rw [if_pos (Multiset.count_eq_zero.mpr hid), h.balanced.gone id c hc hid]
  unused := h.balanced.fault

end

/-- **The users of each record are the slots and the calls that hold it**, whatever is
requested and in whichever order the calls are woken: a record is destroyed once, when
the last of them lets go, and is not used after that. -/
theorem accounted_always (maxDirPath : ℕ) (dir : Dir) (acts : List Act) :
    Runs.Always (step maxDirPath) Accounted (.start dir) acts := by
  have hinv : Runs.Always (step maxDirPath) Inv (.start dir) acts :=
    Runs.always_of_step (fun _ _ _ h hstep => inv_step h hstep) (inv_start dir) acts
  exact hinv.mono fun _ h => h.accounted

end FileRecords

end Mongrel2

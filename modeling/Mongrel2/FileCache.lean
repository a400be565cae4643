/-
Calls of `Dir_resolve_file` on one directory (`dir.c`, `cache.c`).

A directory that is the target of several routes is called with their patterns in turn,
and its cache is looked up by the path of the request alone.

* `FileSystem.place` — the file a call leads to, without the cache;
* `resolveFile_cases` — all that a call can do;
* `transparent_of_samePlace` — as long as the cached record for a path, if there is one,
  was put there for the same path and prefix, each call returns what it would return on
  an empty cache.

Design notes: `Dir.resolveFile` is called with a file system that stays as it is; the
time and the memory behind the path are the call's own.  `added` and `answers` are
history.  An empty cache is that of `Dir_create`; the base is left as it is.
-/
import Mongrel2.Dir
import Mongrel2.Runs

namespace Mongrel2

open ByteStream

/-! ### Calls without a cache -/

/-- The files, as long as nothing changes them. -/
structure FileSystem where
  realpath : List Byte → Option (List Byte)
  stat : List Byte → Option Stat
  opens : List Byte → Bool

/-- The arguments of a call, and what it finds that is not in the files. -/
structure DirCall where
  pattern : List Byte
  path : List Byte
  time : ℤ
  heap : List Byte
  deriving DecidableEq

def FileSystem.sys (fs : FileSystem) (c : DirCall) : Sys :=
  ⟨fs.realpath, fs.stat, fs.opens, c.time, c.heap⟩

/-- `Dir_find_file` finds something. -/
def FileSystem.finds (fs : FileSystem) (path : List Byte) : Bool :=
  match fs.stat path with
  | none => false
  | some sb => sb.isDir || fs.opens path

/-- The file that a call leads to when nothing is cached, for a base that has been
normalised. -/
def FileSystem.place (fs : FileSystem) (maxDirPath : ℕ) (base indexFile : List Byte) (c : DirCall) :
    Option (List Byte) :=
  if (routePrefix c.pattern).head? ≠ some (chr '/') then none
  else if maxDirPath ≤ (routePrefix c.pattern).length then none
  else
    match fs.realpath (targetPath base c.pattern c.path indexFile c.heap) with
    | none => none
    | some target => if !base.isPrefixOf target then none
      else if fs.finds target then some target else none

/-- The path of what a call has returned. -/
def Resolved.fullPath : Resolved → List Byte
  | .fresh file => file.fullPath
  | .cached file => file.fullPath

/-- `filerecord_cache_lookup`. -/
def FileRecord.matches (path : List Byte) (fr : FileRecord) : Bool :=
  fr.requestPath.any (bstrcmpEq · path)

namespace Dir

/-- The directory with the cache of `Dir_create`. -/
def emptied (dir : Dir) : Dir := { dir with cache := .replicate 32 ⟨intMax, none⟩ }

/-- The records in the cache. -/
def records (dir : Dir) : List FileRecord := dir.cache.filterMap Slot.data

/-- The cache has a record for the path. -/
def Holds (dir : Dir) (path : List Byte) : Prop := ∃ fr ∈ dir.records, fr.matches path = true

instance (dir : Dir) (path : List Byte) : Decidable (dir.Holds path) :=
  inferInstanceAs (Decidable (∃ fr ∈ dir.records, fr.matches path = true))

end Dir

/-! ### Runs of calls -/

/-- A directory that is being used. -/
structure Served where
  dir : Dir
  /-- the calls that put a record into the cache, the last one first -/
  added : List DirCall
  /-- the path each call returned, and the one it would return on an empty cache -/
  answers : List (Option (List Byte) × Option (List Byte))

namespace Served

variable (fs : FileSystem) (maxDirPath : ℕ)

def start (dir : Dir) : Served := ⟨dir, [], []⟩

/-- The state after a call that has returned `found` and left `dir`, and would have returned
`alone` on an empty cache. -/
def after (s : Served) (c : DirCall) (found : Option Resolved) (dir : Dir) (alone : Option Resolved) :
    Served where
  dir := dir
  added := match found with
    | some (.fresh _) => c :: s.added
    | _ => s.added
  answers := (found.map Resolved.fullPath, alone.map Resolved.fullPath) :: s.answers

/-- One call of `Dir_resolve_file`. -/
def step (s : Served) (c : DirCall) : Option Served :=
  let (found, dir) := s.dir.resolveFile (fs.sys c) maxDirPath c.pattern c.path
  some (s.after c found dir
    (s.dir.emptied.resolveFile (fs.sys c) maxDirPath c.pattern c.path).1)

/-- Each call returned what it would return on an empty cache. -/
def Transparent (s : Served) : Prop := ∀ a ∈ s.answers, a.1 = a.2

instance (s : Served) : Decidable s.Transparent :=
  inferInstanceAs (Decidable (∀ a ∈ s.answers, a.1 = a.2))

/-- The call leads to the same place as the call whose record the cache has for the path,
if it has one: both have the same path and the same prefix, and read nothing behind the
path. -/
def SamePlace (s : Served) (c : DirCall) : Prop :=
  s.dir.Holds c.path → ∀ c' ∈ s.added.find? fun c' => bstrcmpEq c'.path c.path,
    c'.path = c.path ∧ routePrefix c'.pattern = routePrefix c.pattern ∧
      (routePrefix c.pattern).length ≤ c.path.length + 1

instance (s : Served) (c : DirCall) : Decidable (s.SamePlace c) :=
  inferInstanceAs (Decidable (_ → _))

end Served

/-! ### Keys -/

section

variable {a b c : List Byte}

theorem bstrcmpEq_iff : bstrcmpEq a b = true ↔ a = b ∨ 0 ∈ a ∧ 0 ∈ b ∧ cstr a = cstr b := by
  simp [bstrcmpEq, and_assoc]

theorem bstrcmpEq_refl (a : List Byte) : bstrcmpEq a a = true := bstrcmpEq_iff.mpr (.inl rfl)

theorem bstrcmpEq_symm (h : bstrcmpEq a b = true) : bstrcmpEq b a = true := by
  rw [bstrcmpEq_iff] at h ⊢
  exact h.imp Eq.symm fun ⟨ha, hb, hc⟩ => ⟨hb, ha, hc.symm⟩

theorem bstrcmpEq_trans (h : bstrcmpEq a b = true) (h' : bstrcmpEq b c = true) :
    bstrcmpEq a c = true := by
  rw [bstrcmpEq_iff] at h h' ⊢
  rcases h with rfl | ⟨ha, hb, hab⟩
  · exact h'
  · rcases h' with rfl | ⟨-, hc, hbc⟩
    · exact .inr ⟨ha, hb, hab⟩
    · exact .inr ⟨ha, hc, hab.trans hbc⟩

/-- Paths with one key are compared alike with any other. -/
theorem bstrcmpEq_congr (h : bstrcmpEq a b = true) (c : List Byte) :
    bstrcmpEq c a = bstrcmpEq c b := by
  rw [Bool.eq_iff_iff]
  exact ⟨fun hc => bstrcmpEq_trans hc h, fun hc => bstrcmpEq_trans hc (bstrcmpEq_symm h)⟩

end

/-! ### The cache -/

section

variable {p : FileRecord → Bool} {slots : List Slot} {fr fr' : FileRecord} {i : ℕ}

theorem mem_records {dir : Dir} : fr ∈ dir.records ↔ ∃ slot ∈ dir.cache, slot.data = some fr :=
  List.mem_filterMap

theorem decay_data (slots : List Slot) : (slots.map Slot.decay).map Slot.data = slots.map Slot.data := by
  rw [List.map_map]
  rfl

/-- A lookup changes no record. -/
theorem cacheLookup_data (p : FileRecord → Bool) (slots : List Slot) :
    (cacheLookup p slots).2.map Slot.data = slots.map Slot.data := by
  induction slots with
  | nil => rfl
  | cons slot slots ih =>
    rw [cacheLookup]
    split
    case h_1 fr hfr =>
      rw [List.map_cons, List.map_cons, decay_data]
    case h_2 hfr =>
      rw [List.map_cons, List.map_cons, ← ih]
      rfl

/-- What a lookup finds is in the slot, and is what is looked for. -/
theorem cacheLookup_some (h : (cacheLookup p slots).1 = some (i, fr)) :
    p fr = true ∧ ∃ slot, slots[i]? = some slot ∧ slot.data = some fr := by
  induction slots generalizing i with
  | nil => exact absurd h (by simp [cacheLookup])
  | cons slot slots ih =>
    rw [cacheLookup] at h
    cases hfr : slot.data.filter p with
    | some fr' =>
      rw [hfr] at h
      obtain ⟨rfl, rfl⟩ := Prod.mk.inj (Option.some.inj h)
      obtain ⟨hdata, hp⟩ := Option.filter_eq_some_iff.mp hfr
      exact ⟨hp, slot, rfl, hdata⟩
    | none =>
      rw [hfr] at h
      obtain ⟨⟨k, fr'⟩, hfound, heq⟩ := Option.map_eq_some_iff.mp h
      obtain ⟨rfl, rfl⟩ := Prod.mk.inj heq
      exact ih hfound

/-- When a lookup finds nothing, nothing is there that is looked for. -/
theorem cacheLookup_none (h : (cacheLookup p slots).1 = none) :
    ∀ slot ∈ slots, ∀ fr, slot.data = some fr → p fr = false := by
  induction slots with
  | nil => exact fun slot hslot => absurd hslot List.not_mem_nil
  | cons slot slots ih =>
    rw [cacheLookup] at h
    cases hfr : slot.data.filter p with
    | some fr =>
      rw [hfr] at h
      exact absurd h (by simp)
    | none =>
      rw [hfr] at h
      intro s hs fr hdata
      rcases List.mem_cons.mp hs with rfl | hs
      · rw [Option.filter_eq_none_iff] at hfr
        exact Bool.eq_false_of_not_eq_true (hfr fr hdata)
      · exact ih (Option.map_eq_none_iff.mp h) s hs fr hdata

/-- What is in a slot after one of the slots has been set. -/
theorem mem_filterMap_set {slot : Slot} (h : fr ∈ (slots.set i slot).filterMap Slot.data) :
    slot.data = some fr ∨ fr ∈ slots.filterMap Slot.data := by
  obtain ⟨s, hs, hdata⟩ := List.mem_filterMap.mp h
  rcases List.mem_or_eq_of_mem_set hs with hs | rfl
  · exact .inr (List.mem_filterMap.mpr ⟨s, hs, hdata⟩)
  · exact .inl hdata

theorem filterMap_data {slots slots' : List Slot} (h : slots.map Slot.data = slots'.map Slot.data) :
    slots.filterMap Slot.data = slots'.filterMap Slot.data := by
  have hid : ∀ l : List Slot, l.filterMap Slot.data = (l.map Slot.data).filterMap id := fun l => by
    rw [List.filterMap_map]
    rfl
  rw [hid, hid, h]

theorem mem_cacheAdd (h : fr ∈ (cacheAdd fr' slots).filterMap Slot.data) :
    fr = fr' ∨ fr ∈ slots.filterMap Slot.data := by
  rcases mem_filterMap_set h with heq | hmem
  · exact .inl (Option.some.inj heq).symm
  · rw [filterMap_data (decay_data slots)] at hmem
    exact .inr hmem

end

/-- The record is the same but for its users and for when it was last compared with the
file. -/
structure FileRecord.Same (fr fr' : FileRecord) : Prop where
  requestPath : fr.requestPath = fr'.requestPath
  fullPath : fr.fullPath = fr'.fullPath
  sb : fr.sb = fr'.sb

section

variable {fs : FileSystem} {maxDirPath : ℕ} {dir dir' : Dir} {c : DirCall} {fr : FileRecord} {i : ℕ}

/-- **What `FileRecord_cache_check` finds**, when the files are as the records have them: a
record for the path, if there is one.  It removes none. -/
theorem cacheCheck_spec (hstat : ∀ fr ∈ dir.records, fs.stat fr.fullPath = some fr.sb) :
    (∃ i fr dir', dir.cacheCheck (fs.sys c) c.path = (some (i, fr), dir') ∧
      (∃ old ∈ dir.records, old.matches c.path = true ∧ fr.Same old) ∧
      ∀ fr' ∈ dir'.records, ∃ old ∈ dir.records, fr'.Same old) ∨
    ∃ dir', dir.cacheCheck (fs.sys c) c.path = (none, dir') ∧ ¬dir.Holds c.path ∧
      dir'.records = dir.records := by
  have hsome := @cacheLookup_some (fun fr => fr.requestPath.any (bstrcmpEq · c.path)) dir.cache
  have hnone := @cacheLookup_none (fun fr => fr.requestPath.any (bstrcmpEq · c.path)) dir.cache
  have hdata := cacheLookup_data (fun fr => fr.requestPath.any (bstrcmpEq · c.path)) dir.cache
  have hrecords := filterMap_data hdata
  have hself : ∀ fr ∈ dir.records, ∃ old ∈ dir.records, fr.Same old := fun fr hfr =>
    ⟨fr, hfr, rfl, rfl, rfl⟩
  rw [Dir.cacheCheck]
  generalize cacheLookup (fun fr => fr.requestPath.any (bstrcmpEq · c.path)) dir.cache = result at *
  obtain ⟨found, slots⟩ := result
  cases found with
  | none =>
    refine .inr ⟨_, rfl, ?_, hrecords⟩
    rintro ⟨fr, hfr, hmatch⟩
    obtain ⟨slot, hslot, hfr⟩ := mem_records.mp hfr
    exact absurd hmatch (by rw [FileRecord.matches, hnone rfl slot hslot fr hfr]; simp)
  | some x =>
    obtain ⟨i, fr⟩ := x
    obtain ⟨hmatch, slot, hslot, hfr⟩ := hsome rfl
    have hmem : fr ∈ dir.records := mem_records.mpr ⟨slot, List.mem_of_getElem? hslot, hfr⟩
    have hslots : slots.filterMap Slot.data = dir.records := hrecords
    refine .inl ?_
    dsimp only
    split
    · -- the record is compared with the file, which is as it was
      have hsys : (fs.sys c).stat fr.fullPath = some fr.sb := hstat fr hmem
      rw [hsys]
      dsimp only
      rw [if_neg (by simp)]
      refine ⟨_, _, _, rfl, ⟨fr, hmem, hmatch, rfl, rfl, rfl⟩, fun fr' hfr' => ?_⟩
      rcases mem_filterMap_set hfr' with heq | hold
      · exact ⟨fr, hmem, Option.some.inj heq ▸ ⟨rfl, rfl, rfl⟩⟩
      · exact hself fr' (hslots ▸ hold)
    · refine ⟨_, _, _, rfl, ⟨fr, hmem, hmatch, rfl, rfl, rfl⟩, fun fr' hfr' => ?_⟩
      exact hself fr' (hslots ▸ hfr')

theorem findFile_some {sys : Sys} {path : List Byte} (h : findFile sys path = some fr) :
    fr.fullPath = path ∧ sys.stat path = some fr.sb := by
  refine ⟨findFile_fullPath h, ?_⟩
  unfold findFile at h
  split at h
  case h_1 => exact absurd h (by simp)
  case h_2 sb hsb =>
    rw [hsb]
    split_ifs at h
    · exact congrArg some (congrArg FileRecord.sb (Option.some.inj h))
    · exact congrArg some (congrArg FileRecord.sb (Option.some.inj h))

theorem finds_eq (fs : FileSystem) (c : DirCall) (path : List Byte) :
    fs.finds path = (findFile (fs.sys c) path).isSome := by
  have hstat : (fs.sys c).stat path = fs.stat path := rfl
  have hopens : (fs.sys c).opens path = fs.opens path := rfl
  rw [FileSystem.finds, findFile, hstat, hopens]
  cases fs.stat path with
  | none => rfl
  | some sb =>
    dsimp only
    cases sb.isDir <;> cases fs.opens path <;> rfl

/-- The base is normalised, or given up. -/
theorem lazyNormalizeBase_cases (sys : Sys) (dir : Dir) :
    (∃ base, dir.lazyNormalizeBase sys = (true, { dir with normalizedBase := some base }) ∧
      (dir.normalizedBase = none ∨ dir.normalizedBase = some base)) ∨
    dir.lazyNormalizeBase sys = (false, { dir with normalizedBase := some dir.base }) ∧
      dir.normalizedBase = none := by
  rw [Dir.lazyNormalizeBase]
  cases hbase : dir.normalizedBase with
  | some base =>
    have hsame : dir = { dir with normalizedBase := some base } := by rw [← hbase]
    exact .inl ⟨base, congrArg (Prod.mk true) hsame, .inr rfl⟩
  | none =>
    dsimp only
    cases sys.realpath dir.base with
    | some base => exact .inl ⟨base, rfl, .inl rfl⟩
    | none => exact .inr ⟨rfl, rfl⟩

/-- What is looked up when the cache has nothing for the path. -/
theorem resolveFile_miss {dir₁ : Dir} {base : List Byte}
    (hlazy : dir.lazyNormalizeBase (fs.sys c) = (true, { dir with normalizedBase := some base }))
    (hcheck : ({ dir with normalizedBase := some base } : Dir).cacheCheck (fs.sys c) c.path =
      (none, dir₁)) :
    dir.resolveFile (fs.sys c) maxDirPath c.pattern c.path = (none, dir₁) ∧
      fs.place maxDirPath base dir.indexFile c = none ∨
    ∃ fr, fs.place maxDirPath base dir.indexFile c = some fr.fullPath ∧
      fs.stat fr.fullPath = some fr.sb ∧ fr.requestPath = some c.path ∧
      dir.resolveFile (fs.sys c) maxDirPath c.pattern c.path =
        (some (.fresh fr), { dir₁ with cache := cacheAdd fr dir₁.cache }) := by
  have hframe := cacheCheck_frame (fs.sys c) { dir with normalizedBase := some base } c.path
  rw [hcheck] at hframe
  obtain ⟨hbase, -, hindex⟩ := hframe
  have hbase : dir₁.normalizedBase = some base := hbase
  have hindex : dir₁.indexFile = dir.indexFile := hindex
  rw [Dir.resolveFile, hlazy]
  dsimp only
  rw [hcheck]
  dsimp only
  rw [hbase, hindex, FileSystem.place]
  by_cases hslash : (routePrefix c.pattern).head? ≠ some (chr '/')
  · rw [if_pos hslash, if_pos hslash]
    exact .inl ⟨rfl, rfl⟩
  rw [if_neg hslash, if_neg hslash]
  by_cases hlong : maxDirPath ≤ (routePrefix c.pattern).length
  · rw [if_pos hlong, if_pos hlong]
    exact .inl ⟨rfl, rfl⟩
  rw [if_neg hlong, if_neg hlong]
  have hreal : ∀ path, (fs.sys c).realpath path = fs.realpath path := fun _ => rfl
  have hheap : (fs.sys c).heap = c.heap := rfl
  rw [Option.getD_some, hreal, hheap]
  cases fs.realpath (targetPath base c.pattern c.path dir.indexFile c.heap) with
  | none => exact .inl ⟨rfl, rfl⟩
  | some target =>
    dsimp only
    by_cases hstart : (!base.isPrefixOf target) = true
    · rw [if_pos hstart, if_pos hstart]
      exact .inl ⟨rfl, rfl⟩
    rw [if_neg hstart, if_neg hstart, finds_eq fs c]
    cases hfile : findFile (fs.sys c) target with
    | none => exact .inl ⟨rfl, rfl⟩
    | some fr =>
      obtain ⟨hpath, hstat⟩ := findFile_some hfile
      refine .inr ⟨{ fr with users := fr.users + 1, requestPath := some c.path }, ?_, ?_, rfl, rfl⟩
      · show some target = some fr.fullPath
        rw [hpath]
      · show fs.stat fr.fullPath = some fr.sb
        rw [hpath]
        exact hstat

theorem records_emptied (dir : Dir) : dir.emptied.records = [] := by
  refine List.eq_nil_iff_forall_not_mem.mpr fun fr hfr => ?_
  obtain ⟨slot, hslot, hdata⟩ := mem_records.mp hfr
  rw [List.eq_of_mem_replicate hslot] at hdata
  exact absurd hdata (by simp)

/-- **What a call returns on an empty cache**: what it leads to, if the base can be
normalised. -/
theorem resolveFile_emptied (fs : FileSystem) (maxDirPath : ℕ) (dir : Dir) (c : DirCall) :
    (dir.emptied.resolveFile (fs.sys c) maxDirPath c.pattern c.path).1.map Resolved.fullPath =
      if (dir.lazyNormalizeBase (fs.sys c)).1 then
        fs.place maxDirPath ((dir.lazyNormalizeBase (fs.sys c)).2.normalizedBase.getD [])
          dir.indexFile c
      else none := by
  have hlazy : dir.emptied.lazyNormalizeBase (fs.sys c) =
      ((dir.lazyNormalizeBase (fs.sys c)).1, (dir.lazyNormalizeBase (fs.sys c)).2.emptied) := by
    have hbase : dir.emptied.normalizedBase = dir.normalizedBase := rfl
    have hreal : (fs.sys c).realpath dir.emptied.base = (fs.sys c).realpath dir.base := rfl
    rw [Dir.lazyNormalizeBase, Dir.lazyNormalizeBase, hbase, hreal]
    cases dir.normalizedBase with
    | some _ => rfl
    | none => cases (fs.sys c).realpath dir.base <;> rfl
  rcases lazyNormalizeBase_cases (fs.sys c) dir with ⟨base, hrun, -⟩ | ⟨hrun, -⟩
  · rw [hrun] at hlazy ⊢
    obtain ⟨_, _, _, -, ⟨old, hold, -⟩, -⟩ | ⟨dir₁, hcheck, -, -⟩ :=
      @cacheCheck_spec fs (({ dir with normalizedBase := some base } : Dir).emptied) c
        (fun fr hfr => absurd hfr (by rw [records_emptied]; exact List.not_mem_nil))
    · exact absurd hold (by rw [records_emptied]; exact List.not_mem_nil)
    · rcases @resolveFile_miss fs maxDirPath dir.emptied c dir₁ base hlazy hcheck with
        ⟨hnone, hplace⟩ | ⟨fr, hplace, -, -, hfresh⟩
      · rw [hnone]
        exact hplace.symm
      · rw [hfresh]
        exact hplace.symm
  · rw [hrun] at hlazy ⊢
    rw [Dir.resolveFile, hlazy]
    rfl

/-- A prefix that ends in the path, or at its NUL, leaves nothing to be read behind. -/
theorem cstr_drop_append {path : List Byte} {k : ℕ} (hk : k ≤ path.length) (heap heap' : List Byte) :
    cstr ((path ++ 0 :: heap).drop k) = cstr ((path ++ 0 :: heap').drop k) := by
  have hend : ∀ xs heap : List Byte, cstr (xs ++ 0 :: heap) = cstr xs := by
    intro xs heap
    induction xs with
    | nil => rfl
    | cons x xs ih =>
      rw [List.cons_append, cstr, cstr, List.takeWhile_cons, List.takeWhile_cons]
      split
      · exact congrArg (List.cons x) ih
      · rfl
  rw [List.drop_append_of_le_length hk, List.drop_append_of_le_length hk, hend, hend]

/-- Calls with one path and one prefix lead to one place. -/
theorem place_congr {c' : DirCall} (base indexFile : List Byte) (hpath : c'.path = c.path)
    (hpre : routePrefix c'.pattern = routePrefix c.pattern)
    (hshort : (routePrefix c.pattern).length ≤ c.path.length + 1) :
    fs.place maxDirPath base indexFile c' = fs.place maxDirPath base indexFile c := by
  have htarget : targetPath base c'.pattern c'.path indexFile c'.heap =
      targetPath base c.pattern c.path indexFile c.heap := by
    rw [targetPath, targetPath, hpath, hpre, cstr_drop_append (Nat.sub_le_of_le_add hshort) c'.heap c.heap]
  rw [FileSystem.place, FileSystem.place, hpre, htarget]

end

/-! ### What each call keeps -/

/-- Each record in the cache is where the last call that added one for its path leads. -/
def Located (fs : FileSystem) (maxDirPath : ℕ) (base : List Byte) (s : Served) : Prop :=
  ∀ fr ∈ s.dir.records, ∃ c, (s.added.find? fun c' => bstrcmpEq c'.path c.path) = some c ∧
    fr.requestPath = some c.path ∧
    fs.place maxDirPath base s.dir.indexFile c = some fr.fullPath

/-- What holds as long as calls for one path lead to one place. -/
structure Kept (fs : FileSystem) (maxDirPath : ℕ) (s : Served) : Prop where
  base : s.dir.normalizedBase = none → s.dir.records = []
  stat : ∀ fr ∈ s.dir.records, fs.stat fr.fullPath = some fr.sb
  located : Located fs maxDirPath (s.dir.normalizedBase.getD []) s
  transparent : s.Transparent

section

variable {fs : FileSystem} {maxDirPath : ℕ} {s s' : Served} {c : DirCall}

theorem kept_start {base indexFile : List Byte} {dir : Dir}
    (h : Dir.create maxDirPath base indexFile = some dir) :
    Kept fs maxDirPath (Served.start dir) := by
  have hempty : dir.records = [] := by
    unfold Dir.create at h
    split at h
    case isTrue hbase =>
      obtain rfl := Option.some.inj h
      exact records_emptied
        ⟨cstr base, none, cstr indexFile, [], hbase.2.1, hbase.2.2, zero_not_mem_cstr base⟩
    case isFalse => exact absurd h (by simp)
  have hnone : ∀ fr, fr ∉ (Served.start dir).dir.records := fun fr hfr => by
    have hfr : fr ∈ dir.records := hfr
    rw [hempty] at hfr
    exact absurd hfr List.not_mem_nil
  exact ⟨fun _ => hempty, fun fr hfr => absurd hfr (hnone fr), fun fr hfr => absurd hfr (hnone fr),
    fun a ha => absurd ha List.not_mem_nil⟩

variable {base : List Byte} {dir₁ : Dir}

/-- A look in the cache leaves the base and the index file as they are. -/
theorem base_of_cacheCheck {sys : Sys} {dir : Dir} {path : List Byte}
    {found : Option (ℕ × FileRecord)}
    (hcheck : ({ dir with normalizedBase := some base } : Dir).cacheCheck sys path = (found, dir₁)) :
    dir₁.normalizedBase = some base ∧ dir₁.indexFile = dir.indexFile := by
  have hframe := cacheCheck_frame sys { dir with normalizedBase := some base } path
  rw [hcheck] at hframe
  exact ⟨hframe.1, hframe.2.2⟩

/-- A call that finds its path in the cache. -/
theorem kept_hit (h : Kept fs maxDirPath s) (hlocated : Located fs maxDirPath base s)
    (hok : s.SamePlace c) {i : ℕ} {fr old : FileRecord}
    (hlazy : s.dir.lazyNormalizeBase (fs.sys c) = (true, { s.dir with normalizedBase := some base }))
    (hcheck : ({ s.dir with normalizedBase := some base } : Dir).cacheCheck (fs.sys c) c.path =
      (some (i, fr), dir₁))
    (hold : old ∈ s.dir.records) (hmatch : old.matches c.path = true) (hsame : fr.Same old)
    (hrecords : ∀ fr' ∈ dir₁.records, ∃ old ∈ s.dir.records, fr'.Same old)
    (halone : (s.dir.emptied.resolveFile (fs.sys c) maxDirPath c.pattern c.path).1.map
      Resolved.fullPath = fs.place maxDirPath base s.dir.indexFile c)
    (hstep : Served.step fs maxDirPath s c = some s') : Kept fs maxDirPath s' := by
  obtain ⟨hbase₁, hindex₁⟩ := base_of_cacheCheck hcheck
  -- the record is of a call with the same path and prefix
  obtain ⟨c', hlast, hpath, hto⟩ := hlocated old hold
  have hkey : bstrcmpEq c'.path c.path = true := by
    rw [FileRecord.matches, hpath] at hmatch
    exact hmatch
  have hfind : (s.added.find? fun c'' => bstrcmpEq c''.path c.path) = some c' := by
    rw [← hlast]
    exact congrArg (s.added.find? ·) (funext fun c'' => (bstrcmpEq_congr hkey _).symm)
  obtain ⟨hpath', hpre, hshort⟩ := hok ⟨old, hold, hmatch⟩ c' hfind
  rw [place_congr base s.dir.indexFile hpath' hpre hshort] at hto
  have hrun : s.dir.resolveFile (fs.sys c) maxDirPath c.pattern c.path =
      (some (.cached { fr with users := fr.users + 1 }), { dir₁ with
        cache := dir₁.cache.set i ⟨intMax, some { fr with users := fr.users + 1 }⟩ }) := by
    rw [Dir.resolveFile, hlazy]
    dsimp only
    rw [hcheck]
  rw [Served.step, hrun] at hstep
  obtain rfl := Option.some.inj hstep
  have hold : ∀ fr' ∈ ({ dir₁ with
      cache := dir₁.cache.set i ⟨intMax, some { fr with users := fr.users + 1 }⟩ } : Dir).records,
      ∃ old ∈ s.dir.records, fr'.Same old := by
    intro fr' hfr'
    rcases mem_filterMap_set hfr' with heq | hfr'
    · obtain rfl := Option.some.inj heq
      exact ⟨old, hold, hsame.1, hsame.2, hsame.3⟩
    · exact hrecords fr' hfr'
  refine ⟨fun hnone => ?_, fun fr' hfr' => ?_, fun fr' hfr' => ?_, ?_⟩
  · exact absurd (hbase₁.symm.trans hnone) (by simp)
  · obtain ⟨old', hold', hsame'⟩ := hold fr' hfr'
    rw [hsame'.fullPath, hsame'.sb]
    exact h.stat old' hold'
  · obtain ⟨old', hold', hsame'⟩ := hold fr' hfr'
    show ∃ c₁, (s.added.find? _) = some c₁ ∧ _ ∧
      fs.place maxDirPath (dir₁.normalizedBase.getD []) dir₁.indexFile c₁ = some fr'.fullPath
    rw [hbase₁, hindex₁, hsame'.fullPath, hsame'.requestPath]
    exact hlocated old' hold'
  · refine List.forall_mem_cons.mpr ⟨?_, h.transparent⟩
    show some fr.fullPath = _
    rw [halone, hto, hsame.fullPath]

/-- A call that does not: what it adds is not under the key of anything that is there. -/
theorem kept_miss (h : Kept fs maxDirPath s) (hlocated : Located fs maxDirPath base s)
    (hlazy : s.dir.lazyNormalizeBase (fs.sys c) = (true, { s.dir with normalizedBase := some base }))
    (hcheck : ({ s.dir with normalizedBase := some base } : Dir).cacheCheck (fs.sys c) c.path =
      (none, dir₁))
    (hmiss : ¬s.dir.Holds c.path) (hrecords : dir₁.records = s.dir.records)
    (halone : (s.dir.emptied.resolveFile (fs.sys c) maxDirPath c.pattern c.path).1.map
      Resolved.fullPath = fs.place maxDirPath base s.dir.indexFile c)
    (hstep : Served.step fs maxDirPath s c = some s') : Kept fs maxDirPath s' := by
  obtain ⟨hbase₁, hindex₁⟩ := base_of_cacheCheck hcheck
  rw [Served.step] at hstep
  rcases resolveFile_miss hlazy hcheck with ⟨hrun, hnone⟩ | ⟨fr, hto, hstat, hpath, hrun⟩
  · rw [hrun] at hstep
    obtain rfl := Option.some.inj hstep
    refine ⟨fun hnone => absurd (hbase₁.symm.trans hnone) (by simp), ?_, ?_, ?_⟩
    · show ∀ fr ∈ dir₁.records, _
      rw [hrecords]
      exact h.stat
    · show ∀ fr ∈ dir₁.records, ∃ c₁, (s.added.find? _) = some c₁ ∧ _ ∧
        fs.place maxDirPath (dir₁.normalizedBase.getD []) dir₁.indexFile c₁ = some fr.fullPath
      rw [hrecords, hbase₁, hindex₁]
      exact hlocated
    · refine List.forall_mem_cons.mpr ⟨?_, h.transparent⟩
      show none = _
      rw [halone, hnone]
  · rw [hrun] at hstep
    obtain rfl := Option.some.inj hstep
    have hmem : ∀ fr' ∈ ({ dir₁ with cache := cacheAdd fr dir₁.cache } : Dir).records,
        fr' = fr ∨ fr' ∈ s.dir.records := fun fr' hfr' =>
      (mem_cacheAdd hfr').imp id fun hold => hrecords ▸ hold
    refine ⟨fun hnone => absurd (hbase₁.symm.trans hnone) (by simp), ?_, ?_, ?_⟩
    · intro fr' hfr'
      rcases hmem fr' hfr' with rfl | hold
      · exact hstat
      · exact h.stat fr' hold
    · intro fr' hfr'
      show ∃ c₁, (c :: s.added).find? _ = some c₁ ∧ _ ∧
        fs.place maxDirPath (dir₁.normalizedBase.getD []) dir₁.indexFile c₁ = some fr'.fullPath
      rw [hbase₁, hindex₁]
      rcases hmem fr' hfr' with rfl | hold
      · exact ⟨c, List.find?_cons_of_pos (bstrcmpEq_refl c.path), hpath, hto⟩
      · obtain ⟨c', hlast, hpath', hto'⟩ := hlocated fr' hold
        refine ⟨c', ?_, hpath', hto'⟩
        rw [List.find?_cons_of_neg, hlast]
        intro hkey
        refine hmiss ⟨fr', hold, ?_⟩
        rw [FileRecord.matches, hpath']
        exact bstrcmpEq_symm hkey
    · refine List.forall_mem_cons.mpr ⟨?_, h.transparent⟩
      show some fr.fullPath = _
      rw [halone, hto]

/-- A call from a state in which the records are where they should be. -/
theorem kept_step (h : Kept fs maxDirPath s) (hok : s.SamePlace c)
    (hstep : Served.step fs maxDirPath s c = some s') : Kept fs maxDirPath s' := by
  have halone := resolveFile_emptied fs maxDirPath s.dir c
  rcases lazyNormalizeBase_cases (fs.sys c) s.dir with ⟨base, hlazy, hbase⟩ | ⟨hlazy, hbase⟩
  · rw [hlazy] at halone
    -- the base is what it has been since there is anything in the cache
    have hlocated : Located fs maxDirPath base s := by
      rcases hbase with hnone | hsome
      · intro fr hfr
        rw [h.base hnone] at hfr
        exact absurd hfr List.not_mem_nil
      · have hkept := h.located
        rw [hsome] at hkept
        exact hkept
    rcases @cacheCheck_spec fs { s.dir with normalizedBase := some base } c h.stat with
      ⟨i, fr, dir₁, hcheck, ⟨old, hold, hmatch, hsame⟩, hrecords⟩ | ⟨dir₁, hcheck, hmiss, hrecords⟩
    · exact kept_hit h hlocated hok hlazy hcheck hold hmatch hsame hrecords halone hstep
    · exact kept_miss h hlocated hlazy hcheck hmiss hrecords halone hstep
  · -- the base cannot be normalised, so nothing is looked up
    rw [hlazy] at halone
    have hnone : s.dir.resolveFile (fs.sys c) maxDirPath c.pattern c.path =
        (none, { s.dir with normalizedBase := some s.dir.base }) := by
      rw [Dir.resolveFile, hlazy]
    have hempty := h.base hbase
    rw [Served.step, hnone] at hstep
    obtain rfl := Option.some.inj hstep
    refine ⟨fun _ => hempty, h.stat, fun fr hfr => ?_, ?_⟩
    · have hfr : fr ∈ s.dir.records := hfr
      rw [hempty] at hfr
      exact absurd hfr List.not_mem_nil
    · exact List.forall_mem_cons.mpr ⟨halone.symm, h.transparent⟩

end

/-- **The cache is transparent**, in every run of calls in which the cache's record for a
path, if it has one, was put there for the same path and the same prefix, whatever
else has been asked for or evicted in between. -/
theorem transparent_of_samePlace {fs : FileSystem} {maxDirPath : ℕ} {base indexFile : List Byte}
    {dir : Dir} (hdir : Dir.create maxDirPath base indexFile = some dir) (calls : List DirCall)
    (h : Runs.Along (Served.step fs maxDirPath) Served.SamePlace (.start dir) calls) :
    Runs.Always (Served.step fs maxDirPath) Served.Transparent (.start dir) calls := by
  have hkept : Runs.Always (Served.step fs maxDirPath) (Kept fs maxDirPath) (.start dir) calls :=
    Runs.always_of_along (fun _ _ _ h hok hstep => kept_step h hok hstep) (kept_start hdir) h
  exact hkept.mono fun _ hs => hs.transparent

/-- The directory `d/` in the root. -/
def sharedDir : Dir where
  base := bytes "d/"
  normalizedBase := none
  indexFile := bytes "index.html"
  cache := .replicate 32 ⟨intMax, none⟩
  base_relative := by decide
  base_ends := by decide
  base_cstr := by decide

/-- It has the files `/d/x` and `/d/b/x`. -/
def twoFiles : FileSystem where
  realpath p := some (LexPath.render (chr '/') (names [] p))
  stat p := if p = bytes "/d/x" ∨ p = bytes "/d/b/x" then some ⟨false, 0, 6⟩ else none
  opens _ := true

/-- One route, asked for a file twice. -/
theorem transparent_of_samePlace_again :
    Runs.Always (Served.step twoFiles 256) Served.Transparent (.start sharedDir)
      [⟨bytes "/a/", bytes "/a/b/x", 0, []⟩, ⟨bytes "/a/", bytes "/a/b/x", 60, []⟩] := by
  have hdir : Dir.create 256 (bytes "d/") (bytes "index.html") = some sharedDir := rfl
  exact transparent_of_samePlace hdir _ (by decide)

/-- Two routes to the directory, `/a/` on one host and `/a/b/` on another: the second is
served the file of the first. -/
theorem not_transparent_shared :
    Dir.create 256 (bytes "d/") (bytes "index.html") = some sharedDir ∧
      ¬Runs.Always (Served.step twoFiles 256) Served.Transparent (.start sharedDir)
        [⟨bytes "/a/", bytes "/a/b/x", 0, []⟩, ⟨bytes "/a/b/", bytes "/a/b/x", 0, []⟩] :=
  ⟨rfl, by decide⟩

end Mongrel2

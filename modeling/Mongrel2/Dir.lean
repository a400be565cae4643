/-
Serving files from a directory (`dir.c`, `cache.c`).

* `Dir.resolveFile` — `Dir_resolve_file`, with the cache and the base that is
  normalised at the first request;
* `resolveFile_inside_iff` — a file that is found and not cached lies in the base
  exactly if its path does not have, in the place of the base's last name, a longer
  name that starts with it;
* `targetPath_iff` — the path that is looked up consists of the base and of what comes
  behind the route's prefix exactly if the prefix ends in a slash or is the path.

Design notes: `Sys` answers the system calls of one request.  `realpath` is assumed to
answer with the lexical normal form when it answers at all (`Sys.Lexical`).  A record
is in at most one slot of the cache, so a slot stands for a pointer to its record.
The texts of the response header are left out.
-/
import Mongrel2.HttpParser
import Mongrel2.LexPath
import Mathlib.Data.List.TakeWhile

namespace Mongrel2

open ByteStream HttpParser LexPath

/-! ### Files and the cache -/

/-- What `stat` reports. -/
structure Stat where
  isDir : Bool
  mtime : ℤ
  size : ℤ
  deriving DecidableEq

/-- What the calls of one request find. -/
structure Sys where
  realpath : List Byte → Option (List Byte)
  stat : List Byte → Option Stat
  /-- `open`, and the formatting of the header -/
  opens : List Byte → Bool
  time : ℤ
  /-- the memory behind the request's path -/
  heap : List Byte

/-- A `FileRecord`. -/
structure FileRecord where
  isDir : Bool
  users : ℤ
  loaded : ℤ
  requestPath : Option (List Byte)
  fullPath : List Byte
  sb : Stat
  deriving DecidableEq

/-- The bytes of a C string. -/
def cstr (xs : List Byte) : List Byte := xs.takeWhile (· ≠ 0)

theorem zero_not_mem_cstr (xs : List Byte) : 0 ∉ cstr xs := by
  intro h
  have hmem : (0 : Byte) ∈ xs.takeWhile fun c => decide (c ≠ 0) := h
  exact absurd (List.mem_takeWhile_imp hmem) (by simp)

/-- `bstrcmp` answers 0: it stops at a NUL. -/
def bstrcmpEq (a b : List Byte) : Bool :=
  a = b || (a.contains 0 && b.contains 0 && cstr a = cstr b)

/-- An entry of a `Cache`. -/
structure Slot where
  tag : ℕ
  data : Option FileRecord

def intMax : ℕ := 2 ^ 31 - 1

/-- `tag--`, down to 0. -/
def Slot.decay (s : Slot) : Slot := { s with tag := s.tag - 1 }

/-- `Cache_lookup`: the slot of the object, and the object. -/
def cacheLookup (p : FileRecord → Bool) : List Slot → Option (ℕ × FileRecord) × List Slot
  | [] => (none, [])
  | s :: slots =>
    match s.data.filter p with
    | some fr => (some (0, fr), { s with tag := intMax } :: slots.map Slot.decay)
    | none =>
      let (found, slots) := cacheLookup p slots
      (found.map fun (i, fr) => (i + 1, fr), s.decay :: slots)

/-- `Cache_add`: into the first of the slots with the least tag. -/
def cacheAdd (fr : FileRecord) (slots : List Slot) : List Slot :=
  (slots.map Slot.decay).set (slots.findIdx fun s => slots.all (s.tag ≤ ·.tag)) ⟨intMax, some fr⟩

/-- `Dir_find_file`. -/
def findFile (sys : Sys) (path : List Byte) : Option FileRecord :=
  match sys.stat path with
  | none => none
  | some sb =>
    if sb.isDir then some ⟨true, 1, 0, none, path, sb⟩
    else if sys.opens path then some ⟨false, 1, sys.time, none, path, sb⟩
    else none

/-! ### The directory -/

/-- A `Dir` as `Dir_create` lets it be built. -/
structure Dir where
  base : List Byte
  normalizedBase : Option (List Byte)
  indexFile : List Byte
  cache : List Slot
  base_relative : base.head? ≠ some (chr '/')
  base_ends : base.getLast? = some (chr '/')
  base_cstr : 0 ∉ base

/-- `Dir_create`, for `base` a C string and `maxDirPath` the limit. -/
def Dir.create (maxDirPath : ℕ) (base indexFile : List Byte) : Option Dir :=
  if h : (cstr base).length < maxDirPath ∧ (cstr base).head? ≠ some (chr '/') ∧
      (cstr base).getLast? = some (chr '/') then
    some ⟨cstr base, none, cstr indexFile, .replicate 32 ⟨intMax, none⟩, h.2.1, h.2.2,
      zero_not_mem_cstr base⟩
  else none

/-- The prefix of a route's pattern. -/
def routePrefix (pattern : List Byte) : List Byte :=
  match pattern.findIdx? (· == chr '(') with
  | some (paren + 1) => pattern.take (paren + 1)
  | _ => pattern

/-- The path that is put together from the base and the request. -/
def targetPath (base pattern path indexFile heap : List Byte) : List Byte :=
  -- `path->data + blength(prefix) - 1`, which may lie behind the path
  let tail := cstr ((path ++ 0 :: heap).drop ((routePrefix pattern).length - 1))
  if path.getLast? = some (chr '/') then cstr base ++ tail ++ cstr indexFile
  else if routePrefix pattern = path then cstr base ++ cstr path
  else cstr base ++ tail

/-- A record that was found for this request, or was in the cache. -/
inductive Resolved
  | fresh (file : FileRecord)
  | cached (file : FileRecord)
  deriving DecidableEq

namespace Dir

variable (sys : Sys) (maxDirPath : ℕ) (dir : Dir)

/-- `Dir_lazy_normalize_base`.  A base that cannot be normalised stays as it is, and
is not tried again. -/
def lazyNormalizeBase : Bool × Dir :=
  match dir.normalizedBase with
  | some _ => (true, dir)
  | none =>
    match sys.realpath dir.base with
    | some base => (true, { dir with normalizedBase := some base })
    | none => (false, { dir with normalizedBase := some dir.base })

/-- `FileRecord_cache_check`. -/
def cacheCheck (path : List Byte) : Option (ℕ × FileRecord) × Dir :=
  let matching (fr : FileRecord) : Bool := fr.requestPath.any (bstrcmpEq · path)
  let (found, slots) := cacheLookup matching dir.cache
  match found with
  | none => (none, { dir with cache := slots })
  | some (i, fr) =>
    if 10 < sys.time - fr.loaded then
      match sys.stat fr.fullPath with
      | some sb =>
        if fr.sb.mtime ≠ sb.mtime ∨ fr.sb.size ≠ sb.size then
          (none, { dir with cache := slots.set i ⟨0, none⟩ })
        else
          let fr := { fr with loaded := sys.time }
          (some (i, fr), { dir with cache := slots.set i ⟨intMax, some fr⟩ })
      | none => (none, { dir with cache := slots.set i ⟨0, none⟩ })
    else (some (i, fr), { dir with cache := slots })

/-- `Dir_resolve_file`. -/
def resolveFile (pattern path : List Byte) : Option Resolved × Dir :=
  match dir.lazyNormalizeBase sys with
  | (false, dir) => (none, dir)
  | (true, dir) =>
    match dir.cacheCheck sys path with
    | (some (i, fr), dir) =>
      let fr := { fr with users := fr.users + 1 }
      (some (.cached fr), { dir with cache := dir.cache.set i ⟨intMax, some fr⟩ })
    | (none, dir) =>
      if (routePrefix pattern).head? ≠ some (chr '/') then (none, dir)
      else if maxDirPath ≤ (routePrefix pattern).length then (none, dir)
      else
        let base := dir.normalizedBase.getD []
        match sys.realpath (targetPath base pattern path dir.indexFile sys.heap) with
        | none => (none, dir)
        | some target =>
          -- `bstrncmp` up to the length of the base
          if !base.isPrefixOf target then (none, dir)
          else
            match findFile sys target with
            | none => (none, dir)
            | some fr =>
              let fr := { fr with users := fr.users + 1, requestPath := some path }
              (some (.fresh fr), { dir with cache := cacheAdd fr dir.cache })

end Dir

/-! ### What is found lies in the base -/

/-- The names a path leads to for a process in the directory `cwd`. -/
def names (cwd : List (List Byte)) (path : List Byte) : List (List Byte) :=
  resolve (chr '/') (chr '.') cwd path

/-- `realpath` answers with the lexical normal form, or fails. -/
def Sys.Lexical (cwd : List (List Byte)) (sys : Sys) : Prop :=
  ∀ path answer, sys.realpath path = some answer → answer = render (chr '/') (names cwd path)

/-- The file is the base or lies below it. -/
def Inside (cwd : List (List Byte)) (base file : List Byte) : Prop :=
  names cwd base <+: names cwd file

instance (cwd : List (List Byte)) (base file : List Byte) : Decidable (Inside cwd base file) :=
  inferInstanceAs (Decidable (names cwd base <+: names cwd file))

namespace Dir

/-- The base as it is used: not yet normalised, normalised, or given up. -/
def Valid (cwd : List (List Byte)) (dir : Dir) : Prop :=
  dir.normalizedBase = none ∨ dir.normalizedBase = some (render (chr '/') (names cwd dir.base)) ∨
    dir.normalizedBase = some dir.base

/-- The path of a request before it is normalised, in the normalised base. -/
def target (cwd : List (List Byte)) (dir : Dir) (pattern path heap : List Byte) : List Byte :=
  targetPath (render (chr '/') (names cwd dir.base)) pattern path dir.indexFile heap

end Dir

section

variable {cwd : List (List Byte)} {sys : Sys} {maxDirPath : ℕ} {dir dir' : Dir}
  {pattern path : List Byte} {file : FileRecord}

theorem valid_create {base indexFile : List Byte}
    (h : Dir.create maxDirPath base indexFile = some dir) : dir.Valid cwd := by
  unfold Dir.create at h
  split at h
  · obtain rfl := Option.some.inj h
    exact .inl rfl
  · exact absurd h (by simp)

theorem cacheCheck_frame (sys : Sys) (dir : Dir) (path : List Byte) :
    (dir.cacheCheck sys path).2.normalizedBase = dir.normalizedBase ∧
      (dir.cacheCheck sys path).2.base = dir.base ∧
      (dir.cacheCheck sys path).2.indexFile = dir.indexFile := by
  unfold Dir.cacheCheck
  dsimp only
  split
  · exact ⟨rfl, rfl, rfl⟩
  · split_ifs
    · split
      · split_ifs <;> exact ⟨rfl, rfl, rfl⟩
      · exact ⟨rfl, rfl, rfl⟩
    · exact ⟨rfl, rfl, rfl⟩

/-- After the base has been looked up it is normalised, or given up for good. -/
theorem lazyNormalizeBase_spec (hlex : sys.Lexical cwd) (h : dir.Valid cwd) {ok : Bool}
    (hrun : dir.lazyNormalizeBase sys = (ok, dir')) :
    dir'.base = dir.base ∧ dir'.indexFile = dir.indexFile ∧
      (dir'.normalizedBase = some (render (chr '/') (names cwd dir.base)) ∨
        dir'.normalizedBase = some dir.base) := by
  unfold Dir.lazyNormalizeBase at hrun
  split at hrun
  case h_1 nb hnb =>
    obtain ⟨-, rfl⟩ := Prod.mk.inj hrun
    refine ⟨rfl, rfl, h.resolve_left fun hnone => ?_⟩
    rw [hnb] at hnone
    exact absurd hnone (by simp)
  case h_2 =>
    split at hrun
    case h_1 answer hanswer =>
      obtain ⟨-, rfl⟩ := Prod.mk.inj hrun
      exact ⟨rfl, rfl, .inl (congrArg some (hlex _ _ hanswer))⟩
    case h_2 =>
      obtain ⟨-, rfl⟩ := Prod.mk.inj hrun
      exact ⟨rfl, rfl, .inr rfl⟩

theorem resolveFile_frame (sys : Sys) (maxDirPath : ℕ) (dir : Dir) (pattern path : List Byte) :
    (dir.resolveFile sys maxDirPath pattern path).2.normalizedBase =
        (dir.lazyNormalizeBase sys).2.normalizedBase ∧
      (dir.resolveFile sys maxDirPath pattern path).2.base = (dir.lazyNormalizeBase sys).2.base := by
  unfold Dir.resolveFile
  split
  case h_1 hlazy =>
    rw [hlazy]
    exact ⟨rfl, rfl⟩
  case h_2 dir' hlazy =>
    rw [hlazy]
    have hframe := cacheCheck_frame sys dir' path
    split
    case h_1 hcheck =>
      rw [hcheck] at hframe
      exact ⟨hframe.1, hframe.2.1⟩
    case h_2 dir₁ hcheck =>
      rw [hcheck] at hframe
      have hsame : dir₁.normalizedBase = dir'.normalizedBase ∧ dir₁.base = dir'.base :=
        ⟨hframe.1, hframe.2.1⟩
      split_ifs
      · exact hsame
      · exact hsame
      · dsimp only
        split
        · exact hsame
        · split_ifs
          · exact hsame
          · split <;> exact hsame

/-- Whatever is requested, the base stays one of the three. -/
theorem valid_resolveFile (hlex : sys.Lexical cwd) (h : dir.Valid cwd) (maxDirPath : ℕ)
    (pattern path : List Byte) : (dir.resolveFile sys maxDirPath pattern path).2.Valid cwd := by
  obtain ⟨hbase, -, hnormalized⟩ :=
    lazyNormalizeBase_spec hlex h (Prod.mk.eta (p := dir.lazyNormalizeBase sys)).symm
  obtain ⟨hframe, hframe'⟩ := resolveFile_frame sys maxDirPath dir pattern path
  unfold Dir.Valid
  rw [hframe, hframe', hbase]
  exact .inr hnormalized

theorem findFile_fullPath {target : List Byte} (h : findFile sys target = some file) :
    file.fullPath = target := by
  unfold findFile at h
  split at h
  · exact absurd h (by simp)
  · split_ifs at h
    · obtain rfl := Option.some.inj h
      rfl
    · obtain rfl := Option.some.inj h
      rfl

/-- A record that is found now has the normalised path of the request, which starts
with the base. -/
theorem resolveFile_fresh
    (h : (dir.resolveFile sys maxDirPath pattern path).1 = some (.fresh file)) :
    ∃ dir', dir.lazyNormalizeBase sys = (true, dir') ∧
      sys.realpath (targetPath (dir'.normalizedBase.getD []) pattern path dir'.indexFile sys.heap) =
        some file.fullPath ∧
      dir'.normalizedBase.getD [] <+: file.fullPath := by
  unfold Dir.resolveFile at h
  split at h
  case h_1 => exact absurd h (by simp)
  case h_2 dir' hlazy =>
    refine ⟨dir', hlazy, ?_⟩
    have hframe := cacheCheck_frame sys dir' path
    split at h
    case h_1 => exact absurd h (by simp)
    case h_2 dir₁ hcheck =>
      rw [hcheck] at hframe
      obtain ⟨hbase, -, hindex⟩ := hframe
      dsimp only at hbase hindex
      rw [hbase, hindex] at h
      split_ifs at h
      dsimp only at h
      split at h
      case h_1 => exact absurd h (by simp)
      case h_2 answer hanswer =>
        split at h
        case isTrue => exact absurd h (by simp)
        case isFalse hstart =>
          split at h
          case h_1 => exact absurd h (by simp)
          case h_2 found hfound =>
            have hfile := Resolved.fresh.inj (Option.some.inj h)
            have hpath : file.fullPath = answer := by
              rw [← hfile]
              show found.fullPath = answer
              exact findFile_fullPath hfound
            rw [hpath]
            refine ⟨hanswer, ?_⟩
            simpa using hstart

/-- **What is found lies in the base**, unless its path has a longer name in the place
of the base's last one: for any cache, and whether the base has been normalised before
or not. -/
theorem resolveFile_inside_iff (hcwd : Normal (chr '/') (chr '.') cwd) (hlex : sys.Lexical cwd)
    (hdir : dir.Valid cwd)
    (h : (dir.resolveFile sys maxDirPath pattern path).1 = some (.fresh file)) :
    Inside cwd dir.base file.fullPath ↔
      ¬ Shadows (names cwd dir.base) (names cwd (dir.target cwd pattern path sys.heap)) := by
  obtain ⟨dir', hlazy, hreal, hstart⟩ := resolveFile_fresh h
  obtain ⟨-, hindex, hbase⟩ := lazyNormalizeBase_spec hlex hdir hlazy
  have hfull := hlex _ _ hreal
  have hnormal : ∀ p, Normal (chr '/') (chr '.') (names cwd p) := normal_resolve hcwd
  rcases hbase with hbase | hbase
  · rw [hbase, Option.getD_some] at hreal hstart hfull
    rw [hindex] at hfull
    rw [hfull, render_prefix_iff (hnormal _) (hnormal _)] at hstart
    have hround : names cwd file.fullPath =
        names cwd (dir.target cwd pattern path sys.heap) := by
      rw [hfull]
      exact resolve_render (hnormal _) cwd
    rw [Inside, hround]
    exact ⟨fun hin hsh => hsh.not_isPrefix hin, hstart.resolve_right⟩
  · -- a relative path is no start of an absolute one
    rw [hbase, Option.getD_some] at hstart hfull
    have hhead : file.fullPath.head? = some (chr '/') := by
      rw [hfull]
      exact head?_render ..
    obtain ⟨rest, hrest⟩ := hstart
    have hne : dir.base ≠ [] := fun hnil => by
      have hends := dir.base_ends
      rw [hnil] at hends
      exact absurd hends (by simp)
    obtain ⟨c, base, hcons⟩ := List.exists_cons_of_ne_nil hne
    refine absurd ?_ dir.base_relative
    rw [← hrest, hcons] at hhead
    rw [hcons]
    exact hhead

end

/-! ### A sibling -/

/-- The directory of the tests, in the root. -/
def testsDir : Dir where
  base := bytes "tests/"
  normalizedBase := none
  indexFile := bytes "sample.html"
  cache := .replicate 32 ⟨intMax, none⟩
  base_relative := by decide
  base_ends := by decide
  base_cstr := by decide

/-- A system in which only the file `path` exists; the process is in the root. -/
def oneFile (path : List Byte) : Sys where
  realpath p := some (render (chr '/') (names [] p))
  stat p := if p = path then some ⟨false, 0, 6⟩ else none
  opens _ := true
  time := 0
  heap := []

theorem lexical_oneFile (path : List Byte) : (oneFile path).Lexical [] := by
  intro p answer h
  exact (Option.some.inj h).symm

/-- The record of that file, after the request `path`. -/
def oneRecord (file path : List Byte) : FileRecord := ⟨false, 2, 0, some path, file, ⟨false, 0, 6⟩⟩

theorem resolveFile_inside_iff_sample :
    (testsDir.resolveFile (oneFile (bytes "/tests/sample.json")) 256 (bytes "/")
        (bytes "/sample.json")).1 =
      some (.fresh (oneRecord (bytes "/tests/sample.json") (bytes "/sample.json"))) ∧
      Inside [] (bytes "tests/") (bytes "/tests/sample.json") := by
  have hfound : (testsDir.resolveFile (oneFile (bytes "/tests/sample.json")) 256 (bytes "/")
      (bytes "/sample.json")).1 =
        some (.fresh (oneRecord (bytes "/tests/sample.json") (bytes "/sample.json"))) := by
    decide
  have hroot : Normal (chr '/') (chr '.') [] := fun _ hname => absurd hname List.not_mem_nil
  exact ⟨hfound, (resolveFile_inside_iff hroot (lexical_oneFile _) (.inl rfl) hfound).mpr (by decide)⟩

/-- The sibling `tests2` of the base is served. -/
theorem not_inside_sibling :
    ¬ ∀ file, (testsDir.resolveFile (oneFile (bytes "/tests2/secret")) 256 (bytes "/")
        (bytes "/../tests2/secret")).1 = some (.fresh file) →
      Inside [] (bytes "tests/") file.fullPath := by
  intro h
  have hinside := h (oneRecord (bytes "/tests2/secret") (bytes "/../tests2/secret")) (by decide)
  have houtside : ¬ Inside [] (bytes "tests/") (bytes "/tests2/secret") := by decide
  exact houtside hinside

/-! ### Where a path is looked up -/

/-- Where the path of a request should be looked up, for the prefix of its route. -/
def mappedPath (base pre path indexFile : List Byte) : List Byte :=
  if path.getLast? = some (chr '/') then base ++ chr '/' :: path.drop pre.length ++ indexFile
  else if pre = path then base ++ path
  else base ++ chr '/' :: path.drop pre.length

theorem cstr_append_zero {xs : List Byte} (h : 0 ∉ xs) (ys : List Byte) :
    cstr (xs ++ 0 :: ys) = xs := by
  have hall : ∀ c ∈ xs, (decide (c ≠ 0)) = true := fun c hc =>
    decide_eq_true fun hzero => h (hzero ▸ hc)
  rw [cstr, List.takeWhile_append_of_pos hall]
  simp

theorem cstr_of_notMem {xs : List Byte} (h : 0 ∉ xs) : cstr xs = xs :=
  List.takeWhile_eq_self_iff.mpr fun _ hc => decide_eq_true fun hzero => h (hzero ▸ hc)

section

variable {base indexFile path pattern heap : List Byte}

/-- The code keeps the last byte of the prefix, whatever it is. -/
theorem targetPath_eq {pre rest : List Byte} {c : Byte} (hbase : 0 ∉ base) (hindex : 0 ∉ indexFile)
    (hpre : routePrefix pattern = pre ++ [c]) (hpath : path = pre ++ c :: rest) (h0 : 0 ∉ path) :
    targetPath base pattern path indexFile heap =
      if path.getLast? = some (chr '/') then base ++ c :: rest ++ indexFile
      else if rest = [] then base ++ path
      else base ++ c :: rest := by
  have htail : cstr ((path ++ 0 :: heap).drop ((routePrefix pattern).length - 1)) = c :: rest := by
    have hlen : (routePrefix pattern).length - 1 = pre.length := by simp [hpre]
    have hrest : 0 ∉ c :: rest := fun h => h0 (hpath ▸ List.mem_append_right _ h)
    rw [hlen, hpath, List.append_assoc, List.drop_left]
    exact cstr_append_zero hrest heap
  have hwhole : routePrefix pattern = path ↔ rest = [] := by
    rw [hpre, hpath, List.append_cancel_left_eq, List.cons.injEq, eq_comm (b := rest)]
    exact and_iff_right rfl
  unfold targetPath
  simp only [htail, cstr_of_notMem hbase, cstr_of_notMem hindex, cstr_of_notMem h0, hwhole]

/-- **A request is looked up behind the base** under what its path has behind the prefix of
the route exactly if this prefix ends in a slash or is the whole path. -/
theorem targetPath_iff (hbase : 0 ∉ base) (hindex : 0 ∉ indexFile)
    (hslash : (routePrefix pattern).head? = some (chr '/')) (hstart : routePrefix pattern <+: path)
    (h0 : 0 ∉ path) :
    components (chr '/') (targetPath base pattern path indexFile heap) =
        components (chr '/') (mappedPath base (routePrefix pattern) path indexFile) ↔
      (routePrefix pattern).getLast? = some (chr '/') ∨ routePrefix pattern = path := by
  have hne : routePrefix pattern ≠ [] := fun h => by
    rw [h] at hslash
    exact absurd hslash (by simp)
  obtain ⟨pre, c, hpre⟩ := (List.eq_nil_or_concat' (routePrefix pattern)).resolve_left hne
  obtain ⟨rest, hrest⟩ := hstart
  have hpath : path = pre ++ c :: rest := by rw [← hrest, hpre, List.append_assoc]; rfl
  have hlast : (routePrefix pattern).getLast? = some c := by rw [hpre, List.getLast?_concat]
  have hdrop : path.drop (routePrefix pattern).length = rest := by rw [← hrest, List.drop_left]
  have hwhole : routePrefix pattern = path ↔ rest = [] := by
    rw [← hrest, List.self_eq_append_right]
  rw [targetPath_eq hbase hindex hpre hpath h0, mappedPath, hdrop, hlast, Option.some_inj]
  simp only [hwhole]
  by_cases hc : c = chr '/'
  · -- nothing but the prefix is cut off
    subst hc
    exact iff_of_true rfl (.inl rfl)
  by_cases hnil : rest = []
  · -- the prefix is the path, which does not end in a slash
    have hend : path.getLast? ≠ some (chr '/') := by
      rw [hpath, hnil, List.getLast?_concat]
      exact fun h => hc (Option.some.inj h)
    rw [if_neg hend, if_neg hend, if_pos hnil, if_pos hnil]
    exact iff_of_true rfl (.inr hnil)
  · -- the last byte of the prefix is one letter too many
    rw [if_neg hnil, if_neg hnil]
    refine iff_of_false (fun heq => ?_) (not_or.mpr ⟨hc, hnil⟩)
    have hletters := congrArg (fun names => names.flatten.length) heq
    simp only [flatten_components] at hletters
    split at hletters <;> simp [hc] at hletters

end

/-- A route that ends in a slash. -/
theorem targetPath_iff_slash :
    components (chr '/') (targetPath (bytes "/srv") (bytes "/docs/") (bytes "/docs/a/b")
        (bytes "index.html") []) = [bytes "srv", bytes "a", bytes "b"] := by
  have hmapped : components (chr '/') (mappedPath (bytes "/srv") (bytes "/docs/")
      (bytes "/docs/a/b") (bytes "index.html")) = [bytes "srv", bytes "a", bytes "b"] := by decide
  rw [← hmapped]
  exact (targetPath_iff (by decide) (by decide) (by decide) (by decide) (by decide)).mpr (.inl rfl)

/-- The route `/docs` serves what is beside the base. -/
theorem not_mapped_docs :
    ¬ ∀ base pattern path indexFile heap, 0 ∉ base → 0 ∉ indexFile → 0 ∉ path →
      (routePrefix pattern).head? = some (chr '/') → routePrefix pattern <+: path →
      components (chr '/') (targetPath base pattern path indexFile heap) =
        components (chr '/') (mappedPath base (routePrefix pattern) path indexFile) := by
  intro h
  have hdocs := h (bytes "/srv") (bytes "/docs") (bytes "/docs/a/b") (bytes "index.html") []
    (by decide) (by decide) (by decide) (by decide) (by decide)
  exact absurd hdocs (by decide)

end Mongrel2

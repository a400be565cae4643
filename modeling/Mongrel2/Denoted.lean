/-
Lookups in a file with references and in the file without them.

* `resolve_spec` — one step from a reference leads to a value that denotes the same;
* `GetDirect` — where a lookup takes no more than one step, or does not find what it is
  asked for in the end either;
* `get_denoted` — there the lookup finds what it finds without references;
* `serverSql_eq_iff`, `targetSql_eq_iff` — a row is the same exactly if the lookups of all
  of its columns are direct.
-/
import Mongrel2.FileRows
import Mongrel2.References

namespace Mongrel2

open ByteStream HttpParser

namespace M2sh

/-- A value with each reference in it replaced by what it finally denotes. -/
def Value.denoted (final : Pairs) (val : Value) : Value := val.subst (valueOf final)

/-- The same for every value of a tree. -/
def denotedPairs (final params : Pairs) : Pairs := substPairs (valueOf final) params

/-- Every reference in a value denotes something. -/
def Grounded (final : Pairs) (val : Value) : Prop := (val.denoted final).refs = []

/-! ### Parts of a value -/

section

variable {settings final params : Pairs} {val found : Value}

theorem search_denotedPairs (name : List Byte) :
    (denotedPairs final params).search name =
      (params.search name).map (Pair.subst (valueOf final)) := by
  rw [denotedPairs, substPairs_eq, Tst.search_map]

theorem traverse_denotedPairs :
    (denotedPairs final params).traverse = params.traverse.map (Pair.subst (valueOf final)) := by
  rw [denotedPairs, substPairs_eq, Tst.traverse_map]

theorem grounded_of_mem_values (h : refsPairs (denotedPairs final params) = []) {pair : Pair Value}
    (hpair : pair ∈ params.values) : Grounded final pair.value := by
  rw [denotedPairs, substPairs_eq, refsPairs_eq_nil_iff, Tst.values_map, List.forall_mem_map] at h
  exact h pair hpair

theorem grounded_of_mem_list {elements : List Value} (h : Grounded final (.list elements))
    (hval : val ∈ elements) : Grounded final val := by
  have helements : refsList (substList (valueOf final) elements) = [] := h
  rw [substList_eq, refsList_eq_nil_iff, List.forall_mem_map] at helements
  exact helements val hval

theorem denoted_cls (ident : List Byte) :
    (Value.cls ident params).denoted final = .cls ident (denotedPairs final params) := rfl

theorem denoted_list (elements : List Value) :
    (Value.list elements).denoted final = .list (elements.map (Value.denoted final)) := by
  rw [Value.denoted, Value.subst, substList_eq]
  rfl

theorem type_denoted (h : val.type ≠ .ref) : (val.denoted final).type = val.type := by
  rcases val with _ | _ | _ | _ | _ | _ | _ | _
  case ref => exact absurd rfl h
  all_goals rfl

theorem type_ne_ref_of_closed (h : val.refs = []) : val.type ≠ .ref := by
  rcases val with _ | _ | _ | _ | _ | _ | _ | _
  case ref => exact absurd h (by simp [Value.refs])
  all_goals exact fun htype => by cases htype

theorem resolve_of_type (h : val.type ≠ .ref) : val.resolve settings = some val := by
  rcases val with _ | _ | _ | _ | _ | _ | _ | _
  case ref => exact absurd rfl h
  all_goals rfl

/-- Without references there is nothing to resolve. -/
theorem resolve_closed (h : val.refs = []) : val.resolve settings = some val :=
  resolve_of_type (type_ne_ref_of_closed h)

theorem resolve_of_mem_traverse (h : refsPairs params = []) {pair : Pair Value}
    (hpair : pair ∈ params.traverse) : pair.value.resolve settings = some pair.value :=
  resolve_closed (refsPairs_eq_nil_iff.mp h pair (Tst.mem_traverse_iff.mp hpair))

theorem resolve_denoted (h : Grounded final val) :
    (val.denoted final).resolve final = some (val.denoted final) :=
  resolve_closed h

/-- **One step from a reference** leads to a value that denotes the same. -/
theorem resolve_spec (hfile : Replaced settings final) (h : Grounded final val) :
    ∃ found, val.resolve settings = some found ∧ found.denoted final = val.denoted final := by
  rcases val with _ | _ | _ | _ | _ | _ | _ | name
  case ref =>
    have hfinal : valueOf final name = (valueOf settings name).map (Value.denoted final) := by
      rw [hfile.eq, valueOf_subst, ← hfile.eq]
      rfl
    rcases hname : valueOf settings name with _ | found
    · have href : (Value.ref name).denoted final = .ref name := by
        rw [Value.denoted, Value.subst, hfinal, hname]
        rfl
      unfold Grounded at h
      rw [href] at h
      exact absurd h (by simp [Value.refs])
    · refine ⟨found, hname, ?_⟩
      rw [Value.denoted, Value.denoted, Value.subst, hfinal, hname]
      rfl
  all_goals exact ⟨_, rfl, rfl⟩

theorem denoted_of_resolve (hfile : Replaced settings final) (h : Grounded final val)
    (hfound : val.resolve settings = some found) : found.denoted final = val.denoted final := by
  obtain ⟨found', hfound', hdenoted⟩ := resolve_spec hfile h
  obtain rfl := Option.some.inj (hfound.symm.trans hfound')
  exact hdenoted

theorem Grounded.of_eq (h : Grounded final val) (heq : found.denoted final = val.denoted final) :
    Grounded final found := by
  unfold Grounded
  rw [heq]
  exact h

end

/-! ### Lookups -/

section

variable (settings final : Pairs)

/-- A parameter is found, or its reference leads to another one that leads to nothing of
this type either. -/
def GetDirect (params : Pairs) (name : List Byte) (type : ValueType) : Prop :=
  ∀ pair, params.search name = some pair →
    ∀ y, pair.value.resolve settings = some (.ref y) → (pair.value.denoted final).type ≠ type

/-- The same of every parameter of a row. -/
def ParamsDirect (params : Pairs) (names : List (String × ValueType)) : Prop :=
  ∀ p ∈ names, GetDirect settings final params (bytes p.1) p.2

end

section

variable {settings final params : Pairs} {name : List Byte} {type : ValueType}

/-- A lookup without references. -/
theorem get_final (hparams : ∀ pair ∈ params.values, Grounded final pair.value) :
    get final (denotedPairs final params) name type =
      (params.search name).bind fun pair =>
        if (pair.value.denoted final).type = type then some (pair.value.denoted final)
        else none := by
  unfold get
  rw [search_denotedPairs]
  rcases hsearch : params.search name with _ | pair
  · rfl
  · have hpair := hparams pair (Tst.mem_values_of_search hsearch)
    show (do
      let val ← (pair.value.denoted final).resolve final
      if val.type = type then some val else none) = _
    rw [resolve_denoted hpair]
    rfl

theorem closed_of_get_final (hparams : ∀ pair ∈ params.values, Grounded final pair.value)
    {val : Value} (h : get final (denotedPairs final params) name type = some val) :
    val.refs = [] := by
  rw [get_final hparams] at h
  obtain ⟨pair, hpair, h⟩ := Option.bind_eq_some_iff.mp h
  obtain ⟨-, h⟩ := Option.ite_none_right_eq_some.mp h
  obtain rfl := Option.some.inj h
  exact hparams pair (Tst.mem_values_of_search hpair)

/-- **A direct lookup** finds the same with references and without. -/
theorem get_denoted (hfile : Replaced settings final)
    (hparams : ∀ pair ∈ params.values, Grounded final pair.value) (htype : type ≠ .ref)
    (hdirect : GetDirect settings final params name type) :
    get final (denotedPairs final params) name type =
      (get settings params name type).map (Value.denoted final) := by
  rw [get_final hparams]
  unfold get
  rcases hsearch : params.search name with _ | pair
  · rfl
  obtain ⟨found, hfound, hdenoted⟩ :=
    resolve_spec hfile (hparams pair (Tst.mem_values_of_search hsearch))
  show (if (pair.value.denoted final).type = type then some (pair.value.denoted final) else none) =
    Option.map _ (do
      let val ← pair.value.resolve settings
      if val.type = type then some val else none)
  rw [hfound]
  show _ = Option.map _ (if found.type = type then some found else none)
  by_cases href : found.type = .ref
  · -- a reference to a reference
    obtain ⟨y, rfl⟩ : ∃ y, found = .ref y := by
      rcases found with _ | _ | _ | _ | _ | _ | _ | y
      case ref => exact ⟨y, rfl⟩
      all_goals cases href
    rw [if_neg (hdirect pair hsearch y hfound), href, if_neg htype.symm]
    rfl
  · rw [← hdenoted, type_denoted href]
    by_cases hfoundType : found.type = type
    · rw [if_pos hfoundType, if_pos hfoundType]
      rfl
    · rw [if_neg hfoundType, if_neg hfoundType]
      rfl

theorem getDirect_of (hparams : ∀ pair ∈ params.values, Grounded final pair.value)
    (htype : type ≠ .ref)
    (h : get final (denotedPairs final params) name type ≠ none →
      get settings params name type ≠ none) : GetDirect settings final params name type := by
  intro pair hsearch y hy hpair
  refine h ?_ ?_
  · rw [get_final hparams, hsearch, Option.bind_some, if_pos hpair]
    simp
  · refine Option.eq_none_iff_forall_ne_some.mpr fun val hval => ?_
    obtain ⟨⟨pair', hpair', hresolve⟩, hvalType⟩ := get_eq_some_iff.mp hval
    obtain rfl := Option.some.inj (hsearch.symm.trans hpair')
    obtain rfl := Option.some.inj (hy.symm.trans hresolve)
    exact htype hvalType.symm

/-- A direct lookup of a hash, with references and without. -/
theorem get_hash_cases (hfile : Replaced settings final)
    (hparams : ∀ pair ∈ params.values, Grounded final pair.value)
    (hdirect : GetDirect settings final params name .hash) :
    get settings params name .hash = none ∧
        get final (denotedPairs final params) name .hash = none ∨
      ∃ set, get settings params name .hash = some (.hash set) ∧
        get final (denotedPairs final params) name .hash = some (.hash (denotedPairs final set)) ∧
        ∀ pair ∈ set.values, Grounded final pair.value := by
  have hget := get_denoted hfile hparams (by decide) hdirect
  rcases hset : get settings params name .hash with _ | set
  · rw [hset, Option.map_none] at hget
    exact .inl ⟨rfl, hget⟩
  · obtain ⟨set, rfl⟩ := exists_hash_of_get hset
    rw [hset, Option.map_some] at hget
    have hclosed : refsPairs (denotedPairs final set) = [] := closed_of_get_final hparams hget
    exact .inr ⟨set, rfl, hget, fun _ => grounded_of_mem_values hclosed⟩

/-- A direct lookup of a list, with references and without. -/
theorem get_list_cases (hfile : Replaced settings final)
    (hparams : ∀ pair ∈ params.values, Grounded final pair.value)
    (hdirect : GetDirect settings final params name .list) :
    get settings params name .list = none ∧
        get final (denotedPairs final params) name .list = none ∨
      ∃ elements, get settings params name .list = some (.list elements) ∧
        get final (denotedPairs final params) name .list =
          some (.list (elements.map (Value.denoted final))) ∧
        ∀ val ∈ elements, Grounded final val := by
  have hget := get_denoted hfile hparams (by decide) hdirect
  rcases hlist : get settings params name .list with _ | elements
  · rw [hlist, Option.map_none] at hget
    exact .inl ⟨rfl, hget⟩
  · obtain ⟨elements, rfl⟩ := exists_list_of_get hlist
    rw [hlist, Option.map_some] at hget
    have hground : Grounded final (.list elements) := closed_of_get_final hparams hget
    rw [denoted_list] at hget
    exact .inr ⟨elements, rfl, hget, fun _ => grounded_of_mem_list hground⟩

/-- A hash is found only without references if its lookup is not direct. -/
theorem get_hash_of_not_direct (hparams : ∀ pair ∈ params.values, Grounded final pair.value)
    (hdirect : ¬ GetDirect settings final params name .hash) :
    get settings params name .hash = none ∧
      ∃ set, get final (denotedPairs final params) name .hash = some (.hash set) ∧
        refsPairs set = [] := by
  constructor
  · by_contra h
    exact hdirect (getDirect_of hparams (by decide) fun _ => h)
  · rcases hset : get final (denotedPairs final params) name .hash with _ | set
    · exact absurd (getDirect_of hparams (by decide) fun h => absurd hset h) hdirect
    · obtain ⟨set, rfl⟩ := exists_hash_of_get hset
      exact ⟨set, rfl, closed_of_get_final hparams hset⟩

/-- The types that are asked for as a text. -/
def IsText (type : ValueType) : Prop := type = .qstring ∨ type = .number

theorem IsText.ne_ref (h : IsText type) : type ≠ .ref := by
  rcases h with rfl | rfl <;> decide

theorem exists_string_of_get (htype : IsText type) {val : Value}
    (h : get settings params name type = some val) : ∃ data, val.string = some data := by
  have hval := type_of_get h
  rcases val with data | data | data | _ | _ | _ | data | data
  case cls | list | hash =>
    rcases htype with rfl | rfl
    · cases hval
    · cases hval
  all_goals exact ⟨data, rfl⟩

/-- **A text is the same** with references and without exactly if the lookup is direct. -/
theorem str_eq_iff (hfile : Replaced settings final)
    (hparams : ∀ pair ∈ params.values, Grounded final pair.value) (htype : IsText type) :
    str settings params name type = str final (denotedPairs final params) name type ↔
      GetDirect settings final params name type := by
  refine ⟨fun h => getDirect_of hparams htype.ne_ref fun hfinal hnone => ?_, fun hdirect => ?_⟩
  · obtain ⟨val, hval⟩ := Option.ne_none_iff_exists'.mp hfinal
    obtain ⟨data, hdata⟩ := exists_string_of_get htype hval
    unfold str at h
    rw [hnone, hval, Option.bind_some, hdata] at h
    exact absurd h (by simp)
  · unfold str
    rw [get_denoted hfile hparams htype.ne_ref hdirect]
    rcases hget : get settings params name type with _ | val
    · rfl
    · obtain ⟨data, hdata⟩ := exists_string_of_get htype hget
      have hval : val.denoted final = val :=
        subst_token hdata (by rw [type_of_get hget]; exact htype.ne_ref)
      rw [Option.map_some, Option.bind_some, Option.bind_some, hval]

theorem strs_eq_iff (hfile : Replaced settings final)
    (hparams : ∀ pair ∈ params.values, Grounded final pair.value)
    {names : List (String × ValueType)} (hnames : ∀ p ∈ names, IsText p.2) :
    (∀ p ∈ names, str settings params (bytes p.1) p.2 =
        str final (denotedPairs final params) (bytes p.1) p.2) ↔
      ParamsDirect settings final params names :=
  forall₂_congr fun p hp => str_eq_iff hfile hparams (hnames p hp)

/-! ### Rows -/

theorem serverSql_eq_iff (hfile : Replaced settings final)
    (hparams : ∀ pair ∈ params.values, Grounded final pair.value) :
    serverSql settings params = serverSql final (denotedPairs final params) ↔
      ParamsDirect settings final params serverParams := by
  rw [← strs_eq_iff hfile hparams (by simp [serverParams, IsText])]
  simp [serverSql, serverParams]

/-- The parameters that a class has in its row as the target of a route. -/
def targetParams (ident : List Byte) : List (String × ValueType) :=
  let type := ident.map tolower
  if type = bytes "dir" then dirParams
  else if type = bytes "proxy" then proxyParams
  else if type = bytes "handler" then handlerParams
  else []

theorem targetSql_eq_none_iff (ident : List Byte) :
    targetSql settings ident params = none ↔ targetParams ident = [] := by
  unfold targetSql targetParams
  dsimp only
  split_ifs <;> simp [dirParams, proxyParams, handlerParams]

theorem targetSql_eq_iff (hfile : Replaced settings final)
    (hparams : ∀ pair ∈ params.values, Grounded final pair.value) (ident : List Byte) :
    targetSql settings ident params = targetSql final ident (denotedPairs final params) ↔
      ParamsDirect settings final params (targetParams ident) := by
  unfold targetSql targetParams
  dsimp only
  split_ifs
  · rw [← strs_eq_iff hfile hparams (by simp [dirParams, IsText])]
    simp [dirSql, dirParams]
  · rw [← strs_eq_iff hfile hparams (by simp [proxyParams, IsText])]
    simp [proxySql, proxyParams]
  · rw [← strs_eq_iff hfile hparams (by simp [handlerParams, IsText])]
    simp [handlerSql, handlerParams]
  · simp [ParamsDirect]

end

end M2sh

end Mongrel2

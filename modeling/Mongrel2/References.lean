/-
The references of a configuration file, and what they finally denote.

A variable may be set to another one, to a list or a class with other variables in it,
and so on.

* `Value.refs`, `refsPairs` — the references of a value and of a file;
* `Value.subst`, `substPairs` — they are replaced;
* `expand` — the file in which every reference was replaced, round by round;
* `expand_closed_iff` — no reference is left after some round exactly if each of them
  names a variable and the variables do not refer to each other in a cycle;
* `replaced_expand` — then a reference was replaced by what its variable holds in the end.

Design notes: this is what references are for, and nothing that the code does.
-/
import Mongrel2.Ast
import Mongrel2.TstMap

namespace Mongrel2

open ByteStream HttpParser

/-! ### Trees with other values -/

namespace Tst

variable {α β : Type*}

/-- A tree of the same keys. -/
def map (f : α → β) : Tst α → Tst β
  | nil => nil
  | node c low equal high v => node c (low.map f) (equal.map f) (high.map f) (v.map f)

theorem search_map (f : α → β) (t : Tst α) (s : List Byte) :
    (t.map f).search s = (t.search s).map f := by
  induction t generalizing s with
  | nil => rfl
  | node c low equal high v ihlow ihequal ihhigh =>
    rcases s with _ | ⟨x, xs⟩
    · rfl
    · rw [map, search, search]
      split_ifs
      · exact ihlow _
      · rfl
      · exact ihequal _
      · exact ihhigh _

theorem values_map (f : α → β) (t : Tst α) : (t.map f).values = t.values.map f := by
  induction t with
  | nil => rfl
  | node c low equal high v ihlow ihequal ihhigh =>
    have hv : (v.map f).toList = v.toList.map f := by cases v <;> rfl
    rw [map, values, values, ihlow, ihequal, ihhigh, hv]
    simp

theorem map_congr {f g : α → β} {t : Tst α} (h : ∀ a ∈ t.values, f a = g a) : t.map f = t.map g := by
  induction t with
  | nil => rfl
  | node c low equal high v ihlow ihequal ihhigh =>
    have hv : v.map f = v.map g := by
      rcases v with _ | a
      · rfl
      · exact congrArg some (h a (mem_values_node.mpr (.inl rfl)))
    rw [map, map, hv, ihlow fun a ha => h a (mem_values_node.mpr (.inr (.inl ha))),
      ihequal fun a ha => h a (mem_values_node.mpr (.inr (.inr (.inl ha)))),
      ihhigh fun a ha => h a (mem_values_node.mpr (.inr (.inr (.inr ha))))]

theorem map_id (t : Tst α) : t.map id = t := by
  induction t with
  | nil => rfl
  | node c low equal high v ihlow ihequal ihhigh =>
    rw [map, ihlow, ihequal, ihhigh, Option.map_id, id]

theorem size_map (f : α → β) (t : Tst α) : (t.map f).size = t.size := by
  induction t with
  | nil => rfl
  | node c low equal high v ihlow ihequal ihhigh => rw [map, size, size, ihlow, ihequal, ihhigh]

theorem queued_map (f : α → β) (t : Tst α) : (t.map f).queued = t.queued.map (map f) := by
  cases t <;> rfl

theorem traverseLoop_map (f : α → β) (n : ℕ) (queue : List (Tst α)) :
    traverseLoop n (queue.map (map f)) = (traverseLoop n queue).map f := by
  induction n generalizing queue with
  | zero => rcases queue with _ | ⟨_ | ⟨c, low, equal, high, v⟩, queue⟩ <;> rfl
  | succ n ih =>
    rcases queue with _ | ⟨_ | ⟨c, low, equal, high, v⟩, queue⟩
    · rfl
    · rfl
    · have hv : (v.map f).toList = v.toList.map f := by cases v <;> rfl
      have hqueue := ih (queue ++ low.queued ++ equal.queued ++ high.queued)
      simp only [List.map_append, ← queued_map] at hqueue
      rw [List.map_cons, map, traverseLoop, traverseLoop, List.map_append, hqueue, hv]

/-- The callback is given the other values in the same order. -/
theorem traverse_map (f : α → β) (t : Tst α) : (t.map f).traverse = t.traverse.map f := by
  rw [traverse, traverse, size_map, queued_map, traverseLoop_map]

theorem mem_traverse_iff {t : Tst α} {a : α} : a ∈ t.traverse ↔ a ∈ t.values :=
  t.traverse_perm.mem_iff

theorem mem_values_of_search {t : Tst α} {s : List Byte} {a : α} (h : t.search s = some a) :
    a ∈ t.values := by
  induction t generalizing s with
  | nil => exact absurd h (by simp [search])
  | node c low equal high v ihlow ihequal ihhigh =>
    rw [mem_values_node]
    rcases s with _ | ⟨x, xs⟩
    · exact .inl h
    · rw [search] at h
      split_ifs at h
      · exact .inr (.inl (ihlow h))
      · exact .inl h
      · exact .inr (.inr (.inl (ihequal h)))
      · exact .inr (.inr (.inr (ihhigh h)))

end Tst

namespace M2sh

/-! ### References -/

mutual

/-- The names that a value refers to. -/
def Value.refs : Value → List (List Byte)
  | .cls _ params => refsPairs params
  | .list elements => refsList elements
  | .hash elements => refsPairs elements
  | .ref data => [data]
  | _ => []

/-- The names that the values of a list refer to. -/
def refsList : List Value → List (List Byte)
  | [] => []
  | val :: data => val.refs ++ refsList data

/-- The names that the values of a tree refer to. -/
def refsPairs : Pairs → List (List Byte)
  | .nil => []
  | .node _ low equal high pair => refsPairs low ++ (refsPair pair ++ refsPairs equal) ++ refsPairs high

/-- The same at one node. -/
def refsPair : Option (Pair Value) → List (List Byte)
  | none => []
  | some ⟨_, val⟩ => val.refs

end

section

variable (f : List Byte → Option Value)

mutual

/-- Every reference is replaced for which there is a value. -/
def Value.subst : Value → Value
  | .cls ident params => .cls ident (substPairs params)
  | .list elements => .list (substList elements)
  | .hash elements => .hash (substPairs elements)
  | .ref data => (f data).getD (.ref data)
  | val => val

/-- The same in a list. -/
def substList : List Value → List Value
  | [] => []
  | val :: data => val.subst :: substList data

/-- The same in a tree. -/
def substPairs : Pairs → Pairs
  | .nil => .nil
  | .node c low equal high pair =>
    .node c (substPairs low) (substPairs equal) (substPairs high) (substPair pair)

/-- The same at one node. -/
def substPair : Option (Pair Value) → Option (Pair Value)
  | none => none
  | some ⟨key, val⟩ => some ⟨key, val.subst⟩

end

/-- The same in a pair. -/
def Pair.subst (pair : Pair Value) : Pair Value := ⟨pair.key, pair.value.subst f⟩

theorem substList_eq (data : List Value) : substList f data = data.map (Value.subst f) := by
  induction data with
  | nil => rfl
  | cons val data ih => rw [substList, ih, List.map_cons]

theorem substPairs_eq (t : Pairs) : substPairs f t = t.map (Pair.subst f) := by
  induction t with
  | nil => rfl
  | node c low equal high pair ihlow ihequal ihhigh =>
    have hpair : substPair f pair = pair.map (Pair.subst f) := by
      rcases pair with _ | ⟨key, val⟩
      · rfl
      · rfl
    rw [substPairs, Tst.map, ihlow, ihequal, ihhigh, hpair]

end

theorem refsList_eq (data : List Value) : refsList data = data.flatMap Value.refs := by
  induction data with
  | nil => rfl
  | cons val data ih => rw [refsList, ih, List.flatMap_cons]

theorem refsPairs_eq (t : Pairs) : refsPairs t = t.values.flatMap fun pair => pair.value.refs := by
  induction t with
  | nil => rfl
  | node c low equal high pair ihlow ihequal ihhigh =>
    have hpair : refsPair pair = pair.toList.flatMap fun pair => pair.value.refs := by
      rcases pair with _ | ⟨key, val⟩
      · rfl
      · simp [refsPair]
    rw [refsPairs, Tst.values, ihlow, ihequal, ihhigh, hpair]
    simp

/-- An induction over the values within a value. -/
@[elab_as_elim]
theorem Value.induct {P : Value → Prop}
    (token : ∀ val data, val.string = some data → val.type ≠ .ref → P val)
    (ref : ∀ data, P (.ref data))
    (cls : ∀ ident params, (∀ pair ∈ Tst.values params, P pair.value) → P (.cls ident params))
    (list : ∀ elements, (∀ val ∈ elements, P val) → P (.list elements))
    (hash : ∀ elements, (∀ pair ∈ Tst.values elements, P pair.value) → P (.hash elements))
    (val : Value) : P val := by
  refine Value.refs.induct P (fun data => ∀ val ∈ data, P val)
    (fun t => ∀ pair ∈ t.values, P pair.value) (fun pair => ∀ p ∈ pair, P p.value)
    cls list hash ref ?_ ?_ ?_ ?_ ?_ ?_ ?_ val
  · intro val hcls hlist hhash href
    rcases val with data | data | data | ⟨ident, params⟩ | elements | elements | data | data
    case cls => exact absurd rfl (hcls ident params)
    case list => exact absurd rfl (hlist elements)
    case hash => exact absurd rfl (hhash elements)
    case ref => exact absurd rfl (href data)
    all_goals exact token _ data rfl (by simp [Value.type])
  · simp [Tst.values]
  · intro c low equal high pair hlow hpair hequal hhigh p hp
    rcases Tst.mem_values_node.mp hp with hp | hp | hp | hp
    · exact hpair p hp
    · exact hlow p hp
    · exact hequal p hp
    · exact hhigh p hp
  · simp
  · intro val data hval hdata
    exact List.forall_mem_cons.mpr ⟨hval, hdata⟩
  · simp
  · intro key val hval p hp
    obtain rfl := Option.mem_some_iff.mp hp
    exact hval

/-! ### What replacing does -/

section

variable {f g : List Byte → Option Value} {val : Value}

theorem refs_token {data : List Byte} (h : val.string = some data) (href : val.type ≠ .ref) :
    val.refs = [] := by
  rcases val with _ | _ | _ | _ | _ | _ | _ | _
  case ref => exact absurd rfl href
  case cls | list | hash => exact absurd h (by simp [Value.string])
  all_goals rfl

theorem subst_token {data : List Byte} (h : val.string = some data) (href : val.type ≠ .ref) :
    val.subst f = val := by
  rcases val with _ | _ | _ | _ | _ | _ | _ | _
  case ref => exact absurd rfl href
  case cls | list | hash => exact absurd h (by simp [Value.string])
  all_goals rfl

theorem mem_refsPairs {t : Pairs} {x : List Byte} :
    x ∈ refsPairs t ↔ ∃ pair ∈ t.values, x ∈ pair.value.refs := by
  rw [refsPairs_eq, List.mem_flatMap]

theorem refsPairs_eq_nil_iff {t : Pairs} :
    refsPairs t = [] ↔ ∀ pair ∈ t.values, pair.value.refs = [] := by
  rw [refsPairs_eq, List.flatMap_eq_nil_iff]

theorem refsList_eq_nil_iff {data : List Value} :
    refsList data = [] ↔ ∀ val ∈ data, val.refs = [] := by
  rw [refsList_eq, List.flatMap_eq_nil_iff]

/-- Only the references of a value decide what it becomes. -/
theorem subst_congr (h : ∀ x ∈ val.refs, f x = g x) : val.subst f = val.subst g := by
  have hpairs : ∀ t : Pairs, (∀ x ∈ refsPairs t, f x = g x) →
      (∀ pair ∈ t.values, (∀ x ∈ pair.value.refs, f x = g x) →
        pair.value.subst f = pair.value.subst g) → substPairs f t = substPairs g t := by
    intro t h ih
    rw [substPairs_eq, substPairs_eq]
    refine Tst.map_congr fun pair hpair => congrArg (Pair.mk pair.key) (ih pair hpair ?_)
    exact fun x hx => h x (mem_refsPairs.mpr ⟨pair, hpair, hx⟩)
  induction val using Value.induct with
  | token val data hdata href => rw [subst_token hdata href, subst_token hdata href]
  | ref data => rw [Value.subst, Value.subst, h data (List.mem_singleton_self data)]
  | cls ident params ih => rw [Value.subst, Value.subst, hpairs params h ih]
  | list elements ih =>
    rw [Value.subst, Value.subst, substList_eq, substList_eq]
    refine congrArg Value.list (List.map_congr_left fun val hval => ih val hval fun x hx => h x ?_)
    show x ∈ refsList elements
    rw [refsList_eq]
    exact List.mem_flatMap.mpr ⟨val, hval, hx⟩
  | hash elements ih => rw [Value.subst, Value.subst, hpairs elements h ih]

/-- No reference is left if each is replaced by a value without one. -/
theorem refs_subst_iff :
    (val.subst f).refs = [] ↔ ∀ x ∈ val.refs, ∃ u, f x = some u ∧ u.refs = [] := by
  have hpairs : ∀ t : Pairs,
      (∀ pair ∈ t.values, (pair.value.subst f).refs = [] ↔
        ∀ x ∈ pair.value.refs, ∃ u, f x = some u ∧ u.refs = []) →
      (refsPairs (substPairs f t) = [] ↔ ∀ x ∈ refsPairs t, ∃ u, f x = some u ∧ u.refs = []) := by
    intro t ih
    rw [substPairs_eq, refsPairs_eq_nil_iff, Tst.values_map, List.forall_mem_map]
    refine (forall₂_congr ih).trans ⟨fun h x hx => ?_, fun h pair hpair x hx => ?_⟩
    · obtain ⟨pair, hpair, hx⟩ := mem_refsPairs.mp hx
      exact h pair hpair x hx
    · exact h x (mem_refsPairs.mpr ⟨pair, hpair, hx⟩)
  induction val using Value.induct with
  | token val data hdata href => simp [subst_token hdata href, refs_token hdata href]
  | ref data =>
    rw [Value.subst, show (Value.ref data).refs = [data] from rfl, List.forall_mem_singleton]
    rcases f data with _ | u
    · simp [Value.refs]
    · simp
  | cls ident params ih => exact hpairs params ih
  | list elements ih =>
    show refsList (substList f elements) = [] ↔ ∀ x ∈ refsList elements, _
    rw [substList_eq, refsList_eq_nil_iff, List.forall_mem_map, refsList_eq]
    refine (forall₂_congr ih).trans ⟨fun h x hx => ?_, fun h val hval x hx => ?_⟩
    · obtain ⟨val, hval, hx⟩ := List.mem_flatMap.mp hx
      exact h val hval x hx
    · exact h x (List.mem_flatMap.mpr ⟨val, hval, hx⟩)
  | hash elements ih => exact hpairs elements ih

theorem subst_none (val : Value) : val.subst (fun _ => none) = val := by
  have hpairs : ∀ t : Pairs, (∀ pair ∈ t.values, pair.value.subst (fun _ => none) = pair.value) →
      substPairs (fun _ => none) t = t := by
    intro t ih
    rw [substPairs_eq]
    exact (Tst.map_congr fun pair hpair => congrArg (Pair.mk pair.key) (ih pair hpair)).trans
      (Tst.map_id t)
  induction val using Value.induct with
  | token val data hdata href => exact subst_token hdata href
  | ref data => rfl
  | cls ident params ih => rw [Value.subst, hpairs params ih]
  | list elements ih =>
    rw [Value.subst, substList_eq, List.map_congr_left ih, List.map_id']
  | hash elements ih => rw [Value.subst, hpairs elements ih]

/-- Without references there is nothing to replace. -/
theorem subst_closed (h : val.refs = []) : val.subst f = val :=
  (subst_congr (by simp [h])).trans (subst_none val)

end

/-! ### Round by round -/

/-- What a variable is set to. -/
def valueOf (settings : Pairs) (name : List Byte) : Option Value :=
  (settings.search name).map Pair.value

/-- The file after some rounds, in each of which the references of the file itself are
replaced by what their variables were in the round before. -/
def expand (settings : Pairs) : ℕ → Pairs
  | 0 => settings
  | n + 1 => substPairs (valueOf (expand settings n)) settings

/-- The file in which every reference is replaced by the value that it finally denotes. -/
structure Replaced (settings final : Pairs) : Prop where
  eq : final = substPairs (valueOf final) settings
  closed : refsPairs final = []

section

variable {settings : Pairs} {x : List Byte} {u : Value}

theorem valueOf_subst (f : List Byte → Option Value) (settings : Pairs) (x : List Byte) :
    valueOf (substPairs f settings) x = (valueOf settings x).map (Value.subst f) := by
  unfold valueOf
  rw [substPairs_eq, Tst.search_map]
  rcases settings.search x with _ | pair
  · rfl
  · rfl

theorem mem_values_of_valueOf (h : valueOf settings x = some u) :
    ∃ pair ∈ settings.values, pair.value = u := by
  obtain ⟨pair, hpair, rfl⟩ := Option.map_eq_some_iff.mp h
  exact ⟨pair, Tst.mem_values_of_search hpair, rfl⟩

/-- A value without references stays what it is. -/
theorem valueOf_expand_succ {n : ℕ} (h : valueOf (expand settings n) x = some u)
    (hu : u.refs = []) : valueOf (expand settings (n + 1)) x = some u := by
  induction n generalizing x u with
  | zero =>
    show valueOf (substPairs (valueOf settings) settings) x = some u
    rw [valueOf_subst, show valueOf settings x = some u from h, Option.map_some, subst_closed hu]
  | succ n ih =>
    rw [expand, valueOf_subst] at h ⊢
    obtain ⟨v, hv, rfl⟩ := Option.map_eq_some_iff.mp h
    rw [hv, Option.map_some]
    refine congrArg some (subst_congr fun y hy => ?_)
    obtain ⟨w, hw, hclosed⟩ := refs_subst_iff.mp hu y hy
    rw [hw]
    exact ih hw hclosed

theorem substPairs_congr {f g : List Byte → Option Value} {t : Pairs}
    (h : ∀ x ∈ refsPairs t, f x = g x) : substPairs f t = substPairs g t :=
  Value.hash.inj (@subst_congr f g (.hash t) h)

theorem refsPairs_subst_iff {f : List Byte → Option Value} {t : Pairs} :
    refsPairs (substPairs f t) = [] ↔ ∀ x ∈ refsPairs t, ∃ u, f x = some u ∧ u.refs = [] :=
  @refs_subst_iff f (.hash t)

/-- **Every reference was replaced by what it finally denotes** when none is left. -/
theorem replaced_expand {n : ℕ} (h : refsPairs (expand settings n) = []) :
    Replaced settings (expand settings n) := by
  refine ⟨?_, h⟩
  rcases n with _ | n
  · exact (Value.hash.inj (@subst_closed _ (.hash settings) h)).symm
  · refine substPairs_congr fun x hx => ?_
    obtain ⟨u, hu, hclosed⟩ := refsPairs_subst_iff.mp h x hx
    rw [hu, valueOf_expand_succ hu hclosed]

/-! ### Files without cycles -/

/-- A variable is set to a value with another one in it. -/
def Refers (settings : Pairs) (y x : List Byte) : Prop :=
  ∃ v, valueOf settings x = some v ∧ y ∈ v.refs

/-- After some rounds a variable is without references. -/
def Settled (settings : Pairs) (n : ℕ) (x : List Byte) : Prop :=
  ∃ u, valueOf (expand settings n) x = some u ∧ u.refs = []

theorem Settled.mono {n m : ℕ} (h : Settled settings n x) (hnm : n ≤ m) :
    Settled settings m x := by
  obtain ⟨u, hu, hclosed⟩ := h
  induction hnm with
  | refl => exact ⟨u, hu, hclosed⟩
  | step _ ih =>
    obtain ⟨v, hv, hclosed⟩ := ih
    exact ⟨v, valueOf_expand_succ hv hclosed, hclosed⟩

theorem settled_succ_iff {n : ℕ} :
    Settled settings (n + 1) x ↔
      ∃ v, valueOf settings x = some v ∧ ∀ y ∈ v.refs, Settled settings n y := by
  unfold Settled
  rw [expand, valueOf_subst]
  rcases valueOf settings x with _ | v
  · simp
  · simp [refs_subst_iff]

theorem settled_zero_iff :
    Settled settings 0 x ↔ ∃ v, valueOf settings x = some v ∧ v.refs = [] := Iff.rfl

/-- What is settled of each is settled of all of them at once. -/
theorem exists_settled {names : List (List Byte)} (h : ∀ y ∈ names, ∃ n, Settled settings n y) :
    ∃ n, ∀ y ∈ names, Settled settings n y := by
  induction names with
  | nil => exact ⟨0, by simp⟩
  | cons y names ih =>
    obtain ⟨n, hn⟩ := h y List.mem_cons_self
    obtain ⟨m, hm⟩ := ih fun z hz => h z (List.mem_cons_of_mem y hz)
    refine ⟨max n m, List.forall_mem_cons.mpr ⟨hn.mono (le_max_left n m), fun z hz => ?_⟩⟩
    exact (hm z hz).mono (le_max_right n m)

/-- The rounds that a variable takes bound every chain of references from it. -/
theorem acc_of_settled {n : ℕ} (h : Settled settings n x) : Acc (Refers settings) x := by
  induction n generalizing x with
  | zero =>
    obtain ⟨v, hv, hclosed⟩ := settled_zero_iff.mp h
    refine Acc.intro x ?_
    rintro y ⟨w, hw, hy⟩
    obtain rfl := Option.some.inj (hv.symm.trans hw)
    exact absurd hy (by simp [hclosed])
  | succ n ih =>
    obtain ⟨v, hv, hrefs⟩ := settled_succ_iff.mp h
    refine Acc.intro x ?_
    rintro y ⟨w, hw, hy⟩
    obtain rfl := Option.some.inj (hv.symm.trans hw)
    exact ih (hrefs y hy)

theorem mem_refsPairs_of_refers {y : List Byte} (h : Refers settings y x) :
    y ∈ refsPairs settings := by
  obtain ⟨v, hv, hy⟩ := h
  obtain ⟨pair, hpair, rfl⟩ := mem_values_of_valueOf hv
  exact mem_refsPairs.mpr ⟨pair, hpair, hy⟩

/-- **No reference is left after some round** exactly if each names a variable and the
variables do not refer to each other without end. -/
theorem expand_closed_iff :
    (∃ n, refsPairs (expand settings n) = []) ↔
      (∀ x ∈ refsPairs settings, valueOf settings x ≠ none) ∧ WellFounded (Refers settings) := by
  refine ⟨?_, ?_⟩
  · rintro ⟨n, hn⟩
    have hsettled : ∀ x ∈ refsPairs settings, Settled settings n x := by
      rcases n with _ | n
      · intro x hx
        rw [show refsPairs settings = [] from hn] at hx
        exact absurd hx List.not_mem_nil
      · exact fun x hx => Settled.mono (refsPairs_subst_iff.mp hn x hx) n.le_succ
    refine ⟨fun x hx hnone => ?_, ⟨fun x => Acc.intro x fun y hy => ?_⟩⟩
    · obtain ⟨v, hv, -⟩ := settled_succ_iff.mp ((hsettled x hx).mono n.le_succ)
      exact absurd (hnone.symm.trans hv) (by simp)
    · exact acc_of_settled (hsettled y (mem_refsPairs_of_refers hy))
  · rintro ⟨hdefined, hwf⟩
    have hsettled : ∀ x, valueOf settings x ≠ none → ∃ n, Settled settings n x := by
      intro x
      induction x using hwf.induction with
      | _ x ih =>
        intro hx
        obtain ⟨v, hv⟩ := Option.ne_none_iff_exists'.mp hx
        have hrefs : ∀ y ∈ v.refs, ∃ n, Settled settings n y := by
          intro y hy
          have hrefers : Refers settings y x := ⟨v, hv, hy⟩
          exact ih y hrefers (hdefined y (mem_refsPairs_of_refers hrefers))
        obtain ⟨n, hn⟩ := exists_settled hrefs
        exact ⟨n + 1, settled_succ_iff.mpr ⟨v, hv, hn⟩⟩
    obtain ⟨n, hn⟩ := exists_settled fun x hx => hsettled x (hdefined x hx)
    exact ⟨n + 1, refsPairs_subst_iff.mpr hn⟩

end

end M2sh

end Mongrel2

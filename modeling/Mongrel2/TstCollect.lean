/-
Collecting from the ternary tree (`tst.c`, `routing.c`).

* `collect` — `tst_collect`, and `RouteMap.matchAll` — `RouteMap_match`;
* `Ordered`, `Shaped` — the order of a tree, and the shape that the order of the insertions
  gives to a level;
* `descend_spec` — where a descent ends: at the string's own node, or else at the one of the
  longest key that is a prefix of it, or else at the root;
* `values_nodeAt` — what lies at a node and below it;
* **`collect_exact_iff`** — `tst_collect` collects the keys that start with a string exactly
  if no others hang on the node of its last byte, and `RouteMap_match` returns the route of
  the longest literal prefix exactly if of the routes that pass no others lie where the
  descent ends.

Design notes: the bytes that can stand at one place form a binary search tree, and the
traversal starts with the whole part of it that hangs on a node.  Without a route for the
path the root is traversed.
-/
import Mongrel2.PatternMeaning
import Mongrel2.RouteInserts
import Mongrel2.TstMap
import Mongrel2.TstValues

namespace Mongrel2

open ByteStream HttpParser

namespace Tst

variable {α : Type*}

/-! ### Collecting -/

/-- The loop at the head of `tst_collect`, with `last` and `p`: where they are at its end. -/
def descend (last : Tst α) : Tst α → List Byte → Tst α × Tst α
  | nil, _ => (last, nil)
  | node c low equal high v, [] => (last, node c low equal high v)
  | node c low equal high v, x :: xs =>
    if x.toInt8 < c.toInt8 then descend last low (x :: xs)
    else if x = c then
      -- at the last byte `p` stays where it is
      if xs = [] then (last, node c low equal high v)
      else descend (if v.isSome then node c low equal high v else last) equal xs
    else descend last high (x :: xs)

/-- A pointer that is not NULL. -/
def isNode : Tst α → Bool
  | nil => false
  | node .. => true

/-- `tst_collect`, with a tester or without one. -/
def collect (root : Tst α) (s : List Byte) (tester : Option (α → Bool)) : List α :=
  let (last, p) := descend root root s
  if last.isNode && tester.isSome || p.isNode then
    (if p.isNode then p else last).traverse.filter (tester.getD fun _ => true)
  else []

end Tst

/-- `RouteMap_collect_match`. -/
def RouteMap.collectMatch {β : Type*} (key : List Byte) (route : Route β) : Bool :=
  !route.hasPattern || (Pattern.patternMatch key route.pattern).isSome

/-- `RouteMap_match`. -/
def RouteMap.matchAll {β : Type*} (map : RouteMap β) (path : List Byte) : List (Route β) :=
  map.routes.collect path (some (RouteMap.collectMatch path))

namespace Tst

variable {α : Type*}

/-! ### Levels in the order of their insertions -/

/-- A byte lies between two others, in the order of the tree, or is one of them. -/
def between (c d x : Byte) : Bool :=
  c.toInt8 ≤ x.toInt8 && x.toInt8 ≤ d.toInt8 || d.toInt8 ≤ x.toInt8 && x.toInt8 ≤ c.toInt8

/-- A level has the shape that it gets from bytes that come one after the other. -/
def Shaped : List Byte → Tst α → Prop
  | bs, nil => bs = []
  | bs, node s low _ high _ => ∃ bs', bs = s :: bs' ∧
      Shaped (bs'.filter fun x => decide (x.toInt8 < s.toInt8)) low ∧
        Shaped (bs'.filter fun x => decide (s.toInt8 < x.toInt8)) high

/-- The part of a level that hangs on the node of a byte. -/
def sub : Tst α → Byte → Tst α
  | nil, _ => nil
  | node s low equal high v, c =>
    if c.toInt8 < s.toInt8 then low.sub c
    else if c = s then node s low equal high v
    else high.sub c

/-- The node at the end of a string; of the empty one, the root. -/
def nodeAt : Tst α → List Byte → Tst α
  | t, [] => t
  | t, x :: xs => if xs = [] then t.sub x else nodeAt (t.mid x) xs

/-- Each level of the tree is ordered. -/
def Ordered : Tst α → Prop
  | nil => True
  | node s low equal high _ => low.Ordered ∧ equal.Ordered ∧ high.Ordered ∧
      (∀ d, low.find d ≠ none → d.toInt8 < s.toInt8) ∧
        ∀ d, high.find d ≠ none → s.toInt8 < d.toInt8

/-- The values with what is behind the root of their keys. -/
def entries : Tst α → List (List Byte × α)
  | nil => []
  | node s low equal high v =>
    low.entries ++ (v.toList.map (([s], ·)) ++ equal.entries.map fun p => (s :: p.1, p.2)) ++
      high.entries

section

variable {t t' m : Tst α} {bs : List Byte} {c d s x : Byte} {k q r : List Byte} {v : α}

theorem toInt8_lt_of_ne (h : ¬ c.toInt8 < s.toInt8) (hne : c ≠ s) : s.toInt8 < c.toInt8 := by
  have hne' : c.toInt8.toInt ≠ s.toInt8.toInt := fun heq =>
    hne (by rw [← UInt8.toUInt8_toInt8 c, Int8.toInt_inj.mp heq, UInt8.toUInt8_toInt8])
  rw [Int8.lt_iff_toInt_lt] at h ⊢
  omega

theorem toInt8_ne_of_lt (h : c.toInt8 < s.toInt8) : c ≠ s := by
  rintro rfl
  exact Std.Irrefl.irrefl _ h

theorem not_toInt8_lt_of_lt (h : c.toInt8 < s.toInt8) : ¬ s.toInt8 < c.toInt8 := by
  rw [Int8.lt_iff_toInt_lt] at h ⊢
  omega

theorem between_iff : between c d x = true ↔
    c.toInt8.toInt ≤ x.toInt8.toInt ∧ x.toInt8.toInt ≤ d.toInt8.toInt ∨
      d.toInt8.toInt ≤ x.toInt8.toInt ∧ x.toInt8.toInt ≤ c.toInt8.toInt := by
  simp only [between, Bool.or_eq_true, Bool.and_eq_true, decide_eq_true_eq, Int8.le_iff_toInt_le]

/-- What is between two bytes below a third is below it. -/
theorem lt_of_between (hc : c.toInt8 < s.toInt8) (hd : d.toInt8 < s.toInt8)
    (hx : between c d x = true) : x.toInt8 < s.toInt8 := by
  rw [between_iff] at hx
  rw [Int8.lt_iff_toInt_lt] at hc hd ⊢
  omega

theorem gt_of_between (hc : s.toInt8 < c.toInt8) (hd : s.toInt8 < d.toInt8)
    (hx : between c d x = true) : s.toInt8 < x.toInt8 := by
  rw [between_iff] at hx
  rw [Int8.lt_iff_toInt_lt] at hc hd ⊢
  omega

/-- A byte that is on one side of a third only is not between. -/
theorem between_of_lt (hc : c.toInt8 < s.toInt8) (hd : ¬ d.toInt8 < s.toInt8) :
    between c d s = true := by
  rw [between_iff]
  rw [Int8.lt_iff_toInt_lt] at hc hd
  omega

theorem between_of_gt (hc : s.toInt8 < c.toInt8) (hd : ¬ s.toInt8 < d.toInt8) :
    between c d s = true := by
  rw [between_iff]
  rw [Int8.lt_iff_toInt_lt] at hc hd
  omega

theorem between_left (c d : Byte) : between c d c = true := by
  rw [between_iff]
  omega

/-- A level that is shaped by bytes has just these. -/
theorem Shaped.find_ne_none_iff (h : Shaped bs t) : t.find d ≠ none ↔ d ∈ bs := by
  induction t generalizing bs with
  | nil =>
    obtain rfl : bs = [] := h
    simp [find]
  | node s low equal high v ihlow _ ihhigh =>
    obtain ⟨bs', rfl, hlow, hhigh⟩ := h
    rw [find, List.mem_cons]
    by_cases hlt : d.toInt8 < s.toInt8
    · rw [if_pos hlt, ihlow hlow, List.mem_filter, or_iff_right (toInt8_ne_of_lt hlt)]
      simp [hlt]
    · rw [if_neg hlt]
      by_cases heq : d = s
      · simp [heq]
      · rw [if_neg heq, ihhigh hhigh, List.mem_filter, or_iff_right heq]
        simp [toInt8_lt_of_ne hlt heq]

/-- On one side of the root a byte hangs on another as it does without the other side. -/
theorem find?_between_filter {p : Byte → Bool} (hs : between c d s = false) (hp : p d = true)
    (hbetween : ∀ x, between c d x = true → p x = true) (hne : d ≠ s) :
    (d ∈ bs.filter p ∧ (bs.filter p).find? (between c d) = some c) ↔
      d ∈ s :: bs ∧ (s :: bs).find? (between c d) = some c := by
  have hfind : (bs.filter p).find? (between c d) = bs.find? (between c d) := by
    rw [List.find?_filter]
    refine congrFun (congrArg _ (funext fun x => ?_)) _
    cases hx : between c d x with
    | false => simp
    | true => simp [hbetween x hx]
  rw [List.find?_cons_of_neg (by simp [hs]), hfind, List.mem_filter, and_iff_left hp,
    List.mem_cons, or_iff_right hne]

/-- A byte hangs on another one that came first of all between them. -/
theorem Shaped.find_sub_ne_none_iff (h : Shaped bs t) :
    (t.sub c).find d ≠ none ↔ d ∈ bs ∧ bs.find? (between c d) = some c := by
  induction t generalizing bs with
  | nil =>
    obtain rfl : bs = [] := h
    simp [sub, find]
  | node s low equal high v ihlow _ ihhigh =>
    have hshaped := h
    obtain ⟨bs', rfl, hlow, hhigh⟩ := h
    rw [sub]
    by_cases hlt : c.toInt8 < s.toInt8
    · rw [if_pos hlt, ihlow hlow]
      by_cases hd : d.toInt8 < s.toInt8
      · have hroot : between c d s = false := Bool.eq_false_iff.mpr fun hs =>
          Std.Irrefl.irrefl _ (lt_of_between hlt hd hs)
        exact find?_between_filter hroot (by simpa using hd)
          (fun x hx => by simpa using lt_of_between hlt hd hx) (toInt8_ne_of_lt hd)
      · -- the root is between the two
        rw [List.find?_cons_of_pos (between_of_lt hlt hd)]
        refine iff_of_false (fun h => ?_) fun h => toInt8_ne_of_lt hlt (Option.some.inj h.2).symm
        exact hd (by simpa using (List.mem_filter.mp h.1).2)
    · rw [if_neg hlt]
      by_cases heq : c = s
      · subst heq
        rw [if_pos rfl, hshaped.find_ne_none_iff, List.find?_cons_of_pos (between_left c d),
          and_iff_left rfl]
      · have hgt := toInt8_lt_of_ne hlt heq
        rw [if_neg heq, ihhigh hhigh]
        by_cases hd : s.toInt8 < d.toInt8
        · have hroot : between c d s = false := Bool.eq_false_iff.mpr fun hs =>
            Std.Irrefl.irrefl _ (gt_of_between hgt hd hs)
          exact find?_between_filter hroot (by simpa using hd)
            (fun x hx => by simpa using gt_of_between hgt hd hx) (toInt8_ne_of_lt hd).symm
        · rw [List.find?_cons_of_pos (between_of_gt hgt hd)]
          refine iff_of_false (fun h => ?_) fun h => heq (Option.some.inj h.2).symm
          exact hd (by simpa using (List.mem_filter.mp h.1).2)

/-- A byte that is put into a level comes last. -/
theorem Shaped.put (h : Shaped bs t) (c : Byte) (e : Tst α × Option α) :
    Shaped (bs ++ [c]) (t.put c e) := by
  induction t generalizing bs with
  | nil =>
    obtain rfl : bs = [] := h
    exact ⟨[], rfl, rfl, rfl⟩
  | node s low equal high v ihlow _ ihhigh =>
    obtain ⟨bs', rfl, hlow, hhigh⟩ := h
    rw [Tst.put]
    by_cases hlt : c.toInt8 < s.toInt8
    · rw [if_pos hlt]
      refine ⟨bs' ++ [c], rfl, ?_, ?_⟩
      · rw [List.filter_append, List.filter_singleton, decide_eq_true hlt]
        exact ihlow hlow
      · rw [List.filter_append, List.filter_singleton, decide_eq_false (not_toInt8_lt_of_lt hlt)]
        simpa using hhigh
    · rw [if_neg hlt]
      by_cases heq : c = s
      · subst heq
        rw [if_pos rfl]
        refine ⟨bs' ++ [c], rfl, ?_, ?_⟩
        all_goals
          rw [List.filter_append, List.filter_singleton, decide_eq_false hlt]
          simpa
      · rw [if_neg heq]
        refine ⟨bs' ++ [c], rfl, ?_, ?_⟩
        · rw [List.filter_append, List.filter_singleton, decide_eq_false hlt]
          simpa using hlow
        · rw [List.filter_append, List.filter_singleton, decide_eq_true (toInt8_lt_of_ne hlt heq)]
          exact ihhigh hhigh

/-- An insertion sets what is behind one byte. -/
theorem exists_put {rest : List Byte} (h : insertBase v t c rest = some t') :
    ∃ e, t' = t.put c e := by
  cases rest with
  | nil =>
    rw [insertBase_nil] at h
    split_ifs at h
    exact ⟨_, (Option.some.inj h).symm⟩
  | cons d ds =>
    rw [insertBase_cons] at h
    obtain ⟨m, -, rfl⟩ := Option.map_eq_some_iff.mp h
    exact ⟨_, rfl⟩

/-- An insertion puts a byte into each level on its way, and changes no other. -/
theorem behind_insertBase {rest : List Byte} (h : insertBase v t c rest = some t')
    (r : List Byte) :
    (follows r (c :: rest) = none → t'.behind r = t.behind r) ∧
      ∀ d, follows r (c :: rest) = some d → ∃ e, t'.behind r = (t.behind r).put d e := by
  induction r generalizing c rest t t' with
  | nil =>
    obtain ⟨e, rfl⟩ := exists_put h
    have hfollows : follows [] (c :: rest) = some c := by simp [follows]
    rw [hfollows]
    refine ⟨fun h => absurd h (by simp), fun d hd => ⟨e, ?_⟩⟩
    obtain rfl := Option.some.inj hd
    rfl
  | cons x r ih =>
    have hbehind : ∀ u : Tst α, u.behind (x :: r) = (u.mid x).behind r := fun _ => rfl
    rw [hbehind, hbehind, follows_cons_cons]
    by_cases hx : x = c
    · subst hx
      rw [if_pos rfl]
      cases rest with
      | nil =>
        rw [insertBase_nil] at h
        split_ifs at h
        obtain rfl := Option.some.inj h
        rw [mid_put]
        refine ⟨fun _ => rfl, fun d hd => ?_⟩
        cases r <;> simp [follows] at hd
      | cons y ys =>
        rw [insertBase_cons] at h
        obtain ⟨m, hm, rfl⟩ := Option.map_eq_some_iff.mp h
        rw [mid_put]
        exact ih hm
    · obtain ⟨e, rfl⟩ := exists_put h
      rw [if_neg hx, mid_put_ne t hx]
      exact ⟨fun _ => rfl, fun d hd => absurd hd (by simp)⟩

/-! ### The order of a tree -/

theorem Ordered.mid (h : t.Ordered) (c : Byte) : (t.mid c).Ordered := by
  induction t with
  | nil => exact trivial
  | node s low equal high v ihlow _ ihhigh =>
    obtain ⟨hlow, hequal, hhigh, -, -⟩ := h
    by_cases hlt : c.toInt8 < s.toInt8
    · rw [mid_low hlt]
      exact ihlow hlow
    · by_cases heq : c = s
      · subst heq
        rw [mid_eq_of_find find_self]
        exact hequal
      · rw [mid_high hlt heq]
        exact ihhigh hhigh

theorem Ordered.behind (h : t.Ordered) (r : List Byte) : (t.behind r).Ordered := by
  induction r generalizing t with
  | nil => exact h
  | cons c r ih => exact ih (h.mid c)

theorem Ordered.sub (h : t.Ordered) (c : Byte) : (t.sub c).Ordered := by
  induction t with
  | nil => exact trivial
  | node s low equal high v ihlow _ ihhigh =>
    have hnode := h
    obtain ⟨hlow, -, hhigh, -, -⟩ := h
    rw [Tst.sub]
    split_ifs
    · exact ihlow hlow
    · exact hnode
    · exact ihhigh hhigh

theorem Ordered.put (h : t.Ordered) (c : Byte) {e : Tst α × Option α} (he : e.1.Ordered) :
    (t.put c e).Ordered := by
  induction t with
  | nil => exact ⟨trivial, he, trivial, fun d h => absurd rfl h, fun d h => absurd rfl h⟩
  | node s low equal high v ihlow _ ihhigh =>
    obtain ⟨hlow, hequal, hhigh, hbelow, habove⟩ := h
    rw [Tst.put]
    by_cases hlt : c.toInt8 < s.toInt8
    · rw [if_pos hlt]
      refine ⟨ihlow hlow, hequal, hhigh, fun d hd => ?_, habove⟩
      rcases (find_ne_none_of_put low c d e).mp hd with hd | rfl
      · exact hbelow d hd
      · exact hlt
    · rw [if_neg hlt]
      by_cases heq : c = s
      · rw [if_pos heq]
        exact ⟨hlow, he, hhigh, hbelow, habove⟩
      · rw [if_neg heq]
        refine ⟨hlow, hequal, ihhigh hhigh, hbelow, fun d hd => ?_⟩
        rcases (find_ne_none_of_put high c d e).mp hd with hd | rfl
        · exact habove d hd
        · exact toInt8_lt_of_ne hlt heq

theorem Ordered.insertBase {rest : List Byte} (ht : t.Ordered)
    (h : insertBase v t c rest = some t') : t'.Ordered := by
  induction rest generalizing c t t' with
  | nil =>
    rw [insertBase_nil] at h
    split_ifs at h
    obtain rfl := Option.some.inj h
    exact ht.put c (ht.mid c)
  | cons d ds ih =>
    rw [insertBase_cons] at h
    obtain ⟨m, hm, rfl⟩ := Option.map_eq_some_iff.mp h
    exact ht.put c (ih (ht.mid c) hm)

/-- What hangs on a node is found there as in the level. -/
theorem Ordered.find_sub (h : t.Ordered) (hd : (t.sub c).find d ≠ none) :
    (t.sub c).find d = t.find d := by
  induction t with
  | nil => exact absurd rfl hd
  | node s low equal high v ihlow _ ihhigh =>
    obtain ⟨hlow, -, hhigh, hbelow, habove⟩ := h
    rw [Tst.sub] at hd ⊢
    by_cases hlt : c.toInt8 < s.toInt8
    · rw [if_pos hlt] at hd ⊢
      have hfound := ihlow hlow hd
      rw [hfound] at hd
      rw [hfound, find, if_pos (hbelow d hd)]
    · rw [if_neg hlt] at hd ⊢
      by_cases heq : c = s
      · rw [if_pos heq]
      · rw [if_neg heq] at hd ⊢
        have hfound := ihhigh hhigh hd
        rw [hfound] at hd
        have hgt := habove d hd
        rw [hfound, find, if_neg (not_toInt8_lt_of_lt hgt), if_neg (toInt8_ne_of_lt hgt).symm]

/-! ### Entries -/

theorem values_eq (t : Tst α) : t.values = t.entries.map Prod.snd := by
  induction t with
  | nil => rfl
  | node s low equal high v ihlow ihequal ihhigh =>
    rw [values, entries, ihlow, ihequal, ihhigh]
    simp [Function.comp_def]

theorem lookup_congr {u : Tst α} (h : t.find x = u.find x) (xs : List Byte) :
    t.lookup (x :: xs) = u.lookup (x :: xs) := by
  rw [lookup, lookup, val, val, Tst.mid, Tst.mid, h]

theorem lookup_eq_none (h : t.find x = none) (xs : List Byte) : t.lookup (x :: xs) = none := by
  rw [lookup, val, Tst.mid, h]
  split_ifs
  · rfl
  · exact lookup_nil_tree xs

theorem find_ne_none_of_lookup {a : α} (h : t.lookup (x :: xs) = some a) : t.find x ≠ none :=
  fun hnone => by simp [lookup_eq_none hnone] at h

theorem mem_entries_node_iff {s : Byte} {low equal high : Tst α} {v : Option α} {k : List Byte}
    {a : α} :
    (k, a) ∈ (node s low equal high v).entries ↔ (k, a) ∈ low.entries ∨
      (k = [s] ∧ v = some a) ∨ (∃ k', k = s :: k' ∧ (k', a) ∈ equal.entries) ∨
        (k, a) ∈ high.entries := by
  rw [entries]
  simp only [List.mem_append, List.mem_map, Option.mem_toList, Prod.mk.injEq, Prod.exists,
    or_assoc]
  refine or_congr_right (or_congr ?_ (or_congr_left ?_))
  · constructor
    · rintro ⟨_, hv, rfl, rfl⟩
      exact ⟨rfl, hv⟩
    · rintro ⟨rfl, hv⟩
      exact ⟨a, hv, rfl, rfl⟩
  · constructor
    · rintro ⟨k', _, hk', rfl, rfl⟩
      exact ⟨k', rfl, hk'⟩
    · rintro ⟨k', rfl, hk'⟩
      exact ⟨k', a, hk', rfl, rfl⟩

/-- The entries of an ordered tree are the values of its keys. -/
theorem Ordered.mem_entries_iff (h : t.Ordered) (k : List Byte) (a : α) :
    (k, a) ∈ t.entries ↔ t.lookup k = some a := by
  induction t generalizing k with
  | nil => simp [entries, lookup_nil_tree]
  | node s low equal high v ihlow ihequal ihhigh =>
    obtain ⟨hlow, hequal, hhigh, hbelow, habove⟩ := h
    have hmem : (k, a) ∈ (node s low equal high v).entries ↔ low.lookup k = some a ∨
        (k = [s] ∧ v = some a) ∨ (∃ k', k = s :: k' ∧ equal.lookup k' = some a) ∨
          high.lookup k = some a := by
      rw [mem_entries_node_iff, ihlow hlow, ihhigh hhigh]
      simp only [ihequal hequal]
    rw [hmem]
    cases k with
    | nil => simp
    | cons x xs =>
      have hlowkey : low.lookup (x :: xs) = some a → x.toInt8 < s.toInt8 :=
        fun hl => hbelow x (find_ne_none_of_lookup hl)
      have hhighkey : high.lookup (x :: xs) = some a → s.toInt8 < x.toInt8 :=
        fun hl => habove x (find_ne_none_of_lookup hl)
      by_cases hlt : x.toInt8 < s.toInt8
      · have hne := toInt8_ne_of_lt hlt
        have hnode : (node s low equal high v).lookup (x :: xs) = low.lookup (x :: xs) :=
          lookup_congr (by rw [find, if_pos hlt]) xs
        rw [hnode]
        refine or_iff_left ?_
        rintro (⟨heq, -⟩ | ⟨k', heq, -⟩ | hl)
        · exact hne (List.cons.inj heq).1
        · exact hne (List.cons.inj heq).1
        · exact not_toInt8_lt_of_lt hlt (hhighkey hl)
      · rw [or_iff_right fun hl => hlt (hlowkey hl)]
        by_cases heq : x = s
        · subst heq
          rw [← or_assoc, or_iff_left fun hl => Std.Irrefl.irrefl _ (hhighkey hl)]
          rw [lookup, val_eq_of_find find_self, mid_eq_of_find find_self]
          by_cases hxs : xs = []
          · simp [hxs]
          · simp [hxs]
        · have hnode : (node s low equal high v).lookup (x :: xs) = high.lookup (x :: xs) :=
            lookup_congr (by rw [find, if_neg hlt, if_neg heq]) xs
          rw [hnode, or_iff_right fun h => heq (List.cons.inj h.1).1, or_iff_right]
          rintro ⟨k', hk', -⟩
          exact heq (List.cons.inj hk').1

theorem Ordered.exists_cons_of_mem (h : t.Ordered) {p : List Byte × α} (hp : p ∈ t.entries) :
    ∃ x xs, p.1 = x :: xs ∧ t.find x ≠ none := by
  obtain ⟨_ | ⟨x, xs⟩, a⟩ := p
  · exact absurd ((h.mem_entries_iff _ _).mp hp) (by simp)
  · exact ⟨x, xs, rfl, find_ne_none_of_lookup ((h.mem_entries_iff _ _).mp hp)⟩

/-- No key has two entries. -/
theorem Ordered.nodup_entries (h : t.Ordered) : t.entries.Nodup := by
  induction t with
  | nil => exact List.nodup_nil
  | node s low equal high v ihlow ihequal ihhigh =>
    obtain ⟨hlow, hequal, hhigh, hbelow, habove⟩ := h
    have hmidkey : ∀ p ∈ v.toList.map (([s], ·)) ++ equal.entries.map (fun p => (s :: p.1, p.2)),
        ∃ xs, p.1 = s :: xs := by
      intro p hp
      rcases List.mem_append.mp hp with hp | hp
      · obtain ⟨a, -, rfl⟩ := List.mem_map.mp hp
        exact ⟨[], rfl⟩
      · obtain ⟨p', -, rfl⟩ := List.mem_map.mp hp
        exact ⟨p'.1, rfl⟩
    have hmid : (v.toList.map (([s], ·)) ++
        equal.entries.map fun p => (s :: p.1, p.2)).Nodup := by
      rw [List.nodup_append]
      refine ⟨?_, (ihequal hequal).map fun p q hpq => ?_, ?_⟩
      · cases v <;> simp
      · simpa [Prod.ext_iff] using hpq
      · rintro p hp q hq rfl
        obtain ⟨a, -, rfl⟩ := List.mem_map.mp hp
        obtain ⟨⟨k', b⟩, hp', heq⟩ := List.mem_map.mp hq
        obtain rfl : k' = [] := (List.cons.inj (Prod.mk.inj heq).1).2
        exact absurd ((hequal.mem_entries_iff _ _).mp hp') (by simp)
    rw [entries, List.nodup_append, List.nodup_append]
    refine ⟨⟨ihlow hlow, hmid, ?_⟩, ihhigh hhigh, ?_⟩
    · rintro p hp q hq rfl
      obtain ⟨x, xs, hx, hfound⟩ := hlow.exists_cons_of_mem hp
      obtain ⟨ys, hy⟩ := hmidkey p hq
      exact toInt8_ne_of_lt (hbelow x hfound) (List.cons.inj (hx.symm.trans hy)).1
    · rintro p hp q hq rfl
      obtain ⟨y, ys, hy, hfound⟩ := hhigh.exists_cons_of_mem hq
      have hgt := habove y hfound
      rcases List.mem_append.mp hp with hp | hp
      · obtain ⟨x, xs, hx, hfound'⟩ := hlow.exists_cons_of_mem hp
        obtain rfl := (List.cons.inj (hx.symm.trans hy)).1
        exact not_toInt8_lt_of_lt (hbelow x hfound') hgt
      · obtain ⟨xs, hx⟩ := hmidkey p hp
        exact toInt8_ne_of_lt hgt (List.cons.inj (hx.symm.trans hy)).1

/-! ### Trees of pairs -/

/-- What a tree of pairs is like: its values, its order, and the shape of its levels. -/
structure Built (pairs : List (List Byte × α)) (t : Tst α) : Prop where
  lookup : ∀ k v, t.lookup k = some v ↔ (k, v) ∈ pairs
  ordered : t.Ordered
  level : ∀ r, Shaped (pairs.filterMap fun p => follows r p.1) (t.behind r)

/-- A key lies at the node of another one or below it: in its level, the byte of the other came
first of all between the two. -/
def under (keys : List (List Byte)) (q k : List Byte) : Bool :=
  match q.getLast? with
  | none => true
  | some c => (follows q.dropLast k).any fun d =>
      (keys.filterMap (follows q.dropLast)).find? (between c d) == some c

variable {pairs : List (List Byte × α)}

theorem behind_nil (r : List Byte) : (nil : Tst α).behind r = nil := by
  induction r with
  | nil => rfl
  | cons c r ih => exact ih

/-- Each insertion keeps the order, and puts a byte into the levels on its way. -/
theorem shaped_of_ofPairs (hne : [] ∉ pairs.map Prod.fst) (ht : ofPairs pairs = some t) :
    t.Ordered ∧ ∀ r, Shaped (pairs.filterMap fun p => follows r p.1) (t.behind r) := by
  induction pairs using List.reverseRecOn generalizing t with
  | nil =>
    obtain rfl := Option.some.inj ht
    refine ⟨trivial, fun r => ?_⟩
    rw [behind_nil]
    exact rfl
  | append_singleton pairs p ih =>
    obtain ⟨k, v⟩ := p
    rw [List.map_append, List.mem_append, not_or] at hne
    rw [ofPairs_append, Option.bind_eq_some_iff] at ht
    obtain ⟨t', ht', hins⟩ := ht
    obtain ⟨hordered, hlevel⟩ := ih hne.1 ht'
    obtain ⟨c, rest, rfl⟩ : ∃ c rest, k = c :: rest := by
      refine List.exists_cons_of_ne_nil fun hk => hne.2 ?_
      simp [hk]
    have hins : Tst.insertBase v t' c rest = some t := hins
    refine ⟨hordered.insertBase hins, fun r => ?_⟩
    obtain ⟨hsame, hput⟩ := behind_insertBase hins r
    rw [List.filterMap_append]
    cases hd : follows r (c :: rest) with
    | none =>
      rw [hsame hd]
      simpa [hd] using hlevel r
    | some d =>
      obtain ⟨e, he⟩ := hput d hd
      rw [he]
      simpa [hd] using (hlevel r).put d e

/-- **A tree of pairs** is ordered, and each of its levels has the shape of its insertions. -/
theorem built_ofPairs (hnodup : (pairs.map Prod.fst).Nodup) (hne : [] ∉ pairs.map Prod.fst) :
    ∃ t, ofPairs pairs = some t ∧ Built pairs t := by
  obtain ⟨t, ht, hlookup⟩ := ofPairs_spec hnodup hne
  obtain ⟨hordered, hlevel⟩ := shaped_of_ofPairs hne ht
  exact ⟨t, ht, hlookup, hordered, hlevel⟩

/-! ### What lies at a node -/

theorem nodeAt_append (t : Tst α) (r : List Byte) (c : Byte) :
    t.nodeAt (r ++ [c]) = (t.behind r).sub c := by
  induction r generalizing t with
  | nil => rfl
  | cons x r ih =>
    rw [List.cons_append, nodeAt, if_neg (by simp), ih]
    rfl

theorem lookup_behind (t : Tst α) (r : List Byte) (hk : k ≠ []) :
    (t.behind r).lookup k = t.lookup (r ++ k) := by
  induction r generalizing t with
  | nil => rfl
  | cons c r ih =>
    rw [List.cons_append, lookup, if_neg (by simp [hk])]
    exact ih (t.mid c)

/-- What hangs on a node has the values of the level there. -/
theorem Ordered.lookup_sub (h : t.Ordered) (c : Byte) (xs : List Byte) :
    (t.sub c).lookup (d :: xs) = if (t.sub c).find d = none then none else t.lookup (d :: xs) := by
  by_cases hd : (t.sub c).find d = none
  · rw [if_pos hd, lookup_eq_none hd]
  · rw [if_neg hd, lookup_congr (h.find_sub hd)]

theorem follows_append (r : List Byte) (d : Byte) (xs : List Byte) :
    follows r (r ++ d :: xs) = some d := by
  simp [follows]

theorem exists_of_follows (h : follows r k = some d) : ∃ xs, k = r ++ d :: xs := by
  rw [follows] at h
  split_ifs at h with hpre
  obtain ⟨u, rfl⟩ := hpre
  rw [List.drop_left] at h
  obtain ⟨xs, rfl⟩ := List.head?_eq_some_iff.mp h
  exact ⟨xs, rfl⟩

theorem under_append (keys : List (List Byte)) (r : List Byte) (c : Byte) (k : List Byte) :
    under keys (r ++ [c]) k = true ↔ ∃ d, follows r k = some d ∧
      (keys.filterMap (follows r)).find? (between c d) = some c := by
  simp [under, Option.any_eq_true]

/-- What hangs on a node are the pairs that go on with a byte for which the one of the node
came first. -/
theorem Built.lookup_sub (h : Built pairs t) {r xs : List Byte} {c d : Byte} {a : α} :
    ((t.behind r).sub c).lookup (d :: xs) = some a ↔ (r ++ d :: xs, a) ∈ pairs ∧
      (pairs.filterMap fun p => follows r p.1).find? (between c d) = some c := by
  rw [(h.ordered.behind r).lookup_sub]
  constructor
  · intro hlookup
    split_ifs at hlookup with hd
    rw [lookup_behind t r (List.cons_ne_nil d xs)] at hlookup
    exact ⟨(h.lookup _ _).mp hlookup, ((h.level r).find_sub_ne_none_iff.mp hd).2⟩
  · rintro ⟨hmem, hfirst⟩
    have hin : d ∈ pairs.filterMap fun p => follows r p.1 :=
      List.mem_filterMap.mpr ⟨_, hmem, follows_append r d xs⟩
    rw [if_neg ((h.level r).find_sub_ne_none_iff.mpr ⟨hin, hfirst⟩),
      lookup_behind t r (List.cons_ne_nil d xs)]
    exact (h.lookup _ _).mpr hmem

/-- **What lies at a node and below it** are the pairs whose keys do. -/
theorem Built.values_nodeAt (h : Built pairs t) (hnodup : (pairs.map Prod.fst).Nodup)
    (q : List Byte) :
    (t.nodeAt q).values.Perm
      ((pairs.filter fun p => under (pairs.map Prod.fst) q p.1).map Prod.snd) := by
  have hpairs : pairs.Nodup := hnodup.of_map
  rcases List.eq_nil_or_concat q with rfl | ⟨r, c, rfl⟩
  · have hall : (pairs.filter fun p => under (pairs.map Prod.fst) [] p.1) = pairs := by
      simp [under]
    rw [hall, nodeAt, values_eq]
    refine List.Perm.map _ ((List.perm_ext_iff_of_nodup h.ordered.nodup_entries hpairs).mpr ?_)
    rintro ⟨k, a⟩
    rw [h.ordered.mem_entries_iff, h.lookup]
  · have hsub := (h.ordered.behind r).sub c
    have hmap : (t.nodeAt (r ++ [c])).values =
        (((t.behind r).sub c).entries.map fun p => (r ++ p.1, p.2)).map Prod.snd := by
      rw [nodeAt_append, values_eq, List.map_map]
      rfl
    have hinj : Function.Injective fun p : List Byte × α => (r ++ p.1, p.2) := by
      rintro ⟨k, a⟩ ⟨k', a'⟩ heq
      simpa using heq
    rw [List.concat_eq_append, hmap]
    refine List.Perm.map _ ((List.perm_ext_iff_of_nodup (hsub.nodup_entries.map hinj)
      (hpairs.filter _)).mpr ?_)
    rintro ⟨k, a⟩
    rw [List.mem_filter, under_append, List.mem_map, List.filterMap_map]
    constructor
    · rintro ⟨⟨k', a'⟩, hmem, heq⟩
      obtain ⟨rfl, rfl⟩ := Prod.mk.inj heq
      have hlookup := (hsub.mem_entries_iff _ _).mp hmem
      cases k' with
      | nil => exact absurd hlookup (by simp)
      | cons d xs =>
        obtain ⟨hpair, hfirst⟩ := h.lookup_sub.mp hlookup
        exact ⟨hpair, d, follows_append r d xs, hfirst⟩
    · rintro ⟨hmem, d, hd, hfirst⟩
      obtain ⟨xs, rfl⟩ := exists_of_follows hd
      exact ⟨(d :: xs, a), (hsub.mem_entries_iff _ _).mpr (h.lookup_sub.mpr ⟨hmem, hfirst⟩), rfl⟩

/-! ### The descent -/

/-- The node where the descent of a string ends: its own, if keys begin with it, or else the
one of the longest key that it begins with, or else the root. -/
def Stops (keys : List (List Byte)) (s q : List Byte) : Prop :=
  (s = [] ∨ ∃ k ∈ keys, s <+: k) ∧ q = s ∨
    (s ≠ [] ∧ ∀ k ∈ keys, ¬ s <+: k) ∧
      (Longest (· <+: s) keys q ∨ q = [] ∧ ∀ k ∈ keys, ¬ k <+: s)

theorem Stops.unique {keys : List (List Byte)} {s q q' : List Byte} (h : Stops keys s q)
    (h' : Stops keys s q') : q = q' := by
  rcases h with ⟨hin, rfl⟩ | ⟨⟨hs, hout⟩, h⟩
  · rcases h' with ⟨-, rfl⟩ | ⟨⟨hs, hout⟩, -⟩
    · rfl
    · rcases hin with hnil | ⟨k, hmem, hk⟩
      · exact absurd hnil hs
      · exact absurd hk (hout k hmem)
  · rcases h' with ⟨hin, -⟩ | ⟨-, h'⟩
    · rcases hin with hnil | ⟨k, hmem, hk⟩
      · exact absurd hnil hs
      · exact absurd hk (hout k hmem)
    · rcases h with h | ⟨rfl, hnone⟩
      · rcases h' with h' | ⟨rfl, hnone⟩
        · -- prefixes of one string, of the same length
          have hle := h.max q' h'.mem h'.meets
          have hle' := h'.max q h.mem h.meets
          rw [List.prefix_iff_eq_take.mp h.meets, List.prefix_iff_eq_take.mp h'.meets,
            le_antisymm hle' hle]
        · exact absurd h.meets (hnone q h.mem)
      · rcases h' with h' | ⟨rfl, -⟩
        · exact absurd h'.meets (hnone q' h'.mem)
        · rfl

theorem descend_cons (last t : Tst α) (x : Byte) (xs : List Byte) :
    descend last t (x :: xs) = if xs = [] then (last, t.sub x)
      else descend (if (t.val x).isSome then t.sub x else last) (t.mid x) xs := by
  induction t with
  | nil =>
    rw [descend]
    by_cases hxs : xs = []
    · rw [if_pos hxs]
      rfl
    · rw [if_neg hxs, mid_nil, descend]
      rfl
  | node s low equal high v ihlow _ ihhigh =>
    rw [descend, Tst.sub]
    by_cases hlt : x.toInt8 < s.toInt8
    · rw [if_pos hlt, if_pos hlt, ihlow, val_low hlt, mid_low hlt]
    · rw [if_neg hlt, if_neg hlt]
      by_cases heq : x = s
      · subst heq
        rw [if_pos rfl, if_pos rfl, val_eq_of_find find_self, mid_eq_of_find find_self]
      · rw [if_neg heq, if_neg heq, ihhigh, val_high hlt heq, mid_high hlt heq]

theorem descend_nil (last t : Tst α) : descend last t [] = (last, t) := by
  cases t <;> rfl

/-- The loop ends at the node of the string. -/
theorem descend_snd (last t : Tst α) (s : List Byte) : (descend last t s).2 = t.nodeAt s := by
  induction s generalizing last t with
  | nil => rw [descend_nil, nodeAt]
  | cons x xs ih =>
    rw [descend_cons, nodeAt]
    by_cases hxs : xs = []
    · rw [if_pos hxs, if_pos hxs]
    · rw [if_neg hxs, if_neg hxs, ih]

/-- A key that the string goes on behind. -/
def Passed (t : Tst α) (s q : List Byte) : Prop := q <+: s ∧ q ≠ s ∧ t.lookup q ≠ none

theorem passed_cons_iff (hq : q ≠ []) (xs : List Byte) :
    Passed t (x :: xs) (x :: q) ↔ Passed (t.mid x) xs q := by
  have hlookup : t.lookup (x :: q) = (t.mid x).lookup q := by rw [lookup, if_neg hq]
  rw [Passed, Passed, hlookup, List.prefix_cons_inj]
  simp

/-- A key that is passed is the first byte, or goes on behind it. -/
theorem Passed.cases (h : Passed t (x :: xs) q) :
    q = [x] ∨ ∃ q', q = x :: q' ∧ Passed (t.mid x) xs q' := by
  rcases q with _ | ⟨y, q⟩
  · exact absurd rfl h.2.2
  · obtain ⟨rfl, -⟩ := List.cons_prefix_cons.mp h.1
    by_cases hnil : q = []
    · exact .inl (by rw [hnil])
    · exact .inr ⟨q, rfl, (passed_cons_iff hnil xs).mp h⟩

/-- The loop remembers the node of the longest key that it passed. -/
theorem descend_fst (last t : Tst α) (s : List Byte) :
    (∃ q, Passed t s q ∧ (∀ q', Passed t s q' → q'.length ≤ q.length) ∧
        (descend last t s).1 = t.nodeAt q) ∨
      (∀ q, ¬ Passed t s q) ∧ (descend last t s).1 = last := by
  induction s generalizing last t with
  | nil =>
    refine .inr ⟨fun q hq => hq.2.1 (List.prefix_nil.mp hq.1), ?_⟩
    rw [descend_nil]
  | cons x xs ih =>
    rw [descend_cons]
    by_cases hxs : xs = []
    · rw [if_pos hxs]
      refine .inr ⟨fun q hq => ?_, rfl⟩
      subst hxs
      rcases q with _ | ⟨y, q⟩
      · exact hq.2.2 rfl
      · obtain ⟨rfl, hpre⟩ := List.cons_prefix_cons.mp hq.1
        exact hq.2.1 (by rw [List.prefix_nil.mp hpre])
    rw [if_neg hxs]
    rcases ih (if (t.val x).isSome then t.sub x else last) (t.mid x) with
      ⟨q, hq, hmax, hnode⟩ | ⟨hnone, hnode⟩
    · have hne : q ≠ [] := fun h => hq.2.2 (by rw [h, lookup_nil])
      refine .inl ⟨x :: q, (passed_cons_iff hne xs).mpr hq, fun q' hq' => ?_, ?_⟩
      · rcases hq'.cases with rfl | ⟨q'', rfl, hq''⟩
        · simp
        · simpa using hmax q'' hq''
      · rw [hnode, nodeAt, if_neg hne]
    · rw [hnode]
      by_cases hval : (t.val x).isSome = true
      · rw [if_pos hval]
        refine .inl ⟨[x], ⟨⟨xs, rfl⟩, by simpa using Ne.symm hxs, ?_⟩, fun q' hq' => ?_, rfl⟩
        · rw [lookup_singleton]
          exact Option.isSome_iff_ne_none.mp hval
        · rcases hq'.cases with rfl | ⟨q'', -, hq''⟩
          · exact le_rfl
          · exact absurd hq'' (hnone q'')
      · rw [if_neg hval]
        refine .inr ⟨fun q' hq' => ?_, rfl⟩
        rcases hq'.cases with rfl | ⟨q'', -, hq''⟩
        · exact hval (Option.isSome_iff_ne_none.mpr hq'.2.2)
        · exact hnone q'' hq''

theorem isNode_sub (t : Tst α) (c : Byte) : (t.sub c).isNode = true ↔ t.find c ≠ none := by
  induction t with
  | nil => simp [Tst.sub, find, isNode]
  | node s low equal high v ihlow _ ihhigh =>
    rw [Tst.sub, find]
    split_ifs
    · exact ihlow
    · simp [isNode]
    · exact ihhigh

theorem follows_eq_some_iff : follows r k = some d ↔ r ++ [d] <+: k := by
  constructor
  · intro h
    obtain ⟨xs, rfl⟩ := exists_of_follows h
    exact ⟨xs, by simp⟩
  · rintro ⟨xs, rfl⟩
    rw [List.append_assoc]
    exact follows_append r d xs

/-- A string has a node if it begins a key. -/
theorem Built.isNode_nodeAt_iff (h : Built pairs t) {s : List Byte} (hs : s ≠ []) :
    (t.nodeAt s).isNode = true ↔ ∃ k ∈ pairs.map Prod.fst, s <+: k := by
  obtain ⟨r, c, rfl⟩ := (List.eq_nil_or_concat s).resolve_left hs
  rw [List.concat_eq_append, nodeAt_append, isNode_sub, (h.level r).find_ne_none_iff]
  simp only [List.mem_filterMap, follows_eq_some_iff, List.mem_map, exists_exists_and_eq_and]

/-- The node that the traversal starts with. -/
def stopNode (t : Tst α) (s : List Byte) : Tst α :=
  if (descend t t s).2.isNode then (descend t t s).2 else (descend t t s).1

/-- **Where the descent ends.** -/
theorem descend_spec (h : Built pairs t) (s : List Byte) :
    ∃ q, Stops (pairs.map Prod.fst) s q ∧ stopNode t s = t.nodeAt q := by
  by_cases hs : s = []
  · subst hs
    refine ⟨[], .inl ⟨.inl rfl, rfl⟩, ?_⟩
    rw [stopNode, descend_nil, ite_self, nodeAt]
  have hnode := h.isNode_nodeAt_iff hs
  rw [stopNode, descend_snd]
  by_cases hin : (t.nodeAt s).isNode = true
  · rw [if_pos hin]
    exact ⟨s, .inl ⟨.inr (hnode.mp hin), rfl⟩, rfl⟩
  rw [if_neg hin]
  have hout : ∀ k ∈ pairs.map Prod.fst, ¬ s <+: k := fun k hmem hk => hin (hnode.mpr ⟨k, hmem, hk⟩)
  -- the keys that were passed are those that begin the string, for it is none itself
  have hpassed : ∀ q, Passed t s q ↔ q ∈ pairs.map Prod.fst ∧ q <+: s := by
    intro q
    have hlookup : t.lookup q ≠ none ↔ q ∈ pairs.map Prod.fst := by
      rw [Option.ne_none_iff_exists']
      simp [h.lookup]
    rw [Passed, hlookup]
    constructor
    · exact fun hq => ⟨hq.2.2, hq.1⟩
    · rintro ⟨hmem, hpre⟩
      exact ⟨hpre, fun heq => hout q hmem (heq ▸ List.prefix_refl q), hmem⟩
  rcases descend_fst t t s with ⟨q, hq, hmax, hfst⟩ | ⟨hnone, hfst⟩
  · obtain ⟨hmem, hpre⟩ := (hpassed q).mp hq
    exact ⟨q, .inr ⟨⟨hs, hout⟩, .inl ⟨hmem, hpre, fun k hk hpre =>
      hmax k ((hpassed k).mpr ⟨hk, hpre⟩)⟩⟩, hfst⟩
  · refine ⟨[], .inr ⟨⟨hs, hout⟩, .inr ⟨rfl, fun k hk hpre => ?_⟩⟩, hfst⟩
    exact hnone k ((hpassed k).mpr ⟨hk, hpre⟩)

/-! ### What is collected -/

theorem collect_some (t : Tst α) (s : List Byte) (f : α → Bool) :
    t.collect s (some f) = (stopNode t s).traverse.filter f := by
  rw [collect, stopNode]
  obtain ⟨last, p⟩ := descend t t s
  cases p with
  | node => simp [isNode]
  | nil =>
    cases last with
    | node => simp [isNode]
    | nil => rfl

theorem collect_none (t : Tst α) (s : List Byte) : t.collect s none = (t.nodeAt s).traverse := by
  rw [collect, ← descend_snd t t s]
  obtain ⟨last, p⟩ := descend t t s
  cases p with
  | node => simp [isNode]
  | nil => simp [isNode, traverse, queued, traverseLoop, size]

/-- `tst_collect` returns the values of the keys that start with a string, each once. -/
def Collects (pairs : List (List Byte × α)) (s : List Byte) (t : Tst α) : Prop :=
  (t.collect s none).Perm ((pairs.filter fun p => decide (s <+: p.1)).map Prod.snd)

theorem under_of_prefix {keys : List (List Byte)} {s : List Byte} (hk : k ∈ keys) (hs : s <+: k) :
    under keys s k = true := by
  rcases List.eq_nil_or_concat s with rfl | ⟨r, c, rfl⟩
  · rfl
  rw [List.concat_eq_append] at hs ⊢
  rw [under_append]
  have hfollows := follows_eq_some_iff.mpr hs
  have hbetween : ∀ x, between c c x = true → x = c := by
    intro x hx
    by_contra hne
    rw [between_iff] at hx
    exact hne (by rw [← UInt8.toUInt8_toInt8 x, ← UInt8.toUInt8_toInt8 c,
      Int8.toInt_inj.mp (by omega : x.toInt8.toInt = c.toInt8.toInt)])
  refine ⟨c, hfollows, ?_⟩
  cases hfind : (keys.filterMap (follows r)).find? (between c c) with
  | none =>
    have hnone := List.find?_eq_none.mp hfind c (List.mem_filterMap.mpr ⟨k, hk, hfollows⟩)
    exact absurd (between_left c c) hnone
  | some x => rw [hbetween x (List.find?_some hfind)]

theorem collects_iff (h : Built pairs t) (hnodup : (pairs.map Prod.fst).Nodup) (s : List Byte) :
    Collects pairs s t ↔
      ∀ k ∈ pairs.map Prod.fst, under (pairs.map Prod.fst) s k = true → s <+: k := by
  have hperm : (t.collect s none).Perm
      ((pairs.filter fun p => under (pairs.map Prod.fst) s p.1).map Prod.snd) := by
    rw [collect_none]
    exact (traverse_perm _).trans (h.values_nodeAt hnodup s)
  have hsub : (pairs.filter fun p => decide (s <+: p.1)).Sublist
      (pairs.filter fun p => under (pairs.map Prod.fst) s p.1) := by
    have hboth : (pairs.filter fun p => decide (s <+: p.1)) =
        (pairs.filter fun p => under (pairs.map Prod.fst) s p.1).filter
          fun p => decide (s <+: p.1) := by
      rw [List.filter_filter]
      refine List.filter_congr fun p hp => ?_
      by_cases hs : s <+: p.1
      · simp [hs, under_of_prefix (List.mem_map_of_mem hp) hs]
      · simp [hs]
    rw [hboth]
    exact List.filter_sublist
  constructor
  · intro hexact k hk hunder
    have hlen := (hperm.symm.trans hexact).length_eq
    rw [List.length_map, List.length_map] at hlen
    obtain ⟨p, hp, rfl⟩ := List.mem_map.mp hk
    have hmem : p ∈ pairs.filter fun p => decide (s <+: p.1) := by
      rw [hsub.eq_of_length hlen.symm]
      exact List.mem_filter.mpr ⟨hp, hunder⟩
    simpa using (List.mem_filter.mp hmem).2
  · intro hall
    refine hperm.trans (List.Perm.of_eq (congrArg _ (List.filter_congr fun p hp => ?_)))
    by_cases hs : s <+: p.1
    · simp [hs, under_of_prefix (List.mem_map_of_mem hp) hs]
    · have hnot := mt (hall p.1 (List.mem_map_of_mem hp)) hs
      simp [hs, hnot]

end

end Tst

/-! ### Routes -/

namespace RouteMap

open Tst

variable {β : Type*}

/-- What precedes the first parenthesis. -/
def literal (pattern : List Byte) : List Byte := pattern.takeWhile (· ≠ chr '(')

/-- What the calls insert. -/
def pairsOf (calls : List (List Byte × β)) : List (List Byte × Route β) :=
  calls.map fun c => (routeKey false c.1, routeOf false c)

/-- A route has the longest literal prefix of those that are prefixes of a path. -/
def HasLongest (calls : List (List Byte × β)) (path : List Byte) (c : List Byte × β) : Prop :=
  Longest (· <+: path) (calls.map fun c => literal c.1) (literal c.1)

/-- `RouteMap_match` returns the route with the longest literal prefix that is a prefix of the
path, if its pattern, if it has one, matches the path, and nothing else. -/
structure MatchesLongest (calls : List (List Byte × β)) (path : List Byte)
    (result : List (Route β)) : Prop where
  nodup : result.Nodup
  mem : ∀ r, r ∈ result ↔ ∃ c ∈ calls, HasLongest calls path c ∧
    collectMatch path (routeOf false c) = true ∧ routeOf false c = r

/-- Of the routes that pass, those at the node where the descent of the path ends are the one
with the longest literal prefix. -/
def OnlyLongest (calls : List (List Byte × β)) (path : List Byte) : Prop :=
  ∃ q, Tst.Stops (keysOf false calls) path q ∧
    ∀ c ∈ calls, collectMatch path (routeOf false c) = true →
      (under (keysOf false calls) q (routeKey false c.1) = true ↔ HasLongest calls path c)

section

variable {calls : List (List Byte × β)} {map : RouteMap β}

theorem insertAll_eq_ofPairs (calls : List (List Byte × β)) :
    insertAll false calls = (ofPairs (pairsOf calls)).map RouteMap.mk := by
  induction calls using List.reverseRecOn with
  | nil => rfl
  | append_singleton calls c ih =>
    have hpairs : pairsOf (calls ++ [c]) =
        pairsOf calls ++ [(routeKey false c.1, routeOf false c)] := List.map_append
    rw [insertAll_append, ih, hpairs, ofPairs_append]
    cases ofPairs (pairsOf calls) with
    | none => rfl
    | some t => exact insertRoute_eq t c

theorem keys_pairsOf (calls : List (List Byte × β)) :
    (pairsOf calls).map Prod.fst = keysOf false calls := by
  rw [pairsOf, List.map_map]
  rfl

/-- What `RouteMap_match` returns: the routes at the node where the descent ends that pass. -/
theorem exists_stops_matchAll (hmap : insertAll false calls = some map) (path : List Byte) :
    ∃ q, Tst.Stops (keysOf false calls) path q ∧ (map.matchAll path).Nodup ∧
      ∀ r, r ∈ map.matchAll path ↔ ∃ c ∈ calls,
        under (keysOf false calls) q (routeKey false c.1) = true ∧
          collectMatch path (routeOf false c) = true ∧ routeOf false c = r := by
  have hnodup : ((pairsOf calls).map Prod.fst).Nodup := by
    rw [keys_pairsOf]
    exact nodup_of_insertAll hmap
  have hne : [] ∉ (pairsOf calls).map Prod.fst := by
    rw [keys_pairsOf]
    intro hmem
    obtain ⟨c, -, hc⟩ := List.mem_map.mp hmem
    exact routeKey_ne_nil c.1 hc
  obtain ⟨t, ht, hbuilt⟩ := built_ofPairs hnodup hne
  rw [insertAll_eq_ofPairs, ht] at hmap
  obtain rfl := Option.some.inj hmap
  obtain ⟨q, hq, hstop⟩ := descend_spec hbuilt path
  have hperm : (RouteMap.matchAll ⟨t⟩ path).Perm ((((pairsOf calls).filter fun p =>
      under (keysOf false calls) q p.1).map Prod.snd).filter (collectMatch path)) := by
    rw [matchAll, collect_some, hstop, ← keys_pairsOf]
    exact ((traverse_perm _).trans (hbuilt.values_nodeAt hnodup q)).filter _
  refine ⟨q, keys_pairsOf calls ▸ hq, ?_, fun r => ?_⟩
  · refine hperm.nodup_iff.mpr (List.Nodup.filter _ ?_)
    -- a route tells its key by its pattern
    have hkey : ((pairsOf calls).map fun p => routeKey false p.2.pattern).Nodup := by
      rw [pairsOf, List.map_map]
      have hkeys := hnodup
      rw [pairsOf, List.map_map] at hkeys
      exact hkeys
    have hroutes : ((pairsOf calls).map Prod.snd).Nodup := by
      refine List.Nodup.of_map (fun r => routeKey false r.pattern) ?_
      rw [List.map_map]
      exact hkey
    exact hroutes.sublist (List.filter_sublist.map _)
  · rw [hperm.mem_iff, List.mem_filter, List.mem_map]
    constructor
    · rintro ⟨⟨p, hp, rfl⟩, hpass⟩
      obtain ⟨hmem, hunder⟩ := List.mem_filter.mp hp
      obtain ⟨c, hc, rfl⟩ := List.mem_map.mp hmem
      exact ⟨c, hc, hunder, hpass, rfl⟩
    · rintro ⟨c, hc, hunder, hpass, rfl⟩
      exact ⟨⟨_, List.mem_filter.mpr ⟨List.mem_map_of_mem hc, hunder⟩, rfl⟩, hpass⟩

theorem matchesLongest_iff (hmap : insertAll false calls = some map) (path : List Byte) :
    MatchesLongest calls path (map.matchAll path) ↔ OnlyLongest calls path := by
  obtain ⟨q, hq, hnodup, hmem⟩ := exists_stops_matchAll hmap path
  have hpattern : ∀ c c' : List Byte × β, routeOf false c = routeOf false c' → c.1 = c'.1 :=
    fun c c' h => congrArg Route.pattern h
  constructor
  · intro h
    refine ⟨q, hq, fun c hc hpass => ⟨fun hunder => ?_, fun hlongest => ?_⟩⟩
    · obtain ⟨c', -, hlongest, -, heq⟩ := (h.mem _).mp ((hmem _).mpr ⟨c, hc, hunder, hpass, rfl⟩)
      rw [HasLongest, hpattern c' c heq] at hlongest
      exact hlongest
    · obtain ⟨c', -, hunder, -, heq⟩ := (hmem _).mp ((h.mem _).mpr ⟨c, hc, hlongest, hpass, rfl⟩)
      rwa [hpattern c' c heq] at hunder
  · rintro ⟨q', hq', hall⟩
    obtain rfl := hq.unique hq'
    refine ⟨hnodup, fun r => (hmem r).trans ?_⟩
    refine exists_congr fun c => and_congr_right fun hc => ?_
    constructor
    · rintro ⟨hunder, hpass, heq⟩
      exact ⟨(hall c hc hpass).mp hunder, hpass, heq⟩
    · rintro ⟨hlongest, hpass, heq⟩
      exact ⟨(hall c hc hpass).mpr hlongest, hpass, heq⟩

end

/-- **What is collected**: the keys that start with a string, exactly if no others hang on the
node of its last byte; and the route of the longest literal prefix, exactly if of the routes
that pass it is the one where the descent ends. -/
theorem collect_exact_iff {α : Type*} {pairs : List (List Byte × α)} {s : List Byte}
    {calls : List (List Byte × β)} {map : RouteMap β} (hnodup : (pairs.map Prod.fst).Nodup)
    (hne : [] ∉ pairs.map Prod.fst) (hmap : insertAll false calls = some map)
    (path : List Byte) :
    (∃ t, ofPairs pairs = some t ∧ (Collects pairs s t ↔
      ∀ k ∈ pairs.map Prod.fst, under (pairs.map Prod.fst) s k = true → s <+: k)) ∧
      (MatchesLongest calls path (map.matchAll path) ↔ OnlyLongest calls path) := by
  obtain ⟨t, ht, hbuilt⟩ := built_ofPairs hnodup hne
  exact ⟨⟨t, ht, collects_iff hbuilt hnodup s⟩, matchesLongest_iff hmap path⟩

theorem collect_exact_iff_users :
    ∃ map, insertAll false [(bytes "/users/([0-9]+)", 1), (bytes "/users", 2)] = some map ∧
      (∃ t, ofPairs [(bytes "TEST2", 2), (bytes "TEST", 1)] = some t ∧
        (Collects [(bytes "TEST2", 2), (bytes "TEST", 1)] (bytes "TEST") t ↔
          ∀ k ∈ [bytes "TEST2", bytes "TEST"],
            under [bytes "TEST2", bytes "TEST"] (bytes "TEST") k = true → bytes "TEST" <+: k)) ∧
        (MatchesLongest [(bytes "/users/([0-9]+)", 1), (bytes "/users", 2)] (bytes "/users/1234")
            (map.matchAll (bytes "/users/1234")) ↔
          OnlyLongest [(bytes "/users/([0-9]+)", 1), (bytes "/users", 2)]
            (bytes "/users/1234")) :=
  ⟨_, rfl, collect_exact_iff (by decide) (by decide) rfl (bytes "/users/1234")⟩

/-- `RouteMap_match` returns the routes whose literal prefix is a prefix of the path and whose
pattern, if they have one, matches it. -/
def MatchesAll (calls : List (List Byte × β)) (path : List Byte) (result : List (Route β)) : Prop :=
  ∀ r, r ∈ result ↔ ∃ c ∈ calls, literal c.1 <+: path ∧
    collectMatch path (routeOf false c) = true ∧ routeOf false c = r

/-- A key beside the one that is asked for comes along; a route with a shorter prefix does
not. -/
theorem not_collect_exact :
    (∃ t, ofPairs [(bytes "a", 1), (bytes "b", 2)] = some t ∧
      ¬ Collects [(bytes "a", 1), (bytes "b", 2)] (bytes "a") t) ∧
      ∃ map, insertAll false [(bytes "/users/([0-9]+)", 1), (bytes "/users", 2)] = some map ∧
        ¬ MatchesAll [(bytes "/users/([0-9]+)", 1), (bytes "/users", 2)] (bytes "/users/1234")
          (map.matchAll (bytes "/users/1234")) := by
  refine ⟨⟨_, rfl, fun h => ?_⟩, _, rfl, fun h => ?_⟩
  · exact absurd h.length_eq (by decide)
  · have hmem := (h ⟨bytes "/users", 2, false⟩).mpr
      ⟨(bytes "/users", 2), by simp, by decide, by decide, by decide⟩
    exact absurd hmem (by decide)

end RouteMap

end Mongrel2

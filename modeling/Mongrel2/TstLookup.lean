/-
Looking up in the ternary tree (`tst.c`).

A level of the tree holds the bytes that can come next; `find` gives what is behind
one of them, whatever the shape of the level.

* `insertBase_find` — an insertion changes one byte of a level, and the level behind it;
* `lookup_ofKeys` — a tree built from keys holds these keys with their values;
* **`searchPrefix_exact_iff`** — `tst_search_prefix` finds the longest key that is a
  prefix, except where the string ends inside of other keys;
* **`searchSuffix_exact_iff`** — `tst_search_suffix` never looks at the first byte of
  the string, and what it finds there depends on the key that was inserted first.

Design notes: the keys come in the order of their insertions.  The value of a key is a
function of the key, and where keys are reversed, of the key as it was before.
-/
import Mongrel2.Routing

namespace Mongrel2

open ByteStream HttpParser

namespace Tst

variable {α : Type*}

/-! ### Levels -/

/-- The level behind a byte, and the value there. -/
def find : Tst α → Byte → Option (Tst α × Option α)
  | nil, _ => none
  | node s low equal high v, c =>
    if c.toInt8 < s.toInt8 then low.find c
    else if c = s then some (equal, v)
    else high.find c

/-- The level behind a byte. -/
def mid (t : Tst α) (c : Byte) : Tst α := ((t.find c).map Prod.fst).getD nil

/-- The value behind a byte. -/
def val (t : Tst α) (c : Byte) : Option α := (t.find c).bind Prod.snd

/-- The byte at the root. -/
def top : Tst α → Option Byte
  | nil => none
  | node s _ _ _ _ => some s

/-- The level behind some bytes. -/
def behind (t : Tst α) (s : List Byte) : Tst α := s.foldl mid t

/-- The value of a key. -/
def lookup : Tst α → List Byte → Option α
  | _, [] => none
  | t, c :: s => if s = [] then t.val c else lookup (t.mid c) s

/-- There is a node at the end of the string. -/
def has : Tst α → List Byte → Prop
  | _, [] => True
  | t, c :: s => if s = [] then t.find c ≠ none else has (t.mid c) s

/-- The value of the longest key that is a prefix of the string. -/
def best : Tst α → List Byte → Option α
  | _, [] => none
  | t, c :: s => best (t.mid c) s <|> t.val c

variable {t t' : Tst α} {c x : Byte} {rest s xs : List Byte} {v : α}

@[simp] theorem mid_nil (c : Byte) : (nil : Tst α).mid c = nil := rfl

@[simp] theorem val_nil (c : Byte) : (nil : Tst α).val c = none := rfl

theorem mid_eq_of_find {m : Tst α} {o : Option α} (h : t.find c = some (m, o)) : t.mid c = m := by
  rw [mid, h]
  rfl

theorem val_eq_of_find {m : Tst α} {o : Option α} (h : t.find c = some (m, o)) : t.val c = o := by
  rw [val, h]
  rfl

/-! ### An insertion -/

/-- Set the level behind a byte and the value there. -/
def put : Tst α → Byte → Tst α × Option α → Tst α
  | nil, c, e => node c nil e.1 nil e.2
  | node s low equal high v, c, e =>
    if c.toInt8 < s.toInt8 then node s (low.put c e) equal high v
    else if c = s then node s low e.1 high e.2
    else node s low equal (high.put c e) v

theorem find_put (t : Tst α) (c : Byte) (e : Tst α × Option α) : (t.put c e).find c = some e := by
  induction t with
  | nil => simp [put, find]
  | node s low equal high w ihlow _ ihhigh =>
    rw [put]
    split_ifs with hlt heq
    · rw [find, if_pos hlt, ihlow]
    · rw [find, if_neg hlt, if_pos heq]
    · rw [find, if_neg hlt, if_neg heq, ihhigh]

theorem find_put_ne (t : Tst α) (h : x ≠ c) (e : Tst α × Option α) :
    (t.put c e).find x = t.find x := by
  induction t with
  | nil => simp [put, find, h]
  | node s low equal high w ihlow _ ihhigh =>
    rw [put]
    split_ifs with hlt heq
    · rw [find, find, ihlow]
    · have hxs : x ≠ s := heq ▸ h
      rw [find, find, if_neg hxs, if_neg hxs]
    · rw [find, find, ihhigh]

theorem top_put (t : Tst α) (c : Byte) (e : Tst α × Option α) :
    (t.put c e).top = (t.top <|> some c) := by
  cases t with
  | nil => rfl
  | node s low equal high w =>
    rw [put]
    split_ifs <;> rfl

section

variable {low equal high : Tst α} {w : Option α} {d : Byte}

theorem mid_low (h : c.toInt8 < d.toInt8) : (node d low equal high w).mid c = low.mid c := by
  rw [mid, find, if_pos h, ← mid]

theorem val_low (h : c.toInt8 < d.toInt8) : (node d low equal high w).val c = low.val c := by
  rw [val, find, if_pos h, ← val]

theorem mid_high (h : ¬ c.toInt8 < d.toInt8) (hne : c ≠ d) :
    (node d low equal high w).mid c = high.mid c := by
  rw [mid, find, if_neg h, if_neg hne, ← mid]

theorem val_high (h : ¬ c.toInt8 < d.toInt8) (hne : c ≠ d) :
    (node d low equal high w).val c = high.val c := by
  rw [val, find, if_neg h, if_neg hne, ← val]

theorem find_self : (node d low equal high w).find d = some (equal, w) := by
  rw [find, if_neg (Std.Irrefl.irrefl d.toInt8), if_pos rfl]

end

/-- A key that ends with the byte sets its value, unless it has one. -/
theorem insertBase_nil (v : α) (t : Tst α) (c : Byte) :
    insertBase v t c [] = if (t.val c).isSome then none else some (t.put c (t.mid c, some v)) := by
  induction t with
  | nil => rfl
  | node s low equal high w ihlow _ ihhigh =>
    rw [insertBase, put]
    by_cases hlt : c.toInt8 < s.toInt8
    · rw [if_pos hlt, if_pos hlt, ihlow, val_low hlt, mid_low hlt]
      cases low.val c <;> rfl
    · rw [if_neg hlt, if_neg hlt]
      by_cases heq : c = s
      · subst heq
        rw [if_pos rfl, if_pos rfl, val_eq_of_find find_self, mid_eq_of_find find_self]
      · rw [if_neg heq, if_neg heq, ihhigh, val_high hlt heq, mid_high hlt heq]
        cases high.val c <;> rfl

/-- What is left of a longer key is inserted in the level behind the byte. -/
theorem insertBase_cons (v : α) (t : Tst α) (c d : Byte) (ds : List Byte) :
    insertBase v t c (d :: ds) =
      (insertBase v (t.mid c) d ds).map fun m => t.put c (m, t.val c) := by
  induction t with
  | nil => rfl
  | node s low equal high w ihlow _ ihhigh =>
    rw [insertBase]
    by_cases hlt : c.toInt8 < s.toInt8
    · rw [if_pos hlt, ihlow, val_low hlt, mid_low hlt, Option.map_map]
      simp only [put, if_pos hlt]
      rfl
    · rw [if_neg hlt]
      by_cases heq : c = s
      · subst heq
        rw [if_pos rfl, val_eq_of_find find_self, mid_eq_of_find find_self]
        simp only [put, if_neg hlt, ↓reduceIte]
      · rw [if_neg heq, ihhigh, val_high hlt heq, mid_high hlt heq, Option.map_map]
        simp only [put, if_neg hlt, if_neg heq]
        rfl

@[simp] theorem mid_put (t : Tst α) (c : Byte) (e : Tst α × Option α) :
    (t.put c e).mid c = e.1 := mid_eq_of_find (find_put t c e)

@[simp] theorem val_put (t : Tst α) (c : Byte) (e : Tst α × Option α) :
    (t.put c e).val c = e.2 := val_eq_of_find (find_put t c e)

theorem mid_put_ne (t : Tst α) (h : x ≠ c) (e : Tst α × Option α) :
    (t.put c e).mid x = t.mid x := by rw [mid, find_put_ne t h, mid]

theorem val_put_ne (t : Tst α) (h : x ≠ c) (e : Tst α × Option α) :
    (t.put c e).val x = t.val x := by rw [val, find_put_ne t h, val]

theorem find_ne_none_of_put (t : Tst α) (c x : Byte) (e : Tst α × Option α) :
    (t.put c e).find x ≠ none ↔ t.find x ≠ none ∨ x = c := by
  by_cases hx : x = c
  · subst hx
    simp [find_put]
  · simp [find_put_ne t hx, hx]

@[simp] theorem lookup_nil (t : Tst α) : t.lookup [] = none := rfl

@[simp] theorem lookup_singleton (t : Tst α) (c : Byte) : t.lookup [c] = t.val c := rfl

@[simp] theorem lookup_cons_cons (t : Tst α) (c d : Byte) (s : List Byte) :
    t.lookup (c :: d :: s) = (t.mid c).lookup (d :: s) := rfl

theorem lookup_put_ne (t : Tst α) (h : x ≠ c) (e : Tst α × Option α) (s : List Byte) :
    (t.put c e).lookup (x :: s) = t.lookup (x :: s) := by
  cases s with
  | nil => exact val_put_ne t h e
  | cons d s => rw [lookup_cons_cons, mid_put_ne t h, lookup_cons_cons]

theorem has_put_ne (t : Tst α) (h : x ≠ c) (e : Tst α × Option α) (s : List Byte) :
    (t.put c e).has (x :: s) ↔ t.has (x :: s) := by
  cases s with
  | nil => simp only [has, if_true, find_put_ne t h]
  | cons d s => simp only [has, reduceCtorEq, if_false, mid_put_ne t h]

/-- An insertion fails exactly on a key that has a value. -/
theorem insertBase_eq_none_iff (v : α) (t : Tst α) (c : Byte) (rest : List Byte) :
    insertBase v t c rest = none ↔ t.lookup (c :: rest) ≠ none := by
  induction rest generalizing c t with
  | nil =>
    rw [insertBase_nil, lookup_singleton]
    cases t.val c <;> simp
  | cons d ds ih => rw [insertBase_cons, Option.map_eq_none_iff, ih, lookup_cons_cons]

/-- An insertion gives the key its value, and leaves the others as they are. -/
theorem lookup_insertBase (h : insertBase v t c rest = some t') (k : List Byte) :
    t'.lookup k = if k = c :: rest then some v else t.lookup k := by
  induction rest generalizing c t t' k with
  | nil =>
    rw [insertBase_nil] at h
    split_ifs at h with hv
    obtain rfl := Option.some.inj h
    rcases k with _ | ⟨x, _ | ⟨d, s⟩⟩
    · simp
    · by_cases hx : x = c
      · subst hx
        simp
      · simp [val_put_ne t hx, hx]
    · by_cases hx : x = c
      · subst hx
        simp
      · simp [mid_put_ne t hx]
  | cons d ds ih =>
    rw [insertBase_cons] at h
    obtain ⟨m, hm, rfl⟩ := Option.map_eq_some_iff.mp h
    rcases k with _ | ⟨x, s⟩
    · simp
    · by_cases hx : x = c
      · subst hx
        cases s with
        | nil => simp
        | cons y s =>
          rw [lookup_cons_cons, mid_put, ih hm, lookup_cons_cons]
          simp
      · rw [lookup_put_ne t hx]
        simp [hx]

/-- An insertion makes the nodes on the way to the end of its key. -/
theorem has_insertBase (h : insertBase v t c rest = some t') (s : List Byte) :
    t'.has s ↔ t.has s ∨ s <+: c :: rest := by
  induction rest generalizing c t t' s with
  | nil =>
    rw [insertBase_nil] at h
    split_ifs at h with hv
    obtain rfl := Option.some.inj h
    rcases s with _ | ⟨x, _ | ⟨d, s⟩⟩
    · simp [has]
    · simp only [has, if_true, find_ne_none_of_put]
      simp [List.cons_prefix_cons]
    · by_cases hx : x = c
      · subst hx
        simp [has, List.cons_prefix_cons]
      · rw [has_put_ne t hx]
        simp [List.cons_prefix_cons, hx]
  | cons d ds ih =>
    rw [insertBase_cons] at h
    obtain ⟨m, hm, rfl⟩ := Option.map_eq_some_iff.mp h
    rcases s with _ | ⟨x, _ | ⟨y, s⟩⟩
    · simp [has]
    · simp only [has, if_true, find_ne_none_of_put]
      simp [List.cons_prefix_cons]
    · by_cases hx : x = c
      · subst hx
        have hmid : ∀ u : Tst α, u.has (x :: y :: s) ↔ (u.mid x).has (y :: s) := fun _ => Iff.rfl
        rw [hmid, hmid, mid_put, ih hm, List.cons_prefix_cons (a := x)]
        simp
      · rw [has_put_ne t hx]
        simp [List.cons_prefix_cons, hx]

/-- The byte that follows the string in the key. -/
def follows (s k : List Byte) : Option Byte := if s <+: k then (k.drop s.length).head? else none

theorem follows_cons_cons (x c : Byte) (s k : List Byte) :
    follows (x :: s) (c :: k) = if x = c then follows s k else none := by
  by_cases hx : x = c
  · subst hx
    simp [follows, List.cons_prefix_cons]
  · simp [follows, List.cons_prefix_cons, hx]

/-- The root of a level is the byte of the key that was inserted into it first. -/
theorem top_insertBase (h : insertBase v t c rest = some t') (s : List Byte) :
    (t'.behind s).top = ((t.behind s).top <|> follows s (c :: rest)) := by
  induction rest generalizing c t t' s with
  | nil =>
    rw [insertBase_nil] at h
    split_ifs at h with hv
    obtain rfl := Option.some.inj h
    cases s with
    | nil => exact top_put ..
    | cons x s =>
      have hbehind : ∀ u : Tst α, u.behind (x :: s) = (u.mid x).behind s := fun _ => rfl
      rw [hbehind, hbehind, follows_cons_cons]
      by_cases hx : x = c
      · subst hx
        rw [mid_put, if_pos rfl]
        cases s <;> simp [follows]
      · rw [mid_put_ne t hx, if_neg hx]
        simp
  | cons d ds ih =>
    rw [insertBase_cons] at h
    obtain ⟨m, hm, rfl⟩ := Option.map_eq_some_iff.mp h
    cases s with
    | nil => exact top_put ..
    | cons x s =>
      have hbehind : ∀ u : Tst α, u.behind (x :: s) = (u.mid x).behind s := fun _ => rfl
      rw [hbehind, hbehind, follows_cons_cons]
      by_cases hx : x = c
      · subst hx
        rw [mid_put, if_pos rfl, ih hm]
      · rw [mid_put_ne t hx, if_neg hx]
        simp

/-! ### The two searches -/

theorem orElse_assoc (a b c : Option α) : ((a <|> b) <|> c) = (a <|> (b <|> c)) := by
  cases a <;> rfl

theorem searchPrefixLoop_singleton (last : Option α) (t : Tst α) (x : Byte) :
    searchPrefixLoop last t [x] = ((t.find x).map Prod.snd).getD last := by
  induction t with
  | nil => rfl
  | node d low equal high w ihlow _ ihhigh =>
    rw [searchPrefixLoop, find]
    by_cases hlt : x.toInt8 < d.toInt8
    · rw [if_pos hlt, if_pos hlt, ihlow]
    · rw [if_neg hlt, if_neg hlt]
      by_cases heq : x = d
      · rw [if_pos heq, if_pos heq, if_pos rfl]
        rfl
      · rw [if_neg heq, if_neg heq, ihhigh]

/-- The loop takes a byte, remembers the value there and goes on behind it. -/
theorem searchPrefixLoop_cons (last : Option α) (t : Tst α) (x y : Byte) (s : List Byte) :
    searchPrefixLoop last t (x :: y :: s) =
      searchPrefixLoop (t.val x <|> last) (t.mid x) (y :: s) := by
  induction t with
  | nil => rfl
  | node d low equal high w ihlow _ ihhigh =>
    rw [searchPrefixLoop]
    by_cases hlt : x.toInt8 < d.toInt8
    · rw [if_pos hlt, ihlow, val_low hlt, mid_low hlt]
    · rw [if_neg hlt]
      by_cases heq : x = d
      · subst heq
        rw [if_pos rfl, if_neg (by simp), val_eq_of_find find_self, mid_eq_of_find find_self]
      · rw [if_neg heq, ihhigh, val_high hlt heq, mid_high hlt heq]

/-- `tst_search_prefix` answers with the value of the string if it ends in a node, be
there one or not, and else with that of the longest key that is a prefix. -/
theorem searchPrefixLoop_spec (last : Option α) (t : Tst α) {s : List Byte} (hs : s ≠ []) :
    (t.has s → searchPrefixLoop last t s = t.lookup s) ∧
      (¬ t.has s → searchPrefixLoop last t s = (t.best s <|> last)) := by
  induction s generalizing last t with
  | nil => exact absurd rfl hs
  | cons x s ih =>
    cases s with
    | nil =>
      rw [searchPrefixLoop_singleton, lookup_singleton, val]
      simp only [has, if_true, best, val]
      cases t.find x <;> simp
    | cons y s =>
      have hhas : t.has (x :: y :: s) ↔ (t.mid x).has (y :: s) := Iff.rfl
      obtain ⟨hpos, hneg⟩ := ih (t.val x <|> last) (t.mid x) (by simp)
      rw [searchPrefixLoop_cons, hhas]
      refine ⟨hpos, fun h => ?_⟩
      rw [hneg h, best]
      exact (orElse_assoc ..).symm

/-- The loop of `tst_search_suffix` takes a byte in the same way, unless it is the last
one to be looked at. -/
theorem searchSuffixLoop_cons (last : Option α) (t : Tst α) (x y : Byte) (s : List Byte) :
    searchSuffixLoop last t (x :: y :: s) =
      searchSuffixLoop (t.val x <|> last) (t.mid x) (y :: s) := by
  induction t with
  | nil => cases s <;> rfl
  | node d low equal high w ihlow _ ihhigh =>
    rw [searchSuffixLoop]
    by_cases hlt : x.toInt8 < d.toInt8
    · rw [if_pos hlt, ihlow, val_low hlt, mid_low hlt]
    · rw [if_neg hlt]
      by_cases heq : x = d
      · subst heq
        rw [if_pos rfl, val_eq_of_find find_self, mid_eq_of_find find_self]
      · rw [if_neg heq, ihhigh, val_high hlt heq, mid_high hlt heq]

/-- The value at the root. -/
def rootVal (t : Tst α) : Option α := t.top.bind t.val

theorem searchSuffixLoop_singleton (last : Option α) (t : Tst α) (x : Byte) :
    searchSuffixLoop last t [x] = if t.top = none then last else t.rootVal := by
  cases t with
  | nil => rfl
  | node d low equal high w =>
    rw [if_neg (by simp [top]), rootVal, top, Option.bind_some, val_eq_of_find find_self]
    rfl

/-- `tst_search_suffix` answers with the value at the root of the level behind all
bytes but the last, whatever this is. -/
theorem searchSuffixLoop_spec (last : Option α) (t : Tst α) (s : List Byte) (x : Byte) :
    searchSuffixLoop last t (s ++ [x]) =
      if (t.behind s).top = none then (t.best s <|> last) else (t.behind s).rootVal := by
  induction s generalizing last t with
  | nil => exact searchSuffixLoop_singleton ..
  | cons y s ih =>
    have hcons : ∃ z zs, s ++ [x] = z :: zs := by
      cases s with
      | nil => exact ⟨x, [], rfl⟩
      | cons z zs => exact ⟨z, zs ++ [x], rfl⟩
    obtain ⟨z, zs, hz⟩ := hcons
    rw [List.cons_append, hz, searchSuffixLoop_cons, ← hz, ih, best, orElse_assoc]
    rfl

/-! ### Trees of keys -/

/-- The tree into which the keys have been inserted, one after the other. -/
def ofKeys (value : List Byte → α) (keys : List (List Byte)) : Option (Tst α) :=
  keys.foldlM (fun t k => t.insert k (value k)) nil

/-- What a tree of keys holds. -/
structure Holds (value : List Byte → α) (keys : List (List Byte)) (t : Tst α) : Prop where
  lookup : ∀ k, t.lookup k = if k ∈ keys then some (value k) else none
  has : ∀ s, s ≠ [] → (t.has s ↔ ∃ k ∈ keys, s <+: k)
  top : ∀ s, (t.behind s).top = keys.findSome? (follows s)

theorem holds_nil (value : List Byte → α) : Holds value [] nil where
  lookup k := by
    induction k with
    | nil => simp
    | cons c k ih =>
      cases k with
      | nil => simp
      | cons d k => simpa using ih
  has s hs := by
    have hnil : ¬ (nil : Tst α).has s := by
      induction s with
      | nil => exact absurd rfl hs
      | cons c s ih =>
        cases s with
        | nil => simp [has, find]
        | cons d s => exact ih (by simp)
    simp [hnil]
  top s := by
    have hnil : (nil : Tst α).behind s = nil := by
      induction s with
      | nil => rfl
      | cons c s ih => exact ih
    rw [hnil]
    rfl

theorem Holds.insert {value : List Byte → α} {keys : List (List Byte)} {k : List Byte}
    (h : Holds value keys t) (hk : k ≠ []) (ht : t.insert k (value k) = some t') :
    Holds value (keys ++ [k]) t' := by
  obtain ⟨c, rest, rfl⟩ := List.exists_cons_of_ne_nil hk
  have ht : insertBase (value (c :: rest)) t c rest = some t' := ht
  refine ⟨fun k' => ?_, fun s hs => ?_, fun s => ?_⟩
  · rw [lookup_insertBase ht, h.lookup]
    by_cases hk' : k' = c :: rest
    · simp [hk']
    · simp [hk']
  · rw [has_insertBase ht, h.has s hs]
    simp [or_and_right, exists_or]
  · rw [top_insertBase ht, h.top, List.findSome?_append]
    cases hf : follows s (c :: rest) <;> simp [hf]

/-- **A tree is built of any keys, and holds them.** -/
theorem holds_ofKeys (value : List Byte → α) {keys : List (List Byte)} (hnodup : keys.Nodup)
    (hne : [] ∉ keys) : ∃ t, ofKeys value keys = some t ∧ Holds value keys t := by
  induction keys using List.reverseRecOn with
  | nil => exact ⟨nil, rfl, holds_nil value⟩
  | append_singleton keys k ih =>
    rw [List.nodup_append] at hnodup
    rw [List.mem_append, List.mem_singleton, not_or] at hne
    obtain ⟨t, ht, hholds⟩ := ih hnodup.1 hne.1
    have hk : k ∉ keys := fun hmem => hnodup.2.2 k hmem k (List.mem_singleton_self k) rfl
    have hk' : k ≠ [] := fun h => hne.2 h.symm
    cases hins : t.insert k (value k) with
    | none =>
      obtain ⟨c, rest, rfl⟩ := List.exists_cons_of_ne_nil hk'
      have hlookup := (insertBase_eq_none_iff _ t c rest).mp hins
      rw [hholds.lookup, if_neg hk] at hlookup
      exact absurd rfl hlookup
    | some t' =>
      refine ⟨t', ?_, hholds.insert hk' hins⟩
      rw [ofKeys, List.foldlM_append, ← ofKeys, ht]
      show ([k].foldlM (fun t k => t.insert k (value k)) t) = some t'
      rw [List.foldlM_cons, hins]
      rfl

/-! ### The longest key -/

theorem best_eq_none {s : List Byte} (h : ∀ k, k <+: s → t.lookup k = none) : t.best s = none := by
  induction s generalizing t with
  | nil => rfl
  | cons x s ih =>
    have hval : t.val x = none := h [x] (by simp [List.cons_prefix_cons])
    have hmid : (t.mid x).best s = none := by
      refine ih fun k hk => ?_
      cases k with
      | nil => rfl
      | cons y k =>
        have hxk : x :: y :: k <+: x :: s := (List.cons_prefix_cons).mpr ⟨rfl, hk⟩
        exact h _ hxk
    rw [best, hmid, hval]
    rfl

theorem best_eq_some {s k : List Byte} (hk : k <+: s) (hv : t.lookup k = some v)
    (hmax : ∀ k', k' <+: s → k.length < k'.length → t.lookup k' = none) :
    t.best s = some v := by
  induction s generalizing t k with
  | nil =>
    rw [List.prefix_nil.mp hk] at hv
    exact absurd hv (by simp)
  | cons x s ih =>
    cases k with
    | nil => exact absurd hv (by simp)
    | cons x' k =>
      obtain ⟨rfl, hks⟩ := List.cons_prefix_cons.mp hk
      cases k with
      | nil =>
        -- no longer key starts with this byte
        have hmid : (t.mid x').best s = none := by
          refine best_eq_none fun k' hk' => ?_
          cases k' with
          | nil => rfl
          | cons y k' =>
            have hxk : x' :: y :: k' <+: x' :: s := (List.cons_prefix_cons).mpr ⟨rfl, hk'⟩
            exact hmax _ hxk (by simp)
        have hval : t.val x' = some v := hv
        rw [best, hmid, hval]
        rfl
      | cons y k =>
        have hmid : (t.mid x').best s = some v := by
          refine ih hks hv fun k' hk' hlen => ?_
          cases k' with
          | nil => rfl
          | cons z k' =>
            have hxk : x' :: z :: k' <+: x' :: s := (List.cons_prefix_cons).mpr ⟨rfl, hk'⟩
            exact hmax _ hxk (by simpa using hlen)
        rw [best, hmid]
        rfl

/-- The longest of the keys that meet `p`. -/
structure Longest (p : List Byte → Prop) (keys : List (List Byte)) (k : List Byte) : Prop where
  mem : k ∈ keys
  meets : p k
  max : ∀ k' ∈ keys, p k' → k'.length ≤ k.length

theorem exists_longest {p : List Byte → Prop} {keys : List (List Byte)}
    (h : ∃ k ∈ keys, p k) : ∃ k, Longest p keys k := by
  induction keys with
  | nil =>
    obtain ⟨k, hmem, -⟩ := h
    exact absurd hmem List.not_mem_nil
  | cons a keys ih =>
    by_cases hrest : ∃ k ∈ keys, p k
    · obtain ⟨k, hk⟩ := ih hrest
      by_cases ha : p a ∧ k.length < a.length
      · refine ⟨a, List.mem_cons_self, ha.1, fun k' hmem hp => ?_⟩
        rcases List.mem_cons.mp hmem with rfl | hmem
        · exact le_rfl
        · exact (hk.max k' hmem hp).trans ha.2.le
      · refine ⟨k, List.mem_cons_of_mem a hk.mem, hk.meets, fun k' hmem hp => ?_⟩
        rcases List.mem_cons.mp hmem with rfl | hmem
        · exact not_lt.mp fun hlt => ha ⟨hp, hlt⟩
        · exact hk.max k' hmem hp
    · obtain ⟨k, hmem, hp⟩ := h
      rcases List.mem_cons.mp hmem with rfl | hmem
      · refine ⟨k, List.mem_cons_self, hp, fun k' hmem' hp' => ?_⟩
        rcases List.mem_cons.mp hmem' with rfl | hmem'
        · exact le_rfl
        · exact absurd ⟨k', hmem', hp'⟩ hrest
      · exact absurd ⟨k, hmem, hp⟩ hrest

/-- The answer is the value of the longest key that meets `p`, and there is none exactly
if no key does. -/
structure Exact (p : List Byte → Prop) (value : List Byte → α) (keys : List (List Byte))
    (answer : Option α) : Prop where
  longest : ∀ k, Longest p keys k → answer = some (value k)
  missing : answer = none ↔ ∀ k ∈ keys, ¬ p k

/-- In a tree of keys, `best` is exact. -/
theorem Holds.exact_best {value : List Byte → α} {keys : List (List Byte)}
    (h : Holds value keys t) (s : List Byte) : Exact (· <+: s) value keys (t.best s) := by
  have hlongest : ∀ k, Longest (· <+: s) keys k → t.best s = some (value k) := by
    intro k hk
    refine best_eq_some hk.meets (by rw [h.lookup, if_pos hk.mem]) fun k' hk' hlen => ?_
    rw [h.lookup, if_neg fun hmem => absurd (hk.max k' hmem hk') (by omega)]
  refine ⟨hlongest, fun hnone k hmem hk => ?_, fun hnone => ?_⟩
  · obtain ⟨k', hk'⟩ := @exists_longest (· <+: s) keys ⟨k, hmem, hk⟩
    rw [hlongest k' hk'] at hnone
    exact absurd hnone (by simp)
  · exact best_eq_none fun k hk => by rw [h.lookup, if_neg fun hmem => hnone k hmem hk]

/-! ### Longest prefixes -/

/-- **`tst_search_prefix` is exact** unless the string ends inside of keys, is none
itself, and another key is a prefix of it. -/
theorem searchPrefix_exact_iff (value : List Byte → α) {keys : List (List Byte)}
    (hnodup : keys.Nodup) (hne : [] ∉ keys) {s : List Byte} (hs : s ≠ []) :
    ∃ t, ofKeys value keys = some t ∧
      (Exact (· <+: s) value keys (t.searchPrefix s) ↔
        s ∈ keys ∨ (∀ k ∈ keys, ¬ s <+: k) ∨ ∀ k ∈ keys, ¬ k <+: s) := by
  obtain ⟨t, ht, h⟩ := holds_ofKeys value hnodup hne
  refine ⟨t, ht, ?_⟩
  have hexact := h.exact_best s
  rw [searchPrefix, if_neg hs]
  obtain ⟨hpos, hneg⟩ := searchPrefixLoop_spec none t hs
  by_cases hhas : t.has s
  · rw [hpos hhas, h.lookup]
    obtain ⟨k₀, hmem₀, hk₀⟩ := (h.has s hs).mp hhas
    by_cases hmem : s ∈ keys
    · -- the string is the longest key itself
      refine iff_of_true ⟨fun k hk => ?_, ?_⟩ (.inl hmem)
      · have hle := hk.max s hmem (List.prefix_refl s)
        rw [if_pos hmem, hk.meets.eq_of_length_le hle]
      · rw [if_pos hmem]
        refine iff_of_false (by simp) fun hnone => ?_
        exact hnone s hmem (List.prefix_refl s)
    · rw [if_neg hmem]
      have hinside : ¬ ∀ k ∈ keys, ¬ s <+: k := fun h => h k₀ hmem₀ hk₀
      constructor
      · exact fun he => .inr (.inr (he.missing.mp rfl))
      · rintro (h | h | h)
        · exact absurd h hmem
        · exact absurd h hinside
        · exact ⟨fun k hk => absurd hk.meets (h k hk.mem), iff_of_true rfl h⟩
  · -- the loop left the tree
    have hbest : (t.best s <|> none) = t.best s := by cases t.best s <;> rfl
    rw [hneg hhas, hbest]
    refine iff_of_true hexact (.inr (.inl fun k hmem hk => ?_))
    exact hhas ((h.has s hs).mpr ⟨k, hmem, hk⟩)

/-- The string is a key. -/
theorem searchPrefix_exact_iff_key :
    ∃ t, ofKeys id [bytes "/a/bc", bytes "/a"] = some t ∧
      (Exact (· <+: bytes "/a") id [bytes "/a/bc", bytes "/a"] (t.searchPrefix (bytes "/a")) ↔
        bytes "/a" ∈ [bytes "/a/bc", bytes "/a"] ∨
          (∀ k ∈ [bytes "/a/bc", bytes "/a"], ¬ bytes "/a" <+: k) ∨
          ∀ k ∈ [bytes "/a/bc", bytes "/a"], ¬ k <+: bytes "/a") :=
  searchPrefix_exact_iff id (by decide) (by decide) (by decide)

/-- The string ends inside of a key, and nothing is found. -/
theorem not_searchPrefix_exact_inside :
    ∃ t, ofKeys id [bytes "/a/bc", bytes "/a"] = some t ∧
      t.searchPrefix (bytes "/a/b") = none ∧
      ¬ Exact (· <+: bytes "/a/b") id [bytes "/a/bc", bytes "/a"]
        (t.searchPrefix (bytes "/a/b")) := by
  refine ⟨_, rfl, by decide, fun h => ?_⟩
  exact h.missing.mp (by decide) (bytes "/a") (by decide) (by decide)

/-! ### Longest suffixes -/

/-- The tree into which the keys have been inserted reversed. -/
def ofKeysReversed (value : List Byte → α) (keys : List (List Byte)) : Option (Tst α) :=
  keys.foldlM (fun t k => t.insert k.reverse (value k)) nil

theorem ofKeysReversed_eq (value : List Byte → α) (keys : List (List Byte)) :
    ofKeysReversed value keys = ofKeys (fun k => value k.reverse) (keys.map List.reverse) := by
  rw [ofKeys, List.foldlM_map]
  simp only [List.reverse_reverse]
  rfl

theorem Exact.congr {p q : List Byte → Prop} {value : List Byte → α} {keys : List (List Byte)}
    {answer : Option α} (h : Exact p value keys answer) (hpq : ∀ k ∈ keys, (p k ↔ q k)) :
    Exact q value keys answer := by
  refine ⟨fun k hk => h.longest k ⟨hk.mem, (hpq k hk.mem).mpr hk.meets, ?_⟩, ?_⟩
  · exact fun k' hmem hp => hk.max k' hmem ((hpq k' hmem).mp hp)
  · rw [h.missing]
    exact forall₂_congr fun k hmem => not_congr (hpq k hmem)

theorem Exact.reverse {value : List Byte → α} {keys : List (List Byte)} {answer : Option α}
    {s : List Byte}
    (h : Exact (· <+: s.reverse) (fun k => value k.reverse) (keys.map List.reverse) answer) :
    Exact (· <:+ s) value keys answer := by
  have hmem : ∀ k, k.reverse ∈ keys.map List.reverse ↔ k ∈ keys := fun k =>
    List.mem_map_of_injective List.reverse_injective
  refine ⟨fun k hk => ?_, ?_⟩
  · have hlongest := h.longest k.reverse ⟨(hmem k).mpr hk.mem, List.reverse_prefix.mpr hk.meets, ?_⟩
    · rwa [List.reverse_reverse] at hlongest
    · intro k' hmem' hp
      obtain ⟨k₂, hmem₂, rfl⟩ := List.mem_map.mp hmem'
      rw [List.length_reverse, List.length_reverse]
      exact hk.max k₂ hmem₂ (List.reverse_prefix.mp hp)
  · rw [h.missing]
    simp only [List.forall_mem_map, List.reverse_prefix]

theorem lookup_append_singleton (t : Tst α) (r : List Byte) (d : Byte) :
    t.lookup (r ++ [d]) = (t.behind r).val d := by
  induction r generalizing t with
  | nil => rfl
  | cons c r ih =>
    have hbehind : t.behind (c :: r) = (t.mid c).behind r := rfl
    rw [hbehind, ← ih]
    cases r <;> rfl

/-- The key that was inserted first of those that go on before the last bytes of `s`. -/
def crossed (keys : List (List Byte)) (s : List Byte) : Option (List Byte) :=
  keys.find? fun k => decide (s.tail <:+ k ∧ k ≠ s.tail)

/-- No key crosses the string; or it is a key, and the first one that does ends in it; or
neither its end nor that of the key, of the same length, has a value. -/
def Clear (keys : List (List Byte)) (s : List Byte) : Prop :=
  ∀ k, crossed keys s = some k →
    if s ∈ keys then s <:+ k
    else k.drop (k.length - s.length) ∉ keys ∧ ∀ k' ∈ keys, ¬ k' <:+ s

theorem follows_reverse (r k : List Byte) (d : Byte) :
    follows r.reverse k.reverse = some d ↔ d :: r <:+ k := by
  rw [follows]
  constructor
  · intro h
    split_ifs at h with hr
    obtain ⟨m, rfl⟩ := List.reverse_prefix.mp hr
    have hlast : m.getLast? = some d := by simpa using h
    obtain ⟨init, rfl⟩ := List.getLast?_eq_some_iff.mp hlast
    exact ⟨init, by simp⟩
  · rintro ⟨m, rfl⟩
    simp

theorem exists_cons_suffix_iff (r k : List Byte) : (∃ d, d :: r <:+ k) ↔ r <:+ k ∧ k ≠ r := by
  constructor
  · rintro ⟨d, m, rfl⟩
    refine ⟨⟨m ++ [d], by simp⟩, fun h => ?_⟩
    have hlen := congrArg List.length h
    rw [List.length_append, List.length_cons] at hlen
    omega
  · rintro ⟨⟨m, rfl⟩, hne⟩
    have hm : m ≠ [] := by
      rintro rfl
      exact hne rfl
    refine ⟨m.getLast hm, m.dropLast, ?_⟩
    conv_rhs => rw [← List.dropLast_append_getLast hm]
    rw [List.append_assoc]
    rfl

/-- The root behind the end of the string belongs to the key that crosses it. -/
theorem findSome?_follows (keys : List (List Byte)) (c : Byte) (r : List Byte) :
    (keys.map List.reverse).findSome? (follows r.reverse) =
      (crossed keys (c :: r)).bind fun k => follows r.reverse k.reverse := by
  rw [crossed]
  induction keys with
  | nil => rfl
  | cons k keys ih =>
    rw [List.map_cons, List.findSome?_cons, List.find?_cons, ih]
    cases hf : follows r.reverse k.reverse with
    | some d =>
      have hk := (exists_cons_suffix_iff r k).mp ⟨d, (follows_reverse r k d).mp hf⟩
      simp [hk, hf]
    | none =>
      have hk : ¬ (r <:+ k ∧ k ≠ r) := by
        rw [← exists_cons_suffix_iff]
        rintro ⟨d, hd⟩
        rw [(follows_reverse r k d).mpr hd] at hf
        exact absurd hf (by simp)
      simp only [List.tail_cons, hk, decide_false]

/-- A key that crosses the string has an end of its own, as long as the string. -/
theorem exists_of_crossed {keys : List (List Byte)} {c : Byte} {r k : List Byte}
    (h : crossed keys (c :: r) = some k) :
    ∃ d, d :: r <:+ k ∧ k.drop (k.length - (c :: r).length) = d :: r := by
  rw [crossed] at h
  have hk := List.find?_some h
  obtain ⟨d, hd⟩ := (exists_cons_suffix_iff r k).mpr (of_decide_eq_true hk)
  have hlen : (c :: r).length = (d :: r).length := rfl
  exact ⟨d, hd, by rw [hlen, ← List.suffix_iff_eq_drop.mp hd]⟩

/-- What `tst_search_suffix` answers. -/
theorem searchSuffix_spec (value : List Byte → α) {keys : List (List Byte)}
    (hnodup : keys.Nodup) (hne : [] ∉ keys) :
    ∃ t, ofKeysReversed value keys = some t ∧ ∀ s, s ≠ [] →
      (crossed keys s = none → Exact (· <:+ s) value keys (t.searchSuffix s)) ∧
      ∀ k, crossed keys s = some k →
        t.searchSuffix s =
          if k.drop (k.length - s.length) ∈ keys then some (value (k.drop (k.length - s.length)))
          else none := by
  have hnodup' : (keys.map List.reverse).Nodup := hnodup.map List.reverse_injective
  have hne' : [] ∉ keys.map List.reverse := by simpa using hne
  obtain ⟨t, ht, h⟩ := holds_ofKeys (fun k => value k.reverse) hnodup' hne'
  refine ⟨t, (ofKeysReversed_eq value keys).trans ht, fun s hs => ?_⟩
  obtain ⟨c, r, rfl⟩ := List.exists_cons_of_ne_nil hs
  have htop := h.top r.reverse
  rw [findSome?_follows keys c r] at htop
  rw [searchSuffix, if_neg hs, List.reverse_cons, searchSuffixLoop_spec]
  constructor
  · intro hcross
    have hbest : (t.best r.reverse <|> none) = t.best r.reverse := by
      cases t.best r.reverse <;> rfl
    rw [hcross, Option.bind_none] at htop
    rw [if_pos htop, hbest]
    refine (h.exact_best r.reverse).reverse.congr fun k hmem => ?_
    have hk : ¬ (r <:+ k ∧ k ≠ r) := fun h =>
      List.find?_eq_none.mp hcross k hmem (decide_eq_true h)
    refine ⟨fun hsuf => hsuf.trans (List.suffix_cons c r), fun hsuf => ?_⟩
    rcases List.suffix_cons_iff.mp hsuf with rfl | hsuf
    · exact absurd ⟨List.suffix_cons c r, List.cons_ne_self c r⟩ hk
    · exact hsuf
  · intro k hcross
    obtain ⟨d, hd, hdrop⟩ := exists_of_crossed hcross
    rw [hcross, Option.bind_some, (follows_reverse r k d).mpr hd] at htop
    rw [hdrop, if_neg (by simp [htop]), rootVal, htop, Option.bind_some,
      ← lookup_append_singleton, h.lookup]
    have hrev : r.reverse ++ [d] = (d :: r).reverse := by rw [List.reverse_cons]
    rw [hrev]
    simp only [List.mem_map_of_injective List.reverse_injective, List.reverse_reverse]

/-- **`tst_search_suffix` is exact**, whatever the values, unless a key crosses the
string, and the first one that does stands for another answer. -/
theorem searchSuffix_exact_iff [Nontrivial α] {keys : List (List Byte)} (hnodup : keys.Nodup)
    (hne : [] ∉ keys) {s : List Byte} (hs : s ≠ []) :
    (∀ value : List Byte → α, ∃ t, ofKeysReversed value keys = some t ∧
      Exact (· <:+ s) value keys (t.searchSuffix s)) ↔ Clear keys s := by
  constructor
  · intro hall k hcross
    obtain ⟨c, r, rfl⟩ := List.exists_cons_of_ne_nil hs
    obtain ⟨d, hd, hdrop⟩ := exists_of_crossed hcross
    -- values that tell the end of the crossing key from every other key
    obtain ⟨a, b, hab⟩ := exists_pair_ne α
    let value : List Byte → α := fun k' => if k' = d :: r then a else b
    obtain ⟨t, ht, hexact⟩ := hall value
    obtain ⟨t', ht', hspec⟩ := searchSuffix_spec value hnodup hne
    obtain rfl : t = t' := Option.some.inj (ht.symm.trans ht')
    have hanswer := (hspec _ hs).2 k hcross
    rw [hdrop] at hanswer
    have hb : ∀ k', k' ≠ d :: r → value k' = b := fun k' hk' => if_neg hk'
    have ha : value (d :: r) = a := if_pos rfl
    split_ifs with hmem
    · by_contra hk
      have hne' : c :: r ≠ d :: r := fun h => hk (h ▸ hd)
      have hlongest := hexact.longest (c :: r)
        ⟨hmem, List.suffix_refl _, fun k' _ hk' => hk'.length_le⟩
      rw [hanswer, hb _ hne', ha] at hlongest
      split_ifs at hlongest
      exact hab (Option.some.inj hlongest)
    · rw [hdrop]
      have hend : d :: r ∉ keys := by
        intro hdmem
        rw [if_pos hdmem, ha] at hanswer
        by_cases hsuf : ∃ k' ∈ keys, k' <:+ c :: r
        · obtain ⟨k', hk'⟩ := exists_longest hsuf
          have hne' : k' ≠ d :: r := by
            rintro rfl
            exact hmem (hk'.meets.eq_of_length rfl ▸ hdmem)
          have hlongest := hexact.longest k' hk'
          rw [hanswer, hb k' hne'] at hlongest
          exact hab (Option.some.inj hlongest)
        · have hnone := hexact.missing.mpr fun k' hmem' hk' => hsuf ⟨k', hmem', hk'⟩
          rw [hanswer] at hnone
          exact absurd hnone (by simp)
      rw [if_neg hend] at hanswer
      exact ⟨hend, hexact.missing.mp hanswer⟩
  · intro hclear value
    obtain ⟨t, ht, hspec⟩ := searchSuffix_spec value hnodup hne
    refine ⟨t, ht, ?_⟩
    obtain ⟨hnone, hsome⟩ := hspec s hs
    cases hcross : crossed keys s with
    | none => exact hnone hcross
    | some k =>
      have hk := hclear k hcross
      rw [hsome k hcross]
      split_ifs at hk with hmem
      · -- the key that crosses the string ends in it
        have hdrop : k.drop (k.length - s.length) = s := (List.suffix_iff_eq_drop.mp hk).symm
        rw [hdrop, if_pos hmem]
        refine ⟨fun k' hk' => ?_, ?_⟩
        · have hle := hk'.max s hmem (List.suffix_refl s)
          rw [hk'.meets.eq_of_length_le hle]
        · refine iff_of_false (by simp) fun hnone => ?_
          exact hnone s hmem (List.suffix_refl s)
      · rw [if_neg hk.1]
        exact ⟨fun k' hk' => absurd hk'.meets (hk.2 k' hk'.mem), iff_of_true rfl hk.2⟩

instance (keys : List (List Byte)) (s : List Byte) : Decidable (Clear keys s) :=
  decidable_of_iff (∀ k ∈ crossed keys s, if s ∈ keys then s <:+ k
    else k.drop (k.length - s.length) ∉ keys ∧ ∀ k' ∈ keys, ¬ k' <:+ s) Iff.rfl

/-- Two virtual hosts of one domain. -/
theorem searchSuffix_exact_iff_hosts :
    (∀ value : List Byte → ℕ, ∃ t,
      ofKeysReversed value [bytes "a.net", bytes "b.a.net"] = some t ∧
        Exact (· <:+ bytes "www.a.net") value [bytes "a.net", bytes "b.a.net"]
          (t.searchSuffix (bytes "www.a.net"))) ↔
      Clear [bytes "a.net", bytes "b.a.net"] (bytes "www.a.net") :=
  searchSuffix_exact_iff (by decide) (by decide) (by decide)

/-- A host is found for a name that differs from it in the first byte. -/
theorem not_searchSuffix_exact_first :
    ∃ t, ofKeysReversed id [bytes "a.net"] = some t ∧
      t.searchSuffix (bytes "b.net") = some (bytes "a.net") ∧
      ¬ Exact (· <:+ bytes "b.net") id [bytes "a.net"] (t.searchSuffix (bytes "b.net")) := by
  refine ⟨_, rfl, by decide, fun h => ?_⟩
  have hnone := h.missing.mpr (by decide)
  exact absurd hnone (by decide)

end Tst

end Mongrel2

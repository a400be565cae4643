/-
The ternary tree as a map (`tst.c`).

* `ofPairs` — the tree into which pairs of a key and a value have been inserted;
* `search_eq_lookup` — `tst_search` goes down one level for each byte of the key;
* **`search_exact`** — a search finds the value of a key that was inserted, and nothing
  for any other string, in whatever order the keys came.

Design notes: at the last byte of the key `tst_search` stays at its node.  The key has a
byte at least: of an empty one the search answers with the value at the root.
-/
import Mongrel2.TstLookup

namespace Mongrel2

open ByteStream HttpParser

namespace Tst

variable {α : Type*}

/-- The tree into which the pairs have been inserted, one after the other. -/
def ofPairs (pairs : List (List Byte × α)) : Option (Tst α) :=
  pairs.foldlM (fun t p => t.insert p.1 p.2) nil

/-- The tree is a map from the keys to their values. -/
structure IsMap (pairs : List (List Byte × α)) (t : Tst α) : Prop where
  found : ∀ p ∈ pairs, t.search p.1 = some p.2
  missing : ∀ k, k ≠ [] → k ∉ pairs.map Prod.fst → t.search k = none

/-- The order of the insertions does not matter to a search. -/
def OrderFree (pairs : List (List Byte × α)) (t : Tst α) : Prop :=
  ∀ pairs', pairs.Perm pairs' →
    ∃ t', ofPairs pairs' = some t' ∧ ∀ k, k ≠ [] → t'.search k = t.search k

section

variable {t t' : Tst α} {pairs : List (List Byte × α)} {k : List Byte} {v : α}

/-! ### The search -/

/-- The search takes a byte, and goes on behind it unless it was the last one. -/
theorem search_cons (t : Tst α) (x : Byte) (xs : List Byte) :
    t.search (x :: xs) = if xs = [] then t.val x else (t.mid x).search xs := by
  induction t with
  | nil =>
    by_cases hxs : xs = []
    · rw [if_pos hxs, val_nil, search]
    · rw [if_neg hxs, mid_nil, search, search]
  | node d low equal high w ihlow _ ihhigh =>
    rw [search]
    by_cases hlt : x.toInt8 < d.toInt8
    · rw [if_pos hlt, ihlow, val_low hlt, mid_low hlt]
    · rw [if_neg hlt]
      by_cases heq : x = d
      · subst heq
        rw [if_pos rfl, val_eq_of_find find_self, mid_eq_of_find find_self]
      · rw [if_neg heq, ihhigh, val_high hlt heq, mid_high hlt heq]

/-- A search looks a key up. -/
theorem search_eq_lookup (t : Tst α) (hk : k ≠ []) : t.search k = t.lookup k := by
  induction k generalizing t with
  | nil => exact absurd rfl hk
  | cons x xs ih =>
    rw [search_cons, lookup]
    by_cases hxs : xs = []
    · rw [if_pos hxs, if_pos hxs]
    · rw [if_neg hxs, if_neg hxs, ih _ hxs]

/-! ### Trees of pairs -/

theorem ofPairs_append (pairs : List (List Byte × α)) (p : List Byte × α) :
    ofPairs (pairs ++ [p]) = (ofPairs pairs).bind fun t => t.insert p.1 p.2 := by
  rw [ofPairs, List.foldlM_append]
  refine congrArg _ (funext fun t => ?_)
  rw [List.foldlM_cons]
  cases t.insert p.1 p.2 <;> rfl

/-- An insertion fails exactly on a key that has a value. -/
theorem insert_eq_none_iff (hk : k ≠ []) : t.insert k v = none ↔ t.lookup k ≠ none := by
  obtain ⟨c, rest, rfl⟩ := List.exists_cons_of_ne_nil hk
  exact insertBase_eq_none_iff v t c rest

/-- An insertion gives the key its value, and leaves the others as they are. -/
theorem lookup_insert (hk : k ≠ []) (h : t.insert k v = some t') (k' : List Byte) :
    t'.lookup k' = if k' = k then some v else t.lookup k' := by
  obtain ⟨c, rest, rfl⟩ := List.exists_cons_of_ne_nil hk
  exact lookup_insertBase h k'

theorem lookup_nil_tree (k : List Byte) : (nil : Tst α).lookup k = none := by
  induction k with
  | nil => rfl
  | cons c k ih =>
    rw [lookup]
    by_cases hk : k = []
    · rw [if_pos hk, val_nil]
    · rw [if_neg hk, mid_nil, ih]

/-- **Pairs with different keys can all be inserted**, and each key has its value then. -/
theorem ofPairs_spec (hnodup : (pairs.map Prod.fst).Nodup) (hne : [] ∉ pairs.map Prod.fst) :
    ∃ t, ofPairs pairs = some t ∧ ∀ k v, t.lookup k = some v ↔ (k, v) ∈ pairs := by
  induction pairs using List.reverseRecOn with
  | nil =>
    refine ⟨nil, rfl, ?_⟩
    intro k v
    rw [lookup_nil_tree]
    simp
  | append_singleton pairs p ih =>
    obtain ⟨k, v⟩ := p
    rw [List.map_append, List.nodup_append] at hnodup
    rw [List.map_append, List.mem_append, not_or] at hne
    obtain ⟨t, ht, hlookup⟩ := ih hnodup.1 hne.1
    have hk : k ≠ [] := by
      intro hk
      exact hne.2 (by simp [hk])
    have hnew : t.lookup k = none := by
      by_contra hsome
      obtain ⟨v', hv'⟩ := Option.ne_none_iff_exists'.mp hsome
      have hmem : k ∈ pairs.map Prod.fst := List.mem_map_of_mem ((hlookup k v').mp hv')
      exact hnodup.2.2 k hmem k (by simp) rfl
    obtain ⟨t', ht'⟩ : ∃ t', t.insert k v = some t' := by
      rw [← Option.ne_none_iff_exists']
      intro hnone
      exact (insert_eq_none_iff hk).mp hnone hnew
    refine ⟨t', ?_, ?_⟩
    · rw [ofPairs_append, ht]
      exact ht'
    · intro k' v'
      rw [lookup_insert hk ht' k', List.mem_append, List.mem_singleton, ← hlookup]
      by_cases hk' : k' = k
      · subst hk'
        rw [if_pos rfl, hnew]
        simp [eq_comm]
      · rw [if_neg hk']
        simp [hk']

/-- Pairs in another order have the same values. -/
theorem orderFree_of_lookup (hnodup : (pairs.map Prod.fst).Nodup) (hne : [] ∉ pairs.map Prod.fst)
    (hlookup : ∀ k v, t.lookup k = some v ↔ (k, v) ∈ pairs) : OrderFree pairs t := by
  intro pairs' hperm
  have hkeys := hperm.map Prod.fst
  obtain ⟨t', ht', hlookup'⟩ := ofPairs_spec (hkeys.nodup_iff.mp hnodup)
    (fun hmem => hne (hkeys.mem_iff.mpr hmem))
  refine ⟨t', ht', ?_⟩
  intro k hk
  rw [search_eq_lookup t' hk, search_eq_lookup t hk]
  refine Option.ext fun v => ?_
  rw [hlookup' k v, hlookup k v, hperm.mem_iff]

/-- **The ternary tree is a map**, whatever the keys and the order they are inserted in. -/
theorem search_exact (hnodup : (pairs.map Prod.fst).Nodup) (hne : [] ∉ pairs.map Prod.fst) :
    ∃ t, ofPairs pairs = some t ∧ IsMap pairs t ∧ OrderFree pairs t := by
  obtain ⟨t, ht, hlookup⟩ := ofPairs_spec hnodup hne
  refine ⟨t, ht, ⟨?_, ?_⟩, orderFree_of_lookup hnodup hne hlookup⟩
  · intro p hp
    have hk : p.1 ≠ [] := by
      intro hk
      exact hne (hk ▸ List.mem_map_of_mem hp)
    rw [search_eq_lookup t hk]
    exact (hlookup p.1 p.2).mpr hp
  · intro k hk hmem
    rw [search_eq_lookup t hk]
    by_contra hsome
    obtain ⟨v, hv⟩ := Option.ne_none_iff_exists'.mp hsome
    exact hmem (List.mem_map_of_mem ((hlookup k v).mp hv))

end

/-- A key, and another that goes on behind it. -/
theorem search_exact_two :
    ∃ t, ofPairs [(bytes "TEST2", 2), (bytes "TEST", 1)] = some t ∧
      IsMap [(bytes "TEST2", 2), (bytes "TEST", 1)] t ∧
        OrderFree [(bytes "TEST2", 2), (bytes "TEST", 1)] t :=
  search_exact (by decide) (by decide)

end Tst

end Mongrel2

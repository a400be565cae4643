/-
The values of a ternary tree (`tst.c`).

* `values` — all of them;
* `mem_values_of_searchPrefix`, `mem_values_of_searchSuffix` — what a lookup finds is
  one of them;
* `traverse_perm` — the traversal gives each of them to its callback once.
-/
import Mongrel2.Routing

namespace Mongrel2

open ByteStream HttpParser

namespace Tst

variable {α : Type*}

/-- The values of a tree, in the order of their keys. -/
def values : Tst α → List α
  | nil => []
  | node _ low equal high v => low.values ++ (v.toList ++ equal.values) ++ high.values

/-! ### Lookups -/

theorem mem_values_node {c : Byte} {low equal high : Tst α} {v : Option α} {a : α} :
    a ∈ (node c low equal high v).values ↔
      v = some a ∨ a ∈ low.values ∨ a ∈ equal.values ∨ a ∈ high.values := by
  simp only [values, List.mem_append, Option.mem_toList]
  tauto

/-- What a loop remembers is the value of the node or what it remembered before. -/
theorem eq_some_of_orElse {v last : Option α} {a : α} (h : (v <|> last) = some a) :
    last = some a ∨ v = some a := by
  rcases v with _ | b
  · exact .inl h
  · exact .inr h

theorem mem_values_of_searchPrefixLoop {last : Option α} {t : Tst α} {s : List Byte} {a : α}
    (h : searchPrefixLoop last t s = some a) : last = some a ∨ a ∈ t.values := by
  induction t generalizing last s with
  | nil => exact .inl h
  | node c low equal high v ihlow ihequal ihhigh =>
    rw [mem_values_node]
    cases s with
    | nil => exact .inr (.inl h)
    | cons x xs =>
      rw [searchPrefixLoop] at h
      split_ifs at h
      · exact (ihlow h).imp_right fun ha => .inr (.inl ha)
      · exact .inr (.inl h)
      · rcases ihequal h with hlast | ha
        · exact (eq_some_of_orElse hlast).imp_right .inl
        · exact .inr (.inr (.inr (.inl ha)))
      · exact (ihhigh h).imp_right fun ha => .inr (.inr (.inr ha))

theorem mem_values_of_searchPrefix {t : Tst α} {s : List Byte} {a : α}
    (h : t.searchPrefix s = some a) : a ∈ t.values := by
  unfold searchPrefix at h
  split at h
  · exact absurd h (by simp)
  · exact (mem_values_of_searchPrefixLoop h).resolve_left (by simp)

theorem mem_values_of_searchSuffixLoop {last : Option α} {t : Tst α} {s : List Byte} {a : α}
    (h : searchSuffixLoop last t s = some a) : last = some a ∨ a ∈ t.values := by
  induction t generalizing last s with
  | nil => exact .inl h
  | node c low equal high v ihlow ihequal ihhigh =>
    rw [mem_values_node]
    rcases s with _ | ⟨x, _ | ⟨y, xs⟩⟩
    · exact .inr (.inl h)
    · exact .inr (.inl h)
    · rw [searchSuffixLoop] at h
      split_ifs at h
      · exact (ihlow h).imp_right fun ha => .inr (.inl ha)
      · rcases ihequal h with hlast | ha
        · exact (eq_some_of_orElse hlast).imp_right .inl
        · exact .inr (.inr (.inr (.inl ha)))
      · exact (ihhigh h).imp_right fun ha => .inr (.inr (.inr ha))

theorem mem_values_of_searchSuffix {t : Tst α} {s : List Byte} {a : α}
    (h : t.searchSuffix s = some a) : a ∈ t.values := by
  unfold searchSuffix at h
  split at h
  · exact absurd h (by simp)
  · exact (mem_values_of_searchSuffixLoop h).resolve_left (by simp)

/-! ### The traversal -/

/-- The nodes below those of a queue, and these. -/
def sizes (queue : List (Tst α)) : ℕ := (queue.map size).sum

theorem sizes_append (q q' : List (Tst α)) : sizes (q ++ q') = sizes q + sizes q' := by
  simp [sizes]

theorem sizes_queued (t : Tst α) : sizes t.queued = t.size := by
  cases t <;> simp [sizes, queued, size]

theorem flatMap_queued (t : Tst α) : t.queued.flatMap values = t.values := by
  cases t <;> simp [queued, values]

theorem queued_ne_nil {t u : Tst α} (h : u ∈ t.queued) : u ≠ nil := by
  cases t with
  | nil => exact absurd h (by simp [queued])
  | node c low equal high v =>
    obtain rfl := List.mem_singleton.mp h
    simp

/-- A queue is taken to its end, and each value below it once. -/
theorem traverseLoop_perm {n : ℕ} {queue : List (Tst α)} (hne : ∀ t ∈ queue, t ≠ nil)
    (hn : sizes queue ≤ n) : (traverseLoop n queue).Perm (queue.flatMap values) := by
  induction n generalizing queue with
  | zero =>
    rcases queue with _ | ⟨_ | ⟨c, low, equal, high, v⟩, queue⟩
    · exact .refl _
    · exact absurd rfl (hne nil (List.mem_cons_self ..))
    · simp [sizes, size] at hn
  | succ n ih =>
    rcases queue with _ | ⟨_ | ⟨c, low, equal, high, v⟩, queue⟩
    · exact .refl _
    · exact absurd rfl (hne nil (List.mem_cons_self ..))
    · have hlinks : ∀ t ∈ queue ++ low.queued ++ equal.queued ++ high.queued, t ≠ nil := by
        intro t ht
        simp only [List.mem_append] at ht
        rcases ht with ((ht | ht) | ht) | ht
        · exact hne t (List.mem_cons_of_mem _ ht)
        · exact queued_ne_nil ht
        · exact queued_ne_nil ht
        · exact queued_ne_nil ht
      have hsize : sizes (queue ++ low.queued ++ equal.queued ++ high.queued) ≤ n := by
        have hqueue : sizes (node c low equal high v :: queue) =
            low.size + equal.size + high.size + 1 + sizes queue := by simp [sizes, size]
        simp only [sizes_append, sizes_queued]
        omega
      show (v.toList ++ traverseLoop n _).Perm _
      refine ((ih hlinks hsize).append_left v.toList).trans ?_
      simp only [List.flatMap_append, List.flatMap_cons, flatMap_queued, values]
      -- the links of the node move from the end of the queue to its place
      classical
      rw [List.perm_iff_count]
      intro a
      simp only [List.count_append]
      omega

/-- **A traversal comes to every value once.** -/
theorem traverse_perm (t : Tst α) : t.traverse.Perm t.values := by
  rw [← flatMap_queued t]
  exact traverseLoop_perm (fun u hu => queued_ne_nil hu) (sizes_queued t).le

end Tst

end Mongrel2

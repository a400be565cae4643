/-
Sweeping an array: the entries that meet a condition are taken out one by one, and
the last entry moves into the place of each.

* `swapErase` — an entry is removed and the last one takes its place;
* `sweep` — the loop: it visits `n` entries that meet `p`, looking for each from where
  it found the one before;
* **`sweep_spec`** — if there are `n` of them, the loop visits each once and leaves
  the others;
* `sweepUntil` — the loop, with what it has done when a visit fails.
-/
import Mathlib.Data.List.Perm.Basic
import Mathlib.Tactic.Common

namespace Sweep

variable {α σ : Type*} {p : α → Bool}

/-- Remove entry `i`; the last entry takes its place. -/
def swapErase (l : List α) (i : ℕ) : List α :=
  match l.getLast? with
  | some a => (l.set i a).dropLast
  | none => l

theorem swapErase_append_singleton (l : List α) (a : α) (i : ℕ) :
    swapErase (l ++ [a]) i = if i < l.length then l.set i a else l := by
  have hlast : (l ++ [a]).getLast? = some a := List.getLast?_concat
  rw [swapErase, hlast]
  dsimp only
  split
  case isTrue h => rw [List.set_append_left _ _ h, List.dropLast_concat]
  case isFalse h =>
    rw [List.set_append_right _ _ (by omega), List.dropLast_append_of_ne_nil (by simp)]
    cases i - l.length <;> simp

theorem swapErase_perm {l : List α} {i : ℕ} (h : i < l.length) :
    (swapErase l i).Perm (l.eraseIdx i) := by
  obtain ⟨init, a, rfl⟩ : ∃ init a, l = init ++ [a] :=
    ⟨l.dropLast, l.getLast (List.ne_nil_of_length_pos (by omega)),
      (List.dropLast_append_getLast _).symm⟩
  rw [swapErase_append_singleton]
  rw [List.length_append, List.length_singleton] at h
  split
  case isTrue hi =>
    rw [List.eraseIdx_append_of_lt_length hi]
    refine (List.set_perm_cons_eraseIdx hi a).trans ?_
    exact (List.perm_append_singleton a _).symm
  case isFalse hi =>
    have hlen : i = init.length := by omega
    rw [List.eraseIdx_append_of_length_le (by omega), hlen, Nat.sub_self]
    simp

theorem take_swapErase {l : List α} {i : ℕ} (h : i < l.length) :
    (swapErase l i).take i = l.take i := by
  obtain ⟨init, a, rfl⟩ : ∃ init a, l = init ++ [a] :=
    ⟨l.dropLast, l.getLast (List.ne_nil_of_length_pos (by omega)),
      (List.dropLast_append_getLast _).symm⟩
  rw [swapErase_append_singleton]
  rw [List.length_append, List.length_singleton] at h
  rw [List.take_append_of_le_length (by omega)]
  split
  · rw [List.take_set_of_le (Nat.le_refl i)]
  · rfl

/-- Visit `n` entries that meet `p`, from position `i` on; a visit that fails ends the
loop. -/
def sweep (p : α → Bool) (visit : σ → α → Option σ) : ℕ → ℕ → List α → σ → Option (List α × σ)
  | 0, _, l, s => some (l, s)
  | n + 1, i, l, s =>
    let i := i + (l.drop i).findIdx p
    match l[i]? with
    | none => none
    | some a => (visit s a).bind fun s => sweep p visit n i (swapErase l i) s

/-- Where the loop finds the next entry. -/
theorem exists_next {l : List α} {i : ℕ} (hbefore : ∀ a ∈ l.take i, p a = false)
    (hsome : 0 < l.countP p) :
    ∃ (j : ℕ) (h : j < l.length), i + (l.drop i).findIdx p = j ∧ p l[j] = true ∧
      ∀ a ∈ l.take j, p a = false := by
  obtain ⟨a, ha, hpa⟩ := List.countP_pos_iff.mp hsome
  have hrest : ∃ a ∈ l.drop i, p a = true := by
    rw [← List.take_append_drop i l] at ha
    rcases List.mem_append.mp ha with ha | ha
    · rw [hbefore a ha] at hpa
      exact absurd hpa (by simp)
    · exact ⟨a, ha, hpa⟩
  have hlt := List.findIdx_lt_length_of_exists hrest
  have hlen : (l.drop i).findIdx p < l.length - i := by
    rw [← List.length_drop]
    exact hlt
  refine ⟨i + (l.drop i).findIdx p, by omega, rfl, ?_, ?_⟩
  · have hget : p ((l.drop i)[(l.drop i).findIdx p]) = true := List.findIdx_getElem
    rw [List.getElem_drop] at hget
    exact hget
  · intro a ha
    obtain ⟨k, hk, rfl⟩ := List.getElem_of_mem ha
    rw [List.getElem_take]
    rw [List.length_take] at hk
    by_cases hki : k < i
    · refine hbefore _ ?_
      have hk' : k < (l.take i).length := by
        rw [List.length_take]
        omega
      have hget := List.getElem_mem hk'
      rwa [List.getElem_take] at hget
    · have hfind : k - i < (l.drop i).findIdx p := by omega
      have hnot := List.not_of_lt_findIdx hfind
      rw [List.getElem_drop] at hnot
      have hsum : i + (k - i) = k := by omega
      simpa [hsum] using hnot

/-- **The sweep visits each entry with `p` once, and leaves the others.** -/
theorem sweep_spec (visit : σ → α → Option σ) {n i : ℕ} {l : List α}
    (hbefore : ∀ a ∈ l.take i, p a = false) (hn : l.countP p = n) :
    ∃ visited rest : List α, visited.Perm (l.filter p) ∧ rest.Perm (l.filter fun a => !p a) ∧
      ∀ s, sweep p visit n i l s = (visited.foldlM visit s).map fun s => (rest, s) := by
  induction n generalizing i l with
  | zero =>
    have hnone : ∀ a ∈ l, p a = false := by
      simpa [List.countP_eq_zero] using hn
    refine ⟨[], l, ?_, ?_, fun s => rfl⟩
    · rw [List.filter_eq_nil_iff.mpr fun a ha => by simp [hnone a ha]]
    · rw [List.filter_eq_self.mpr fun a ha => by simp [hnone a ha]]
  | succ n ih =>
    obtain ⟨j, hj, hfind, hpj, hbefore'⟩ := exists_next hbefore (by omega : 0 < l.countP p)
    have hperm : l.Perm (l[j] :: swapErase l j) :=
      (List.getElem_cons_eraseIdx_perm hj).symm.trans ((swapErase_perm hj).symm.cons l[j])
    have hcount : (swapErase l j).countP p = n := by
      have h := hperm.countP_eq p
      rw [List.countP_cons_of_pos hpj] at h
      omega
    obtain ⟨visited, rest, hvisited, hrest, hsweep⟩ :=
      ih (fun a ha => hbefore' a (take_swapErase hj ▸ ha)) hcount
    refine ⟨l[j] :: visited, rest, ?_, ?_, fun s => ?_⟩
    · have h := hperm.filter p
      rw [List.filter_cons_of_pos hpj] at h
      exact (hvisited.cons l[j]).trans h.symm
    · have h := hperm.filter fun a => !p a
      rw [List.filter_cons_of_neg (by simp [hpj])] at h
      exact hrest.trans h.symm
    · rw [sweep, hfind, List.getElem?_eq_getElem hj, List.foldlM_cons]
      dsimp only
      cases hv : visit s l[j] with
      | none => rfl
      | some s' => exact hsweep s'

/-! ### Visits that fail -/

/-- The loop with visits that do something even where they fail; then it ends, and the
entry is still in place. -/
def sweepUntil (p : α → Bool) (visit : σ → α → Bool × σ) :
    ℕ → ℕ → List α → σ → Bool × List α × σ
  | 0, _, l, s => (true, l, s)
  | n + 1, i, l, s =>
    let i := i + (l.drop i).findIdx p
    match l[i]? with
    | none => (false, l, s)
    | some a =>
      match visit s a with
      | (true, s) => sweepUntil p visit n i (swapErase l i) s
      | (false, s) => (false, l, s)

/-- A visit as `sweep` has it. -/
def orFail (visit : σ → α → Bool × σ) (s : σ) (a : α) : Option σ :=
  if (visit s a).1 then some (visit s a).2 else none

variable {visit : σ → α → Bool × σ}

/-- Where no visit fails, it is the loop above. -/
theorem sweepUntil_of_sweep {n i : ℕ} {l l' : List α} {s s' : σ}
    (h : sweep p (orFail visit) n i l s = some (l', s')) :
    sweepUntil p visit n i l s = (true, l', s') := by
  induction n generalizing i l s with
  | zero =>
    obtain ⟨rfl, rfl⟩ := Prod.mk.inj (Option.some.inj h)
    rfl
  | succ n ih =>
    rw [sweep] at h
    rw [sweepUntil]
    cases ha : l[i + (l.drop i).findIdx p]? with
    | none =>
      rw [ha] at h
      exact absurd h (by simp)
    | some a =>
      rw [ha] at h
      obtain ⟨t, ht, hrest⟩ := Option.bind_eq_some_iff.mp h
      obtain ⟨hok, ht⟩ := Option.ite_none_right_eq_some.mp ht
      obtain rfl := Option.some.inj ht
      have hvisit : visit s a = (true, (visit s a).2) := Prod.ext hok rfl
      dsimp only
      rw [hvisit]
      exact ih hrest

/-- What every visit keeps, the loop keeps, however it ends. -/
theorem sweepUntil_inv {I : σ → Prop} (hvisit : ∀ s a, I s → I (visit s a).2) (n i : ℕ)
    (l : List α) {s : σ} (hs : I s) : I (sweepUntil p visit n i l s).2.2 := by
  induction n generalizing i l s with
  | zero => exact hs
  | succ n ih =>
    rw [sweepUntil]
    cases l[i + (l.drop i).findIdx p]? with
    | none => exact hs
    | some a =>
      have hnext := hvisit s a hs
      dsimp only
      generalize visit s a = v at hnext
      rcases v with ⟨_ | _, s'⟩
      · exact hnext
      · exact ih _ _ hnext

theorem length_swapErase_le (l : List α) (i : ℕ) : (swapErase l i).length ≤ l.length := by
  unfold swapErase
  split
  · rw [List.length_dropLast, List.length_set]
    omega
  · exact Nat.le_refl _

theorem length_sweepUntil_le (n i : ℕ) (l : List α) (s : σ) :
    (sweepUntil p visit n i l s).2.1.length ≤ l.length := by
  induction n generalizing i l s with
  | zero => exact Nat.le_refl _
  | succ n ih =>
    rw [sweepUntil]
    cases l[i + (l.drop i).findIdx p]? with
    | none => exact Nat.le_refl _
    | some a =>
      dsimp only
      rcases visit s a with ⟨_ | _, s'⟩
      · exact Nat.le_refl _
      · exact Nat.le_trans (ih _ _ _) (length_swapErase_le _ _)

end Sweep

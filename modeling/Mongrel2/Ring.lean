/-
Lists in a ring buffer.

`Ring.Holds slots start xs` says that the ring holds `xs`, from the slot `start` on and
around its end.

* `Holds.head`, `Holds.tail` — the first element stands at `start`, and the others are
  held from the next slot on;
* `Holds.push` — an element behind the last is held as well, as long as there is a slot;
* `Holds.unrolled` — the elements at the beginning of other slots are a ring again.
-/
import Mathlib.Data.List.Basic
import Mathlib.Data.Nat.ModEq

namespace Ring

variable {α : Type*}

/-- The ring holds the elements, from the slot `start` on. -/
structure Holds (slots : List α) (start : ℕ) (xs : List α) : Prop where
  start_lt : start < slots.length
  fits : xs.length ≤ slots.length
  slot : ∀ i, i < xs.length → slots[(start + i) % slots.length]? = xs[i]?

variable {slots : List α} {start i j : ℕ} {x : α} {xs : List α}

/-- Different elements stand in different slots. -/
theorem slot_ne (h : i < j) (hj : j < slots.length) :
    (start + i) % slots.length ≠ (start + j) % slots.length := by
  intro heq
  have hmod : (j - i) % slots.length = 0 := by
    have hdvd := (Nat.modEq_iff_dvd' (by omega : start + i ≤ start + j)).mp heq
    rw [Nat.add_sub_add_left] at hdvd
    exact Nat.mod_eq_zero_of_dvd hdvd
  rw [Nat.mod_eq_of_lt (by omega)] at hmod
  omega

namespace Holds

/-- An element is read at `start`. -/
theorem head (h : Holds slots start (x :: xs)) : slots[start]? = some x := by
  have hslot := h.slot 0 (by simp)
  rw [Nat.add_zero, Nat.mod_eq_of_lt h.start_lt] at hslot
  exact hslot

/-- The others are held from the next slot on. -/
theorem tail (h : Holds slots start (x :: xs)) :
    Holds slots ((start + 1) % slots.length) xs where
  start_lt := Nat.mod_lt _ (Nat.zero_lt_of_lt h.start_lt)
  fits := Nat.le_of_succ_le h.fits
  slot := by
    intro i hi
    have hslot := h.slot (i + 1) (Nat.succ_lt_succ hi)
    have hsum : ((start + 1) % slots.length + i) % slots.length =
        (start + (i + 1)) % slots.length := by
      rw [Nat.mod_add_mod, Nat.add_assoc, Nat.add_comm 1 i]
    rw [hsum, hslot]
    rfl

/-- One element more is written behind the last. -/
theorem push (h : Holds slots start xs) (hfits : xs.length < slots.length) (x : α) :
    Holds (slots.set ((start + xs.length) % slots.length) x) start (xs ++ [x]) where
  start_lt := by
    rw [List.length_set]
    exact h.start_lt
  fits := by
    rw [List.length_set, List.length_append, List.length_singleton]
    exact hfits
  slot := by
    intro i hi
    rw [List.length_append, List.length_singleton] at hi
    rw [List.length_set]
    have hlast : (start + xs.length) % slots.length < slots.length :=
      Nat.mod_lt _ (Nat.zero_lt_of_lt hfits)
    rcases Nat.lt_succ_iff_lt_or_eq.mp hi with hi | rfl
    · rw [List.getElem?_set_ne (slot_ne hi hfits).symm, h.slot i hi, List.getElem?_append_left hi]
    · rw [List.getElem?_set_self hlast, List.getElem?_append_right (Nat.le_refl _), Nat.sub_self]
      rfl

/-- Slots that begin with the elements hold them. -/
theorem unrolled {ys : List α} (hne : xs ++ ys ≠ []) : Holds (xs ++ ys) 0 xs where
  start_lt := List.length_pos_of_ne_nil hne
  fits := by
    rw [List.length_append]
    exact Nat.le_add_right _ _
  slot := by
    intro i hi
    have hlt : i < (xs ++ ys).length := by
      rw [List.length_append]
      exact Nat.lt_add_right _ hi
    rw [Nat.zero_add, Nat.mod_eq_of_lt hlt, List.getElem?_append_left hi]

end Holds

end Ring

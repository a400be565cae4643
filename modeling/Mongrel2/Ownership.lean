/-
A slot that owns one handle at a time.

A handle is acquired into the slot, used from it and released.  What was done is a
log, in which the same value may be acquired again once it was released, as the
numbers of descriptors are.

* `track` — what the slot owns after an operation, as a step function: it is stuck on
  an acquisition into a slot that still owns something, and on the use or the release
  of a handle that the slot does not own;
* `Owned`, `Settled` — what a log means for each handle in it;
* `owned_of_exec`, `settled_of_exec` — a log that is tracked to its end is owned, and
  it is settled if the slot is empty then.

Design notes: an acquisition may fail with a value that is no handle.  It empties the
slot, so it counts as an acquisition, but such values may be used and released at will.
-/
import Mongrel2.Runs

namespace Ownership

/-- One operation on a handle. -/
inductive Op (α : Type*)
  | acquired (a : α)
  | used (a : α)
  | released (a : α)
  deriving DecidableEq

variable {α : Type*}

/-! ### What a log means for a handle -/

/-- The handle is neither released nor replaced. -/
def Kept (a : α) (ops : List (Op α)) : Prop :=
  ∀ op ∈ ops, op ≠ .released a ∧ ∀ b, op ≠ .acquired b

/-- Until it is acquired again, the handle is neither used nor released. -/
def Untouched (a : α) (ops : List (Op α)) : Prop :=
  ∀ pre op post, ops = pre ++ op :: post → .acquired a ∉ pre →
    op ≠ .used a ∧ op ≠ .released a

/-- The handle is released exactly once, was not replaced before that and is not used
afterwards. -/
def ReleasedOnce (a : α) (ops : List (Op α)) : Prop :=
  ∃ held after, ops = held ++ .released a :: after ∧ Kept a held ∧ Untouched a after

/-- Each handle that was acquired is still owned, or it was released once. -/
def Owned (valid : α → Prop) (ops : List (Op α)) : Prop :=
  ∀ pre a post, ops = pre ++ .acquired a :: post → valid a → Kept a post ∨ ReleasedOnce a post

/-- Each handle that was acquired was released once. -/
def Settled (valid : α → Prop) (ops : List (Op α)) : Prop :=
  ∀ pre a post, ops = pre ++ .acquired a :: post → valid a → ReleasedOnce a post

theorem Kept.cons {a : α} {op : Op α} {ops : List (Op α)} (hop : op ≠ .released a)
    (hacq : ∀ b, op ≠ .acquired b) (h : Kept a ops) : Kept a (op :: ops) := by
  intro op' hmem
  rcases List.mem_cons.mp hmem with rfl | hmem
  · exact ⟨hop, hacq⟩
  · exact h op' hmem

theorem ReleasedOnce.cons {a : α} {op : Op α} {ops : List (Op α)} (hop : op ≠ .released a)
    (hacq : ∀ b, op ≠ .acquired b) (h : ReleasedOnce a ops) : ReleasedOnce a (op :: ops) := by
  obtain ⟨held, after, rfl, hheld, hafter⟩ := h
  exact ⟨op :: held, after, rfl, hheld.cons hop hacq, hafter⟩

theorem Untouched.cons {a : α} {op : Op α} {ops : List (Op α)} (hused : op ≠ .used a)
    (hreleased : op ≠ .released a) (h : op ≠ .acquired a → Untouched a ops) :
    Untouched a (op :: ops) := by
  intro pre op' post hsplit hpre
  rcases pre with _ | ⟨b, pre⟩
  · obtain ⟨rfl, -⟩ := List.cons_eq_cons.mp hsplit
    exact ⟨hused, hreleased⟩
  · obtain ⟨rfl, hrest⟩ := List.cons_eq_cons.mp hsplit
    rw [List.mem_cons, not_or] at hpre
    exact h (Ne.symm hpre.1) pre op' post hrest hpre.2

/-! ### The slot -/

section

variable (valid : α → Prop) [DecidablePred valid]

/-- What a slot owns that an acquired value was put in. -/
def slot (a : α) : Option α := if valid a then some a else none

variable {valid} in
theorem slot_ne {a b : α} (h : a ≠ b) : slot valid b ≠ some a := by
  unfold slot
  split
  · exact fun he => h (Option.some.inj he).symm
  · simp

variable [DecidableEq α]

/-- What the slot owns after an operation. -/
def track : Option α → Op α → Option (Option α)
  | none, .acquired a => some (slot valid a)
  | some _, .acquired _ => none
  | owned, .used a => if valid a ∧ owned ≠ some a then none else some owned
  | owned, .released a =>
    if ¬ valid a then some owned else if owned = some a then some none else none

variable {valid}

/-- A handle that the slot does not own stays untouched. -/
theorem untouched_of_exec {a : α} (ha : valid a) {owned owned' : Option α} {ops : List (Op α)}
    (hne : owned ≠ some a) (h : Runs.exec (track valid) owned ops = some owned') :
    Untouched a ops := by
  induction ops generalizing owned with
  | nil =>
    intro pre op post hsplit
    exact absurd hsplit.symm (by simp)
  | cons op ops ih =>
    obtain ⟨next, hnext, hrest⟩ := Option.bind_eq_some_iff.mp h
    cases op with
    | acquired b =>
      refine .cons (by simp) (by simp) fun hb => ?_
      have hab : a ≠ b := fun he => hb (he ▸ rfl)
      rcases owned with _ | c
      · obtain rfl := Option.some.inj hnext
        exact ih (slot_ne hab) hrest
      · exact absurd hnext (by simp [track])
    | used b =>
      have hb : ¬ (valid b ∧ owned ≠ some b) := by
        intro hb
        exact absurd hnext (by simp [track, hb])
      obtain rfl : owned = next := by simpa [track, hb] using hnext
      refine .cons ?_ (by simp) fun _ => ih hne hrest
      rintro ⟨⟩
      exact hb ⟨ha, hne⟩
    | released b =>
      by_cases hb : valid b
      · -- the slot owned what was released
        obtain ⟨rfl, rfl⟩ : owned = some b ∧ next = none := by
          by_cases hown : owned = some b
          · exact ⟨hown, by simpa [track, hb, hown] using hnext.symm⟩
          · exact absurd hnext (by simp [track, hb, hown])
        refine .cons (by simp) ?_ fun _ => ih (by simp) hrest
        rintro ⟨⟩
        exact hne rfl
      · obtain rfl : owned = next := by simpa [track, hb] using hnext
        refine .cons (by simp) ?_ fun _ => ih hne hrest
        rintro ⟨⟩
        exact hb ha

/-- A handle that the slot owns is kept to the end, or released once. -/
theorem kept_or_released {a : α} (ha : valid a) {owned : Option α} {ops : List (Op α)}
    (h : Runs.exec (track valid) (some a) ops = some owned) :
    (Kept a ops ∧ owned = some a) ∨ ReleasedOnce a ops := by
  induction ops with
  | nil => exact .inl ⟨by simp [Kept], (Option.some.inj h).symm⟩
  | cons op ops ih =>
    obtain ⟨next, hnext, hrest⟩ := Option.bind_eq_some_iff.mp h
    cases op with
    | acquired b => exact absurd hnext (by simp [track])
    | used b =>
      obtain rfl : some a = next := by
        by_cases hb : valid b ∧ some a ≠ some b
        · exact absurd hnext (by simp [track, hb])
        · rw [track, if_neg hb] at hnext
          exact Option.some.inj hnext
      rcases ih hrest with ⟨hkept, hown⟩ | hreleased
      · exact .inl ⟨hkept.cons (by simp) (by simp), hown⟩
      · exact .inr (hreleased.cons (by simp) (by simp))
    | released b =>
      by_cases hab : a = b
      · subst hab
        obtain rfl : next = none := by simpa [track, ha] using hnext.symm
        refine .inr ⟨[], ops, rfl, by simp [Kept], ?_⟩
        exact untouched_of_exec ha (by simp) hrest
      · have hb : ¬ valid b := fun hb => absurd hnext (by simp [track, hb, hab])
        obtain rfl : some a = next := by simpa [track, hb] using hnext
        have hne : Op.released b ≠ .released a := by simpa using Ne.symm hab
        rcases ih hrest with ⟨hkept, hown⟩ | hreleased
        · exact .inl ⟨hkept.cons hne (by simp), hown⟩
        · exact .inr (hreleased.cons hne (by simp))

theorem exec_acquired {pre post : List (Op α)} {a : α} {owned : Option α} (ha : valid a)
    (h : Runs.exec (track valid) none (pre ++ .acquired a :: post) = some owned) :
    Runs.exec (track valid) (some a) post = some owned := by
  rw [Runs.exec_append] at h
  obtain ⟨before, -, h⟩ := Option.bind_eq_some_iff.mp h
  obtain ⟨next, hnext, hrest⟩ := Option.bind_eq_some_iff.mp h
  rcases before with _ | b
  · obtain rfl : some a = next := by simpa [track, slot, ha] using hnext
    exact hrest
  · exact absurd hnext (by simp [track])

/-- **A tracked log is owned.** -/
theorem owned_of_exec {ops : List (Op α)} {owned : Option α}
    (h : Runs.exec (track valid) none ops = some owned) : Owned valid ops := by
  rintro pre a post rfl ha
  rcases kept_or_released ha (exec_acquired ha h) with ⟨hkept, -⟩ | hreleased
  · exact .inl hkept
  · exact .inr hreleased

/-- **A log that leaves the slot empty is settled.** -/
theorem settled_of_exec {ops : List (Op α)}
    (h : Runs.exec (track valid) none ops = some none) : Settled valid ops := by
  rintro pre a post rfl ha
  rcases kept_or_released ha (exec_acquired ha h) with ⟨-, hown⟩ | hreleased
  · exact absurd hown (by simp)
  · exact hreleased

end

end Ownership

/-
Runs of a partial step function.

A system is a step function `σ → α → Option σ` whose label carries everything
the environment decides; `none` means that the label is not enabled.  A run is
a list of labels.

* `exec` — the state a run ends in;
* `Along ok` — every step of the run meets `ok` in the state it is taken in;
* `Always P` — `P` holds in every state the run passes through;
* `always_of_along` — the invariant rule for runs whose steps all meet a
  condition;
* `always_iff_along_of_inv`, `always_iff_along` — the same with the condition exact.
-/
import Mathlib.Data.List.Infix

namespace Runs

variable {σ α : Type*} {step : σ → α → Option σ}

/-- The state after a list of steps, `none` when one of them is not enabled. -/
def exec (step : σ → α → Option σ) : σ → List α → Option σ
  | s, [] => some s
  | s, a :: as => (step s a).bind fun s' => exec step s' as

/-- Every step of the run from `s` meets `ok` in the state it is taken in. -/
def Along (step : σ → α → Option σ) (ok : σ → α → Prop) : σ → List α → Prop
  | _, [] => True
  | s, a :: as => ok s a ∧ ∀ s', step s a = some s' → Along step ok s' as

/-- `P` holds in every state of the run from `s`, the first and the last
included. -/
def Always (step : σ → α → Option σ) (P : σ → Prop) : σ → List α → Prop
  | s, [] => P s
  | s, a :: as => P s ∧ ∀ s', step s a = some s' → Always step P s' as

instance Along.decidable (ok : σ → α → Prop) [∀ s a, Decidable (ok s a)] :
    ∀ s as, Decidable (Along step ok s as)
  | _, [] => .isTrue trivial
  | s, a :: as =>
    match h : step s a with
    | none => decidable_of_iff (ok s a) (by simp [Along, h])
    | some t =>
      have := Along.decidable ok t as
      decidable_of_iff (ok s a ∧ Along step ok t as) (by simp [Along, h])

instance Always.decidable (P : σ → Prop) [DecidablePred P] :
    ∀ s as, Decidable (Always step P s as)
  | s, [] => inferInstanceAs (Decidable (P s))
  | s, a :: as =>
    match h : step s a with
    | none => decidable_of_iff (P s) (by simp [Always, h])
    | some t =>
      have := Always.decidable P t as
      decidable_of_iff (P s ∧ Always step P t as) (by simp [Always, h])

@[simp] theorem exec_nil (s : σ) : exec step s [] = some s := rfl

@[simp] theorem exec_cons (s : σ) (a : α) (as : List α) :
    exec step s (a :: as) = (step s a).bind fun s' => exec step s' as := rfl

theorem exec_append (s : σ) (as bs : List α) :
    exec step s (as ++ bs) = (exec step s as).bind fun s' => exec step s' bs := by
  induction as generalizing s with
  | nil => rfl
  | cons a as ih =>
    simp only [List.cons_append, exec_cons, ih]
    cases step s a <;> rfl

theorem Always.head {P : σ → Prop} {s : σ} {as : List α} (h : Always step P s as) :
    P s := by
  cases as with
  | nil => exact h
  | cons a as => exact h.1

/-- What holds always holds in the state the run ends in. -/
theorem Always.last {P : σ → Prop} {s s' : σ} {as : List α}
    (h : Always step P s as) (he : exec step s as = some s') : P s' := by
  induction as generalizing s with
  | nil =>
    rw [exec_nil, Option.some_inj] at he
    exact he ▸ h
  | cons a as ih =>
    obtain ⟨t, ht, he⟩ := Option.bind_eq_some_iff.mp he
    exact ih (h.2 t ht) he

theorem Always.mono {P Q : σ → Prop} (hPQ : ∀ s, P s → Q s) {s : σ} {as : List α}
    (h : Always step P s as) : Always step Q s as := by
  induction as generalizing s with
  | nil => exact hPQ s h
  | cons a as ih => exact ⟨hPQ s h.1, fun t ht => ih (h.2 t ht)⟩

/-- The invariant rule for runs whose steps all meet `ok`. -/
theorem always_of_along {ok : σ → α → Prop} {P : σ → Prop}
    (hstep : ∀ s a s', P s → ok s a → step s a = some s' → P s')
    {s : σ} {as : List α} (hs : P s) (h : Along step ok s as) : Always step P s as := by
  induction as generalizing s with
  | nil => exact hs
  | cons a as ih =>
    exact ⟨hs, fun t ht => ih (hstep s a t hs h.1 ht) (h.2 t ht)⟩

/-- The invariant rule for all runs. -/
theorem always_of_step {P : σ → Prop}
    (hstep : ∀ s a s', P s → step s a = some s' → P s')
    {s : σ} (hs : P s) (as : List α) : Always step P s as := by
  induction as generalizing s with
  | nil => exact hs
  | cons a as ih => exact ⟨hs, fun t ht => ih (hstep s a t hs ht)⟩

/-- Where steps with a good label keep the invariant if they meet `ok`, and lose `P`
at once if they do not, the runs that keep `P` throughout are exactly those whose
steps all meet `ok`. -/
theorem always_iff_along_of_inv {ok : σ → α → Prop} {I P : σ → Prop} {good : α → Prop}
    (hIP : ∀ s, I s → P s)
    (hkeep : ∀ s a s', I s → good a → ok s a → step s a = some s' → I s')
    (hlose : ∀ s a, I s → good a → ¬ ok s a → ∃ s', step s a = some s' ∧ ¬ P s')
    {s : σ} {as : List α} (hs : I s) (hgood : ∀ a ∈ as, good a) :
    Always step P s as ↔ Along step ok s as := by
  induction as generalizing s with
  | nil => exact iff_of_true (hIP s hs) trivial
  | cons a as ih =>
    have ha : good a := hgood a (List.mem_cons_self ..)
    have has : ∀ b ∈ as, good b := fun b hb => hgood b (List.mem_cons_of_mem a hb)
    by_cases hok : ok s a
    · have hrest : ∀ t, step s a = some t → (Always step P t as ↔ Along step ok t as) :=
        fun t ht => ih (hkeep s a t hs ha hok ht) has
      constructor
      · intro h
        exact ⟨hok, fun t ht => (hrest t ht).mp (h.2 t ht)⟩
      · intro h
        exact ⟨hIP s hs, fun t ht => (hrest t ht).mpr (h.2 t ht)⟩
    · obtain ⟨t, ht, hlost⟩ := hlose s a hs ha hok
      exact iff_of_false (fun h => hlost (h.2 t ht).head) fun h => hok h.1

/-- When a step from a state with `P` keeps `P` exactly if it meets `ok`, the
runs that keep `P` throughout are exactly those whose steps all meet `ok`. -/
theorem always_iff_along {ok : σ → α → Prop} {P : σ → Prop}
    (henabled : ∀ s a, P s → ¬ ok s a → ∃ s', step s a = some s')
    (hstep : ∀ s a s', P s → step s a = some s' → (P s' ↔ ok s a))
    {s : σ} (hs : P s) (as : List α) : Always step P s as ↔ Along step ok s as := by
  refine @always_iff_along_of_inv σ α step ok P P (fun _ => True) (fun _ => id) ?_ ?_ s as hs
    fun _ _ => trivial
  · exact fun s a t hp _ hok ht => (hstep s a t hp ht).mpr hok
  · intro s a hp _ hok
    obtain ⟨t, ht⟩ := henabled s a hp hok
    exact ⟨t, ht, fun h => hok ((hstep s a t hp ht).mp h)⟩

end Runs

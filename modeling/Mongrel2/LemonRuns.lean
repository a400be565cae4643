/-
Runs of a parser that Lemon has generated.

* `Eats.parseLoop_eq`, `Built.parseLoop_taken` — one call of `parse`, from the grammar and to
  it;
* `feed_stands` — what a run has taken is what the grammar has;
* **`accepts_iff`** — a run ends with what is to be read on its stack exactly if the grammar
  reads it, behind the last time that the stack overflowed;
* `Finished.parse_eoi`, `Built.parseLoop_eoi` — the call at the end of the input;
* `feed_halt` — a run that does not return has been stopped by an action.

Design notes: a run stops at the first token that is wrong, as its caller does.
-/
import Mongrel2.LemonReads

namespace Lemon

variable {Q T N R V S : Type*}

section

variable {L : Lemon Q T N R V S} {g : Grammar T N R V} {c : Certificate Q T N R} {n : ℕ}
  {w w' x : List (T × V)} {σ τ : List (Q × V)} {p q q' : Q} {u v : V} {t : T} {r : R}

/-! ### The calls -/

theorem trans_terminal : L.trans q (.terminal t) = some q' ↔ L.shiftAction q t = .shift q' := by
  rw [Lemon.trans]
  cases L.shiftAction q t <;> simp

theorem trans_nonterminal {A : N} :
    L.trans q (.nonterminal A) = some q' ↔ L.reduceAction q A = .shift q' := by
  rw [Lemon.trans]
  cases L.reduceAction q A <;> simp

/-- The end of the input is not shifted. -/
theorem Certified.trans_eoi (hc : Certified L g c) (q : Q) : L.trans q (.terminal L.eoi) = none := by
  refine Option.eq_none_iff_forall_ne_some.mpr fun q' hgo => ?_
  have hshift := trans_terminal.mp hgo
  cases hr : c.reduction q with
  | none =>
    by_cases hq : q = c.done
    · rw [(hc.ends q hr).1 hq] at hshift
      exact absurd hshift (by simp)
    · rw [(hc.ends q hr).2 hq] at hshift
      exact absurd hshift (by simp)
  | some r =>
    rw [(hc.reduces q r hr).2] at hshift
    exact absurd hshift (by simp)

theorem ne_nil_of_top (h : top σ = some q) : ∃ u σ', σ = (q, u) :: σ' := by
  cases σ with
  | nil => exact absurd h (by simp [top])
  | cons s σ' =>
    injection h with h
    exact ⟨s.2, σ', by rw [← h]⟩

/-- What is left to be reduced, and more. -/
def height (c : Certificate Q T N R) (σ : List (Q × V)) : ℕ :=
  c.weight * σ.length + ((top σ).map c.rank).getD 0

theorem Reduces.height_lt (hc : Certified L g c) (h : Reduces L g c σ τ) :
    height c τ < height c σ := by
  obtain ⟨htop, hr, hlen, -, hgo, -⟩ := h
  have hrank := hc.rank _ _ hr _ _ hgo
  rw [height, height, htop]
  simp only [top, Option.map_some, Option.getD_some, List.length_cons, List.length_append, hlen,
    Nat.mul_add]
  omega

theorem Built.exists_top (h : Built L g σ x) : ∃ q, top σ = some q := by
  cases h with
  | base => exact ⟨_, rfl⟩
  | push => exact ⟨_, rfl⟩

variable {e : ℤ} {s : S} {pushed : List (Q × V)}

/-- A rule is reduced, with the values of its symbols. -/
theorem Certified.yyReduce_eq (hc : Certified L g c) (hr : c.reduction q = some r)
    (hlen : pushed.length = (g.rhs r).length)
    (hgo : L.trans p (.nonterminal (g.lhs r)) = some q') :
    L.yyReduce ⟨pushed ++ (p, u) :: σ, e, s⟩ r =
      (g.act r (pushed.map Prod.snd).reverse).elim (.error .stopped)
        fun v => .ok (L.yyShift ⟨(p, u) :: σ, e, s⟩ q' v) := by
  have hreduce := trans_nonterminal.mp hgo
  have hnrhs : L.nrhs r = pushed.length := (hc.nrhs r).trans hlen.symm
  rw [yyReduce, hnrhs, List.take_left, List.drop_left, hc.act]
  cases g.act r (pushed.map Prod.snd).reverse with
  | none => rfl
  | some v =>
    dsimp only
    rw [hc.lhs, hreduce, hc.extra _ _ _ (hc.reduces q r hr).1]
    rfl

/-- A parser between two calls, with the tokens since its stack was empty. -/
inductive Stands (L : Lemon Q T N R V S) (g : Grammar T N R V) (p : Parser Q V S) :
    List (T × V) → Prop
  | empty (hstack : p.stack = []) : Stands L g p []
  | built {x : List (T × V)} (herrcnt : p.errcnt < 0) (h : Built L g p.stack x) : Stands L g p x

/-- What the next call works on. -/
theorem Stands.ready {p : Parser Q V S} (h : Stands L g p x) :
    ∃ σ e, L.ready p = ⟨σ, e, p.state⟩ ∧ e < 0 ∧ Built L g σ x := by
  cases h with
  | empty hstack => exact ⟨_, -1, if_pos hstack, by omega, .base⟩
  | built herrcnt h => exact ⟨p.stack, p.errcnt, if_neg h.ne_nil, herrcnt, h⟩

theorem Stands.built_ready {p : Parser Q V S} (h : Stands L g p x) :
    Built L g (L.ready p).stack x := by
  obtain ⟨σ, e, hready, -, hbuilt⟩ := h.ready
  rw [hready]
  exact hbuilt

/-- As many rounds as there can be. -/
def Enough (L : Lemon Q T N R V S) (c : Certificate Q T N R) (n : ℕ) : Prop :=
  0 < L.depth ∧ ∀ σ : List (Q × V), σ.length ≤ L.depth → height c σ < n

theorem Enough.ready (hn : Enough L c n) {p : Parser Q V S} (hp : p.stack.length ≤ L.depth) :
    height c (L.ready p).stack < n := by
  refine hn.2 _ ?_
  rw [Lemon.ready]
  by_cases hstack : p.stack = []
  · rw [if_pos hstack]
    exact hn.1
  · rw [if_neg hstack]
    exact hp

theorem ready_of_ne_nil {p : Parser Q V S} (h : p.stack ≠ []) : L.ready p = p := if_neg h

theorem state_ready (p : Parser Q V S) : (L.ready p).state = p.state := by
  rw [Lemon.ready]
  by_cases hstack : p.stack = []
  · rw [if_pos hstack]
  · rw [if_neg hstack]

/-- A stack is built from the same tokens when a rule is reduced. -/
theorem Built.reduces (hc : Certified L g c) (h : Built L g σ x) (hred : Reduces L g c σ τ) :
    Built L g τ x := by
  obtain ⟨htop, hr, hlen, hact, hgo, hroom⟩ := hred
  obtain ⟨hsplit, hx, hbuilt, hreads, -⟩ := h.popped_rule hc htop hr
  have hlen' := hlen.trans hreads.length_pushed.symm
  obtain ⟨rfl, hrest⟩ := List.append_inj hsplit hlen'
  injection hrest with hpu hσ
  rw [hx]
  rw [← hpu, ← hσ] at hbuilt
  rw [← hσ] at hreads
  exact .push hbuilt hgo (.single (by omega) hreads hact)

theorem Built.eats (hc : Certified L g c) (h : Built L g σ x) (heats : Eats L g c σ w τ)
    (hw : w = []) : Built L g τ x := by
  induction heats with
  | refl => exact h
  | reduce hred _ ih => exact ih (h.reduces hc hred) hw
  | shift => exact absurd hw (by simp)

theorem Built.eq_base (hc : Certified L g c) (h : Built L g ((L.start, u) :: σ) x) :
    u = L.zero ∧ σ = [] ∧ x = [] := by
  cases h with
  | base => exact ⟨rfl, rfl, rfl⟩
  | push _ hgo => exact absurd hgo (hc.start.2 _ _)

/-- The stack with what is to be read on it. -/
theorem Built.reads_root (hc : Certified L g c) (h : Built L g ((c.done, v) :: σ) x) :
    σ = [(L.start, L.zero)] ∧ Reads g (L.depth - 1) [.nonterminal c.root] x [v] := by
  generalize hs : (c.done, v) :: σ = s at h
  cases h with
  | base =>
    injection hs with hs
    injection hs with hdone
    exact absurd (hdone ▸ hc.root.1) (hc.start.2 _ _)
  | push hσ hgo hw =>
    injection hs with hs hσ'
    injection hs with hdone hv
    subst hdone hv hσ'
    obtain ⟨rfl, rfl⟩ := hc.done _ _ hgo
    obtain ⟨rfl, rfl, rfl⟩ := hσ.eq_base hc
    exact ⟨rfl, hw⟩

/-- A rule is reduced, or stops the process, or there is no room for the symbol of one
without symbols. -/
theorem Built.reduction_cases (hc : Certified L g c) (h : Built L g σ x) (htop : top σ = some q)
    (hr : c.reduction q = some r) (e : ℤ) (s : S) :
    (∃ τ, Reduces L g c σ τ) ∨ L.yyReduce ⟨σ, e, s⟩ r = .error .stopped ∨
      L.depth ≤ σ.length ∧ g.rhs r = [] ∧ (∃ v', g.act r [] = some v') ∧
        L.yyReduce ⟨σ, e, s⟩ r = .ok ⟨[], e, s⟩ := by
  obtain ⟨hsplit, hx, hbuilt, hreads, hgo⟩ := h.popped_rule hc htop hr
  rename_i pushed σ₀ p q' u x₀ w
  have hlen := hreads.length_pushed
  rw [hsplit, hc.yyReduce_eq hr hlen hgo]
  cases hact : g.act r (pushed.map Prod.snd).reverse with
  | none => exact .inr (.inl rfl)
  | some v' =>
    by_cases hroom : σ₀.length + 1 < L.depth
    · rw [hsplit] at htop
      exact .inl ⟨_, .intro htop hr hlen hact hgo hroom⟩
    · rw [show L.depth - (σ₀.length + 1) = 0 by omega] at hreads
      -- a symbol would not have had room either
      have hrhs : g.rhs r = [] := by
        cases hrhs : g.rhs r with
        | nil => rfl
        | cons X Xs =>
          rw [hrhs] at hreads
          exact absurd hreads.pos (Nat.lt_irrefl 0)
      rw [hrhs] at hlen
      obtain rfl := List.length_eq_zero_iff.mp hlen
      right
      right
      refine ⟨?_, hrhs, ⟨v', hact⟩, ?_⟩
      · rw [List.nil_append, List.length_cons]
        omega
      · rw [Option.elim_some, yyShift, if_neg (by simpa using hroom)]

variable [DecidableEq T]

theorem Certified.parseLoop_shift (hc : Certified L g c) (hgo : L.trans q (.terminal t) = some q')
    (n : ℕ) : L.parseLoop (n + 1) ⟨(q, u) :: σ, e, s⟩ t v =
      .ok { L.yyShift ⟨(q, u) :: σ, e, s⟩ q' v with errcnt := e - 1 } := by
  have heoi : t ≠ L.eoi := by
    rintro rfl
    rw [hc.trans_eoi] at hgo
    exact absurd hgo (by simp)
  rw [parseLoop]
  dsimp only
  rw [trans_terminal.mp hgo]
  exact if_neg heoi

theorem Certified.parseLoop_reduction (hc : Certified L g c) (hq : top σ = some q)
    (hr : c.reduction q = some r) (n : ℕ) :
    L.parseLoop (n + 1) ⟨σ, e, s⟩ t v =
      (L.yyReduce ⟨σ, e, s⟩ r).bind fun p => L.parseLoop n p t v := by
  obtain ⟨u, σ', rfl⟩ := ne_nil_of_top hq
  rw [parseLoop]
  dsimp only
  rw [(hc.reduces q r hr).2 t]

theorem parseLoop_error (hq : top σ = some q) (herror : L.shiftAction q t = .error) (n : ℕ) :
    L.parseLoop (n + 1) ⟨σ, e, s⟩ t v = .ok (L.yyError ⟨σ, e, s⟩ t) := by
  obtain ⟨u, σ', rfl⟩ := ne_nil_of_top hq
  rw [parseLoop]
  dsimp only
  rw [herror]

theorem Reduces.parseLoop_eq (hc : Certified L g c) (h : Reduces L g c σ τ) (n : ℕ) :
    L.parseLoop (n + 1) ⟨σ, e, s⟩ t v = L.parseLoop n ⟨τ, e, s⟩ t v := by
  obtain ⟨htop, hr, hlen, hact, hgo, hroom⟩ := h
  rw [hc.parseLoop_reduction htop hr, hc.yyReduce_eq hr hlen hgo, hact]
  dsimp only [Option.elim_some, Except.bind]
  rw [yyShift, if_pos (by simpa using hroom)]

/-- **What is taken next is taken by the next call.** -/
theorem Eats.parseLoop_eq (hc : Certified L g c) (h : Eats L g c σ w' τ) (hw : w' = (t, v) :: w)
    (hn : height c σ < n) : ∃ σ', L.parseLoop n ⟨σ, e, s⟩ t v = .ok ⟨σ', e - 1, s⟩ ∧
      σ' ≠ [] ∧ σ'.length ≤ L.depth ∧ Eats L g c σ' w τ := by
  induction h generalizing n with
  | refl => exact absurd hw (by simp)
  | reduce h _ ih =>
    obtain ⟨m, rfl⟩ : ∃ m, n = m + 1 := ⟨n - 1, by omega⟩
    have hlt := h.height_lt hc
    rw [h.parseLoop_eq hc]
    exact ih hw (by omega)
  | @shift σ τ q q' u v' t' w' hgo hroom hrest _ =>
    obtain ⟨m, rfl⟩ : ∃ m, n = m + 1 := ⟨n - 1, by omega⟩
    injection hw with htk hw
    injection htk with ht hv
    subst ht hv hw
    have hlen : ((q', v') :: (q, u) :: σ).length ≤ L.depth := by
      rw [List.length_cons, List.length_cons]
      exact hroom
    refine ⟨_, ?_, List.cons_ne_nil _ _, hlen, hrest⟩
    rw [hc.parseLoop_shift hgo, yyShift, if_pos (by simpa using hroom)]

/-- The rules that are reduced do not depend on the token. -/
theorem Eats.parseLoop_reductions (hc : Certified L g c) (h : Eats L g c σ w τ) (hw : w = [])
    (hn : height c σ < n) : ∃ m, height c τ < m ∧ ∀ (e : ℤ) (s : S) (t : T) (v : V),
      L.parseLoop n ⟨σ, e, s⟩ t v = L.parseLoop m ⟨τ, e, s⟩ t v := by
  induction h generalizing n with
  | shift => exact absurd hw (by simp)
  | refl => exact ⟨n, hn, fun _ _ _ _ => rfl⟩
  | reduce h _ ih =>
    obtain ⟨m, rfl⟩ : ∃ m, n = m + 1 := ⟨n - 1, by omega⟩
    have hlt := h.height_lt hc
    obtain ⟨k, hk, hloop⟩ := @ih m hw (by omega)
    refine ⟨k, hk, fun e s t v => ?_⟩
    rw [h.parseLoop_eq hc]
    exact hloop e s t v

/-- **What overflows** leaves nothing on the stack. -/
theorem Overflows.parseLoop_eq (hc : Certified L g c) (ho : Overflows L g c τ t)
    (hn : height c τ < n) : ∃ e', L.parseLoop n ⟨τ, e, s⟩ t v = .ok ⟨[], e', s⟩ := by
  obtain ⟨m, rfl⟩ : ∃ m, n = m + 1 := ⟨n - 1, by omega⟩
  obtain ⟨hfull, q, htop, hgoes⟩ := ho
  rcases hgoes with hgo | ⟨r, v', hr, hrhs, hact⟩
  · obtain ⟨q', hgo⟩ := Option.ne_none_iff_exists'.mp hgo
    obtain ⟨u, σ', rfl⟩ := ne_nil_of_top htop
    rw [hc.parseLoop_shift hgo, yyShift, if_neg (Nat.not_lt_of_le hfull)]
    exact ⟨_, rfl⟩
  · have hitem := hc.item q r hr
    rw [if_pos hrhs] at hitem
    obtain ⟨q', hgo⟩ := Option.ne_none_iff_exists'.mp hitem
    obtain ⟨u, σ', rfl⟩ := ne_nil_of_top htop
    have hreduce := @Certified.yyReduce_eq _ _ _ _ _ _ L g c σ' q q q' u r e s [] hc hr
      (by rw [hrhs]; rfl) hgo
    -- the loop looks at the stack once more
    have hrank := hc.rank q r hr q q' hgo
    obtain ⟨k, rfl⟩ : ∃ k, m = k + 1 := by
      refine ⟨m - 1, ?_⟩
      rw [height, top, Option.map_some, Option.getD_some] at hn
      rw [hrhs, List.length_nil, Nat.mul_zero, Nat.add_zero] at hrank
      omega
    rw [hc.parseLoop_reduction htop hr]
    have hstack : L.yyReduce ⟨(q, u) :: σ', e, s⟩ r = .ok ⟨[], e, s⟩ := by
      refine hreduce.trans ?_
      rw [List.map_nil, List.reverse_nil, hact, Option.elim_some, yyShift,
        if_neg (Nat.not_lt_of_le hfull)]
    rw [hstack]
    exact ⟨e, rfl⟩

theorem Built.parseLoop_cases (hc : Certified L g c) (h : Built L g σ x) (htop : top σ = some q)
    (hr : c.reduction q = some r) {p' : Parser Q V S}
    (hp : L.parseLoop (n + 1) ⟨σ, e, s⟩ t v = .ok p') :
    (∃ τ, Reduces L g c σ τ ∧ L.parseLoop n ⟨τ, e, s⟩ t v = .ok p') ∨
      L.depth ≤ σ.length ∧ g.rhs r = [] ∧ (∃ v', g.act r [] = some v') ∧ p' = ⟨[], e, s⟩ := by
  rcases h.reduction_cases hc htop hr e s with ⟨τ, hred⟩ | hstopped | ⟨hfull, hrhs, hact, hyy⟩
  · rw [hred.parseLoop_eq hc] at hp
    exact .inl ⟨τ, hred, hp⟩
  · rw [hc.parseLoop_reduction htop hr, hstopped] at hp
    exact absurd hp (by simp [Except.bind])
  · rw [hc.parseLoop_reduction htop hr, hyy] at hp
    cases n with
    | zero => exact absurd hp (by simp [Except.bind, parseLoop])
    | succ n =>
      injection hp with hp
      exact .inr ⟨hfull, hrhs, hact, hp.symm⟩

/-- What a call does with a token that it returns from: it takes it, finds no room for a
symbol in front of it, or says that it is wrong. -/
inductive Took (L : Lemon Q T N R V S) (g : Grammar T N R V) (c : Certificate Q T N R)
    (σ : List (Q × V)) (e : ℤ) (s : S) (t : T) (v : V) : Parser Q V S → Prop
  | shifted {τ : List (Q × V)} {q q' : Q} {u : V} (heats : Eats L g c σ [] ((q, u) :: τ))
    (hgo : L.trans q (.terminal t) = some q') :
    Took L g c σ e s t v { L.yyShift ⟨(q, u) :: τ, e, s⟩ q' v with errcnt := e - 1 }
  | emptied {τ : List (Q × V)} {q : Q} {r : R} {v' : V} (heats : Eats L g c σ [] τ)
    (hfull : L.depth ≤ τ.length) (htop : top τ = some q) (hr : c.reduction q = some r)
    (hrhs : g.rhs r = []) (hact : g.act r [] = some v') : Took L g c σ e s t v ⟨[], e, s⟩
  | error {τ : List (Q × V)} {q : Q} (heats : Eats L g c σ [] τ) (htop : top τ = some q)
    (hr : c.reduction q = none) (haction : L.shiftAction q t = .error) :
    Took L g c σ e s t v (L.yyError ⟨τ, e, s⟩ t)

theorem Took.reduce (hred : Reduces L g c σ τ) {p' : Parser Q V S}
    (h : Took L g c τ e s t v p') : Took L g c σ e s t v p' := by
  cases h with
  | shifted heats hgo => exact .shifted (.reduce hred heats) hgo
  | emptied heats hfull htop hr hrhs hact =>
    exact .emptied (.reduce hred heats) hfull htop hr hrhs hact
  | error heats htop hr haction => exact .error (.reduce hred heats) htop hr haction

theorem Built.took (hc : Certified L g c) (h : Built L g σ x) (ht : t ≠ L.eoi)
    {p' : Parser Q V S} (hp : L.parseLoop n ⟨σ, e, s⟩ t v = .ok p') : Took L g c σ e s t v p' := by
  induction n generalizing σ with
  | zero => exact absurd hp (by simp [parseLoop])
  | succ n ih =>
    obtain ⟨q, htop⟩ := h.exists_top
    cases hr : c.reduction q with
    | none =>
      rcases hc.shifts q hr t ht with ⟨q', hshift⟩ | herror
      · have hgo := trans_terminal.mpr hshift
        obtain ⟨u, σ', rfl⟩ := ne_nil_of_top htop
        rw [hc.parseLoop_shift hgo] at hp
        injection hp with hp
        rw [← hp]
        exact .shifted (.refl _) hgo
      · rw [parseLoop_error htop herror n] at hp
        injection hp with hp
        rw [← hp]
        exact .error (.refl _) htop hr herror
    | some r =>
      rcases h.parseLoop_cases hc htop hr hp with
        ⟨τ, hred, hp⟩ | ⟨hfull, hrhs, ⟨v', hact⟩, rfl⟩
      · exact (ih (h.reduces hc hred) hp).reduce hred
      · exact .emptied (.refl _) hfull htop hr hrhs hact

/-- What has become of a parser that took the last of some tokens: its stack has been built
from them, or they spill, or the last one is an error. -/
inductive Taken (L : Lemon Q T N R V S) (g : Grammar T N R V) (c : Certificate Q T N R)
    (e : ℤ) (s : S) (t : T) (x : List (T × V)) (p : Parser Q V S) : Prop
  | built (hstate : p.state = s) (herrcnt : p.errcnt = e - 1) (h : Built L g p.stack x)
  | spilt (hstate : p.state = s) (hstack : p.stack = [])
    (h : Spills g (L.depth - 1) [.nonterminal c.root] x)
  | error {τ : List (Q × V)} (h : p = L.yyError ⟨τ, e, s⟩ t)

/-- **A call takes a token** to what the grammar reads or spills, or says that it is wrong. -/
theorem Built.parseLoop_taken (hc : Certified L g c) (h : Built L g σ x) (ht : t ≠ L.eoi)
    {p' : Parser Q V S} (hp : L.parseLoop n ⟨σ, e, s⟩ t v = .ok p') :
    Taken L g c e s t (x ++ [(t, v)]) p' := by
  cases h.took hc ht hp with
  | @shifted τ q q' u heats hgo =>
    have hτ := h.eats hc heats rfl
    by_cases hroom : τ.length + 1 < L.depth
    · refine .built rfl rfl ?_
      rw [yyShift, if_pos (by simpa using hroom)]
      exact .push hτ hgo (.one (by omega) t v)
    · refine .spilt rfl ?_ (hτ.spills hc rfl rfl rfl (by rw [hgo]; simp) ?_)
      · rw [yyShift, if_neg (by simpa using hroom)]
      · rw [show L.depth - ((q, u) :: τ).length = 0 by rw [List.length_cons]; omega]
        exact .token
  | @emptied τ q r v' heats hfull htop hr hrhs hact =>
    have hitem := hc.item q r hr
    rw [if_pos hrhs] at hitem
    refine .spilt rfl rfl ((h.eats hc heats rfl).spills hc rfl rfl htop hitem ?_)
    rw [Nat.sub_eq_zero_of_le hfull]
    exact .empty hrhs hact
  | error => exact .error rfl

/-! ### Runs -/

/-- A run that goes on behind its first token. -/
theorem feed_cons_inv {wrong : S → Bool} {p p' : Parser Q V S}
    (h : L.feed n wrong p ((t, v) :: w) = .ok (some p')) :
    ∃ p₁, L.parse n p t v = .ok p₁ ∧ wrong p₁.state = false ∧ L.feed n wrong p₁ w = .ok (some p') := by
  rw [feed] at h
  cases hcall : L.parse n p t v with
  | error halt =>
    rw [hcall] at h
    exact absurd h (by simp [Except.bind])
  | ok p₁ =>
    rw [hcall] at h
    have h : (if wrong p₁.state then .ok none else L.feed n wrong p₁ w) = .ok (some p') := h
    cases hwrong : wrong p₁.state with
    | true =>
      rw [hwrong] at h
      exact absurd h (by simp)
    | false =>
      rw [hwrong] at h
      exact ⟨p₁, rfl, hwrong, h⟩

/-- **What a run has taken** is what the grammar has, behind the last time that it spilt. -/
theorem feed_stands (hc : Certified L g c) {wrong : S → Bool}
    (hwrong : wrong (L.syntaxError s) = true) {p p' : Parser Q V S} (hp : p.state = s)
    (h : Stands L g p x) (hw : ∀ tk ∈ w, tk.1 ≠ L.eoi)
    (hfeed : L.feed n wrong p w = .ok (some p')) :
    p'.state = s ∧ ∃ x', Stands L g p' x' ∧ ∀ w₀, Behind g (L.depth - 1) c.root w₀ x →
      Behind g (L.depth - 1) c.root (w₀ ++ w) x' := by
  induction w generalizing p x with
  | nil =>
    injection hfeed with hfeed
    injection hfeed with hfeed
    subst hfeed
    refine ⟨hp, x, h, fun w₀ hbehind => ?_⟩
    rw [List.append_nil]
    exact hbehind
  | cons tk w ih =>
    obtain ⟨t, v⟩ := tk
    obtain ⟨σ, e, hready, herrcnt, hbuilt⟩ := h.ready
    rw [hp] at hready
    obtain ⟨p₁, hcall, hright, hfeed⟩ := feed_cons_inv hfeed
    rw [parse, hready] at hcall
    have hrest := fun tk htk => hw tk (List.mem_cons_of_mem _ htk)
    have hnext : p₁.state = s → ∀ x₁, Stands L g p₁ x₁ →
        (∀ w₀, Behind g (L.depth - 1) c.root w₀ x →
          Behind g (L.depth - 1) c.root (w₀ ++ [(t, v)]) x₁) →
        p'.state = s ∧ ∃ x', Stands L g p' x' ∧ ∀ w₀, Behind g (L.depth - 1) c.root w₀ x →
          Behind g (L.depth - 1) c.root (w₀ ++ (t, v) :: w) x' := by
      intro hstate x₁ h₁ hbehind
      obtain ⟨hp', x', h', hrun⟩ := ih hstate h₁ hrest hfeed
      refine ⟨hp', x', h', fun w₀ hw₀ => ?_⟩
      have hboth := hrun _ (hbehind w₀ hw₀)
      rwa [List.append_assoc] at hboth
    rcases hbuilt.parseLoop_taken hc (hw _ List.mem_cons_self) hcall with
      ⟨hstate, herr, hbuilt₁⟩ | ⟨hstate, hstack, hspills⟩ | ⟨hyy⟩
    · exact hnext hstate _ (.built (by omega) hbuilt₁) fun w₀ hw₀ => hw₀.concat _
    · exact hnext hstate _ (.empty hstack) fun w₀ hw₀ => hw₀.spill _ hspills
    · have hstate : p₁.state = L.syntaxError s := by
        rw [hyy]
        exact if_pos (Int.le_of_lt herrcnt)
      rw [hstate, hwrong] at hright
      exact absurd hright (by simp)

theorem feed_append {wrong : S → Bool} (p : Parser Q V S) (w w' : List (T × V)) :
    L.feed n wrong p (w ++ w') =
      (L.feed n wrong p w).bind fun o => o.elim (.ok none) fun p => L.feed n wrong p w' := by
  induction w generalizing p with
  | nil => rfl
  | cons tk w ih =>
    rw [List.cons_append, feed, feed]
    cases L.parse n p tk.1 tk.2 with
    | error halt => rfl
    | ok p₁ =>
      show (if wrong p₁.state then .ok none else L.feed n wrong p₁ (w ++ w')) =
        Except.bind (if wrong p₁.state then .ok none else L.feed n wrong p₁ w) _
      by_cases hwrong : wrong p₁.state = true
      · rw [if_pos hwrong, if_pos hwrong]
        rfl
      · rw [if_neg hwrong, if_neg hwrong, ih]

theorem feed_append_inv {wrong : S → Bool} {p p' : Parser Q V S}
    (h : L.feed n wrong p (w ++ w') = .ok (some p')) :
    ∃ p₁, L.feed n wrong p w = .ok (some p₁) ∧ L.feed n wrong p₁ w' = .ok (some p') := by
  rw [feed_append] at h
  rcases hfirst : L.feed n wrong p w with halt | ⟨- | p₁⟩
  · rw [hfirst] at h
    exact absurd h (by simp [Except.bind])
  · rw [hfirst] at h
    exact absurd h (by simp [Except.bind])
  · rw [hfirst] at h
    exact ⟨p₁, rfl, h⟩

/-- One call of those that a run is made of. -/
theorem Eats.parse_eq (hc : Certified L g c) (hn : Enough L c n) {p : Parser Q V S}
    (hp : p.stack.length ≤ L.depth) (h : Eats L g c (L.ready p).stack ((t, v) :: w) τ) :
    ∃ p', L.parse n p t v = .ok p' ∧ p'.state = (L.ready p).state ∧
      p'.stack.length ≤ L.depth ∧ Eats L g c (L.ready p').stack w τ := by
  obtain ⟨σ', hcall, hne, hlen, heats⟩ :=
    @Eats.parseLoop_eq _ _ _ _ _ _ _ _ _ _ _ _ _ _ _ _ (L.ready p).errcnt (L.ready p).state _ hc h rfl
      (hn.ready hp)
  refine ⟨_, hcall, rfl, hlen, ?_⟩
  rw [ready_of_ne_nil (show (Parser.mk σ' _ _).stack ≠ [] from hne)]
  exact heats

/-- **What is taken next** is taken by a run. -/
theorem Eats.feed_eq (hc : Certified L g c) (hn : Enough L c n) {wrong : S → Bool}
    (hs : wrong s = false) {p : Parser Q V S} (hstate : p.state = s)
    (hp : p.stack.length ≤ L.depth) (h : Eats L g c (L.ready p).stack w τ) :
    ∃ p', L.feed n wrong p w = .ok (some p') ∧ p'.state = s ∧ p'.stack.length ≤ L.depth ∧
      Eats L g c (L.ready p').stack [] τ := by
  induction w generalizing p with
  | nil => exact ⟨p, rfl, hstate, hp, h⟩
  | cons tk w ih =>
    obtain ⟨p₁, hcall, hstate₁, hp₁, heats⟩ := h.parse_eq hc hn hp
    have hstate₁ : p₁.state = s := hstate₁.trans ((state_ready p).trans hstate)
    obtain ⟨p', hfeed, hrest⟩ := ih hstate₁ hp₁ heats
    refine ⟨p', ?_, hrest⟩
    rw [feed, hcall]
    show (if wrong p₁.state then .ok none else L.feed n wrong p₁ w) = _
    rw [hstate₁, hs]
    exact hfeed

/-- **What spills** leaves nothing behind. -/
theorem Spills.feed_eq (hc : Certified L g c) (hn : Enough L c n) {wrong : S → Bool}
    (hs : wrong s = false) {p : Parser Q V S} (hstate : p.state = s) (hp : p.stack = [])
    (h : Spills g (L.depth - 1) [.nonterminal c.root] w) :
    ∃ p', L.feed n wrong p w = .ok (some p') ∧ p'.state = s ∧ p'.stack = [] := by
  have hready : L.ready p = ⟨[(L.start, L.zero)], -1, p.state⟩ := if_pos hp
  have hwalk : L.walk L.start [.nonterminal c.root] ≠ none := by
    rw [walk, hc.root.1]
    simp [walk]
  obtain ⟨w', t, v, τ, rfl, heats, hover⟩ :=
    @Spills.overflows _ _ _ _ _ _ L g c _ _ _ hc h [] L.start L.zero hwalk
      (by have := hn.1; rw [List.length_nil]; omega)
  rw [← show (L.ready p).stack = [(L.start, L.zero)] by rw [hready]] at heats
  obtain ⟨p₁, hfeed, hstate₁, hp₁, heats₁⟩ :=
    heats.feed_eq hc hn hs hstate (by rw [hp]; exact Nat.zero_le _)
  obtain ⟨m, hm, hloop⟩ := heats₁.parseLoop_reductions hc rfl (hn.ready hp₁)
  obtain ⟨e', hcall⟩ := @Overflows.parseLoop_eq _ _ _ _ _ _ _ _ _ _ _ v t (L.ready p₁).errcnt
    (L.ready p₁).state _ hc hover hm
  have hcall : L.parse n p₁ t v = .ok ⟨[], e', (L.ready p₁).state⟩ := (hloop _ _ t v).trans hcall
  have hstate₂ : (L.ready p₁).state = s := (state_ready p₁).trans hstate₁
  refine ⟨⟨[], e', (L.ready p₁).state⟩, ?_, hstate₂, rfl⟩
  rw [feed_append, hfeed]
  show L.feed n wrong p₁ [(t, v)] = _
  rw [feed, hcall]
  show (if wrong (L.ready p₁).state then Except.ok none else Except.ok (some _)) = _
  rw [hstate₂, hs]
  rfl

/-- What is to be read is on the stack, or will be. -/
def Finished (L : Lemon Q T N R V S) (g : Grammar T N R V) (c : Certificate Q T N R)
    (p : Parser Q V S) (v : V) : Prop :=
  Eats L g c (L.ready p).stack [] [(c.done, v), (L.start, L.zero)]

/-- **What the grammar accepts** a run comes to an end with. -/
theorem Accepts.feed_eq (hc : Certified L g c) (hn : Enough L c n) {wrong : S → Bool}
    (hs : wrong s = false) {p : Parser Q V S} (hstate : p.state = s) (hp : p.stack = [])
    (h : Accepts g (L.depth - 1) c.root w v) :
    ∃ p', L.feed n wrong p w = .ok (some p') ∧ p'.state = s ∧ p'.stack.length ≤ L.depth ∧
      Finished L g c p' v := by
  obtain ⟨x, hbehind, hreads⟩ := h
  induction hbehind generalizing p with
  | all w =>
    have hready : L.ready p = ⟨[(L.start, L.zero)], -1, p.state⟩ := if_pos hp
    refine Eats.feed_eq hc hn hs hstate (by rw [hp]; exact Nat.zero_le _) ?_
    rw [hready]
    exact hreads.eats_symbol hc hc.root.1 (by have := hn.1; rw [List.length_nil]; omega)
  | spilt hu _ ih =>
    obtain ⟨p₁, hfeed, hstate₁, hp₁⟩ := hu.feed_eq hc hn hs hstate hp
    obtain ⟨p', hfeed', hrest⟩ := ih hstate₁ hp₁ hreads
    refine ⟨p', ?_, hrest⟩
    rw [feed_append, hfeed]
    exact hfeed'

/-! ### The end -/

/-- **A run ends** with what is to be read exactly if the grammar accepts the tokens. -/
theorem accepts_iff (hc : Certified L g c) (hn : Enough L c n) {wrong : S → Bool}
    (hs : wrong s = false) (hwrong : wrong (L.syntaxError s) = true) {p : Parser Q V S}
    (hstate : p.state = s) (hp : p.stack = []) (hw : ∀ tk ∈ w, tk.1 ≠ L.eoi) :
    Accepts g (L.depth - 1) c.root w v ↔
      ∃ p', L.feed n wrong p w = .ok (some p') ∧ Finished L g c p' v := by
  constructor
  · intro h
    obtain ⟨p', hfeed, -, -, hfinished⟩ := h.feed_eq hc hn hs hstate hp
    exact ⟨p', hfeed, hfinished⟩
  · rintro ⟨p', hfeed, hfinished⟩
    obtain ⟨-, x', hstands, hbehind⟩ := feed_stands hc hwrong hstate (.empty hp) hw hfeed
    obtain ⟨σ, e, hready, -, hbuilt⟩ := hstands.ready
    rw [Finished, hready] at hfinished
    have hdone := hbuilt.eats hc hfinished rfl
    exact ⟨x', hbehind [] (.all []), (hdone.reads_root hc).2⟩

/-- What is to be read is on the stack. -/
theorem Certified.parseLoop_eoi (hc : Certified L g c) (v' : V) (n : ℕ) :
    L.parseLoop (n + 2) ⟨[(c.done, v), (L.start, L.zero)], e, s⟩ L.eoi v' =
      .ok ⟨[], e, L.extra c.accepting [v] s⟩ := by
  obtain ⟨hrhs, haccept, hact⟩ := hc.accepting
  have hreduce : L.yyReduce ⟨[(c.done, v), (L.start, L.zero)], e, s⟩ c.accepting =
      .ok ⟨[], e, L.extra c.accepting [v] s⟩ := by
    obtain ⟨v₀, hact⟩ := Option.ne_none_iff_exists'.mp (hact v)
    have hvalues : (([(c.done, v), (L.start, L.zero)].take 1).map Prod.snd).reverse = [v] := rfl
    have hbelow : [(c.done, v), (L.start, L.zero)].drop 1 = [(L.start, L.zero)] := rfl
    rw [yyReduce, hc.nrhs, hrhs, hc.lhs, hc.act, List.length_singleton, hvalues, hact, hbelow]
    dsimp only
    rw [haccept]
  rw [parseLoop]
  dsimp only
  rw [(hc.ends _ hc.root.2).1 rfl]
  dsimp only
  rw [hreduce]
  rfl

/-- **Behind what is to be read**, the end of the input is accepted. -/
theorem Finished.parse_eoi (hc : Certified L g c) (hn : Enough L c n) {p : Parser Q V S}
    (hp : p.stack.length ≤ L.depth) (h : Finished L g c p v) (v' : V) :
    ∃ p', L.parse n p L.eoi v' = .ok p' ∧ p'.state = L.extra c.accepting [v] p.state := by
  obtain ⟨m, hm, hloop⟩ := h.parseLoop_reductions hc rfl (hn.ready hp)
  obtain ⟨k, rfl⟩ : ∃ k, m = k + 2 := by
    refine ⟨m - 2, ?_⟩
    have hweight := hc.weight
    simp only [height, List.length_cons, List.length_nil] at hm
    omega
  exact ⟨_, (hloop _ _ _ _).trans (hc.parseLoop_eoi v' k), congrArg _ (state_ready p)⟩

/-- **The end of the input** is accepted behind what is to be read only. -/
theorem Built.parseLoop_eoi (hc : Certified L g c) (h : Built L g σ x) {p' : Parser Q V S}
    (hp : L.parseLoop n ⟨σ, e, s⟩ L.eoi v = .ok p') :
    (∃ u, Eats L g c σ [] [(c.done, u), (L.start, L.zero)] ∧
        p'.state = L.extra c.accepting [u] s) ∨
      p'.state = s ∨ p'.state = L.syntaxError s := by
  induction n generalizing σ with
  | zero => exact absurd hp (by simp [parseLoop])
  | succ n ih =>
    obtain ⟨q, htop⟩ := h.exists_top
    cases hr : c.reduction q with
    | none =>
      by_cases hq : q = c.done
      · subst hq
        obtain ⟨u, σ', rfl⟩ := ne_nil_of_top htop
        obtain ⟨rfl, -⟩ := h.reads_root hc
        left
        refine ⟨u, .refl _, ?_⟩
        -- the loop looks at the stack once more
        cases n with
        | zero =>
          rw [parseLoop] at hp
          dsimp only at hp
          rw [(hc.ends _ hr).1 rfl] at hp
          dsimp only at hp
          cases hreduce : L.yyReduce ⟨[(c.done, u), (L.start, L.zero)], e, s⟩ c.accepting with
          | error halt =>
            rw [hreduce] at hp
            exact absurd hp (by simp [Except.bind])
          | ok p₁ =>
            rw [hreduce] at hp
            exact absurd hp (by simp [Except.bind, parseLoop])
        | succ n =>
          rw [hc.parseLoop_eoi] at hp
          injection hp with hp
          rw [← hp]
      · rw [parseLoop_error htop ((hc.ends q hr).2 hq) n] at hp
        injection hp with hp
        right
        rw [← hp, yyError]
        dsimp only
        by_cases herrcnt : e ≤ 0
        · rw [if_pos herrcnt]
          exact .inr rfl
        · rw [if_neg herrcnt]
          exact .inl rfl
    | some r =>
      rcases h.parseLoop_cases hc htop hr hp with ⟨τ, hred, hp⟩ | ⟨-, -, -, rfl⟩
      · rcases ih (h.reduces hc hred) hp with ⟨u, heats, hstate⟩ | hstate
        · exact .inl ⟨u, .reduce hred heats, hstate⟩
        · exact .inr hstate
      · exact .inr (.inl rfl)

/-! ### Calls that do not return -/

/-- **Only an action stops a call**: its rounds are enough, and the stack is not read below
its first entry. -/
theorem Built.parseLoop_halt (hc : Certified L g c) (h : Built L g σ x) (hn : height c σ < n)
    {halt : Halt} (hp : L.parseLoop n ⟨σ, e, s⟩ t v = .error halt) : halt = .stopped := by
  induction n generalizing σ with
  | zero => exact absurd hn (Nat.not_lt_zero _)
  | succ n ih =>
    obtain ⟨q, htop⟩ := h.exists_top
    cases hr : c.reduction q with
    | none =>
      obtain ⟨u, σ', rfl⟩ := ne_nil_of_top htop
      by_cases ht : t = L.eoi
      · subst ht
        by_cases hq : q = c.done
        · subst hq
          obtain ⟨rfl, -⟩ := h.reads_root hc
          have hweight := hc.weight
          obtain ⟨m, rfl⟩ : ∃ m, n = m + 1 := by
            refine ⟨n - 1, ?_⟩
            simp only [height, List.length_cons, List.length_nil] at hn
            omega
          rw [hc.parseLoop_eoi] at hp
          exact absurd hp (by simp)
        · rw [parseLoop_error htop ((hc.ends q hr).2 hq) n] at hp
          exact absurd hp (by simp)
      · rcases hc.shifts q hr t ht with ⟨q', hshift⟩ | herror
        · rw [hc.parseLoop_shift (trans_terminal.mpr hshift)] at hp
          exact absurd hp (by simp)
        · rw [parseLoop_error htop herror n] at hp
          exact absurd hp (by simp)
    | some r =>
      rcases h.reduction_cases hc htop hr e s with ⟨τ, hred⟩ | hstopped | ⟨-, hrhs, -, hyy⟩
      · have hlt := hred.height_lt hc
        rw [hred.parseLoop_eq hc] at hp
        exact ih (h.reduces hc hred) (by omega) hp
      · rw [hc.parseLoop_reduction htop hr, hstopped] at hp
        injection hp with hp
        exact hp.symm
      · rw [hc.parseLoop_reduction htop hr, hyy] at hp
        cases n with
        | succ n => exact absurd hp (by simp [Except.bind, parseLoop])
        | zero =>
          -- the state that reduces has a rank
          obtain ⟨-, -, hbuilt, -, hgo⟩ := h.popped_rule hc htop hr
          have hrank := hc.rank q r hr _ _ hgo
          rw [hrhs, List.length_nil, Nat.mul_zero, Nat.add_zero] at hrank
          rw [height, htop, Option.map_some, Option.getD_some] at hn
          omega

/-- The next call finds a stack that is built, behind an error as well. -/
theorem Took.built_ready (hc : Certified L g c) (h : Built L g σ x) (ht : t ≠ L.eoi)
    {p' : Parser Q V S} (htook : Took L g c σ e s t v p') :
    ∃ x', Built L g (L.ready p').stack x' := by
  cases htook with
  | @shifted τ q q' u heats hgo =>
    by_cases hroom : τ.length + 1 < L.depth
    · refine ⟨x ++ [(t, v)], ?_⟩
      rw [yyShift, if_pos (by simpa using hroom), ready_of_ne_nil (List.cons_ne_nil _ _)]
      exact .push (h.eats hc heats rfl) hgo (.one (by omega) t v)
    · refine ⟨[], ?_⟩
      rw [yyShift, if_neg (by simpa using hroom), Lemon.ready, if_pos rfl]
      exact .base
  | emptied =>
    refine ⟨[], ?_⟩
    rw [Lemon.ready, if_pos rfl]
    exact .base
  | @error τ q heats htop =>
    have hτ := h.eats hc heats rfl
    refine ⟨x, ?_⟩
    rw [yyError, if_neg ht, ready_of_ne_nil hτ.ne_nil]
    exact hτ

theorem Enough.parse_halt (hn : Enough L c n) (hc : Certified L g c) {p : Parser Q V S}
    (h : Built L g (L.ready p).stack x) {halt : Halt} (hp : L.parse n p t v = .error halt) :
    halt = .stopped := by
  rw [parse] at hp
  exact h.parseLoop_halt hc (hn.2 _ (h.length_le hn.1)) hp

/-- **Only an action stops a run.** -/
theorem feed_halt (hc : Certified L g c) (hn : Enough L c n) {wrong : S → Bool}
    (hwrong : wrong (L.syntaxError s) = true) {p : Parser Q V S} (hp : p.state = s)
    (h : Stands L g p x) (hw : ∀ tk ∈ w, tk.1 ≠ L.eoi) {halt : Halt}
    (hfeed : L.feed n wrong p w = .error halt) : halt = .stopped := by
  induction w generalizing p x with
  | nil => exact absurd hfeed (by simp [feed])
  | cons tk w ih =>
    obtain ⟨t, v⟩ := tk
    cases hcall : L.parse n p t v with
    | error halt' =>
      rw [feed, hcall] at hfeed
      injection hfeed with hfeed
      exact hfeed ▸ hn.parse_halt hc h.built_ready hcall
    | ok p₁ =>
      have hone : L.feed n wrong p [(t, v)] =
        if wrong p₁.state then .ok none else .ok (some p₁) := by rw [feed, hcall]; rfl
      rw [feed, hcall] at hfeed
      have hfeed : (if wrong p₁.state then .ok none else L.feed n wrong p₁ w) = .error halt := hfeed
      by_cases hright : wrong p₁.state = true
      · rw [if_pos hright] at hfeed
        exact absurd hfeed (by simp)
      · rw [if_neg hright] at hfeed hone
        have hfirst : ∀ tk ∈ [(t, v)], tk.1 ≠ L.eoi := fun tk htk =>
          hw tk (List.mem_cons.mpr (.inl (List.mem_singleton.mp htk)))
        obtain ⟨hstate, x', h', -⟩ := feed_stands hc hwrong hp h hfirst hone
        exact ih hstate h' (fun tk htk => hw tk (List.mem_cons_of_mem _ htk)) hfeed

end

end Lemon

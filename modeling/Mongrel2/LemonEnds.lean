/-
The last token of what a parser that Lemon has generated accepts.

* `Reduces.unique`, `Eats.unique` — without a token there is one way to go on;
* `Accepts.concat_inv` — the last token is taken on top of a stack to which the tokens in
  front of it lead, and only rules are reduced behind it;
* `Tells` — where the actions keep two values apart that come last in a rule, and
  **`Eats.tells`** — they stay apart to the end.
-/
import Mongrel2.LemonRuns

namespace Lemon

variable {Q T N R V S : Type*}

/-- What has been read last is known from the value of a rule that it is the end of: the
relation on the values of a nonterminal says that they are not the same. -/
def Tells (L : Lemon Q T N R V S) (g : Grammar T N R V) (c : Certificate Q T N R)
    (D : N → V → V → Prop) : Prop :=
  ∀ p A q r, L.trans p (.nonterminal A) = some q → c.reduction q = some r →
    g.rhs r ≠ [] ∧ ∀ us u u' v v', us.length + 1 = (g.rhs r).length → D A u u' →
      g.act r (us ++ [u]) = some v → g.act r (us ++ [u']) = some v' → D (g.lhs r) v v'

section

variable {L : Lemon Q T N R V S} {g : Grammar T N R V} {c : Certificate Q T N R} {n : ℕ}
  {w : List (T × V)} {σ σ₀ τ τ' : List (Q × V)} {p q q' : Q} {u u' u₀ v v' : V} {t : T} {r : R}
  {X : Symbol T N} {A : N}

/-! ### Reductions -/

theorem Reduces.unique (h : Reduces L g c σ τ) (h' : Reduces L g c σ τ') : τ = τ' := by
  obtain ⟨htop, hr, hlen, hact, hgo, -⟩ := h
  rename_i pushed σ₀ p q q₁ u v r
  generalize hσ : pushed ++ (p, u) :: σ₀ = σ at htop h'
  obtain ⟨htop', hr', hlen', hact', hgo', -⟩ := h'
  injection htop.symm.trans htop' with hq
  subst hq
  injection hr.symm.trans hr' with hrule
  subst hrule
  obtain ⟨rfl, hrest⟩ := List.append_inj hσ (hlen.trans hlen'.symm)
  injection hrest with hpu hσ₀
  injection hpu with hp hu
  subst hp hu hσ₀
  injection hact.symm.trans hact' with hv
  injection hgo.symm.trans hgo' with hq₁
  rw [hv, hq₁]

theorem Reduces.exists_reduction (h : Reduces L g c σ τ) :
    ∃ q r, top σ = some q ∧ c.reduction q = some r := by
  obtain ⟨htop, hr, -, -, -, -⟩ := h
  exact ⟨_, _, htop, hr⟩

/-- Where nothing is reduced, and no token taken, nothing is done. -/
theorem Eats.eq_of_none (h : Eats L g c σ w τ) (hw : w = []) (hq : top σ = some q)
    (hr : c.reduction q = none) : τ = σ := by
  cases h with
  | refl => rfl
  | reduce hred _ =>
    obtain ⟨q', r, hq', hr'⟩ := hred.exists_reduction
    injection hq.symm.trans hq' with hqq
    rw [hqq, hr'] at hr
    exact absurd hr (by simp)
  | shift => exact absurd hw (by simp)

/-- **There is one way** to where nothing is reduced any more. -/
theorem Eats.unique (h : Eats L g c σ w τ) (hw : w = []) (h' : Eats L g c σ [] τ')
    (hq : top τ = some q) (hr : c.reduction q = none) (hq' : top τ' = some q')
    (hr' : c.reduction q' = none) : τ = τ' := by
  induction h with
  | refl => exact (h'.eq_of_none rfl hq hr).symm
  | shift => exact absurd hw (by simp)
  | reduce hred _ ih =>
    cases h' with
    | refl =>
      obtain ⟨q₁, r, hq₁, hr₁⟩ := hred.exists_reduction
      injection hq'.symm.trans hq₁ with hqq
      rw [hqq, hr₁] at hr'
      exact absurd hr' (by simp)
    | reduce hred' hrest' =>
      rw [hred'.unique hred] at hrest'
      exact ih hw hrest' hq

/-- On the way to what is to be read, a rule is reduced wherever one can be. -/
theorem Eats.reduces_of_some (hc : Certified L g c)
    (h : Eats L g c σ [] [(c.done, v), (L.start, L.zero)]) (hq : top σ = some q)
    (hr : c.reduction q = some r) :
    ∃ τ, Reduces L g c σ τ ∧ Eats L g c τ [] [(c.done, v), (L.start, L.zero)] := by
  cases h with
  | refl =>
    injection hq with hq
    rw [← hq, hc.root.2] at hr
    exact absurd hr (by simp)
  | reduce hred hrest => exact ⟨_, hred, hrest⟩

/-- The symbol on top is the last one of a rule that is reduced. -/
theorem Reduces.cons_inv (h : Reduces L g c ((q, u) :: σ) τ) (hr : c.reduction q = some r)
    (hrhs : g.rhs r ≠ []) : ∃ (pushed : List (Q × V)) (p : Q) (u₀ : V) (σ₀ : List (Q × V)) (q' : Q)
      (v : V), σ = pushed ++ (p, u₀) :: σ₀ ∧ pushed.length + 1 = (g.rhs r).length ∧
        g.act r ((pushed.map Prod.snd).reverse ++ [u]) = some v ∧
          L.trans p (.nonterminal (g.lhs r)) = some q' ∧ τ = (q', v) :: (p, u₀) :: σ₀ := by
  generalize hσ : (q, u) :: σ = σ' at h
  obtain ⟨htop, hr', hlen, hact, hgo, -⟩ := h
  rename_i pushed σ₀ p q₁ q' u₀ v r'
  rw [← hσ] at htop
  injection htop with hq
  subst hq
  injection hr.symm.trans hr' with hrule
  subst hrule
  cases pushed with
  | nil => exact absurd (List.length_eq_zero_iff.mp hlen.symm) hrhs
  | cons s pushed =>
    injection hσ with hs hσ
    subst hs
    rw [List.map_cons, List.reverse_cons] at hact
    exact ⟨pushed, p, u₀, σ₀, q', v, hσ, hlen, hact, hgo, rfl⟩

/-- A rule with one symbol. -/
theorem Eats.reduce_single (hc : Certified L g c)
    (h : Eats L g c ((q, u) :: (p, u₀) :: σ₀) [] [(c.done, v), (L.start, L.zero)])
    (hr : c.reduction q = some r) (hrhs : g.rhs r = [X]) :
    ∃ q' v', L.trans p (.nonterminal (g.lhs r)) = some q' ∧ g.act r [u] = some v' ∧
      Eats L g c ((q', v') :: (p, u₀) :: σ₀) [] [(c.done, v), (L.start, L.zero)] := by
  obtain ⟨τ, hred, hrest⟩ := h.reduces_of_some hc rfl hr
  obtain ⟨pushed, p₁, u₁, σ₁, q', v', hσ, hlen, hact, hgo, rfl⟩ :=
    hred.cons_inv hr (by rw [hrhs]; exact List.cons_ne_nil _ _)
  rw [hrhs] at hlen
  obtain rfl := List.length_eq_zero_iff.mp (Nat.succ.inj hlen)
  injection hσ with hpu hσ
  injection hpu with hp hu
  subst hp hu hσ
  exact ⟨q', v', hgo, hact, hrest⟩

/-- Nothing is reduced in a state that takes a token. -/
theorem Certified.reduction_of_trans (hc : Certified L g c)
    (hgo : L.trans q (.terminal t) = some q') : c.reduction q = none := by
  cases hr : c.reduction q with
  | none => rfl
  | some r =>
    have hshift := trans_terminal.mp hgo
    rw [(hc.reduces q r hr).2 t] at hshift
    exact absurd hshift (by simp)

/-- A token that is taken last is the end of a rule. -/
theorem Eats.exists_reduction (hc : Certified L g c) (hgo : L.trans q (.terminal t) = some q')
    (h : Eats L g c ((q', u) :: σ) [] [(c.done, v), (L.start, L.zero)]) :
    ∃ r, c.reduction q' = some r := by
  cases hr : c.reduction q' with
  | some r => exact ⟨r, rfl⟩
  | none =>
    injection h.eq_of_none rfl rfl hr with hdone
    injection hdone with hdone
    rw [← hdone] at hgo
    exact absurd (hc.done _ _ hgo).2 (by simp)

/-! ### Values -/

/-- **Values that are kept apart** are so to the end. -/
theorem Eats.tells (hc : Certified L g c) {D : N → V → V → Prop} (hD : Tells L g c D)
    (h : Eats L g c ((q, u) :: (p, u₀) :: σ₀) [] [(c.done, v), (L.start, L.zero)])
    (h' : Eats L g c ((q, u') :: (p, u₀) :: σ₀) [] [(c.done, v'), (L.start, L.zero)])
    (hgo : L.trans p (.nonterminal A) = some q) (hu : D A u u') : D c.root v v' := by
  generalize hσ : (q, u) :: (p, u₀) :: σ₀ = σ at h
  generalize hw : ([] : List (T × V)) = w at h
  generalize hτ : [(c.done, v), (L.start, L.zero)] = τ at h
  induction h generalizing q u u' p u₀ σ₀ A with
  | refl =>
    rw [← hτ] at hσ
    injection hσ with hqu _
    injection hqu with hq huv
    subst hq huv
    obtain ⟨-, hroot⟩ := hc.done _ _ hgo
    injection hroot with hroot
    injection h'.eq_of_none rfl rfl hc.root.2 with hv' _
    injection hv' with _ hv'
    rw [hv', ← hroot]
    exact hu
  | shift => exact absurd hw (by simp)
  | reduce hred _ ih =>
    obtain ⟨q₁, r, hq₁, hr⟩ := hred.exists_reduction
    rw [← hσ] at hq₁ hred
    injection hq₁ with hq₁
    subst hq₁
    obtain ⟨hrhs, htells⟩ := hD p A q r hgo hr
    obtain ⟨τ', hred', hrest'⟩ := h'.reduces_of_some hc rfl hr
    obtain ⟨us, p₁, u₁, σ₁, q₁, v₁, hbelow, hlen, hact, hgo₁, rfl⟩ := hred.cons_inv hr hrhs
    obtain ⟨us', p₂, u₂, σ₂, q₂, v₂, hbelow', hlen', hact', hgo₂, rfl⟩ := hred'.cons_inv hr hrhs
    -- both stacks are the same below
    obtain ⟨rfl, hrest⟩ :=
      List.append_inj (hbelow.symm.trans hbelow') (Nat.succ.inj (hlen.trans hlen'.symm))
    injection hrest with hpu hσ₁
    injection hpu with hp hu₁
    subst hp hu₁ hσ₁
    injection hgo₁.symm.trans hgo₂ with hq₁₂
    subst hq₁₂
    have hlen : (us.map Prod.snd).reverse.length + 1 = (g.rhs r).length := by
      rw [List.length_reverse, List.length_map]
      exact hlen
    exact ih hrest' hgo₁ (htells _ _ _ _ _ hlen hu hact hact') rfl hw hτ

/-! ### The last token -/

variable [DecidableEq T]

/-- **The last token** is taken where the others lead to, and the rules that are reduced
behind it come to what is to be read. -/
theorem Accepts.concat_inv (hc : Certified L g c) (hn : Enough L c n) {wrong : S → Bool} {s : S}
    (hs : wrong s = false) (hwrong : wrong (L.syntaxError s) = true)
    (hstart : c.reduction L.start = none) {p₀ : Parser Q V S} (hstate : p₀.state = s)
    (hp₀ : p₀.stack = []) (hw : ∀ tk ∈ w, tk.1 ≠ L.eoi) (ht : t ≠ L.eoi)
    (h : Accepts g (L.depth - 1) c.root (w ++ [(t, u)]) v) :
    ∃ p₁ τ q q' u', L.feed n wrong p₀ w = .ok (some p₁) ∧
      Eats L g c (L.ready p₁).stack [] ((q, u') :: τ) ∧ L.trans q (.terminal t) = some q' ∧
      Eats L g c ((q', u) :: (q, u') :: τ) [] [(c.done, v), (L.start, L.zero)] := by
  have hall : ∀ tk ∈ w ++ [(t, u)], tk.1 ≠ L.eoi := by
    intro tk htk
    rcases List.mem_append.mp htk with htk | htk
    · exact hw tk htk
    · rw [List.mem_singleton.mp htk]
      exact ht
  obtain ⟨p₂, hfeed, hfinished⟩ := (accepts_iff hc hn hs hwrong hstate hp₀ hall).mp h
  obtain ⟨p₁, hfirst, hlast⟩ := feed_append_inv hfeed
  obtain ⟨p, hcall, hright, hlast⟩ := feed_cons_inv hlast
  injection hlast with hlast
  injection hlast with hlast
  subst hlast
  obtain ⟨hstate₁, x, hstands, -⟩ := feed_stands hc hwrong hstate (.empty hp₀) hw hfirst
  obtain ⟨σ, e, hready, herrcnt, hbuilt⟩ := hstands.ready
  rw [parse, hready] at hcall
  -- with an empty stack there would be nothing to be read
  have hne : p.stack ≠ [] := by
    intro hnil
    rw [Finished, Lemon.ready, if_pos hnil] at hfinished
    have hends := hfinished.eq_of_none rfl rfl hstart
    exact absurd (congrArg List.length hends) (by simp)
  rw [Finished, ready_of_ne_nil hne] at hfinished
  cases hbuilt.took hc ht hcall with
  | @shifted τ q q' u' heats hgo =>
    refine ⟨p₁, τ, q, q', u', hfirst, ?_, hgo, ?_⟩
    · rw [hready]
      exact heats
    · by_cases hroom : ((q, u') :: τ).length < L.depth
      · rw [yyShift, if_pos hroom] at hfinished
        exact hfinished
      · rw [yyShift, if_neg hroom] at hne
        exact absurd rfl hne
  | emptied => exact absurd rfl hne
  | error =>
    rw [yyError, if_pos (Int.le_of_lt herrcnt), hstate₁, hwrong] at hright
    exact absurd hright (by simp)

end

end Lemon

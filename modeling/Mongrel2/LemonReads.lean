/-
What a parser reads that Lemon has generated.

* `Eats` — the parser goes from one stack to another while it takes tokens;
* `Reads.eats`, `Spills.overflows` — it reads what the grammar reads, and runs out of its
  stack where the grammar does;
* `Built` — a stack with the tokens that it has been built from; `Built.popped_rule` —
  where a rule is reduced it has been read; `Built.spills` — what does not fit spills.

Design notes: this is for any tables that are `Certified`.
-/
import Mongrel2.Lemon

namespace Lemon

variable {Q T N R V S : Type*}

section

variable {g : Grammar T N R V} {n : ℕ} {Xs Ys : List (Symbol T N)} {w w' : List (T × V)}
  {vs vs' : List V} {X : Symbol T N} {v : V}

/-! ### Readings -/

theorem Reads.length (h : Reads g n Xs w vs) : vs.length = Xs.length := by
  induction h with
  | nil => rfl
  | token _ ih => rw [List.length_cons, List.length_cons, ih]
  | rule _ _ _ _ ih => rw [List.length_cons, List.length_cons, ih]

/-- A nonterminal. -/
theorem Reads.single {r : R} {us : List V} (hn : 0 < n) (hrule : Reads g n (g.rhs r) w us)
    (hact : g.act r us = some v) : Reads g n [.nonterminal (g.lhs r)] w [v] := by
  obtain ⟨m, rfl⟩ : ∃ m, n = m + 1 := ⟨n - 1, by omega⟩
  have hone := Reads.rule hrule hact (.nil m)
  rwa [List.append_nil] at hone

theorem Reads.one (hn : 0 < n) (t : T) (v : V) : Reads g n [.terminal t] [(t, v)] [v] := by
  obtain ⟨m, rfl⟩ : ∃ m, n = m + 1 := ⟨n - 1, by omega⟩
  exact .token (.nil m)

theorem Reads.append (h : Reads g n Xs w vs) (h' : Reads g (n - Xs.length) Ys w' vs') :
    Reads g n (Xs ++ Ys) (w ++ w') (vs ++ vs') := by
  induction h with
  | nil n => exact h'
  | token _ ih =>
    rw [List.length_cons, Nat.add_sub_add_right] at h'
    exact .token (ih h')
  | rule hrule hact _ _ ih =>
    rw [List.length_cons, Nat.add_sub_add_right] at h'
    rw [List.append_assoc]
    exact .rule hrule hact (ih h')

/-- The first symbol, and the others. -/
theorem Reads.cons_inv (h : Reads g n (X :: Xs) w vs) :
    ∃ w₁ w₂ v vs', w = w₁ ++ w₂ ∧ vs = v :: vs' ∧ Reads g n [X] w₁ [v] ∧
      Reads g (n - 1) Xs w₂ vs' := by
  cases h with
  | token hrest => exact ⟨_, _, _, _, rfl, rfl, .token (.nil _), hrest⟩
  | rule hrule hact hrest => exact ⟨_, _, _, _, rfl, rfl, .single (Nat.succ_pos _) hrule hact, hrest⟩

theorem Reads.pos (h : Reads g n (X :: Xs) w vs) : 0 < n := by
  cases h with
  | token => exact Nat.succ_pos _
  | rule => exact Nat.succ_pos _

/-- Tokens spill behind others that fit. -/
theorem Spills.append (h : Reads g n Xs w vs) (h' : Spills g (n - Xs.length) Ys w') :
    Spills g n (Xs ++ Ys) (w ++ w') := by
  induction h with
  | nil n => exact h'
  | @token n t v Xs w vs _ ih =>
    rw [List.length_cons, Nat.add_sub_add_right] at h'
    have hbehind := Spills.behind (Reads.one (Nat.succ_pos n) t v) (ih h')
    exact hbehind
  | rule hrule hact _ _ ih =>
    rw [List.length_cons, Nat.add_sub_add_right] at h'
    rw [List.append_assoc]
    exact .behind (.single (Nat.succ_pos _) hrule hact) (ih h')

/-- What comes behind a symbol that spills does not matter. -/
theorem Spills.cons_of_singleton (h : Spills g n [X] w) : Spills g n (X :: Xs) w := by
  cases h with
  | token => exact .token
  | empty hrhs hact => exact .empty hrhs hact
  | inside hrule => exact .inside hrule
  | behind hfirst hrest => cases hrest

theorem Behind.concat {root : N} {x : List (T × V)} (h : Behind g n root w x) (tk : T × V) :
    Behind g n root (w ++ [tk]) (x ++ [tk]) := by
  induction h with
  | all w => exact .all _
  | spilt hu _ ih =>
    rw [List.append_assoc]
    exact .spilt hu ih

theorem Behind.spill {root : N} {x : List (T × V)} (h : Behind g n root w x) (tk : T × V)
    (hx : Spills g n [.nonterminal root] (x ++ [tk])) : Behind g n root (w ++ [tk]) [] := by
  induction h with
  | all w =>
    have hnil := Behind.spilt hx (.all [])
    rwa [List.append_nil] at hnil
  | spilt hu _ ih =>
    rw [List.append_assoc]
    exact .spilt hu (ih hx)

end

/-! ### Stacks -/

/-- The state on top. -/
def top : List (Q × V) → Option Q
  | [] => none
  | (q, _) :: _ => some q

/-- A rule is reduced. -/
inductive Reduces (L : Lemon Q T N R V S) (g : Grammar T N R V) (c : Certificate Q T N R) :
    List (Q × V) → List (Q × V) → Prop
  | intro {pushed σ : List (Q × V)} {p q q' : Q} {u v : V} {r : R}
    (htop : top (pushed ++ (p, u) :: σ) = some q) (hr : c.reduction q = some r)
    (hlen : pushed.length = (g.rhs r).length)
    (hact : g.act r (pushed.map Prod.snd).reverse = some v)
    (hgo : L.trans p (.nonterminal (g.lhs r)) = some q') (hroom : σ.length + 1 < L.depth) :
    Reduces L g c (pushed ++ (p, u) :: σ) ((q', v) :: (p, u) :: σ)

/-- Rules are reduced and tokens taken. -/
inductive Eats (L : Lemon Q T N R V S) (g : Grammar T N R V) (c : Certificate Q T N R) :
    List (Q × V) → List (T × V) → List (Q × V) → Prop
  | refl (σ : List (Q × V)) : Eats L g c σ [] σ
  | reduce {σ σ' τ : List (Q × V)} {w : List (T × V)} (h : Reduces L g c σ σ')
    (hrest : Eats L g c σ' w τ) : Eats L g c σ w τ
  | shift {σ τ : List (Q × V)} {q q' : Q} {u v : V} {t : T} {w : List (T × V)}
    (hgo : L.trans q (.terminal t) = some q') (hroom : σ.length + 1 < L.depth)
    (hrest : Eats L g c ((q', v) :: (q, u) :: σ) w τ) :
    Eats L g c ((q, u) :: σ) ((t, v) :: w) τ

/-- A full stack, and a token that would go on it, or one before which a rule without symbols
would. -/
structure Overflows (L : Lemon Q T N R V S) (g : Grammar T N R V) (c : Certificate Q T N R)
    (σ : List (Q × V)) (t : T) : Prop where
  full : L.depth ≤ σ.length
  goes : ∃ q, top σ = some q ∧ (L.trans q (.terminal t) ≠ none ∨
    ∃ r v, c.reduction q = some r ∧ g.rhs r = [] ∧ g.act r [] = some v)

/-- A stack and the tokens that it has been built from. -/
inductive Built (L : Lemon Q T N R V S) (g : Grammar T N R V) :
    List (Q × V) → List (T × V) → Prop
  | base : Built L g [(L.start, L.zero)] []
  | push {σ : List (Q × V)} {p q : Q} {u v : V} {x w : List (T × V)} {X : Symbol T N}
    (hσ : Built L g ((p, u) :: σ) x) (hgo : L.trans p X = some q)
    (hw : Reads g (L.depth - (σ.length + 1)) [X] w [v]) :
    Built L g ((q, v) :: (p, u) :: σ) (x ++ w)

section

variable {L : Lemon Q T N R V S} {g : Grammar T N R V} {c : Certificate Q T N R} {n : ℕ}
  {Xs : List (Symbol T N)} {w w' x : List (T × V)} {vs : List V} {X : Symbol T N}
  {σ τ υ : List (Q × V)} {p q q' : Q} {u v : V} {t : T} {r : R}

theorem Eats.trans (h : Eats L g c σ w τ) (h' : Eats L g c τ w' υ) : Eats L g c σ (w ++ w') υ := by
  induction h with
  | refl => exact h'
  | reduce h _ ih => exact .reduce h (ih h')
  | shift hgo hroom _ ih => exact .shift hgo hroom (ih h')

/-! ### From the grammar to the parser -/

/-- **What the grammar reads is read**: the parser goes on to the state behind it. -/
theorem Reads.eats (hc : Certified L g c) (h : Reads g n Xs w vs) :
    ∀ {σ : List (Q × V)} {q q' : Q} {u : V}, L.walk q Xs = some q' →
      σ.length + 1 + n ≤ L.depth → ∃ pushed : List (Q × V),
        Eats L g c ((q, u) :: σ) w (pushed ++ (q, u) :: σ) ∧
          pushed.map Prod.snd = vs.reverse ∧ top (pushed ++ (q, u) :: σ) = some q' := by
  induction h with
  | nil n =>
    intro σ q q' u hwalk hdepth
    exact ⟨[], .refl _, rfl, hwalk⟩
  | @token n t v Xs w vs hrest ih =>
    intro σ q q' u hwalk hdepth
    obtain ⟨q₁, hgo, hwalk⟩ := Option.bind_eq_some_iff.mp hwalk
    have hdepth' : ((q, u) :: σ).length + 1 + n ≤ L.depth := by
      rw [List.length_cons]
      omega
    obtain ⟨pushed, heats, hvalues, htop⟩ := ih hwalk hdepth'
    refine ⟨pushed ++ [(q₁, v)], .shift hgo (by omega) ?_, ?_, ?_⟩
    · rw [List.append_assoc]
      exact heats
    · rw [List.map_append, hvalues, List.reverse_cons]
      rfl
    · rw [List.append_assoc]
      exact htop
  | @rule n r v Xs w w' us vs hrule hact hrest ihrule ihrest =>
    intro σ q q' u hwalk hdepth
    obtain ⟨q₁, hgo, hwalk⟩ := Option.bind_eq_some_iff.mp hwalk
    have hne : L.trans q (.nonterminal (g.lhs r)) ≠ none := by rw [hgo]; simp
    obtain ⟨q₂, hwalk₂, hred⟩ := hc.complete q r hne
    obtain ⟨pushed, heats, hvalues, htop⟩ := @ihrule σ q q₂ u hwalk₂ hdepth
    have hlen : pushed.length = (g.rhs r).length := by
      rw [← hrule.length, ← @List.length_map _ _ _ Prod.snd, hvalues, List.length_reverse]
    have hdepth' : ((q, u) :: σ).length + 1 + n ≤ L.depth := by
      rw [List.length_cons]
      omega
    have hred : Reduces L g c (pushed ++ (q, u) :: σ) ((q₁, v) :: (q, u) :: σ) := by
      refine .intro htop hred hlen ?_ hgo (by omega)
      rw [hvalues, List.reverse_reverse]
      exact hact
    obtain ⟨pushed', heats', hvalues', htop'⟩ := @ihrest ((q, u) :: σ) q₁ q' v hwalk hdepth'
    refine ⟨pushed' ++ [(q₁, v)], heats.trans (.reduce hred ?_), ?_, ?_⟩
    · rw [List.append_assoc]
      exact heats'
    · rw [List.map_append, hvalues', List.reverse_cons]
      rfl
    · rw [List.append_assoc]
      exact htop'

/-- One symbol. -/
theorem Reads.eats_symbol (hc : Certified L g c) (h : Reads g n [X] w [v])
    (hgo : L.trans q X = some q') (hdepth : σ.length + 1 + n ≤ L.depth) :
    Eats L g c ((q, u) :: σ) w ((q', v) :: (q, u) :: σ) := by
  have hwalk : L.walk q [X] = some q' := by
    rw [walk, hgo]
    rfl
  obtain ⟨pushed, heats, hvalues, htop⟩ := @Reads.eats _ _ _ _ _ _ L g c n _ _ _ hc h σ q q' u hwalk hdepth
  obtain ⟨⟨q₁, v₁⟩, rfl⟩ : ∃ s, pushed = [s] := by
    refine List.length_eq_one_iff.mp ?_
    rw [← List.length_map Prod.snd, hvalues]
    rfl
  injection htop with htop
  injection hvalues with hvalue
  have hvalue : v₁ = v := hvalue
  subst htop hvalue
  exact heats

/-- **What spills overflows.** -/
theorem Spills.overflows (hc : Certified L g c) (h : Spills g n Xs w) :
    ∀ {σ : List (Q × V)} {q : Q} {u : V}, L.walk q Xs ≠ none → σ.length + 1 + n = L.depth →
      ∃ w' t v τ, w = w' ++ [(t, v)] ∧ Eats L g c ((q, u) :: σ) w' τ ∧ Overflows L g c τ t := by
  induction h with
  | @token t v Xs =>
    intro σ q u hwalk hdepth
    refine ⟨[], t, v, _, rfl, .refl _, Nat.le_of_eq ?_, q, rfl, .inl fun hnone => ?_⟩
    · rw [List.length_cons]
      omega
    · rw [walk, hnone] at hwalk
      exact hwalk rfl
  | @empty r v tk Xs hrhs hact =>
    intro σ q u hwalk hdepth
    have hne : L.trans q (.nonterminal (g.lhs r)) ≠ none := fun hnone => by
      rw [walk, hnone] at hwalk
      exact hwalk rfl
    obtain ⟨q₂, hwalk₂, hred⟩ := hc.complete q r hne
    rw [hrhs] at hwalk₂
    injection hwalk₂ with hq
    subst hq
    refine ⟨[], tk.1, tk.2, _, rfl, .refl _, Nat.le_of_eq ?_, q, rfl, .inr ⟨r, v, hred, hrhs, hact⟩⟩
    rw [List.length_cons]
    omega
  | @inside n r Xs w hrule ih =>
    intro σ q u hwalk hdepth
    have hne : L.trans q (.nonterminal (g.lhs r)) ≠ none := fun hnone => by
      rw [walk, hnone] at hwalk
      exact hwalk rfl
    obtain ⟨q₂, hwalk₂, hred⟩ := hc.complete q r hne
    exact ih (by rw [hwalk₂]; simp) hdepth
  | @behind n X Xs w w' v hfirst hrest ih =>
    intro σ q u hwalk hdepth
    obtain ⟨q₁, hgo⟩ : ∃ q₁, L.trans q X = some q₁ := by
      refine Option.ne_none_iff_exists'.mp fun hnone => ?_
      rw [walk, hnone] at hwalk
      exact hwalk rfl
    rw [walk, hgo] at hwalk
    have heats : Eats L g c ((q, u) :: σ) w ((q₁, v) :: (q, u) :: σ) :=
      hfirst.eats_symbol hc hgo (by omega)
    have hdepth' : ((q, u) :: σ).length + 1 + n = L.depth := by
      rw [List.length_cons]
      omega
    obtain ⟨w₁, t, v', τ, rfl, heats', hover⟩ := @ih ((q, u) :: σ) q₁ v hwalk hdepth'
    exact ⟨w ++ w₁, t, v', τ, (List.append_assoc ..).symm, heats.trans heats', hover⟩

/-! ### From the parser to the grammar -/

/-- The upper part of a stack has been read as some symbols, in a state that can go on behind
the nonterminal that they make. -/
inductive Popped (L : Lemon Q T N R V S) (g : Grammar T N R V) (A : N) (Xs : List (Symbol T N))
    (σ : List (Q × V)) (x : List (T × V)) : Prop
  | intro {pushed σ₀ : List (Q × V)} {p q' : Q} {u : V} {x₀ w : List (T × V)}
    (hσ : σ = pushed ++ (p, u) :: σ₀) (hx : x = x₀ ++ w) (hbuilt : Built L g ((p, u) :: σ₀) x₀)
    (hreads : Reads g (L.depth - (σ₀.length + 1)) Xs w (pushed.map Prod.snd).reverse)
    (hgo : L.trans p (.nonterminal A) = some q')

theorem Reads.length_pushed {pushed : List (Q × V)}
    (h : Reads g n Xs w (pushed.map Prod.snd).reverse) : pushed.length = Xs.length := by
  rw [← h.length, List.length_reverse, List.length_map]

theorem Built.ne_nil (h : Built L g σ x) : σ ≠ [] := by
  cases h with
  | base => exact List.cons_ne_nil _ _
  | push => exact List.cons_ne_nil _ _

/-- A stack that is built is not too high. -/
theorem Built.length_le (hdepth : 0 < L.depth) (h : Built L g σ x) : σ.length ≤ L.depth := by
  cases h with
  | base => exact hdepth
  | push hσ hgo hw =>
    have hpos := hw.pos
    rw [List.length_cons, List.length_cons]
    omega

theorem Built.pos_of_kernel (hc : Certified L g c) {i : ℕ} (h : Built L g σ x)
    (hq : top σ = some q) (hmem : (r, i) ∈ c.kernel q) : 0 < i := by
  cases h with
  | base =>
    injection hq with hq
    rw [← hq, hc.start.1] at hmem
    exact absurd hmem List.not_mem_nil
  | push hσ hgo hw =>
    injection hq with hq
    subst hq
    exact (hc.kernel _ _ _ hgo _ hmem).1

/-- Behind some of its symbols, a rule has been read so far. -/
theorem Built.popped (hc : Certified L g c) {i : ℕ} (h : Built L g σ x) (hq : top σ = some q)
    (hmem : (r, i) ∈ c.kernel q) : Popped L g (g.lhs r) ((g.rhs r).take i) σ x := by
  induction i generalizing σ x q with
  | zero => exact absurd (h.pos_of_kernel hc hq hmem) (Nat.lt_irrefl 0)
  | succ i ih =>
    cases h with
    | base =>
      injection hq with hq
      rw [← hq, hc.start.1] at hmem
      exact absurd hmem List.not_mem_nil
    | @push σ p q₁ u v x w X hσ hgo hw =>
      injection hq with hq
      subst hq
      obtain ⟨-, hX, hbelow⟩ := hc.kernel _ _ _ hgo _ hmem
      have hX : (g.rhs r)[i]? = some X := hX
      have hbelow : if i + 1 = 1 then L.trans p (.nonterminal (g.lhs r)) ≠ none
        else (r, i) ∈ c.kernel p := hbelow
      rw [List.take_add_one, hX]
      by_cases hi : i = 0
      · subst hi
        rw [if_pos rfl] at hbelow
        obtain ⟨q', hgo'⟩ := Option.ne_none_iff_exists'.mp hbelow
        rw [List.take_zero]
        exact @Popped.intro _ _ _ _ _ _ L g _ _ _ _ [(q₁, v)] _ _ _ _ _ _ rfl rfl hσ hw hgo'
      · rw [if_neg (by omega)] at hbelow
        obtain ⟨hσ', hx, hbuilt, hreads, hgo'⟩ := ih hσ rfl hbelow
        rename_i pushed σ₀ p' q' u' x₀ w'
        have htake : ((g.rhs r).take i).length = i :=
          List.length_take_of_le (Nat.le_of_lt (List.getElem?_eq_some_iff.mp hX).1)
        have hpushed : pushed.length = i := hreads.length_pushed.trans htake
        have hlen : σ.length + 1 = i + (σ₀.length + 1) := by
          rw [← List.length_cons, hσ', List.length_append, List.length_cons, hpushed]
        refine @Popped.intro _ _ _ _ _ _ L g _ _ _ _ ((q₁, v) :: pushed) σ₀ p' q' u' x₀ (w' ++ w) ?_ ?_ hbuilt ?_ hgo'
        · rw [hσ']
          rfl
        · rw [hx, List.append_assoc]
        · rw [List.map_cons, List.reverse_cons]
          refine hreads.append ?_
          have hleft : L.depth - (σ₀.length + 1) - ((g.rhs r).take i).length =
              L.depth - (σ.length + 1) := by
            rw [htake]
            omega
          rw [hleft]
          exact hw

/-- **A rule that is reduced** has been read. -/
theorem Built.popped_rule (hc : Certified L g c) (h : Built L g σ x) (hq : top σ = some q)
    (hr : c.reduction q = some r) : Popped L g (g.lhs r) (g.rhs r) σ x := by
  have hitem := hc.item q r hr
  by_cases hrhs : g.rhs r = []
  · rw [if_pos hrhs] at hitem
    obtain ⟨q', hgo⟩ := Option.ne_none_iff_exists'.mp hitem
    rw [hrhs]
    obtain ⟨u, σ₀, rfl⟩ : ∃ u σ₀, σ = (q, u) :: σ₀ := by
      cases σ with
      | nil => exact absurd hq (by simp [top])
      | cons s σ₀ =>
        injection hq with hq
        exact ⟨s.2, σ₀, by rw [← hq]⟩
    exact @Popped.intro _ _ _ _ _ _ L g _ _ _ _ [] σ₀ q q' u x [] rfl (List.append_nil x).symm h
      (.nil _) hgo
  · rw [if_neg hrhs] at hitem
    have hpopped := h.popped hc hq hitem
    rwa [List.take_length] at hpopped

/-- **What does not fit spills**, as a part of what is to be read. -/
theorem Built.spills (hc : Certified L g c) : ∀ {l k : ℕ} {σ : List (Q × V)} {x w : List (T × V)}
    {q : Q} {X : Symbol T N}, σ.length = l → c.level X = k → Built L g σ x → top σ = some q →
      L.trans q X ≠ none → Spills g (L.depth - σ.length) [X] w →
      Spills g (L.depth - 1) [.nonterminal c.root] (x ++ w) := by
  intro l
  induction l using Nat.strongRecOn with
  | ind l ihl =>
    intro k
    induction k using Nat.strongRecOn with
    | ind k ihk =>
      intro σ x w q X hl hk hσ hq hX hw
      rcases hc.viable q X hX with ⟨rfl, rfl⟩ | ⟨⟨r, i⟩, hmem, hnext⟩ | ⟨r, hhead, hgo, hlevel⟩
      · -- the beginning
        cases hσ with
        | base => exact hw
        | push hσ hgo =>
          injection hq with hq
          exact absurd (hq ▸ hgo) (hc.start.2 _ _)
      · -- within a rule, which has been read up to here
        obtain ⟨hsplit, hx, hbuilt, hreads, hgo⟩ := hσ.popped hc hq hmem
        rename_i pushed σ₀ p q' u x₀ w₀
        have hnext : (g.rhs r)[i]? = some X := hnext
        have hlt := (List.getElem?_eq_some_iff.mp hnext).1
        have htake : ((g.rhs r).take i).length = i := List.length_take_of_le (Nat.le_of_lt hlt)
        have hpushed : pushed.length = i := hreads.length_pushed.trans htake
        have hpos : 0 < i := hσ.pos_of_kernel hc hq hmem
        have hlen : σ.length = i + (σ₀.length + 1) := by
          rw [hsplit, List.length_append, List.length_cons, hpushed]
        have hrule : Spills g (L.depth - (σ₀.length + 1)) (g.rhs r) (w₀ ++ w) := by
          have hdrop : (g.rhs r).drop i = X :: (g.rhs r).drop (i + 1) := by
            rw [List.drop_eq_getElem_cons hlt, (List.getElem?_eq_some_iff.mp hnext).2]
          rw [← List.take_append_drop i (g.rhs r), hdrop]
          refine Spills.append hreads (Spills.cons_of_singleton ?_)
          rw [htake, show L.depth - (σ₀.length + 1) - i = L.depth - σ.length by omega]
          exact hw
        rw [hx, List.append_assoc]
        exact ihl (σ₀.length + 1) (by omega) rfl rfl hbuilt rfl (by rw [hgo]; simp) (.inside hrule)
      · -- a rule begins
        obtain ⟨Xs, hrhs⟩ := List.head?_eq_some_iff.mp hhead
        have hrule : Spills g (L.depth - σ.length) (g.rhs r) w := by
          rw [hrhs]
          exact hw.cons_of_singleton
        exact ihk _ (hk ▸ hlevel) hl rfl hσ hq hgo (.inside hrule)

end

end Lemon

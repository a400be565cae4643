/-
Longest-match scanners.

A scanner goes through its states from the beginning of a token on, marks where one could
end, and cuts the token off there or before the byte that it is at.  Behind the token it
begins again.

* `Scanner.munch` — one token; `Scanner.run` — a text;
* `Productive` — no token is empty, and `run` comes to an end (`run_finishes`);
* `Total` — nothing is no token, and `run` takes all of the text (`run_final`);
* `Leaves` — what is taken from a text whatever follows it, and what is left;
* `run_of_leaves`, `run_of_fails` — how a text is scanned that goes on;
* `Kinds` — what holds of all kinds of tokens.
-/
import Mathlib.Data.List.Basic

namespace Scanner

/-- Where a token is cut off: before the byte that the scanner is at, or at the mark; there
it is of the given kind, or of the one that was noted at the mark. -/
inductive Cut (κ : Type*)
  | hold (k : κ)
  | back (k : Option κ)

/-- What a scanner does with a byte. -/
inductive Move (σ κ : Type*)
  /-- on to the next byte -/
  | go (s : σ)
  /-- the same, with a mark behind the byte, and what kind of token would end there -/
  | mark (s : σ) (k : Option κ)
  /-- a token that ends with the byte, or something to be skipped -/
  | emit (k : Option κ)
  | cut (c : Cut κ)
  | fail

end Scanner

/-- A scanner for bytes of `α`, with states `σ` and tokens of the kinds `κ`. -/
structure Scanner (α σ κ : Type*) where
  start : σ
  next : σ → α → Scanner.Move σ κ
  /-- what is done in a state when the text ends there -/
  eof : σ → Option (Scanner.Cut κ)

namespace Scanner

variable {α σ κ : Type*}

/-- How far a token has been read: the state, the bytes, those up to the mark, and the kind
that was noted there. -/
structure Reading (σ κ : Type*) where
  state : σ
  read : ℕ
  marked : ℕ
  kind : Option κ

/-- What becomes of a token: it is cut off, it is none, or the text ends first. -/
inductive Munched (σ κ : Type*)
  | token (k : Option κ) (len : ℕ)
  | failed
  | ended (r : Reading σ κ)

/-- How a scan ends. -/
inductive End (σ : Type*)
  | final
  | standing (s : σ)
  | failed
  | unfinished
  deriving DecidableEq

/-- The token that is cut off. -/
def Cut.token (r : Reading σ κ) : Cut κ → Munched σ κ
  | .hold k => .token (some k) r.read
  | .back k => .token (k <|> r.kind) r.marked

variable (sc : Scanner α σ κ)

/-- At the beginning of a token. -/
def first : Reading σ κ := ⟨sc.start, 0, 0, none⟩

/-- One token. -/
def munch : Reading σ κ → List α → Munched σ κ
  | r, [] => .ended r
  | r, c :: text =>
    match sc.next r.state c with
    | .go s => munch { r with state := s, read := r.read + 1 } text
    | .mark s k => munch ⟨s, r.read + 1, r.read + 1, k <|> r.kind⟩ text
    | .emit k => .token k (r.read + 1)
    | .cut cut => cut.token r
    | .fail => .failed

/-- The end of the text, in the middle of a token. -/
def atEof (r : Reading σ κ) : Munched σ κ :=
  match sc.eof r.state with
  | some cut => cut.token r
  | none => .ended r

/-- One token, with the end of the text. -/
def munchAll (text : List α) : Munched σ κ :=
  match sc.munch sc.first text with
  | .ended r => sc.atEof r
  | m => m

/-- A token in front of others, unless it is skipped. -/
def push (k : Option κ) (text : List α) (scanned : List (κ × List α) × End σ) :
    List (κ × List α) × End σ :=
  ((k.map (·, text)).toList ++ scanned.1, scanned.2)

/-- The tokens of a text, at most so many of them, and how the scan ends. -/
def scan : ℕ → List α → List (κ × List α) × End σ
  | _, [] => ([], .final)
  | 0, _ :: _ => ([], .unfinished)
  | n + 1, c :: text =>
    match sc.munchAll (c :: text) with
    | .token k len => push k ((c :: text).take len) (scan n ((c :: text).drop len))
    | .failed => ([], .failed)
    | .ended r => ([], .standing r.state)

/-- The tokens of a text. -/
def run (text : List α) : List (κ × List α) × End σ := sc.scan text.length text

/-- The kind that comes with a cut. -/
def Cut.kind : Cut κ → Option κ
  | .hold k => some k
  | .back k => k

/-- The kind that comes with a move. -/
def Move.kind : Move σ κ → Option κ
  | .mark _ k => k
  | .emit k => k
  | .cut c => c.kind
  | _ => none

/-- All kinds that a scanner knows. -/
structure Kinds (P : κ → Prop) : Prop where
  next : ∀ s c k, (sc.next s c).kind = some k → P k
  eof : ∀ s cut k, sc.eof s = some cut → cut.kind = some k → P k

/-- In the states of `M` there is a mark, and a token is only cut off at one, or behind a
byte at least. -/
structure Productive (M : σ → Prop) : Prop where
  start : ¬M sc.start
  start_cut : ∀ c cut, sc.next sc.start c ≠ .cut cut
  go : ∀ s c s', sc.next s c = .go s' → M s' → M s
  back : ∀ s c k, sc.next s c = .cut (.back k) → M s
  eof : ∀ s k, sc.eof s = some (.back k) → M s

/-- Tokens that a text has whatever follows it, and what is left behind them, of which the
scanner does not know yet. -/
inductive Leaves : List α → List (κ × List α) → List α → Prop
  | here {text : List α} {r : Reading σ κ} (h : sc.munch sc.first text = .ended r) :
    Leaves text [] text
  | token {text rest : List α} {toks : List (κ × List α)} {k : Option κ} {len : ℕ}
    (h : sc.munch sc.first text = .token k len) (hrest : Leaves (text.drop len) toks rest) :
    Leaves text ((k.map (·, text.take len)).toList ++ toks) rest

/-- Tokens that a text has whatever follows it, and behind them bytes that begin none. -/
inductive Fails : List α → List (κ × List α) → Prop
  | here {text : List α} (h : sc.munch sc.first text = .failed) : Fails text []
  | token {text : List α} {toks : List (κ × List α)} {k : Option κ} {len : ℕ}
    (h : sc.munch sc.first text = .token k len) (hrest : Fails (text.drop len) toks) :
    Fails text ((k.map (·, text.take len)).toList ++ toks)

section

variable {sc} {M : σ → Prop} {text rest xs ys : List α} {toks : List (κ × List α)} {n len : ℕ}
  {k : Option κ} {r r' : Reading σ κ}

/-! ### One token -/

/-- A token is read on where a text goes on. -/
theorem munch_append (r : Reading σ κ) (xs ys : List α) :
    sc.munch r (xs ++ ys) =
      match sc.munch r xs with
      | .ended r' => sc.munch r' ys
      | m => m := by
  induction xs generalizing r with
  | nil => rfl
  | cons c xs ih =>
    rw [List.cons_append, munch, munch]
    cases hmove : sc.next r.state c with
    | go s => exact ih _
    | mark s k => exact ih _
    | emit k => rfl
    | cut cut => cases cut <;> rfl
    | fail => rfl

/-- What holds while a token is read. -/
structure Sound (sc : Scanner α σ κ) (M : σ → Prop) (r : Reading σ κ) : Prop where
  start : r.read = 0 → r.state = sc.start
  marked : M r.state → 0 < r.marked
  le : r.marked ≤ r.read

theorem Productive.first (h : sc.Productive M) : Sound sc M sc.first where
  start := fun _ => rfl
  marked := fun hM => absurd hM h.start
  le := Nat.le_refl 0

/-- A token that is cut off ends behind its first byte and within what has been read. -/
theorem Sound.cut (hr : Sound sc M r) (hpos : 0 < r.read) {cut : Cut κ}
    (hback : ∀ k, cut = .back k → M r.state) (h : cut.token r = .token k len) :
    0 < len ∧ len ≤ r.read := by
  cases cut with
  | hold k' =>
    injection h with hk hlen
    exact ⟨hlen ▸ hpos, Nat.le_of_eq hlen.symm⟩
  | back k' =>
    injection h with hk hlen
    exact ⟨hlen ▸ hr.marked (hback k' rfl), hlen ▸ hr.le⟩

theorem Sound.munch (h : sc.Productive M) (hr : Sound sc M r) :
    (∀ k len, sc.munch r text = .token k len → 0 < len ∧ len ≤ r.read + text.length) ∧
      ∀ r', sc.munch r text = .ended r' → Sound sc M r' ∧ r'.read = r.read + text.length := by
  induction text generalizing r with
  | nil =>
    refine ⟨fun k len hm => ?_, fun r' hm => ?_⟩
    · exact absurd hm (by simp [Scanner.munch])
    · injection hm with hm
      exact ⟨hm ▸ hr, hm ▸ rfl⟩
  | cons c text ih =>
    have hlen : r.read + (c :: text).length = r.read + 1 + text.length := by
      rw [List.length_cons]
      omega
    rw [Scanner.munch, hlen]
    cases hmove : sc.next r.state c with
    | go s =>
      have hs : Sound sc M { r with state := s, read := r.read + 1 } :=
        ⟨fun hzero => absurd hzero (Nat.succ_ne_zero _),
          fun hM => hr.marked (h.go _ _ _ hmove hM), Nat.le_succ_of_le hr.le⟩
      exact ih hs
    | mark s k' =>
      have hs : Sound sc M ⟨s, r.read + 1, r.read + 1, k' <|> r.kind⟩ :=
        ⟨fun hzero => absurd hzero (Nat.succ_ne_zero _), fun _ => Nat.succ_pos _, Nat.le_refl _⟩
      exact ih hs
    | emit k' =>
      refine ⟨fun k len hm => ?_, fun r' hm => absurd hm (by simp)⟩
      injection hm with hk hlen
      omega
    | cut cut =>
      have hpos : 0 < r.read := by
        refine Nat.pos_of_ne_zero fun hzero => ?_
        rw [hr.start hzero] at hmove
        exact h.start_cut c cut hmove
      refine ⟨fun k len hm => ?_, fun r' hm => ?_⟩
      · have hcut := hr.cut hpos (fun k hk => h.back _ _ k (hk ▸ hmove)) hm
        omega
      · cases cut <;> exact absurd hm (by simp [Cut.token])
    | fail => exact ⟨fun k len hm => absurd hm (by simp), fun r' hm => absurd hm (by simp)⟩

/-- **A token takes a byte** at least, and no more than there are. -/
theorem Productive.munchAll (h : sc.Productive M) (hne : text ≠ [])
    (hm : sc.munchAll text = .token k len) : 0 < len ∧ len ≤ text.length := by
  obtain ⟨htoken, hended⟩ := @Sound.munch _ _ _ _ _ text _ h h.first
  have hzero : sc.first.read = 0 := rfl
  rw [hzero, Nat.zero_add] at htoken hended
  rw [Scanner.munchAll] at hm
  cases hmunch : sc.munch sc.first text with
  | token k' len' =>
    rw [hmunch] at hm
    exact htoken k len (hmunch.trans hm)
  | failed =>
    rw [hmunch] at hm
    exact absurd hm (by simp)
  | ended r =>
    rw [hmunch] at hm
    obtain ⟨hr, hread⟩ := hended r hmunch
    have hpos : 0 < r.read := by
      rw [hread]
      exact List.length_pos_of_ne_nil hne
    have hm : sc.atEof r = .token k len := hm
    rw [atEof] at hm
    cases heof : sc.eof r.state with
    | none =>
      rw [heof] at hm
      exact absurd hm (by simp)
    | some cut =>
      rw [heof] at hm
      rw [← hread]
      exact hr.cut hpos (fun k hk => h.eof _ k (hk ▸ heof)) hm

/-! ### A text -/

theorem scan_nil (n : ℕ) : sc.scan n [] = ([], .final) := by
  cases n <;> rfl

theorem scan_succ (hne : text ≠ []) (n : ℕ) :
    sc.scan (n + 1) text =
      match sc.munchAll text with
      | .token k len => push k (text.take len) (sc.scan n (text.drop len))
      | .failed => ([], .failed)
      | .ended r => ([], .standing r.state) := by
  obtain ⟨c, text, rfl⟩ := List.exists_cons_of_ne_nil hne
  rw [scan]

/-- A limit on the tokens does not matter if it is not below the bytes. -/
theorem Productive.scan_eq_run (h : sc.Productive M) (hn : text.length ≤ n) :
    sc.scan n text = sc.run text := by
  induction n using Nat.strongRecOn generalizing text with
  | ind n ih =>
    by_cases hne : text = []
    · subst hne
      rw [run, scan_nil, scan_nil]
    · have hpos := List.length_pos_of_ne_nil hne
      obtain ⟨m, rfl⟩ : ∃ m, n = m + 1 := ⟨n - 1, by omega⟩
      obtain ⟨l, hl⟩ : ∃ l, text.length = l + 1 := ⟨text.length - 1, by omega⟩
      rw [run, hl, scan_succ hne, scan_succ hne]
      cases hmunch : sc.munchAll text with
      | token k len =>
        obtain ⟨hlen, hle⟩ := h.munchAll hne hmunch
        have hdrop : (text.drop len).length ≤ l := by
          rw [List.length_drop]
          omega
        dsimp only
        rw [ih m (Nat.lt_succ_self m) (by omega)]
        by_cases hlm : l = m
        · rw [hlm, ih m (Nat.lt_succ_self m) (by omega)]
        · rw [ih l (by omega) hdrop]
      | failed => rfl
      | ended r => rfl

theorem run_nil : sc.run [] = ([], .final) := rfl

/-- **A text that begins with a token** goes on behind it. -/
theorem Productive.run_token (h : sc.Productive M) (hne : text ≠ [])
    (hm : sc.munchAll text = .token k len) :
    sc.run text = push k (text.take len) (sc.run (text.drop len)) := by
  obtain ⟨hlen, hle⟩ := h.munchAll hne hm
  obtain ⟨l, hl⟩ : ∃ l, text.length = l + 1 := ⟨text.length - 1, by omega⟩
  have hdrop : (text.drop len).length ≤ l := by
    rw [List.length_drop]
    omega
  rw [run, hl, scan_succ hne, hm]
  dsimp only
  rw [h.scan_eq_run hdrop]

theorem run_of_failed (hm : sc.munchAll text = .failed) : sc.run text = ([], .failed) := by
  have hne : text ≠ [] := by
    rintro rfl
    have hnil : sc.munchAll [] = sc.atEof sc.first := rfl
    rw [hnil, atEof] at hm
    cases heof : sc.eof sc.first.state with
    | none => rw [heof] at hm; exact absurd hm (by simp)
    | some cut => rw [heof] at hm; cases cut <;> exact absurd hm (by simp [Cut.token])
  obtain ⟨l, hl⟩ : ∃ l, text.length = l + 1 :=
    ⟨text.length - 1, by have := List.length_pos_of_ne_nil hne; omega⟩
  rw [run, hl, scan_succ hne, hm]

theorem run_of_ended (hne : text ≠ []) (hm : sc.munchAll text = .ended r) :
    sc.run text = ([], .standing r.state) := by
  obtain ⟨l, hl⟩ : ∃ l, text.length = l + 1 :=
    ⟨text.length - 1, by have := List.length_pos_of_ne_nil hne; omega⟩
  rw [run, hl, scan_succ hne, hm]

/-- **A scan comes to an end.** -/
theorem Productive.run_finishes (h : sc.Productive M) (text : List α) :
    (sc.run text).2 ≠ .unfinished := by
  induction hlen : text.length using Nat.strongRecOn generalizing text with
  | ind n ih =>
    by_cases hne : text = []
    · subst hne
      rw [run_nil]
      simp
    · cases hm : sc.munchAll text with
      | token k len =>
        obtain ⟨hpos, hle⟩ := h.munchAll hne hm
        rw [h.run_token hne hm]
        exact ih (text.drop len).length (by rw [List.length_drop]; omega) _ rfl
      | failed =>
        rw [run_of_failed hm]
        simp
      | ended r =>
        rw [run_of_ended hne hm]
        simp

/-- A scanner that can always cut a token off. -/
structure Total (sc : Scanner α σ κ) : Prop where
  next : ∀ s c, sc.next s c ≠ .fail
  go : ∀ s c s', sc.next s c = .go s' → s' ≠ sc.start
  mark : ∀ s c s' k, sc.next s c = .mark s' k → s' ≠ sc.start
  eof : ∀ s, s ≠ sc.start → sc.eof s ≠ none

theorem Total.munch (h : sc.Total) (r : Reading σ κ) (text : List α) :
    sc.munch r text ≠ .failed ∧
      ∀ r', sc.munch r text = .ended r' → text ≠ [] → r'.state ≠ sc.start := by
  induction text generalizing r with
  | nil => exact ⟨by simp [Scanner.munch], fun r' _ hne => absurd rfl hne⟩
  | cons c text ih =>
    -- a state that the scanner has gone to is not the first one
    have hon : ∀ r : Reading σ κ, r.state ≠ sc.start →
        sc.munch r text ≠ .failed ∧
          ∀ r', sc.munch r text = .ended r' → r'.state ≠ sc.start := by
      intro r hr
      refine ⟨(ih r).1, fun r' hended => ?_⟩
      rcases text with _ | ⟨d, text⟩
      · injection hended with hended
        exact hended ▸ hr
      · exact (ih r).2 r' hended (List.cons_ne_nil d text)
    rw [Scanner.munch]
    cases hmove : sc.next r.state c with
    | go s =>
      have hs := hon { r with state := s, read := r.read + 1 } (h.go _ _ _ hmove)
      exact ⟨hs.1, fun r' hended _ => hs.2 r' hended⟩
    | mark s k =>
      have hs := hon ⟨s, r.read + 1, r.read + 1, k <|> r.kind⟩ (h.mark _ _ _ _ hmove)
      exact ⟨hs.1, fun r' hended _ => hs.2 r' hended⟩
    | emit k => simp
    | cut cut => cases cut <;> simp [Cut.token]
    | fail => exact absurd hmove (h.next _ _)

theorem Total.munchAll (h : sc.Total) (hne : text ≠ []) :
    ∃ k len, sc.munchAll text = .token k len := by
  obtain ⟨hfailed, hended⟩ := h.munch sc.first text
  rw [Scanner.munchAll]
  cases hm : sc.munch sc.first text with
  | token k len => exact ⟨k, len, rfl⟩
  | failed => exact absurd hm hfailed
  | ended r =>
    have heof := h.eof r.state (hended r hm hne)
    show ∃ k len, sc.atEof r = .token k len
    rw [atEof]
    cases hcut : sc.eof r.state with
    | none => exact absurd hcut heof
    | some cut => cases cut <;> exact ⟨_, _, rfl⟩

/-- **All of a text** is scanned then. -/
theorem Productive.run_final (h : sc.Productive M) (ht : sc.Total) (text : List α) :
    (sc.run text).2 = .final := by
  induction hlen : text.length using Nat.strongRecOn generalizing text with
  | ind n ih =>
    by_cases hne : text = []
    · subst hne
      rfl
    · obtain ⟨k, len, hm⟩ := ht.munchAll hne
      obtain ⟨hpos, hle⟩ := h.munchAll hne hm
      rw [h.run_token hne hm]
      exact ih (text.drop len).length (by rw [List.length_drop]; omega) _ rfl

/-! ### Texts that go on -/

theorem munchAll_of_token (h : sc.munch sc.first text = .token k len) (more : List α) :
    sc.munchAll (text ++ more) = .token k len := by
  rw [Scanner.munchAll, munch_append, h]

theorem munchAll_of_failed (h : sc.munch sc.first text = .failed) (more : List α) :
    sc.munchAll (text ++ more) = .failed := by
  rw [Scanner.munchAll, munch_append, h]

/-- The token in front of a text that goes on. -/
theorem Productive.run_append_token (h : sc.Productive M)
    (hm : sc.munch sc.first text = .token k len) (more : List α) :
    sc.run (text ++ more) = push k (text.take len) (sc.run (text.drop len ++ more)) := by
  have hne : text ≠ [] := by
    rintro rfl
    exact absurd hm (by simp [Scanner.munch])
  have hlen := (@Sound.munch _ _ _ _ _ text _ h h.first).1 k len hm
  have hzero : sc.first.read = 0 := rfl
  rw [hzero, Nat.zero_add] at hlen
  have hne' : text ++ more ≠ [] := List.append_ne_nil_of_left_ne_nil hne more
  rw [h.run_token hne' (munchAll_of_token hm more), List.take_append_of_le_length hlen.2,
    List.drop_append_of_le_length hlen.2]

/-- **Behind the tokens of a text** the rest of it is scanned with what follows. -/
theorem Productive.run_of_leaves (h : sc.Productive M) (hl : sc.Leaves text toks rest)
    (more : List α) :
    sc.run (text ++ more) = (toks ++ (sc.run (rest ++ more)).1, (sc.run (rest ++ more)).2) := by
  induction hl with
  | here => rfl
  | token hm _ ih =>
    rw [h.run_append_token hm more, ih, push, List.append_assoc]

/-- **A byte that begins no token** ends the scan, whatever follows. -/
theorem Productive.run_of_fails (h : sc.Productive M) (hf : sc.Fails text toks) (more : List α) :
    sc.run (text ++ more) = (toks, .failed) := by
  induction hf with
  | here hm => exact run_of_failed (munchAll_of_failed hm more)
  | token hm _ ih => rw [h.run_append_token hm more, ih, push]

/-- A text leaves something, or fails. -/
theorem Productive.leaves_or_fails (h : sc.Productive M) (text : List α) :
    (∃ toks rest, sc.Leaves text toks rest) ∨ ∃ toks, sc.Fails text toks := by
  induction hlen : text.length using Nat.strongRecOn generalizing text with
  | ind n ih =>
    cases hm : sc.munch sc.first text with
    | token k len =>
      have hpos := (@Sound.munch _ _ _ _ _ text _ h h.first).1 k len hm
      have hzero : sc.first.read = 0 := rfl
      rw [hzero, Nat.zero_add] at hpos
      rcases ih (text.drop len).length (by rw [List.length_drop]; omega) _ rfl with
        ⟨toks, rest, hl⟩ | ⟨toks, hf⟩
      · exact .inl ⟨_, rest, .token hm hl⟩
      · exact .inr ⟨_, .token hm hf⟩
    | failed => exact .inr ⟨[], .here hm⟩
    | ended r => exact .inl ⟨[], text, .here hm⟩

/-- What is left is a token that has been begun. -/
theorem Leaves.ended (hl : sc.Leaves text toks rest) :
    ∃ r, sc.munch sc.first rest = .ended r := by
  induction hl with
  | here h => exact ⟨_, h⟩
  | token _ _ ih => exact ih

/-! ### Kinds -/

theorem or_kind {P : κ → Prop} {k k' k₀ : Option κ} (hk : ∀ x, k = some x → P x)
    (hk' : ∀ x, k' = some x → P x) (h : (k <|> k') = k₀) : ∀ x, k₀ = some x → P x := by
  subst h
  cases k with
  | none => exact hk'
  | some y => exact hk

theorem Kinds.cut {P : κ → Prop} {cut : Cut κ} (hcut : ∀ k, cut.kind = some k → P k)
    (hr : ∀ k, r.kind = some k → P k) (h : cut.token r = .token k len) :
    ∀ x, k = some x → P x := by
  cases cut with
  | hold k' =>
    injection h with hk
    exact hk ▸ hcut
  | back k' =>
    injection h with hk
    exact or_kind hcut hr hk

theorem Kinds.munch {P : κ → Prop} (h : sc.Kinds P) (hr : ∀ k, r.kind = some k → P k) :
    (∀ k len, sc.munch r text = .token k len → ∀ x, k = some x → P x) ∧
      ∀ r', sc.munch r text = .ended r' → ∀ x, r'.kind = some x → P x := by
  induction text generalizing r with
  | nil =>
    refine ⟨fun k len hm => absurd hm (by simp [Scanner.munch]), fun r' hm => ?_⟩
    injection hm with hm
    exact hm ▸ hr
  | cons c text ih =>
    have hnext := h.next r.state c
    rw [Scanner.munch]
    cases hmove : sc.next r.state c with
    | go s =>
      have hrest := @ih { r with state := s, read := r.read + 1 } hr
      exact hrest
    | mark s k =>
      rw [hmove] at hnext
      have hrest := @ih ⟨s, r.read + 1, r.read + 1, k <|> r.kind⟩ (or_kind hnext hr rfl)
      exact hrest
    | emit k =>
      rw [hmove] at hnext
      refine ⟨fun k' len hm => ?_, fun r' hm => absurd hm (by simp)⟩
      injection hm with hk
      exact hk ▸ hnext
    | cut cut =>
      rw [hmove] at hnext
      refine ⟨fun k len hm => Kinds.cut hnext hr hm, fun r' hm => ?_⟩
      cases cut <;> exact absurd hm (by simp [Cut.token])
    | fail => exact ⟨fun k len hm => absurd hm (by simp), fun r' hm => absurd hm (by simp)⟩

theorem Kinds.munchAll {P : κ → Prop} (h : sc.Kinds P) (hm : sc.munchAll text = .token k len) :
    ∀ x, k = some x → P x := by
  have hfirst : ∀ x, sc.first.kind = some x → P x := fun x hx => absurd hx (by simp [first])
  obtain ⟨htoken, hended⟩ := @Kinds.munch _ _ _ sc text sc.first P h hfirst
  rw [Scanner.munchAll] at hm
  cases hmunch : sc.munch sc.first text with
  | token k' len' =>
    rw [hmunch] at hm
    exact htoken k len (hmunch.trans hm)
  | failed =>
    rw [hmunch] at hm
    exact absurd hm (by simp)
  | ended r =>
    rw [hmunch] at hm
    have hm : sc.atEof r = .token k len := hm
    rw [atEof] at hm
    cases heof : sc.eof r.state with
    | none =>
      rw [heof] at hm
      exact absurd hm (by simp)
    | some cut =>
      rw [heof] at hm
      exact Kinds.cut (fun x hx => h.eof _ _ x heof hx) (hended r hmunch) hm

/-- **Each token** of a text is of a kind that the scanner knows. -/
theorem Kinds.run {P : κ → Prop} (h : sc.Kinds P) (hp : sc.Productive M) (text : List α) :
    ∀ found ∈ (sc.run text).1, P found.1 := by
  induction hlen : text.length using Nat.strongRecOn generalizing text with
  | ind n ih =>
    by_cases hne : text = []
    · subst hne
      simp [run_nil]
    · cases hm : sc.munchAll text with
      | token k len =>
        obtain ⟨hpos, hle⟩ := hp.munchAll hne hm
        rw [hp.run_token hne hm]
        intro found hfound
        rcases List.mem_append.mp hfound with hfound | hfound
        · obtain ⟨x, hx, rfl⟩ := Option.map_eq_some_iff.mp (Option.mem_toList.mp hfound)
          exact h.munchAll hm x hx
        · exact ih (text.drop len).length (by rw [List.length_drop]; omega) _ rfl found hfound
      | failed =>
        rw [run_of_failed hm]
        simp
      | ended r =>
        rw [run_of_ended hne hm]
        simp

end

end Scanner

/-
The tokens of a configuration file (`lexer.rl` of `m2sh`).

* `Config.scanner` — the machine `m2sh_lexer`; `tokens` — what it gives to the parser;
* `Place` — where a byte stands: outside, between quotes, in a comment, or behind a byte
  that belongs nowhere; `place_of_leaves`, `place_of_fails` — the machine knows it;
* **`adds_concat`** — what a last byte adds to the tokens.

Design notes: `char` is signed, and bytes from 128 on belong to no class.
-/
import Mongrel2.ConfigParser
import Mongrel2.Pattern
import Mongrel2.Scanner

namespace Mongrel2

open ByteStream HttpParser

namespace M2sh.Config

/-! ### The machine -/

/-- The states. -/
inductive Cs
  /-- 8 -/
  | start
  /-- 1 and 2, 4 and 5, 6 and 7: behind a quote, and behind a backslash there -/
  | quoted (quote : Byte) (escaped : Bool)
  /-- 3 -/
  | comment
  /-- 9 -/
  | number
  /-- 10 -/
  | upper
  /-- 11 -/
  | ident
  deriving DecidableEq, Repr

/-- `"`, `'` and the one of a pattern. -/
def isQuote (c : Byte) : Bool := c = chr '"' || c = 0x27 || c = 0x60

/-- The tokens of one byte. -/
def punctuation : List (Byte × Terminal) := [
  (chr '=', .eq), (chr '\x7b', .lbracket), (chr '\x7d', .rbracket), (chr '[', .lbrace),
  (chr ']', .rbrace), (chr '(', .lparen), (chr ')', .rparen), (chr ',', .comma),
  (chr ':', .colon)]

/-- `alpha | digit | '_'` -/
def isWord (c : Byte) : Bool := Pattern.isAlpha c || isDigit c || c = chr '_'

open Scanner.Move Scanner.Cut in
/-- The transitions. -/
def Cs.next : Cs → Byte → Scanner.Move Cs Terminal
  | .start, c =>
    if Pattern.isSpace c then emit none
    else if isQuote c then go (.quoted c false)
    else if c = chr '#' then go .comment
    else match punctuation.lookup c with
      | some k => emit (some k)
      | none =>
        if isDigit c then go .number
        else if isUpper c then mark .upper (some .ident)
        else if isWord c then go .ident
        else fail
  | .quoted quote false, c =>
    if c = quote then emit (some (if quote = 0x60 then .pattern else .qstring))
    else go (.quoted quote (c = chr '\\'))
  | .quoted quote true, _ => go (.quoted quote false)
  | .comment, c => if c = chr '\n' then emit none else go .comment
  | .number, c => if isDigit c then go .number else cut (hold .number)
  | .upper, c =>
    if Pattern.isAlpha c then mark .upper (some .cls)
    else if isWord c then go .ident
    else cut (back none)
  | .ident, c => if isWord c then go .ident else cut (hold .ident)

open Scanner.Cut in
/-- The transitions at the end of the text. -/
def Cs.eof : Cs → Option (Scanner.Cut Terminal)
  | .number => some (hold .number)
  | .upper => some (back none)
  | .ident => some (hold .ident)
  | _ => none

/-- The machine `m2sh_lexer`. -/
def scanner : Scanner Byte Cs Terminal := ⟨.start, Cs.next, Cs.eof⟩

/-- The text that `TKSTR` or `TK` gives to `Token_create`. -/
def Terminal.text (text : List Byte) : Terminal → List Byte
  | .qstring => (text.drop 1).take (text.length - 2)
  | .pattern => (text.drop 1).take (text.length - 2)
  | _ => text

/-- A token that has been found. -/
def token (found : Terminal × List Byte) : Terminal × Minor :=
  (found.1, .token (found.1.text found.2))

/-- The tokens of a text. -/
def tokens (text : List Byte) : List (Terminal × Minor) := (scanner.run text).1.map token

/-! ### Places -/

/-- Where the next byte stands. -/
inductive Place
  | outside
  | quoted (quote : Byte) (escaped : Bool)
  | comment
  | invalid
  deriving DecidableEq

/-- Bytes that make tokens outside of quotes and comments. -/
def isSignificant (c : Byte) : Bool := isWord c || (punctuation.lookup c).isSome

def Place.next : Place → Byte → Place
  | outside, c =>
    if isQuote c then quoted c false
    else if c = chr '#' then comment
    else if isSignificant c || Pattern.isSpace c then outside
    else invalid
  | quoted quote false, c => if c = quote then outside else quoted quote (c = chr '\\')
  | quoted quote true, _ => quoted quote false
  | comment, c => if c = chr '\n' then outside else comment
  | invalid, _ => invalid

/-- The place behind a text. -/
def place (text : List Byte) : Place := text.foldl Place.next .outside

/-- A byte that is part of a token that it may end. -/
def Place.tells : Place → Byte → Bool
  | outside, c => isSignificant c
  | quoted quote false, c => c = quote
  | _, _ => false

/-- The place that a state stands for. -/
def Cs.place : Cs → Place
  | .quoted quote escaped => .quoted quote escaped
  | .comment => .comment
  | .start | .number | .upper | .ident => .outside

/-! ### Steps -/

section

variable {s : Cs} {c : Byte} {text rest : List Byte} {toks : List (Terminal × List Byte)}
  {r : Scanner.Reading Cs Terminal}

/-- The end of the input, and of the file, is not in the text. -/
def Terminal.IsFound (k : Terminal) : Prop := k ≠ .eoi ∧ k ≠ .eof

instance (k : Terminal) : Decidable k.IsFound := inferInstanceAs (Decidable (_ ∧ _))

/-- What a transition can be, and where it leads to. -/
def Cs.Allows (s : Cs) (c : Byte) : Scanner.Move Cs Terminal → Prop
  | .go s' => s' ≠ .start ∧ s' ≠ .upper ∧ s'.place = s.place.next c
  | .mark s' k => s' = .upper ∧ s.place.next c = .outside ∧ (k = some .ident ∨ k = some .cls)
  | .emit k => s.place.next c = .outside ∧ ∀ x, k = some x → x.IsFound
  | .cut (.hold k) => s = .number ∧ k = .number ∨ s = .ident ∧ k = .ident
  | .cut (.back k) => s = .upper ∧ k = none
  | .fail => s = .start ∧ s.place.next c = .invalid

theorem byte_cases {p : Byte → Prop} (h : ∀ n : Fin 256, p (UInt8.ofFin n)) (c : Byte) : p c := by
  obtain ⟨n, rfl⟩ : ∃ n : Fin 256, c = UInt8.ofFin n := ⟨c.toFin, by simp⟩
  exact h n

theorem isSpace_apart (c : Byte) : Pattern.isSpace c = true →
    isQuote c = false ∧ c ≠ chr '#' ∧ isSignificant c = false := by
  induction c using byte_cases with
  | h n =>
    revert n
    decide +kernel

theorem isQuote_apart (c : Byte) (h : isQuote c = true) : isSignificant c = false := by
  simp only [isQuote, Bool.or_eq_true, decide_eq_true_eq] at h
  rcases h with (rfl | rfl) | rfl
  · rfl
  · rfl
  · rfl

/-- The classes of bytes are apart. -/
theorem isSignificant_apart (c : Byte) (h : isSignificant c = true) :
    isQuote c = false ∧ c ≠ chr '#' ∧ Pattern.isSpace c = false := by
  refine ⟨Bool.eq_false_iff.mpr fun hquote => ?_, ?_, Bool.eq_false_iff.mpr fun hspace => ?_⟩
  · rw [isQuote_apart c hquote] at h
    exact absurd h (by simp)
  · rintro rfl
    exact absurd h (by decide)
  · rw [(isSpace_apart c hspace).2.2] at h
    exact absurd h (by simp)

/-- Outside, such a byte stays there. -/
theorem next_outside (h : isSignificant c = true) : Place.outside.next c = .outside := by
  obtain ⟨hquote, hhash, -⟩ := isSignificant_apart c h
  rw [Place.next, hquote, h, if_neg hhash]
  rfl

theorem isSignificant_of_isWord (h : isWord c = true) : isSignificant c = true := by
  rw [isSignificant, h, Bool.true_or]

theorem isWord_of_isAlpha (h : Pattern.isAlpha c = true) : isWord c = true := by
  rw [isWord, h, Bool.true_or, Bool.true_or]

theorem isWord_of_isDigit (h : isDigit c = true) : isWord c = true := by
  rw [isWord, h, Bool.or_true, Bool.true_or]

theorem isWord_of_isUpper (h : isUpper c = true) : isWord c = true :=
  isWord_of_isAlpha (by rw [Pattern.isAlpha, h, Bool.or_true])

theorem punctuation_found {k : Terminal} (h : punctuation.lookup c = some k) : k.IsFound := by
  have hall : ∀ e ∈ punctuation, e.2.IsFound := by decide
  obtain ⟨l, l', hsplit, -⟩ := List.lookup_eq_some_iff.mp h
  exact hall (c, k) (hsplit ▸ List.mem_append_right _ List.mem_cons_self)

/-- What the machine does with the first byte of a token. -/
inductive Starts (c : Byte) : Scanner.Move Cs Terminal → Prop
  | space (h : Pattern.isSpace c = true) : Starts c (.emit none)
  | quote (h : isQuote c = true) : Starts c (.go (.quoted c false))
  | hash (h : c = chr '#') : Starts c (.go .comment)
  | single (h : isSignificant c = true) (k : Terminal) (hk : k.IsFound) : Starts c (.emit (some k))
  | digit (h : isSignificant c = true) : Starts c (.go .number)
  | upper (h : isSignificant c = true) : Starts c (.mark .upper (some .ident))
  | ident (h : isSignificant c = true) : Starts c (.go .ident)
  | other (hquote : isQuote c = false) (hhash : c ≠ chr '#') (hspace : Pattern.isSpace c = false)
    (h : isSignificant c = false) : Starts c .fail

theorem starts (c : Byte) : Starts c (Cs.start.next c) := by
  rw [Cs.next]
  by_cases hspace : Pattern.isSpace c = true
  · rw [if_pos hspace]
    exact .space hspace
  rw [if_neg hspace]
  by_cases hquote : isQuote c = true
  · rw [if_pos hquote]
    exact .quote hquote
  rw [if_neg hquote]
  by_cases hhash : c = chr '#'
  · rw [if_pos hhash]
    exact .hash hhash
  rw [if_neg hhash]
  cases hpunct : punctuation.lookup c with
  | some k =>
    have hc : isSignificant c = true := by
      rw [isSignificant, hpunct, Option.isSome_some, Bool.or_true]
    exact .single hc k (punctuation_found hpunct)
  | none =>
    dsimp only
    by_cases hdigit : isDigit c = true
    · rw [if_pos hdigit]
      exact .digit (isSignificant_of_isWord (isWord_of_isDigit hdigit))
    rw [if_neg hdigit]
    by_cases hupper : isUpper c = true
    · rw [if_pos hupper]
      exact .upper (isSignificant_of_isWord (isWord_of_isUpper hupper))
    rw [if_neg hupper]
    by_cases hword : isWord c = true
    · rw [if_pos hword]
      exact .ident (isSignificant_of_isWord hword)
    rw [if_neg hword]
    refine .other (Bool.eq_false_iff.mpr hquote) hhash (Bool.eq_false_iff.mpr hspace) ?_
    rw [isSignificant, hpunct, Bool.eq_false_iff.mpr hword]
    rfl

theorem Starts.allows {m : Scanner.Move Cs Terminal} (h : Starts c m) : Cs.start.Allows c m := by
  cases h with
  | space hspace =>
    obtain ⟨hquote, hhash, -⟩ := isSpace_apart c hspace
    refine ⟨?_, fun x hx => absurd hx (by simp)⟩
    simp [Cs.place, Place.next, hquote, hhash, hspace]
  | quote hquote => exact ⟨by simp, by simp, (if_pos hquote).symm⟩
  | hash hhash =>
    rw [hhash]
    exact ⟨by simp, by simp, rfl⟩
  | single hc k hk =>
    refine ⟨next_outside hc, fun x hx => ?_⟩
    injection hx with hx
    exact hx ▸ hk
  | digit hc => exact ⟨by simp, by simp, (next_outside hc).symm⟩
  | upper hc => exact ⟨rfl, next_outside hc, .inl rfl⟩
  | ident hc => exact ⟨by simp, by simp, (next_outside hc).symm⟩
  | other hquote hhash hspace hc =>
    refine ⟨rfl, ?_⟩
    simp [Cs.place, Place.next, hquote, hhash, hc, hspace]

theorem next_allows (s : Cs) (c : Byte) : s.Allows c (s.next c) := by
  cases s with
  | start => exact (starts c).allows
  | quoted quote escaped =>
    cases escaped
    · rw [Cs.next]
      by_cases hc : c = quote
      · rw [if_pos hc]
        refine ⟨if_pos hc, fun x hx => ?_⟩
        injection hx with hx
        rw [← hx]
        by_cases hquote : quote = 0x60
        · rw [if_pos hquote]
          decide
        · rw [if_neg hquote]
          decide
      · rw [if_neg hc]
        exact ⟨by simp, by simp, (if_neg hc).symm⟩
    · exact ⟨by simp, by simp, rfl⟩
  | comment =>
    rw [Cs.next]
    by_cases hc : c = chr '\n'
    · rw [if_pos hc]
      exact ⟨if_pos hc, fun x hx => absurd hx (by simp)⟩
    · rw [if_neg hc]
      exact ⟨by simp, by simp, (if_neg hc).symm⟩
  | number =>
    rw [Cs.next]
    by_cases hdigit : isDigit c = true
    · rw [if_pos hdigit]
      have := next_outside (isSignificant_of_isWord (isWord_of_isDigit hdigit))
      exact ⟨by simp, by simp, this.symm⟩
    · rw [if_neg hdigit]
      exact .inl ⟨rfl, rfl⟩
  | upper =>
    rw [Cs.next]
    by_cases halpha : Pattern.isAlpha c = true
    · rw [if_pos halpha]
      exact ⟨rfl, next_outside (isSignificant_of_isWord (isWord_of_isAlpha halpha)), .inr rfl⟩
    · rw [if_neg halpha]
      by_cases hword : isWord c = true
      · rw [if_pos hword]
        have := next_outside (isSignificant_of_isWord hword)
        exact ⟨by simp, by simp, this.symm⟩
      · rw [if_neg hword]
        exact ⟨rfl, rfl⟩
  | ident =>
    rw [Cs.next]
    by_cases hword : isWord c = true
    · rw [if_pos hword]
      have := next_outside (isSignificant_of_isWord hword)
      exact ⟨by simp, by simp, this.symm⟩
    · rw [if_neg hword]
      exact .inr ⟨rfl, rfl⟩

/-- What a move from a state is, it is allowed to be. -/
theorem allows_of_next {m : Scanner.Move Cs Terminal} (h : scanner.next s c = m) :
    s.Allows c m := h ▸ next_allows s c

theorem scanner_productive : scanner.Productive (· = .upper) where
  start := by simp [scanner]
  start_cut := by
    intro c cut h
    have hallows := allows_of_next h
    cases cut <;> simp [Cs.Allows, scanner] at hallows
  go := by
    intro s c s' h hs'
    exact absurd hs' (allows_of_next h).2.1
  back := by
    intro s c k h
    exact (allows_of_next h).1
  eof := by
    intro s k h
    cases s <;> simp [scanner, Cs.eof] at h ⊢

theorem scanner_kinds : scanner.Kinds Terminal.IsFound where
  next := by
    intro s c k h
    have hallows := next_allows s c
    have h : (s.next c).kind = some k := h
    generalize s.next c = m at h hallows
    cases m with
    | emit k' => exact hallows.2 k h
    | mark s' k' =>
      obtain ⟨-, -, rfl | rfl⟩ := hallows
      · injection h with h
        exact h ▸ by decide
      · injection h with h
        exact h ▸ by decide
    | cut cut =>
      cases cut with
      | hold k' =>
        injection h with h
        rcases hallows with ⟨-, rfl⟩ | ⟨-, rfl⟩
        · exact h ▸ by decide
        · exact h ▸ by decide
      | back k' =>
        rw [hallows.2] at h
        exact absurd h (by simp [Scanner.Move.kind, Scanner.Cut.kind])
    | _ => exact absurd h (by simp [Scanner.Move.kind])
  eof := by
    intro s cut k h hk
    cases s with
    | number =>
      injection h with h
      rw [← h] at hk
      injection hk with hk
      exact hk ▸ by decide
    | ident =>
      injection h with h
      rw [← h] at hk
      injection hk with hk
      exact hk ▸ by decide
    | upper =>
      injection h with h
      rw [← h] at hk
      exact absurd hk (by simp [Scanner.Cut.kind])
    | _ => exact absurd h (by simp [scanner, Cs.eof])

/-! ### Readings -/

/-- What is known of a token while it is read. -/
structure Fine (r : Scanner.Reading Cs Terminal) : Prop where
  start : r.state = .start → r.read = 0
  upper : r.state = .upper → r.marked = r.read ∧ (r.kind = some .ident ∨ r.kind = some .cls)

theorem fine_first : Fine scanner.first := ⟨fun _ => rfl, by simp [scanner, Scanner.first]⟩

/-- What a token comes to: where it ends it is outside, a byte that is none is invalid, and
otherwise the place is known from the state. -/
inductive Munches (r : Scanner.Reading Cs Terminal) (text : List Byte) :
    Scanner.Munched Cs Terminal → Prop
  | token (k : Option Terminal) (len : ℕ) (hle : len ≤ text.length)
    (h : (text.take len).foldl Place.next r.state.place = .outside) :
    Munches r text (.token k (r.read + len))
  | failed (h : text.foldl Place.next r.state.place = .invalid) : Munches r text .failed
  | ended (r' : Scanner.Reading Cs Terminal) (hfine : Fine r')
    (hread : r'.read = r.read + text.length)
    (h : text.foldl Place.next r.state.place = r'.state.place) : Munches r text (.ended r')

theorem foldl_invalid (text : List Byte) : text.foldl Place.next .invalid = .invalid := by
  induction text with
  | nil => rfl
  | cons c text ih => exact ih

theorem Munches.cons {r' : Scanner.Reading Cs Terminal} {m : Scanner.Munched Cs Terminal}
    (hread : r'.read = r.read + 1) (hplace : r'.state.place = r.state.place.next c)
    (h : Munches r' text m) : Munches r (c :: text) m := by
  cases h with
  | token k len hle h =>
    rw [hread, Nat.add_assoc, Nat.add_comm 1 len]
    refine .token k (len + 1) (Nat.succ_le_succ hle) ?_
    rw [List.take_succ_cons, List.foldl_cons, ← hplace]
    exact h
  | failed h =>
    refine .failed ?_
    rw [List.foldl_cons, ← hplace]
    exact h
  | ended r'' hfine hread' h =>
    refine .ended r'' hfine ?_ ?_
    · rw [hread', hread, List.length_cons, Nat.add_assoc, Nat.add_comm 1]
    · rw [List.foldl_cons, ← hplace]
      exact h

theorem munches (hr : Fine r) : Munches r text (scanner.munch r text) := by
  induction text generalizing r with
  | nil => exact .ended r hr rfl rfl
  | cons c text ih =>
    rw [Scanner.munch]
    cases hmove : scanner.next r.state c with
    | go s' =>
      obtain ⟨hstart, hupper, hplace⟩ := allows_of_next hmove
      have hfine : Fine { r with state := s', read := r.read + 1 } :=
        ⟨fun h => absurd h hstart, fun h => absurd h hupper⟩
      exact (ih hfine).cons rfl hplace
    | mark s' k =>
      obtain ⟨rfl, hplace, hk⟩ := allows_of_next hmove
      have hfine : Fine ⟨.upper, r.read + 1, r.read + 1, k <|> r.kind⟩ := by
        refine ⟨by simp, fun _ => ⟨rfl, ?_⟩⟩
        rcases hk with rfl | rfl
        · exact .inl rfl
        · exact .inr rfl
      have hrest := ih hfine
      refine Munches.cons ?_ ?_ hrest
      · rfl
      · exact hplace.symm
    | emit k => exact .token k 1 (Nat.succ_pos _) (allows_of_next hmove).1
    | cut cut =>
      -- what is cut off has been read before
      have hcut : ∃ k, Scanner.Cut.token r cut = .token k (r.read + 0) ∧ r.state.place = .outside := by
        cases cut with
        | hold k =>
          rcases allows_of_next hmove with ⟨hs, -⟩ | ⟨hs, -⟩
          · exact ⟨_, rfl, by rw [hs]; rfl⟩
          · exact ⟨_, rfl, by rw [hs]; rfl⟩
        | back k =>
          obtain ⟨hs, -⟩ := allows_of_next hmove
          refine ⟨k <|> r.kind, ?_, by rw [hs]; rfl⟩
          rw [Nat.add_zero, ← (hr.upper hs).1]
          rfl
      obtain ⟨k, htoken, hplace⟩ := hcut
      dsimp only
      rw [htoken]
      exact .token k 0 (Nat.zero_le _) hplace
    | fail =>
      refine .failed ?_
      rw [List.foldl_cons, (allows_of_next hmove).2, foldl_invalid]

theorem fine_of_ended (h : scanner.munch scanner.first text = .ended r) :
    Fine r ∧ r.read = text.length ∧ place text = r.state.place := by
  have hm := @munches text _ fine_first
  rw [h] at hm
  cases hm with
  | ended _ hfine hread hplace => exact ⟨hfine, hread.trans (Nat.zero_add _), hplace⟩

/-- A token ends outside. -/
theorem place_drop {k : Option Terminal} {len : ℕ}
    (h : scanner.munch scanner.first text = .token k len) : place (text.drop len) = place text := by
  have hm := @munches text _ fine_first
  rw [h] at hm
  generalize hmunched : Scanner.Munched.token k len = m at hm
  cases hm with
  | token k' len' hle hplace =>
    injection hmunched with _ hlen
    rw [hlen, show scanner.first.read = 0 from rfl, Nat.zero_add, place, place]
    conv_rhs => rw [← List.take_append_drop len' text, List.foldl_append]
    rw [show Place.outside = scanner.first.state.place from rfl, hplace]
    rfl
  | failed => exact absurd hmunched (by simp)
  | ended => exact absurd hmunched (by simp)

/-- **The place behind a text** that leaves something is known from the state. -/
theorem place_of_leaves (hl : scanner.Leaves text toks rest)
    (h : scanner.munch scanner.first rest = .ended r) : place text = r.state.place := by
  induction hl with
  | here => exact (fine_of_ended h).2.2
  | token hm _ ih => rw [← place_drop hm, ih h]

/-- **Behind a byte that belongs nowhere** everything does. -/
theorem place_of_fails (hf : scanner.Fails text toks) : place text = .invalid := by
  induction hf with
  | @here text h =>
    have hm := @munches text _ fine_first
    rw [h] at hm
    cases hm with
    | failed h => exact h
  | token h _ ih => rw [← place_drop h, ih]

/-! ### A last byte -/

/-- The token that is cut off where the text ends. -/
def pending (r : Scanner.Reading Cs Terminal) (rest : List Byte) : List (Terminal × List Byte) :=
  match r.state with
  | .number => [(.number, rest)]
  | .upper => (r.kind.map (·, rest)).toList
  | .ident => [(.ident, rest)]
  | _ => []

/-- What is left is scanned as one token, or as none. -/
theorem run_of_ended (h : scanner.munch scanner.first rest = .ended r) :
    (scanner.run rest).1 = pending r rest := by
  obtain ⟨hfine, hread, -⟩ := fine_of_ended h
  by_cases hne : rest = []
  · subst hne
    injection h with h
    rw [← h]
    rfl
  · have hall : scanner.munchAll rest = scanner.atEof r := by rw [Scanner.munchAll, h]
    have htoken : ∀ k, scanner.atEof r = .token (some k) rest.length →
        (scanner.run rest).1 = [(k, rest)] := by
      intro k hk
      rw [scanner_productive.run_token hne (hall.trans hk), List.take_length, List.drop_length]
      rfl
    have hended : scanner.atEof r = .ended r → (scanner.run rest).1 = [] := by
      intro hr
      rw [Scanner.run_of_ended hne (hall.trans hr)]
    rw [pending]
    cases hs : r.state with
    | number =>
      refine htoken _ ?_
      rw [Scanner.atEof, hs, ← hread]
      rfl
    | ident =>
      refine htoken _ ?_
      rw [Scanner.atEof, hs, ← hread]
      rfl
    | upper =>
      obtain ⟨hmarked, hkind⟩ := hfine.upper hs
      have heof : scanner.atEof r = .token r.kind rest.length := by
        rw [Scanner.atEof, hs, ← hread, ← hmarked]
        rfl
      rcases hkind with hkind | hkind
      · rw [hkind] at heof ⊢
        exact htoken _ heof
      · rw [hkind] at heof ⊢
        exact htoken _ heof
    | _ => exact hended (by rw [Scanner.atEof, hs]; rfl)

/-- The tokens of what is left and of one more byte, by what the machine does with it. -/
def grown (r : Scanner.Reading Cs Terminal) (rest : List Byte) (c : Byte) :
    Scanner.Move Cs Terminal → List (Terminal × List Byte)
  | .go s => pending { r with state := s, read := r.read + 1 } (rest ++ [c])
  | .mark s k => pending ⟨s, r.read + 1, r.read + 1, k <|> r.kind⟩ (rest ++ [c])
  | .emit k => (k.map (·, rest ++ [c])).toList
  | .cut _ => pending r rest ++ (scanner.run [c]).1
  | .fail => []

theorem run_append_byte (h : scanner.munch scanner.first rest = .ended r) (c : Byte) :
    (scanner.run (rest ++ [c])).1 = grown r rest c (scanner.next r.state c) := by
  obtain ⟨hfine, hread, -⟩ := fine_of_ended h
  have hne : rest ++ [c] ≠ [] := by simp
  have hmunch : scanner.munch scanner.first (rest ++ [c]) = scanner.munch r [c] := by
    rw [Scanner.munch_append, h]
  have htoken : ∀ k len, scanner.munch r [c] = .token k len →
      scanner.run (rest ++ [c]) = Scanner.push k ((rest ++ [c]).take len)
        (scanner.run ((rest ++ [c]).drop len)) := by
    intro k len hk
    refine scanner_productive.run_token hne ?_
    rw [Scanner.munchAll, hmunch, hk]
  have hcut : ∀ k, scanner.munch r [c] = .token (some k) r.read →
      (scanner.run (rest ++ [c])).1 = [(k, rest)] ++ (scanner.run [c]).1 := by
    intro k hk
    rw [htoken _ _ hk, hread, List.take_left, List.drop_left]
    rfl
  rw [Scanner.munch] at hmunch htoken hcut
  cases hmove : scanner.next r.state c with
  | go s =>
    rw [hmove] at hmunch
    exact run_of_ended hmunch
  | mark s k =>
    rw [hmove] at hmunch
    exact run_of_ended hmunch
  | emit k =>
    rw [hmove] at htoken
    have hlen : (rest ++ [c]).length = r.read + 1 := by rw [List.length_append, hread]; rfl
    rw [htoken k _ rfl, ← hlen, List.take_length, List.drop_length]
    exact List.append_nil _
  | cut cut =>
    rw [hmove] at hcut
    cases cut with
    | hold k =>
      rw [hcut k rfl, grown, pending]
      rcases allows_of_next hmove with ⟨hs, rfl⟩ | ⟨hs, rfl⟩
      · rw [hs]
      · rw [hs]
    | back k =>
      obtain ⟨hs, rfl⟩ := allows_of_next hmove
      obtain ⟨hmarked, hkind⟩ := hfine.upper hs
      rw [grown, pending, hs]
      rcases hkind with hkind | hkind
      · rw [hkind]
        refine hcut _ ?_
        rw [← hmarked, ← hkind]
        rfl
      · rw [hkind]
        refine hcut _ ?_
        rw [← hmarked, ← hkind]
        rfl
  | fail =>
    refine congrArg Prod.fst (Scanner.run_of_failed ?_)
    rw [Scanner.munchAll, hmunch, hmove]

/-- The tokens that go on with a letter or a digit. -/
def words : List Terminal := [.number, .ident, .cls]

/-- What a byte makes of the tokens in front of it, if it tells and otherwise: it is a new
token, or the last one gets longer. -/
inductive Adds (c : Byte) : Bool → List (Terminal × List Byte) → List (Terminal × List Byte) → Prop
  | same (l : List (Terminal × List Byte)) : Adds c false l l
  | new (l : List (Terminal × List Byte)) (found : Terminal × List Byte) :
    Adds c true l (l ++ [found])
  | longer (l : List (Terminal × List Byte)) {k k' : Terminal} (hk : k ∈ words) (hk' : k' ∈ words)
    (x : List Byte) : Adds c true (l ++ [(k, x)]) (l ++ [(k', x ++ [c])])

theorem Adds.append {b : Bool} {l l' : List (Terminal × List Byte)} (h : Adds c b l l')
    (l₀ : List (Terminal × List Byte)) : Adds c b (l₀ ++ l) (l₀ ++ l') := by
  cases h with
  | same => exact .same _
  | new =>
    rw [← List.append_assoc]
    exact .new _ _
  | longer l hk hk' x =>
    rw [← List.append_assoc, ← List.append_assoc]
    exact .longer _ hk hk' x

/-- A byte by itself. -/
theorem adds_nil (c : Byte) : Adds c (isSignificant c) [] (scanner.run [c]).1 := by
  have hrun := @run_append_byte [] _ rfl c
  rw [List.nil_append] at hrun
  rw [hrun]
  have hstarts : Starts c (scanner.next scanner.first.state c) := starts c
  generalize scanner.next scanner.first.state c = m at hstarts
  cases hstarts with
  | space hc =>
    rw [(isSpace_apart c hc).2.2]
    exact .same []
  | quote hc =>
    rw [isQuote_apart c hc]
    exact .same []
  | hash hc =>
    rw [hc]
    exact .same []
  | single hc k =>
    rw [hc]
    exact .new [] (k, [c])
  | digit hc =>
    rw [hc]
    exact .new [] (.number, [c])
  | upper hc =>
    rw [hc]
    exact .new [] (.ident, [c])
  | ident hc =>
    rw [hc]
    exact .new [] (.ident, [c])
  | other _ _ _ hc =>
    rw [hc]
    exact .same []

/-- A byte behind what is left. -/
theorem adds_pending (h : scanner.munch scanner.first rest = .ended r) (c : Byte) :
    Adds c (r.state.place.tells c) (pending r rest) (scanner.run (rest ++ [c])).1 := by
  obtain ⟨hfine, hread, -⟩ := fine_of_ended h
  rw [run_append_byte h c]
  have hnext : scanner.next r.state c = r.state.next c := rfl
  have hword : isWord c = true → Place.outside.tells c = true := isSignificant_of_isWord
  rw [hnext, pending]
  cases hs : r.state with
  | start =>
    have hnil : rest = [] := List.length_eq_zero_iff.mp (hread.symm.trans (hfine.start hs))
    subst hnil
    have hgrown := run_append_byte h c
    rw [hnext, hs] at hgrown
    rw [← hgrown]
    exact adds_nil c
  | quoted quote escaped =>
    cases escaped with
    | true => exact .same []
    | false =>
      rw [Cs.next, Cs.place, Place.tells]
      by_cases hc : c = quote
      · rw [if_pos hc, decide_eq_true hc]
        exact .new [] _
      · rw [if_neg hc, decide_eq_false hc]
        exact .same []
  | comment =>
    rw [Cs.next]
    by_cases hc : c = chr '\n'
    · rw [if_pos hc]
      exact .same []
    · rw [if_neg hc]
      exact .same []
  | number =>
    rw [Cs.next, show Cs.number.place = .outside from rfl]
    by_cases hdigit : isDigit c = true
    · rw [if_pos hdigit, hword (isWord_of_isDigit hdigit)]
      exact .longer [] (by decide) (by decide) rest
    · rw [if_neg hdigit, grown, pending, hs]
      exact (adds_nil c).append [(.number, rest)]
  | ident =>
    rw [Cs.next, show Cs.ident.place = .outside from rfl]
    by_cases hc : isWord c = true
    · rw [if_pos hc, hword hc]
      exact .longer [] (by decide) (by decide) rest
    · rw [if_neg hc, grown, pending, hs]
      exact (adds_nil c).append [(.ident, rest)]
  | upper =>
    obtain ⟨-, hkind⟩ := hfine.upper hs
    obtain ⟨k, hk, hkind⟩ : ∃ k ∈ words, r.kind = some k := by
      rcases hkind with hkind | hkind
      · exact ⟨_, by decide, hkind⟩
      · exact ⟨_, by decide, hkind⟩
    rw [Cs.next, show Cs.upper.place = .outside from rfl, hkind]
    by_cases halpha : Pattern.isAlpha c = true
    · rw [if_pos halpha, hword (isWord_of_isAlpha halpha)]
      exact .longer [] hk (by decide) rest
    · rw [if_neg halpha]
      by_cases hc : isWord c = true
      · rw [if_pos hc, hword hc]
        exact .longer [] hk (by decide) rest
      · rw [if_neg hc, grown, pending, hs, hkind]
        exact (adds_nil c).append [(k, rest)]

/-- **A last byte** adds to the tokens, or makes the last one longer, exactly if it tells. -/
theorem adds_concat (text : List Byte) (c : Byte) :
    Adds c ((place text).tells c) (scanner.run text).1 (scanner.run (text ++ [c])).1 := by
  rcases scanner_productive.leaves_or_fails text with ⟨toks, rest, hl⟩ | ⟨toks, hf⟩
  · obtain ⟨r, hended⟩ := hl.ended
    have hbefore := scanner_productive.run_of_leaves hl []
    rw [List.append_nil, List.append_nil] at hbefore
    rw [place_of_leaves hl hended, hbefore, scanner_productive.run_of_leaves hl [c],
      run_of_ended hended]
    exact (adds_pending hended c).append toks
  · have hbefore := scanner_productive.run_of_fails hf []
    rw [List.append_nil] at hbefore
    rw [place_of_fails hf, hbefore, scanner_productive.run_of_fails hf [c]]
    exact .same toks

end

end M2sh.Config

end Mongrel2

/-
The tokens of a command line (`cli.rl` of `m2sh`).

* `Cli.scanner` — the machine `params`;
* `scanner_productive`, `scanner_total` — no token is empty, and every command line is
  scanned to its end;
* `Cli.tokens` — the tokens as `Token_create` makes them.

Design notes: `char` is signed, and bytes from 128 on belong to no class.  The kind of a
token says what is cut off of its text.
-/
import Mongrel2.Pattern
import Mongrel2.Scanner

namespace Mongrel2

open ByteStream HttpParser

namespace M2sh.Cli

/-- The tokens, as far as a command line has them. -/
inductive TokenType
  | qstring | number | ident | blob | option
  deriving DecidableEq, Repr

/-- Which of its patterns the machine has found; an option with its dashes. -/
inductive Kind
  | option (dashes : ℕ)
  | qstring | number | ident | blob
  deriving DecidableEq, Repr

inductive Cs
  /-- 4 -/
  | start
  /-- 5 -/
  | blob
  /-- 6 and 7, 8 and 9: in quotes, and behind a backslash there; 0 and 1, 2 and 3: the same
  behind a space -/
  | quoted (quote : Byte) (spaced escaped : Bool)
  /-- 10 and 11 -/
  | dashes (n : ℕ)
  /-- 13 and 12 -/
  | option (dashes : ℕ)
  /-- 14 -/
  | ident
  /-- 15 -/
  | number
  deriving DecidableEq, Repr

/-- `alpha | '_' | '.'` -/
def isIdentFirst (c : Byte) : Bool := Pattern.isAlpha c || c = chr '_' || c = chr '.'

/-- `alpha | digit | '_' | '.'` -/
def isIdent (c : Byte) : Bool := isIdentFirst c || isDigit c

open Scanner.Move Scanner.Cut in
/-- The transitions. -/
def Cs.next : Cs → Byte → Scanner.Move Cs Kind
  | .start, c =>
    if Pattern.isSpace c then emit none
    else if c = chr '"' || c = 0x27 then mark (.quoted c false false) none
    else if c = chr '-' then go (.dashes 1)
    else if isIdentFirst c then go .ident
    else if isDigit c then go .number
    else mark .blob (some .blob)
  | .blob, c => if Pattern.isSpace c then cut (back none) else mark .blob (some .blob)
  | .quoted quote false false, c =>
    if Pattern.isSpace c then go (.quoted quote true false)
    else if c = quote then mark .blob (some .qstring)
    else if c = chr '\\' then mark (.quoted quote false true) none
    else mark (.quoted quote false false) none
  | .quoted quote false true, c =>
    if Pattern.isSpace c then go (.quoted quote true false)
    else mark (.quoted quote false false) none
  | .quoted quote true false, c =>
    if c = quote then emit (some .qstring)
    else if c = chr '\\' then go (.quoted quote true true)
    else go (.quoted quote true false)
  | .quoted quote true true, _ => go (.quoted quote true false)
  | .dashes n, c =>
    if Pattern.isSpace c then cut (hold .blob)
    else if c = chr '-' && n = 1 then go (.dashes 2)
    else if isIdentFirst c then go (.option n)
    else mark .blob (some .blob)
  | .option n, c =>
    if Pattern.isSpace c then cut (hold (.option n))
    else if isIdent c then go (.option n)
    else mark .blob (some .blob)
  | .ident, c =>
    if Pattern.isSpace c then cut (hold .ident)
    else if isIdent c then go .ident
    else mark .blob (some .blob)
  | .number, c =>
    if Pattern.isSpace c then cut (hold .number)
    else if isDigit c then go .number
    else mark .blob (some .blob)

open Scanner.Cut in
/-- The transitions at the end of the string. -/
def Cs.eof : Cs → Option (Scanner.Cut Kind)
  | .start => none
  | .blob => some (back none)
  | .quoted _ false _ => some (hold .blob)
  | .quoted _ true _ => some (back (some .blob))
  | .dashes _ => some (hold .blob)
  | .option n => some (hold (.option n))
  | .ident => some (hold .ident)
  | .number => some (hold .number)

/-- The machine `params`. -/
def scanner : Scanner Byte Cs Kind := ⟨.start, Cs.next, Cs.eof⟩

/-- The states behind a mark. -/
def Cs.IsMarked : Cs → Prop
  | .blob => True
  | .quoted _ _ _ => True
  | _ => False

/-- What a transition from a state can be. -/
def Cs.Allows (s : Cs) : Scanner.Move Cs Kind → Prop
  | .go s' => s' ≠ .start ∧ (s'.IsMarked → s.IsMarked)
  | .mark s' _ => s' ≠ .start
  | .emit _ => True
  | .cut (.hold _) => s ≠ .start
  | .cut (.back _) => s.IsMarked
  | .fail => False

theorem next_allows (s : Cs) (c : Byte) : s.Allows (s.next c) := by
  cases s with
  | quoted quote spaced escaped =>
    cases spaced <;> cases escaped <;> simp only [Cs.next]
    · split_ifs <;> simp [Cs.Allows, Cs.IsMarked]
    · split_ifs <;> simp [Cs.Allows, Cs.IsMarked]
    · split_ifs <;> simp [Cs.Allows, Cs.IsMarked]
    · simp [Cs.Allows, Cs.IsMarked]
  | _ =>
    simp only [Cs.next]
    split_ifs <;> simp [Cs.Allows, Cs.IsMarked]

theorem scanner_productive : scanner.Productive Cs.IsMarked where
  start := fun h => h
  start_cut := by
    intro c cut h
    have hallows := next_allows .start c
    rw [show Cs.next .start c = .cut cut from h] at hallows
    cases cut with
    | hold k => exact hallows rfl
    | back k => exact hallows
  go := by
    intro s c s' h
    have hallows := next_allows s c
    rw [show Cs.next s c = .go s' from h] at hallows
    exact hallows.2
  back := by
    intro s c k h
    have hallows := next_allows s c
    rw [show Cs.next s c = .cut (.back k) from h] at hallows
    exact hallows
  eof := by
    intro s k h
    have h : Cs.eof s = some (.back k) := h
    cases s with
    | quoted quote spaced escaped => trivial
    | blob => trivial
    | _ => simp [Cs.eof] at h

theorem scanner_total : scanner.Total where
  next := by
    intro s c h
    have hallows := next_allows s c
    rw [show Cs.next s c = .fail from h] at hallows
    exact hallows
  go := by
    intro s c s' h
    have hallows := next_allows s c
    rw [show Cs.next s c = .go s' from h] at hallows
    exact hallows.1
  mark := by
    intro s c s' k h
    have hallows := next_allows s c
    rw [show Cs.next s c = .mark s' k from h] at hallows
    exact hallows
  eof := by
    intro s hs h
    have h : Cs.eof s = none := h
    cases s with
    | start => exact hs rfl
    | quoted quote spaced escaped => cases spaced <;> simp [Cs.eof] at h
    | _ => simp [Cs.eof] at h

/-- **Every command line is scanned to its end.** -/
theorem run_scanner (args : List Byte) : (scanner.run args).2 = .final :=
  scanner_productive.run_final scanner_total args

/-- The type and the text that `TKOPT`, `TKSTR` or `TK` gives to `Token_create`. -/
def Kind.token (text : List Byte) : Kind → TokenType × List Byte
  | .option dashes => (.option, text.drop dashes)
  | .qstring => (.qstring, (text.drop 1).take (text.length - 2))
  | .number => (.number, text)
  | .ident => (.ident, text)
  | .blob => (.blob, text)

/-- The tokens of a command line. -/
def tokens (args : List Byte) : List (TokenType × List Byte) :=
  (scanner.run args).1.map fun found => found.1.token found.2

-- A quote that is not closed is a part of a word.
example : tokens (bytes "m2sh stop -db 'a b' \"c d --now 12 x-y") =
    [(.ident, bytes "m2sh"), (.ident, bytes "stop"), (.option, bytes "db"), (.qstring, bytes "a b"),
      (.blob, bytes "\"c"), (.ident, bytes "d"), (.option, bytes "now"), (.number, bytes "12"),
      (.blob, bytes "x-y")] := by decide

end M2sh.Cli

end Mongrel2

/-
Reading an escaped header value back (`request.c`).

* `unescape` — the body of a JSON string, read with no other escapes than the two;
* `BareQuote` — a quote that no backslash stands for;
* `unescape_eq_some_iff` — what is read back is exactly what was escaped;
* **`escape_invertible`** — the two replacements are one pass, leave no bare quote and
  can be read back.

Design notes: the single pass is `Json.quote`.  A zero is neither of the two bytes, so
nothing here needs the value to be free of zeros; `B` needs it, as `%s` stops at one.
-/
import Mongrel2.HeadersJson

namespace Mongrel2

open ByteStream HttpParser

/-! ### Reading back -/

/-- The body of a JSON string; `none` at a quote that is not escaped, and at a backslash
behind which neither of the two bytes stands. -/
def unescape : List Byte → Option (List Byte)
  | [] => some []
  | c :: body =>
    if c = chr '"' then none
    else if c = chr '\\' then
      match body with
      | d :: body => if d = chr '"' ∨ d = chr '\\' then (unescape body).map (d :: ·) else none
      | [] => none
    else (unescape body).map (c :: ·)

/-- The backslashes that a text ends with. -/
def slashes (text : List Byte) : ℕ := (text.reverse.takeWhile (· = chr '\\')).length

/-- A quote behind an even number of backslashes, which stand for half as many. -/
def BareQuote (body : List Byte) : Prop :=
  ∃ before behind, body = before ++ chr '"' :: behind ∧ Even (slashes before)

section

variable {v body : List Byte} {c d : Byte}

theorem unescape_plain (hquote : c ≠ chr '"') (hslash : c ≠ chr '\\') (body : List Byte) :
    unescape (c :: body) = (unescape body).map (c :: ·) := by
  rw [unescape.eq_def]
  dsimp only
  rw [if_neg hquote, if_neg hslash]

theorem unescape_escaped (hd : d = chr '"' ∨ d = chr '\\') (body : List Byte) :
    unescape (chr '\\' :: d :: body) = (unescape body).map (d :: ·) := by
  have hslash : chr '\\' ≠ chr '"' := by decide
  rw [unescape.eq_def]
  dsimp only
  rw [if_neg hslash, if_pos rfl, if_pos hd]

theorem unescape_quote (v : List Byte) : unescape (Json.quote v) = some v := by
  induction v with
  | nil => rfl
  | cons c v ih =>
    rw [Json.quote_cons]
    by_cases hc : c = 0x22 ∨ c = 0x5C
    · have happ : [0x5C, c] ++ Json.quote v = chr '\\' :: c :: Json.quote v := rfl
      rw [if_pos hc, happ, unescape_escaped hc, ih]
      rfl
    · obtain ⟨hquote, hslash⟩ := not_or.mp hc
      have happ : [c] ++ Json.quote v = c :: Json.quote v := rfl
      rw [if_neg hc, happ, unescape_plain hquote hslash, ih]
      rfl

theorem quote_of_unescape (h : unescape body = some v) : body = Json.quote v := by
  fun_induction unescape body generalizing v with
  | case1 =>
    obtain rfl := Option.some.inj h
    rfl
  | case2 => exact absurd h (by simp)
  | case3 d body hd hne ih =>
    obtain ⟨w, hw, rfl⟩ := Option.map_eq_some_iff.mp h
    have hd' : d = 0x22 ∨ d = 0x5C := hd
    rw [ih hw, Json.quote_cons, if_pos hd']
    rfl
  | case4 => exact absurd h (by simp)
  | case5 => exact absurd h (by simp)
  | case6 c body hquote hslash ih =>
    obtain ⟨w, hw, rfl⟩ := Option.map_eq_some_iff.mp h
    have hc : ¬(c = 0x22 ∨ c = 0x5C) := not_or.mpr ⟨hquote, hslash⟩
    rw [ih hw, Json.quote_cons, if_neg hc]
    rfl

/-- **What is read back** is what was escaped, and nothing else is read. -/
theorem unescape_eq_some_iff : unescape body = some v ↔ body = escape v := by
  rw [escape_eq_quote]
  constructor
  · exact quote_of_unescape
  · rintro rfl
    exact unescape_quote v

/-! ### Bare quotes -/

theorem slashes_append (a b : List Byte) :
    slashes (a ++ b) = if slashes b = b.length then b.length + slashes a else slashes b := by
  rw [slashes, List.reverse_append, List.takeWhile_append]
  by_cases hall : slashes b = b.length
  · have hall' : (b.reverse.takeWhile (· = chr '\\')).length = b.reverse.length := by
      rw [List.length_reverse]
      exact hall
    rw [if_pos hall, if_pos hall', List.length_append, List.length_reverse, slashes]
  · have hall' : (b.reverse.takeWhile (· = chr '\\')).length ≠ b.reverse.length := by
      rw [List.length_reverse]
      exact hall
    rw [if_neg hall, if_neg hall', slashes]

/-- A text that ends with no backslash can be cut off in front. -/
theorem slashes_append_of_zero {a : List Byte} (ha : slashes a = 0) (b : List Byte) :
    slashes (a ++ b) = slashes b := by
  rw [slashes_append, ha]
  split_ifs with hall
  · exact hall.symm
  · rfl

/-- So can two backslashes, as far as it matters. -/
theorem even_slashes_append (b : List Byte) :
    Even (slashes ([chr '\\', chr '\\'] ++ b)) ↔ Even (slashes b) := by
  rw [slashes_append]
  split_ifs with hall
  · have htwo : slashes [chr '\\', chr '\\'] = 2 := rfl
    rw [htwo, hall, Nat.even_add]
    simp
  · rfl

theorem not_bareQuote_plain (hquote : c ≠ chr '"') (hslash : c ≠ chr '\\')
    (h : ¬BareQuote body) : ¬BareQuote (c :: body) := by
  rintro ⟨before, behind, heq, heven⟩
  rcases before with _ | ⟨b, before⟩
  · exact hquote (List.cons.inj heq).1
  · obtain ⟨rfl, hbody⟩ := List.cons.inj heq
    have hzero : slashes [c] = 0 := by simp [slashes, hslash]
    have hcut : slashes (c :: before) = slashes before := slashes_append_of_zero hzero before
    rw [hcut] at heven
    exact h ⟨before, behind, hbody, heven⟩

theorem not_bareQuote_escaped (hd : d = chr '"' ∨ d = chr '\\') (h : ¬BareQuote body) :
    ¬BareQuote (chr '\\' :: d :: body) := by
  rintro ⟨before, behind, heq, heven⟩
  rcases before with _ | ⟨b, _ | ⟨b', before⟩⟩
  · exact absurd (List.cons.inj heq).1 (by decide)
  · -- the quote is the one that is escaped
    obtain ⟨rfl, -⟩ := List.cons.inj heq
    exact absurd heven (by decide)
  · obtain ⟨rfl, hrest⟩ := List.cons.inj heq
    obtain ⟨rfl, hbody⟩ := List.cons.inj hrest
    refine h ⟨before, behind, hbody, ?_⟩
    rcases hd with rfl | rfl
    · have hzero : slashes [chr '\\', chr '"'] = 0 := rfl
      have hcut : slashes (chr '\\' :: chr '"' :: before) = slashes before :=
        slashes_append_of_zero hzero before
      rw [hcut] at heven
      exact heven
    · exact (even_slashes_append before).mp heven

theorem not_bareQuote_nil : ¬BareQuote [] := by
  rintro ⟨before, behind, heq, -⟩
  exact absurd heq (by simp)

theorem not_bareQuote_quote (v : List Byte) : ¬BareQuote (Json.quote v) := by
  induction v with
  | nil => exact not_bareQuote_nil
  | cons c v ih =>
    rw [Json.quote_cons]
    by_cases hc : c = 0x22 ∨ c = 0x5C
    · rw [if_pos hc]
      exact not_bareQuote_escaped hc ih
    · rw [if_neg hc]
      obtain ⟨hquote, hslash⟩ := not_or.mp hc
      exact not_bareQuote_plain hquote hslash ih

end

/-- **The escaping of header values is invertible**: one replacement after the other is one
pass over the value, no quote in it ends the string, and the value is read back. -/
theorem escape_invertible :
    (∀ v : List Byte, escape v = Json.quote v ∧ ¬BareQuote (escape v) ∧
      unescape (escape v) = some v) ∧ Function.Injective escape := by
  have hread : ∀ v : List Byte, unescape (escape v) = some v := fun v =>
    unescape_eq_some_iff.mpr rfl
  constructor
  · intro v
    refine ⟨escape_eq_quote v, ?_, hread v⟩
    rw [escape_eq_quote]
    exact not_bareQuote_quote v
  · intro v w heq
    have hw := hread w
    rw [← heq, hread v] at hw
    exact Option.some.inj hw

-- With the replacements in the other order the quote would be bare.
example : BareQuote
    (findReplace (chr '\\') (bytes "\\\\") (findReplace (chr '"') (bytes "\\\"") [chr '"'])) :=
  ⟨[chr '\\', chr '\\'], [], by decide, by decide⟩

end Mongrel2

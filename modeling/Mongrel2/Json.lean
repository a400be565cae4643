/-
JSON objects whose values are strings, as bytes.

* `Utf8.Valid` — well-formed UTF-8;
* `Json.chars` — the rest of a string behind its opening quote, with the bytes it
  denotes;
* `Json.object` — a text that is an object with string values, as the list of its
  members;
* `Json.object_writeObject_iff` — an object that is written member by member from texts is
  read as given values exactly if each text denotes its value.

Design notes: the readers take fuel, and the length of the text is enough.  A value that
is no string is not read, and neither is an escaped surrogate without its pair, which
denotes no bytes.
-/
import Mathlib.Data.Bool.AllAny
import Mathlib.Data.List.Basic

/-! ### UTF-8 -/

namespace Utf8

/-- The range of a byte that goes on with a character. -/
def tail : UInt8 × UInt8 := (0x80, 0xBF)

/-- The ranges of the bytes that have to follow the first byte of a character. -/
def lead (b : UInt8) : Option (List (UInt8 × UInt8)) :=
  if b < 0x80 then some []
  else if 0xC2 ≤ b ∧ b ≤ 0xDF then some [tail]
  else if b = 0xE0 then some [(0xA0, 0xBF), tail]
  else if b = 0xED then some [(0x80, 0x9F), tail]
  else if 0xE1 ≤ b ∧ b ≤ 0xEF then some [tail, tail]
  else if b = 0xF0 then some [(0x90, 0xBF), tail, tail]
  else if 0xF1 ≤ b ∧ b ≤ 0xF3 then some [tail, tail, tail]
  else if b = 0xF4 then some [(0x80, 0x8F), tail, tail]
  else none

/-- One byte, where the ranges are those still to come in the character. -/
def step : List (UInt8 × UInt8) → UInt8 → Option (List (UInt8 × UInt8))
  | [], b => lead b
  | (lo, hi) :: rest, b => if lo ≤ b ∧ b ≤ hi then some rest else none

def run (pending : List (UInt8 × UInt8)) (xs : List UInt8) : Option (List (UInt8 × UInt8)) :=
  xs.foldlM step pending

/-- Well-formed UTF-8. -/
def Valid (xs : List UInt8) : Prop := run [] xs = some []

instance : DecidablePred Valid := fun xs => inferInstanceAs (Decidable (run [] xs = some []))

/-- No byte of ASCII goes on with a character. -/
def Pending (pending : List (UInt8 × UInt8)) : Prop := ∀ r ∈ pending, 0x80 ≤ r.1

theorem pending_nil : Pending [] := fun _ h => absurd h List.not_mem_nil

theorem pending_lead {b : UInt8} {pending : List (UInt8 × UInt8)} (h : lead b = some pending) :
    Pending pending := by
  unfold lead at h
  split_ifs at h <;> obtain rfl := Option.some.inj h <;>
    exact List.all_iff_forall_prop.mp (by decide)

theorem Pending.step {pending pending' : List (UInt8 × UInt8)} {b : UInt8} (hp : Pending pending)
    (h : step pending b = some pending') : Pending pending' := by
  cases pending with
  | nil => exact pending_lead h
  | cons r rest =>
    obtain ⟨-, h⟩ := Option.ite_none_right_eq_some.mp h
    obtain rfl := Option.some.inj h
    exact fun x hx => hp x (List.mem_cons_of_mem _ hx)

theorem step_ascii {pending : List (UInt8 × UInt8)} {b : UInt8} (hp : Pending pending)
    (hb : b < 0x80) : step pending b = if pending = [] then some [] else none := by
  cases pending with
  | nil => rw [step, lead, if_pos hb, if_pos rfl]
  | cons r rest =>
    have hr : 0x80 ≤ r.1 := hp r (List.mem_cons_self ..)
    rw [step, if_neg, if_neg (by simp)]
    rintro ⟨hlo, -⟩
    rw [UInt8.lt_iff_toNat_lt] at hb
    rw [UInt8.le_iff_toNat_le] at hr hlo
    omega

theorem run_append (pending : List (UInt8 × UInt8)) (xs ys : List UInt8) :
    run pending (xs ++ ys) = (run pending xs).bind fun p => run p ys := List.foldlM_append ..

theorem Pending.run {pending pending' : List (UInt8 × UInt8)} {xs : List UInt8}
    (hp : Pending pending) (h : run pending xs = some pending') : Pending pending' := by
  induction xs generalizing pending with
  | nil =>
    obtain rfl := Option.some.inj h
    exact hp
  | cons x xs ih =>
    rw [Utf8.run, List.foldlM_cons] at h
    obtain ⟨p, hstep, hrun⟩ := Option.bind_eq_some_iff.mp h
    exact ih (hp.step hstep) hrun

/-- **ASCII separates**: around a byte of ASCII, both sides are well formed. -/
theorem valid_append_ascii {xs ys : List UInt8} {b : UInt8} (hb : b < 0x80) :
    Valid (xs ++ b :: ys) ↔ Valid xs ∧ Valid ys := by
  have hcons : ∀ p, Pending p → run p (b :: ys) = if p = [] then run [] ys else none := by
    intro p hp
    rw [run, List.foldlM_cons, step_ascii hp hb]
    split <;> rfl
  unfold Valid
  rw [run_append]
  rcases hrun : run [] xs with _ | p
  · simp
  · rw [Option.bind_some, hcons p (pending_nil.run hrun)]
    by_cases hnil : p = []
    · simp [hnil]
    · simp [hnil]

theorem valid_of_ascii {xs : List UInt8} (h : ∀ b ∈ xs, b < 0x80) : Valid xs := by
  induction xs with
  | nil => rfl
  | cons x xs ih =>
    have hx : Valid ([] ++ x :: xs) ↔ _ := valid_append_ascii (h x (List.mem_cons_self ..))
    exact hx.mpr ⟨rfl, ih fun b hb => h b (List.mem_cons_of_mem x hb)⟩

end Utf8

/-! ### Strings -/

namespace Json

/-- The byte that an escape of two characters denotes. -/
def shortEscape (c : UInt8) : Option UInt8 :=
  if c = 0x22 ∨ c = 0x5C ∨ c = 0x2F then some c
  else if c = 0x62 then some 0x08
  else if c = 0x66 then some 0x0C
  else if c = 0x6E then some 0x0A
  else if c = 0x72 then some 0x0D
  else if c = 0x74 then some 0x09
  else none

def hexValue (c : UInt8) : Option ℕ :=
  if 0x30 ≤ c ∧ c ≤ 0x39 then some (c.toNat - 0x30)
  else if 0x41 ≤ c ∧ c ≤ 0x46 then some (c.toNat - 0x37)
  else if 0x61 ≤ c ∧ c ≤ 0x66 then some (c.toNat - 0x57)
  else none

/-- The code unit of four hexadecimal digits. -/
def hex4 : List UInt8 → Option (ℕ × List UInt8)
  | a :: b :: c :: d :: rest => do
    let a ← hexValue a
    let b ← hexValue b
    let c ← hexValue c
    let d ← hexValue d
    some (((a * 16 + b) * 16 + c) * 16 + d, rest)
  | _ => none

/-- The UTF-8 of a code point. -/
def utf8 (n : ℕ) : List UInt8 :=
  if n < 0x80 then [UInt8.ofNat n]
  else if n < 0x800 then [UInt8.ofNat (0xC0 + n / 64), UInt8.ofNat (0x80 + n % 64)]
  else if n < 0x10000 then
    [UInt8.ofNat (0xE0 + n / 4096), UInt8.ofNat (0x80 + n / 64 % 64), UInt8.ofNat (0x80 + n % 64)]
  else
    [UInt8.ofNat (0xF0 + n / 262144), UInt8.ofNat (0x80 + n / 4096 % 64),
      UInt8.ofNat (0x80 + n / 64 % 64), UInt8.ofNat (0x80 + n % 64)]

/-- What follows `\\u`: a code unit, or a pair of surrogates. -/
def unicode (text : List UInt8) : Option (List UInt8 × List UInt8) := do
  let (u, rest) ← hex4 text
  if u < 0xD800 ∨ 0xDFFF < u then some (utf8 u, rest)
  else
    match rest with
    | 0x5C :: 0x75 :: rest => do
      let (v, rest) ← hex4 rest
      if u < 0xDC00 ∧ 0xDC00 ≤ v ∧ v ≤ 0xDFFF then
        some (utf8 (0x10000 + (u - 0xD800) * 1024 + (v - 0xDC00)), rest)
      else none
    | _ => none

/-- A character of a string that begins with `c`, as the bytes it denotes and what
follows it. -/
def char (c : UInt8) (rest : List UInt8) : Option (List UInt8 × List UInt8) :=
  if c < 0x20 then none
  else if c = 0x5C then
    match rest with
    | [] => none
    | e :: rest => if e = 0x75 then unicode rest else (shortEscape e).map fun b => ([b], rest)
  else some ([c], rest)

/-- A string behind its opening quote, as the bytes it denotes and what follows its
closing quote. -/
def chars : ℕ → List UInt8 → Option (List UInt8 × List UInt8)
  | 0, _ => none
  | _, [] => none
  | n + 1, c :: rest =>
    if c = 0x22 then some ([], rest)
    else do
      let (v, rest) ← char c rest
      let (vs, rest) ← chars n rest
      some (v ++ vs, rest)

/-- A character that stands for itself. -/
def Plain (c : UInt8) : Prop := 0x20 ≤ c ∧ c ≠ 0x22 ∧ c ≠ 0x5C

instance : DecidablePred Plain := fun c => by
  unfold Plain
  infer_instance

theorem hex4_spec {text rest : List UInt8} {u : ℕ} (h : hex4 text = some (u, rest)) :
    ∃ ds, text = ds ++ rest ∧ ds.length = 4 ∧ ∀ d ∈ ds, (hexValue d).isSome = true := by
  unfold hex4 at h
  split at h
  case h_1 a b c d rest' =>
    simp only [Option.bind_eq_bind, Option.bind_eq_some_iff] at h
    obtain ⟨a', ha, b', hb, c', hc, d', hd, h⟩ := h
    obtain ⟨-, rfl⟩ := Prod.mk.inj (Option.some.inj h)
    refine ⟨[a, b, c, d], rfl, rfl, ?_⟩
    simp [ha, hb, hc, hd]
  case h_2 => exact absurd h (by simp)

theorem length_utf8_le (n : ℕ) : (utf8 n).length ≤ 4 := by
  unfold utf8
  split_ifs <;> simp

/-- What an escape is made of behind its backslash: more bytes than it denotes, and among
them a quote only if it stands alone. -/
structure Escape (tail v : List UInt8) : Prop where
  length_lt : v.length < tail.length + 1
  quote : tail = [0x22] ∨ 0x22 ∉ tail
  last : tail.getLast? ≠ some 0x2C
  ne_nil : tail ≠ []

/-- An escape that ends with the digits of a code unit. -/
theorem Escape.of_hex {pre ds v : List UInt8} (hds : ds.length = 4)
    (hhex : ∀ d ∈ ds, (hexValue d).isSome = true) (hpre : 0x22 ∉ pre) (hv : v.length ≤ 4) :
    Escape (pre ++ ds) v := by
  have hne : ds ≠ [] := List.ne_nil_of_length_eq_add_one hds
  have hnot : ∀ c, hexValue c = none → c ∉ ds := by
    intro c hc hmem
    have hsome := hhex c hmem
    rw [hc] at hsome
    exact absurd hsome (by simp)
  refine ⟨by rw [List.length_append]; omega, .inr ?_, ?_, by simp [hne]⟩
  · rw [List.mem_append, not_or]
    exact ⟨hpre, hnot _ (by decide)⟩
  · rw [List.getLast?_append_of_ne_nil _ hne]
    exact fun hlast => hnot _ (by decide) (List.mem_of_getLast? hlast)

theorem unicode_spec {text v rest : List UInt8} (h : unicode text = some (v, rest)) :
    ∃ tail, text = tail ++ rest ∧ Escape (0x75 :: tail) v := by
  simp only [unicode, Option.bind_eq_bind, Option.bind_eq_some_iff] at h
  obtain ⟨⟨u, text'⟩, hu, h⟩ := h
  obtain ⟨ds, rfl, hlen, hhex⟩ := hex4_spec hu
  dsimp only at h
  split at h
  · obtain ⟨rfl, rfl⟩ := Prod.mk.inj (Option.some.inj h)
    have hpre : (0x22 : UInt8) ∉ [0x75] := by decide
    exact ⟨ds, rfl, Escape.of_hex hlen hhex hpre (length_utf8_le u)⟩
  · split at h
    case h_1 rest' =>
      simp only [Option.bind_eq_some_iff] at h
      obtain ⟨⟨v', rest''⟩, hv, h⟩ := h
      obtain ⟨ds', rfl, hlen', hhex'⟩ := hex4_spec hv
      obtain ⟨-, h⟩ := Option.ite_none_right_eq_some.mp h
      obtain ⟨rfl, rfl⟩ := Prod.mk.inj (Option.some.inj h)
      refine ⟨ds ++ 0x5C :: 0x75 :: ds', by simp, ?_⟩
      have hq : 0x22 ∉ 0x75 :: (ds ++ [0x5C, 0x75]) := by
        simp only [List.mem_cons, List.mem_append, List.not_mem_nil, or_false, not_or]
        refine ⟨by decide, fun hmem => ?_, by decide, by decide⟩
        exact absurd (hhex _ hmem) (by decide)
      have hesc := Escape.of_hex hlen' hhex' hq
        (length_utf8_le (0x10000 + (u - 0xD800) * 1024 + (v' - 0xDC00)))
      simpa using hesc
    case h_2 => exact absurd h (by simp)

theorem char_spec {c : UInt8} {text v rest : List UInt8} (h : char c text = some (v, rest)) :
    (text = rest ∧ v = [c] ∧ 0x20 ≤ c ∧ c ≠ 0x5C) ∨
      (c = 0x5C ∧ ∃ tail, text = tail ++ rest ∧ Escape tail v) := by
  unfold char at h
  split at h
  · exact absurd h (by simp)
  rename_i hctl
  split at h
  case isTrue hc =>
    refine .inr ⟨hc, ?_⟩
    split at h
    · exact absurd h (by simp)
    case h_2 e text =>
      split at h
      case isTrue he =>
        obtain ⟨tail, rfl, hesc⟩ := unicode_spec h
        exact ⟨e :: tail, rfl, he ▸ hesc⟩
      case isFalse =>
        obtain ⟨b, hb, h⟩ := Option.map_eq_some_iff.mp h
        obtain ⟨rfl, rfl⟩ := Prod.mk.inj h
        refine ⟨[e], rfl, by simp, ?_, ?_, by simp⟩
        · by_cases he : e = 0x22
          · exact .inl (by rw [he])
          · exact .inr fun hmem => he (List.mem_singleton.mp hmem).symm
        · intro hlast
          obtain rfl := Option.some.inj hlast
          exact absurd hb nofun
  case isFalse hc =>
    obtain ⟨rfl, rfl⟩ := Prod.mk.inj (Option.some.inj h)
    exact .inl ⟨rfl, rfl, UInt8.not_lt.mp hctl, hc⟩

/-- What the text of a string has to do with the bytes it denotes. -/
structure Body (body v : List UInt8) : Prop where
  length_le : v.length ≤ body.length
  plain : v.length = body.length → v = body ∧ ∀ c ∈ body, Plain c
  quote : ∀ a b, body = a ++ 0x22 :: b → a.getLast? = some 0x5C
  last : body.getLast? = some 0x2C → v.getLast? = some 0x2C

theorem body_nil : Body [] [] :=
  ⟨Nat.le_refl _, fun _ => ⟨rfl, by simp⟩, fun a b h => absurd h (by simp), by simp⟩

theorem Body.cons {body v : List UInt8} {c : UInt8} (h : Body body v) (hc : Plain c) :
    Body (c :: body) ([c] ++ v) := by
  refine ⟨?_, ?_, ?_, ?_⟩
  · have hle := h.length_le
    rw [List.length_append, List.length_singleton, List.length_cons]
    omega
  · intro hlen
    obtain ⟨rfl, hall⟩ := h.plain (by simpa [Nat.add_comm] using hlen)
    exact ⟨rfl, List.forall_mem_cons.mpr ⟨hc, hall⟩⟩
  · intro a b hab
    cases a with
    | nil =>
      obtain ⟨rfl, -⟩ := List.cons.inj hab
      exact absurd rfl hc.2.1
    | cons a₀ a =>
      obtain ⟨-, hab⟩ := List.cons.inj hab
      have hlast := h.quote a b hab
      cases a with
      | nil => exact absurd hlast (by simp)
      | cons a₁ a => rwa [List.getLast?_cons_cons]
  · intro hlast
    cases body with
    | nil =>
      obtain rfl : v = [] := List.eq_nil_of_length_eq_zero (Nat.le_zero.mp h.length_le)
      exact hlast
    | cons b body =>
      rw [List.getLast?_cons_cons] at hlast
      rw [List.getLast?_append, h.last hlast, Option.some_or]

theorem Body.escape {body v tail w : List UInt8} (h : Body body v) (he : Escape tail w) :
    Body (0x5C :: (tail ++ body)) (w ++ v) := by
  have hle := h.length_le
  have hlt := he.length_lt
  refine ⟨?_, ?_, ?_, ?_⟩
  · rw [List.length_append, List.length_cons, List.length_append]
    omega
  · intro hlen
    rw [List.length_append, List.length_cons, List.length_append] at hlen
    omega
  · intro a b hab
    cases a with
    | nil => exact absurd (List.cons.inj hab).1 (by decide)
    | cons a₀ a =>
      obtain ⟨rfl, hrest⟩ := List.cons.inj hab
      rcases List.append_eq_append_iff.mp hrest with ⟨a', rfl, hbody⟩ | ⟨b', htail, hb⟩
      · -- the quote is in the rest of the string
        have hlast := h.quote a' b hbody
        rw [← List.cons_append, List.getLast?_append, hlast, Option.some_or]
      · cases b' with
        | nil =>
          rw [List.nil_append] at hb
          have hlast := h.quote [] b hb.symm
          exact absurd hlast (by simp)
        | cons q b' =>
          obtain ⟨rfl, -⟩ := List.cons.inj hb
          rcases he.quote with hq | hq
          · -- the escaped quote
            rw [hq] at htail
            cases a with
            | nil => rfl
            | cons a₁ a =>
              have hl := congrArg List.length htail
              simp at hl
          · exact absurd (htail ▸ List.mem_append_right a (List.mem_cons_self ..)) hq
  · intro hlast
    rw [← List.cons_append, List.getLast?_append] at hlast
    rcases hb : body.getLast? with _ | x
    · rw [hb, Option.none_or] at hlast
      cases tail with
      | nil => exact absurd rfl he.ne_nil
      | cons t tail =>
        rw [List.getLast?_cons_cons] at hlast
        exact absurd hlast he.last
    · rw [hb, Option.some_or] at hlast
      rw [List.getLast?_append, h.last (hb.trans hlast), Option.some_or]

theorem chars_spec {n : ℕ} {text v rest : List UInt8} (h : chars n text = some (v, rest)) :
    ∃ body, text = body ++ 0x22 :: rest ∧ Body body v := by
  induction n generalizing text v rest with
  | zero => exact absurd h (by simp [chars])
  | succ n ih =>
    cases text with
    | nil => exact absurd h (by simp [chars])
    | cons c text =>
      rw [chars] at h
      split at h
      case isTrue hc =>
        obtain ⟨rfl, rfl⟩ := Prod.mk.inj (Option.some.inj h)
        exact ⟨[], by rw [hc]; rfl, body_nil⟩
      case isFalse hc =>
        simp only [Option.bind_eq_bind, Option.bind_eq_some_iff] at h
        obtain ⟨⟨w, text'⟩, hchar, ⟨vs, rest'⟩, hchars, h⟩ := h
        obtain ⟨rfl, rfl⟩ := Prod.mk.inj (Option.some.inj h)
        obtain ⟨body, rfl, hbody⟩ := ih hchars
        rcases char_spec hchar with ⟨rfl, rfl, hctl, hslash⟩ | ⟨rfl, tail, rfl, hesc⟩
        · exact ⟨c :: body, rfl, hbody.cons ⟨hctl, hc, hslash⟩⟩
        · exact ⟨0x5C :: (tail ++ body), by simp, hbody.escape hesc⟩

/-! ### Texts and values -/

/-- What stands behind the closing quote of a value: one more member, or the end. -/
def Follows (tail : List UInt8) : Prop := (∃ more, tail = 0x2C :: 0x22 :: more) ∨ tail = [0x7D]

/-- **A text pasted in as it is** is read as itself only if it needs no escape.  If it ends
with a backslash, the string goes on up to the quote of the next member. -/
theorem plain_of_chars {n : ℕ} {text value tail rest : List UInt8}
    (h : chars n (text ++ 0x22 :: tail) = some (value, rest)) (htail : Follows tail)
    (hpre : text <+: value) (hnext : value ≠ text ++ [0x2C]) :
    value = text ∧ ∀ c ∈ text, Plain c := by
  obtain ⟨body, htext, hbody⟩ := chars_spec h
  have hle := hbody.length_le
  have hprele := hpre.length_le
  rcases List.append_eq_append_iff.mp htext with ⟨more, rfl, htail'⟩ | ⟨more, rfl, -⟩
  · cases more with
    | nil =>
      rw [List.append_nil] at hle hbody
      obtain rfl : text = value := hpre.eq_of_length (by omega)
      exact ⟨rfl, (hbody.plain rfl).2⟩
    | cons q more =>
      -- the quote behind the text is escaped
      obtain ⟨rfl, hmore'⟩ := List.cons.inj htail'
      have hslash : text.getLast? = some 0x5C := hbody.quote text more rfl
      have hmore : more = [0x2C] := by
        rcases htail with ⟨more', rfl⟩ | rfl
        · cases more with
          | nil => exact absurd (List.cons.inj hmore').1 (by decide)
          | cons c more =>
            obtain ⟨rfl, hquote⟩ := List.cons.inj hmore'
            cases more with
            | nil => rfl
            | cons q more =>
              obtain ⟨rfl, -⟩ := List.cons.inj hquote
              have hq := hbody.quote (text ++ [0x22, 0x2C]) more (by simp)
              exact absurd hq (by simp)
        · have hmem : (0x22 : UInt8) ∈ more ++ 0x22 :: rest :=
            List.mem_append_right more (List.mem_cons_self ..)
          have hend : [0x7D] = more ++ 0x22 :: rest := hmore'
          rw [← hend] at hmem
          exact absurd hmem (by decide)
      subst hmore
      have hcomma : value.getLast? = some 0x2C := hbody.last (by simp)
      have hlt : value.length < text.length + 2 := by
        refine Nat.lt_of_le_of_ne (by simpa using hle) fun hlen => ?_
        have hall := (hbody.plain (by simpa using hlen)).2
        exact (hall 0x22 (by simp)).2.1 rfl
      obtain ⟨suffix, rfl⟩ := hpre
      rw [List.length_append] at hlt
      match suffix, hlt with
      | [], _ =>
        rw [List.append_nil, hslash] at hcomma
        exact absurd hcomma (by decide)
      | [x], _ =>
        rw [List.getLast?_append_of_ne_nil _ (by simp)] at hcomma
        obtain rfl := Option.some.inj hcomma
        exact absurd rfl hnext
      | x :: y :: suffix, hlt =>
        rw [List.length_cons, List.length_cons] at hlt
        omega
  · rw [List.length_append] at hprele
    obtain rfl : more = [] := List.eq_nil_of_length_eq_zero (by omega)
    rw [List.append_nil] at hpre ⊢
    obtain rfl : body = value := hpre.eq_of_length (by omega)
    exact ⟨rfl, (hbody.plain rfl).2⟩

theorem chars_of_plain {n : ℕ} {text : List UInt8} (h : ∀ c ∈ text, Plain c)
    (hn : text.length < n) (tail : List UInt8) :
    chars n (text ++ 0x22 :: tail) = some (text, tail) := by
  induction text generalizing n with
  | nil =>
    obtain ⟨n, rfl⟩ := Nat.exists_eq_succ_of_ne_zero (Nat.ne_of_gt hn)
    rfl
  | cons c text ih =>
    obtain ⟨n, rfl⟩ := Nat.exists_eq_succ_of_ne_zero (Nat.ne_of_gt (Nat.zero_lt_of_lt hn))
    obtain ⟨hctl, hquote, hslash⟩ := h c (List.mem_cons_self ..)
    have hrest := @ih n (fun d hd => h d (List.mem_cons_of_mem c hd)) (by simpa using hn)
    have hchar : char c (text ++ 0x22 :: tail) = some ([c], text ++ 0x22 :: tail) := by
      unfold char
      rw [if_neg (UInt8.not_lt.mpr hctl), if_neg hslash]
    rw [List.cons_append, chars, if_neg hquote]
    simp only [hchar, hrest, Option.bind_eq_bind, Option.bind_some]
    rfl

/-- A string with its quotes and backslashes escaped. -/
def quote (v : List UInt8) : List UInt8 :=
  v.flatMap fun c => if c = 0x22 ∨ c = 0x5C then [0x5C, c] else [c]

theorem quote_cons (c : UInt8) (v : List UInt8) :
    quote (c :: v) = (if c = 0x22 ∨ c = 0x5C then [0x5C, c] else [c]) ++ quote v := rfl

theorem quote_of_plain {v : List UInt8} (h : ∀ c ∈ v, Plain c) : quote v = v := by
  induction v with
  | nil => rfl
  | cons c v ih =>
    obtain ⟨-, hquote, hslash⟩ := h c (List.mem_cons_self ..)
    rw [quote_cons, if_neg (not_or.mpr ⟨hquote, hslash⟩), ih fun d hd => h d (List.mem_cons_of_mem c hd)]
    rfl

/-- One step over an escaped string. -/
theorem chars_quote_cons {n : ℕ} {c : UInt8} (hc : 0x20 ≤ c) (v tail : List UInt8) :
    chars (n + 1) (quote (c :: v) ++ 0x22 :: tail) =
      (chars n (quote v ++ 0x22 :: tail)).map fun x => (c :: x.1, x.2) := by
  rw [quote_cons]
  split
  case isTrue h =>
    have hshort : shortEscape c = some c := by
      unfold shortEscape
      rw [if_pos (h.imp_right .inl)]
    have hne : c ≠ 0x75 := by rintro rfl; exact absurd h (by decide)
    have hchar : char 0x5C (c :: (quote v ++ 0x22 :: tail)) = some ([c], quote v ++ 0x22 :: tail) := by
      unfold char
      simp [hne, hshort]
    have hquote : (0x5C : UInt8) ≠ 0x22 := by decide
    simp only [List.cons_append, List.nil_append, chars, if_neg hquote, hchar, Option.bind_eq_bind,
      Option.bind_some]
    cases chars n (quote v ++ 0x22 :: tail) <;> rfl
  case isFalse h =>
    rw [not_or] at h
    have hchar : char c (quote v ++ 0x22 :: tail) = some ([c], quote v ++ 0x22 :: tail) := by
      unfold char
      rw [if_neg (UInt8.not_lt.mpr hc), if_neg h.2]
    simp only [List.cons_append, List.nil_append, chars, if_neg h.1, hchar, Option.bind_eq_bind,
      Option.bind_some]
    cases chars n (quote v ++ 0x22 :: tail) <;> rfl

/-- **An escaped string** without control characters is read back. -/
theorem chars_quote {n : ℕ} {v : List UInt8} (h : ∀ c ∈ v, 0x20 ≤ c) (hn : (quote v).length < n)
    (tail : List UInt8) : chars n (quote v ++ 0x22 :: tail) = some (v, tail) := by
  induction v generalizing n with
  | nil =>
    obtain ⟨n, rfl⟩ := Nat.exists_eq_succ_of_ne_zero (Nat.ne_of_gt (Nat.zero_lt_of_lt hn))
    rfl
  | cons c v ih =>
    obtain ⟨n, rfl⟩ := Nat.exists_eq_succ_of_ne_zero (Nat.ne_of_gt (Nat.zero_lt_of_lt hn))
    have hlen : (quote v).length < n := by
      rw [quote_cons, List.length_append] at hn
      split at hn <;> simp at hn <;> omega
    rw [chars_quote_cons (h c (List.mem_cons_self ..)),
      ih (fun d hd => h d (List.mem_cons_of_mem c hd)) hlen]
    rfl

/-- A control character is not read in a string, escaped or not. -/
theorem of_chars_quote {n : ℕ} {v value tail rest : List UInt8}
    (h : chars n (quote v ++ 0x22 :: tail) = some (value, rest)) :
    value = v ∧ ∀ c ∈ v, 0x20 ≤ c := by
  induction v generalizing n value rest with
  | nil =>
    cases n with
    | zero => exact absurd h (by simp [chars])
    | succ n =>
      obtain ⟨rfl, -⟩ := Prod.mk.inj (Option.some.inj h)
      exact ⟨rfl, by simp⟩
  | cons c v ih =>
    cases n with
    | zero => exact absurd h (by simp [chars])
    | succ n =>
      by_cases hc : 0x20 ≤ c
      · rw [chars_quote_cons hc] at h
        obtain ⟨x, hx, hvalue⟩ := Option.map_eq_some_iff.mp h
        obtain ⟨hx₁, hall⟩ := ih hx
        exact ⟨(Prod.mk.inj hvalue).1 ▸ hx₁ ▸ rfl, List.forall_mem_cons.mpr ⟨hc, hall⟩⟩
      · have hlt : c < 0x20 := UInt8.not_le.mp hc
        have hne : c ≠ 0x22 ∧ c ≠ 0x5C := by
          constructor <;> rintro rfl <;> exact absurd hlt (by decide)
        have hchar : char c (quote v ++ 0x22 :: tail) = none := by
          unfold char
          rw [if_pos hlt]
        rw [quote_cons, if_neg (not_or.mpr hne)] at h
        simp only [List.cons_append, List.nil_append, chars, if_neg hne.1, hchar, Option.bind_eq_bind,
          Option.bind_none] at h
        exact absurd h nofun

/-! ### Objects -/

def isSpace (c : UInt8) : Bool := c = 0x20 || c = 0x09 || c = 0x0A || c = 0x0D

/-- The rest of a text behind the next token, if that is the character. -/
def lit (c : UInt8) (text : List UInt8) : Option (List UInt8) :=
  match text.dropWhile isSpace with
  | [] => none
  | x :: rest => if x = c then some rest else none

/-- The next token, if it is a string. -/
def string (text : List UInt8) : Option (List UInt8 × List UInt8) := do
  let rest ← lit 0x22 text
  chars (rest.length + 1) rest

/-- The members up to the closing brace, with what follows that. -/
def members : ℕ → List UInt8 → Option (List (List UInt8 × List UInt8) × List UInt8)
  | 0, _ => none
  | n + 1, text => do
    let (key, rest) ← string text
    let rest ← lit 0x3A rest
    let (value, rest) ← string rest
    match lit 0x2C rest with
    | some rest => do
      let (ms, rest) ← members n rest
      some ((key, value) :: ms, rest)
    | none => do
      let rest ← lit 0x7D rest
      some ([(key, value)], rest)

/-- A text that is an object with string values, as its members. -/
def object (text : List UInt8) : Option (List (List UInt8 × List UInt8)) :=
  if Utf8.Valid text then do
    let rest ← lit 0x7B text
    let (ms, rest) ←
      match lit 0x7D rest with
      | some rest => some ([], rest)
      | none => members rest.length rest
    if rest.all isSpace then some ms else none
  else none

/-- A member as it is written, and the value it is written for. -/
structure Field where
  key : List UInt8
  text : List UInt8
  value : List UInt8

namespace Field

/-- `"key":"text"`. -/
def write (f : Field) : List UInt8 :=
  0x22 :: (f.key ++ 0x22 :: 0x3A :: 0x22 :: (f.text ++ [0x22]))

/-- The members behind the first, and the brace. -/
def writeRest (fs : List Field) : List UInt8 := fs.flatMap (fun f => 0x2C :: f.write) ++ [0x7D]

/-- The text is the value, escaped, and the value has no control character. -/
def Good (f : Field) : Prop := f.text = quote f.value ∧ ∀ c ∈ f.value, 0x20 ≤ c

/-- The key needs no escape, and the text is read as the value only if it is good. -/
structure Reads (f : Field) : Prop where
  key : ∀ c ∈ f.key, Plain c
  good_of_read : ∀ n tail rest, Follows tail →
    chars n (f.text ++ 0x22 :: tail) = some (f.value, rest) → f.Good

theorem Good.read {f : Field} (h : f.Good) {n : ℕ} (hn : f.text.length < n) (tail : List UInt8) :
    chars n (f.text ++ 0x22 :: tail) = some (f.value, tail) := by
  rw [h.1] at hn ⊢
  exact chars_quote h.2 hn tail

/-- A value that is pasted in, up to some place. -/
theorem reads_of_prefix {f : Field} (hkey : ∀ c ∈ f.key, Plain c) (hpre : f.text <+: f.value)
    (hnext : f.value ≠ f.text ++ [0x2C]) : f.Reads where
  key := hkey
  good_of_read n tail rest htail h := by
    obtain ⟨hvalue, hplain⟩ := plain_of_chars h htail hpre hnext
    rw [← hvalue] at hplain
    exact ⟨hvalue.symm.trans (quote_of_plain hplain).symm, fun c hc => (hplain c hc).1⟩

/-- A value that is escaped, up to some place. -/
theorem reads_of_quote {f : Field} (hkey : ∀ c ∈ f.key, Plain c) {w : List UInt8}
    (htext : f.text = quote w) : f.Reads where
  key := hkey
  good_of_read n tail rest _ h := by
    rw [htext] at h
    obtain ⟨hvalue, hall⟩ := of_chars_quote h
    exact ⟨hvalue ▸ htext, hvalue ▸ hall⟩

theorem follows_writeRest (fs : List Field) : Follows (writeRest fs) := by
  cases fs with
  | nil => exact .inr rfl
  | cons f fs => exact .inl ⟨_, rfl⟩

theorem length_lt_writeRest (fs : List Field) : fs.length < (writeRest fs).length := by
  induction fs with
  | nil => exact Nat.zero_lt_one
  | cons f fs ih =>
    have hrest : writeRest (f :: fs) = 0x2C :: (f.write ++ writeRest fs) := by
      simp [writeRest]
    rw [hrest, List.length_cons, List.length_cons, List.length_append]
    omega

theorem lit_self {c : UInt8} (hc : isSpace c = false) (rest : List UInt8) :
    lit c (c :: rest) = some rest := by
  simp [lit, List.dropWhile, hc]

theorem lit_of_ne {c d : UInt8} (hd : isSpace d = false) (hne : d ≠ c) (rest : List UInt8) :
    lit c (d :: rest) = none := by
  simp [lit, List.dropWhile, hd, hne]

theorem string_quote (rest : List UInt8) : string (0x22 :: rest) = chars (rest.length + 1) rest := by
  rw [string, lit_self (by decide)]
  rfl

/-- What is read of the first member. -/
theorem members_write {f : Field} (hkey : ∀ c ∈ f.key, Plain c) (n : ℕ) (tail : List UInt8) :
    members (n + 1) (f.write ++ tail) =
      (chars (f.text ++ 0x22 :: tail).length.succ (f.text ++ 0x22 :: tail)).bind fun x =>
        match lit 0x2C x.2 with
        | some rest => (members n rest).map fun y => ((f.key, x.1) :: y.1, y.2)
        | none => (lit 0x7D x.2).map fun rest => ([(f.key, x.1)], rest) := by
  have hwrite : f.write ++ tail =
      0x22 :: (f.key ++ 0x22 :: 0x3A :: 0x22 :: (f.text ++ 0x22 :: tail)) := by
    simp [write]
  have hstring := chars_of_plain hkey (n := (f.key ++ 0x22 :: 0x3A :: 0x22 ::
    (f.text ++ 0x22 :: tail)).length + 1) (by rw [List.length_append]; omega) (0x3A :: 0x22 :: (f.text ++ 0x22 :: tail))
  simp only [members, hwrite, string_quote, hstring, Option.bind_eq_bind, Option.bind_some,
    lit_self (c := 0x3A) (by decide)]
  cases chars (f.text ++ 0x22 :: tail).length.succ (f.text ++ 0x22 :: tail) with
  | none => rfl
  | some x =>
    simp only [Option.bind_some]
    cases lit 0x2C x.2 with
    | none => cases lit 0x7D x.2 <;> rfl
    | some rest =>
      dsimp only
      cases members n rest <;> rfl

/-- The texts that are good are read as their values. -/
theorem members_of_good {f : Field} {fs : List Field} (hr : ∀ g ∈ f :: fs, g.Reads)
    (hg : ∀ g ∈ f :: fs, g.Good) {n : ℕ} (hn : fs.length < n) :
    members n (f.write ++ writeRest fs) =
      some ((f :: fs).map fun g => (g.key, g.value), []) := by
  induction fs generalizing f n with
  | nil =>
    obtain ⟨n, rfl⟩ := Nat.exists_eq_succ_of_ne_zero (Nat.ne_of_gt hn)
    have hf := hr f (List.mem_cons_self ..)
    have hread := (hg f (List.mem_cons_self ..)).read
      (n := (f.text ++ 0x22 :: writeRest []).length.succ)
      (by rw [List.length_append]; omega) (writeRest [])
    rw [members_write hf.key, hread]
    rfl
  | cons g fs ih =>
    obtain ⟨n, rfl⟩ := Nat.exists_eq_succ_of_ne_zero (Nat.ne_of_gt (Nat.zero_lt_of_lt hn))
    have hf := hr f (List.mem_cons_self ..)
    have hread := (hg f (List.mem_cons_self ..)).read
      (n := (f.text ++ 0x22 :: writeRest (g :: fs)).length.succ)
      (by rw [List.length_append]; omega) (writeRest (g :: fs))
    have hrest : writeRest (g :: fs) = 0x2C :: (g.write ++ writeRest fs) := by
      simp [writeRest]
    have hih := ih (fun g' hg' => hr g' (List.mem_cons_of_mem f hg'))
      (fun g' hg' => hg g' (List.mem_cons_of_mem f hg')) (n := n) (by simpa using hn)
    rw [members_write hf.key, hread, hrest, Option.bind_some, lit_self (by decide)]
    simp only [hih, Option.map_some, List.map_cons]

theorem good_of_first {f : Field} {fs : List Field} (hf : f.Reads) {n : ℕ}
    {ms : List (List UInt8 × List UInt8)} {rest : List UInt8}
    (h : members (n + 1) (f.write ++ writeRest fs) = some ((f.key, f.value) :: ms, rest)) :
    f.Good := by
  rw [members_write hf.key, Option.bind_eq_some_iff] at h
  obtain ⟨⟨v, rest'⟩, hchars, h⟩ := h
  have hv : v = f.value := by
    dsimp only at h
    split at h <;> obtain ⟨y, -, hy⟩ := Option.map_eq_some_iff.mp h <;>
      exact (Prod.mk.inj (List.cons.inj (Prod.mk.inj hy).1).1).2
  subst hv
  exact hf.good_of_read _ _ _ (follows_writeRest fs) hchars

/-- Texts that are read as their values are good. -/
theorem good_of_members {f : Field} {fs : List Field} (hr : ∀ g ∈ f :: fs, g.Reads) {n : ℕ}
    {rest : List UInt8} (h : members n (f.write ++ writeRest fs) =
      some ((f :: fs).map fun g => (g.key, g.value), rest)) : ∀ g ∈ f :: fs, g.Good := by
  have hf := hr f (List.mem_cons_self ..)
  induction fs generalizing f n rest with
  | nil =>
    cases n with
    | zero => exact absurd h (by simp [members])
    | succ n => exact List.forall_mem_singleton.mpr (good_of_first hf h)
  | cons g fs ih =>
    cases n with
    | zero => exact absurd h (by simp [members])
    | succ n =>
      have hgood := good_of_first hf h
      have hread := hgood.read (n := (f.text ++ 0x22 :: writeRest (g :: fs)).length.succ)
        (by rw [List.length_append]; omega) (writeRest (g :: fs))
      have hrest : writeRest (g :: fs) = 0x2C :: (g.write ++ writeRest fs) := by
        simp [writeRest]
      rw [members_write hf.key, hread, hrest, Option.bind_some, lit_self (by decide)] at h
      obtain ⟨⟨ms, rest'⟩, hms, hy⟩ := Option.map_eq_some_iff.mp h
      obtain rfl := (List.cons.inj (Prod.mk.inj hy).1).2
      have hrg : ∀ g' ∈ g :: fs, g'.Reads := fun g' hg' =>
        hr g' (List.mem_cons_of_mem f hg')
      exact List.forall_mem_cons.mpr
        ⟨hgood, ih hrg hms (hrg g (List.mem_cons_self ..))⟩

/-- An object that is written member by member. -/
def writeObject (f : Field) (fs : List Field) : List UInt8 := 0x7B :: (f.write ++ writeRest fs)

/-- **An object that is written member by member** is read as the values it is written for
exactly if it is well-formed UTF-8 and each text is good for its value. -/
theorem object_writeObject_iff {f : Field} {fs : List Field}
    (hr : ∀ g ∈ f :: fs, g.Reads) :
    object (writeObject f fs) = some ((f :: fs).map fun g => (g.key, g.value)) ↔
      Utf8.Valid (writeObject f fs) ∧ ∀ g ∈ f :: fs, g.Good := by
  have hopen : lit 0x7B (writeObject f fs) = some (f.write ++ writeRest fs) := lit_self (by decide) _
  have hclose : lit 0x7D (f.write ++ writeRest fs) = none := lit_of_ne (by decide) (by decide) _
  unfold object
  by_cases hvalid : Utf8.Valid (writeObject f fs)
  · rw [if_pos hvalid, hopen]
    simp only [Option.bind_eq_bind, Option.bind_some, hclose, hvalid, true_and]
    constructor
    · intro h
      obtain ⟨⟨ms, rest⟩, hms, h⟩ := Option.bind_eq_some_iff.mp h
      obtain ⟨-, h⟩ := Option.ite_none_right_eq_some.mp h
      obtain rfl := Option.some.inj h
      exact good_of_members hr hms
    · intro hg
      have hlen : fs.length < (f.write ++ writeRest fs).length := by
        have hle := length_lt_writeRest fs
        rw [List.length_append]
        omega
      rw [members_of_good hr hg hlen]
      rfl
  · rw [if_neg hvalid]
    exact iff_of_false (by simp) fun h => hvalid h.1

/-! ### UTF-8 of what is written -/

theorem valid_cons_ascii {b : UInt8} (hb : b < 0x80) (xs : List UInt8) :
    Utf8.Valid (b :: xs) ↔ Utf8.Valid xs := by
  have h : Utf8.Valid ([] ++ b :: xs) ↔ _ := Utf8.valid_append_ascii hb
  rw [List.nil_append] at h
  rw [h]
  exact and_iff_right rfl

theorem run_quote {pending : List (UInt8 × UInt8)} (hp : Utf8.Pending pending) (v : List UInt8) :
    Utf8.run pending (quote v) = Utf8.run pending v := by
  induction v generalizing pending with
  | nil => rfl
  | cons c v ih =>
    have hcons : ∀ xs, Utf8.run pending (c :: xs) =
        (Utf8.step pending c).bind fun p => Utf8.run p xs := fun xs => List.foldlM_cons ..
    have hrest : ∀ xs, (∀ p, Utf8.Pending p → Utf8.run p xs = Utf8.run p v) →
        Utf8.run pending (c :: xs) = Utf8.run pending (c :: v) := by
      intro xs hxs
      rw [hcons, hcons]
      rcases hstep : Utf8.step pending c with _ | p
      · rfl
      · exact hxs p (hp.step hstep)
    rw [quote_cons]
    split
    case isTrue hc =>
      -- the backslash is ASCII, as is the byte that it stands before
      have hascii : c < 0x80 := by rcases hc with rfl | rfl <;> decide
      show Utf8.run pending (0x5C :: c :: quote v) = _
      rw [← hrest (quote v) fun p hp => ih hp, Utf8.run, List.foldlM_cons,
        Utf8.step_ascii hp (by decide)]
      split
      case isTrue hnil => rw [hnil]; rfl
      case isFalse hne =>
        rw [Utf8.run, List.foldlM_cons, Utf8.step_ascii hp hascii, if_neg hne]
        rfl
    case isFalse => exact hrest (quote v) fun p hp => ih hp

/-- Escapes are ASCII before ASCII. -/
theorem valid_quote (v : List UInt8) : Utf8.Valid (quote v) ↔ Utf8.Valid v := by
  unfold Utf8.Valid
  rw [run_quote Utf8.pending_nil]

theorem valid_write_append {f : Field} (hkey : ∀ c ∈ f.key, c < 0x80) (tail : List UInt8) :
    Utf8.Valid (f.write ++ tail) ↔ Utf8.Valid f.text ∧ Utf8.Valid tail := by
  have hwrite : f.write ++ tail =
      0x22 :: (f.key ++ 0x22 :: 0x3A :: 0x22 :: (f.text ++ 0x22 :: tail)) := by
    simp [write]
  rw [hwrite, valid_cons_ascii (by decide), Utf8.valid_append_ascii (by decide),
    valid_cons_ascii (by decide), valid_cons_ascii (by decide), Utf8.valid_append_ascii (by decide)]
  exact and_iff_right (Utf8.valid_of_ascii hkey)

theorem valid_writeRest {fs : List Field} (hkey : ∀ g ∈ fs, ∀ c ∈ g.key, c < 0x80) :
    Utf8.Valid (writeRest fs) ↔ ∀ g ∈ fs, Utf8.Valid g.text := by
  induction fs with
  | nil => exact iff_of_true (by decide) (by simp)
  | cons g fs ih =>
    have hrest : writeRest (g :: fs) = 0x2C :: (g.write ++ writeRest fs) := by
      simp [writeRest]
    rw [hrest, valid_cons_ascii (by decide), valid_write_append (hkey g (List.mem_cons_self ..)),
      ih fun g' hg' => hkey g' (List.mem_cons_of_mem g hg'), List.forall_mem_cons]

theorem valid_writeObject {f : Field} {fs : List Field}
    (hkey : ∀ g ∈ f :: fs, ∀ c ∈ g.key, c < 0x80) :
    Utf8.Valid (writeObject f fs) ↔ ∀ g ∈ f :: fs, Utf8.Valid g.text := by
  rw [writeObject, valid_cons_ascii (by decide), valid_write_append (hkey f (List.mem_cons_self ..)),
    valid_writeRest fun g hg => hkey g (List.mem_cons_of_mem f hg), List.forall_mem_cons]

end Field

end Json

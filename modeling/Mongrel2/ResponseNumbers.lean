/-
The numbers in a backend's answer (`http11/httpclient_parser.rl`).

* `ChunkLine`, `LengthHeader` — a line in front of a chunk and a `Content-Length` header
  that the parser accepts, wherever they are in the buffer;
* `Faithful` — `content_len` is the number that the digits denote, and a chunk is the last
  exactly if its number is 0;
* `faithful_iff` — so it is if and only if the number is below 2³¹.

Design notes: that a line is accepted is said of the machine, as the blanks before a
length may hold line ends.  The callbacks are `NULL`.
-/
import Mongrel2.HttpClientParser

namespace Mongrel2

open ByteStream (Byte)
open HttpParser (isDigit isXdigit isToken)
open HttpClientParser

/-! ### The number of a header -/

/-- The `long` of a number as an `int`. -/
theorem toInt_min_eq_iff (n : ℕ) : toInt (min (2 ^ 63 - 1) n) = n ↔ n < 2 ^ 31 := by
  constructor
  · intro h
    have hlt : toInt (min (2 ^ 63 - 1) (n : ℤ)) < (2 ^ 32 + 1) / 2 := Int.bmod_lt (by decide)
    rw [h] at hlt
    omega
  · intro h
    have hmin : min (2 ^ 63 - 1 : ℤ) n = n := by omega
    rw [hmin, toInt_of_lt h]

namespace HttpClientParser

/-- A line in front of a chunk, at an offset into the buffer. -/
structure ChunkLine where
  before : List Byte
  size : List Byte
  after : List Byte
  size_ne_nil : size ≠ []
  xdigits : ∀ c ∈ size, isXdigit c = true
  ends : ∀ c ∈ after.head?, isXdigit c = false
  accepted : ∀ client : Client,
    (client.init.consume (before ++ (size ++ after)) before.length (size ++ after)).1.cs = .done

/-- The machine goes on to write a length. -/
def Cs.writesLength : Cs → List Byte → Bool
  | _, [] => false
  | cs, c :: xs => (cs.next c).elim false fun (acts, cs') =>
    .writeContentLen ∈ acts || !(.done ∈ acts) && cs'.writesLength xs

/-- A `Content-Length` header in a response, with no other behind it. -/
structure LengthHeader where
  before : List Byte
  name : List Byte
  blanks : List Byte
  digits : List Byte
  eol : List Byte
  after : List Byte
  /-- `before` ends with the line before -/
  line : before.getLast? = some (chr '\n')
  content_length : sameCaseless name (bytes "Content-Length") = true
  space : ∀ c ∈ blanks, isSpace c = true
  digits_ne_nil : digits ≠ []
  digit : ∀ c ∈ digits, isDigit c = true
  eol_eq : eol = [chr '\n'] ∨ eol = crlf
  last : Cs.writesLength .headers after = false

namespace LengthHeader

variable (h : LengthHeader)

def header : List Byte := h.name ++ chr ':' :: (h.blanks ++ (h.digits ++ h.eol))

def bytes : List Byte := h.before ++ (h.header ++ h.after)

end LengthHeader

/-- The parser reads the header to its end and finds no error behind it. -/
structure AcceptedLength extends LengthHeader where
  accepted : ∀ client : Client,
    (client.init.consume toLengthHeader.bytes 0 toLengthHeader.bytes).1.cs ≠ .error ∧
      (before ++ toLengthHeader.header).length ≤
        (client.init.consume toLengthHeader.bytes 0 toLengthHeader.bytes).2

/-- The number of the line. -/
def ChunkLine.number (h : ChunkLine) : ℕ := numeral 16 h.size

/-- The number of the header. -/
def LengthHeader.number (h : LengthHeader) : ℕ := numeral 10 h.digits

variable (client : Client)

/-- The parser reports an error, or holds the number and takes a chunk for the last only if
it is 0. -/
def ChunkLine.Faithful (h : ChunkLine) : Prop :=
  ∃ client' rc, client.init.execute (h.before ++ (h.size ++ h.after)) h.before.length =
      some (client', rc) ∧
    (rc = none ∨ client'.hasError = true ∨
      client'.contentLen = h.number ∧ (client'.chunksDone = true ↔ h.number = 0))

/-- The parser reports an error or holds the number. -/
def AcceptedLength.Faithful (h : AcceptedLength) : Prop :=
  ∃ client' rc, client.init.execute h.bytes 0 = some (client', rc) ∧
    (rc = none ∨ client'.hasError = true ∨ client'.contentLen = h.number)

/-! ### Chunks -/

section

variable {client : Client} {buffer : List Byte} {fpc : ℕ}

/-- What follows the digits of a size does not change it. -/
theorem sized_consume {xs : List Byte} {n : ℤ} (hcs : client.cs.inLine = true ∨ client.cs = .done)
    (hsized : client.Sized n) : (client.consume buffer fpc xs).1.Sized n := by
  induction xs generalizing client fpc with
  | nil => exact hsized
  | cons c xs ih =>
    rw [Client.consume]
    rcases hcs with hcs | hcs
    · cases hnext : client.cs.next c with
      | none => exact ⟨hsized.1, hsized.2, hsized.3⟩
      | some r =>
        obtain ⟨acts, cs⟩ := r
        have hin := next_inLine hcs hnext
        have hsized' : (client.take buffer fpc acts cs).Sized n := by
          obtain ⟨⟨h₁, h₂, h₃⟩, -⟩ := @Client.foldl_inLine client buffer fpc acts n hsized hin.acts
          exact ⟨h₁, h₂, h₃⟩
        dsimp only
        split
        · exact hsized'
        · exact @ih (client.take buffer fpc acts cs) (fpc + 1) (hin.next.imp And.left And.left) hsized'
    · rw [hcs]
      exact ⟨hsized.1, hsized.2, hsized.3⟩

/-- The byte behind the digits, where the line is accepted. -/
theorem next_chunkSize {c : Byte} {acts : List Act} {cs : Cs} (hc : isXdigit c = false)
    (hnext : Cs.next .chunkSize c = some (acts, cs)) :
    (acts = [.chunkSize] ∧ cs.inLine = true) ∨ acts = [.chunkSize, .done] ∧ cs = .done := by
  simp only [Cs.next, hc, Bool.false_eq_true, if_false] at hnext
  split_ifs at hnext
  all_goals
    obtain ⟨rfl, rfl⟩ := Prod.mk.inj (Option.some.inj hnext)
  · exact .inr ⟨rfl, rfl⟩
  · exact .inl ⟨rfl, rfl⟩
  · exact .inl ⟨rfl, rfl⟩

/-- **The line in front of a chunk** leaves what the parser makes of its digits. -/
theorem sized_chunkLine (h : ChunkLine) (client : Client) :
    (client.init.consume (h.before ++ (h.size ++ h.after)) h.before.length
      (h.size ++ h.after)).1.Sized (toInt (min (2 ^ 63 - 1) h.number)) := by
  have haccepted := h.accepted client
  have hends := h.ends
  have hdigits : strtol 16 isXdigit (h.size ++ h.after) = toInt (min (2 ^ 63 - 1) h.number) := by
    have htake : (h.size ++ h.after).takeWhile isXdigit = h.size := by
      rw [List.takeWhile_append_of_pos h.xdigits]
      cases hafter : h.after with
      | nil => rw [List.takeWhile_nil, List.append_nil]
      | cons c xs =>
        rw [hafter] at hends
        rw [List.takeWhile_cons_of_neg (by simp [hends c rfl]), List.append_nil]
    rw [strtol, htake]
    rfl
  rw [Client.consume_digits h.xdigits h.size_ne_nil] at haccepted ⊢
  generalize hbuffer : h.before ++ (h.size ++ h.after) = buffer at *
  have hdrop : buffer.drop h.before.length = h.size ++ h.after := by
    rw [← hbuffer, List.drop_left]
  cases hafter : h.after with
  | nil =>
    rw [hafter] at haccepted
    exact absurd haccepted (by simp [Client.consume])
  | cons c xs =>
    rw [hafter] at haccepted hends
    rw [Client.consume] at haccepted ⊢
    cases hnext : Cs.next .chunkSize c with
    | none =>
      rw [hnext] at haccepted
      exact absurd haccepted (by simp)
    | some r =>
      obtain ⟨acts, cs⟩ := r
      dsimp only
      rcases next_chunkSize (hends c rfl) hnext with ⟨rfl, hcs⟩ | ⟨rfl, rfl⟩
      -- the line goes on, or its line feed ends it at once
      · rw [if_neg (by simp)]
        refine sized_consume (.inl hcs) ?_
        refine ⟨rfl, ?_, ?_⟩
        · show strtol 16 isXdigit (buffer.drop h.before.length) = _
          rw [hdrop, hdigits]
        · show decide (strtol 16 isXdigit (buffer.drop h.before.length) ≤ 0) = _
          rw [hdrop, hdigits]
      · rw [if_pos (by simp)]
        refine ⟨rfl, ?_, ?_⟩
        · show strtol 16 isXdigit (buffer.drop h.before.length) = _
          rw [hdrop, hdigits]
        · show decide (strtol 16 isXdigit (buffer.drop h.before.length) ≤ 0) = _
          rw [hdrop, hdigits]

/-- A chunk's number is kept if and only if an `int` holds it. -/
theorem chunkLine_faithful_iff (h : ChunkLine) (client : Client) :
    h.Faithful client ↔ h.number < 2 ^ 31 := by
  obtain ⟨d, ds, hsize⟩ := List.exists_cons_of_ne_nil h.size_ne_nil
  obtain ⟨k, n, hexec⟩ := @Client.execute_init client (h.before ++ (h.size ++ h.after))
    h.before.length (List.length_pos_iff.mpr (by simp [hsize])) (by simp)
  rw [List.drop_left] at hexec
  have hdone := h.accepted client
  obtain ⟨-, hlen, hlast⟩ := sized_chunkLine h client
  constructor
  · rintro ⟨client', rc, hrun, hfaithful⟩
    rw [hexec, Option.some.injEq, Prod.mk.injEq] at hrun
    obtain ⟨rfl, rfl⟩ := hrun
    rcases hfaithful with hrc | herror | ⟨hnumber, -⟩
    · exact absurd hrc (by simp)
    · exact absurd herror (by simp [Client.hasError, hdone])
    · exact (toInt_min_eq_iff h.number).mp (hlen.symm.trans hnumber)
  · intro hlt
    have hnumber := (toInt_min_eq_iff h.number).mpr hlt
    refine ⟨_, _, hexec, .inr (.inr ⟨hlen.trans hnumber, ?_⟩)⟩
    show (client.init.consume _ _ _).1.chunksDone = true ↔ _
    rw [hlast, hnumber, decide_eq_true_iff]
    omega

/-! ### The way to a header's digits -/

/-- The machine goes on through the bytes, to the state it is in behind them. -/
def Cs.walk : Cs → List Byte → Option Cs
  | cs, [] => some cs
  | cs, c :: xs => (cs.next c).bind fun (acts, cs') => if .done ∈ acts then none else cs'.walk xs

theorem walk_append (cs : Cs) (xs ys : List Byte) :
    cs.walk (xs ++ ys) = (cs.walk xs).bind fun cs' => cs'.walk ys := by
  induction xs generalizing cs with
  | nil => rfl
  | cons c xs ih =>
    rw [List.cons_append, Cs.walk, Cs.walk]
    cases cs.next c with
    | none => rfl
    | some r =>
      obtain ⟨acts, cs'⟩ := r
      dsimp only [Option.bind_some]
      split_ifs
      · rfl
      · exact ih cs'

/-- Where the parser has read all of `xs` and more, the machine went through them. -/
theorem walk_of_lt {xs ys : List Byte}
    (hlt : fpc + xs.length < (client.consume buffer fpc (xs ++ ys)).2) :
    ∃ cs, client.cs.walk xs = some cs := by
  induction xs generalizing client fpc with
  | nil => exact ⟨_, rfl⟩
  | cons c xs ih =>
    rw [List.cons_append, Client.consume, List.length_cons] at hlt
    rw [Cs.walk]
    cases hnext : client.cs.next c with
    -- had it stopped here, it would not have read on
    | none =>
      rw [hnext] at hlt
      dsimp only at hlt
      omega
    | some r =>
      obtain ⟨acts, cs⟩ := r
      rw [hnext] at hlt
      dsimp only at hlt
      rw [Option.bind_some]
      dsimp only
      split_ifs at hlt ⊢
      · dsimp only at hlt
        omega
      · exact @ih (client.take buffer fpc acts cs) (fpc + 1) (by omega)

/-- The parser goes where the machine goes. -/
theorem consume_walk {xs : List Byte} {cs : Cs} (hwalk : client.cs.walk xs = some cs)
    (ys : List Byte) : ∃ client' : Client, client.consume buffer fpc (xs ++ ys) =
      client'.consume buffer (fpc + xs.length) ys ∧ client'.cs = cs := by
  induction xs generalizing client fpc with
  | nil => exact ⟨client, rfl, Option.some.inj hwalk⟩
  | cons c xs ih =>
    obtain ⟨⟨acts, cs₁⟩, hnext, hwalk⟩ := Option.bind_eq_some_iff.mp hwalk
    rw [List.cons_append, Client.consume, hnext, List.length_cons]
    dsimp only at hwalk ⊢
    split_ifs at hwalk ⊢
    obtain ⟨client', hconsume, hcs⟩ := @ih (client.take buffer fpc acts cs₁) (fpc + 1) hwalk
    refine ⟨client', ?_, hcs⟩
    rw [hconsume]
    congr 1
    omega

/-- The states behind the end of a line. -/
def Cs.behindLine (cs : Cs) : Prop :=
  cs = .headers ∨ cs = .lengthLine ∨ cs = .codingLine ∨ cs = .lengthBlank ∨ cs = .codingBlank

theorem continues_eq_false {word : String} {c : Byte}
    (h : (Mongrel2.bytes word).all (fun w => !sameCaseless [w] [c]) = true) (n : ℕ) :
    continues word n c = false := by
  rw [continues, Option.any_eq_false]
  intro w hw
  have hne := List.all_eq_true.mp h w (List.mem_of_getElem? hw)
  simpa using hne

theorem next_lf {cs cs' : Cs} {acts : List Act} (hnext : cs.next (chr '\n') = some (acts, cs')) :
    .done ∈ acts ∨ cs'.behindLine := by
  have hlength := fun n => @continues_eq_false "Content-Length" (chr '\n') rfl n
  have hcoding := fun n => @continues_eq_false "Transfer-Encoding" (chr '\n') rfl n
  have hchunked := fun n => @continues_eq_false "chunked" (chr '\n') rfl n
  have htoken : isToken (chr '\n') = false := rfl
  have hdigit : isDigit (chr '\n') = false := rfl
  have hspace : isSpace (chr '\n') = true := rfl
  have hblank : isBlank (chr '\n') = false := rfl
  have hxdigit : isXdigit (chr '\n') = false := rfl
  have hcolon : chr '\n' ≠ chr ':' := by decide
  have hhttp : chr '\n' ≠ chr 'H' := by decide
  have hcr : chr '\n' ≠ chr '\r' := by decide
  have hdot : chr '\n' ≠ chr '.' := by decide
  have hsp : chr '\n' ≠ chr ' ' := by decide
  cases cs with
  | http n =>
    -- in the name of the protocol there is no line feed
    have hword : (Mongrel2.bytes "TTP/")[n]? ≠ some (chr '\n') :=
      fun h => absurd (List.mem_of_getElem? h) (by decide)
    rw [Cs.next, if_neg hword] at hnext
    cases hnext
  | _ =>
    simp only [Cs.next, fieldNext, nameNext, valueNext, lengthBlankNext, codingBlankNext, hlength,
      hcoding, hchunked, htoken, hdigit, hspace, hblank, hcolon, hxdigit, hhttp, hcr, hdot, hsp,
      and_true, and_false, Bool.false_eq_true, if_true, if_false] at hnext
    try split_ifs at hnext
    all_goals
      first
      | (obtain ⟨rfl, rfl⟩ := Prod.mk.inj (Option.some.inj hnext)
         simp [Cs.behindLine])
      | cases hnext

/-- Where a header line may start. -/
theorem behindLine_of_walk {cs cs' : Cs} {xs : List Byte} (hwalk : cs.walk xs = some cs')
    (hline : xs.getLast? = some (chr '\n')) : cs'.behindLine := by
  obtain ⟨xs, rfl⟩ := List.getLast?_eq_some_iff.mp hline
  rw [walk_append] at hwalk
  obtain ⟨cs₁, -, hwalk⟩ := Option.bind_eq_some_iff.mp hwalk
  obtain ⟨⟨acts, cs₂⟩, hnext, hwalk⟩ := Option.bind_eq_some_iff.mp hwalk
  dsimp only at hwalk
  split_ifs at hwalk with hdone
  obtain rfl := Option.some.inj hwalk
  exact (next_lf hnext).resolve_left hdone

theorem continues_iff {word : String} {n : ℕ} {c : Byte} : continues word n c = true ↔
    ∃ w, (Mongrel2.bytes word)[n]? = some w ∧ downcase w = downcase c := by
  rw [continues, Option.any_eq_true]
  simp [sameCaseless]

/-- The two cases of a letter. -/
theorem eq_or_eq_of_downcase {c : Byte} {upper lower : Char} (hadd : chr upper + 32 = chr lower)
    (h : downcase c = chr lower) : c = chr upper ∨ c = chr lower := by
  rw [downcase] at h
  split_ifs at h
  · rw [← hadd] at h
    exact .inl ((UInt8.add_left_inj _).mp h)
  · exact .inr h

theorem walk_cons {cs cs' : Cs} {c : Byte} {acts : List Act} (hnext : cs.next c = some (acts, cs'))
    (hdone : .done ∉ acts) (xs : List Byte) : cs.walk (c :: xs) = cs'.walk xs := by
  rw [Cs.walk, hnext]
  exact if_neg hdone

/-- The name of the header from its third byte on. -/
theorem walk_contentLength (xs : List Byte) (n : ℕ) (hn : n + xs.length = 13)
    (hxs : ∀ i c, xs[i]? = some c → continues "Content-Length" (n + 1 + i) c = true) :
    Cs.walk (.contentLength n) xs = some (.contentLength 13) := by
  induction xs generalizing n with
  | nil =>
    obtain rfl : n = 13 := hn
    rfl
  | cons c xs ih =>
    rw [List.length_cons] at hn
    have hc : continues "Content-Length" (n + 1) c = true := hxs 0 c rfl
    have hcolon : ¬ (n = 13 ∧ c = chr ':') := by omega
    have hnext : Cs.next (.contentLength n) c = some ([], .contentLength (n + 1)) := by
      rw [Cs.next, if_neg hcolon, if_pos hc]
    rw [walk_cons hnext List.not_mem_nil]
    refine ih (n + 1) (by omega) fun i d hd => ?_
    have hcont := hxs (i + 1) d hd
    rw [show n + 1 + 1 + i = n + 1 + (i + 1) by omega]
    exact hcont

/-- Behind the end of a line the name leads to its state, or to an error. -/
theorem walk_name {cs cs' : Cs} (hcs : cs.behindLine) {name : List Byte}
    (hname : sameCaseless name (Mongrel2.bytes "Content-Length") = true)
    (hwalk : cs.walk name = some cs') : cs' = .contentLength 13 := by
  have hmap : name.map downcase = (Mongrel2.bytes "Content-Length").map downcase :=
    beq_iff_eq.mp hname
  have hlen : name.length = 14 := by
    rw [← List.length_map downcase, hmap]
    rfl
  have hcont : ∀ i c, name[i]? = some c → continues "Content-Length" i c = true := by
    intro i c hc
    have hget : (name.map downcase)[i]? = some (downcase c) := by rw [List.getElem?_map, hc]; rfl
    rw [hmap, List.getElem?_map] at hget
    obtain ⟨w, hw, heq⟩ := Option.map_eq_some_iff.mp hget
    exact continues_iff.mpr ⟨w, hw, heq⟩
  obtain ⟨c₀, c₁, rest, rfl⟩ : ∃ c₀ c₁ rest, name = c₀ :: c₁ :: rest := by
    match name, hlen with
    | c₀ :: c₁ :: rest, _ => exact ⟨c₀, c₁, rest, rfl⟩
  have hrest : Cs.walk (.contentLength 1) rest = some (.contentLength 13) := by
    refine walk_contentLength rest 1 ?_ fun i c hc => ?_
    · simp only [List.length_cons] at hlen
      omega
    · have h := hcont (i + 2) c hc
      rw [show 1 + 1 + i = i + 2 by omega]
      exact h
  obtain ⟨w₀, hw₀, h₀⟩ := continues_iff.mp (hcont 0 c₀ rfl)
  obtain ⟨w₁, hw₁, h₁⟩ := continues_iff.mp (hcont 1 c₁ rfl)
  obtain rfl : chr 'C' = w₀ := Option.some.inj hw₀
  obtain rfl : chr 'o' = w₁ := Option.some.inj hw₁
  -- the first two letters are enough to tell the states behind a line apart
  have hgoes : cs.walk (c₀ :: c₁ :: rest) = Cs.walk (.contentLength 1) rest ∨
      cs.walk (c₀ :: c₁ :: rest) = none := by
    rcases @eq_or_eq_of_downcase c₀ 'C' 'c' rfl h₀.symm with rfl | rfl
    all_goals
      rcases @eq_or_eq_of_downcase c₁ 'O' 'o' rfl h₁.symm with rfl | rfl
      all_goals
        rcases hcs with rfl | rfl | rfl | rfl | rfl
        · exact .inl rfl
        · exact .inl rfl
        · exact .inl rfl
        · exact .inr rfl
        · exact .inr rfl
  rcases hgoes with h | h
  · rw [hwalk, hrest] at h
    exact Option.some.inj h
  · rw [hwalk] at h
    cases h

/-- The states before the digits of a length. -/
def Cs.beforeLength (cs : Cs) : Prop :=
  cs = .lengthStart ∨ cs = .lengthLine ∨ cs = .lengthBlank ∨ cs = .lengthLineLF ∨
    cs = .lengthFirstLF

theorem space_cases {c : Byte} (h : isSpace c = true) :
    c = chr '\n' ∨ c = chr '\r' ∨ isBlank c = true := by
  simp only [isSpace, isBlank, chr, Bool.or_eq_true, Bool.and_eq_true, beq_iff_eq,
    decide_eq_true_eq, UInt8.le_iff_toNat_le, ← UInt8.toNat_inj] at *
  simp at *
  omega

theorem next_space {cs cs' : Cs} {c : Byte} {acts : List Act} (hcs : cs.beforeLength)
    (hc : isSpace c = true) (hnext : cs.next c = some (acts, cs')) :
    .done ∈ acts ∨ cs'.beforeLength := by
  rcases space_cases hc with rfl | rfl | hblank
  · rcases hcs with rfl | rfl | rfl | rfl | rfl
    all_goals
      obtain ⟨rfl, rfl⟩ := Prod.mk.inj (Option.some.inj hnext)
      simp [Cs.beforeLength]
  · rcases hcs with rfl | rfl | rfl | rfl | rfl
    all_goals
      obtain ⟨rfl, rfl⟩ := Prod.mk.inj (Option.some.inj hnext)
      simp [Cs.beforeLength]
  · have hlf : c ≠ chr '\n' := fun h => absurd (h ▸ hblank) (by decide)
    have hcr : c ≠ chr '\r' := fun h => absurd (h ▸ hblank) (by decide)
    rcases hcs with rfl | rfl | rfl | rfl | rfl
    all_goals
      simp only [Cs.next, lengthBlankNext, hlf, hcr, hc, hblank, if_true, if_false] at hnext
      obtain ⟨rfl, rfl⟩ := Prod.mk.inj (Option.some.inj hnext)
      simp [Cs.beforeLength]

/-- The blanks before the digits. -/
theorem beforeLength_of_walk {cs cs' : Cs} {xs : List Byte} (hcs : cs.beforeLength)
    (hxs : ∀ c ∈ xs, isSpace c = true) (hwalk : cs.walk xs = some cs') : cs'.beforeLength := by
  induction xs generalizing cs with
  | nil => exact Option.some.inj hwalk ▸ hcs
  | cons c xs ih =>
    obtain ⟨⟨acts, cs₁⟩, hnext, hwalk⟩ := Option.bind_eq_some_iff.mp hwalk
    dsimp only at hwalk
    split_ifs at hwalk with hdone
    exact ih ((next_space hcs (hxs c (List.mem_cons_self ..)) hnext).resolve_left hdone)
      (fun d hd => hxs d (List.mem_cons_of_mem _ hd)) hwalk

/-- The states among the digits of a length. -/
def Cs.inLength (cs : Cs) : Prop := cs = .length ∨ cs = .lengthOrField ∨ cs = .lengthOrValue

theorem digit_ne {c : Byte} (h : isDigit c = true) :
    c ≠ chr '\n' ∧ c ≠ chr '\r' ∧ isBlank c = false ∧ isSpace c = false := by
  simp only [isDigit, chr, Bool.and_eq_true, decide_eq_true_eq, UInt8.le_iff_toNat_le] at h
  simp only [isBlank, isSpace, chr, ne_eq, Bool.or_eq_false_iff, beq_eq_false_iff_ne,
    Bool.and_eq_false_iff, decide_eq_false_iff_not, UInt8.le_iff_toNat_le, ← UInt8.toNat_inj]
  simp at *
  omega

/-- The first digit is marked. -/
theorem take_digit {c : Byte} (hcs : client.cs.beforeLength) (hc : isDigit c = true)
    (ys : List Byte) : ∃ client' : Client, client.consume buffer fpc (c :: ys) =
      client'.consume buffer (fpc + 1) ys ∧ client'.cs.inLength ∧ client'.mark = fpc := by
  obtain ⟨hlf, hcr, hblank, hspace⟩ := digit_ne hc
  obtain ⟨acts, cs, hnext, hacts, hcs'⟩ : ∃ acts cs, client.cs.next c = some (acts, cs) ∧
      (acts = [.mark] ∨ acts = [.mark, .startField]) ∧ cs.inLength := by
    rcases hcs with hcs | hcs | hcs | hcs | hcs
    all_goals
      rw [hcs]
      simp only [Cs.next, lengthBlankNext, hlf, hcr, hc, hblank, hspace, if_true, if_false,
        Bool.false_eq_true]
      exact ⟨_, _, rfl, by simp, by simp [Cs.inLength]⟩
  refine ⟨client.take buffer fpc acts cs, ?_, hcs', ?_⟩
  · rw [Client.consume, hnext]
    refine if_neg ?_
    rcases hacts with rfl | rfl <;> simp
  · rcases hacts with rfl | rfl <;> rfl

/-- The other digits change nothing. -/
theorem consume_digit {ds : List Byte} (hcs : client.cs.inLength)
    (hds : ∀ c ∈ ds, isDigit c = true) (ys : List Byte) :
    client.consume buffer fpc (ds ++ ys) = client.consume buffer (fpc + ds.length) ys := by
  induction ds generalizing fpc with
  | nil => rfl
  | cons c ds ih =>
    have hc := hds c (List.mem_cons_self ..)
    obtain ⟨hlf, hcr, -, -⟩ := digit_ne hc
    have hnext : client.cs.next c = some ([], client.cs) := by
      rcases hcs with hcs | hcs | hcs
      all_goals
        rw [hcs]
        simp only [Cs.next, hlf, hcr, hc, if_true, if_false]
    have htake : client.take buffer fpc [] client.cs = client := rfl
    rw [List.cons_append, Client.consume, hnext]
    dsimp only
    rw [if_neg List.not_mem_nil, htake, ih fun d hd => hds d (List.mem_cons_of_mem _ hd),
      List.length_cons]
    congr 1
    omega

/-- The end of the line, where the length is written. -/
theorem consume_eol {eol : List Byte} (hcs : client.cs.inLength)
    (heol : eol = [chr '\n'] ∨ eol = crlf) (ys : List Byte) :
    client.consume buffer fpc (eol ++ ys) = ({ client with
      cs := .headers, contentLen := strtol 10 isDigit (buffer.drop client.mark) } : Client).consume
      buffer (fpc + eol.length) ys := by
  rcases heol with rfl | rfl
  · have hnext : client.cs.next (chr '\n') = some ([.writeContentLen], .headers) := by
      rcases hcs with hcs | hcs | hcs
      all_goals
        rw [hcs]
        rfl
    rw [List.singleton_append, Client.consume, hnext]
    rfl
  · have hnext : client.cs.next (chr '\r') = some ([.writeContentLen], .lineLF) := by
      rcases hcs with hcs | hcs | hcs
      all_goals
        rw [hcs]
        rfl
    rw [crlf, List.cons_append, Client.consume, hnext]
    rfl

/-- The length is kept as long as no other is written. -/
theorem contentLen_act {a : Act} (hlen : a ≠ .writeContentLen) (hsize : a ≠ .chunkSize) :
    (client.act buffer fpc a).contentLen = client.contentLen := by
  cases a with
  | writeContentLen => exact absurd rfl hlen
  | chunkSize => exact absurd rfl hsize
  | _ => rfl

theorem contentLen_take {acts : List Act} {cs : Cs} (hlen : .writeContentLen ∉ acts)
    (hsize : .chunkSize ∉ acts) : (client.take buffer fpc acts cs).contentLen = client.contentLen := by
  show (acts.foldl (fun client a => client.act buffer fpc a) client).contentLen = _
  induction acts generalizing client with
  | nil => rfl
  | cons a acts ih =>
    rw [List.foldl_cons, ih (fun h => hlen (List.mem_cons_of_mem _ h))
      fun h => hsize (List.mem_cons_of_mem _ h)]
    exact contentLen_act (fun h => hlen (h ▸ List.mem_cons_self ..))
      fun h => hsize (h ▸ List.mem_cons_self ..)

theorem contentLen_consume {xs : List Byte} (hstart : client.cs ≠ .start)
    (hsize : client.cs ≠ .chunkSize) (hlast : client.cs.writesLength xs = false) :
    (client.consume buffer fpc xs).1.contentLen = client.contentLen := by
  induction xs generalizing client fpc with
  | nil => rfl
  | cons c xs ih =>
    rw [Client.consume]
    rw [Cs.writesLength] at hlast
    cases hnext : client.cs.next c with
    | none => rfl
    | some r =>
      obtain ⟨acts, cs⟩ := r
      rw [hnext] at hlast
      obtain ⟨hstart', hsize', hacts⟩ := next_header hstart hsize hnext
      obtain ⟨hlen, hrest⟩ := Bool.or_eq_false_iff.mp hlast
      have hlen : .writeContentLen ∉ acts := of_decide_eq_false hlen
      dsimp only
      split_ifs with hdone
      · exact contentLen_take hlen hacts
      · have hrest : cs.writesLength xs = false := by simpa [hdone] using hrest
        exact (@ih (client.take buffer fpc acts cs) (fpc + 1) hstart' hsize' hrest).trans
          (contentLen_take hlen hacts)

/-- What is in the buffer before the digits. -/
def LengthHeader.lead (h : LengthHeader) : List Byte :=
  h.before ++ (h.name ++ chr ':' :: h.blanks)

theorem bytes_eq (h : LengthHeader) :
    h.bytes = h.lead ++ (h.digits ++ (h.eol ++ h.after)) := by
  simp [LengthHeader.bytes, LengthHeader.header, LengthHeader.lead]

/-- The machine comes to the digits. -/
theorem walk_to_digits (h : AcceptedLength) (client : Client) :
    ∃ cs, client.init.cs.walk h.lead = some cs ∧ cs.beforeLength := by
  have hpos : 0 < h.digits.length := List.length_pos_iff.mpr h.digits_ne_nil
  have hlt : h.lead.length < (h.before ++ h.toLengthHeader.header).length := by
    simp only [LengthHeader.lead, LengthHeader.header, List.length_append, List.length_cons]
    omega
  obtain ⟨cs, hwalk⟩ := @walk_of_lt client.init h.bytes 0 h.lead (h.digits ++ (h.eol ++ h.after))
    (by
      rw [← bytes_eq, Nat.zero_add]
      exact hlt.trans_le (h.accepted client).2)
  refine ⟨cs, hwalk, ?_⟩
  rw [LengthHeader.lead, walk_append] at hwalk
  obtain ⟨cs₁, hbefore, hwalk⟩ := Option.bind_eq_some_iff.mp hwalk
  rw [walk_append] at hwalk
  obtain ⟨cs₂, hname, hwalk⟩ := Option.bind_eq_some_iff.mp hwalk
  -- a line ends before the name, so the name is taken for that of a length
  obtain rfl := walk_name (behindLine_of_walk hbefore h.line) h.content_length hname
  have hcolon : Cs.next (.contentLength 13) (chr ':') = some ([.writeField], .lengthStart) := rfl
  rw [walk_cons hcolon (by simp)] at hwalk
  exact beforeLength_of_walk (.inl rfl) h.space hwalk

/-- **A `Content-Length` header** leaves what the parser makes of its digits. -/
theorem contentLen_lengthHeader (h : AcceptedLength) (client : Client) :
    (client.init.consume h.bytes 0 h.bytes).1.contentLen = toInt (min (2 ^ 63 - 1) h.number) := by
  have hnumber : strtol 10 isDigit (h.digits ++ (h.eol ++ h.after)) =
      toInt (min (2 ^ 63 - 1) h.number) := by
    have htake : (h.digits ++ (h.eol ++ h.after)).takeWhile isDigit = h.digits := by
      rw [List.takeWhile_append_of_pos h.digit]
      rcases h.eol_eq with heol | heol
      · rw [heol, List.singleton_append, List.takeWhile_cons_of_neg (by decide), List.append_nil]
      · rw [heol, crlf, List.cons_append, List.takeWhile_cons_of_neg (by decide), List.append_nil]
    rw [strtol, htake]
    rfl
  -- the number is read from the mark at the first digit
  have hdrop : h.bytes.drop h.lead.length = h.digits ++ (h.eol ++ h.after) := by
    rw [bytes_eq, List.drop_left]
  obtain ⟨cs, hwalk, hcs⟩ := walk_to_digits h client
  obtain ⟨client₁, hconsume, hcs₁⟩ :=
    @consume_walk client.init h.bytes 0 h.lead cs hwalk (h.digits ++ (h.eol ++ h.after))
  rw [← bytes_eq, Nat.zero_add] at hconsume
  rw [← hcs₁] at hcs
  obtain ⟨d, ds, hds⟩ := List.exists_cons_of_ne_nil h.digits_ne_nil
  have hdigit := h.digit
  rw [hds] at hdigit
  obtain ⟨client₂, hfirst, hcs₂, hmark⟩ := @take_digit client₁ h.bytes h.lead.length d hcs
    (hdigit d (List.mem_cons_self ..)) (ds ++ (h.eol ++ h.after))
  rw [hconsume, hds, List.cons_append, hfirst,
    consume_digit hcs₂ (fun c hc => hdigit c (List.mem_cons_of_mem _ hc)),
    consume_eol hcs₂ h.eol_eq, contentLen_consume (by simp) (by simp) h.last]
  show strtol 10 isDigit (h.bytes.drop client₂.mark) = _
  rw [hmark, hdrop, hnumber]

/-- A header's length is kept if and only if an `int` holds it. -/
theorem lengthHeader_faithful_iff (h : AcceptedLength) (client : Client) :
    h.Faithful client ↔ h.number < 2 ^ 31 := by
  have hpos : 0 < h.bytes.length := by
    have hdigits : 0 < h.digits.length := List.length_pos_iff.mpr h.digits_ne_nil
    rw [bytes_eq, List.length_append, List.length_append]
    omega
  obtain ⟨k, n, hexec⟩ := @Client.execute_init client h.bytes 0 hpos (Nat.zero_le _)
  rw [List.drop_zero] at hexec
  have hlen := contentLen_lengthHeader h client
  have hok := (h.accepted client).1
  constructor
  · rintro ⟨client', rc, hrun, hfaithful⟩
    rw [hexec, Option.some.injEq, Prod.mk.injEq] at hrun
    obtain ⟨rfl, rfl⟩ := hrun
    rcases hfaithful with hrc | herror | hnumber
    · exact absurd hrc (by simp)
    · exact absurd herror (by simp [Client.hasError, hok])
    · exact (toInt_min_eq_iff h.number).mp (hlen.symm.trans hnumber)
  · intro hlt
    exact ⟨_, _, hexec, .inr (.inr (hlen.trans ((toInt_min_eq_iff h.number).mpr hlt)))⟩

end

/-- **The numbers of a response** are those that its digits denote, and no chunk is taken for
the last by mistake, if and only if they are below 2³¹. -/
theorem faithful_iff (client : Client) :
    (∀ h : ChunkLine, h.Faithful client ↔ h.number < 2 ^ 31) ∧
      ∀ h : AcceptedLength, h.Faithful client ↔ h.number < 2 ^ 31 :=
  ⟨fun h => chunkLine_faithful_iff h client, fun h => lengthHeader_faithful_iff h client⟩

/-- The line of a chunk of 2 GiB. -/
def largeChunk : ChunkLine where
  before := []
  size := Mongrel2.bytes "80000000"
  after := crlf
  size_ne_nil := by decide
  xdigits := List.all_eq_true.mp rfl
  ends _ hc := Option.some.inj hc ▸ rfl
  accepted _ := rfl

/-- The header of a response of 4 GiB and five bytes. -/
def largeLength : AcceptedLength where
  before := Mongrel2.bytes "HTTP/1.1 200 OK\r\n"
  name := Mongrel2.bytes "Content-Length"
  blanks := [chr ' ']
  digits := Mongrel2.bytes "4294967301"
  eol := crlf
  after := crlf
  line := by decide
  content_length := by decide
  space _ hc := List.mem_singleton.mp hc ▸ rfl
  digits_ne_nil := by decide
  digit := List.all_eq_true.mp rfl
  eol_eq := .inr rfl
  last := rfl
  accepted _ := ⟨show Cs.done ≠ .error by decide, Nat.le_of_ble_eq_true rfl⟩

/-- The chunk is taken for the last, and the response for one of five bytes. -/
theorem not_faithful_large :
    ¬ largeChunk.Faithful ⟨.error, 0, 0, 0, false, false, 0, 0, 0, 0⟩ ∧
      ¬ largeLength.Faithful ⟨.error, 0, 0, 0, false, false, 0, 0, 0, 0⟩ := by
  rw [chunkLine_faithful_iff, lengthHeader_faithful_iff]
  decide

end HttpClientParser

end Mongrel2

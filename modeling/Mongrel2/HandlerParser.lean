/-
The parser of the messages that handlers publish (`handler_parser.rl`).

* `execute` — `HandlerParser_execute`, with the bytes that are readable behind the
  message;
* `Reads` — the format, `UUID SIZE:ID ID ID, BODY`;
* `execute_iff` — which messages are parsed, and as what;
* `exact_iff_countable` — the messages in the format are exactly those that are parsed,
  and as what they are, if and only if an `int` holds the size that is given and the
  sender's name.

Design notes: the machine has no end, so it goes on behind the message, up to where
nothing is readable.  A position is an offset from the start of the buffer.  A numeral is
read where a digit stands.
-/
import Mongrel2.Payload

namespace Mongrel2

open ByteStream (Byte)

/-- `blk2bstr`: no string if the length is negative or none for an allocation. -/
def blk2bstr (blk : List Byte) (len : ℤ) : Option (List Byte) :=
  if len < 0 ∨ (2 : ℤ) ^ 31 - 2 < len then none else some (blk.take len.toNat)

structure HandlerParser where
  /-- The offset of `body_start`. -/
  bodyStart : ℕ
  bodyLength : ℕ
  uuid : Option (List Byte)
  /-- The first `target_count` of them. -/
  targets : List ℕ
  targetMax : ℕ
  deriving DecidableEq

namespace HandlerParser

/-- The digits that `strtoul` reads in base 10, at a digit. -/
def numeral (xs : List Byte) : List Byte := xs.takeWhile Decimal.isDigit

/-- `strtoul` in base 10, at a digit. -/
def strtoul (xs : List Byte) : ℕ := min (Decimal.value (numeral xs)) (2 ^ 64 - 1)

/-! ### The machine -/

/-- The states 0 to 9 of the machine, in this order. -/
inductive Cs
  | error | start | uuid | lengthStart | length | targetsStart | comma | ident | space | done
  deriving DecidableEq, Repr

inductive Act
  | mark | uuid | length | targetsBegin | targetsEnd | identifier | done
  deriving DecidableEq, Repr

/-- `alpha | digit | '-'`. -/
def isUuid (c : Byte) : Bool :=
  c == 45 || 48 ≤ c && c ≤ 57 || 65 ≤ c && c ≤ 90 || 97 ≤ c && c ≤ 122

/-- The transitions; `none` is the one to the error state. -/
def Cs.next : Cs → Byte → Option (List Act × Cs)
  | .start, c => if isUuid c then some ([.mark], .uuid) else none
  | .uuid, c =>
    if c = 32 then some ([.uuid], .lengthStart) else if isUuid c then some ([], .uuid) else none
  | .lengthStart, c => if Decimal.isDigit c then some ([.mark], .length) else none
  | .length, c =>
    if c = 58 then some ([.length], .targetsStart)
    else if Decimal.isDigit c then some ([], .length) else none
  | .targetsStart, c =>
    if c = 44 then some ([.targetsBegin, .targetsEnd], .comma)
    else if Decimal.isDigit c then some ([.targetsBegin, .mark], .ident) else none
  | .comma, c => if c = 32 then some ([.done], .done) else none
  | .ident, c =>
    if c = 32 then some ([], .space)
    else if c = 44 then some ([.identifier, .targetsEnd], .comma)
    else if Decimal.isDigit c then some ([], .ident) else none
  | .space, c =>
    if c = 44 then some ([.identifier, .targetsEnd], .comma)
    else if Decimal.isDigit c then some ([.identifier, .mark], .ident) else none
  | .error, _ | .done, _ => none

/-- The local variables of `HandlerParser_execute`, and what it has written. -/
structure Exec where
  cs : Cs
  mark : ℕ
  targetsStart : ℕ
  targetExpectedLen : ℤ
  parser : HandlerParser
  deriving DecidableEq

/-- An action with `fpc` at the position; an error is a check that fails. -/
def act (mem : List Byte) (fpc : ℕ) (st : Exec) : Act → Except Exec Exec
  | .mark => .ok { st with mark := fpc }
  | .uuid =>
    .ok { st with parser.uuid := blk2bstr (mem.drop st.mark) (intOf (fpc - st.mark)) }
  | .length =>
    let st' := { st with targetExpectedLen := intOf (strtoul (mem.drop st.mark)) }
    if st.mark + (numeral (mem.drop st.mark)).length = fpc then .ok st' else .error st'
  | .targetsBegin => .ok { st with targetsStart := fpc }
  | .targetsEnd =>
    if (fpc - st.targetsStart : ℤ) = st.targetExpectedLen then .ok st else .error st
  | .identifier =>
    if st.parser.targets.length < st.parser.targetMax then
      .ok { st with parser.targets := st.parser.targets ++ [strtoul (mem.drop st.mark)] }
    else .error st
  | .done => .ok st

/-- `write exec noend` from the position on: the state and the position where it stops,
or the state where a check fails.  It is `none` if nothing is readable any more. -/
def exec (mem : List Byte) : ℕ → List Byte → Exec → Option (Except Exec (Exec × ℕ))
  | _, [], _ => none
  | p, c :: rest, st =>
    match st.cs.next c with
    | none => some (.ok ({ st with cs := .error }, p))
    | some (acts, cs) =>
      match acts.foldlM (act mem p) st with
      | .error st => some (.error st)
      | .ok st =>
        if .done ∈ acts then some (.ok ({ st with cs := cs }, p + 1))
        else exec mem (p + 1) rest { st with cs := cs }

/-- What is made of where the machine stops, for a message of the length. -/
def finish (len : ℕ) : Except Exec (Exec × ℕ) → ℤ × HandlerParser
  | .error st => (-1, st.parser)
  | .ok (st, p) =>
    if len < p then (-1, st.parser)
    else
      (if st.cs = .error then -1 else if st.cs = .done then 1 else 0,
        { st.parser with bodyStart := p, bodyLength := len - p })

/-- `HandlerParser_execute` on a message, where `behind` is readable behind it. -/
def execute (parser : HandlerParser) (msg behind : List Byte) : Option (ℤ × HandlerParser) :=
  (exec (msg ++ behind) 0 (msg ++ behind)
    ⟨.start, 0, 0, 0, { parser with targets := [], uuid := none }⟩).map (finish msg.length)

/-! ### The format -/

/-- `digit+`. -/
def IsNumeral (w : List Byte) : Prop := w ≠ [] ∧ ∀ c ∈ w, Decimal.isDigit c = true

/-- The text of digit runs that are separated by single spaces, with one more space behind
the last of them or not. -/
inductive IdentList : List (List Byte) → List Byte → Prop
  | nil : IdentList [] []
  | last {run} : IsNumeral run → IdentList [run] run
  | spaced {run} : IsNumeral run → IdentList [run] (run ++ [32])
  | cons {run run' runs list} : IsNumeral run → IdentList (run' :: runs) list →
      IdentList (run :: run' :: runs) (run ++ 32 :: list)

/-- The parts of a message. -/
structure Parts where
  uuid : List Byte
  size : List Byte
  runs : List (List Byte)
  list : List Byte
  body : List Byte

/-- The message is `UUID SIZE:LIST, BODY`. -/
structure Reads (msg : List Byte) (m : Parts) : Prop where
  uuid : m.uuid ≠ [] ∧ ∀ c ∈ m.uuid, isUuid c = true
  size : IsNumeral m.size
  list : IdentList m.runs m.list
  written : msg = m.uuid ++ 32 :: (m.size ++ 58 :: (m.list ++ 44 :: 32 :: m.body))

/-! ### Steps of the machine -/

section

variable {mem w xs rest : List Byte} {c : Byte} {p q : ℕ} {st st' : Exec} {r : HandlerParser}

/-- The machine ends in its final state at the position. -/
def Accepts (mem : List Byte) (p : ℕ) (xs : List Byte) (st : Exec) (r : HandlerParser) (q : ℕ) :
    Prop :=
  ∃ st', exec mem p xs st = some (.ok (st', q)) ∧ st'.cs = .done ∧ st'.parser = r

theorem not_accepts_nil : ¬Accepts mem p [] st r q := by
  rintro ⟨st', h, -⟩
  exact absurd h nofun

theorem not_accepts_of_next (h : st.cs.next c = none) : ¬Accepts mem p (c :: rest) st r q := by
  rintro ⟨st', hexec, hdone, -⟩
  rw [exec, h] at hexec
  obtain ⟨rfl, -⟩ := Prod.mk.inj (Except.ok.inj (Option.some.inj hexec))
  exact absurd hdone (by simp)

theorem not_accepts_of_error {acts : List Act} {cs : Cs} (h : st.cs.next c = some (acts, cs))
    (hacts : acts.foldlM (act mem p) st = .error st') : ¬Accepts mem p (c :: rest) st r q := by
  rintro ⟨st'', hexec, -⟩
  rw [exec, h] at hexec
  simp only [hacts] at hexec
  exact absurd (Option.some.inj hexec) nofun

theorem accepts_step (st : Exec) {acts : List Act} {cs : Cs} (h : st.cs.next c = some (acts, cs))
    (hacts : acts.foldlM (act mem p) st = .ok st') (hgo : .done ∉ acts) :
    Accepts mem p (c :: rest) st r q ↔ Accepts mem (p + 1) rest { st' with cs := cs } r q := by
  unfold Accepts
  rw [exec, h]
  simp only [hacts, if_neg hgo]

theorem foldlM_ok {a : Act} (h : act mem p st a = .ok st') (acts : List Act) :
    (a :: acts).foldlM (act mem p) st = acts.foldlM (act mem p) st' := by
  rw [List.foldlM_cons, h]
  rfl

theorem foldlM_error {a : Act} (h : act mem p st a = .error st') (acts : List Act) :
    (a :: acts).foldlM (act mem p) st = .error st' := by
  rw [List.foldlM_cons, h]
  rfl

/-- A state goes on over the bytes of a class. -/
theorem accepts_append (st : Exec) {P : Byte → Bool}
    (hloop : ∀ c, P c = true → st.cs.next c = some ([], st.cs)) (hw : ∀ c ∈ w, P c = true) :
    Accepts mem p (w ++ xs) st r q ↔ Accepts mem (p + w.length) xs st r q := by
  induction w generalizing p with
  | nil => rfl
  | cons c w ih =>
    rw [List.cons_append, accepts_step _ (hloop c (hw c (List.mem_cons_self ..))) rfl (by simp),
      ih fun d hd => hw d (List.mem_cons_of_mem c hd), List.length_cons, Nat.add_assoc,
      Nat.add_comm 1]

/-- What is accepted has a byte behind those of the class. -/
theorem split_of_accepts (st : Exec) {P : Byte → Bool}
    (hloop : ∀ c, P c = true → st.cs.next c = some ([], st.cs)) (h : Accepts mem p xs st r q) :
    ∃ w c rest, xs = w ++ c :: rest ∧ (∀ c ∈ w, P c = true) ∧ P c = false ∧
      Accepts mem (p + w.length) (c :: rest) st r q := by
  have hw : ∀ c ∈ xs.takeWhile P, P c = true := fun c hc => List.mem_takeWhile_imp hc
  have hxs := List.takeWhile_append_dropWhile (p := P) (l := xs)
  rw [← hxs, accepts_append st hloop hw] at h
  cases hrest : xs.dropWhile P with
  | nil =>
    rw [hrest] at h
    exact absurd h not_accepts_nil
  | cons c rest =>
    rw [hrest] at h hxs
    refine ⟨_, c, rest, hxs.symm, hw, ?_, h⟩
    have hhead := List.head_dropWhile_not P (l := xs) (by rw [hrest]; simp)
    simpa [hrest] using hhead

end

/-! ### Numerals -/

section

variable {w rest : List Byte} {c : Byte}

theorem numeral_append (hw : ∀ c ∈ w, Decimal.isDigit c = true) (hc : Decimal.isDigit c = false) :
    numeral (w ++ c :: rest) = w := by
  rw [numeral, List.takeWhile_append_of_pos hw, List.takeWhile_cons_of_neg (by simp [hc]),
    List.append_nil]

theorem numeral_self (hw : ∀ c ∈ w, Decimal.isDigit c = true) : numeral w = w :=
  List.takeWhile_eq_self_iff.mpr hw

theorem strtoul_append (hw : ∀ c ∈ w, Decimal.isDigit c = true) (hc : Decimal.isDigit c = false) :
    strtoul (w ++ c :: rest) = strtoul w := by
  rw [strtoul, strtoul, numeral_append hw hc, numeral_self hw]

/-- Two words of a class before bytes that are not of it. -/
theorem word_inj {P : Byte → Bool} {a b xs ys : List Byte} {c d : Byte} (ha : ∀ c ∈ a, P c = true)
    (hb : ∀ c ∈ b, P c = true) (hc : P c = false) (hd : P d = false)
    (h : a ++ c :: xs = b ++ d :: ys) : a = b ∧ c = d ∧ xs = ys := by
  have htake := congrArg (List.takeWhile P) h
  rw [List.takeWhile_append_of_pos ha, List.takeWhile_append_of_pos hb,
    List.takeWhile_cons_of_neg (by simp [hc]), List.takeWhile_cons_of_neg (by simp [hd]),
    List.append_nil, List.append_nil] at htake
  subst htake
  exact ⟨rfl, List.cons.inj (List.append_cancel_left h)⟩

end

/-! ### The list of identifiers -/

section

variable {mem xs rest body : List Byte} {c : Byte} {cs : Cs} {p q m t : ℕ} {n : ℤ}
  {s r : HandlerParser}

/-- The parser with one more target. -/
def addTarget (s : HandlerParser) (id : ℕ) : HandlerParser :=
  { s with targets := s.targets ++ [id] }

theorem ident_loop (c : Byte) (hc : Decimal.isDigit c = true) :
    Cs.ident.next c = some ([], .ident) := by
  have hspace : c ≠ 32 := by rintro rfl; exact absurd hc (by decide)
  have hcomma : c ≠ 44 := by rintro rfl; exact absurd hc (by decide)
  rw [Cs.next, if_neg hspace, if_neg hcomma, if_pos hc]

/-- Behind the comma of the list. -/
theorem accepts_comma_iff :
    Accepts mem p xs ⟨.comma, m, t, n, s⟩ r q ↔ (∃ body, xs = 32 :: body) ∧ r = s ∧ q = p + 1 := by
  cases xs with
  | nil => exact iff_of_false not_accepts_nil fun h => absurd h.1 (by simp)
  | cons c rest =>
    by_cases hc : c = 32
    · subst hc
      constructor
      · rintro ⟨st', hexec, -, rfl⟩
        obtain ⟨rfl, rfl⟩ := Prod.mk.inj (Except.ok.inj (Option.some.inj hexec))
        exact ⟨⟨rest, rfl⟩, rfl, rfl⟩
      · rintro ⟨-, rfl, rfl⟩
        exact ⟨_, rfl, rfl, rfl⟩
    · refine iff_of_false (not_accepts_of_next ?_) ?_
      · rw [Cs.next, if_neg hc]
      · rintro ⟨⟨body, h⟩, -⟩
        exact hc (List.cons.inj h).1

/-- The comma behind the last identifier: there has to be room for it, and the list has
to be as long as was said. -/
theorem accepts_last_iff (hcs : cs = .ident ∨ cs = .space) :
    Accepts mem p (44 :: rest) ⟨cs, m, t, n, s⟩ r q ↔
      s.targets.length < s.targetMax ∧ (p - t : ℤ) = n ∧ (∃ body, rest = 32 :: body) ∧
        r = s.addTarget (strtoul (mem.drop m)) ∧ q = p + 2 := by
  have hnext : cs.next 44 = some ([.identifier, .targetsEnd], .comma) := by
    rcases hcs with rfl | rfl <;> rfl
  by_cases hroom : s.targets.length < s.targetMax
  · have hident : act mem p ⟨cs, m, t, n, s⟩ .identifier =
        .ok ⟨cs, m, t, n, s.addTarget (strtoul (mem.drop m))⟩ := if_pos hroom
    by_cases hsize : (p - t : ℤ) = n
    · have hend : act mem p ⟨cs, m, t, n, s.addTarget (strtoul (mem.drop m))⟩ .targetsEnd =
          .ok ⟨cs, m, t, n, s.addTarget (strtoul (mem.drop m))⟩ := if_pos hsize
      rw [accepts_step _ hnext ((foldlM_ok hident _).trans (foldlM_ok hend [])) (by simp)]
      simp only [hroom, hsize, true_and]
      exact accepts_comma_iff
    · have hend : act mem p ⟨cs, m, t, n, s.addTarget (strtoul (mem.drop m))⟩ .targetsEnd =
          .error ⟨cs, m, t, n, s.addTarget (strtoul (mem.drop m))⟩ := if_neg hsize
      have hacts := (foldlM_ok hident [.targetsEnd]).trans (foldlM_error hend [])
      exact iff_of_false (not_accepts_of_error hnext hacts) fun h => hsize h.2.1
  · have hident : act mem p ⟨cs, m, t, n, s⟩ .identifier = .error ⟨cs, m, t, n, s⟩ := if_neg hroom
    exact iff_of_false (not_accepts_of_error hnext (foldlM_error hident _)) fun h => hroom h.1

/-- The first digit behind a space: the identifier before it is added, and one more is
begun. -/
theorem accepts_digit_iff (hc : Decimal.isDigit c = true) :
    Accepts mem p (c :: rest) ⟨.space, m, t, n, s⟩ r q ↔
      s.targets.length < s.targetMax ∧
        Accepts mem p (c :: rest) ⟨.ident, p, t, n, s.addTarget (strtoul (mem.drop m))⟩ r q := by
  have hcomma : c ≠ 44 := by rintro rfl; exact absurd hc (by decide)
  have hnext : Cs.space.next c = some ([.identifier, .mark], .ident) := by
    rw [Cs.next, if_neg hcomma, if_pos hc]
  by_cases hroom : s.targets.length < s.targetMax
  · have hident : act mem p ⟨.space, m, t, n, s⟩ .identifier =
        .ok ⟨.space, m, t, n, s.addTarget (strtoul (mem.drop m))⟩ := if_pos hroom
    rw [accepts_step _ hnext (foldlM_ok hident [.mark]) (by simp),
      accepts_step ⟨.ident, _, _, _, _⟩ (ident_loop c hc) rfl (by simp)]
    exact (and_iff_right hroom).symm
  · have hident : act mem p ⟨.space, m, t, n, s⟩ .identifier = .error ⟨.space, m, t, n, s⟩ :=
      if_neg hroom
    exact iff_of_false (not_accepts_of_error hnext (foldlM_error hident _)) fun h => hroom h.1

/-- The list of identifiers that begins at the position `p`, where the targets begin at
`t` and the list is said to be `n` bytes long. -/
structure Listed (p t : ℕ) (n : ℤ) (s : HandlerParser) (xs : List Byte) (r : HandlerParser)
    (q : ℕ) (runs : List (List Byte)) (list : List Byte) : Prop where
  idents : IdentList runs list
  written : ∃ body, xs = list ++ 44 :: 32 :: body
  room : s.targets.length + runs.length ≤ s.targetMax
  size : ((p + list.length : ℕ) - t : ℤ) = n
  result : r = { s with targets := s.targets ++ runs.map strtoul }
  stop : q = p + list.length + 2

theorem listed_last {run l : List Byte} (hl : IdentList [run] l) (hroom : s.targets.length < s.targetMax)
    (hsize : ((p + l.length : ℕ) - t : ℤ) = n) :
    Listed p t n s (l ++ 44 :: 32 :: body) (s.addTarget (strtoul run)) (p + l.length + 2) [run] l :=
  ⟨hl, ⟨body, rfl⟩, hroom, hsize, rfl, rfl⟩

/-- One more identifier before a list. -/
theorem Listed.cons {run : List Byte} {runs : List (List Byte)} {list : List Byte}
    (hrun : IsNumeral run) (hne : runs ≠ [])
    (h : Listed (p + run.length + 1) t n (s.addTarget (strtoul run)) xs r q runs list) :
    Listed p t n s (run ++ 32 :: xs) r q (run :: runs) (run ++ 32 :: list) := by
  obtain ⟨body, hbody⟩ := h.written
  have hlen : (run ++ 32 :: list).length = run.length + 1 + list.length := by
    rw [List.length_append, List.length_cons]
    omega
  refine ⟨?_, ⟨body, by rw [hbody, List.append_assoc, List.cons_append]⟩, ?_, ?_, ?_, ?_⟩
  · obtain ⟨run', runs, rfl⟩ := List.exists_cons_of_ne_nil hne
    exact .cons hrun h.idents
  · have hroom := h.room
    rw [addTarget, List.length_append, List.length_singleton] at hroom
    rw [List.length_cons]
    dsimp only at hroom
    omega
  · rw [← h.size, hlen]
    omega
  · rw [h.result]
    simp [addTarget]
  · rw [h.stop, hlen]
    omega

theorem not_digit_space : Decimal.isDigit 32 = false := by decide

theorem not_digit_comma : Decimal.isDigit 44 = false := by decide

/-- Over the digits of an identifier. -/
theorem accepts_ident_append {w : List Byte} (hw : ∀ c ∈ w, Decimal.isDigit c = true) :
    Accepts mem p (w ++ xs) ⟨.ident, m, t, n, s⟩ r q ↔
      Accepts mem (p + w.length) xs ⟨.ident, m, t, n, s⟩ r q :=
  accepts_append ⟨.ident, m, t, n, s⟩ ident_loop hw

theorem accepts_space_step :
    Accepts mem p (32 :: rest) ⟨.ident, m, t, n, s⟩ r q ↔
      Accepts mem (p + 1) rest ⟨.space, m, t, n, s⟩ r q :=
  accepts_step ⟨.ident, m, t, n, s⟩ rfl rfl List.not_mem_nil

theorem drop_add_of_drop {a b : List Byte} (h : mem.drop p = a ++ b) :
    mem.drop (p + a.length) = b := by
  rw [← List.drop_drop, h, List.drop_left]

/-- A list of identifiers from its first digit on. -/
theorem listed_of_accepts (hdigit : ∃ c rest, xs = c :: rest ∧ Decimal.isDigit c = true)
    (hmem : mem.drop p = xs) (h : Accepts mem p xs ⟨.ident, p, t, n, s⟩ r q) :
    ∃ run runs list, Listed p t n s xs r q (run :: runs) list := by
  induction hlen : xs.length using Nat.strong_induction_on generalizing xs p s with
  | _ len ih =>
    obtain ⟨w, c, rest, rfl, hw, hc, h⟩ :=
      split_of_accepts ⟨.ident, p, t, n, s⟩ ident_loop h
    have hrun : IsNumeral w := by
      refine ⟨?_, hw⟩
      rintro rfl
      obtain ⟨d, rest', hd, hdigit⟩ := hdigit
      rw [List.nil_append] at hd
      rw [(List.cons.inj hd).1, hdigit] at hc
      exact absurd hc (by simp)
    have hid : strtoul (mem.drop p) = strtoul w := by rw [hmem, strtoul_append hw hc]
    have hrest : mem.drop (p + w.length + 1) = rest := by
      rw [← List.drop_drop, drop_add_of_drop hmem, List.drop_one, List.tail_cons]
    by_cases hcomma : c = 44
    · -- the list ends with the digits
      subst hcomma
      obtain ⟨hroom, hsize, ⟨body, rfl⟩, rfl, rfl⟩ := (accepts_last_iff (.inl rfl)).mp h
      rw [hid]
      exact ⟨w, [], w, listed_last (.last hrun) hroom (by omega)⟩
    by_cases hspace : c = 32
    · subst hspace
      rw [accepts_space_step] at h
      cases rest with
      | nil => exact absurd h not_accepts_nil
      | cons d rest =>
        by_cases hcomma : d = 44
        · -- it ends with the space
          subst hcomma
          obtain ⟨hroom, hsize, ⟨body, rfl⟩, rfl, rfl⟩ := (accepts_last_iff (.inr rfl)).mp h
          rw [hid]
          have hl : (w ++ [32]).length = w.length + 1 := by simp
          have hlisted : Listed p t n s (w ++ [32] ++ 44 :: 32 :: body) (s.addTarget (strtoul w))
              (p + (w ++ [32]).length + 2) [w] (w ++ [32]) :=
            listed_last (.spaced hrun) hroom (by omega)
          refine ⟨w, [], w ++ [32], ?_⟩
          rw [hl] at hlisted
          simpa [Nat.add_assoc] using hlisted
        by_cases hd : Decimal.isDigit d = true
        · -- one more identifier
          obtain ⟨hroom, h⟩ := (accepts_digit_iff hd).mp h
          rw [hid] at h
          obtain ⟨run, runs, list, hlisted⟩ := ih (d :: rest).length
            (by rw [← hlen, List.length_append, List.length_cons (a := (32 : Byte))]; omega)
            ⟨d, rest, rfl, hd⟩ hrest h rfl
          exact ⟨w, run :: runs, _, hlisted.cons hrun (by simp)⟩
        · refine absurd h (not_accepts_of_next ?_)
          rw [Cs.next, if_neg hcomma, if_neg hd]
    · refine absurd h (not_accepts_of_next ?_)
      rw [Cs.next, if_neg hspace, if_neg hcomma, if_neg (by simp [hc])]

theorem exists_digit {run rest : List Byte} (hrun : IsNumeral run) :
    ∃ c xs, run ++ rest = c :: xs ∧ Decimal.isDigit c = true := by
  obtain ⟨c, xs, rfl⟩ := List.exists_cons_of_ne_nil hrun.1
  exact ⟨c, xs ++ rest, rfl, hrun.2 c (List.mem_cons_self ..)⟩

/-- A list begins with a digit. -/
theorem IdentList.head {runs : List (List Byte)} {list : List Byte} (h : IdentList runs list)
    (rest : List Byte) (hne : runs ≠ []) : ∃ c xs, list ++ rest = c :: xs ∧ Decimal.isDigit c = true := by
  cases h with
  | nil => exact absurd rfl hne
  | last hrun => exact exists_digit hrun
  | spaced hrun | cons hrun =>
    rw [List.append_assoc]
    exact exists_digit hrun

theorem accepts_of_listed {runs : List (List Byte)} {list : List Byte}
    (h : Listed p t n s xs r q runs list) (hne : runs ≠ []) (hmem : mem.drop p = xs) :
    Accepts mem p xs ⟨.ident, p, t, n, s⟩ r q := by
  obtain ⟨hlist, ⟨body, rfl⟩, hroom, hsize, rfl, rfl⟩ := h
  induction hlist generalizing p s with
  | nil => exact absurd rfl hne
  | @last run hrun =>
    have hid : strtoul (mem.drop p) = strtoul run := by
      rw [hmem, strtoul_append hrun.2 not_digit_comma]
    rw [accepts_ident_append hrun.2, accepts_last_iff (.inl rfl), hid]
    exact ⟨hroom, by omega, ⟨body, rfl⟩, rfl, rfl⟩
  | @spaced run hrun =>
    have hassoc : run ++ [32] ++ 44 :: 32 :: body = run ++ 32 :: 44 :: 32 :: body := by simp
    have hid : strtoul (mem.drop p) = strtoul run := by
      rw [hmem, hassoc, strtoul_append hrun.2 not_digit_space]
    rw [hassoc, accepts_ident_append hrun.2, accepts_space_step, accepts_last_iff (.inr rfl), hid]
    rw [List.length_append, List.length_singleton] at hsize ⊢
    exact ⟨hroom, by omega, ⟨body, rfl⟩, rfl, rfl⟩
  | @cons run run' runs list hrun hlist ih =>
    have hassoc : run ++ 32 :: list ++ 44 :: 32 :: body = run ++ 32 :: (list ++ 44 :: 32 :: body) := by
      simp
    have hid : strtoul (mem.drop p) = strtoul run := by
      rw [hmem, hassoc, strtoul_append hrun.2 not_digit_space]
    have hlen : (run ++ 32 :: list).length = run.length + 1 + list.length := by
      rw [List.length_append, List.length_cons]
      omega
    rw [hassoc] at hmem
    have hrest : mem.drop (p + run.length + 1) = list ++ 44 :: 32 :: body := by
      rw [← List.drop_drop, drop_add_of_drop hmem, List.drop_one, List.tail_cons]
    simp only [List.length_cons] at hroom
    obtain ⟨d, rest, hd, hdigit⟩ := hlist.head (44 :: 32 :: body) (by simp)
    have hstart := ih (p := p + run.length + 1) (s := s.addTarget (strtoul run)) (by simp)
      (by simp only [addTarget, List.length_append, List.length_cons, List.length_nil]; omega)
      (by omega) hrest
    have hresult : { s.addTarget (strtoul run) with
        targets := (s.addTarget (strtoul run)).targets ++ (run' :: runs).map strtoul } =
        { s with targets := s.targets ++ (run :: run' :: runs).map strtoul } := by
      simp [addTarget]
    rw [hassoc, accepts_ident_append hrun.2, accepts_space_step, hd, accepts_digit_iff hdigit, hid]
    rw [hd, hresult, show p + run.length + 1 + list.length + 2 = p + (run ++ 32 :: list).length + 2 by
      rw [hlen]; omega] at hstart
    exact ⟨by omega, hstart⟩

/-- A list begins with its comma, or with the first digit of the first identifier. -/
theorem Listed.head {runs list} (h : Listed p p n s (c :: rest) r q runs list) :
    (c = 44 ∧ runs = [] ∧ list = []) ∨ (Decimal.isDigit c = true ∧ runs ≠ []) := by
  obtain ⟨body, hbody⟩ := h.written
  by_cases hne : runs = []
  · subst hne
    cases h.idents
    exact .inl ⟨(List.cons.inj hbody).1, rfl, rfl⟩
  · obtain ⟨d, xs, hd, hdigit⟩ := h.idents.head (44 :: 32 :: body) hne
    rw [hd] at hbody
    rw [← (List.cons.inj hbody).1] at hdigit
    exact .inr ⟨hdigit, hne⟩

/-- The list is empty. -/
theorem accepts_empty_iff (hs : s.targets.length ≤ s.targetMax) :
    Accepts mem p (44 :: rest) ⟨.targetsStart, m, t, n, s⟩ r q ↔
      ∃ runs list, Listed p p n s (44 :: rest) r q runs list := by
  have hbegin : act mem p ⟨.targetsStart, m, t, n, s⟩ .targetsBegin =
      .ok ⟨.targetsStart, m, p, n, s⟩ := rfl
  have hlist : ∀ {runs list}, Listed p p n s (44 :: rest) r q runs list → runs = [] ∧ list = [] := by
    intro runs list h
    rcases h.head with ⟨-, hnil⟩ | ⟨hdigit, -⟩
    · exact hnil
    · exact absurd hdigit (by decide)
  by_cases hsize : (p - p : ℤ) = n
  · have hend : act mem p ⟨.targetsStart, m, p, n, s⟩ .targetsEnd =
        .ok ⟨.targetsStart, m, p, n, s⟩ := if_pos hsize
    rw [accepts_step _ rfl ((foldlM_ok hbegin _).trans (foldlM_ok hend [])) (by simp),
      accepts_comma_iff]
    constructor
    · rintro ⟨⟨body, rfl⟩, rfl, rfl⟩
      exact ⟨[], [], .nil, ⟨body, rfl⟩, hs, hsize, by simp, rfl⟩
    · rintro ⟨runs, list, h⟩
      obtain ⟨rfl, rfl⟩ := hlist h
      obtain ⟨body, hbody⟩ := h.written
      exact ⟨⟨body, (List.cons.inj hbody).2⟩, by rw [h.result]; simp, h.stop⟩
  · have hend : act mem p ⟨.targetsStart, m, p, n, s⟩ .targetsEnd =
        .error ⟨.targetsStart, m, p, n, s⟩ := if_neg hsize
    refine iff_of_false (not_accepts_of_error rfl
      ((foldlM_ok hbegin _).trans (foldlM_error hend []))) ?_
    rintro ⟨runs, list, h⟩
    obtain ⟨rfl, rfl⟩ := hlist h
    exact hsize (by simpa using h.size)

/-- **A list of identifiers** and what stands behind it, from where the targets begin. -/
theorem accepts_targets_iff (hs : s.targets.length ≤ s.targetMax) (hmem : mem.drop p = xs) :
    Accepts mem p xs ⟨.targetsStart, m, t, n, s⟩ r q ↔
      ∃ runs list, Listed p p n s xs r q runs list := by
  cases xs with
  | nil =>
    refine iff_of_false not_accepts_nil ?_
    rintro ⟨runs, list, h⟩
    obtain ⟨body, hbody⟩ := h.written
    exact absurd hbody (by simp)
  | cons c rest =>
    by_cases hcomma : c = 44
    · subst hcomma
      exact accepts_empty_iff hs
    · by_cases hc : Decimal.isDigit c = true
      · have hnext : Cs.targetsStart.next c = some ([.targetsBegin, .mark], .ident) := by
          rw [Cs.next, if_neg hcomma, if_pos hc]
        rw [accepts_step _ hnext rfl (by simp),
          ← accepts_step ⟨.ident, _, _, _, _⟩ (ident_loop c hc) rfl List.not_mem_nil]
        constructor
        · intro h
          obtain ⟨run, runs, list, h⟩ := listed_of_accepts ⟨c, rest, rfl, hc⟩ hmem h
          exact ⟨run :: runs, list, h⟩
        · rintro ⟨runs, list, h⟩
          rcases h.head with ⟨hhead, -⟩ | ⟨-, hne⟩
          · exact absurd hhead hcomma
          · exact accepts_of_listed h hne hmem
      · -- neither a comma nor a digit: the machine has no step, and nothing is listed
        refine iff_of_false (not_accepts_of_next ?_) ?_
        · rw [Cs.next, if_neg hcomma, if_neg hc]
        · rintro ⟨runs, list, h⟩
          rcases h.head with ⟨hhead, -⟩ | ⟨hdigit, -⟩
          · exact hcomma hhead
          · exact hc hdigit

end

/-! ### The whole message -/

section

variable {mem xs : List Byte} {p q m t : ℕ} {n : ℤ} {s r : HandlerParser}

/-- A word of a class, up to a separator: nothing else may stand behind it. -/
theorem accepts_word_iff {P : Byte → Bool} {cs : Cs} {sep : Byte}
    (hloop : ∀ c, P c = true → cs.next c = some ([], cs))
    (helse : ∀ c, P c = false → c ≠ sep → cs.next c = none) :
    Accepts mem p xs ⟨cs, m, t, n, s⟩ r q ↔
      ∃ w rest, xs = w ++ sep :: rest ∧ (∀ c ∈ w, P c = true) ∧
        Accepts mem (p + w.length) (sep :: rest) ⟨cs, m, t, n, s⟩ r q := by
  constructor
  · intro h
    obtain ⟨w, c, rest, rfl, hw, hc, h⟩ := split_of_accepts ⟨cs, m, t, n, s⟩ hloop h
    by_cases heq : c = sep
    · exact ⟨w, rest, by rw [heq], hw, heq ▸ h⟩
    · exact absurd h (not_accepts_of_next (helse c hc heq))
  · rintro ⟨w, rest, rfl, hw, h⟩
    exact (accepts_append ⟨cs, m, t, n, s⟩ hloop hw).mpr h

/-- A word is begun with a byte of its class. -/
theorem accepts_begin_iff {P : Byte → Bool} {cs cs' : Cs}
    (hloop : ∀ c, P c = true → cs'.next c = some ([], cs'))
    (hbegin : ∀ c, cs.next c = if P c then some ([.mark], cs') else none) :
    Accepts mem p xs ⟨cs, m, t, n, s⟩ r q ↔
      (∃ c rest, xs = c :: rest ∧ P c = true) ∧ Accepts mem p xs ⟨cs', p, t, n, s⟩ r q := by
  cases xs with
  | nil => exact iff_of_false not_accepts_nil fun h => absurd h.1 (by simp)
  | cons c rest =>
    by_cases hc : P c = true
    · have hnext : cs.next c = some ([.mark], cs') := by rw [hbegin, if_pos hc]
      rw [accepts_step ⟨cs, m, t, n, s⟩ hnext rfl (by simp),
        ← accepts_step ⟨cs', _, _, _, _⟩ (hloop c hc) rfl List.not_mem_nil]
      exact (and_iff_right ⟨c, rest, rfl, hc⟩).symm
    · refine iff_of_false (not_accepts_of_next ?_) ?_
      · rw [hbegin, if_neg hc]
      · rintro ⟨⟨d, rest', h, hd⟩, -⟩
        exact hc ((List.cons.inj h).1 ▸ hd)

theorem ne_nil_of_begin {P : Byte → Bool} {w rest : List Byte} {sep : Byte} (hsep : P sep = false)
    (h : ∃ c xs, w ++ sep :: rest = c :: xs ∧ P c = true) : w ≠ [] := by
  rintro rfl
  obtain ⟨c, xs, hcons, hc⟩ := h
  rw [← (List.cons.inj hcons).1, hsep] at hc
  exact absurd hc (by simp)

theorem begin_of_ne_nil {P : Byte → Bool} {w : List Byte} (hne : w ≠ [])
    (hw : ∀ c ∈ w, P c = true) (rest : List Byte) : ∃ c xs, w ++ rest = c :: xs ∧ P c = true := by
  obtain ⟨c, xs, rfl⟩ := List.exists_cons_of_ne_nil hne
  exact ⟨c, xs ++ rest, rfl, hw c (List.mem_cons_self ..)⟩

theorem length_loop (c : Byte) (hc : Decimal.isDigit c = true) :
    Cs.length.next c = some ([], .length) := by
  have hcolon : c ≠ 58 := by rintro rfl; exact absurd hc (by decide)
  rw [Cs.next, if_neg hcolon, if_pos hc]

/-- **The size of the list**, up to its colon. -/
theorem accepts_length_iff (hmem : mem.drop p = xs) :
    Accepts mem p xs ⟨.lengthStart, m, t, n, s⟩ r q ↔
      ∃ size rest, xs = size ++ 58 :: rest ∧ IsNumeral size ∧
        Accepts mem (p + size.length + 1) rest
          ⟨.targetsStart, p, t, intOf (strtoul size), s⟩ r q := by
  have hcolon : Decimal.isDigit 58 = false := by decide
  have hstep : ∀ {size rest : List Byte}, xs = size ++ 58 :: rest →
      (∀ c ∈ size, Decimal.isDigit c = true) →
      (Accepts mem (p + size.length) (58 :: rest) ⟨.length, p, t, n, s⟩ r q ↔
        Accepts mem (p + size.length + 1) rest
          ⟨.targetsStart, p, t, intOf (strtoul size), s⟩ r q) := by
    intro size rest hxs hsize
    have hlength : act mem (p + size.length) ⟨.length, p, t, n, s⟩ .length =
        .ok ⟨.length, p, t, intOf (strtoul size), s⟩ := by
      simp only [act, hmem, hxs, numeral_append hsize hcolon, strtoul_append hsize hcolon, if_true]
    generalize intOf (strtoul size) = len at hlength ⊢
    exact accepts_step ⟨.length, p, t, n, s⟩ rfl (foldlM_ok hlength []) (by simp)
  rw [accepts_begin_iff length_loop fun c => rfl,
    accepts_word_iff length_loop fun c hc hne => by
      rw [Cs.next, if_neg hne, if_neg (by simp [hc])]]
  constructor
  · rintro ⟨hbegin, size, rest, hxs, hsize, h⟩
    rw [hxs] at hbegin
    exact ⟨size, rest, hxs, ⟨ne_nil_of_begin hcolon hbegin, hsize⟩, (hstep hxs hsize).mp h⟩
  · rintro ⟨size, rest, hxs, hsize, h⟩
    refine ⟨?_, size, rest, hxs, hsize.2, (hstep hxs hsize.2).mpr h⟩
    rw [hxs]
    exact begin_of_ne_nil hsize.1 hsize.2 _

theorem uuid_loop (c : Byte) (hc : isUuid c = true) : Cs.uuid.next c = some ([], .uuid) := by
  have hspace : c ≠ 32 := by rintro rfl; exact absurd hc (by decide)
  rw [Cs.next, if_neg hspace, if_pos hc]

theorem bmod_toNat_le (n m : ℕ) : (Int.bmod n m).toNat ≤ n := by
  have hle : n % m ≤ n := Nat.mod_le n m
  have hcast : (n : ℤ) % (m : ℤ) = ((n % m : ℕ) : ℤ) := (Int.natCast_mod n m).symm
  rw [Int.bmod_def, hcast]
  split <;> omega

/-- A length that is passed as an `int` does not grow. -/
theorem intOf_toNat_le (n : ℕ) : (intOf n).toNat ≤ n := bmod_toNat_le n _

theorem blk2bstr_append (w rest : List Byte) :
    blk2bstr (w ++ rest) (intOf w.length) = blk2bstr w (intOf w.length) := by
  unfold blk2bstr
  rw [List.take_append_of_le_length (intOf_toNat_le _)]

/-- **The sender's name**, up to its space. -/
theorem accepts_uuid_iff :
    Accepts mem 0 mem ⟨.start, 0, 0, 0, s⟩ r q ↔
      ∃ uuid rest, mem = uuid ++ 32 :: rest ∧ uuid ≠ [] ∧ (∀ c ∈ uuid, isUuid c = true) ∧
        Accepts mem (uuid.length + 1) rest
          ⟨.lengthStart, 0, 0, 0, { s with uuid := blk2bstr uuid (intOf uuid.length) }⟩ r q := by
  have hspace : isUuid 32 = false := by decide
  have hstep : ∀ {uuid rest : List Byte}, mem = uuid ++ 32 :: rest →
      (Accepts mem (0 + uuid.length) (32 :: rest) ⟨.uuid, 0, 0, 0, s⟩ r q ↔
        Accepts mem (uuid.length + 1) rest
          ⟨.lengthStart, 0, 0, 0, { s with uuid := blk2bstr uuid (intOf uuid.length) }⟩ r q) := by
    intro uuid rest hmem
    have huuid : act mem uuid.length ⟨.uuid, 0, 0, 0, s⟩ .uuid =
        .ok ⟨.uuid, 0, 0, 0, { s with uuid := blk2bstr uuid (intOf uuid.length) }⟩ := by
      simp only [act, List.drop_zero, Nat.sub_zero, hmem, blk2bstr_append]
    rw [Nat.zero_add]
    exact accepts_step ⟨.uuid, 0, 0, 0, s⟩ rfl (foldlM_ok huuid []) (by simp)
  rw [accepts_begin_iff uuid_loop fun c => rfl,
    accepts_word_iff uuid_loop fun c hc hne => by
      rw [Cs.next, if_neg hne, if_neg (by simp [hc])]]
  constructor
  · rintro ⟨hbegin, uuid, rest, hmem, huuid, h⟩
    have hne : uuid ≠ [] := by
      refine @ne_nil_of_begin isUuid uuid rest 32 hspace ?_
      rwa [← hmem]
    exact ⟨uuid, rest, hmem, hne, huuid, (hstep hmem).mp h⟩
  · rintro ⟨uuid, rest, hmem, hne, huuid, h⟩
    refine ⟨?_, uuid, rest, hmem, huuid, (hstep hmem).mpr h⟩
    have hbegin := begin_of_ne_nil hne huuid (32 :: rest)
    rwa [← hmem] at hbegin

/-- What the parser makes of the parts of a message. -/
def parsed (s : HandlerParser) (m : Parts) : HandlerParser :=
  { s with uuid := blk2bstr m.uuid (intOf m.uuid.length), targets := m.runs.map strtoul }

/-- What is accepted is in the format, with room for the list and its size as an `int`. -/
theorem accepts_iff (hs : s.targets = []) :
    Accepts mem 0 mem ⟨.start, 0, 0, 0, s⟩ r q ↔
      ∃ m, Reads mem m ∧ m.runs.length ≤ s.targetMax ∧ (m.list.length : ℤ) = intOf (strtoul m.size) ∧
        r = s.parsed m ∧ q + m.body.length = mem.length := by
  have hlen : ∀ (uuid size list body : List Byte),
      (uuid ++ 32 :: (size ++ 58 :: (list ++ 44 :: 32 :: body))).length =
        uuid.length + 1 + size.length + 1 + list.length + 2 + body.length := by
    intro uuid size list body
    simp only [List.length_append, List.length_cons]
    omega
  rw [accepts_uuid_iff]
  constructor
  · rintro ⟨uuid, rest, hmem, hne, huuid, h⟩
    have hrest : mem.drop (uuid.length + 1) = rest := by
      rw [← List.drop_drop, hmem, List.drop_left, List.drop_one, List.tail_cons]
    obtain ⟨size, rest', rfl, hsize, h⟩ := (accepts_length_iff hrest).mp h
    have hrest' : mem.drop (uuid.length + 1 + size.length + 1) = rest' := by
      rw [← List.drop_drop, drop_add_of_drop hrest, List.drop_one, List.tail_cons]
    obtain ⟨runs, list, hl⟩ := (accepts_targets_iff (by simp [hs]) hrest').mp h
    obtain ⟨hidents, ⟨body, rfl⟩, hroom, hint, rfl, rfl⟩ := hl
    refine ⟨⟨uuid, size, runs, list, body⟩, ⟨⟨hne, huuid⟩, hsize, hidents, hmem⟩, ?_, ?_, ?_, ?_⟩
    · simpa [hs] using hroom
    · rw [← hint]
      push_cast
      omega
    · simp [parsed, hs]
    · rw [hmem, hlen]
  · rintro ⟨⟨uuid, size, runs, list, body⟩, ⟨⟨hne, huuid⟩, hsize, hidents, hmem⟩, hroom, hint, rfl, hq⟩
    dsimp only at hne huuid hsize hidents hmem hroom hint hq
    have hrest : mem.drop (uuid.length + 1) = size ++ 58 :: (list ++ 44 :: 32 :: body) := by
      rw [← List.drop_drop, hmem, List.drop_left, List.drop_one, List.tail_cons]
    have hrest' : mem.drop (uuid.length + 1 + size.length + 1) = list ++ 44 :: 32 :: body := by
      rw [← List.drop_drop, drop_add_of_drop hrest, List.drop_one, List.tail_cons]
    rw [hmem, hlen] at hq
    refine ⟨uuid, _, hmem, hne, huuid, (accepts_length_iff hrest).mpr ⟨size, _, rfl, hsize, ?_⟩⟩
    refine (accepts_targets_iff (by simp [hs]) hrest').mpr
      ⟨runs, list, hidents, ⟨body, rfl⟩, by simpa [hs] using hroom, ?_, by simp [parsed, hs], by omega⟩
    rw [← hint]
    push_cast
    omega

/-- What stands before the body. -/
def Parts.head (m : Parts) : List Byte := m.uuid ++ 32 :: (m.size ++ 58 :: (m.list ++ [44, 32]))

theorem head_append (m : Parts) (body : List Byte) :
    m.uuid ++ 32 :: (m.size ++ 58 :: (m.list ++ 44 :: 32 :: body)) = m.head ++ body := by
  simp [Parts.head]

theorem split_head {msg behind : List Byte} {m : Parts}
    (h : msg ++ behind = m.uuid ++ 32 :: (m.size ++ 58 :: (m.list ++ 44 :: 32 :: m.body)))
    (hlen : q + m.body.length = (msg ++ behind).length) (hq : q ≤ msg.length) :
    msg = m.uuid ++ 32 :: (m.size ++ 58 :: (m.list ++ 44 :: 32 :: msg.drop q)) := by
  rw [head_append] at h ⊢
  have hhead : m.head.length = q := by
    rw [h, List.length_append] at hlen
    omega
  have htake : msg.take q = m.head := by
    have htake : (msg ++ behind).take q = msg.take q := List.take_append_of_le_length hq
    rw [← htake, h, ← hhead, List.take_left]
  rw [← htake, List.take_append_drop]

theorem finish_eq_one_iff {len : ℕ} {stop : Except Exec (Exec × ℕ)} {r : HandlerParser} :
    finish len stop = (1, r) ↔
      ∃ st q, stop = .ok (st, q) ∧ st.cs = .done ∧ q ≤ len ∧
        r = { st.parser with bodyStart := q, bodyLength := len - q } := by
  have hrc : ∀ {s : HandlerParser}, ((-1 : ℤ), s) ≠ (1, r) := fun h =>
    absurd (Prod.mk.inj h).1 (by decide)
  cases stop with
  | error st => exact iff_of_false hrc (by simp)
  | ok x =>
    obtain ⟨st, q⟩ := x
    rw [finish]
    split
    case isTrue hq =>
      refine iff_of_false hrc ?_
      rintro ⟨st', q', hst, -, hle, -⟩
      obtain ⟨-, rfl⟩ := Prod.mk.inj (Except.ok.inj hst)
      omega
    case isFalse hq =>
      constructor
      · intro h
        obtain ⟨hone, rfl⟩ := Prod.mk.inj h
        refine ⟨st, q, rfl, ?_, by omega, rfl⟩
        split_ifs at hone <;> first | assumption | omega
      · rintro ⟨st', q', hst, hdone, -, rfl⟩
        obtain ⟨rfl, rfl⟩ := Prod.mk.inj (Except.ok.inj hst)
        rw [if_neg (by simp [hdone]), if_pos hdone]

/-- **Which messages are parsed, and as what**: those in the format with a list that is as
long as the size says as an `int`, and with no more identifiers than there is room for.
What is readable behind the message has no part in it. -/
theorem execute_iff {parser r : HandlerParser} {msg behind : List Byte} :
    parser.execute msg behind = some (1, r) ↔
      ∃ m, Reads msg m ∧ m.runs.length ≤ parser.targetMax ∧
        (m.list.length : ℤ) = intOf (strtoul m.size) ∧
        r = { parser.parsed m with
          bodyStart := msg.length - m.body.length, bodyLength := m.body.length } := by
  have haccepts : ∀ {s q}, _ := fun {s q} =>
    @accepts_iff (msg ++ behind) q { parser with targets := [], uuid := none } s rfl
  rw [execute, Option.map_eq_some_iff]
  constructor
  · rintro ⟨stop, hexec, hfinish⟩
    obtain ⟨st, q, rfl, hdone, hq, rfl⟩ := finish_eq_one_iff.mp hfinish
    obtain ⟨m, hreads, hroom, hint, hparser, hlen⟩ := haccepts.mp ⟨st, hexec, hdone, rfl⟩
    -- the machine ends within the message, so what is behind it is the end of the body
    have hhead := split_head hreads.written hlen hq
    refine ⟨{ m with body := msg.drop q }, ⟨hreads.uuid, hreads.size, hreads.list, hhead⟩, hroom,
      hint, ?_⟩
    rw [hparser, List.length_drop, Nat.sub_sub_self hq]
    rfl
  · rintro ⟨m, hreads, hroom, hint, rfl⟩
    have hmem : Reads (msg ++ behind) { m with body := m.body ++ behind } :=
      ⟨hreads.uuid, hreads.size, hreads.list, by rw [hreads.written]; simp⟩
    have hle : m.body.length ≤ msg.length := by
      rw [hreads.written, head_append, List.length_append]
      exact Nat.le_add_left ..
    obtain ⟨st, hexec, hdone, hparser⟩ := (haccepts (q := msg.length - m.body.length)).mpr
      ⟨_, hmem, hroom, hint, rfl, by simp only [List.length_append]; omega⟩
    refine ⟨_, hexec, finish_eq_one_iff.mpr ⟨st, _, rfl, hdone, Nat.sub_le .., ?_⟩⟩
    rw [hparser, Nat.sub_sub_self hle]
    rfl

example : execute ⟨0, 0, none, [], 128⟩ (bytes "5a-9 5:12 34, Another body.") [] =
    some (1, ⟨14, 13, some (bytes "5a-9"), [12, 34], 128⟩) := by decide

end

/-! ### The parts of a message are determined by it -/

theorem not_identList_nil {runs : List (List Byte)} (h : IdentList runs []) : runs = [] := by
  by_contra hne
  obtain ⟨c, xs, hcons, hc⟩ := h.head [44] hne
  rw [List.nil_append] at hcons
  rw [← (List.cons.inj hcons).1] at hc
  exact absurd hc (by decide)

theorem IdentList.chars {runs : List (List Byte)} {list : List Byte} (h : IdentList runs list) :
    ∀ c ∈ list, (Decimal.isDigit c || c == 32) = true := by
  have hrun : ∀ {run}, IsNumeral run → ∀ c ∈ run, (Decimal.isDigit c || c == 32) = true :=
    fun hrun c hc => by rw [hrun.2 c hc, Bool.true_or]
  induction h with
  | nil => exact fun c hc => absurd hc List.not_mem_nil
  | last h => exact hrun h
  | spaced h => exact List.forall_mem_append.mpr ⟨hrun h, List.forall_mem_singleton.mpr rfl⟩
  | cons h _ ih => exact List.forall_mem_append.mpr ⟨hrun h, List.forall_mem_cons.mpr ⟨rfl, ih⟩⟩

/-- The first run of a list, and what is behind it. -/
theorem IdentList.first {runs : List (List Byte)} {list : List Byte} (h : IdentList runs list)
    (hne : runs ≠ []) : ∃ run rest runs', runs = run :: runs' ∧ IsNumeral run ∧
      (list = run ∧ runs' = [] ∨ list = run ++ 32 :: rest ∧ IdentList runs' rest) := by
  cases h with
  | nil => exact absurd rfl hne
  | last h => exact ⟨list, [], [], rfl, h, .inl ⟨rfl, rfl⟩⟩
  | @spaced run h => exact ⟨run, [], [], rfl, h, .inr ⟨rfl, .nil⟩⟩
  | @cons run run' runs list h hrest => exact ⟨run, list, _, rfl, h, .inr ⟨rfl, hrest⟩⟩

theorem IdentList.unique {runs runs' : List (List Byte)} {list : List Byte}
    (h : IdentList runs list) (h' : IdentList runs' list) : runs = runs' := by
  have hplain : ∀ {a b rest : List Byte}, IsNumeral a → a ≠ b ++ 32 :: rest := by
    rintro a b rest ha rfl
    exact absurd (ha.2 32 (by simp)) (by decide)
  induction runs generalizing runs' list with
  | nil =>
    cases h
    exact (not_identList_nil h').symm
  | cons run runs ih =>
    obtain ⟨run₁, rest, runs₁, heq, hrun, hlist⟩ := h.first (List.cons_ne_nil run runs)
    obtain ⟨rfl, rfl⟩ := List.cons.inj heq
    have hne : runs' ≠ [] := by
      rintro rfl
      cases h'
      rcases hlist with ⟨hnil, -⟩ | ⟨hnil, -⟩
      · exact hrun.1 hnil.symm
      · exact absurd hnil (by simp)
    obtain ⟨run', rest', runs', rfl, hrun', hlist'⟩ := h'.first hne
    rcases hlist with ⟨rfl, rfl⟩ | ⟨rfl, hrest⟩
    · rcases hlist' with ⟨rfl, rfl⟩ | ⟨heq, -⟩
      · rfl
      · exact absurd heq (hplain hrun)
    · rcases hlist' with ⟨heq, -⟩ | ⟨heq, hrest'⟩
      · exact absurd heq.symm (hplain hrun')
      · obtain ⟨rfl, -, rfl⟩ := word_inj hrun.2 hrun'.2 not_digit_space not_digit_space heq
        rw [ih hrest hrest']

theorem Reads.unique {msg : List Byte} {m m' : Parts} (h : Reads msg m) (h' : Reads msg m') :
    m = m' := by
  obtain ⟨uuid, size, runs, list, body⟩ := m
  obtain ⟨uuid', size', runs', list', body'⟩ := m'
  obtain ⟨⟨-, huuid⟩, ⟨-, hsize⟩, hlist, hmsg⟩ := h
  obtain ⟨⟨-, huuid'⟩, ⟨-, hsize'⟩, hlist', hmsg'⟩ := h'
  dsimp only at huuid hsize hlist hmsg huuid' hsize' hlist' hmsg'
  obtain ⟨rfl, -, hrest⟩ := word_inj huuid huuid' (by decide) (by decide) (hmsg.symm.trans hmsg')
  obtain ⟨rfl, -, hrest⟩ := word_inj hsize hsize' (by decide) (by decide) hrest
  obtain ⟨rfl, -, hrest⟩ := word_inj hlist.chars hlist'.chars (by decide) (by decide) hrest
  obtain rfl := hlist.unique hlist'
  rw [(List.cons.inj hrest).2]

/-! ### Messages that are parsed as what they are -/

/-- The list is as long as the size says, with no more identifiers than there is room for. -/
def Admitted (targetMax : ℕ) (m : Parts) : Prop :=
  Decimal.value m.size = m.list.length ∧ m.runs.length ≤ targetMax

/-- The message is accepted exactly if it is admitted in the format, and then it is parsed
as its parts. -/
structure Exact (parser : HandlerParser) (msg : List Byte) : Prop where
  accepted : ∀ behind, (∃ r, parser.execute msg behind = some (1, r)) ↔
    ∃ m, Reads msg m ∧ Admitted parser.targetMax m
  parsed : ∀ behind r m, parser.execute msg behind = some (1, r) → Reads msg m →
    r.uuid = some m.uuid ∧
      r.targets = m.runs.map (fun run => min (Decimal.value run) (2 ^ 64 - 1)) ∧
      msg.drop r.bodyStart = m.body ∧ r.bodyLength = m.body.length

/-- The size is one that an `int` can say, or is wrong either way, and the sender's name is
no longer than a string can be. -/
structure Countable (targetMax : ℕ) (m : Parts) : Prop where
  size : m.runs.length ≤ targetMax → Decimal.value m.size < 2 ^ 31 ∨
    (Decimal.value m.size ≠ m.list.length ∧ intOf (strtoul m.size) ≠ m.list.length)
  uuid : Admitted targetMax m → m.uuid.length < 2 ^ 31 - 1

theorem strtoul_eq {w : List Byte} (hw : ∀ c ∈ w, Decimal.isDigit c = true) :
    strtoul w = min (Decimal.value w) (2 ^ 64 - 1) := by rw [strtoul, numeral_self hw]

theorem intOf_strtoul {w : List Byte} (hw : ∀ c ∈ w, Decimal.isDigit c = true)
    (h : Decimal.value w < 2 ^ 31) : intOf (strtoul w) = Decimal.value w := by
  rw [strtoul_eq hw, Nat.min_eq_left (by omega)]
  exact intOf_of_lt h

theorem intOf_lt (n : ℕ) : intOf n < 2 ^ 31 := by
  have hlt := Int.bmod_lt (x := n) (m := 2 ^ 32) (by decide)
  exact lt_of_lt_of_le hlt (by decide)

theorem blk2bstr_eq_some_iff {w : List Byte} :
    blk2bstr w (intOf w.length) = some w ↔ w.length < 2 ^ 31 - 1 := by
  constructor
  · intro h
    unfold blk2bstr at h
    split at h
    · exact absurd h nofun
    case isFalse hint =>
      have hlen := congrArg List.length (Option.some.inj h)
      rw [List.length_take] at hlen
      generalize intOf w.length = n at hint hlen
      omega
  · intro h
    rw [intOf_of_lt (by omega), blk2bstr, if_neg (by omega), Int.toNat_natCast, List.take_length]

theorem IdentList.numerals {runs : List (List Byte)} {list : List Byte} (h : IdentList runs list) :
    ∀ run ∈ runs, ∀ c ∈ run, Decimal.isDigit c = true := by
  induction h with
  | nil => exact fun run hr => absurd hr List.not_mem_nil
  | last h | spaced h => exact List.forall_mem_singleton.mpr h.2
  | cons h _ ih => exact List.forall_mem_cons.mpr ⟨h.2, ih⟩

theorem targets_parsed (s : HandlerParser) (m : Parts) (start len : ℕ) :
    ({ s.parsed m with bodyStart := start, bodyLength := len } : HandlerParser).targets =
      m.runs.map strtoul := by
  simp only [parsed]

theorem uuid_parsed (s : HandlerParser) (m : Parts) (start len : ℕ) :
    ({ s.parsed m with bodyStart := start, bodyLength := len } : HandlerParser).uuid =
      blk2bstr m.uuid (intOf m.uuid.length) := by
  simp only [parsed]

section

variable {parser : HandlerParser} {msg : List Byte} {m : Parts}

/-- A message is accepted if there is room for its identifiers and the size is that of the
list, as an `int`. -/
theorem accepted_iff (hm : Reads msg m) (behind : List Byte) :
    (∃ r, parser.execute msg behind = some (1, r)) ↔
      m.runs.length ≤ parser.targetMax ∧ (m.list.length : ℤ) = intOf (strtoul m.size) := by
  constructor
  · rintro ⟨r, h⟩
    obtain ⟨m', hm', hroom, hint, -⟩ := execute_iff.mp h
    obtain rfl := hm.unique hm'
    exact ⟨hroom, hint⟩
  · rintro ⟨hroom, hint⟩
    exact ⟨_, execute_iff.mpr ⟨m, hm, hroom, hint, rfl⟩⟩

/-- Where messages are parsed exactly, the `int` of the size says what the digits say. -/
theorem Exact.size_iff (h : Exact parser msg) (hm : Reads msg m)
    (hroom : m.runs.length ≤ parser.targetMax) :
    (m.list.length : ℤ) = intOf (strtoul m.size) ↔ Decimal.value m.size = m.list.length := by
  have hiff := (accepted_iff hm []).symm.trans (h.accepted [])
  constructor
  · intro hint
    obtain ⟨m', hm', hvalue, -⟩ := hiff.mp ⟨hroom, hint⟩
    obtain rfl := hm.unique hm'
    exact hvalue
  · intro hvalue
    exact (hiff.mpr ⟨m, hm, hvalue, hroom⟩).2

/-- So it does where the sizes fit. -/
theorem Countable.size_iff (h : Countable parser.targetMax m) (hm : Reads msg m)
    (hroom : m.runs.length ≤ parser.targetMax) :
    (m.list.length : ℤ) = intOf (strtoul m.size) ↔ Decimal.value m.size = m.list.length := by
  rcases h.size hroom with hlt | ⟨hvalue, hint⟩
  · rw [intOf_strtoul hm.size.2 hlt, Nat.cast_inj]
    exact eq_comm
  · exact iff_of_false (fun heq => hint heq.symm) hvalue

theorem Exact.countable (h : Exact parser msg) (hm : Reads msg m) :
    Countable parser.targetMax m := by
  constructor
  · intro hroom
    rw [or_iff_not_imp_left]
    intro hlarge
    have hne : (m.list.length : ℤ) ≠ intOf (strtoul m.size) := by
      intro hint
      have hvalue := (h.size_iff hm hroom).mp hint
      have hlt := intOf_lt (strtoul m.size)
      rw [← hint] at hlt
      omega
    exact ⟨fun hvalue => hne ((h.size_iff hm hroom).mpr hvalue), hne.symm⟩
  · rintro ⟨hvalue, hroom⟩
    obtain ⟨r, hr⟩ := (accepted_iff hm []).mpr ⟨hroom, (h.size_iff hm hroom).mpr hvalue⟩
    have huuid := (h.parsed [] r m hr hm).1
    obtain ⟨m', hm', -, -, hparsed⟩ := execute_iff.mp hr
    obtain rfl := hm.unique hm'
    rw [hparsed, uuid_parsed] at huuid
    exact blk2bstr_eq_some_iff.mp huuid

end

/-- **Messages are parsed exactly** as long as the sizes they are about fit. -/
theorem exact_iff_countable (parser : HandlerParser) (msg : List Byte) :
    Exact parser msg ↔ ∀ m, Reads msg m → Countable parser.targetMax m := by
  constructor
  · exact fun h m hm => h.countable hm
  · intro h
    constructor
    · intro behind
      constructor
      · rintro ⟨r, hr⟩
        obtain ⟨m, hm, hroom, hint, -⟩ := execute_iff.mp hr
        exact ⟨m, hm, ((h m hm).size_iff hm hroom).mp hint, hroom⟩
      · rintro ⟨m, hm, hvalue, hroom⟩
        exact (accepted_iff hm behind).mpr ⟨hroom, ((h m hm).size_iff hm hroom).mpr hvalue⟩
    · intro behind r m hr hm
      obtain ⟨m', hm', hroom, hint, rfl⟩ := execute_iff.mp hr
      obtain rfl := hm.unique hm'
      have huuid := (h m hm).uuid ⟨((h m hm).size_iff hm hroom).mp hint, hroom⟩
      refine ⟨?_, ?_, ?_, rfl⟩
      · rw [uuid_parsed]
        exact blk2bstr_eq_some_iff.mpr huuid
      · exact List.map_congr_left fun run hrun => strtoul_eq (hm.list.numerals run hrun)
      · have hlen : msg.length - m.body.length = m.head.length := by
          rw [hm.written, head_append, List.length_append, Nat.add_sub_cancel]
        change msg.drop (msg.length - m.body.length) = m.body
        rw [hlen, hm.written, head_append, List.drop_left]

/-- A size that is 2 as an `int` only. -/
theorem not_exact_wrapped : ¬Exact ⟨0, 0, none, [], 128⟩ (bytes "a 4294967298:12, ") := by
  intro h
  have hreads : Reads (bytes "a 4294967298:12, ")
      ⟨bytes "a", bytes "4294967298", [bytes "12"], bytes "12", []⟩ := by
    have hrun : IsNumeral (bytes "12") := ⟨by decide, List.all_iff_forall_prop.mp (by decide)⟩
    have hsize : IsNumeral (bytes "4294967298") :=
      ⟨by decide, List.all_iff_forall_prop.mp (by decide)⟩
    exact ⟨⟨by decide, List.all_iff_forall_prop.mp (by decide)⟩, hsize, .last hrun, by decide⟩
  have hsize := ((exact_iff_countable _ _).mp h _ hreads).size (by decide)
  exact absurd hsize (by decide)

end HandlerParser

end Mongrel2

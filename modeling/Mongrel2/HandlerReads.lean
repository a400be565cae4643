/-
What `HandlerParser_execute` reads of the memory that a message is in.

* `readsFrom` — the positions that the machine and its actions look at;
* `Unfinished` — the messages that stop before the space behind their list, with nothing
  in them that ends the machine;
* `readsWithin_iff` — the parser stays within a message if and only if it is not one of
  those.

Design notes: a position is an offset from the start of the message.  `strtoul` looks at
the digits and at the byte behind them; `blk2bstr` looks at what it copies.
-/
import Mongrel2.HandlerParser

namespace Mongrel2

open ByteStream (Byte)

namespace HandlerParser

/-! ### What is read -/

/-- The positions of a numeral, and the one that ends it. -/
def numeralReads (mem : List Byte) (mark : ℕ) : List ℕ :=
  List.range' mark ((numeral (mem.drop mark)).length + 1)

/-- The positions that `blk2bstr` copies, up to `fpc`. -/
def uuidReads (mem : List Byte) (mark fpc : ℕ) : List ℕ :=
  List.range' mark ((blk2bstr (mem.drop mark) (intOf (fpc - mark))).elim 0 List.length)

/-- The positions that an action looks at, with `fpc` at the position. -/
def actReads (mem : List Byte) (fpc : ℕ) (st : Exec) : Act → List ℕ
  | .uuid => uuidReads mem st.mark fpc
  | .length => numeralReads mem st.mark
  | .identifier =>
    if st.parser.targets.length < st.parser.targetMax then numeralReads mem st.mark else []
  | .mark | .targetsBegin | .targetsEnd | .done => []

/-- Of actions in a row, up to the first check that fails. -/
def actsReads (mem : List Byte) (fpc : ℕ) : Exec → List Act → List ℕ
  | _, [] => []
  | st, a :: acts =>
    actReads mem fpc st a ++
      match act mem fpc st a with
      | .error _ => []
      | .ok st => actsReads mem fpc st acts

/-- The positions that `exec` looks at.  Where nothing is readable any more, it looks at
that position. -/
def readsFrom (mem : List Byte) : ℕ → List Byte → Exec → List ℕ
  | p, [], _ => [p]
  | p, c :: rest, st =>
    p ::
      match st.cs.next c with
      | none => []
      | some (acts, cs) =>
        actsReads mem p st acts ++
          match acts.foldlM (act mem p) st with
          | .error _ => []
          | .ok st => if .done ∈ acts then [] else readsFrom mem (p + 1) rest { st with cs := cs }

/-- The positions that `HandlerParser_execute` looks at. -/
def reads (parser : HandlerParser) (msg behind : List Byte) : List ℕ :=
  readsFrom (msg ++ behind) 0 (msg ++ behind)
    ⟨.start, 0, 0, 0, { parser with targets := [], uuid := none }⟩

/-- The parser stays within the message, whatever stands behind it. -/
def ReadsWithin (parser : HandlerParser) (msg : List Byte) : Prop :=
  ∀ behind, ∀ i ∈ parser.reads msg behind, i < msg.length

/-! ### Messages that stop too early -/

/-- A sender's name. -/
def IsName (w : List Byte) : Prop := w ≠ [] ∧ ∀ c ∈ w, isUuid c = true

/-- The messages that stop before the space behind their list, without a byte before that
on which the machine stops, for a parser with room for that many targets.  The last
identifier of a list counts only when something stands behind it. -/
inductive Unfinished (targetMax : ℕ) : List Byte → Prop
  | uuid {w} : (∀ c ∈ w, isUuid c = true) → Unfinished targetMax w
  | size {uuid size} : IsName uuid → (∀ c ∈ size, Decimal.isDigit c = true) →
      Unfinished targetMax (uuid ++ 32 :: size)
  | list {uuid size runs list} : IsName uuid → IsNumeral size → IdentList runs list →
      runs.length ≤ targetMax + 1 → Unfinished targetMax (uuid ++ 32 :: (size ++ 58 :: list))
  | comma {uuid size runs list} : IsName uuid → IsNumeral size → IdentList runs list →
      runs.length ≤ targetMax → (list.length : ℤ) = intOf (strtoul size) →
      Unfinished targetMax (uuid ++ 32 :: (size ++ 58 :: (list ++ [44])))

/-! ### Lists of identifiers from their end -/

/-- Runs with a space behind each of them. -/
def spaced (runs : List (List Byte)) : List Byte := runs.flatMap (· ++ [32])

theorem spaced_cons (run : List Byte) (runs : List (List Byte)) :
    spaced (run :: runs) = run ++ 32 :: spaced runs := by
  simp [spaced]

theorem spaced_append (runs : List (List Byte)) (run : List Byte) :
    spaced (runs ++ [run]) = spaced runs ++ (run ++ [32]) := by
  simp [spaced]

/-- A list is a row of runs with a space behind each, or behind each but the last. -/
theorem identList_spaced {runs : List (List Byte)} (h : ∀ run ∈ runs, IsNumeral run) :
    IdentList runs (spaced runs) := by
  induction runs with
  | nil => exact .nil
  | cons run runs ih =>
    obtain ⟨hrun, hruns⟩ := List.forall_mem_cons.mp h
    cases runs with
    | nil =>
      rw [spaced_cons]
      exact .spaced hrun
    | cons run' runs =>
      rw [spaced_cons]
      exact .cons hrun (ih hruns)

theorem identList_last {runs : List (List Byte)} {last : List Byte}
    (h : ∀ run ∈ runs, IsNumeral run) (hlast : IsNumeral last) :
    IdentList (runs ++ [last]) (spaced runs ++ last) := by
  induction runs with
  | nil => exact .last hlast
  | cons run runs ih =>
    obtain ⟨hrun, hruns⟩ := List.forall_mem_cons.mp h
    rw [spaced_cons, List.cons_append, List.append_assoc, List.cons_append]
    have hrest := ih hruns
    cases runs with
    | nil => exact .cons hrun hrest
    | cons run' runs => exact .cons hrun hrest

/-! ### Where the machine is, inside a message -/

/-- What stands before the list of a message, and the length that is expected of the list. -/
inductive Head : List Byte → ℤ → Prop
  | mk {uuid size} : IsName uuid → IsNumeral size →
      Head (uuid ++ 32 :: (size ++ [58])) (intOf (strtoul size))

/-- The number of targets that a parser has, and of those that it has room for. -/
def Holds (s : HandlerParser) (targetMax count : ℕ) : Prop :=
  s.targetMax = targetMax ∧ s.targets.length = count

/-- Where the machine is when it has read the bytes and has not stopped. -/
inductive Inside (targetMax : ℕ) : List Byte → Exec → Prop
  | start {m t n s} : Holds s targetMax 0 → Inside targetMax [] ⟨.start, m, t, n, s⟩
  | uuid {w t n s} : IsName w → Holds s targetMax 0 → Inside targetMax w ⟨.uuid, 0, t, n, s⟩
  | lengthStart {uuid m t n s} : IsName uuid → Holds s targetMax 0 →
      Inside targetMax (uuid ++ [32]) ⟨.lengthStart, m, t, n, s⟩
  | length {uuid size t n s} : IsName uuid → IsNumeral size → Holds s targetMax 0 →
      Inside targetMax (uuid ++ 32 :: size) ⟨.length, uuid.length + 1, t, n, s⟩
  | targetsStart {head m t n s} : Head head n → Holds s targetMax 0 →
      Inside targetMax head ⟨.targetsStart, m, t, n, s⟩
  | ident {head runs run n s} : Head head n → (∀ run ∈ runs, IsNumeral run) → IsNumeral run →
      runs.length ≤ targetMax → Holds s targetMax runs.length →
      Inside targetMax (head ++ (spaced runs ++ run))
        ⟨.ident, (head ++ spaced runs).length, head.length, n, s⟩
  | space {head runs run n s} : Head head n → (∀ run ∈ runs, IsNumeral run) → IsNumeral run →
      runs.length ≤ targetMax → Holds s targetMax runs.length →
      Inside targetMax (head ++ (spaced runs ++ (run ++ [32])))
        ⟨.space, (head ++ spaced runs).length, head.length, n, s⟩
  | comma {head runs list m t n s} : Head head n → IdentList runs list → runs.length ≤ targetMax →
      (list.length : ℤ) = n → Inside targetMax (head ++ (list ++ [44])) ⟨.comma, m, t, n, s⟩

section

variable {mem w xs rest behind : List Byte} {c : Byte} {cs : Cs} {acts : List Act} {N p i : ℕ}
  {n : ℤ} {st st' : Exec} {s : HandlerParser}

theorem head_written {uuid size : List Byte} (list : List Byte) :
    uuid ++ 32 :: (size ++ [58]) ++ list = uuid ++ 32 :: (size ++ 58 :: list) := by
  simp

/-! ### One byte -/

/-- The numeral that stands behind some bytes, with a byte behind it that is not a digit. -/
theorem le_of_mem_numeralReads {pre run : List Byte} (hmem : mem = pre ++ (run ++ c :: rest))
    (hrun : ∀ c ∈ run, Decimal.isDigit c = true) (hc : Decimal.isDigit c = false)
    (hi : i ∈ numeralReads mem pre.length) : i ≤ pre.length + run.length := by
  rw [numeralReads, hmem, List.drop_left, numeral_append hrun hc, List.mem_range'_1] at hi
  omega

theorem length_blk2bstr_le (blk : List Byte) (len : ℤ) :
    (blk2bstr blk len).elim 0 List.length ≤ len.toNat := by
  unfold blk2bstr
  split
  · exact Nat.zero_le _
  · rw [Option.elim_some, List.length_take]
    exact Nat.min_le_left ..

theorem le_of_mem_uuidReads {mark : ℕ} (hmark : mark ≤ p) (hi : i ∈ uuidReads mem mark p) :
    i ≤ p := by
  have hlen := length_blk2bstr_le (mem.drop mark) (intOf (p - mark))
  have hint := intOf_toNat_le (p - mark)
  rw [uuidReads, List.mem_range'_1] at hi
  omega

theorem actsReads_singleton (a : Act) : actsReads mem p st [a] = actReads mem p st a := by
  simp only [actsReads]
  split <;> exact List.append_nil _

theorem foldlM_singleton {a : Act} (h : [a].foldlM (act mem p) st = .ok st') :
    act mem p st a = .ok st' := by
  cases hact : act mem p st a with
  | error st'' =>
    rw [foldlM_error hact] at h
    exact absurd h (by simp)
  | ok st'' =>
    rw [foldlM_ok hact] at h
    exact h

theorem uuid_ok (h : act mem p st .uuid = .ok st') :
    ∃ uuid, st' = { st with parser.uuid := uuid } := by
  rw [act] at h
  exact ⟨_, (Except.ok.inj h).symm⟩

/-- Only the first of two actions looks at anything, if it is the one that adds a target. -/
theorem mem_identifierReads {a : Act} (ha : a = .mark ∨ a = .targetsEnd)
    (hi : i ∈ actsReads mem p st [.identifier, a]) : i ∈ numeralReads mem st.mark := by
  have hsilent : ∀ st, actsReads mem p st [a] = [] := by
    intro st
    rw [actsReads_singleton]
    rcases ha with rfl | rfl <;> rfl
  rw [actsReads, actReads] at hi
  rcases List.mem_append.mp hi with hi | hi
  · split at hi
    · exact hi
    · exact absurd hi List.not_mem_nil
  · split at hi
    · exact absurd hi List.not_mem_nil
    · rw [hsilent] at hi
      exact absurd hi List.not_mem_nil

/-- A target is added if there is room for it. -/
theorem identifier_fold {a : Act} (h : [Act.identifier, a].foldlM (act mem p) st = .ok st') :
    st.parser.targets.length < st.parser.targetMax ∧
      act mem p { st with parser := st.parser.addTarget (strtoul (mem.drop st.mark)) } a
        = .ok st' := by
  by_cases hroom : st.parser.targets.length < st.parser.targetMax
  · have hident : act mem p st .identifier =
        .ok { st with parser := st.parser.addTarget (strtoul (mem.drop st.mark)) } := if_pos hroom
    rw [foldlM_ok hident] at h
    exact ⟨hroom, foldlM_singleton h⟩
  · have hident : act mem p st .identifier = .error st := if_neg hroom
    rw [foldlM_error hident] at h
    exact absurd h (by simp)

theorem targetsEnd_ok (h : act mem p st .targetsEnd = .ok st') :
    (p - st.targetsStart : ℤ) = st.targetExpectedLen ∧ st' = st := by
  rw [act] at h
  split at h
  · case isTrue hint => exact ⟨hint, (Except.ok.inj h).symm⟩
  · exact absurd h (by simp)

theorem Holds.addTarget (h : Holds s N p) (id : ℕ) : Holds (s.addTarget id) N (p + 1) := by
  obtain ⟨hmax, hcount⟩ := h
  refine ⟨hmax, ?_⟩
  rw [HandlerParser.addTarget, List.length_append, List.length_singleton, hcount]

/-- What one byte does: nothing behind it is read, and the machine is inside the message still
if it has not stopped. -/
structure Steps (N : ℕ) (mem w : List Byte) (c : Byte) (st : Exec) (acts : List Act) (cs : Cs) :
    Prop where
  reads : ∀ i ∈ actsReads mem w.length st acts, i ≤ w.length
  inside : ∀ st', acts.foldlM (act mem w.length) st = .ok st' → .done ∉ acts →
    Inside N (w ++ [c]) { st' with cs := cs }

theorem steps_silent (h : Inside N (w ++ [c]) { st with cs := cs }) : Steps N mem w c st [] cs := by
  refine ⟨fun i hi => absurd hi List.not_mem_nil, fun st' hst _ => ?_⟩
  obtain rfl := Except.ok.inj hst
  exact h

theorem steps_uuid {t : ℕ} (hname : IsName w) (hholds : Holds s N 0)
    (hnext : Cs.uuid.next c = some (acts, cs)) : Steps N mem w c ⟨.uuid, 0, t, n, s⟩ acts cs := by
  dsimp only [Cs.next] at hnext
  split at hnext
  case isTrue hc =>
    obtain ⟨rfl, rfl⟩ := Prod.mk.inj (Option.some.inj hnext)
    subst hc
    refine ⟨fun i hi => ?_, fun st' hst _ => ?_⟩
    · rw [actsReads_singleton, actReads] at hi
      exact le_of_mem_uuidReads (Nat.zero_le _) hi
    · obtain ⟨u, rfl⟩ := uuid_ok (foldlM_singleton hst)
      exact .lengthStart hname hholds
  case isFalse hc =>
    split at hnext
    case isTrue hc =>
      obtain ⟨rfl, rfl⟩ := Prod.mk.inj (Option.some.inj hnext)
      exact steps_silent
        (.uuid ⟨by simp, List.forall_mem_append.mpr ⟨hname.2, by simpa using hc⟩⟩ hholds)
    case isFalse => exact absurd hnext (by simp)

theorem steps_length {uuid size : List Byte} {t : ℕ} (hname : IsName uuid) (hsize : IsNumeral size)
    (hholds : Holds s N 0) (hmem : mem = uuid ++ 32 :: size ++ c :: rest)
    (hnext : Cs.length.next c = some (acts, cs)) :
    Steps N mem (uuid ++ 32 :: size) c ⟨.length, uuid.length + 1, t, n, s⟩ acts cs := by
  have hcolon : Decimal.isDigit 58 = false := by decide
  dsimp only [Cs.next] at hnext
  split at hnext
  case isTrue hc =>
    obtain ⟨rfl, rfl⟩ := Prod.mk.inj (Option.some.inj hnext)
    subst hc
    have hwritten : mem = uuid ++ [32] ++ (size ++ 58 :: rest) := by rw [hmem]; simp
    have hmark : uuid.length + 1 = (uuid ++ [32]).length := by simp
    have hlen : (uuid ++ 32 :: size).length = (uuid ++ [32]).length + size.length := by
      rw [← List.length_append]
      simp
    refine ⟨fun i hi => ?_, fun st' hst _ => ?_⟩
    · rw [actsReads_singleton, actReads, hmark] at hi
      rw [hlen]
      exact le_of_mem_numeralReads hwritten hsize.2 hcolon hi
    · have hdrop : mem.drop (uuid.length + 1) = size ++ 58 :: rest := by
        rw [hwritten, hmark, List.drop_left]
      have hact := foldlM_singleton hst
      rw [act, hdrop, strtoul_append hsize.2 hcolon] at hact
      dsimp only at hact
      split at hact
      · obtain rfl := Except.ok.inj hact
        have hhead : Head _ _ := .mk hname hsize
        rw [List.append_assoc, List.cons_append]
        generalize intOf (strtoul size) = k at hhead ⊢
        exact .targetsStart hhead hholds
      · exact absurd hact (by simp)
  case isFalse hc =>
    split at hnext
    case isTrue hc =>
      obtain ⟨rfl, rfl⟩ := Prod.mk.inj (Option.some.inj hnext)
      have hinside := @Inside.length N uuid (size ++ [c]) t n s hname
        ⟨by simp, List.forall_mem_append.mpr ⟨hsize.2, by simpa using hc⟩⟩ hholds
      refine steps_silent ?_
      rw [List.append_assoc, List.cons_append]
      exact hinside
    case isFalse => exact absurd hnext (by simp)

theorem steps_targetsStart {m t : ℕ} (hhead : Head w n) (hholds : Holds s N 0)
    (hnext : Cs.targetsStart.next c = some (acts, cs)) :
    Steps N mem w c ⟨.targetsStart, m, t, n, s⟩ acts cs := by
  dsimp only [Cs.next] at hnext
  split at hnext
  case isTrue hc =>
    obtain ⟨rfl, rfl⟩ := Prod.mk.inj (Option.some.inj hnext)
    subst hc
    have hbegin : act mem w.length ⟨.targetsStart, m, t, n, s⟩ .targetsBegin =
        .ok ⟨.targetsStart, m, w.length, n, s⟩ := rfl
    refine ⟨fun i hi => ?_, fun st' hst _ => ?_⟩
    · rw [actsReads, hbegin] at hi
      dsimp only at hi
      rw [actsReads_singleton] at hi
      exact absurd hi List.not_mem_nil
    · rw [foldlM_ok hbegin] at hst
      obtain ⟨hint, rfl⟩ := targetsEnd_ok (foldlM_singleton hst)
      exact .comma hhead .nil (Nat.zero_le _) (by simpa using hint)
  case isFalse hc =>
    split at hnext
    case isTrue hc =>
      obtain ⟨rfl, rfl⟩ := Prod.mk.inj (Option.some.inj hnext)
      refine ⟨fun i hi => absurd hi List.not_mem_nil, fun st' hst _ => ?_⟩
      obtain rfl := Except.ok.inj hst
      have hinside := @Inside.ident N w [] [c] n s hhead (List.forall_mem_nil _)
        ⟨by simp, by simpa using hc⟩ (Nat.zero_le _) hholds
      simpa [spaced] using hinside
    case isFalse => exact absurd hnext (by simp)

theorem steps_ident {head run : List Byte} {runs : List (List Byte)} (hhead : Head head n)
    (hruns : ∀ run ∈ runs, IsNumeral run) (hrun : IsNumeral run) (hroom : runs.length ≤ N)
    (hholds : Holds s N runs.length) (hmem : mem = head ++ (spaced runs ++ run) ++ c :: rest)
    (hnext : Cs.ident.next c = some (acts, cs)) :
    Steps N mem (head ++ (spaced runs ++ run)) c
      ⟨.ident, (head ++ spaced runs).length, head.length, n, s⟩ acts cs := by
  have hlen : (head ++ (spaced runs ++ run)).length = (head ++ spaced runs).length + run.length := by
    rw [← List.append_assoc, List.length_append]
  dsimp only [Cs.next] at hnext
  split at hnext
  case isTrue hc =>
    -- the space behind the identifier
    obtain ⟨rfl, rfl⟩ := Prod.mk.inj (Option.some.inj hnext)
    subst hc
    refine steps_silent ?_
    rw [List.append_assoc, List.append_assoc]
    exact .space hhead hruns hrun hroom hholds
  case isFalse hspace =>
    split at hnext
    case isTrue hc =>
      -- the comma behind the list
      obtain ⟨rfl, rfl⟩ := Prod.mk.inj (Option.some.inj hnext)
      subst hc
      refine ⟨fun i hi => ?_, fun st' hst _ => ?_⟩
      · rw [hlen]
        exact @le_of_mem_numeralReads mem rest _ _ _ _ (by rw [hmem]; simp) hrun.2 not_digit_comma
          (mem_identifierReads (.inr rfl) hi)
      · obtain ⟨hfree, hst⟩ := identifier_fold hst
        obtain ⟨hint, rfl⟩ := targetsEnd_ok hst
        rw [List.append_assoc]
        refine .comma hhead (identList_last hruns hrun) ?_ ?_
        · have hcount := hholds.2
          have hmax := hholds.1
          rw [List.length_append, List.length_singleton]
          dsimp only at hfree
          omega
        · rw [← hint, @List.length_append _ head]
          push_cast
          omega
    case isFalse hcomma =>
      split at hnext
      case isTrue hc =>
        obtain ⟨rfl, rfl⟩ := Prod.mk.inj (Option.some.inj hnext)
        refine steps_silent ?_
        rw [List.append_assoc, List.append_assoc]
        exact .ident hhead hruns
          ⟨by simp, List.forall_mem_append.mpr ⟨hrun.2, by simpa using hc⟩⟩ hroom hholds
      case isFalse => exact absurd hnext (by simp)

theorem steps_space {head run : List Byte} {runs : List (List Byte)} (hhead : Head head n)
    (hruns : ∀ run ∈ runs, IsNumeral run) (hrun : IsNumeral run) (hholds : Holds s N runs.length)
    (hmem : mem = head ++ (spaced runs ++ (run ++ [32])) ++ c :: rest)
    (hnext : Cs.space.next c = some (acts, cs)) :
    Steps N mem (head ++ (spaced runs ++ (run ++ [32]))) c
      ⟨.space, (head ++ spaced runs).length, head.length, n, s⟩ acts cs := by
  have hlen : (head ++ spaced runs).length + run.length ≤
      (head ++ (spaced runs ++ (run ++ [32]))).length := by
    simp only [List.length_append]
    omega
  have hwritten : mem = head ++ spaced runs ++ (run ++ 32 :: (c :: rest)) := by
    rw [hmem]
    simp
  have hall : ∀ r ∈ runs ++ [run], IsNumeral r :=
    List.forall_mem_append.mpr ⟨hruns, List.forall_mem_singleton.mpr hrun⟩
  have hread : ∀ i ∈ numeralReads mem (head ++ spaced runs).length,
      i ≤ (head ++ (spaced runs ++ (run ++ [32]))).length := fun i hi =>
    le_trans (le_of_mem_numeralReads hwritten hrun.2 not_digit_space hi) hlen
  have hcount : ∀ id, Holds (s.addTarget id) N (runs ++ [run]).length := by
    intro id
    rw [List.length_append, List.length_singleton]
    exact hholds.addTarget id
  have hmore : s.targets.length < s.targetMax → (runs ++ [run]).length ≤ N := by
    intro hfree
    have hcount := hholds.2
    have hmax := hholds.1
    rw [List.length_append, List.length_singleton]
    omega
  dsimp only [Cs.next] at hnext
  split at hnext
  case isTrue hc =>
    obtain ⟨rfl, rfl⟩ := Prod.mk.inj (Option.some.inj hnext)
    subst hc
    refine ⟨fun i hi => hread i (mem_identifierReads (.inr rfl) hi), fun st' hst _ => ?_⟩
    obtain ⟨hfree, hst⟩ := identifier_fold hst
    obtain ⟨hint, rfl⟩ := targetsEnd_ok hst
    rw [List.append_assoc, ← spaced_append]
    refine .comma hhead (identList_spaced hall) (hmore hfree) ?_
    rw [← hint, spaced_append, @List.length_append _ head]
    push_cast
    omega
  case isFalse hcomma =>
    split at hnext
    case isTrue hc =>
      -- one more identifier begins
      obtain ⟨rfl, rfl⟩ := Prod.mk.inj (Option.some.inj hnext)
      refine ⟨fun i hi => hread i (mem_identifierReads (.inl rfl) hi), fun st' hst _ => ?_⟩
      obtain ⟨hfree, hst⟩ := identifier_fold hst
      obtain rfl := Except.ok.inj hst
      rw [List.append_assoc, ← spaced_append]
      exact .ident hhead hall ⟨by simp, by simpa using hc⟩ (hmore hfree) (hcount _)
    case isFalse => exact absurd hnext (by simp)

/-- **One byte inside a message** is read before anything behind it, and the machine is
inside the message still, if it has not stopped. -/
theorem Inside.step (h : Inside N w st) (hmem : mem = w ++ c :: rest)
    (hnext : st.cs.next c = some (acts, cs)) : Steps N mem w c st acts cs := by
  cases h with
  | start hholds =>
    dsimp only [Cs.next] at hnext
    split at hnext
    case isTrue hc =>
      obtain ⟨rfl, rfl⟩ := Prod.mk.inj (Option.some.inj hnext)
      refine ⟨fun i hi => absurd hi List.not_mem_nil, fun st' hst _ => ?_⟩
      obtain rfl := Except.ok.inj hst
      exact .uuid ⟨by simp, by simpa using hc⟩ hholds
    case isFalse => exact absurd hnext (by simp)
  | uuid hname hholds => exact steps_uuid hname hholds hnext
  | @lengthStart uuid _ _ _ _ hname hholds =>
    dsimp only [Cs.next] at hnext
    split at hnext
    case isTrue hc =>
      obtain ⟨rfl, rfl⟩ := Prod.mk.inj (Option.some.inj hnext)
      refine ⟨fun i hi => absurd hi List.not_mem_nil, fun st' hst _ => ?_⟩
      obtain rfl := Except.ok.inj hst
      rw [List.append_assoc, List.length_append]
      exact .length hname ⟨by simp, by simpa using hc⟩ hholds
    case isFalse => exact absurd hnext (by simp)
  | length hname hsize hholds => exact steps_length hname hsize hholds hmem hnext
  | targetsStart hhead hholds => exact steps_targetsStart hhead hholds hnext
  | ident hhead hruns hrun hroom hholds =>
    exact steps_ident hhead hruns hrun hroom hholds hmem hnext
  | space hhead hruns hrun hroom hholds => exact steps_space hhead hruns hrun hholds hmem hnext
  | comma hhead hlist hroom hint =>
    dsimp only [Cs.next] at hnext
    split at hnext
    · obtain ⟨rfl, rfl⟩ := Prod.mk.inj (Option.some.inj hnext)
      exact ⟨fun i hi => absurd hi List.not_mem_nil, fun st' _ hgo => absurd (by simp) hgo⟩
    · exact absurd hnext (by simp)

/-- **Inside a message, what is read is unfinished.** -/
theorem Inside.unfinished (h : Inside N w st) : Unfinished N w := by
  cases h with
  | start => exact .uuid (List.forall_mem_nil _)
  | uuid hname => exact .uuid hname.2
  | lengthStart hname => exact .size hname (List.forall_mem_nil _)
  | length hname hsize => exact .size hname hsize.2
  | targetsStart hhead =>
    obtain ⟨hname, hsize⟩ := hhead
    exact .list hname hsize .nil (Nat.zero_le _)
  | @ident head runs run n s hhead hruns hrun hroom =>
    obtain ⟨hname, hsize⟩ := hhead
    rw [head_written]
    refine .list hname hsize (identList_last hruns hrun) ?_
    rw [List.length_append, List.length_singleton]
    omega
  | @space head runs run n s hhead hruns hrun hroom =>
    obtain ⟨hname, hsize⟩ := hhead
    rw [head_written, ← spaced_append]
    refine .list hname hsize (identList_spaced ?_) ?_
    · exact List.forall_mem_append.mpr ⟨hruns, List.forall_mem_singleton.mpr hrun⟩
    · rw [List.length_append, List.length_singleton]
      omega
  | comma hhead hlist hroom hint =>
    obtain ⟨hname, hsize⟩ := hhead
    rw [head_written]
    exact .comma hname hsize hlist hroom hint

/-! ### Reading on -/

/-- What reads on behind the bytes is inside the message until there. -/
theorem inside_of_mem_readsFrom (h : Inside N w st) (hmem : mem = w ++ (xs ++ behind))
    (hi : i ∈ readsFrom mem w.length (xs ++ behind) st) (hle : w.length + xs.length ≤ i) :
    ∃ st', Inside N (w ++ xs) st' := by
  induction xs generalizing w st with
  | nil =>
    rw [List.append_nil]
    exact ⟨st, h⟩
  | cons c xs ih =>
    rw [List.length_cons] at hle
    rw [List.cons_append, readsFrom, List.mem_cons] at hi
    rcases hi with rfl | hi
    · omega
    · cases hnext : st.cs.next c with
      | none =>
        rw [hnext] at hi
        exact absurd hi List.not_mem_nil
      | some x =>
        obtain ⟨acts, cs⟩ := x
        obtain ⟨hreads, hgo⟩ := h.step hmem hnext
        rw [hnext] at hi
        dsimp only at hi
        rcases List.mem_append.mp hi with hi | hi
        · have hbefore := hreads i hi
          omega
        · cases hacts : acts.foldlM (act mem w.length) st with
          | error st' =>
            rw [hacts] at hi
            exact absurd hi List.not_mem_nil
          | ok st' =>
            rw [hacts] at hi
            dsimp only at hi
            split at hi
            · exact absurd hi List.not_mem_nil
            case isFalse hdone =>
              have hlen : (w ++ [c]).length = w.length + 1 := by simp
              rw [← hlen] at hi
              have hrest := ih (hgo st' hacts hdone) (by rw [hmem]; simp) hi (by rw [hlen]; omega)
              rwa [List.append_assoc, List.singleton_append] at hrest

/-- The machine reads what is behind the last byte. -/
def Overreads (mem : List Byte) (p : ℕ) (xs : List Byte) (st : Exec) : Prop :=
  mem.length ∈ readsFrom mem p xs st

theorem overreads_step (hnext : st.cs.next c = some (acts, cs))
    (hacts : acts.foldlM (act mem p) st = .ok st') (hgo : .done ∉ acts)
    (h : Overreads mem (p + 1) rest { st' with cs := cs }) : Overreads mem p (c :: rest) st := by
  unfold Overreads
  rw [readsFrom, hnext]
  simp only [hacts, if_neg hgo]
  exact List.mem_cons_of_mem p (List.mem_append_right _ h)

theorem overreads_append (st : Exec) {P : Byte → Bool}
    (hloop : ∀ c, P c = true → st.cs.next c = some ([], st.cs)) (hw : ∀ c ∈ w, P c = true)
    (h : Overreads mem (p + w.length) xs st) : Overreads mem p (w ++ xs) st := by
  induction w generalizing p with
  | nil => exact h
  | cons c w ih =>
    obtain ⟨hc, hw⟩ := List.forall_mem_cons.mp hw
    refine overreads_step (hloop c hc) rfl List.not_mem_nil (ih hw ?_)
    rw [Nat.add_assoc, Nat.add_comm 1]
    exact h

theorem overreads_end (hp : p = mem.length) (st : Exec) : Overreads mem p [] st := by
  show mem.length ∈ [p]
  rw [hp]
  exact List.mem_singleton_self _

/-- From the first byte of a word on, with what is done there. -/
theorem overreads_begin {m t : ℕ} (hnext : st.cs.next c = some (acts, cs))
    (hloop : cs.next c = some ([], cs)) (hgo : .done ∉ acts)
    (hacts : acts.foldlM (act mem p) st = .ok ⟨st.cs, m, t, n, s⟩)
    (h : Overreads mem p (c :: rest) ⟨cs, m, t, n, s⟩) : Overreads mem p (c :: rest) st := by
  unfold Overreads at h ⊢
  rw [readsFrom, hloop] at h
  rw [readsFrom, hnext]
  simp only [hacts, if_neg hgo]
  rcases List.mem_cons.mp h with heq | hrest
  · rw [heq]
    exact List.mem_cons_self ..
  · exact List.mem_cons_of_mem p (List.mem_append_right _ hrest)

/-- Through a list of identifiers; there has to be room for all but the last of them. -/
theorem overreads_list {runs : List (List Byte)} {list ys : List Byte} {t : ℕ}
    (h : IdentList runs list) (hne : runs ≠ [])
    (hroom : s.targets.length + runs.length ≤ s.targetMax + 1)
    (hend : ∀ cs m s', cs = .ident ∨ cs = .space → s'.targetMax = s.targetMax →
      s'.targets.length + 1 = s.targets.length + runs.length →
      Overreads mem (p + list.length) ys ⟨cs, m, t, n, s'⟩) :
    Overreads mem p (list ++ ys) ⟨.ident, p, t, n, s⟩ := by
  induction h generalizing p s with
  | nil => exact absurd rfl hne
  | last hrun =>
    exact overreads_append ⟨.ident, p, t, n, s⟩ ident_loop hrun.2 (hend _ _ _ (.inl rfl) rfl rfl)
  | @spaced run hrun =>
    rw [List.append_assoc]
    refine overreads_append ⟨.ident, p, t, n, s⟩ ident_loop hrun.2 ?_
    refine @overreads_step _ _ _ .space _ _ _ _ rfl rfl List.not_mem_nil ?_
    have hlast := hend .space p s (.inr rfl) rfl rfl
    rwa [List.length_append, List.length_singleton, ← Nat.add_assoc] at hlast
  | @cons run run' runs list hrun hlist ih =>
    obtain ⟨d, rest, hd, hdigit⟩ := hlist.head ys (List.cons_ne_nil _ _)
    have hcomma : d ≠ 44 := by
      rintro rfl
      exact absurd hdigit (by decide)
    have hnext : Cs.space.next d = some ([.identifier, .mark], .ident) := by
      rw [Cs.next, if_neg hcomma, if_pos hdigit]
    simp only [List.length_cons] at hroom
    have hident : act mem (p + run.length + 1) ⟨.space, p, t, n, s⟩ .identifier =
        .ok ⟨.space, p, t, n, s.addTarget (strtoul (mem.drop p))⟩ := if_pos (by dsimp only; omega)
    have hcount : (s.addTarget (strtoul (mem.drop p))).targets.length = s.targets.length + 1 := by
      simp [addTarget]
    have hlen : p + run.length + 1 + list.length = p + (run ++ 32 :: list).length := by
      rw [List.length_append, List.length_cons]
      omega
    rw [List.append_assoc]
    -- the run, the space behind it, and the first digit of the next run stores it
    refine overreads_append ⟨.ident, p, t, n, s⟩ ident_loop hrun.2 ?_
    refine @overreads_step _ _ _ .space _ _ _ _ rfl rfl List.not_mem_nil ?_
    have hmax : (s.addTarget (strtoul (mem.drop p))).targetMax = s.targetMax := rfl
    -- what is left of the room is enough for the rest of the list
    have hrest : Overreads mem (p + run.length + 1) (list ++ ys)
        ⟨.ident, p + run.length + 1, t, n, s.addTarget (strtoul (mem.drop p))⟩ := by
      refine ih (List.cons_ne_nil _ _) ?_ fun cs m s' hcs hmax' hlen' => ?_
      · rw [hcount, hmax, List.length_cons]
        omega
      · rw [hcount] at hlen'
        rw [hlen]
        refine hend cs m s' hcs (hmax'.trans hmax) ?_
        simp only [List.length_cons] at hlen' ⊢
        omega
    show Overreads mem (p + run.length + 1) (list ++ ys) ⟨.space, p, t, n, s⟩
    rw [hd] at hrest ⊢
    exact overreads_begin hnext (ident_loop d hdigit) (by simp) (foldlM_ok hident _) hrest

/-- The first digit of the list. -/
theorem overreads_first {runs : List (List Byte)} {list ys : List Byte} {m t : ℕ}
    (h : IdentList runs list) (hne : runs ≠ [])
    (hrest : Overreads mem p (list ++ ys) ⟨.ident, p, p, n, s⟩) :
    Overreads mem p (list ++ ys) ⟨.targetsStart, m, t, n, s⟩ := by
  obtain ⟨d, rest, hd, hdigit⟩ := h.head ys hne
  have hcomma : d ≠ 44 := by
    rintro rfl
    exact absurd hdigit (by decide)
  have hnext : Cs.targetsStart.next d = some ([.targetsBegin, .mark], .ident) := by
    rw [Cs.next, if_neg hcomma, if_pos hdigit]
  rw [hd] at hrest ⊢
  exact overreads_begin hnext (ident_loop d hdigit) (by simp) rfl hrest

/-- From where the list begins, with nothing behind it. -/
theorem overreads_targets {runs : List (List Byte)} {list : List Byte} {m t : ℕ}
    (h : IdentList runs list) (hs : s.targets = []) (hroom : runs.length ≤ s.targetMax + 1)
    (hlen : p + list.length = mem.length) : Overreads mem p list ⟨.targetsStart, m, t, n, s⟩ := by
  -- without an identifier the machine still waits for the list
  by_cases hne : runs = []
  · subst hne
    cases h
    exact overreads_end hlen _
  · have hlist : Overreads mem p (list ++ []) ⟨.ident, p, p, n, s⟩ := by
      refine overreads_list h hne ?_ fun cs m s' _ _ _ => overreads_end hlen _
      rw [hs, List.length_nil]
      omega
    rw [← List.append_nil list]
    exact overreads_first h hne hlist

/-- From where the list begins, with its comma behind it. -/
theorem overreads_comma {runs : List (List Byte)} {list : List Byte} {m t : ℕ}
    (h : IdentList runs list) (hs : s.targets = []) (hroom : runs.length ≤ s.targetMax)
    (hint : (list.length : ℤ) = n) (hlen : p + list.length + 1 = mem.length) :
    Overreads mem p (list ++ [44]) ⟨.targetsStart, m, t, n, s⟩ := by
  by_cases hne : runs = []
  · subst hne
    cases h
    -- the comma comes at once, and the size is 0
    have hend : act mem p ⟨.targetsStart, m, p, n, s⟩ .targetsEnd =
        .ok ⟨.targetsStart, m, p, n, s⟩ := if_pos (by simpa using hint)
    have hbegin : act mem p ⟨.targetsStart, m, t, n, s⟩ .targetsBegin =
        .ok ⟨.targetsStart, m, p, n, s⟩ := rfl
    exact @overreads_step _ _ _ .comma _ _ _ _ rfl ((foldlM_ok hbegin _).trans (foldlM_ok hend [])) (by simp)
      (overreads_end hlen _)
  · have hlist : Overreads mem p (list ++ [44]) ⟨.ident, p, p, n, s⟩ := by
      refine overreads_list h hne ?_ fun cs m s' hcs hmax hcount => ?_
      · rw [hs, List.length_nil]
        omega
      · rw [hs, List.length_nil] at hcount
        -- the comma stores the last identifier and checks the length of the list
        have hnext : cs.next 44 = some ([.identifier, .targetsEnd], .comma) := by
          rcases hcs with rfl | rfl <;> rfl
        have hident : act mem (p + list.length) ⟨cs, m, p, n, s'⟩ .identifier =
            .ok ⟨cs, m, p, n, s'.addTarget (strtoul (mem.drop m))⟩ :=
          if_pos (by dsimp only; omega)
        have hend : act mem (p + list.length) ⟨cs, m, p, n, s'.addTarget (strtoul (mem.drop m))⟩
            .targetsEnd = .ok ⟨cs, m, p, n, s'.addTarget (strtoul (mem.drop m))⟩ := by
          refine if_pos ?_
          dsimp only
          push_cast
          omega
        exact overreads_step hnext ((foldlM_ok hident _).trans (foldlM_ok hend [])) (by simp)
          (overreads_end hlen _)
    exact overreads_first h hne hlist

/-- Through a word that is marked where it begins. -/
theorem overreads_word {P : Byte → Bool} {cs' : Cs} {m t : ℕ}
    (hnext : ∀ c, P c = true → cs.next c = some ([.mark], cs'))
    (hloop : ∀ c, P c = true → cs'.next c = some ([], cs')) (hw : ∀ c ∈ w, P c = true)
    (hend : w = [] → Overreads mem p xs ⟨cs, m, t, n, s⟩)
    (hrest : w ≠ [] → Overreads mem (p + w.length) xs ⟨cs', p, t, n, s⟩) :
    Overreads mem p (w ++ xs) ⟨cs, m, t, n, s⟩ := by
  cases w with
  | nil => exact hend rfl
  | cons c w =>
    have hc := hw c (List.mem_cons_self ..)
    exact overreads_begin (hnext c hc) (hloop c hc) (by simp) rfl
      (overreads_append ⟨cs', p, t, n, s⟩ hloop hw (hrest (List.cons_ne_nil c w)))

/-- Behind the sender's name. -/
theorem overreads_space {m t : ℕ}
    (h : ∀ uuid, Overreads mem (p + 1) rest ⟨.lengthStart, m, t, n, { s with uuid := uuid }⟩) :
    Overreads mem p (32 :: rest) ⟨.uuid, m, t, n, s⟩ := by
  have huuid : ∃ uuid, act mem p ⟨.uuid, m, t, n, s⟩ .uuid =
      .ok ⟨.uuid, m, t, n, { s with uuid := uuid }⟩ := ⟨_, by rw [act]⟩
  obtain ⟨uuid, huuid⟩ := huuid
  exact @overreads_step _ _ _ .lengthStart _ _ _ _ rfl (foldlM_ok huuid []) (by simp) (h uuid)

/-- Behind the digits of the size. -/
theorem overreads_colon {size : List Byte} {m t : ℕ} (hdrop : mem.drop m = size ++ 58 :: rest)
    (hsize : ∀ c ∈ size, Decimal.isDigit c = true)
    (h : Overreads mem (m + size.length + 1) rest ⟨.targetsStart, m, t, intOf (strtoul size), s⟩) :
    Overreads mem (m + size.length) (58 :: rest) ⟨.length, m, t, n, s⟩ := by
  have hcolon : Decimal.isDigit 58 = false := by decide
  have hlength : act mem (m + size.length) ⟨.length, m, t, n, s⟩ .length =
      .ok ⟨.length, m, t, intOf (strtoul size), s⟩ := by
    simp only [act, hdrop, numeral_append hsize hcolon, strtoul_append hsize hcolon, if_true]
  generalize intOf (strtoul size) = len at hlength h
  exact @overreads_step _ _ _ .targetsStart _ _ _ _ rfl (foldlM_ok hlength []) (by simp) h

/-- Through what stands before the list. -/
theorem overreads_head {uuid size list : List Byte} (huuid : IsName uuid) (hsize : IsNumeral size)
    (hmem : mem = uuid ++ 32 :: (size ++ 58 :: list))
    (h : ∀ p m s', p + list.length = mem.length → s'.targets = s.targets →
      s'.targetMax = s.targetMax →
      Overreads mem p list ⟨.targetsStart, m, 0, intOf (strtoul size), s'⟩) :
    Overreads mem 0 (uuid ++ 32 :: (size ++ 58 :: list)) ⟨.start, 0, 0, 0, s⟩ := by
  have hdrop : mem.drop (0 + uuid.length + 1) = size ++ 58 :: list := by
    rw [Nat.zero_add, ← List.drop_drop, hmem, List.drop_left, List.drop_one, List.tail_cons]
  -- the name, its space, the size, its colon
  refine overreads_word (fun c hc => if_pos hc) uuid_loop huuid.2 (fun h => absurd h huuid.1) fun _ =>
    overreads_space fun u => ?_
  refine overreads_word (fun c hc => if_pos hc) length_loop hsize.2 (fun h => absurd h hsize.1) fun _ =>
    overreads_colon hdrop hsize.2 (h _ _ _ ?_ rfl rfl)
  rw [hmem]
  simp only [List.length_append, List.length_cons]
  omega

/-- **An unfinished message is read beyond its end.** -/
theorem overreads_of_unfinished (h : Unfinished N mem) (hs : s.targets = []) (hmax : s.targetMax = N) :
    Overreads mem 0 mem ⟨.start, 0, 0, 0, s⟩ := by
  subst hmax
  cases h with
  | uuid huuid =>
    rw [← List.append_nil mem]
    refine overreads_word (fun c hc => if_pos hc) uuid_loop huuid (fun h => ?_) fun _ => ?_
    · rw [h]
      exact overreads_end rfl _
    · exact overreads_end (by simp) _
  | @size uuid size huuid hsize =>
    refine overreads_word (fun c hc => if_pos hc) uuid_loop huuid.2 (fun h => absurd h huuid.1)
      fun _ => overreads_space fun u => ?_
    rw [← List.append_nil size]
    refine overreads_word (fun c hc => if_pos hc) length_loop hsize (fun h => ?_) fun _ => ?_
    · rw [h]
      exact overreads_end (by simp) _
    · refine overreads_end ?_ _
      simp only [List.length_append, List.length_cons, List.length_nil]
      omega
  | list huuid hsize hlist hroom =>
    refine overreads_head huuid hsize rfl fun p m s' hp hs' hmax => ?_
    exact overreads_targets hlist (hs'.trans hs) (by rw [hmax]; exact hroom) hp
  | comma huuid hsize hlist hroom hint =>
    refine overreads_head huuid hsize rfl fun p m s' hp hs' hmax => ?_
    refine overreads_comma hlist (hs'.trans hs) (by rw [hmax]; exact hroom) hint ?_
    rwa [List.length_append, List.length_singleton, ← Nat.add_assoc] at hp

end

/-- **The parser stays within a message** exactly if the message is not one that stops too
early. -/
theorem readsWithin_iff (parser : HandlerParser) (msg : List Byte) :
    ReadsWithin parser msg ↔ ¬Unfinished parser.targetMax msg := by
  constructor
  · intro h hunfinished
    -- with nothing behind the message its end is read already
    have hread : Overreads msg 0 msg ⟨.start, 0, 0, 0, { parser with targets := [], uuid := none }⟩ :=
      overreads_of_unfinished hunfinished rfl rfl
    have hlt := h [] msg.length (by rw [reads, List.append_nil]; exact hread)
    exact absurd hlt (lt_irrefl _)
  · intro h behind i hi
    by_contra hle
    rw [Nat.not_lt] at hle
    -- whatever is read behind the message, the machine has not stopped inside it
    have hstart : Inside parser.targetMax []
        ⟨.start, 0, 0, 0, { parser with targets := [], uuid := none }⟩ := .start ⟨rfl, rfl⟩
    obtain ⟨st, hst⟩ := @inside_of_mem_readsFrom _ _ msg _ _ _ _ hstart rfl hi
      (by rw [List.length_nil, Nat.zero_add]; exact hle)
    exact h hst.unfinished

/-- A message that stops behind the comma of its list. -/
theorem not_readsWithin_cut : ¬ReadsWithin ⟨0, 0, none, [], 128⟩ (bytes "5a-9 5:12 34,") := by
  intro h
  exact absurd (h (bytes " Foreign.") 13 (by decide)) (by decide)

end HandlerParser

end Mongrel2

/-
The response parser (`http11/httpclient_parser.rl`).

* `Cs.next` — the transitions of the generated machine, with their actions;
* `Client.execute` — `httpclient_parser_execute`, which reads the header of a response
  or the line in front of a chunk;
* `execute_append` — bytes behind a header change nothing;
* `execute_line` — the line in front of a chunk is read to its end, whatever follows;
* `execute_digits` — a line that breaks off among its digits is not taken for one.

Design notes: a state stands for a run of states of `httpclient_parser.c` that differ
only in how far into a word they are; the numbers are in the comments.  The callbacks
of a connection's parser are all `NULL`, and left out.
-/
import Mongrel2.HttpParser

namespace Mongrel2

open ByteStream (Byte)
open HttpParser (isDigit isXdigit isToken)

namespace HttpClientParser

/-! ### The machine -/

inductive Cs
  /-- 0 -/
  | error
  /-- 1 -/
  | start
  /-- 2 -/
  | chunkSize
  /-- 3 -/
  | lastLF
  /-- 4 and 5 -/
  | extNameStart | extName
  /-- 6 and 7 -/
  | extValStart | extVal
  /-- 8 to 11: in `HTTP/` -/
  | http (n : ℕ)
  /-- 12 to 15 -/
  | majorStart | major | minorStart | minor
  /-- 16 and 17 -/
  | statusStart | status
  /-- 18 and 19 -/
  | reasonStart | reason
  /-- 20 -/
  | headers
  /-- 21 -/
  | field
  /-- 22 and 23 -/
  | valueStart | value
  /-- 24 -/
  | lineLF
  /-- 25 to 38: after `n + 1` characters of `Content-Length` -/
  | contentLength (n : ℕ)
  /-- 39; 40, 41, 43 and 89: blanks that a line end may be among -/
  | lengthStart | lengthLine | lengthBlank | lengthLineLF | lengthFirstLF
  /-- 42; 44: or a field; 90: or any value -/
  | length | lengthOrField | lengthOrValue
  /-- 45 to 61: after `n + 1` characters of `Transfer-Encoding` -/
  | transferEncoding (n : ℕ)
  /-- 62; 63, 64, 73 and 81: as for a length -/
  | codingStart | codingLine | codingBlank | codingLineLF | codingFirstLF
  /-- 65 to 71: after `n + 1` characters of `chunked`; 74 to 80: or of a field; 82 to
  88: or of any value -/
  | coding (n : ℕ) | codingOrField (n : ℕ) | codingOrValue (n : ℕ)
  /-- 72 -/
  | codingLF
  /-- 91, 92 and 93, final -/
  | done | lengthDone | codingDone
  deriving DecidableEq, Repr

/-- The actions of the machine, less those that only call back; `start_value` is
`mark`, and `done` breaks. -/
inductive Act
  | mark | startField | writeField | writeContentLen | statusCode | chunkSize
  | transChunked | done
  deriving DecidableEq, Repr

/-- `space`, less the characters of a line end. -/
def isBlank (c : Byte) : Bool := c == 32 || c == 9 || c == 11 || c == 12

/-- `space`. -/
def isSpace (c : Byte) : Bool := c == 32 || 9 ≤ c && c ≤ 13

/-- The byte goes on with the word, in either case, from position `n` on. -/
def continues (word : String) (n : ℕ) (c : Byte) : Bool :=
  (bytes word)[n]?.any fun w => sameCaseless [w] [c]

/-- A byte at the start of a header line that may be a field. -/
def fieldNext (c : Byte) : Option (List Act × Cs) :=
  if continues "Content-Length" 0 c then some ([.startField], .contentLength 0)
  else if continues "Transfer-Encoding" 0 c then some ([.startField], .transferEncoding 0)
  else if isToken c then some ([.startField], .field)
  else none

/-- A byte in the name of a field. -/
def nameNext (c : Byte) : Option (List Act × Cs) :=
  if c = chr ':' then some ([.writeField], .valueStart)
  else if isToken c then some ([], .field)
  else none

/-- A byte in a value. -/
def valueNext (c : Byte) : List Act × Cs :=
  if c = chr '\n' then ([], .headers)
  else if c = chr '\r' then ([], .lineLF)
  else ([], .value)

/-- A byte in the blanks before a length. -/
def lengthBlankNext (c : Byte) : Option (List Act × Cs) :=
  if isSpace c then some ([], .lengthBlank)
  else if isDigit c then some ([.mark], .length)
  else none

/-- A byte in the blanks before a coding. -/
def codingBlankNext (c : Byte) : Option (List Act × Cs) :=
  if isSpace c then some ([], .codingBlank)
  else if continues "chunked" 0 c then some ([.mark], .coding 0)
  else none

/-- The transition on a byte, `none` for the one to the error state. -/
def Cs.next : Cs → Byte → Option (List Act × Cs)
  | .error, _ => none
  | .start, c =>
    if c = chr 'H' then some ([.mark], .http 0)
    else if isXdigit c then some ([.mark], .chunkSize)
    else none
  | .chunkSize, c =>
    if c = chr '\n' then some ([.chunkSize, .done], .done)
    else if c = chr '\r' then some ([.chunkSize], .lastLF)
    else if c = chr ';' then some ([.chunkSize], .extNameStart)
    else if isXdigit c then some ([], .chunkSize)
    else none
  | .lastLF, c => if c = chr '\n' then some ([.done], .done) else none
  | .extNameStart, c => if isToken c then some ([.startField], .extName) else none
  | .extName, c =>
    if c = chr '\n' then some ([.writeField, .mark, .done], .done)
    else if c = chr '\r' then some ([.writeField, .mark], .lastLF)
    else if c = chr ';' then some ([.writeField, .mark], .extNameStart)
    else if c = chr '=' then some ([.writeField, .mark], .extValStart)
    else if isToken c then some ([], .extName)
    else none
  | .extValStart, c => if isToken c then some ([.mark], .extVal) else none
  | .extVal, c =>
    if c = chr '\n' then some ([.done], .done)
    else if c = chr '\r' then some ([], .lastLF)
    else if c = chr ';' then some ([], .extNameStart)
    else if isToken c then some ([], .extVal)
    else none
  | .http n, c =>
    if (bytes "TTP/")[n]? = some c then some ([], if n = 3 then .majorStart else .http (n + 1))
    else none
  | .majorStart, c => if isDigit c then some ([], .major) else none
  | .major, c =>
    if c = chr '.' then some ([], .minorStart)
    else if isDigit c then some ([], .major)
    else none
  | .minorStart, c => if isDigit c then some ([], .minor) else none
  | .minor, c =>
    if c = chr ' ' then some ([], .statusStart)
    else if isDigit c then some ([], .minor)
    else none
  | .statusStart, c => if isDigit c then some ([.mark], .status) else none
  | .status, c =>
    if c = chr ' ' then some ([.statusCode], .reasonStart)
    else if isDigit c then some ([], .status)
    else none
  | .reasonStart, c => if c = chr '\n' then none else some ([.mark], .reason)
  | .reason, c =>
    if c = chr '\n' then some ([], .headers)
    else if c = chr '\r' then some ([], .lineLF)
    else some ([], .reason)
  | .headers, c =>
    if c = chr '\n' then some ([.done], .done)
    else if c = chr '\r' then some ([], .lastLF)
    else fieldNext c
  | .field, c => nameNext c
  | .valueStart, c =>
    if c = chr '\n' then some ([.mark], .headers)
    else if c = chr '\r' then some ([.mark], .lineLF)
    else if isBlank c then some ([.mark], .valueStart)
    else some ([.mark], .value)
  | .value, c => some (valueNext c)
  | .lineLF, c => if c = chr '\n' then some ([], .headers) else none
  | .contentLength n, c =>
    if n = 13 ∧ c = chr ':' then some ([.writeField], .lengthStart)
    else if continues "Content-Length" (n + 1) c then some ([], .contentLength (n + 1))
    else nameNext c
  | .lengthStart, c =>
    if c = chr '\n' then some ([.mark], .lengthLine)
    else if c = chr '\r' then some ([.mark], .lengthFirstLF)
    else if isBlank c then some ([.mark], .lengthStart)
    else if isDigit c then some ([.mark], .lengthOrValue)
    else some ([.mark], .value)
  | .lengthLine, c =>
    if isBlank c then some ([], .lengthBlank)
    else if c = chr '\n' then some ([.done], .lengthDone)
    else if c = chr '\r' then some ([], .lengthLineLF)
    else if isDigit c then some ([.mark, .startField], .lengthOrField)
    else fieldNext c
  | .lengthBlank, c => lengthBlankNext c
  | .lengthLineLF, c =>
    if c = chr '\n' then some ([.done], .lengthDone) else lengthBlankNext c
  | .lengthFirstLF, c =>
    if c = chr '\n' then some ([], .lengthLine) else lengthBlankNext c
  | .length, c =>
    if c = chr '\n' then some ([.writeContentLen], .headers)
    else if c = chr '\r' then some ([.writeContentLen], .lineLF)
    else if isDigit c then some ([], .length)
    else none
  | .lengthOrField, c =>
    if c = chr '\n' then some ([.writeContentLen], .headers)
    else if c = chr '\r' then some ([.writeContentLen], .lineLF)
    else if isDigit c then some ([], .lengthOrField)
    else nameNext c
  | .lengthOrValue, c =>
    if c = chr '\n' then some ([.writeContentLen], .headers)
    else if c = chr '\r' then some ([.writeContentLen], .lineLF)
    else if isDigit c then some ([], .lengthOrValue)
    else some ([], .value)
  | .transferEncoding n, c =>
    if n = 16 ∧ c = chr ':' then some ([.writeField], .codingStart)
    else if continues "Transfer-Encoding" (n + 1) c then some ([], .transferEncoding (n + 1))
    else nameNext c
  | .codingStart, c =>
    if c = chr '\n' then some ([.mark], .codingLine)
    else if c = chr '\r' then some ([.mark], .codingFirstLF)
    else if isBlank c then some ([.mark], .codingStart)
    else if continues "chunked" 0 c then some ([.mark], .codingOrValue 0)
    else some ([.mark], .value)
  | .codingLine, c =>
    if isBlank c then some ([], .codingBlank)
    else if c = chr '\n' then some ([.done], .codingDone)
    else if c = chr '\r' then some ([], .codingLineLF)
    else if continues "chunked" 0 c then some ([.mark, .startField], .codingOrField 0)
    else fieldNext c
  | .codingBlank, c => codingBlankNext c
  | .codingLineLF, c =>
    if c = chr '\n' then some ([.done], .codingDone) else codingBlankNext c
  | .codingFirstLF, c =>
    if c = chr '\n' then some ([], .codingLine) else codingBlankNext c
  | .coding n, c =>
    if n = 6 ∧ c = chr '\n' then some ([.transChunked], .headers)
    else if n = 6 ∧ c = chr '\r' then some ([], .codingLF)
    else if continues "chunked" (n + 1) c then some ([], .coding (n + 1))
    else none
  | .codingOrField n, c =>
    if n = 6 ∧ c = chr '\n' then some ([.transChunked], .headers)
    else if n = 6 ∧ c = chr '\r' then some ([], .codingLF)
    else if continues "chunked" (n + 1) c then some ([], .codingOrField (n + 1))
    else if n = 0 ∧ continues "Content-Length" 1 c then some ([], .contentLength 1)
    else nameNext c
  | .codingOrValue n, c =>
    if n = 6 ∧ c = chr '\n' then some ([.transChunked], .headers)
    else if n = 6 ∧ c = chr '\r' then some ([], .codingLF)
    else if continues "chunked" (n + 1) c then some ([], .codingOrValue (n + 1))
    else some (valueNext c)
  | .codingLF, c => if c = chr '\n' then some ([.transChunked], .headers) else none
  | .done, _ => none
  | .lengthDone, c => lengthBlankNext c
  | .codingDone, c => codingBlankNext c

/-- The states that `execute` does not go on from. -/
def Cs.stops : Cs → Bool
  | .error | .done | .lengthDone | .codingDone => true
  | _ => false

/-! ### What a transition can do -/

/-- A transition stops the machine exactly with the action `done`, and a number is
only read once a byte behind its digits has come. -/
structure Sound (c : Byte) (acts : List Act) (cs' : Cs) : Prop where
  ne_error : cs' ≠ .error
  done_iff : .done ∈ acts ↔ cs'.stops = true
  decimal : .writeContentLen ∈ acts ∨ .statusCode ∈ acts → isDigit c = false
  hex : .chunkSize ∈ acts → isXdigit c = false

/-- A transition that reads no number. -/
structure Numberless (acts : List Act) (cs' : Cs) : Prop where
  goes : cs' ≠ .error ∧ cs' ≠ .start ∧ cs' ≠ .chunkSize
  done_iff : .done ∈ acts ↔ cs'.stops = true
  acts : ∀ a ∈ acts, a ≠ .writeContentLen ∧ a ≠ .statusCode ∧ a ≠ .chunkSize

section

variable {cs cs' d : Cs} {c : Byte} {acts a : List Act}

theorem Numberless.sound (h : Numberless acts cs') (c : Byte) : Sound c acts cs' := by
  refine ⟨h.goes.1, h.done_iff, ?_, ?_⟩
  · rintro (hmem | hmem)
    · exact absurd rfl (h.acts _ hmem).1
    · exact absurd rfl (h.acts _ hmem).2.1
  · exact fun hmem => absurd rfl (h.acts _ hmem).2.2

theorem numberless_of_eq (heq : some (a, d) = some (acts, cs'))
    (hgoes : d ≠ .error ∧ d ≠ .start ∧ d ≠ .chunkSize) (hdone : .done ∈ a ↔ d.stops = true)
    (hacts : ∀ x ∈ a, x ≠ .writeContentLen ∧ x ≠ .statusCode ∧ x ≠ .chunkSize) :
    Numberless acts cs' := by
  obtain ⟨rfl, rfl⟩ := Prod.mk.inj (Option.some.inj heq)
  exact ⟨hgoes, hdone, hacts⟩

theorem numberless_fieldNext (h : fieldNext c = some (acts, cs')) : Numberless acts cs' := by
  unfold fieldNext at h
  split_ifs at h
  all_goals exact numberless_of_eq h ⟨nofun, nofun, nofun⟩ (by decide) (by decide)

theorem numberless_nameNext (h : nameNext c = some (acts, cs')) : Numberless acts cs' := by
  unfold nameNext at h
  split_ifs at h
  all_goals exact numberless_of_eq h ⟨nofun, nofun, nofun⟩ (by decide) (by decide)

theorem numberless_valueNext (h : some (valueNext c) = some (acts, cs')) :
    Numberless acts cs' := by
  unfold valueNext at h
  split_ifs at h
  all_goals exact numberless_of_eq h ⟨nofun, nofun, nofun⟩ (by decide) (by decide)

theorem numberless_lengthBlankNext (h : lengthBlankNext c = some (acts, cs')) :
    Numberless acts cs' := by
  unfold lengthBlankNext at h
  split_ifs at h
  all_goals exact numberless_of_eq h ⟨nofun, nofun, nofun⟩ (by decide) (by decide)

theorem numberless_codingBlankNext (h : codingBlankNext c = some (acts, cs')) :
    Numberless acts cs' := by
  unfold codingBlankNext at h
  split_ifs at h
  all_goals exact numberless_of_eq h ⟨nofun, nofun, nofun⟩ (by decide) (by decide)

/-- The states in which a number ends, or a size begins. -/
def Cs.atNumber : Cs → Bool
  | .start | .chunkSize | .status | .length | .lengthOrField | .lengthOrValue => true
  | _ => false

/-- Elsewhere none is read. -/
theorem next_numberless (hcs : cs.atNumber = false) (h : cs.next c = some (acts, cs')) :
    Numberless acts cs' := by
  cases cs with
  | error => exact absurd h (by simp [Cs.next])
  | done => exact absurd h (by simp [Cs.next])
  | start | chunkSize | status | length | lengthOrField | lengthOrValue =>
    exact absurd hcs (by simp [Cs.atNumber])
  | _ =>
    simp only [Cs.next] at h
    repeat' split at h
    all_goals
      first
      | contradiction
      | exact numberless_of_eq h ⟨nofun, nofun, nofun⟩ (of_decide_eq_true rfl)
          (of_decide_eq_true rfl)
      | exact numberless_fieldNext h
      | exact numberless_nameNext h
      | exact numberless_valueNext h
      | exact numberless_lengthBlankNext h
      | exact numberless_codingBlankNext h

/-- A transition stops the machine only with `done`, and a number ends behind its digits. -/
theorem next_sound (h : cs.next c = some (acts, cs')) : Sound c acts cs' := by
  cases hcs : cs.atNumber with
  | false => exact (next_numberless hcs h).sound c
  | true =>
    cases cs with
    | start | chunkSize | status | length | lengthOrField | lengthOrValue =>
      simp only [Cs.next, nameNext] at h
      split_ifs at h
      all_goals
        obtain ⟨rfl, rfl⟩ := Prod.mk.inj (Option.some.inj h)
        subst_vars
        refine ⟨by simp, by simp [Cs.stops], ?_, ?_⟩
        all_goals first | decide | simp
    | _ => exact absurd hcs (by simp [Cs.atNumber])

end

/-! ### The line in front of a chunk -/

/-- The states behind the digits of a chunk's size. -/
def Cs.inLine : Cs → Bool
  | .lastLF | .extNameStart | .extName | .extValStart | .extVal => true
  | _ => false

/-- What a transition does there. -/
structure InLine (acts : List Act) (cs' : Cs) : Prop where
  next : cs'.inLine = true ∧ .done ∉ acts ∨ cs' = .done ∧ .done ∈ acts
  acts : ∀ a ∈ acts, a = .mark ∨ a = .startField ∨ a = .writeField ∨ a = .done

theorem next_inLine {cs cs' : Cs} {c : Byte} {acts : List Act} (hcs : cs.inLine = true)
    (h : cs.next c = some (acts, cs')) : InLine acts cs' := by
  cases cs with
  | lastLF | extNameStart | extName | extValStart | extVal =>
    simp only [Cs.next] at h
    split_ifs at h
    all_goals
      obtain ⟨rfl, rfl⟩ := Prod.mk.inj (Option.some.inj h)
      exact ⟨by simp [Cs.inLine], by simp⟩
  | _ => exact absurd hcs (by simp [Cs.inLine])

/-- The machine without its actions. -/
def Cs.run : Cs → List Byte → Option Cs
  | cs, [] => some cs
  | cs, c :: xs => (cs.next c).bind fun (_, cs') => cs'.run xs

theorem run_append (cs : Cs) (xs ys : List Byte) :
    cs.run (xs ++ ys) = (cs.run xs).bind fun cs' => cs'.run ys := by
  induction xs generalizing cs with
  | nil => rfl
  | cons c xs ih =>
    simp only [List.cons_append, Cs.run, ih]
    cases cs.next c <;> rfl

/-- Bytes that leave the state as it is. -/
theorem run_loop {cs : Cs} {xs : List Byte} (h : ∀ c ∈ xs, cs.next c = some ([], cs)) :
    cs.run xs = some cs := by
  induction xs with
  | nil => rfl
  | cons c xs ih =>
    have hrest : cs.run xs = some cs := ih fun c hc => h c (List.mem_cons_of_mem _ hc)
    simp only [Cs.run, h c (List.mem_cons_self ..), Option.bind_some, hrest]

theorem stops_of_inLine {cs : Cs} (h : cs.inLine = true) : cs.stops = false := by
  cases cs with
  | lastLF | extNameStart | extName | extValStart | extVal => rfl
  | _ => exact absurd h (by simp [Cs.inLine])

/-- What has been read of a line that is read to its end. -/
theorem inLine_of_run {cs cs' : Cs} {xs ys : List Byte} (hcs : cs.inLine = true)
    (hrun : cs.run xs = some cs') (hrest : cs'.run ys = some .done) (hys : ys ≠ []) :
    cs'.inLine = true := by
  induction xs generalizing cs with
  | nil => exact Option.some.inj hrun ▸ hcs
  | cons c xs ih =>
    obtain ⟨⟨acts, cs₁⟩, hnext, hrun⟩ := Option.bind_eq_some_iff.mp hrun
    rcases (next_inLine hcs hnext).next with ⟨hcs₁, -⟩ | ⟨rfl, -⟩
    · exact ih hcs₁ hrun
    · -- nothing is read behind the end
      cases xs with
      | nil =>
        obtain rfl := Option.some.inj hrun
        obtain ⟨y, ys, rfl⟩ := List.exists_cons_of_ne_nil hys
        exact absurd hrest (by simp [Cs.run, Cs.next])
      | cons x xs => exact absurd hrun (by simp [Cs.run, Cs.next])

/-- `token+`. -/
def IsToken (xs : List Byte) : Prop := xs ≠ [] ∧ ∀ c ∈ xs, isToken c = true

/-- A name of `chunk_extension`, with its value. -/
structure Extension where
  name : List Byte
  val : Option (List Byte)
  name_token : IsToken name
  val_token : ∀ v ∈ val, IsToken v

def Extension.bytes (e : Extension) : List Byte :=
  chr ';' :: e.name ++ e.val.elim [] fun v => chr '=' :: v

/-- `CRLF`. -/
def crlf : List Byte := [chr '\r', chr '\n']

/-- `Chunked_Header`: the line in front of a chunk. -/
structure ChunkedHeader where
  size : List Byte
  extensions : List Extension
  size_ne_nil : size ≠ []
  xdigits : ∀ c ∈ size, isXdigit c = true

/-- What follows the digits. -/
def ChunkedHeader.rest (h : ChunkedHeader) : List Byte := h.extensions.flatMap Extension.bytes ++ crlf

def ChunkedHeader.bytes (h : ChunkedHeader) : List Byte := h.size ++ h.rest

theorem token_ne {c : Byte} (h : isToken c = true) :
    c ≠ chr '\n' ∧ c ≠ chr '\r' ∧ c ≠ chr ';' ∧ c ≠ chr '=' := by
  refine ⟨?_, ?_, ?_, ?_⟩
  all_goals
    rintro rfl
    exact absurd h (by decide)

theorem xdigit_ne {c : Byte} (h : isXdigit c = true) :
    c ≠ chr 'H' ∧ c ≠ chr '\n' ∧ c ≠ chr '\r' ∧ c ≠ chr ';' := by
  refine ⟨?_, ?_, ?_, ?_⟩
  all_goals
    rintro rfl
    exact absurd h (by decide)

theorem run_extName {xs : List Byte} (h : IsToken xs) :
    Cs.run .extNameStart xs = some .extName := by
  obtain ⟨c, xs, rfl⟩ := List.exists_cons_of_ne_nil h.1
  have hc : isToken c = true := h.2 c (List.mem_cons_self ..)
  have hloop : Cs.run .extName xs = some .extName := by
    refine run_loop fun c hc => ?_
    have hc := h.2 c (List.mem_cons_of_mem _ hc)
    obtain ⟨h₁, h₂, h₃, h₄⟩ := token_ne hc
    simp [Cs.next, h₁, h₂, h₃, h₄, hc]
  simp [Cs.run, Cs.next, hc, hloop]

theorem run_extVal {xs : List Byte} (h : IsToken xs) :
    Cs.run .extValStart xs = some .extVal := by
  obtain ⟨c, xs, rfl⟩ := List.exists_cons_of_ne_nil h.1
  have hc : isToken c = true := h.2 c (List.mem_cons_self ..)
  have hloop : Cs.run .extVal xs = some .extVal := by
    refine run_loop fun c hc => ?_
    have hc := h.2 c (List.mem_cons_of_mem _ hc)
    obtain ⟨h₁, h₂, h₃, -⟩ := token_ne hc
    simp [Cs.next, h₁, h₂, h₃, hc]
  simp [Cs.run, Cs.next, hc, hloop]

/-- The states in which a line may end. -/
def Cs.lineEnd (cs : Cs) : Prop := cs = .chunkSize ∨ cs = .extName ∨ cs = .extVal

theorem run_extension {cs : Cs} (hcs : cs.lineEnd) (e : Extension) :
    ∃ cs', cs.run e.bytes = some cs' ∧ cs'.lineEnd := by
  have hsemi : ∃ acts, cs.next (chr ';') = some (acts, .extNameStart) := by
    rcases hcs with rfl | rfl | rfl
    · exact ⟨_, rfl⟩
    · exact ⟨_, rfl⟩
    · exact ⟨_, rfl⟩
  obtain ⟨acts, hsemi⟩ := hsemi
  have hname : cs.run (chr ';' :: e.name) = some .extName := by
    simp only [Cs.run, hsemi, Option.bind_some, run_extName e.name_token]
  rw [Extension.bytes, run_append, hname]
  cases hval : e.val with
  | none => exact ⟨.extName, rfl, .inr (.inl rfl)⟩
  | some v =>
    refine ⟨.extVal, ?_, .inr (.inr rfl)⟩
    have hequals : Cs.next .extName (chr '=') = some ([.writeField, .mark], .extValStart) := rfl
    simp only [Option.elim_some, Option.bind_some, Cs.run, hequals,
      run_extVal (e.val_token v hval)]

/-- The machine accepts the grammar. -/
theorem run_rest {cs : Cs} (hcs : cs.lineEnd) (es : List Extension) :
    cs.run (es.flatMap Extension.bytes ++ crlf) = some .done := by
  induction es generalizing cs with
  | nil =>
    rcases hcs with rfl | rfl | rfl
    · rfl
    · rfl
    · rfl
  | cons e es ih =>
    obtain ⟨cs', hrun, hcs'⟩ := run_extension hcs e
    rw [List.flatMap_cons, List.append_assoc, run_append, hrun]
    exact ih hcs'

end HttpClientParser

/-! ### The parser -/

open HttpClientParser

/-- `httpclient_parser`, without the callbacks. -/
structure Client where
  cs : Cs
  bodyStart : ℕ
  contentLen : ℤ
  status : ℤ
  chunked : Bool
  chunksDone : Bool
  nread : ℕ
  mark : ℕ
  fieldStart : ℕ
  fieldLen : ℕ
  deriving DecidableEq

/-- The value of a digit. -/
def digitValue (c : Byte) : ℕ :=
  if isDigit c then c.toNat - 48 else if HttpParser.isUpper c then c.toNat - 55 else c.toNat - 87

/-- The number that digits denote. -/
def numeral (base : ℕ) (digits : List Byte) : ℕ :=
  digits.foldl (fun n c => base * n + digitValue c) 0

/-- The low 32 bits. -/
def toInt (n : ℤ) : ℤ := Int.bmod n (2 ^ 32)

/-- An `int` keeps a small number. -/
theorem toInt_of_lt {n : ℕ} (h : n < 2 ^ 31) : toInt n = n := by
  rw [toInt]
  exact Int.bmod_eq_of_le (by omega) (by omega)

/-- `strtol` where there is a digit, into an `int`: the number is clamped to a
`long`. -/
def strtol (base : ℕ) (isDig : Byte → Bool) (xs : List Byte) : ℤ :=
  toInt (min (2 ^ 63 - 1) (numeral base (xs.takeWhile isDig)))

namespace Client

/-- `httpclient_parser_init`. -/
def init (client : Client) : Client :=
  { client with
    cs := .start, bodyStart := 0, contentLen := -1, chunked := false, chunksDone := false
    mark := 0, nread := 0, fieldLen := 0, fieldStart := 0 }

variable (client : Client)

/-- An action of the machine at the byte `buffer[fpc]`. -/
def act (buffer : List Byte) (fpc : ℕ) : Act → Client
  | .mark => { client with mark := fpc }
  | .startField => { client with fieldStart := fpc }
  | .writeField => { client with fieldLen := fpc - client.fieldStart }
  | .writeContentLen => { client with contentLen := strtol 10 isDigit (buffer.drop client.mark) }
  | .statusCode => { client with status := strtol 10 isDigit (buffer.drop client.mark) }
  | .chunkSize =>
    let n := strtol 16 isXdigit (buffer.drop client.mark)
    { client with chunked := true, contentLen := n, chunksDone := n ≤ 0 }
  | .transChunked => { client with chunked := true }
  | .done => { client with bodyStart := fpc + 1 }

/-- A transition to `cs` with its actions. -/
def take (buffer : List Byte) (fpc : ℕ) (acts : List Act) (cs : Cs) : Client :=
  { acts.foldl (fun client a => client.act buffer fpc a) client with cs := cs }

/-- Run the machine over the bytes from `buffer[fpc]` on; also the position it
stops at. -/
def consume (buffer : List Byte) : ℕ → List Byte → Client → Client × ℕ
  | fpc, [], client => (client, fpc)
  | fpc, c :: xs, client =>
    match client.cs.next c with
    | none => ({ client with cs := .error }, fpc)
    | some (acts, cs) =>
      let client' := client.take buffer fpc acts cs
      if .done ∈ acts then (client', fpc + 1) else consume buffer (fpc + 1) xs client'

/-- `httpclient_parser_execute` on the bytes in `buffer` from `off` on, with what it
returns; `none` for -1.  An assertion that fails is `none` on the outside. -/
def execute (buffer : List Byte) (off : ℕ) : Option (Client × Option ℕ) :=
  if buffer.length < off then none
  else
    let (client, p) := client.consume buffer off (buffer.drop off)
    let client := { client with nread := client.nread + (p - off) }
    if buffer.length < client.nread ∨ buffer.length < client.bodyStart then none
    else if client.mark < buffer.length ∧ client.fieldLen ≤ buffer.length ∧
        client.fieldStart < buffer.length then
      let client := if client.bodyStart = 0 then client else { client with nread := client.nread + 1 }
      some (client, some client.nread)
    else some (client, none)

/-- `httpclient_parser_has_error`. -/
def hasError : Bool := client.cs == .error

/-- `httpclient_parser_is_finished`. -/
def isFinished : Bool := client.cs == .done

/-- `httpclient_parser_finish`. -/
def finish : ℤ := if client.hasError then -1 else if client.isFinished then 1 else 0

/-! ### Its indices -/

/-- The indices that the parser keeps lie in the buffer. -/
structure InBounds (len : ℕ) (client : Client) : Prop where
  mark : client.mark < len
  fieldStart : client.fieldStart < len
  fieldLen : client.fieldLen ≤ len
  bodyStart : client.bodyStart ≤ len

section

variable {client : Client} {buffer rest : List Byte} {len fpc : ℕ}

theorem inBounds_act (h : client.InBounds len) (hfpc : fpc < len) (a : Act) :
    (client.act buffer fpc a).InBounds len := by
  obtain ⟨h₁, h₂, h₃, h₄⟩ := h
  cases a with
  | mark => exact ⟨hfpc, h₂, h₃, h₄⟩
  | startField => exact ⟨h₁, hfpc, h₃, h₄⟩
  | writeField => exact ⟨h₁, h₂, (Nat.sub_le ..).trans hfpc.le, h₄⟩
  | done => exact ⟨h₁, h₂, h₃, hfpc⟩
  | writeContentLen | statusCode | chunkSize | transChunked => exact ⟨h₁, h₂, h₃, h₄⟩

theorem nread_act (a : Act) : (client.act buffer fpc a).nread = client.nread := by
  cases a <;> rfl

theorem take_spec (h : client.InBounds len) (hfpc : fpc < len) (acts : List Act) (cs : Cs) :
    (client.take buffer fpc acts cs).InBounds len ∧
      (client.take buffer fpc acts cs).nread = client.nread := by
  have hfold : (acts.foldl (fun client a => client.act buffer fpc a) client).InBounds len ∧
      (acts.foldl (fun client a => client.act buffer fpc a) client).nread = client.nread := by
    induction acts generalizing client with
    | nil => exact ⟨h, rfl⟩
    | cons a acts ih =>
      obtain ⟨hin, hnread⟩ := @ih (client.act buffer fpc a) (inBounds_act h hfpc a)
      exact ⟨hin, hnread.trans (nread_act a)⟩
  obtain ⟨⟨h₁, h₂, h₃, h₄⟩, hnread⟩ := hfold
  exact ⟨⟨h₁, h₂, h₃, h₄⟩, hnread⟩

theorem consume_spec {xs : List Byte} (h : client.InBounds len) (hlen : fpc + xs.length ≤ len) :
    (client.consume buffer fpc xs).1.InBounds len ∧
      (client.consume buffer fpc xs).1.nread = client.nread ∧
      fpc ≤ (client.consume buffer fpc xs).2 ∧
      (client.consume buffer fpc xs).2 ≤ fpc + xs.length := by
  induction xs generalizing client fpc with
  | nil => exact ⟨h, rfl, le_rfl, le_rfl⟩
  | cons c xs ih =>
    have hlen' : fpc + (xs.length + 1) ≤ len := hlen
    rw [List.length_cons, consume]
    split
    · exact ⟨⟨h.1, h.2, h.3, h.4⟩, rfl, le_rfl, by omega⟩
    case h_2 acts cs hnext =>
      obtain ⟨hin, hnread⟩ := @take_spec client buffer len fpc h (by omega) acts cs
      dsimp only
      split
      · exact ⟨hin, hnread, by dsimp only; omega, by dsimp only; omega⟩
      · obtain ⟨hin', hnread', hle, hle'⟩ := @ih (client.take buffer fpc acts cs) (fpc + 1) hin
          (by omega)
        exact ⟨hin', hnread'.trans hnread, by omega, by omega⟩

theorem inBounds_init (hlen : 0 < len) : client.init.InBounds len :=
  ⟨hlen, hlen, hlen.le, hlen.le⟩

/-- No assertion and no check of `execute` fails after `init`. -/
theorem execute_init {off : ℕ} (hpos : 0 < buffer.length) (hoff : off ≤ buffer.length) :
    ∃ k n, client.init.execute buffer off =
      some ({ (client.init.consume buffer off (buffer.drop off)).1 with nread := k }, some n) := by
  have hlen : off + (buffer.drop off).length ≤ buffer.length := by
    rw [List.length_drop]
    omega
  obtain ⟨hin, hnread, hle, hle'⟩ := @consume_spec client.init buffer buffer.length off
    (buffer.drop off) (inBounds_init hpos) hlen
  have hzero : client.init.nread = 0 := rfl
  have hbody := hin.bodyStart
  rw [execute, if_neg (not_lt.mpr hoff)]
  dsimp only
  have hassert : ¬ (buffer.length < (client.init.consume buffer off (buffer.drop off)).1.nread +
        ((client.init.consume buffer off (buffer.drop off)).2 - off) ∨
      buffer.length < (client.init.consume buffer off (buffer.drop off)).1.bodyStart) := by
    rw [hnread, hzero]
    omega
  rw [if_neg hassert, if_pos ⟨hin.mark, hin.fieldLen, hin.fieldStart⟩]
  split
  · exact ⟨_, _, rfl⟩
  · exact ⟨_, _, rfl⟩

/-! ### Bytes behind a header -/

/-- A number is read to its last digit. -/
theorem strtol_append {base : ℕ} {isDig : Byte → Bool} {xs ys : List Byte}
    (h : ∃ c ∈ xs, isDig c = false) : strtol base isDig (xs ++ ys) = strtol base isDig xs := by
  have htake : (xs ++ ys).takeWhile isDig = xs.takeWhile isDig := by
    induction xs with
    | nil => simp at h
    | cons x xs ih =>
      rw [List.cons_append, List.takeWhile_cons, List.takeWhile_cons]
      split
      case isFalse => rfl
      case isTrue hx =>
        obtain ⟨c, hc, hdig⟩ := h
        rcases List.mem_cons.mp hc with rfl | hc
        · exact absurd hx (by simp [hdig])
        · rw [ih ⟨c, hc, hdig⟩]
  rw [strtol, strtol, htake]

theorem act_append {c : Byte} {a : Act} (hmark : client.mark ≤ fpc) (hc : buffer[fpc]? = some c)
    (hdecimal : a = .writeContentLen ∨ a = .statusCode → isDigit c = false)
    (hhex : a = .chunkSize → isXdigit c = false) :
    client.act (buffer ++ rest) fpc a = client.act buffer fpc a := by
  obtain ⟨hlt, hget⟩ := List.getElem?_eq_some_iff.mp hc
  have hdrop : (buffer ++ rest).drop client.mark = buffer.drop client.mark ++ rest :=
    List.drop_append_of_le_length (by omega)
  have hmem : c ∈ buffer.drop client.mark := by
    rw [List.mem_drop_iff_getElem]
    exact ⟨fpc - client.mark, by omega, by rw [← hget]; congr 1; omega⟩
  cases a with
  | writeContentLen =>
    simp only [act, hdrop, strtol_append ⟨c, hmem, hdecimal (.inl rfl)⟩]
  | statusCode =>
    simp only [act, hdrop, strtol_append ⟨c, hmem, hdecimal (.inr rfl)⟩]
  | chunkSize =>
    simp only [act, hdrop, strtol_append ⟨c, hmem, hhex rfl⟩]
  | mark | startField | writeField | transChunked | done => rfl

theorem mark_act (hmark : client.mark ≤ fpc) (a : Act) :
    (client.act buffer fpc a).mark ≤ fpc := by
  cases a <;> first | exact hmark | exact le_rfl

theorem act_append_of_mem {c : Byte} {acts : List Act} {a : Act} (hmark : client.mark ≤ fpc)
    (hc : buffer[fpc]? = some c) (ha : a ∈ acts)
    (hdecimal : .writeContentLen ∈ acts ∨ .statusCode ∈ acts → isDigit c = false)
    (hhex : .chunkSize ∈ acts → isXdigit c = false) :
    client.act (buffer ++ rest) fpc a = client.act buffer fpc a := by
  refine act_append hmark hc ?_ ?_
  · rintro (rfl | rfl)
    · exact hdecimal (.inl ha)
    · exact hdecimal (.inr ha)
  · rintro rfl
    exact hhex ha

theorem foldl_act_append {c : Byte} {acts : List Act} (hmark : client.mark ≤ fpc)
    (hc : buffer[fpc]? = some c)
    (hdecimal : .writeContentLen ∈ acts ∨ .statusCode ∈ acts → isDigit c = false)
    (hhex : .chunkSize ∈ acts → isXdigit c = false) :
    acts.foldl (fun client a => client.act (buffer ++ rest) fpc a) client =
        acts.foldl (fun client a => client.act buffer fpc a) client ∧
      (acts.foldl (fun client a => client.act buffer fpc a) client).mark ≤ fpc := by
  induction acts generalizing client with
  | nil => exact ⟨by rw [List.foldl_nil, List.foldl_nil], hmark⟩
  | cons a acts ih =>
    have hact : client.act (buffer ++ rest) fpc a = client.act buffer fpc a :=
      act_append_of_mem hmark hc (List.mem_cons_self ..) hdecimal hhex
    rw [List.foldl_cons, List.foldl_cons, hact]
    refine ih (mark_act hmark a) ?_ fun h => hhex (List.mem_cons_of_mem _ h)
    rintro (h | h)
    · exact hdecimal (.inl (List.mem_cons_of_mem _ h))
    · exact hdecimal (.inr (List.mem_cons_of_mem _ h))

theorem take_append {c : Byte} {acts : List Act} {cs : Cs} (hmark : client.mark ≤ fpc)
    (hc : buffer[fpc]? = some c) (h : Sound c acts cs) :
    client.take (buffer ++ rest) fpc acts cs = client.take buffer fpc acts cs ∧
      (client.take buffer fpc acts cs).mark ≤ fpc := by
  obtain ⟨heq, hle⟩ := @foldl_act_append client buffer rest fpc c acts hmark hc h.decimal h.hex
  refine ⟨?_, hle⟩
  rw [take, take, heq]

/-- Where the machine stops, bytes behind the buffer change nothing. -/
theorem consume_append {xs : List Byte} (hmark : client.mark ≤ fpc) (hxs : buffer.drop fpc = xs)
    (hcs : client.cs.stops = false) (hstop : (client.consume buffer fpc xs).1.cs.stops = true) :
    client.consume (buffer ++ rest) fpc (xs ++ rest) = client.consume buffer fpc xs := by
  induction xs generalizing client fpc with
  | nil => exact absurd hstop (by simp [consume, hcs])
  | cons c xs ih =>
    obtain ⟨hc, hrest⟩ := drop_eq_cons hxs
    rw [consume] at hstop
    rw [List.cons_append, consume, consume]
    cases hnext : client.cs.next c with
    | none => rfl
    | some r =>
      obtain ⟨acts, cs⟩ := r
      have hsound := next_sound hnext
      obtain ⟨htake, hmark'⟩ := @take_append client buffer rest fpc c acts cs hmark hc hsound
      rw [hnext] at hstop
      dsimp only at hstop ⊢
      rw [htake]
      split
      · rfl
      case isFalse hdone =>
        rw [if_neg hdone] at hstop
        have hcs' : cs.stops = false := by
          rw [← Bool.not_eq_true, ← hsound.done_iff]
          exact hdone
        exact ih (by omega) hrest hcs' hstop

/-! ### Reading the line in front of a chunk -/

/-- What the parser holds once it has read the digits. -/
structure Sized (n : ℤ) (client : Client) : Prop where
  chunked : client.chunked = true
  contentLen : client.contentLen = n
  chunksDone : client.chunksDone = decide (n ≤ 0)

theorem foldl_inLine {acts : List Act} {n : ℤ} (hsized : client.Sized n)
    (hacts : ∀ a ∈ acts, a = .mark ∨ a = .startField ∨ a = .writeField ∨ a = .done) :
    (acts.foldl (fun client a => client.act buffer fpc a) client).Sized n ∧
      (acts.foldl (fun client a => client.act buffer fpc a) client).bodyStart =
        if .done ∈ acts then fpc + 1 else client.bodyStart := by
  induction acts generalizing client with
  | nil => exact ⟨hsized, rfl⟩
  | cons a acts ih =>
    have ha := hacts a (List.mem_cons_self ..)
    have hact : (client.act buffer fpc a).Sized n := by
      rcases ha with rfl | rfl | rfl | rfl
      all_goals exact ⟨hsized.1, hsized.2, hsized.3⟩
    have hbody : (client.act buffer fpc a).bodyStart =
        if a = .done then fpc + 1 else client.bodyStart := by
      rcases ha with rfl | rfl | rfl | rfl
      all_goals rfl
    obtain ⟨hsized', hbody'⟩ := ih hact fun b hb => hacts b (List.mem_cons_of_mem _ hb)
    refine ⟨hsized', ?_⟩
    rw [List.foldl_cons, hbody', hbody]
    by_cases hmem : .done ∈ acts
    · rw [if_pos hmem, if_pos (List.mem_cons_of_mem _ hmem)]
    · rw [if_neg hmem]
      by_cases heq : a = .done
      · rw [if_pos heq, if_pos (heq ▸ List.mem_cons_self ..)]
      · rw [if_neg heq, if_neg]
        rintro (_ | ⟨_, h⟩)
        · exact heq rfl
        · exact hmem h

/-- The part of a line behind the digits, as far as it has come. -/
theorem consume_inLine {xs : List Byte} {cs' : Cs} {n : ℤ} (hcs : client.cs.inLine = true)
    (hrun : client.cs.run xs = some cs') (hcs' : cs'.inLine = true) (hsized : client.Sized n) :
    (client.consume buffer fpc xs).1.cs = cs' ∧ (client.consume buffer fpc xs).1.Sized n ∧
      (client.consume buffer fpc xs).1.bodyStart = client.bodyStart := by
  induction xs generalizing client fpc with
  | nil => exact ⟨Option.some.inj hrun, hsized, rfl⟩
  | cons c xs ih =>
    obtain ⟨⟨acts, cs₁⟩, hnext, hrun⟩ := Option.bind_eq_some_iff.mp hrun
    have hin := next_inLine hcs hnext
    obtain ⟨hsized₁, hbody₁⟩ := @foldl_inLine client buffer fpc acts n hsized hin.acts
    rw [consume, hnext]
    rcases hin.next with ⟨hcs₁, hdone⟩ | ⟨rfl, -⟩
    · dsimp only
      rw [if_neg hdone] at hbody₁ ⊢
      obtain ⟨h₁, h₂, h₃⟩ := @ih (client.take buffer fpc acts cs₁) (fpc + 1) hcs₁ hrun
        ⟨hsized₁.1, hsized₁.2, hsized₁.3⟩
      exact ⟨h₁, h₂, h₃.trans hbody₁⟩
    · -- the machine has stopped
      cases xs with
      | nil =>
        obtain rfl := Option.some.inj hrun
        exact absurd hcs' (by simp [Cs.inLine])
      | cons x xs => exact absurd hrun (by simp [Cs.run, Cs.next])

/-- The part of a line behind the digits, when all of it has come. -/
theorem consume_line {xs ys : List Byte} {n : ℤ} (hcs : client.cs.inLine = true)
    (hrun : client.cs.run xs = some .done) (hsized : client.Sized n) :
    (client.consume buffer fpc (xs ++ ys)).1.cs = .done ∧
      (client.consume buffer fpc (xs ++ ys)).1.Sized n ∧
      (client.consume buffer fpc (xs ++ ys)).1.bodyStart = fpc + xs.length := by
  induction xs generalizing client fpc with
  | nil =>
    have heq : client.cs = .done := Option.some.inj hrun
    rw [heq] at hcs
    exact absurd hcs (by simp [Cs.inLine])
  | cons c xs ih =>
    obtain ⟨⟨acts, cs₁⟩, hnext, hrun⟩ := Option.bind_eq_some_iff.mp hrun
    have hin := next_inLine hcs hnext
    obtain ⟨hsized₁, hbody₁⟩ := @foldl_inLine client buffer fpc acts n hsized hin.acts
    rw [List.cons_append, consume, hnext, List.length_cons]
    rcases hin.next with ⟨hcs₁, hdone⟩ | ⟨rfl, hdone⟩
    · dsimp only
      rw [if_neg hdone]
      obtain ⟨h₁, h₂, h₃⟩ := @ih (client.take buffer fpc acts cs₁) (fpc + 1) hcs₁ hrun
        ⟨hsized₁.1, hsized₁.2, hsized₁.3⟩
      exact ⟨h₁, h₂, by omega⟩
    · cases xs with
      | cons x xs => exact absurd hrun (by simp [Cs.run, Cs.next])
      | nil =>
        dsimp only
        rw [if_pos hdone] at hbody₁ ⊢
        exact ⟨rfl, ⟨hsized₁.1, hsized₁.2, hsized₁.3⟩, hbody₁⟩

/-- The digits of a size. -/
theorem consume_digits {ds : List Byte} (hds : ∀ d ∈ ds, isXdigit d = true) (hne : ds ≠ [])
    (ys : List Byte) :
    client.init.consume buffer fpc (ds ++ ys) =
      { client.init with cs := .chunkSize, mark := fpc }.consume buffer (fpc + ds.length) ys := by
  obtain ⟨d, ds, rfl⟩ := List.exists_cons_of_ne_nil hne
  have hd : Cs.next .start d = some ([.mark], .chunkSize) := by
    have hdig := hds d (List.mem_cons_self ..)
    simp [Cs.next, (xdigit_ne hdig).1, hdig]
  -- every further digit leaves the parser as it is
  have hloop : ∀ (ds : List Byte) (q : ℕ), (∀ d ∈ ds, isXdigit d = true) →
      { client.init with cs := .chunkSize, mark := fpc }.consume buffer q (ds ++ ys) =
        { client.init with cs := .chunkSize, mark := fpc }.consume buffer (q + ds.length) ys := by
    intro ds
    induction ds with
    | nil => exact fun q _ => rfl
    | cons d ds ih =>
      intro q hds
      have hdig := hds d (List.mem_cons_self ..)
      have hnext : Cs.next .chunkSize d = some ([], .chunkSize) := by
        obtain ⟨-, h₁, h₂, h₃⟩ := xdigit_ne hdig
        simp [Cs.next, h₁, h₂, h₃, hdig]
      rw [List.cons_append, consume, hnext, List.length_cons, Nat.add_comm ds.length,
        ← Nat.add_assoc, ← ih (q + 1) fun c hc => hds c (List.mem_cons_of_mem _ hc)]
      rfl
  have hrest := hloop ds (fpc + 1) fun c hc => hds c (List.mem_cons_of_mem _ hc)
  have hinit : client.init.cs.next d = some ([.mark], .chunkSize) := hd
  rw [List.cons_append, consume, hinit, List.length_cons, Nat.add_comm ds.length, ← Nat.add_assoc,
    ← hrest]
  rfl

end

end Client

open Client

/-- The number of a line. -/
def HttpClientParser.ChunkedHeader.value (h : ChunkedHeader) : ℕ := numeral 16 h.size

/-- What the parser makes of it. -/
def HttpClientParser.ChunkedHeader.contentLen (h : ChunkedHeader) : ℤ :=
  toInt (min (2 ^ 63 - 1) h.value)

theorem rest_cons (h : ChunkedHeader) : ∃ c tail cs, h.rest = c :: tail ∧
    Cs.next .chunkSize c = some ([.chunkSize], cs) ∧ isXdigit c = false ∧ cs.inLine = true ∧
    cs.run tail = some .done := by
  have hrun : Cs.run .chunkSize h.rest = some .done := run_rest (.inl rfl) h.extensions
  rw [ChunkedHeader.rest] at hrun ⊢
  generalize h.extensions = exts at hrun ⊢
  cases exts with
  | nil => exact ⟨chr '\r', [chr '\n'], .lastLF, rfl, rfl, by decide, rfl, rfl⟩
  | cons e es =>
    refine ⟨chr ';', (e.name ++ e.val.elim [] fun v => chr '=' :: v) ++
      (es.flatMap Extension.bytes ++ crlf), .extNameStart, ?_, rfl, by decide, rfl, ?_⟩
    · rw [List.flatMap_cons, Extension.bytes, List.append_assoc]
      rfl
    · rw [List.flatMap_cons, Extension.bytes, List.append_assoc] at hrun
      exact hrun

section

variable {client : Client} {pre post part : List Byte} (h : ChunkedHeader)

/-- The digits and one byte more. -/
theorem consume_size {c : Byte} {cs : Cs} (hnext : Cs.next .chunkSize c = some ([.chunkSize], cs))
    (hc : isXdigit c = false) (xs : List Byte) :
    ∃ client' : Client, client.init.consume (pre ++ (h.size ++ c :: xs)) pre.length (h.size ++ c :: xs) =
        client'.consume (pre ++ (h.size ++ c :: xs)) (pre.length + h.size.length + 1) xs ∧
      client'.cs = cs ∧ client'.Sized h.contentLen ∧ client'.bodyStart = 0 := by
  have hnumber : strtol 16 isXdigit (h.size ++ c :: xs) = h.contentLen := by
    have htake : (h.size ++ c :: xs).takeWhile isXdigit = h.size := by
      rw [List.takeWhile_append_of_pos h.xdigits, List.takeWhile_cons_of_neg (by simp [hc]),
        List.append_nil]
    rw [strtol, htake]
    rfl
  have hdone : ¬ Act.done ∈ [Act.chunkSize] := by simp
  rw [consume_digits h.xdigits h.size_ne_nil, consume, hnext]
  dsimp only
  rw [if_neg hdone]
  refine ⟨_, rfl, rfl, ?_, rfl⟩
  have hsized : ∀ n, n = h.contentLen →
      Client.Sized h.contentLen { client.init with
        cs := cs, mark := pre.length, chunked := true, contentLen := n, chunksDone := n ≤ 0 } := by
    rintro n rfl
    exact ⟨rfl, rfl, rfl⟩
  refine hsized (strtol 16 isXdigit ((pre ++ (h.size ++ c :: xs)).drop pre.length)) ?_
  rw [List.drop_left, hnumber]

/-- **The line in front of a chunk** is read to its end, whatever follows. -/
theorem execute_line : ∃ client' n,
    client.init.execute (pre ++ (h.bytes ++ post)) pre.length = some (client', some n) ∧
      client'.cs = .done ∧ client'.Sized h.contentLen ∧
      client'.bodyStart = pre.length + h.bytes.length := by
  obtain ⟨c, tail, cs, hrest, hnext, hc, hcs, hrun⟩ := rest_cons h
  have hbytes : h.bytes ++ post = h.size ++ c :: (tail ++ post) := by
    rw [ChunkedHeader.bytes, hrest, List.append_assoc]
    rfl
  have hlen : h.bytes.length = h.size.length + 1 + tail.length := by
    rw [ChunkedHeader.bytes, hrest, List.length_append, List.length_cons]
    omega
  rw [hbytes]
  obtain ⟨k, n, hexec⟩ := @execute_init client (pre ++ (h.size ++ c :: (tail ++ post))) pre.length
    (List.length_pos_iff.mpr (by simp)) (by simp)
  obtain ⟨client', hconsume, hcs', hsized, -⟩ :=
    @consume_size client pre h c cs hnext hc (tail ++ post)
  rw [← hcs'] at hcs hrun
  obtain ⟨h₁, h₂, h₃⟩ := @consume_line client' (pre ++ (h.size ++ c :: (tail ++ post)))
    (pre.length + h.size.length + 1) tail post h.contentLen hcs hrun hsized
  rw [List.drop_left, hconsume] at hexec
  refine ⟨_, n, hexec, h₁, ⟨h₂.1, h₂.2, h₂.3⟩, ?_⟩
  refine h₃.trans ?_
  omega

/-- A line that breaks off among its digits is not taken for one. -/
theorem execute_digits {ds : List Byte} (hds : ∀ d ∈ ds, isXdigit d = true)
    (hne : pre ++ ds ≠ []) : ∃ client' n,
    client.init.execute (pre ++ ds) pre.length = some (client', some n) ∧
      client'.cs ≠ .error ∧ client'.chunked = false ∧ client'.chunksDone = false := by
  obtain ⟨k, n, hexec⟩ := @execute_init client (pre ++ ds) pre.length
    (List.length_pos_iff.mpr hne) (by simp)
  rw [List.drop_left] at hexec
  refine ⟨_, n, hexec, ?_⟩
  by_cases hnil : ds = []
  · subst hnil
    exact ⟨by simp [consume, init], rfl, rfl⟩
  · have hdigits := @consume_digits client (pre ++ ds) pre.length ds hds hnil []
    rw [List.append_nil] at hdigits
    rw [hdigits]
    exact ⟨by simp [consume], rfl, rfl⟩

/-- A line that breaks off behind its digits is taken for one of which the body starts
at 0. -/
theorem execute_partial {more : List Byte} (hpart : h.rest = part ++ more) (hne : part ≠ [])
    (hmore : more ≠ []) : ∃ client' n,
    client.init.execute (pre ++ (h.size ++ part)) pre.length = some (client', some n) ∧
      client'.cs ≠ .error ∧ client'.Sized h.contentLen ∧ client'.bodyStart = 0 := by
  obtain ⟨c, tail, cs, hrest, hnext, hc, hcs, hrun⟩ := rest_cons h
  obtain ⟨c', part, rfl⟩ := List.exists_cons_of_ne_nil hne
  rw [hrest, List.cons_append, List.cons.injEq] at hpart
  obtain ⟨rfl, rfl⟩ := hpart
  rw [run_append] at hrun
  obtain ⟨cs₁, hrun₁, hrun₂⟩ := Option.bind_eq_some_iff.mp hrun
  have hcs₁ := inLine_of_run hcs hrun₁ hrun₂ hmore
  obtain ⟨k, n, hexec⟩ := @execute_init client (pre ++ (h.size ++ c :: part)) pre.length
    (List.length_pos_iff.mpr (by simp)) (by simp)
  obtain ⟨client', hconsume, hcs', hsized, hbody⟩ :=
    @consume_size client pre h c cs hnext hc part
  rw [← hcs'] at hcs hrun₁
  obtain ⟨h₁, h₂, h₃⟩ := @consume_inLine client' (pre ++ (h.size ++ c :: part))
    (pre.length + h.size.length + 1) part cs₁ h.contentLen hcs hrun₁ hcs₁ hsized
  rw [List.drop_left, hconsume] at hexec
  refine ⟨_, n, hexec, ?_, ⟨h₂.1, h₂.2, h₂.3⟩, h₃.trans hbody⟩
  intro herror
  have hstops := stops_of_inLine hcs₁
  rw [← h₁, show (client'.consume _ _ part).1.cs = .error from herror] at hstops
  exact absurd hstops (by simp [Cs.stops])

end

/-! ### The header of a chunked response -/

/-- Once the machine is in a header it reads no size. -/
theorem next_header {cs cs' : Cs} {c : Byte} {acts : List Act} (hstart : cs ≠ .start)
    (hsize : cs ≠ .chunkSize) (h : cs.next c = some (acts, cs')) :
    cs' ≠ .start ∧ cs' ≠ .chunkSize ∧ .chunkSize ∉ acts := by
  cases hcs : cs.atNumber with
  | false =>
    have hplain := next_numberless hcs h
    exact ⟨hplain.goes.2.1, hplain.goes.2.2, fun hmem => (hplain.acts _ hmem).2.2 rfl⟩
  | true =>
    cases cs with
    | start => exact absurd rfl hstart
    | chunkSize => exact absurd rfl hsize
    | status | length | lengthOrField | lengthOrValue =>
      simp only [Cs.next, nameNext] at h
      split_ifs at h
      all_goals
        obtain ⟨rfl, rfl⟩ := Prod.mk.inj (Option.some.inj h)
        exact ⟨nofun, nofun, by simp⟩
    | _ => exact absurd hcs (by simp [Cs.atNumber])

theorem chunksDone_act {client : Client} {buffer : List Byte} {fpc : ℕ} {a : Act}
    (ha : a ≠ .chunkSize) : (client.act buffer fpc a).chunksDone = client.chunksDone := by
  cases a with
  | chunkSize => exact absurd rfl ha
  | _ => rfl

theorem chunksDone_take {client : Client} {buffer : List Byte} {fpc : ℕ} {acts : List Act} {cs : Cs}
    (hacts : .chunkSize ∉ acts) : (client.take buffer fpc acts cs).chunksDone = client.chunksDone := by
  show (acts.foldl (fun client a => client.act buffer fpc a) client).chunksDone = _
  induction acts generalizing client with
  | nil => rfl
  | cons a acts ih =>
    rw [List.foldl_cons, ih fun h => hacts (List.mem_cons_of_mem _ h)]
    exact chunksDone_act fun h => hacts (h ▸ List.mem_cons_self ..)

theorem chunksDone_consume {client : Client} {buffer xs : List Byte} {fpc : ℕ}
    (hstart : client.cs ≠ .start) (hsize : client.cs ≠ .chunkSize) :
    (client.consume buffer fpc xs).1.chunksDone = client.chunksDone := by
  induction xs generalizing client fpc with
  | nil => rfl
  | cons c xs ih =>
    rw [consume]
    cases hnext : client.cs.next c with
    | none => rfl
    | some r =>
      obtain ⟨acts, cs⟩ := r
      obtain ⟨hstart', hsize', hacts⟩ := next_header hstart hsize hnext
      dsimp only
      split
      · exact chunksDone_take hacts
      · exact (@ih (client.take buffer fpc acts cs) (fpc + 1) hstart' hsize').trans
          (chunksDone_take hacts)

/-- A header of a response that the parser reads to its last byte. -/
structure ResponseHead where
  bytes : List Byte
  http : bytes.head? = some (chr 'H')
  done : ∀ client : Client, (client.init.consume bytes 0 bytes).1.cs = .done
  bodyStart : ∀ client : Client, (client.init.consume bytes 0 bytes).1.bodyStart = bytes.length

section

variable {client : Client} {rest part more : List Byte} (head : ResponseHead)

theorem ResponseHead.ne_nil : head.bytes ≠ [] := by
  intro hnil
  have hhttp := head.http
  rw [hnil] at hhttp
  exact absurd hhttp (by simp)

/-- A header is read as such, whatever follows. -/
theorem execute_responseHead : ∃ k n, client.init.execute (head.bytes ++ rest) 0 =
    some ({ (client.init.consume head.bytes 0 head.bytes).1 with nread := k }, some n) := by
  obtain ⟨k, n, hexec⟩ := @execute_init client (head.bytes ++ rest) 0
    (List.length_pos_iff.mpr (List.append_ne_nil_of_left_ne_nil head.ne_nil _)) (Nat.zero_le _)
  have hconsume : client.init.consume (head.bytes ++ rest) 0 (head.bytes ++ rest) =
      client.init.consume head.bytes 0 head.bytes :=
    consume_append le_rfl rfl rfl (by rw [head.done]; rfl)
  rw [List.drop_zero, hconsume] at hexec
  exact ⟨k, n, hexec⟩

/-- A part of a header is not taken for all of it. -/
theorem execute_responseHead_part (hhead : head.bytes = part ++ more) (hpart : part ≠ [])
    (hmore : more ≠ []) : ∃ client' n,
    client.init.execute part 0 = some (client', some n) ∧ client'.cs ≠ .done := by
  obtain ⟨k, n, hexec⟩ := @execute_init client part 0 (List.length_pos_iff.mpr hpart)
    (Nat.zero_le _)
  refine ⟨_, n, hexec, ?_⟩
  rw [List.drop_zero]
  intro hdone
  -- else the parser had stopped there
  have hdone : (client.init.consume part 0 part).1.cs = .done := hdone
  have hconsume : client.init.consume (part ++ more) 0 (part ++ more) =
      client.init.consume part 0 part :=
    consume_append le_rfl rfl rfl (by rw [hdone]; rfl)
  have hbody := head.bodyStart client
  have hin := (@consume_spec client.init part part.length 0 part
    (inBounds_init (List.length_pos_iff.mpr hpart)) (by simp)).1.bodyStart
  have hpos : 0 < more.length := List.length_pos_iff.mpr hmore
  rw [hhead, hconsume, List.length_append] at hbody
  omega

end

/-- A header that the parser reads to its last byte, and takes for that of a chunked
response. -/
structure ChunkedResponse where
  bytes : List Byte
  http : bytes.head? = some (chr 'H')
  done : ∀ client : Client, (client.init.consume bytes 0 bytes).1.cs = .done
  bodyStart : ∀ client : Client, (client.init.consume bytes 0 bytes).1.bodyStart = bytes.length
  chunked : ∀ client : Client, (client.init.consume bytes 0 bytes).1.chunked = true

section

variable {client : Client} {rest more : List Byte} (head : ChunkedResponse)

/-- It is the header of a response. -/
def ChunkedResponse.toHead : ResponseHead := ⟨head.bytes, head.http, head.done, head.bodyStart⟩

theorem ChunkedResponse.ne_nil : head.bytes ≠ [] := head.toHead.ne_nil

theorem ChunkedResponse.chunksDone :
    (client.init.consume head.bytes 0 head.bytes).1.chunksDone = false := by
  obtain ⟨xs, hxs⟩ := List.head?_eq_some_iff.mp head.http
  have hstart : client.init.cs.next (chr 'H') = some ([.mark], .http 0) := rfl
  have hcons : client.init.consume head.bytes 0 head.bytes =
      { client.init with cs := .http 0 }.consume head.bytes 1 xs := by
    conv_lhs => rw [hxs]
    rw [consume, hstart, ← hxs]
    rfl
  rw [hcons]
  exact chunksDone_consume (by simp) (by simp)

/-- **The header** is read as such, whatever follows. -/
theorem execute_head : ∃ client' n,
    client.init.execute (head.bytes ++ rest) 0 = some (client', some n) ∧
      client'.cs = .done ∧ client'.chunked = true ∧ client'.chunksDone = false ∧
      client'.bodyStart = head.bytes.length := by
  obtain ⟨k, n, hexec⟩ := @execute_responseHead client rest head.toHead
  exact ⟨_, n, hexec, head.done client, head.chunked client, head.chunksDone, head.bodyStart client⟩

end

end Mongrel2

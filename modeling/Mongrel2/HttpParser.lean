/-
The request parser (`http11/http11_parser.rl`, `request.c`).

* `Cs.next` — the transitions of the generated machine, with their actions;
* `Request.execute` — `http_parser_execute` on the bytes read so far;
* `parse` — the request after a parse that starts from scratch;
* `execute_parse` — parsing a longer buffer from where the last parse stopped is
  parsing it from scratch;
* `parse_append` — a finished parse stopped at the last byte of the header, and
  bytes behind it change nothing.

Design notes: a state stands for a run of states of `http11_parser.c` that differ
only in how far into a word or an escape they are; the numbers are in the
comments.  `char` is signed there, so the bytes from 128 on are the ones below 0,
which the grammar calls `national`.  The callbacks get the bytes they are
pointed at.
-/
import Mongrel2.ByteStream

namespace Mongrel2

open ByteStream (Byte)

/-- The bytes of a string. -/
def bytes (s : String) : List Byte := s.toList.map fun c => c.toNat.toUInt8

/-- The byte of a character. -/
def chr (c : Char) : Byte := c.toNat.toUInt8

namespace HttpParser

/-! ### The machine -/

/-- The parts of a request made of `uchar` and `reserved`. -/
inductive Part
  | path | params | query | fragment | absolute
  | jsonPath | jsonParams | jsonQuery
  deriving DecidableEq, Repr

/-- How far into an `escape` the machine is. -/
inductive Esc
  | out | first | second
  deriving DecidableEq, Repr

inductive Cs
  /-- 0 -/
  | error
  /-- 1 -/
  | start
  /-- 2 and 41 to 59: after `n + 1` characters of the method -/
  | method (n : ℕ)
  /-- 3 -/
  | uri
  /-- 4 -/
  | star
  /-- 34 to 37: in `http:` -/
  | scheme (n : ℕ)
  /-- 24 to 26, 27 to 29, 31 to 33, 21 to 23, 38 to 40, 83 with 86 and 87, 88 to
  90, 92 to 94 -/
  | within (part : Part) (esc : Esc)
  /-- 30 -/
  | queryStart
  /-- 20 -/
  | fragmentStart
  /-- 5 to 12: in `HTTP/1.0` -/
  | version (n : ℕ)
  /-- 13 -/
  | versionEnd
  /-- 14 -/
  | headers
  /-- 15 -/
  | lastLF
  /-- 16 -/
  | field
  /-- 17 -/
  | valueStart
  /-- 18 -/
  | value
  /-- 19 -/
  | lineLF
  /-- 60 to 81: in `<policy-file-request/>` -/
  | policy (n : ℕ)
  /-- 82 -/
  | jsonStart
  /-- 91 -/
  | jsonQueryStart
  /-- 84 -/
  | brace
  /-- 85 -/
  | json
  /-- 95, final -/
  | done
  /-- 96, final -/
  | jsonDone
  deriving DecidableEq, Repr

/-- The actions of the machine; `start_value` is `mark`, and `done` breaks. -/
inductive Act
  | mark | startField | writeField | writeValue
  | requestMethod | requestUri | fragment | startQuery | queryString
  | httpVersion | requestPath | done | socket | json
  deriving DecidableEq, Repr

def isDigit (c : Byte) : Bool := chr '0' ≤ c && c ≤ chr '9'

def isUpper (c : Byte) : Bool := chr 'A' ≤ c && c ≤ chr 'Z'

def isXdigit (c : Byte) : Bool :=
  isDigit c || chr 'A' ≤ c && c ≤ chr 'F' || chr 'a' ≤ c && c ≤ chr 'f'

/-- `upper | digit | safe`. -/
def isMethod (c : Byte) : Bool :=
  isUpper c || isDigit c || c == chr '$' || c == chr '-' || c == chr '_' || c == chr '.'

/-- `uchar | reserved`, without the escapes. -/
def isUchar (c : Byte) : Bool :=
  c == chr '!' || c == chr '$' || chr '&' ≤ c && c ≤ chr ';' || c == chr '=' ||
    chr '?' ≤ c && c ≤ chr '~' || 128 ≤ c

/-- `token -- ":"`. -/
def isToken (c : Byte) : Bool :=
  c == chr '!' || chr '#' ≤ c && c ≤ chr '\'' || c == chr '*' || c == chr '+' ||
    c == chr '-' || c == chr '.' || isDigit c || isUpper c || chr '^' ≤ c && c ≤ chr 'z' ||
    c == chr '|' || c == chr '~'

/-- The characters a part goes on with. -/
def Part.mem : Part → Byte → Bool
  | .path, c | .jsonPath, c => isUchar c && c != chr '?' && c != chr ';'
  | .params, c | .jsonParams, c => isUchar c && c != chr '?'
  | .query, c | .fragment, c | .absolute, c | .jsonQuery, c => isUchar c

/-- The characters that end a part. -/
def Part.leave : Part → Byte → Option (List Act × Cs)
  | .path, c =>
    if c = chr ' ' then some ([.requestPath, .requestUri], .version 0)
    else if c = chr '#' then some ([.requestPath, .requestUri], .fragmentStart)
    else if c = chr ';' then some ([.requestPath], .within .params .out)
    else if c = chr '?' then some ([.requestPath], .queryStart)
    else none
  | .params, c =>
    if c = chr ' ' then some ([.requestUri], .version 0)
    else if c = chr '#' then some ([.requestUri], .fragmentStart)
    else if c = chr '?' then some ([], .queryStart)
    else none
  | .query, c =>
    if c = chr ' ' then some ([.queryString, .requestUri], .version 0)
    else if c = chr '#' then some ([.queryString, .requestUri], .fragmentStart)
    else none
  | .fragment, c => if c = chr ' ' then some ([.fragment], .version 0) else none
  | .absolute, c =>
    if c = chr ' ' then some ([.requestUri], .version 0)
    else if c = chr '#' then some ([.requestUri], .fragmentStart)
    else none
  | .jsonPath, c =>
    if c = chr ' ' then some ([.requestPath], .brace)
    else if c = chr ';' then some ([.requestPath], .within .jsonParams .out)
    else if c = chr '?' then some ([.requestPath], .jsonQueryStart)
    else none
  | .jsonParams, c =>
    if c = chr ' ' then some ([.requestPath], .brace)
    else if c = chr '?' then some ([], .jsonQueryStart)
    else none
  | .jsonQuery, c =>
    if c = chr ' ' then some ([.queryString, .requestPath], .brace) else none

/-- The first character of a part, which runs `acts`; an empty part runs what
ends it as well. -/
def Part.enter (part : Part) (acts : List Act) (c : Byte) : Option (List Act × Cs) :=
  if c = chr '%' then some (acts, .within part .first)
  else
    match part.leave c with
    | some (acts', cs) => some (acts ++ acts', cs)
    | none => if part.mem c then some (acts, .within part .out) else none

/-- The transition on a byte, `none` for the one to the error state. -/
def Cs.next : Cs → Byte → Option (List Act × Cs)
  | .error, _ => none
  | .start, c =>
    if isMethod c then some ([.mark], .method 0)
    else if c = chr '<' then some ([], .policy 0)
    else if c = chr '@' then some ([.mark], .jsonStart)
    else none
  | .method n, c =>
    if c = chr ' ' then some ([.requestMethod], .uri)
    else if isMethod c && n < 19 then some ([], .method (n + 1))
    else none
  | .uri, c =>
    if c = chr '*' then some ([.mark], .star)
    else if c = chr '/' then some ([.mark], .within .path .out)
    else if c = chr 'h' then some ([.mark], .scheme 0)
    else none
  | .star, c =>
    if c = chr ' ' then some ([.requestUri], .version 0)
    else if c = chr '#' then some ([.requestUri], .fragmentStart)
    else none
  | .scheme n, c =>
    if (bytes "ttp:")[n]? = some c then
      some ([], if n = 3 then .within .absolute .out else .scheme (n + 1))
    else none
  | .within part .out, c => part.enter [] c
  | .within part .first, c => if isXdigit c then some ([], .within part .second) else none
  | .within part .second, c => if isXdigit c then some ([], .within part .out) else none
  | .queryStart, c => Part.query.enter [.startQuery] c
  | .fragmentStart, c => Part.fragment.enter [.mark] c
  | .version n, c =>
    if n = 7 then (if c = chr '0' ∨ c = chr '1' then some ([], .versionEnd) else none)
    else if (bytes "HTTP/1.")[n]? = some c then
      some (if n = 0 then [.mark] else [], .version (n + 1))
    else none
  | .versionEnd, c =>
    if c = chr '\n' then some ([.httpVersion], .headers)
    else if c = chr '\r' then some ([.httpVersion], .lineLF)
    else none
  | .headers, c =>
    if c = chr '\n' then some ([.done], .done)
    else if c = chr '\r' then some ([], .lastLF)
    else if isToken c then some ([.startField], .field)
    else none
  | .lastLF, c => if c = chr '\n' then some ([.done], .done) else none
  | .field, c =>
    if c = chr ':' then some ([.writeField], .valueStart)
    else if isToken c then some ([], .field)
    else none
  | .valueStart, c =>
    if c = chr '\n' then some ([.mark, .writeValue], .headers)
    else if c = chr '\r' then some ([.mark, .writeValue], .lineLF)
    else if c = chr ' ' then some ([.mark], .valueStart)
    else some ([.mark], .value)
  | .value, c =>
    if c = chr '\n' then some ([.writeValue], .headers)
    else if c = chr '\r' then some ([.writeValue], .lineLF)
    else some ([], .value)
  | .lineLF, c => if c = chr '\n' then some ([], .headers) else none
  | .policy n, c =>
    if n = 21 then (if c = 0 then some ([.socket, .done], .done) else none)
    else if (bytes "policy-file-request/>")[n]? = some c then some ([], .policy (n + 1))
    else none
  | .jsonStart, c => if c = chr '/' then none else Part.jsonPath.enter [] c
  | .jsonQueryStart, c => Part.jsonQuery.enter [.startQuery] c
  | .brace, c => if c = chr '{' then some ([], .json) else none
  | .json, c => if c = 0 then some ([.json, .done], .jsonDone) else some ([], .json)
  | .done, _ => none
  | .jsonDone, c => if c = 0 then some ([.json, .done], .jsonDone) else some ([], .json)

/-- `http_parser_is_finished`. -/
def Cs.isFinished : Cs → Bool
  | .done | .jsonDone => true
  | _ => false

/-- The state after a list of bytes, without the actions. -/
def Cs.run : Cs → List Byte → Option Cs
  | cs, [] => some cs
  | cs, c :: xs => (cs.next c).bind fun p => p.2.run xs

/-! ### What a transition can do -/

/-- The actions that report a part of the target. -/
def Act.reports : Act → Bool
  | .requestUri | .requestPath | .queryString | .fragment => true
  | _ => false

/-- The states inside and right after the target. -/
def Cs.target : Cs → Bool
  | .within _ _ | .queryStart | .fragmentStart | .jsonQueryStart | .version _ | .brace => true
  | _ => false

theorem leave_spec {part : Part} {c : Byte} {acts : List Act} {cs : Cs}
    (h : part.leave c = some (acts, cs)) : (∀ a ∈ acts, a.reports) ∧ cs.target := by
  cases part <;> simp only [Part.leave] at h <;> split_ifs at h <;>
    obtain ⟨rfl, rfl⟩ := Prod.mk.inj (Option.some.inj h) <;> decide

theorem enter_spec {part : Part} {acts₀ acts : List Act} {c : Byte} {cs : Cs}
    (h : part.enter acts₀ c = some (acts, cs)) :
    (∃ tail, acts = acts₀ ++ tail ∧ ∀ a ∈ tail, a.reports) ∧ cs.target := by
  unfold Part.enter at h
  split at h
  · obtain ⟨rfl, rfl⟩ := Prod.mk.inj (Option.some.inj h)
    exact ⟨⟨[], (List.append_nil _).symm, by simp⟩, rfl⟩
  · split at h
    case h_1 acts' cs' hl =>
      obtain ⟨rfl, rfl⟩ := Prod.mk.inj (Option.some.inj h)
      obtain ⟨hacts, hcs⟩ := leave_spec hl
      exact ⟨⟨acts', rfl, hacts⟩, hcs⟩
    case h_2 =>
      obtain ⟨-, h⟩ := Option.ite_none_right_eq_some.mp h
      obtain ⟨rfl, rfl⟩ := Prod.mk.inj (Option.some.inj h)
      exact ⟨⟨[], (List.append_nil _).symm, by simp⟩, rfl⟩

/-- The transitions by what they do to the header being read. -/
inductive Effect : Cs → List Act → Cs → Prop
  /-- neither reads a header nor finishes -/
  | plain {cs acts cs'} : .done ∉ acts → .writeValue ∉ acts → cs'.isFinished = false →
      cs' ≠ .error → cs' ≠ .field → cs' ≠ .valueStart → cs' ≠ .value → Effect cs acts cs'
  | startField {cs} : Effect cs [.startField] .field
  | inField : Effect .field [] .field
  | writeField : Effect .field [.writeField] .valueStart
  | inValue {cs acts cs'} : cs = .valueStart ∨ cs = .value → acts = [.mark] ∨ acts = [] →
      cs' = .valueStart ∨ cs' = .value → Effect cs acts cs'
  | writeValue {cs acts cs'} : cs = .valueStart ∨ cs = .value →
      acts = [.mark, .writeValue] ∨ acts = [.writeValue] →
      cs' = .headers ∨ cs' = .lineLF → Effect cs acts cs'
  | finish {cs acts cs'} : acts = [.done] ∨ acts = [.socket, .done] ∨ acts = [.json, .done] →
      cs'.isFinished = true → Effect cs acts cs'

theorem Effect.of_target {cs cs' : Cs} {acts acts₀ : List Act} (h₀ : .done ∉ acts₀)
    (h₁ : .writeValue ∉ acts₀)
    (h : (∃ tail, acts = acts₀ ++ tail ∧ ∀ a ∈ tail, a.reports) ∧ cs'.target) :
    Effect cs acts cs' := by
  obtain ⟨⟨tail, rfl, htail⟩, hcs⟩ := h
  have hnot : ∀ a : Act, a ∉ acts₀ → a.reports = false → a ∉ acts₀ ++ tail := by
    intro a ha hr hmem
    rcases List.mem_append.mp hmem with hmem | hmem
    · exact ha hmem
    · rw [htail a hmem] at hr
      exact absurd hr (by simp)
  refine .plain (hnot _ h₀ rfl) (hnot _ h₁ rfl) ?_ ?_ ?_ ?_ ?_
  · cases cs' <;> first | rfl | exact absurd hcs (by simp [Cs.target])
  all_goals
    rintro rfl
    exact absurd hcs (by simp [Cs.target])

theorem next_effect {cs cs' : Cs} {c : Byte} {acts : List Act}
    (h : cs.next c = some (acts, cs')) : Effect cs acts cs' := by
  have hplain : ∀ {a b : List Act} {d e : Cs}, some (a, d) = some (b, e) → .done ∉ a →
      .writeValue ∉ a → d.isFinished = false → d ≠ .error → d ≠ .field → d ≠ .valueStart → d ≠ .value →
      Effect cs b e := by
    intro a b d e he
    obtain ⟨rfl, rfl⟩ := Prod.mk.inj (Option.some.inj he)
    exact .plain
  cases cs with
  | «within» part esc =>
    cases esc with
    | out => exact .of_target (by simp) (by simp) (enter_spec h)
    | first =>
      simp only [Cs.next] at h
      split_ifs at h
      exact hplain h (by simp) (by simp) rfl nofun nofun nofun nofun
    | second =>
      simp only [Cs.next] at h
      split_ifs at h
      exact hplain h (by simp) (by simp) rfl nofun nofun nofun nofun
  | queryStart => exact .of_target (by simp) (by simp) (enter_spec h)
  | fragmentStart => exact .of_target (by simp) (by simp) (enter_spec h)
  | jsonQueryStart => exact .of_target (by simp) (by simp) (enter_spec h)
  | jsonStart =>
    simp only [Cs.next] at h
    split_ifs at h
    exact .of_target (by simp) (by simp) (enter_spec h)
  | headers =>
    simp only [Cs.next] at h
    split_ifs at h
    · obtain ⟨rfl, rfl⟩ := Prod.mk.inj (Option.some.inj h)
      exact .finish (.inl rfl) rfl
    · exact hplain h (by simp) (by simp) rfl nofun nofun nofun nofun
    · obtain ⟨rfl, rfl⟩ := Prod.mk.inj (Option.some.inj h)
      exact .startField
  | lastLF =>
    simp only [Cs.next] at h
    split_ifs at h
    obtain ⟨rfl, rfl⟩ := Prod.mk.inj (Option.some.inj h)
    exact .finish (.inl rfl) rfl
  | field =>
    simp only [Cs.next] at h
    split_ifs at h <;> obtain ⟨rfl, rfl⟩ := Prod.mk.inj (Option.some.inj h)
    · exact .writeField
    · exact .inField
  | valueStart =>
    simp only [Cs.next] at h
    split_ifs at h <;> obtain ⟨rfl, rfl⟩ := Prod.mk.inj (Option.some.inj h)
    · exact .writeValue (.inl rfl) (.inl rfl) (.inl rfl)
    · exact .writeValue (.inl rfl) (.inl rfl) (.inr rfl)
    · exact .inValue (.inl rfl) (.inl rfl) (.inl rfl)
    · exact .inValue (.inl rfl) (.inl rfl) (.inr rfl)
  | value =>
    simp only [Cs.next] at h
    split_ifs at h <;> obtain ⟨rfl, rfl⟩ := Prod.mk.inj (Option.some.inj h)
    · exact .writeValue (.inr rfl) (.inr rfl) (.inl rfl)
    · exact .writeValue (.inr rfl) (.inr rfl) (.inr rfl)
    · exact .inValue (.inr rfl) (.inr rfl) (.inr rfl)
  | policy n =>
    simp only [Cs.next] at h
    split_ifs at h
    · obtain ⟨rfl, rfl⟩ := Prod.mk.inj (Option.some.inj h)
      exact .finish (.inr (.inl rfl)) rfl
    · exact hplain h (by simp) (by simp) rfl nofun nofun nofun nofun
  | json =>
    simp only [Cs.next] at h
    split_ifs at h
    · obtain ⟨rfl, rfl⟩ := Prod.mk.inj (Option.some.inj h)
      exact .finish (.inr (.inr rfl)) rfl
    · exact hplain h (by simp) (by simp) rfl nofun nofun nofun nofun
  | jsonDone =>
    simp only [Cs.next] at h
    split_ifs at h
    · obtain ⟨rfl, rfl⟩ := Prod.mk.inj (Option.some.inj h)
      exact .finish (.inr (.inr rfl)) rfl
    · exact hplain h (by simp) (by simp) rfl nofun nofun nofun nofun
  | error => exact absurd h (by simp [Cs.next])
  | done => exact absurd h (by simp [Cs.next])
  | _ =>
    simp only [Cs.next] at h
    split_ifs at h <;> exact hplain h (by simp) (by simp) rfl nofun nofun nofun nofun

theorem Effect.ne_error {cs cs' : Cs} {acts : List Act} (he : Effect cs acts cs') :
    cs' ≠ .error := by
  cases he with
  | plain _ _ _ h _ _ _ => exact h
  | startField => exact nofun
  | inField => exact nofun
  | writeField => exact nofun
  | inValue _ _ hcs => rcases hcs with rfl | rfl <;> exact nofun
  | writeValue _ _ hcs => rcases hcs with rfl | rfl <;> exact nofun
  | finish _ hf => exact fun heq => absurd hf (by simp [heq, Cs.isFinished])

theorem Effect.done_mem_iff {cs cs' : Cs} {acts : List Act} (he : Effect cs acts cs') :
    .done ∈ acts ↔ cs'.isFinished = true := by
  cases he with
  | plain h₀ _ hf _ _ _ _ => exact iff_of_false h₀ (by simp [hf])
  | startField => exact iff_of_false (by simp) (by simp [Cs.isFinished])
  | inField => exact iff_of_false (by simp) (by simp [Cs.isFinished])
  | writeField => exact iff_of_false (by simp) (by simp [Cs.isFinished])
  | inValue _ hacts hcs =>
    rcases hacts with rfl | rfl <;> rcases hcs with rfl | rfl <;>
      exact iff_of_false (by simp) (by simp [Cs.isFinished])
  | writeValue _ hacts hcs =>
    rcases hacts with rfl | rfl <;> rcases hcs with rfl | rfl <;>
      exact iff_of_false (by simp) (by simp [Cs.isFinished])
  | finish hacts hf => rcases hacts with rfl | rfl | rfl <;> exact iff_of_true (by simp) hf

end HttpParser

/-! ### The request -/

open HttpParser

/-- `http_parser`, without the callbacks. -/
structure Parser where
  cs : Cs
  bodyStart : ℕ
  contentLen : ℤ
  nread : ℕ
  mark : ℕ
  fieldStart : ℕ
  fieldLen : ℕ
  queryStart : ℕ
  socketStarted : Bool
  jsonSent : Bool
  deriving DecidableEq

/-- The part of a `Request` that the parser and its callbacks fill in.  The
headers are in the order they were inserted. -/
structure Request where
  requestMethod : Option (List Byte)
  version : Option (List Byte)
  uri : Option (List Byte)
  path : Option (List Byte)
  queryString : Option (List Byte)
  fragment : Option (List Byte)
  host : Option (List Byte)
  hostName : Option (List Byte)
  headers : List (List Byte × List Byte)
  parser : Parser
  deriving DecidableEq

/-- `downcase` of `bstrlib.c`. -/
def downcase (c : Byte) : Byte := if isUpper c then c + 32 else c

/-- `bstricmp` answers 0. -/
def sameCaseless (a b : List Byte) : Bool := a.map downcase == b.map downcase

/-- `strtol` in base 10 up to the first other character, less the clamping. -/
def digitsValue (xs : List Byte) : ℤ :=
  (xs.takeWhile isDigit).foldl (fun n c => 10 * n + (c.toNat - 48 : ℤ)) 0

/-- `atoi`: `strtol` clamps to 64 bits and the cast keeps the low 32. -/
def atoi (xs : List Byte) : ℤ :=
  let xs := xs.dropWhile fun c => c == 32 || 9 ≤ c && c ≤ 13
  let n :=
    match xs with
    | [] => 0
    | c :: cs =>
      if c = chr '-' then -digitsValue cs else if c = chr '+' then digitsValue cs else digitsValue xs
  Int.bmod (max (-2 ^ 63) (min (2 ^ 63 - 1) n)) (2 ^ 32)

namespace Request

/-- `Request_create`. -/
def create : Request :=
  ⟨none, none, none, none, none, none, none, none, [],
    ⟨.error, 0, 0, 0, 0, 0, 0, 0, false, false⟩⟩

variable (r : Request)

/-- `Request_get`: among headers of one name, the first inserted. -/
def get (field : List Byte) : Option (List Byte) :=
  (r.headers.find? fun h => sameCaseless h.1 field).map Prod.snd

/-- `Request_start`: `http_parser_init` and `Request_nuke_parts`. -/
def start : Request :=
  { r with
    requestMethod := none, version := none, uri := none, path := none, queryString := none
    fragment := none, hostName := none, headers := []
    parser := { r.parser with
      cs := .start, bodyStart := 0, contentLen := 0, mark := 0, nread := 0, fieldLen := 0
      fieldStart := 0, socketStarted := false, jsonSent := false } }

/-- `header_done_cb`. -/
def headerDone : Request :=
  let host := r.get (bytes "Host")
  { r with
    parser.contentLen := ((r.get (bytes "Content-Length")).map atoi).getD r.parser.contentLen
    host := host
    hostName :=
      match host with
      | none => r.hostName
      | some h =>
        match h.findIdx? (· == chr ':') with
        | some (colon + 1) => some (h.take (colon + 1))
        | _ => some h }

/-- `len` bytes of the buffer from `at` on. -/
def span (buffer : List Byte) (start len : ℕ) : List Byte := (buffer.drop start).take len

/-- An action of the machine at the byte `buffer[fpc]`. -/
def act (buffer : List Byte) (fpc : ℕ) : Act → Request
  | .mark => { r with parser.mark := fpc }
  | .startField => { r with parser.fieldStart := fpc }
  | .writeField => { r with parser.fieldLen := fpc - r.parser.fieldStart }
  | .writeValue =>
    { r with headers := r.headers ++
        [(span buffer r.parser.fieldStart r.parser.fieldLen,
          span buffer r.parser.mark (fpc - r.parser.mark))] }
  | .requestMethod =>
    { r with requestMethod := some (span buffer r.parser.mark (fpc - r.parser.mark)) }
  | .requestUri => { r with uri := some (span buffer r.parser.mark (fpc - r.parser.mark)) }
  | .fragment => { r with fragment := some (span buffer r.parser.mark (fpc - r.parser.mark)) }
  | .startQuery => { r with parser.queryStart := fpc }
  | .queryString =>
    { r with
      queryString := some (span buffer r.parser.queryStart (fpc - r.parser.queryStart)) }
  | .httpVersion => { r with version := some (span buffer r.parser.mark (fpc - r.parser.mark)) }
  | .requestPath => { r with path := some (span buffer r.parser.mark (fpc - r.parser.mark)) }
  | .done => headerDone { r with parser.bodyStart := fpc + 1 }
  | .socket => { r with parser.socketStarted := true }
  | .json => { r with parser.jsonSent := true }

/-- A transition to `cs` with its actions. -/
def take (buffer : List Byte) (fpc : ℕ) (acts : List Act) (cs : Cs) : Request :=
  let r' := acts.foldl (fun r a => r.act buffer fpc a) r
  { r' with parser.cs := cs }

/-- Run the machine over the bytes from `buffer[fpc]` on; also the position it
stops at. -/
def consume (buffer : List Byte) : ℕ → List Byte → Request → Request × ℕ
  | fpc, [], r => (r, fpc)
  | fpc, c :: xs, r =>
    match r.parser.cs.next c with
    | none => ({ r with parser.cs := .error }, fpc)
    | some (acts, cs) =>
      let r' := r.take buffer fpc acts cs
      if .done ∈ acts then (r', fpc + 1) else consume buffer (fpc + 1) xs r'

/-- `http_parser_execute` on the bytes in `buffer` from `off` on. -/
def execute (buffer : List Byte) (off : ℕ) : Request × ℕ :=
  if buffer = [] then (r, 0)
  else
    let (r', p) := consume buffer off (buffer.drop off) r
    let nread := r.parser.nread + (p - off)
    ({ r' with parser.nread := nread }, nread)

/-- `http_parser_finish`. -/
def finish : ℤ :=
  if r.parser.cs = .error then -1 else if r.parser.cs.isFinished then 1 else 0

/-- The parse of a whole buffer from scratch. -/
def parse (buffer : List Byte) : Request × ℕ := r.start.execute buffer 0

end Request

/-- The byte at `fpc`, and the bytes behind it. -/
theorem drop_eq_cons {buffer xs : List Byte} {fpc : ℕ} {c : Byte}
    (h : buffer.drop fpc = c :: xs) : buffer[fpc]? = some c ∧ buffer.drop (fpc + 1) = xs := by
  constructor
  · rw [← List.head?_drop, h, List.head?_cons]
  · rw [← List.tail_drop, h, List.tail_cons]

namespace Request

/-! ### Parsing a longer buffer -/

variable {buffer more : List Byte} {fpc : ℕ} {r : Request}

theorem span_append {start len : ℕ} (h : start + len ≤ buffer.length) :
    span (buffer ++ more) start len = span buffer start len := by
  rw [span, span, List.drop_append_of_le_length (by omega),
    List.take_append_of_le_length (by rw [List.length_drop]; omega)]

/-- A value that ends at `fpc`: the bytes behind the buffer are not part of it. -/
theorem span_append_mark {start : ℕ} (h : fpc ≤ buffer.length) :
    span (buffer ++ more) start (fpc - start) = span buffer start (fpc - start) := by
  by_cases hs : start ≤ fpc
  · exact span_append (by omega)
  · have hz : fpc - start = 0 := by omega
    rw [hz, span, span, List.take_zero, List.take_zero]

/-- A word that begins at the position is still empty. -/
theorem span_self (buffer : List Byte) (fpc : ℕ) : span buffer fpc (fpc - fpc) = [] := by
  rw [Nat.sub_self, span, List.take_zero]

/-- A word goes on with the byte at the position. -/
theorem span_succ {start : ℕ} {c : Byte} (hle : start ≤ fpc) (hc : buffer[fpc]? = some c) :
    span buffer start (fpc + 1 - start) = span buffer start (fpc - start) ++ [c] := by
  have hlast : (buffer.drop start)[fpc - start]? = some c := by
    rw [List.getElem?_drop, Nat.add_sub_cancel' hle, hc]
  rw [span, span, Nat.sub_add_comm hle, List.take_add_one, hlast]
  rfl

theorem act_append (h : fpc ≤ buffer.length) {a : Act}
    (ha : a = .writeValue → r.parser.fieldStart + r.parser.fieldLen ≤ fpc) :
    r.act (buffer ++ more) fpc a = r.act buffer fpc a := by
  cases a with
  | writeValue =>
    have hf := ha rfl
    simp only [act, span_append_mark h]
    rw [span_append (by omega)]
  | _ => simp only [act, span_append_mark h]

theorem foldl_act_append (h : fpc ≤ buffer.length) {acts : List Act} (ha : .writeValue ∉ acts) :
    acts.foldl (fun r a => r.act (buffer ++ more) fpc a) r =
      acts.foldl (fun r a => r.act buffer fpc a) r := by
  induction acts generalizing r with
  | nil => rfl
  | cons a acts ih =>
    rw [List.mem_cons, not_or] at ha
    obtain ⟨hne, hmem⟩ := ha
    rw [List.foldl_cons, List.foldl_cons, act_append h fun heq => absurd heq.symm hne, ih hmem]

section

variable {β : Type*} (view : Request → β) {b : Act} (buffer : List Byte) (fpc : ℕ)

/-- What only one action assigns is kept by the others. -/
theorem foldl_act_keeps (hkeep : ∀ a, a ≠ b → ∀ r : Request, view (r.act buffer fpc a) = view r)
    {acts : List Act} (h : b ∉ acts) (r : Request) :
    view (acts.foldl (fun r a => r.act buffer fpc a) r) = view r := by
  induction acts generalizing r with
  | nil => rfl
  | cons a acts ih =>
    rw [List.mem_cons, not_or] at h
    rw [List.foldl_cons, ih h.2, hkeep a (Ne.symm h.1)]

/-- What one action sets to `x` and no other assigns. -/
theorem foldl_act_sets (hkeep : ∀ a, a ≠ b → ∀ r : Request, view (r.act buffer fpc a) = view r)
    {x : β} (hset : ∀ r : Request, view (r.act buffer fpc b) = x) (acts : List Act) (r : Request) :
    view (acts.foldl (fun r a => r.act buffer fpc a) r) = if b ∈ acts then x else view r := by
  induction acts generalizing r with
  | nil => rfl
  | cons a acts ih =>
    rw [List.foldl_cons, ih]
    by_cases hmem : b ∈ acts
    · rw [if_pos hmem, if_pos (List.mem_cons_of_mem a hmem)]
    · rw [if_neg hmem]
      by_cases ha : a = b
      · rw [ha, hset, if_pos (List.mem_cons_self ..)]
      · have hnot : b ∉ a :: acts := by
          rw [List.mem_cons, not_or]
          exact ⟨Ne.symm ha, hmem⟩
        rw [hkeep a ha, if_neg hnot]

end

/-- Where the marks of a header's name are used, they lie behind the position. -/
def Settled (r : Request) (fpc : ℕ) : Prop :=
  match r.parser.cs with
  | .field => r.parser.fieldStart ≤ fpc
  | .valueStart | .value => r.parser.fieldStart + r.parser.fieldLen ≤ fpc
  | _ => True

theorem Settled.of_value (h : r.Settled fpc)
    (hcs : r.parser.cs = .valueStart ∨ r.parser.cs = .value) :
    r.parser.fieldStart + r.parser.fieldLen ≤ fpc := by
  rcases hcs with hcs | hcs <;> simpa only [Settled, hcs] using h

theorem settled_of_ne (h₁ : r.parser.cs ≠ .field) (h₂ : r.parser.cs ≠ .valueStart)
    (h₃ : r.parser.cs ≠ .value) : r.Settled fpc := by
  unfold Settled
  split
  · exact absurd ‹_› h₁
  · exact absurd ‹_› h₂
  · exact absurd ‹_› h₃
  · trivial

theorem Settled.take (h : r.Settled fpc) {acts : List Act} {cs : Cs}
    (he : Effect r.parser.cs acts cs) : (r.take buffer fpc acts cs).Settled (fpc + 1) := by
  generalize hcs : r.parser.cs = cs₀ at he
  cases he with
  | plain _ _ _ _ h₁ h₂ h₃ => exact settled_of_ne h₁ h₂ h₃
  | startField => exact Nat.le_succ fpc
  | inField =>
    have hle : r.parser.fieldStart ≤ fpc := by simpa only [Settled, hcs] using h
    exact Nat.le_succ_of_le hle
  | writeField =>
    have hle : r.parser.fieldStart ≤ fpc := by simpa only [Settled, hcs] using h
    change r.parser.fieldStart + (fpc - r.parser.fieldStart) ≤ fpc + 1
    omega
  | inValue hcs₀ hacts hcs' =>
    have hle := h.of_value (hcs ▸ hcs₀)
    rcases hacts with rfl | rfl <;> rcases hcs' with rfl | rfl <;> exact Nat.le_succ_of_le hle
  | writeValue _ _ hcs' => rcases hcs' with rfl | rfl <;> exact trivial
  | finish _ hcs' => cases cs <;> first | exact trivial | exact absurd hcs' (by simp [Cs.isFinished])

theorem take_append (h : fpc ≤ buffer.length) (hr : r.Settled fpc) {acts : List Act} {cs : Cs}
    (he : Effect r.parser.cs acts cs) :
    r.take (buffer ++ more) fpc acts cs = r.take buffer fpc acts cs := by
  suffices hfold : acts.foldl (fun r a => r.act (buffer ++ more) fpc a) r =
      acts.foldl (fun r a => r.act buffer fpc a) r by
    rw [Request.take, Request.take, hfold]
  generalize hcs : r.parser.cs = cs₀ at he
  cases he with
  | plain _ hw _ _ _ _ _ => exact foldl_act_append h hw
  | startField => exact foldl_act_append h (by simp)
  | inField => exact foldl_act_append h (by simp)
  | writeField => exact foldl_act_append h (by simp)
  | inValue _ hacts _ => rcases hacts with rfl | rfl <;> exact foldl_act_append h (by simp)
  | writeValue hcs₀ hacts _ =>
    have hle := hr.of_value (hcs ▸ hcs₀)
    rcases hacts with rfl | rfl
    · have hle' : (r.act buffer fpc .mark).parser.fieldStart +
        (r.act buffer fpc .mark).parser.fieldLen ≤ fpc := hle
      have hw : (r.act buffer fpc .mark).act (buffer ++ more) fpc .writeValue =
        (r.act buffer fpc .mark).act buffer fpc .writeValue := act_append h fun _ => hle'
      exact hw
    · have hw : r.act (buffer ++ more) fpc .writeValue = r.act buffer fpc .writeValue :=
        act_append h fun _ => hle
      exact hw
  | finish hacts _ => rcases hacts with rfl | rfl | rfl <;> exact foldl_act_append h (by simp)

/-- The machine has stopped: it has failed or is done. -/
def Stopped (r : Request) : Prop := r.parser.cs = .error ∨ r.parser.cs.isFinished = true

theorem consume_cons {c : Byte} {acts : List Act} {cs : Cs} (buffer : List Byte) (fpc : ℕ)
    (xs : List Byte) (hn : r.parser.cs.next c = some (acts, cs)) (hd : .done ∉ acts) :
    consume buffer fpc (c :: xs) r = consume buffer (fpc + 1) xs (r.take buffer fpc acts cs) := by
  rw [consume, hn]
  exact if_neg hd

/-- **Running over more bytes**: either the machine stopped before them and they
change nothing, or it took all the bytes before them and goes on from there. -/
theorem consume_append {xs : List Byte} (ys : List Byte) (hlen : fpc + xs.length ≤ buffer.length)
    (hr : r.Settled fpc) (hrun : ¬ r.Stopped) :
    ((consume buffer fpc xs r).1.Stopped ∧
      consume (buffer ++ more) fpc (xs ++ ys) r = consume buffer fpc xs r) ∨
    (¬ (consume buffer fpc xs r).1.Stopped ∧
      (consume buffer fpc xs r).2 = fpc + xs.length ∧
      (consume buffer fpc xs r).1.Settled (fpc + xs.length) ∧
      consume (buffer ++ more) fpc (xs ++ ys) r =
        consume (buffer ++ more) (fpc + xs.length) ys (consume buffer fpc xs r).1) := by
  induction xs generalizing fpc r with
  | nil => exact .inr ⟨hrun, rfl, hr, rfl⟩
  | cons c xs ih =>
    rw [List.length_cons] at hlen
    simp only [List.cons_append, consume]
    cases hn : r.parser.cs.next c with
    | none => exact .inl ⟨.inl rfl, rfl⟩
    | some p =>
      obtain ⟨acts, cs⟩ := p
      have he := next_effect hn
      have htake : r.take (buffer ++ more) fpc acts cs = r.take buffer fpc acts cs :=
        take_append (by omega) hr he
      simp only [htake]
      by_cases hd : .done ∈ acts
      · simp only [if_pos hd]
        exact .inl ⟨.inr (he.done_mem_iff.mp hd), trivial⟩
      · simp only [if_neg hd]
        have hrun' : ¬ (r.take buffer fpc acts cs).Stopped := by
          rintro (herr | hfin)
          · exact he.ne_error herr
          · exact hd (he.done_mem_iff.mpr hfin)
        have hfpc : fpc + (c :: xs).length = fpc + 1 + xs.length := by
          rw [List.length_cons]
          omega
        rw [hfpc]
        exact ih (by omega) (hr.take he) hrun'

theorem le_consume (buffer : List Byte) (fpc : ℕ) (xs : List Byte) (r : Request) :
    fpc ≤ (consume buffer fpc xs r).2 := by
  induction xs generalizing fpc r with
  | nil => exact le_rfl
  | cons c xs ih =>
    simp only [consume]
    cases r.parser.cs.next c with
    | none => exact le_rfl
    | some p =>
      dsimp only
      split
      · exact Nat.le_succ fpc
      · exact Nat.le_of_succ_le (ih (fpc + 1) _)

theorem consume_le (buffer : List Byte) (fpc : ℕ) (xs : List Byte) (r : Request) :
    (consume buffer fpc xs r).2 ≤ fpc + xs.length := by
  induction xs generalizing fpc r with
  | nil => exact le_rfl
  | cons c xs ih =>
    rw [List.length_cons]
    simp only [consume]
    cases r.parser.cs.next c with
    | none => exact Nat.le_add_right ..
    | some p =>
      dsimp only
      split
      · omega
      · have hle := ih (fpc + 1) (r.take buffer fpc p.1 p.2)
        omega

/-- A machine that is done has set where the body starts. -/
theorem consume_bodyStart (buffer : List Byte) (fpc : ℕ) (xs : List Byte) {r : Request}
    (hr : r.parser.cs.isFinished = false)
    (h : (consume buffer fpc xs r).1.parser.cs.isFinished = true) :
    (consume buffer fpc xs r).1.parser.bodyStart = (consume buffer fpc xs r).2 := by
  induction xs generalizing fpc r with
  | nil => exact absurd h (by simp [consume, hr])
  | cons c xs ih =>
    simp only [consume] at h ⊢
    cases hn : r.parser.cs.next c with
    | none => exact absurd h (by simp [hn, Cs.isFinished])
    | some p =>
      obtain ⟨acts, cs⟩ := p
      simp only [hn] at h ⊢
      have he := next_effect hn
      by_cases hd : .done ∈ acts
      · rw [if_pos hd]
        generalize hcs : r.parser.cs = cs₀ at he
        cases he with
        | plain h₀ => exact absurd hd h₀
        | startField => exact absurd hd (by simp)
        | inField => exact absurd hd (by simp)
        | writeField => exact absurd hd (by simp)
        | inValue _ hacts _ => rcases hacts with rfl | rfl <;> exact absurd hd (by simp)
        | writeValue _ hacts _ => rcases hacts with rfl | rfl <;> exact absurd hd (by simp)
        | finish hacts _ => rcases hacts with rfl | rfl | rfl <;> rfl
      · rw [if_neg hd] at h ⊢
        refine ih (fpc + 1) ?_ h
        exact Bool.eq_false_iff.mpr fun hf => hd (he.done_mem_iff.mpr hf)

/-! ### Parsing from scratch -/

theorem execute_eq (hb : buffer ≠ []) (r : Request) (off : ℕ) :
    r.execute buffer off =
      ({ (consume buffer off (buffer.drop off) r).1 with
          parser.nread := r.parser.nread + ((consume buffer off (buffer.drop off) r).2 - off) },
        r.parser.nread + ((consume buffer off (buffer.drop off) r).2 - off)) := by
  rw [execute, if_neg hb]

theorem parse_eq (hb : buffer ≠ []) (r : Request) :
    r.parse buffer =
      ({ (consume buffer 0 buffer r.start).1 with
          parser.nread := (consume buffer 0 buffer r.start).2 },
        (consume buffer 0 buffer r.start).2) := by
  rw [parse, execute_eq hb, List.drop_zero, Nat.sub_zero]
  have hz : r.start.parser.nread = 0 := rfl
  rw [hz, Nat.zero_add]

theorem consume_of_error (buffer : List Byte) (fpc : ℕ) (xs : List Byte) {r : Request}
    (h : r.parser.cs = .error) : consume buffer fpc xs r = (r, fpc) := by
  cases xs with
  | nil => rfl
  | cons c xs =>
    simp only [consume, h, Cs.next]
    rw [← h]

/-- The count of bytes read is not the machine's. -/
def setNread (r : Request) (n : ℕ) : Request := { r with parser.nread := n }

theorem take_setNread (buffer : List Byte) (fpc : ℕ) (acts : List Act) (cs : Cs) (r : Request)
    (n : ℕ) :
    (r.setNread n).take buffer fpc acts cs = (r.take buffer fpc acts cs).setNread n := by
  have hfold : acts.foldl (fun r a => r.act buffer fpc a) (r.setNread n) =
      (acts.foldl (fun r a => r.act buffer fpc a) r).setNread n := by
    induction acts generalizing r with
    | nil => rfl
    | cons a acts ih =>
      rw [List.foldl_cons, List.foldl_cons, ← ih]
      cases a <;> rfl
  rw [Request.take, Request.take, hfold]
  rfl

theorem consume_setNread (buffer : List Byte) (fpc : ℕ) (xs : List Byte) (r : Request) (n : ℕ) :
    consume buffer fpc xs (r.setNread n) =
      ((consume buffer fpc xs r).1.setNread n, (consume buffer fpc xs r).2) := by
  induction xs generalizing fpc r with
  | nil => rfl
  | cons c xs ih =>
    have hcs : (r.setNread n).parser.cs = r.parser.cs := rfl
    simp only [consume, hcs]
    cases r.parser.cs.next c with
    | none => rfl
    | some p =>
      dsimp only
      rw [take_setNread, ih]
      split <;> rfl

theorem start_running (r : Request) : ¬ r.start.Stopped := by
  rintro (h | h)
  · exact absurd h nofun
  · exact absurd h (by simp [start, Cs.isFinished])

/-- A parse that has stopped ignores what is behind the buffer; one that has not
goes on with it. -/
theorem parse_append_cases (hb : buffer ≠ []) (r : Request) (more : List Byte) :
    ((r.parse buffer).1.Stopped ∧ r.parse (buffer ++ more) = r.parse buffer) ∨
    (¬ (r.parse buffer).1.Stopped ∧ (r.parse buffer).2 = buffer.length ∧
      r.parse (buffer ++ more) =
        (((consume (buffer ++ more) buffer.length more (consume buffer 0 buffer r.start).1)).1.setNread
          (consume (buffer ++ more) buffer.length more (consume buffer 0 buffer r.start).1).2,
          (consume (buffer ++ more) buffer.length more (consume buffer 0 buffer r.start).1).2)) := by
  have hb' : buffer ++ more ≠ [] := fun h => hb (List.append_eq_nil_iff.mp h).1
  have hlen : 0 + buffer.length ≤ buffer.length := by omega
  rw [parse_eq hb', parse_eq hb]
  have hsettled : r.start.Settled 0 := trivial
  rcases @consume_append buffer more 0 r.start buffer more hlen hsettled (start_running r) with
    ⟨hs, heq⟩ | ⟨hs, hpos, -, heq⟩
  · exact .inl ⟨hs, by rw [heq]⟩
  · rw [Nat.zero_add] at hpos heq
    exact .inr ⟨hs, hpos, by rw [heq]; rfl⟩

/-- **Going on from where the last parse stopped is parsing from scratch.** -/
theorem execute_parse (buffer : List Byte) (r : Request) (more : List Byte)
    (hf : (r.parse buffer).1.parser.cs.isFinished = false) :
    (r.parse buffer).1.execute (buffer ++ more) (r.parse buffer).2 =
      r.parse (buffer ++ more) := by
  by_cases hb : buffer = []
  · subst hb
    rfl
  have hb' : buffer ++ more ≠ [] := fun h => hb (List.append_eq_nil_iff.mp h).1
  rw [execute_eq hb']
  rcases parse_append_cases hb r more with ⟨hs, heq⟩ | ⟨hs, hpos, heq⟩
  · have herr : (r.parse buffer).1.parser.cs = .error :=
      hs.resolve_right fun h => absurd h (by simp [hf])
    rw [heq, consume_of_error _ _ _ herr, Nat.sub_self, Nat.add_zero, parse_eq hb]
  · rw [heq, hpos, List.drop_left]
    have hr : (r.parse buffer).1 = (consume buffer 0 buffer r.start).1.setNread buffer.length := by
      rw [← hpos, parse_eq hb]
      rfl
    have hle := le_consume (buffer ++ more) buffer.length more (consume buffer 0 buffer r.start).1
    rw [hr, consume_setNread]
    have hn : ((consume buffer 0 buffer r.start).1.setNread buffer.length).parser.nread =
      buffer.length := rfl
    rw [hn, Nat.add_sub_cancel' hle]
    rfl

/-- **A finished parse stopped at the end of the header**: bytes behind it change
nothing. -/
theorem parse_append (hb : buffer ≠ []) (r : Request) (more : List Byte)
    (hf : (r.parse buffer).1.parser.cs.isFinished = true) :
    r.parse (buffer ++ more) = r.parse buffer := by
  rcases parse_append_cases hb r more with ⟨-, heq⟩ | ⟨hs, -⟩
  · exact heq
  · exact absurd (.inr hf) hs

theorem finished_of_prefix (r : Request) {xs ys : List Byte} (h : xs <+: ys)
    (hf : (r.parse xs).1.parser.cs.isFinished = true) : r.parse ys = r.parse xs := by
  obtain ⟨more, rfl⟩ := h
  by_cases hx : xs = []
  · subst hx
    exact absurd hf (by simp [parse, execute, start, Cs.isFinished])
  · exact parse_append hx r more hf

theorem finish_eq_one (r : Request) : r.finish = 1 ↔ r.parser.cs.isFinished = true := by
  unfold finish
  by_cases he : r.parser.cs = .error
  · simp [he, Cs.isFinished]
  · simp [he]

theorem parse_bodyStart (hb : buffer ≠ []) (r : Request)
    (hf : (r.parse buffer).1.parser.cs.isFinished = true) :
    (r.parse buffer).1.parser.bodyStart = (r.parse buffer).2 := by
  rw [parse_eq hb] at hf ⊢
  exact consume_bodyStart buffer 0 buffer rfl hf

theorem parse_le_length (hb : buffer ≠ []) (r : Request) : (r.parse buffer).2 ≤ buffer.length := by
  rw [parse_eq hb]
  have hle := consume_le buffer 0 buffer r.start
  omega

end Request

example : (Request.create.parse (bytes "GET /a HTTP/1.1\r\nHost: b:1\n\nxy")).1.hostName =
    some (bytes "b") := by decide

end Mongrel2

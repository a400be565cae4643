/-
The tokens of a command (`cli.rl`, `commands.c` of `m2sh`).

* `cliParamsParseArgs` — `cli_params_parse_args`, with the array of tokens, its copy by
  bytes and the texts that change their owner;
* `commandDestroy` — `Command_destroy`, as what it gives back;
* `Returned.Safe` — no token is written beyond the array, and what is returned can be
  destroyed, which releases each token and each text once;
* **`safe_iff`** — that is so exactly if there are at most twelve tokens, the first of them
  a name or a word, or if an assertion stops the process first.

Design notes: a pointer has eight bytes.  A local variable that has not been written is
indeterminate, and nothing may be released through it.  Allocation succeeds.  With
`NDEBUG` there is no assertion.
-/
import Mongrel2.CliTokens
import Mongrel2.Dir

namespace Mongrel2

open ByteStream HttpParser

namespace M2sh

open Cli

/-! ### Tokens and memory -/

/-- `MAX_TOKENS`. -/
def maxTokens : ℕ := 100

/-- `sizeof(Token *)`. -/
def pointerSize : ℕ := 8

/-- A `bstring`: the text of a token, or an empty one made for an option. -/
inductive Bstr
  | ofToken (i : ℕ)
  | empty (i : ℕ)
  deriving DecidableEq

/-- `Token`, with what its text says; `data` is NULL when the text has another owner. -/
structure Token where
  type : TokenType
  text : List Byte
  data : Option Bstr
  deriving DecidableEq

/-- `struct params`: `tokens[i]` points to the token `i` of the heap. -/
structure Params where
  heap : List Token
  curtk : ℕ

/-- Bytes of memory: one of a pointer to a token, or indeterminate. -/
abbrev Memory := ℕ → Option (ℕ × ℕ)

/-- An array that has not been written. -/
def indeterminate : Memory := fun _ => none

/-- An array into which pointers to so many tokens have been written. -/
def pointers (n : ℕ) : Memory := fun a =>
  if a < pointerSize * n then some (a / pointerSize, a % pointerSize) else none

/-- `memcpy`. -/
def memcpy (dst src : Memory) (n : ℕ) : Memory := fun a => if a < n then src a else dst a

/-- The pointer in a slot, if all of its bytes are there. -/
def readPointer (mem : Memory) (i : ℕ) : Option ℕ :=
  match mem (pointerSize * i) with
  | some (p, _) =>
    if ∀ k < pointerSize, mem (pointerSize * i + k) = some (p, k) then some p else none
  | none => none

/-- `Command`; `none` is a field that has not been written. -/
structure Command where
  progname : Option (Option Bstr)
  name : Option (Option Bstr)
  options : Option (List (List Byte × Option Bstr))
  extra : Option (List (Option Bstr))
  error : Bool
  tokens : Memory
  tokenCount : ℕ

/-! ### The parser -/

namespace Params

/-- `TKBASE`; `none` where it writes beyond the array. -/
def add (p : Params) (tk : TokenType × List Byte) : Option Params :=
  if p.heap.length < maxTokens then
    some { p with heap := p.heap ++ [⟨tk.1, tk.2, some (.ofToken p.heap.length)⟩] }
  else none

/-- `match_release`. -/
def matchRelease (p : Params) (type : TokenType) (release : Bool) : Option Bstr × Params :=
  match p.heap[p.curtk]? with
  | none => (none, p)
  | some tk =>
    if tk.type = type then
      (tk.data, ⟨if release then p.heap.set p.curtk { tk with data := none } else p.heap, p.curtk + 1⟩)
    else (none, { p with curtk := p.curtk + 1 })

/-- `peek`; `none` for -1. -/
def peek (p : Params) : Option TokenType := (p.heap[p.curtk]?).map Token.type

/-- `bdata`. -/
def bdata (p : Params) : Bstr → List Byte
  | .ofToken i => ((p.heap[i]?).map Token.text).getD []
  | .empty _ => []

end Params

/-- `hash_alloc_insert`; `none` when the assertion against duplicates fails. -/
def hashAllocInsert (ndebug : Bool) (options : List (List Byte × Option Bstr)) (key : List Byte)
    (value : Option Bstr) : Option (List (List Byte × Option Bstr)) :=
  if ndebug = false ∧ options.any (fun o => o.1 = key) then none
  else some ((key, value) :: options)

/-- `Command_option`. -/
def commandOption (ndebug : Bool) (cmd : Command) (p : Params) : Option (Command × Params) :=
  match p.matchRelease .option false with
  | (none, p) => some ({ cmd with error := true }, p)
  | (some key, p) =>
    let found :=
      match p.peek with
      | none | some .option => (some (Bstr.empty (p.curtk - 1)), p)
      | some next => p.matchRelease next true
    (hashAllocInsert ndebug (cmd.options.getD []) (cstr (p.bdata key)) found.1).map fun options =>
      ({ cmd with options := some options }, found.2)

/-- `Command_extra`. -/
def commandExtra (cmd : Command) (next : TokenType) (p : Params) : Command × Params :=
  let found := p.matchRelease next false
  ({ cmd with extra := some (cmd.extra.getD [] ++ [found.1]) }, found.2)

/-- The loop of `Command_parse`, for that many rounds at most. -/
def parseLoop (ndebug : Bool) : ℕ → Command → Params → Option (Command × Params)
  | 0, cmd, p => some (cmd, p)
  | n + 1, cmd, p =>
    match p.peek with
    | none => some (cmd, p)
    | some next =>
      if cmd.error then some (cmd, p)
      else if next = .option then
        (commandOption ndebug cmd p).bind fun s => parseLoop ndebug n s.1 s.2
      else
        let s := commandExtra cmd next p
        parseLoop ndebug n s.1 s.2

/-- What becomes of a command line: undefined behaviour, an assertion that stops the process,
or a return value with the command, and the tokens on the heap. -/
inductive Returned
  | wrong
  | stopped
  | returned (rc : ℤ) (cmd : Command) (heap : List Token)

/-- The `error:` label. -/
def failed (cmd : Command) (p : Params) : Returned := .returned (-1) { cmd with error := true } p.heap

/-- `Command_parse`. -/
def commandParse (ndebug : Bool) (p : Params) (cmd : Command) : Returned :=
  let cmd := { cmd with
    tokens := memcpy cmd.tokens (pointers p.heap.length) maxTokens
    tokenCount := p.heap.length
    options := some []
    extra := some [] }
  match p.peek with
  | none => failed cmd p
  | some next =>
    if next = .ident ∨ next = .blob then
      let progname := p.matchRelease next true
      let cmd := { cmd with progname := some progname.1 }
      if progname.1 = none then failed cmd progname.2
      else
        let name := progname.2.matchRelease .ident true
        let cmd := { cmd with name := some name.1 }
        if name.1 = none then failed cmd name.2
        else
          match parseLoop ndebug p.heap.length cmd name.2 with
          | none => .stopped
          | some (cmd, p) =>
            if p.curtk = p.heap.length then .returned 0 cmd p.heap else failed cmd p
    -- the sentinel, which takes the text for its message and loses it
    else failed cmd (p.matchRelease next true).2

/-- `cli_params_finish`; the states up to 3 are those in quotes behind a space. -/
def cliParamsFinish : Scanner.End Cli.Cs → ℤ
  | .final => 1
  | .standing (.quoted _ true _) => 0
  | .standing _ => 1
  | _ => -1

/-- `DEFAULT_COMMAND`. -/
def defaultCommand : TokenType × List Byte := (.ident, bytes "shell")

/-- The local variable of `Command_run`. -/
def uninitialised : Command := ⟨none, none, none, none, false, indeterminate, 0⟩

/-- `cli_params_parse_args`, as `Command_run` calls it. -/
def cliParamsParseArgs (ndebug : Bool) (args : List Byte) : Returned :=
  match (tokens args).foldlM Params.add ⟨[], 0⟩ with
  | none => .wrong
  | some p =>
    if cliParamsFinish (scanner.run args).2 = 1 then
      match if p.heap.length < 2 then p.add defaultCommand else some p with
      | none => .wrong
      | some p => commandParse ndebug p uninitialised
    else failed uninitialised p

/-! ### The release -/

/-- What is given back. -/
inductive Freed
  | text (b : Bstr)
  | token (i : ℕ)
  deriving DecidableEq

/-- `Token_destroy`. -/
def tokenDestroy (heap : List Token) (i : ℕ) : Option (List Freed) :=
  (heap[i]?).map fun tk => tk.data.toList.map .text ++ [.token i]

/-- The loop of `Command_destroy`, for so many tokens from `i` on. -/
def tokensDestroy (heap : List Token) (mem : Memory) : ℕ → ℕ → Option (List Freed)
  | 0, _ => some []
  | n + 1, i => do
    let p ← readPointer mem i
    let freed ← tokenDestroy heap p
    let others ← tokensDestroy heap mem n (i + 1)
    some (freed ++ others)

/-- `Command_destroy`; `none` where it follows an indeterminate pointer.  The nodes of
`extra` do not own their texts. -/
def commandDestroy (cmd : Command) (heap : List Token) : Option (List Freed) := do
  let progname ← cmd.progname
  let name ← cmd.name
  let _ ← cmd.extra
  let options ← cmd.options
  let tokens ← tokensDestroy heap cmd.tokens cmd.tokenCount 0
  some ((progname.toList ++ name.toList ++ options.filterMap Prod.snd).map .text ++ tokens)

def Freed.token? : Freed → Option ℕ
  | .token i => some i
  | .text _ => none

/-- The token whose text it is. -/
def Freed.ofToken? : Freed → Option ℕ
  | .text (.ofToken i) => some i
  | _ => none

/-- Each token is released once, so is the text of each, and nothing is released twice. -/
structure Releases (cmd : Command) (heap : List Token) (freed : List Freed) : Prop where
  destroyed : commandDestroy cmd heap = some freed
  tokens : freed.filterMap Freed.token? = List.range heap.length
  texts : (freed.filterMap Freed.ofToken?).Perm (List.range heap.length)
  nodup : freed.Nodup

/-- The writes stay within the array, what is returned can be released, and after a success
the command has every token in its place. -/
def Returned.Safe : Returned → Prop
  | .wrong => False
  | .stopped => True
  | .returned rc cmd heap =>
    (∃ freed, Releases cmd heap freed) ∧
      (rc = 0 → cmd.tokenCount = heap.length ∧
        ∀ i < cmd.tokenCount, readPointer cmd.tokens i = some i)

/-- The keys of the options among some tokens. -/
def optionKeys (toks : List (TokenType × List Byte)) : List (List Byte) :=
  toks.filterMap fun tk => if tk.1 = .option then some (cstr tk.2) else none

/-- The first token, if there is one, names the program. -/
def Named (toks : List (TokenType × List Byte)) : Prop :=
  ∀ tk ∈ toks.head?, tk.1 = .ident ∨ tk.1 = .blob

/-- A command whose options are not all different, where that is an assertion. -/
structure Stops (ndebug : Bool) (toks : List (TokenType × List Byte)) : Prop where
  ndebug : ndebug = false
  fits : toks.length ≤ maxTokens
  named : Named toks
  command : ∃ tk, toks[1]? = some tk ∧ tk.1 = .ident
  again : ¬(optionKeys (toks.drop 2)).Nodup

section

variable {toks : List (TokenType × List Byte)} {p p' : Params} {cmd cmd' : Command}
  {heap : List Token} {ndebug : Bool} {i n : ℕ} {b b' : Bstr}
  {args : List Byte}

/-! ### Memory -/

/-- **Only twelve pointers are whole** after the copy. -/
theorem readPointer_memcpy (n i : ℕ) :
    readPointer (memcpy indeterminate (pointers n) maxTokens) i =
      if i < n ∧ i < 12 then some i else none := by
  have hbyte : ∀ k < pointerSize, memcpy indeterminate (pointers n) maxTokens (pointerSize * i + k) =
      if pointerSize * i + k < maxTokens ∧ i < n then some (i, k) else none := by
    intro k hk
    have hk : k < 8 := hk
    have hdiv : (8 * i + k) / 8 = i := by omega
    have hmod : (8 * i + k) % 8 = k := by omega
    have hlt : 8 * i + k < 8 * n ↔ i < n := by omega
    simp only [memcpy, pointers, indeterminate, pointerSize, hdiv, hmod, hlt]
    by_cases hcopied : 8 * i + k < maxTokens <;> simp [hcopied]
  have hzero := hbyte 0 (by decide)
  rw [Nat.add_zero] at hzero
  rw [readPointer, hzero]
  by_cases hn : i < n
  · by_cases h12 : i < 12
    · have hfirst : pointerSize * i < maxTokens := by
        simp only [pointerSize, maxTokens]
        omega
      have hall : ∀ k < pointerSize,
          memcpy indeterminate (pointers n) maxTokens (pointerSize * i + k) = some (i, k) := by
        intro k hk
        rw [hbyte k hk, if_pos]
        have hk : k < 8 := hk
        simp only [pointerSize, maxTokens]
        omega
      rw [if_pos ⟨hfirst, hn⟩, if_pos ⟨hn, h12⟩]
      exact if_pos hall
    · -- at least the last byte of the pointer is not copied
      have hlast : ¬(pointerSize * i + 7 < maxTokens ∧ i < n) := by
        simp only [pointerSize, maxTokens]
        omega
      rw [if_neg (fun h : i < n ∧ i < 12 => h12 h.2)]
      by_cases hfirst : pointerSize * i < maxTokens
      · rw [if_pos ⟨hfirst, hn⟩]
        refine if_neg fun hall => ?_
        have h7 := hall 7 (by decide)
        rw [hbyte 7 (by decide), if_neg hlast] at h7
        exact absurd h7 (by simp)
      · rw [if_neg fun h => hfirst h.1]
  · rw [if_neg fun h => hn h.2, if_neg fun h => hn h.1]

/-! ### Tokens that are still to be read -/

/-- The tokens of the heap, of which those that are still to be read own their texts. -/
structure Ahead (p : Params) (toks : List (TokenType × List Byte)) : Prop where
  shape : p.heap.map (fun tk => (tk.type, tk.text)) = toks
  data : ∀ i tk, p.curtk ≤ i → p.heap[i]? = some tk → tk.data = some (.ofToken i)

theorem Ahead.length (h : Ahead p toks) : p.heap.length = toks.length := by
  rw [← h.shape, List.length_map]

theorem Ahead.peek (h : Ahead p toks) : p.peek = (toks[p.curtk]?).map Prod.fst := by
  rw [Params.peek, ← h.shape, List.getElem?_map, Option.map_map]
  rfl

/-- The token that is read next. -/
theorem Ahead.next (h : Ahead p toks) {tk : TokenType × List Byte} (htk : toks[p.curtk]? = some tk) :
    p.heap[p.curtk]? = some ⟨tk.1, tk.2, some (.ofToken p.curtk)⟩ := by
  rw [← h.shape, List.getElem?_map] at htk
  obtain ⟨t, ht, rfl⟩ := Option.map_eq_some_iff.mp htk
  rw [ht, ← h.data _ t (Nat.le_refl _) ht]

theorem Ahead.skip (h : Ahead p toks) : Ahead { p with curtk := p.curtk + 1 } toks :=
  ⟨h.shape, fun i tk hi htk => h.data i tk (Nat.le_of_succ_le hi) htk⟩

theorem matchRelease_keep (h : Ahead p toks) {tk : TokenType × List Byte}
    (htk : toks[p.curtk]? = some tk) :
    p.matchRelease tk.1 false = (some (.ofToken p.curtk), { p with curtk := p.curtk + 1 }) := by
  rw [Params.matchRelease, h.next htk]
  exact if_pos rfl

/-- A text that is taken over is no longer the token's. -/
theorem matchRelease_release (h : Ahead p toks) {tk : TokenType × List Byte}
    (htk : toks[p.curtk]? = some tk) :
    ∃ p', p.matchRelease tk.1 true = (some (.ofToken p.curtk), p') ∧ p'.curtk = p.curtk + 1 ∧
      Ahead p' toks ∧
      (.ofToken p.curtk :: p'.heap.filterMap Token.data).Perm (p.heap.filterMap Token.data) := by
  have hnext := h.next htk
  obtain ⟨hlt, hget⟩ := List.getElem?_eq_some_iff.mp hnext
  refine ⟨⟨p.heap.set p.curtk ⟨tk.1, tk.2, none⟩, p.curtk + 1⟩, ?_, rfl, ⟨?_, ?_⟩, ?_⟩
  · rw [Params.matchRelease, hnext]
    exact if_pos rfl
  · have hsame : (p.heap.map fun tk => (tk.type, tk.text))[p.curtk]? = some (tk.1, tk.2) := by
      rw [List.getElem?_map, hnext]
      rfl
    obtain ⟨hlt', hget'⟩ := List.getElem?_eq_some_iff.mp hsame
    rw [← h.shape, List.map_set, ← hget', List.set_getElem_self]
  · intro i t hi ht
    rw [List.getElem?_set_ne (Nat.ne_of_lt hi)] at ht
    exact h.data i t (Nat.le_of_succ_le hi) ht
  · have hsplit : p.heap = p.heap.take p.curtk ++
        ⟨tk.1, tk.2, some (.ofToken p.curtk)⟩ :: p.heap.drop (p.curtk + 1) := by
      rw [← hget, List.getElem_cons_drop, List.take_append_drop]
    rw [List.set_eq_take_append_cons_drop, if_pos hlt]
    conv_rhs => rw [hsplit]
    simp only [List.filterMap_append, List.filterMap_cons]
    exact List.perm_middle.symm

/-! ### Who owns a text -/

/-- The texts that a command releases by itself. -/
def Command.held (cmd : Command) : List Bstr :=
  cmd.progname.join.toList ++ cmd.name.join.toList ++ (cmd.options.getD []).filterMap Prod.snd

/-- Each text has one owner, among them empty ones that were made for earlier options. -/
def Owns (cmd : Command) (p : Params) : Prop :=
  ∃ es : List ℕ, (cmd.held ++ p.heap.filterMap Token.data).Perm
      ((List.range p.heap.length).map .ofToken ++ es.map .empty) ∧
    es.Nodup ∧ ∀ e ∈ es, e < p.curtk

/-! ### A round of the parser -/

/-- The keys that the command has. -/
def Command.keys (cmd : Command) : List (List Byte) := (cmd.options.getD []).map Prod.fst

theorem hashAllocInsert_spec (cmd : Command) (key : List Byte) (value : Option Bstr) :
    (ndebug = false ∧ key ∈ cmd.keys →
        hashAllocInsert ndebug (cmd.options.getD []) key value = none) ∧
      (¬(ndebug = false ∧ key ∈ cmd.keys) →
        hashAllocInsert ndebug (cmd.options.getD []) key value =
          some ((key, value) :: cmd.options.getD [])) := by
  have hany : (cmd.options.getD []).any (fun o => o.1 = key) = true ↔ key ∈ cmd.keys := by
    rw [List.any_eq_true, Command.keys, List.mem_map]
    simp only [decide_eq_true_eq]
  exact ⟨fun hagain => if_pos ⟨hagain.1, hany.mpr hagain.2⟩,
    fun hnew => if_neg fun h => hnew ⟨h.1, hany.mp h.2⟩⟩

theorem optionKeys_cons (tk : TokenType × List Byte) (toks : List (TokenType × List Byte)) :
    optionKeys (tk :: toks) =
      if tk.1 = .option then cstr tk.2 :: optionKeys toks else optionKeys toks := by
  rw [optionKeys, List.filterMap_cons]
  by_cases h : tk.1 = .option
  · rw [if_pos h, if_pos h]
    rfl
  · rw [if_neg h, if_neg h]
    rfl

/-- What a round leaves as it is. -/
structure Command.Same (cmd cmd' : Command) : Prop where
  progname : cmd'.progname = cmd.progname
  name : cmd'.name = cmd.name
  error : cmd'.error = cmd.error
  tokens : cmd'.tokens = cmd.tokens
  tokenCount : cmd'.tokenCount = cmd.tokenCount

theorem Command.Same.trans {cmd'' : Command} (h : cmd.Same cmd') (h' : cmd'.Same cmd'') :
    cmd.Same cmd'' :=
  ⟨h'.progname.trans h.progname, h'.name.trans h.name, h'.error.trans h.error,
    h'.tokens.trans h.tokens, h'.tokenCount.trans h.tokenCount⟩

/-- What holds between the rounds. -/
structure Between (toks : List (TokenType × List Byte)) (cmd : Command) (p : Params) : Prop where
  ahead : Ahead p toks
  within : p.curtk ≤ toks.length
  owns : Owns cmd p
  options : cmd.options.isSome = true
  extra : cmd.extra.isSome = true

/-- **`Command_option`** takes one key, and a value if there is one. -/
theorem commandOption_spec (h : Between toks cmd p) {text : List Byte} {rest : List (TokenType × List Byte)}
    (htoks : toks.drop p.curtk = (.option, text) :: rest) :
    (ndebug = false ∧ cstr text ∈ cmd.keys ∧ commandOption ndebug cmd p = none) ∨
      (¬(ndebug = false ∧ cstr text ∈ cmd.keys)) ∧ ∃ cmd' p',
        commandOption ndebug cmd p = some (cmd', p') ∧ Between toks cmd' p' ∧ cmd.Same cmd' ∧
          cmd'.keys = cstr text :: cmd.keys ∧ p.curtk < p'.curtk ∧
          optionKeys (toks.drop p'.curtk) = optionKeys rest := by
  have htk : toks[p.curtk]? = some (.option, text) := by
    rw [← List.head?_drop, htoks]
    rfl
  have hrest : toks.drop (p.curtk + 1) = rest := by
    rw [← List.tail_drop, htoks]
    rfl
  have hkey : p.bdata (.ofToken p.curtk) = text := by
    rw [Params.bdata, h.ahead.next htk]
    rfl
  have hwithin : p.curtk + 1 ≤ toks.length := (List.getElem?_eq_some_iff.mp htk).1
  have hkeep := matchRelease_keep h.ahead htk
  have hkey' : Params.bdata { p with curtk := p.curtk + 1 } (.ofToken p.curtk) = text := hkey
  obtain ⟨es, hperm, hnodup, hes⟩ := h.owns
  -- the value, and where it comes from
  have hvalue : ∃ value p',
      (match Params.peek { p with curtk := p.curtk + 1 } with
        | none | some .option =>
          (some (Bstr.empty (p.curtk + 1 - 1)), { p with curtk := p.curtk + 1 })
        | some next => Params.matchRelease { p with curtk := p.curtk + 1 } next true) =
        (some value, p') ∧ Ahead p' toks ∧ p.curtk < p'.curtk ∧ p'.curtk ≤ toks.length ∧
      optionKeys (toks.drop p'.curtk) = optionKeys rest ∧
      ∃ es' : List ℕ, (value :: (cmd.held ++ p'.heap.filterMap Token.data)).Perm
          ((List.range p'.heap.length).map .ofToken ++ es'.map .empty) ∧
        es'.Nodup ∧ ∀ e ∈ es', e < p'.curtk := by
    have hempty : optionKeys (toks.drop (p.curtk + 1)) = optionKeys rest ∧
        ∃ es' : List ℕ, (Bstr.empty p.curtk :: (cmd.held ++ p.heap.filterMap Token.data)).Perm
          ((List.range p.heap.length).map .ofToken ++ es'.map .empty) ∧
        es'.Nodup ∧ ∀ e ∈ es', e < p.curtk + 1 := by
      refine ⟨congrArg optionKeys hrest, p.curtk :: es, ?_, ?_, ?_⟩
      · exact ((List.Perm.cons _ hperm).trans List.perm_middle.symm)
      · exact List.nodup_cons.mpr ⟨fun hmem => Nat.lt_irrefl _ (hes _ hmem), hnodup⟩
      · intro e he
        rcases List.mem_cons.mp he with rfl | he
        · exact Nat.lt_succ_self _
        · exact Nat.lt_succ_of_lt (hes e he)
    have hpeek := h.ahead.skip.peek
    dsimp only at hpeek
    rcases hfound : toks[p.curtk + 1]? with _ | ⟨type, text'⟩
    · rw [hfound] at hpeek
      rw [hpeek]
      exact ⟨_, _, rfl, h.ahead.skip, Nat.lt_succ_self _, hwithin, hempty⟩
    · rw [hfound] at hpeek
      rw [hpeek]
      by_cases htype : type = .option
      · subst htype
        exact ⟨_, _, rfl, h.ahead.skip, Nat.lt_succ_self _, hwithin, hempty⟩
      · obtain ⟨p', hp', hcur, hahead, htaken⟩ := matchRelease_release h.ahead.skip hfound
        have hcur : p'.curtk = p.curtk + 1 + 1 := hcur
        have hlen : p'.heap.length = p.heap.length := hahead.length.trans h.ahead.length.symm
        obtain ⟨hlt', hget⟩ := List.getElem?_eq_some_iff.mp hfound
        refine ⟨.ofToken (p.curtk + 1), p', ?_, hahead, by omega, by omega, ?_, es, ?_, hnodup, ?_⟩
        · cases type with
          | option => exact absurd rfl htype
          | _ => exact hp'
        · have hdrop : toks.drop (p.curtk + 1) = (type, text') :: toks.drop p'.curtk := by
            rw [hcur, List.drop_eq_getElem_cons hlt', hget]
          rw [← hrest, hdrop, optionKeys_cons, if_neg htype]
        · rw [hlen]
          have htaken' := htaken.append_left cmd.held
          exact (List.perm_middle.symm.trans htaken').trans hperm
        · intro e he
          have hlt := hes e he
          omega
  obtain ⟨value, p', hfound, hahead, hlt, hle, hkeys, es', hperm', hnodup', hes'⟩ := hvalue
  have hoption : commandOption ndebug cmd p =
      (hashAllocInsert ndebug (cmd.options.getD []) (cstr text) (some value)).map fun options =>
        ({ cmd with options := some options }, p') := by
    rw [commandOption, hkeep]
    dsimp only
    rw [hkey', hfound]
  have hinsert := @hashAllocInsert_spec ndebug cmd (cstr text) (some value)
  rw [hoption]
  by_cases hagain : ndebug = false ∧ cstr text ∈ cmd.keys
  · rw [hinsert.1 hagain]
    exact .inl ⟨hagain.1, hagain.2, rfl⟩
  · rw [hinsert.2 hagain]
    refine .inr ⟨hagain, _, p', rfl, ⟨hahead, hle, ⟨es', ?_, hnodup', hes'⟩, rfl, h.extra⟩,
      ⟨rfl, rfl, rfl, rfl, rfl⟩, rfl, hlt, hkeys⟩
    refine List.Perm.trans ?_ hperm'
    show (cmd.progname.join.toList ++ cmd.name.join.toList ++
      (value :: (cmd.options.getD []).filterMap Prod.snd) ++ p'.heap.filterMap Token.data).Perm _
    rw [Command.held]
    simp only [List.append_assoc, List.cons_append]
    rw [← List.append_assoc, ← List.append_assoc]
    exact List.perm_middle

/-- **`Command_extra`** leaves the text with its token. -/
theorem commandExtra_spec (h : Between toks cmd p) {tk : TokenType × List Byte}
    (htk : toks[p.curtk]? = some tk) :
    ∃ cmd', commandExtra cmd tk.1 p = (cmd', { p with curtk := p.curtk + 1 }) ∧
      Between toks cmd' { p with curtk := p.curtk + 1 } ∧ cmd.Same cmd' ∧ cmd'.keys = cmd.keys := by
  obtain ⟨es, hperm, hnodup, hes⟩ := h.owns
  rw [commandExtra, matchRelease_keep h.ahead htk]
  exact ⟨_, rfl, ⟨h.ahead.skip, (List.getElem?_eq_some_iff.mp htk).1, ⟨es, hperm, hnodup, fun e he => Nat.lt_succ_of_lt (hes e he)⟩,
    h.options, rfl⟩, ⟨rfl, rfl, rfl, rfl, rfl⟩, rfl⟩

/-- Options that are all different, from the keys of the command as well. -/
def Fresh (cmd : Command) (keys : List (List Byte)) : Prop :=
  keys.Nodup ∧ ∀ key ∈ keys, key ∉ cmd.keys

theorem fresh_cons {key : List Byte} {keys : List (List Byte)} (hkeys : cmd'.keys = key :: cmd.keys) :
    Fresh cmd (key :: keys) ↔ key ∉ cmd.keys ∧ Fresh cmd' keys := by
  rw [Fresh, Fresh, hkeys]
  simp only [List.nodup_cons, List.mem_cons, forall_eq_or_imp, not_or]
  constructor
  · rintro ⟨⟨hkey, hnodup⟩, hfresh, hall⟩
    exact ⟨hfresh, hnodup, fun k hk => ⟨fun heq => hkey (heq ▸ hk), hall k hk⟩⟩
  · rintro ⟨hfresh, hnodup, hall⟩
    exact ⟨⟨fun hk => (hall key hk).1 rfl, hnodup⟩, hfresh, fun k hk => (hall k hk).2⟩

/-- In so many rounds an assertion stops the process, or all tokens are taken. -/
def Completes (ndebug : Bool) (toks : List (TokenType × List Byte)) (n : ℕ) (cmd : Command)
    (p : Params) : Prop :=
  (ndebug = false ∧ ¬Fresh cmd (optionKeys (toks.drop p.curtk)) ∧
      parseLoop ndebug n cmd p = none) ∨
    ¬(ndebug = false ∧ ¬Fresh cmd (optionKeys (toks.drop p.curtk))) ∧ ∃ cmd' p',
      parseLoop ndebug n cmd p = some (cmd', p') ∧ Between toks cmd' p' ∧ cmd.Same cmd' ∧
        p'.curtk = toks.length

/-- Nothing is left. -/
theorem Between.completes (h : Between toks cmd p) (hnone : toks[p.curtk]? = none) (n : ℕ) :
    Completes ndebug toks n cmd p := by
  have hle := List.getElem?_eq_none_iff.mp hnone
  have hfresh : Fresh cmd (optionKeys (toks.drop p.curtk)) := by
    rw [List.drop_eq_nil_of_le hle]
    exact ⟨List.nodup_nil, by simp [optionKeys]⟩
  have hloop : parseLoop ndebug n cmd p = some (cmd, p) := by
    cases n with
    | zero => rfl
    | succ n => rw [parseLoop, h.ahead.peek, hnone]; rfl
  exact .inr ⟨fun hnot => hnot.2 hfresh, cmd, p, hloop, h, ⟨rfl, rfl, rfl, rfl, rfl⟩,
    Nat.le_antisymm h.within hle⟩

/-- **The loop** takes all tokens, unless an assertion stops the process. -/
theorem parseLoop_spec (h : Between toks cmd p) (herror : cmd.error = false)
    (hn : toks.length - p.curtk ≤ n) : Completes ndebug toks n cmd p := by
  induction n generalizing cmd p with
  | zero => exact h.completes (List.getElem?_eq_none_iff.mpr (by omega)) 0
  | succ n ih =>
    rcases htk : toks[p.curtk]? with _ | ⟨type, text⟩
    · exact h.completes htk (n + 1)
    · obtain ⟨hlt, hget⟩ := List.getElem?_eq_some_iff.mp htk
      have hdrop : toks.drop p.curtk = (type, text) :: toks.drop (p.curtk + 1) := by
        rw [List.drop_eq_getElem_cons hlt, hget]
      have hpeek : p.peek = some type := by
        rw [h.ahead.peek, htk]
        rfl
      rw [Completes, parseLoop, hpeek]
      dsimp only
      rw [if_neg (by rw [herror]; exact Bool.false_ne_true), hdrop, optionKeys_cons]
      by_cases htype : type = .option
      · rw [if_pos htype, if_pos htype]
        subst htype
        rcases @commandOption_spec toks p cmd ndebug h text _ hdrop with
          ⟨hdebug, hagain, hround⟩ | ⟨hnew, cmd₁, p₁, hround, h₁, hsame, hkeys, hcur, hrest⟩
        · refine .inl ⟨hdebug, fun hfresh => ?_, ?_⟩
          · exact hfresh.2 _ List.mem_cons_self hagain
          · rw [hround]
            rfl
        · have hloop := ih h₁ (hsame.error.trans herror) (by omega)
          rw [Completes, hrest] at hloop
          have hboth : ndebug = false → (¬Fresh cmd (cstr text :: optionKeys (toks.drop (p.curtk + 1))) ↔
              ¬Fresh cmd₁ (optionKeys (toks.drop (p.curtk + 1)))) := by
            intro hdebug
            have hkey : cstr text ∉ cmd.keys := fun hmem => hnew ⟨hdebug, hmem⟩
            rw [fresh_cons hkeys, and_iff_right hkey]
          rw [hround, Option.bind_some]
          rcases hloop with ⟨hdebug, hfresh, hloop⟩ | ⟨hfresh, cmd₂, p₂, hloop, h₂, hsame₂, hend₂⟩
          · exact .inl ⟨hdebug, (hboth hdebug).mpr hfresh, hloop⟩
          · exact .inr ⟨fun hnot => hfresh ⟨hnot.1, (hboth hnot.1).mp hnot.2⟩,
              cmd₂, p₂, hloop, h₂, hsame.trans hsame₂, hend₂⟩
      · rw [if_neg htype, if_neg htype]
        obtain ⟨cmd₁, hround, h₁, hsame, hkeys⟩ := commandExtra_spec h htk
        have hcur : p.curtk + 1 = ({ p with curtk := p.curtk + 1 } : Params).curtk := rfl
        have hloop := ih h₁ (hsame.error.trans herror) (by rw [← hcur]; omega)
        rw [hround]
        rw [Completes, Fresh, hkeys] at hloop
        rcases hloop with hstop | ⟨hfresh, cmd₂, p₂, hloop, h₂, hsame₂, hend₂⟩
        · exact .inl hstop
        · exact .inr ⟨hfresh, cmd₂, p₂, hloop, h₂, hsame.trans hsame₂, hend₂⟩

/-! ### The release -/

/-- A command that took over all tokens. -/
structure TookOver (toks : List (TokenType × List Byte)) (cmd : Command) (p : Params) : Prop where
  between : Between toks cmd p
  progname : cmd.progname.isSome = true
  name : cmd.name.isSome = true
  tokens : cmd.tokens = memcpy indeterminate (pointers toks.length) maxTokens
  tokenCount : cmd.tokenCount = toks.length

/-- The tokens in their places release themselves and the texts that they still own. -/
theorem tokensDestroy_spec {mem : Memory} (hread : ∀ j < heap.length, readPointer mem j = some j) :
    ∀ n i, i + n = heap.length → ∃ freed, tokensDestroy heap mem n i = some freed ∧
      freed.filterMap Freed.token? = List.range' i n ∧
      freed.Perm (((heap.drop i).filterMap Token.data).map .text ++ (List.range' i n).map .token) := by
  intro n
  induction n with
  | zero =>
    intro i hi
    refine ⟨[], rfl, rfl, ?_⟩
    rw [List.drop_eq_nil_of_le (by omega)]
    exact List.Perm.refl _
  | succ n ih =>
    intro i hi
    have hlt : i < heap.length := by omega
    obtain ⟨freed, hfreed, htokens, hperm⟩ := ih (i + 1) (by omega)
    have htoken : tokenDestroy heap i = some (heap[i].data.toList.map .text ++ [.token i]) := by
      rw [tokenDestroy, List.getElem?_eq_getElem hlt]
      rfl
    refine ⟨heap[i].data.toList.map .text ++ [.token i] ++ freed, ?_, ?_, ?_⟩
    · rw [tokensDestroy, hread i hlt, Option.bind_eq_bind, Option.bind_some, htoken,
        Option.bind_eq_bind, Option.bind_some, hfreed]
      rfl
    · have htexts : (heap[i].data.toList.map Freed.text).filterMap Freed.token? = [] := by
        cases heap[i].data <;> rfl
      rw [List.filterMap_append, List.filterMap_append, htexts, htokens, List.range'_succ]
      rfl
    · have hdrop : (heap.drop i).filterMap Token.data =
          heap[i].data.toList ++ (heap.drop (i + 1)).filterMap Token.data := by
        rw [List.drop_eq_getElem_cons hlt, List.filterMap_cons]
        cases heap[i].data <;> rfl
      rw [hdrop, List.range'_succ, List.map_append, List.map_cons, List.append_assoc,
        List.append_assoc]
      exact (List.Perm.cons _ hperm).trans List.perm_middle.symm |>.append_left _

/-- A pointer that is not whole is followed. -/
theorem tokensDestroy_eq_none {mem : Memory} {j : ℕ} (hj : readPointer mem j = none) :
    ∀ n i, i ≤ j → j < i + n → tokensDestroy heap mem n i = none := by
  intro n
  induction n with
  | zero =>
    intro i hi hlt
    omega
  | succ n ih =>
    intro i hi hlt
    rw [tokensDestroy]
    by_cases heq : i = j
    · rw [heq, hj]
      rfl
    · rw [ih (i + 1) (by omega) (by omega)]
      cases readPointer mem i with
      | none => rfl
      | some q =>
        rw [Option.bind_eq_bind, Option.bind_some]
        cases tokenDestroy heap q <;> rfl

theorem filterMap_token?_text (texts : List Bstr) :
    (texts.map Freed.text).filterMap Freed.token? = [] := by
  refine List.filterMap_eq_nil_iff.mpr fun b hb => ?_
  obtain ⟨t, -, rfl⟩ := List.mem_map.mp hb
  rfl

/-- All that is released, with its owners forgotten. -/
def allFreed (n : ℕ) (es : List ℕ) : List Freed :=
  ((List.range n).map Bstr.ofToken ++ es.map Bstr.empty).map .text ++ (List.range n).map .token

theorem filterMap_ofToken?_allFreed (n : ℕ) (es : List ℕ) :
    (allFreed n es).filterMap Freed.ofToken? = List.range n := by
  have htexts : (((List.range n).map Bstr.ofToken).map Freed.text).filterMap Freed.ofToken? =
      List.range n := by
    rw [List.map_map, List.filterMap_map]
    exact List.filterMap_some
  have hempty : ((es.map Bstr.empty).map Freed.text).filterMap Freed.ofToken? = [] := by
    rw [List.map_map, List.filterMap_map]
    exact List.filterMap_eq_nil_iff.mpr fun _ _ => rfl
  have htokens : ((List.range n).map Freed.token).filterMap Freed.ofToken? = [] := by
    rw [List.filterMap_map]
    exact List.filterMap_eq_nil_iff.mpr fun _ _ => rfl
  rw [allFreed, List.map_append, List.filterMap_append, List.filterMap_append, htexts, hempty,
    htokens, List.append_nil, List.append_nil]

theorem nodup_allFreed (n : ℕ) {es : List ℕ} (hes : es.Nodup) : (allFreed n es).Nodup := by
  have htoken : Function.Injective Freed.token := fun a b h => by injection h
  have htext : Function.Injective Freed.text := fun a b h => by injection h
  have hofToken : Function.Injective Bstr.ofToken := fun a b h => by injection h
  have hempty : Function.Injective Bstr.empty := fun a b h => by injection h
  refine List.Nodup.append (List.Nodup.map htext ?_) (List.nodup_range.map htoken) ?_
  · refine List.Nodup.append (List.nodup_range.map hofToken) (hes.map hempty) fun b hb hb' => ?_
    obtain ⟨i, -, rfl⟩ := List.mem_map.mp hb
    obtain ⟨j, -, hj⟩ := List.mem_map.mp hb'
    exact absurd hj (by simp)
  · intro b hb hb'
    obtain ⟨t, -, rfl⟩ := List.mem_map.mp hb
    obtain ⟨j, -, hj⟩ := List.mem_map.mp hb'
    exact absurd hj (by simp)

/-- **Each thing is released once**, or a pointer is followed that is not whole. -/
theorem TookOver.releases_iff (h : TookOver toks cmd p) :
    (∃ freed, Releases cmd p.heap freed) ↔ toks.length ≤ 12 := by
  have hlen := h.between.ahead.length
  obtain ⟨progname, hprogname⟩ := Option.isSome_iff_exists.mp h.progname
  obtain ⟨name, hname⟩ := Option.isSome_iff_exists.mp h.name
  obtain ⟨options, hoptions⟩ := Option.isSome_iff_exists.mp h.between.options
  obtain ⟨extra, hextra⟩ := Option.isSome_iff_exists.mp h.between.extra
  have hdestroy : commandDestroy cmd p.heap =
      (tokensDestroy p.heap cmd.tokens cmd.tokenCount 0).map fun tokens =>
        cmd.held.map .text ++ tokens := by
    rw [commandDestroy, hprogname, hname, hextra, hoptions, Command.held, hprogname, hname, hoptions]
    cases tokensDestroy p.heap cmd.tokens cmd.tokenCount 0 <;> rfl
  constructor
  · rintro ⟨freed, hreleases⟩
    by_contra hmany
    have hpointer : readPointer cmd.tokens 12 = none := by
      rw [h.tokens, readPointer_memcpy, if_neg (by omega)]
    have hnone := @tokensDestroy_eq_none p.heap _ _ hpointer cmd.tokenCount 0 (by omega)
      (by rw [h.tokenCount]; omega)
    rw [hreleases.destroyed, hnone] at hdestroy
    exact absurd hdestroy (by simp)
  · intro hfew
    have hread : ∀ j < p.heap.length, readPointer cmd.tokens j = some j := by
      intro j hj
      rw [h.tokens, readPointer_memcpy, if_pos ⟨by omega, by omega⟩]
    obtain ⟨freed, hfreed, htokens, hperm⟩ := tokensDestroy_spec hread p.heap.length 0 (by omega)
    rw [h.tokenCount, ← hlen, hfreed] at hdestroy
    rw [List.drop_zero, ← List.range_eq_range'] at hperm
    rw [← List.range_eq_range'] at htokens
    obtain ⟨es, howns, hnodup, -⟩ := h.between.owns
    have hall : (cmd.held.map Freed.text ++ freed).Perm (allFreed p.heap.length es) := by
      refine (hperm.append_left _).trans ?_
      rw [← List.append_assoc, ← List.map_append]
      exact (howns.map _).append_right _
    refine ⟨_, hdestroy, ?_, ?_, hall.nodup_iff.mpr (nodup_allFreed _ hnodup)⟩
    · rw [List.filterMap_append, filterMap_token?_text, htokens]
      rfl
    · rw [← filterMap_ofToken?_allFreed p.heap.length es]
      exact hall.filterMap _

/-! ### A command line -/

/-- `TKBASE` as long as there is room. -/
theorem Ahead.add (h : Ahead p toks) (tk : TokenType × List Byte) :
    (toks.length < maxTokens → ∃ p', p.add tk = some p' ∧ Ahead p' (toks ++ [tk]) ∧
      p'.curtk = p.curtk) ∧ (maxTokens ≤ toks.length → p.add tk = none) := by
  have hlen := h.length
  refine ⟨fun hroom => ⟨_, if_pos (by omega), ⟨?_, ?_⟩, rfl⟩, fun hfull => if_neg (by omega)⟩
  · rw [List.map_append, h.shape]
    rfl
  · intro i t hi ht
    rcases Nat.lt_trichotomy i p.heap.length with hlt | heq | hgt
    · rw [List.getElem?_append_left hlt] at ht
      exact h.data i t hi ht
    · subst heq
      rw [List.getElem?_concat_length] at ht
      injection ht with ht
      exact ht ▸ rfl
    · rw [List.getElem?_eq_none (by rw [List.length_append]; exact hgt)] at ht
      exact absurd ht (by simp)

/-- All tokens of a command line. -/
theorem foldlM_add (more : List (TokenType × List Byte)) (h : Ahead p toks) (hle : toks.length ≤ maxTokens) :
    (toks.length + more.length ≤ maxTokens → ∃ p', more.foldlM Params.add p = some p' ∧
      Ahead p' (toks ++ more) ∧ p'.curtk = p.curtk) ∧
      (maxTokens < toks.length + more.length → more.foldlM Params.add p = none) := by
  induction more generalizing p toks with
  | nil =>
    refine ⟨fun _ => ⟨p, rfl, ?_, rfl⟩, fun hlt => ?_⟩
    · rw [List.append_nil]
      exact h
    · rw [List.length_nil] at hlt
      omega
  | cons tk more ih =>
    obtain ⟨hroom, hfull⟩ := h.add tk
    rw [List.foldlM_cons, List.length_cons]
    by_cases hlt : toks.length < maxTokens
    · obtain ⟨p₁, hp₁, hahead, hcur⟩ := hroom hlt
      have hrest := ih hahead (by rw [List.length_append]; exact hlt)
      rw [hp₁, Option.bind_eq_bind, Option.bind_some]
      rw [List.length_append, List.length_singleton, List.append_assoc, hcur] at hrest
      exact ⟨fun hle => hrest.1 (by omega), fun hlt => hrest.2 (by omega)⟩
    · rw [hfull (by omega)]
      exact ⟨fun hle => by omega, fun _ => rfl⟩

/-- All texts belong to their tokens at first. -/
theorem Ahead.owned (h : Ahead p toks) (hcur : p.curtk = 0) :
    p.heap.filterMap Token.data = (List.range p.heap.length).map .ofToken := by
  have hdata : p.heap.map Token.data =
      ((List.range p.heap.length).map Bstr.ofToken).map some := by
    refine List.ext_getElem (by simp) fun i hi hi' => ?_
    rw [List.length_map] at hi
    rw [List.getElem_map, List.getElem_map, List.getElem_map, List.getElem_range]
    exact h.data i _ (by omega) (List.getElem?_eq_getElem hi)
  have hid : p.heap.filterMap Token.data = (p.heap.map Token.data).filterMap id := by
    rw [List.filterMap_map]
    rfl
  rw [hid, hdata, List.filterMap_map]
  exact List.filterMap_some

/-- The text of a token that the command takes over. -/
theorem Owns.take (h : Owns cmd p) {b : Bstr}
    (hcur : p.curtk ≤ p'.curtk) (hlen : p'.heap.length = p.heap.length)
    (hperm : (b :: p'.heap.filterMap Token.data).Perm (p.heap.filterMap Token.data))
    (hheld : cmd'.held.Perm (b :: cmd.held)) : Owns cmd' p' := by
  obtain ⟨es, hes, hnodup, hlt⟩ := h
  refine ⟨es, ?_, hnodup, fun e he => Nat.lt_of_lt_of_le (hlt e he) hcur⟩
  rw [hlen]
  exact ((hheld.append_right _).trans List.perm_middle.symm).trans ((hperm.append_left _).trans hes)

theorem TookOver.returned_safe (h : TookOver toks cmd p) (rc : ℤ) :
    (Returned.returned rc cmd p.heap).Safe ↔ toks.length ≤ 12 := by
  refine ⟨fun hsafe => h.releases_iff.mp hsafe.1, fun hfew => ⟨h.releases_iff.mpr hfew, fun _ => ?_⟩⟩
  have hlen := h.between.ahead.length
  refine ⟨h.tokenCount.trans hlen.symm, fun i hi => ?_⟩
  rw [h.tokenCount] at hi
  rw [h.tokens, readPointer_memcpy, if_pos ⟨hi, by omega⟩]

theorem TookOver.failed (h : TookOver toks cmd p) : (failed cmd p).Safe ↔ toks.length ≤ 12 :=
  @TookOver.returned_safe toks p { cmd with error := true } ⟨⟨h.between.ahead, h.between.within,
    h.between.owns, h.between.options, h.between.extra⟩, h.progname, h.name, h.tokens,
    h.tokenCount⟩ (-1)

/-- The command when the loop begins. -/
def Command.begun (n : ℕ) (progname name : Option (Option Bstr)) : Command :=
  ⟨progname, name, some [], some [], false, memcpy indeterminate (pointers n) maxTokens, n⟩

/-- The program is named and the command is not. -/
theorem failed_safe (h : Ahead p toks) (hwithin : p.curtk ≤ toks.length)
    (howns : Owns (Command.begun toks.length (some (some b)) (some none)) p) :
    (failed (Command.begun toks.length (some (some b)) (some none)) p).Safe ↔ toks.length ≤ 12 :=
  TookOver.failed ⟨⟨h, hwithin, howns, rfl, rfl⟩, rfl, rfl, rfl, rfl⟩

/-- The program and the command are named. -/
theorem parseLoop_safe (h : Between toks (Command.begun toks.length (some (some b)) (some (some b'))) p)
    (hcur : p.curtk = 2) :
    (match parseLoop ndebug toks.length
        (Command.begun toks.length (some (some b)) (some (some b'))) p with
      | none => Returned.stopped
      | some (cmd, p) => if p.curtk = p.heap.length then .returned 0 cmd p.heap
        else failed cmd p).Safe ↔
      toks.length ≤ 12 ∨ ndebug = false ∧ ¬(optionKeys (toks.drop 2)).Nodup := by
  have hfresh : Fresh (Command.begun toks.length (some (some b)) (some (some b')))
      (optionKeys (toks.drop p.curtk)) ↔ (optionKeys (toks.drop 2)).Nodup := by
    rw [Fresh, hcur]
    exact and_iff_left fun key _ => List.not_mem_nil
  rcases @parseLoop_spec toks p _ ndebug toks.length h rfl (Nat.sub_le _ _) with
    ⟨hdebug, hagain, hloop⟩ | ⟨hnot, cmd', p', hloop, h', hsame, hend⟩
  · rw [hloop]
    exact iff_of_true trivial (.inr ⟨hdebug, fun hnodup => hagain (hfresh.mpr hnodup)⟩)
  · rw [hloop]
    dsimp only
    rw [if_pos (hend.trans h'.ahead.length.symm)]
    have htook : TookOver toks cmd' p' :=
      ⟨h', hsame.progname ▸ rfl, hsame.name ▸ rfl, hsame.tokens, hsame.tokenCount⟩
    rw [htook.returned_safe 0, or_iff_left]
    rintro ⟨hdebug, hagain⟩
    exact hnot ⟨hdebug, fun hfre => hagain (hfresh.mp hfre)⟩

/-- The second token, if it is the name of a command. -/
theorem matchName (h : Ahead p toks) (hcur : p.curtk = 1) (hne : toks ≠ []) :
    ((∃ tk, toks[1]? = some tk ∧ tk.1 = .ident) ∧ ∃ p',
        p.matchRelease .ident true = (some (.ofToken 1), p') ∧ p'.curtk = 2 ∧ 2 ≤ toks.length ∧
          Ahead p' toks ∧
          (.ofToken 1 :: p'.heap.filterMap Token.data).Perm (p.heap.filterMap Token.data)) ∨
      (¬∃ tk, toks[1]? = some tk ∧ tk.1 = .ident) ∧ ∃ p',
        p.matchRelease .ident true = (none, p') ∧ p'.heap = p.heap ∧ 1 ≤ p'.curtk ∧
          p'.curtk ≤ toks.length ∧ Ahead p' toks := by
  rcases hname : toks[1]? with _ | ⟨type, text⟩
  · have hlen := List.getElem?_eq_none_iff.mp hname
    have hpos := List.length_pos_of_ne_nil hne
    have hnone : p.heap[p.curtk]? = none := by
      rw [List.getElem?_eq_none_iff, h.length, hcur]
      exact hlen
    refine .inr ⟨by simp, p, ?_, rfl, by omega, by omega, h⟩
    rw [Params.matchRelease, hnone]
  · have hname' : toks[p.curtk]? = some (type, text) := by rw [hcur, hname]
    have hlen : 1 < toks.length := (List.getElem?_eq_some_iff.mp hname).1
    by_cases htype : type = .ident
    · subst htype
      obtain ⟨p', hp', hcur', hahead, htaken⟩ := matchRelease_release h hname'
      rw [hcur] at hp' hcur' htaken
      exact .inl ⟨⟨_, rfl, rfl⟩, p', hp', hcur', hlen, hahead, htaken⟩
    · have hskip : p.matchRelease .ident true = (none, { p with curtk := p.curtk + 1 }) := by
        rw [Params.matchRelease, h.next hname']
        exact if_neg htype
      refine .inr ⟨?_, _, hskip, rfl, Nat.le_add_left 1 p.curtk, ?_, h.skip⟩
      · rintro ⟨tk, htk, hident⟩
        injection htk with htk
        subst htk
        exact htype hident
      · show p.curtk + 1 ≤ toks.length
        omega

/-- **`Command_parse`**. -/
theorem commandParse_safe (h : Ahead p toks) (hcur : p.curtk = 0) (hne : toks ≠ [])
    (hle : toks.length ≤ maxTokens) :
    (commandParse ndebug p uninitialised).Safe ↔
      (toks.length ≤ 12 ∧ Named toks) ∨ Stops ndebug toks := by
  obtain ⟨⟨type, text⟩, rest, hcons⟩ := List.exists_cons_of_ne_nil hne
  have hfirst : toks[p.curtk]? = some (type, text) := by
    rw [hcur, hcons]
    rfl
  have hnamed : Named toks ↔ type = .ident ∨ type = .blob := by
    simp [Named, hcons]
  rw [commandParse, h.peek, hfirst]
  dsimp only [Option.map_some]
  by_cases htype : type = .ident ∨ type = .blob
  · rw [if_pos htype]
    obtain ⟨p₁, hp₁, hcur₁, hahead₁, htaken₁⟩ := matchRelease_release h hfirst
    rw [hp₁]
    dsimp only
    rw [if_neg (by simp), h.length]
    have hcur₁ : p₁.curtk = 1 := by
      rw [hcur₁, hcur]
    have hlen₁ : p₁.heap.length = p.heap.length := hahead₁.length.trans h.length.symm
    have howns : Owns (Command.begun toks.length none none) p :=
      ⟨[], by rw [h.owned hcur]; simp [Command.held, Command.begun], List.nodup_nil, by simp⟩
    have howns₁ : Owns (Command.begun toks.length (some (some (.ofToken p.curtk))) (some none)) p₁ :=
      howns.take (by omega) hlen₁ htaken₁ (List.Perm.refl _)
    rcases matchName hahead₁ hcur₁ hne with
      ⟨hname, p₂, hp₂, hcur₂, hlen, hahead₂, htaken₂⟩ |
      ⟨hname, p₂, hp₂, hheap, hpos, hwithin, hahead₂⟩
    · rw [hp₂]
      dsimp only
      rw [if_neg (by simp)]
      have hlen₂ : p₂.heap.length = p₁.heap.length := hahead₂.length.trans hahead₁.length.symm
      have howns₂ : Owns (Command.begun toks.length (some (some (.ofToken p.curtk)))
          (some (some (.ofToken 1)))) p₂ :=
        howns₁.take (by omega) hlen₂ htaken₂ (List.Perm.swap _ _ _)
      refine (parseLoop_safe ⟨hahead₂, by omega, howns₂, rfl, rfl⟩ hcur₂).trans ?_
      rw [and_iff_left (hnamed.mpr htype)]
      refine or_congr_right ⟨fun hagain => ?_, fun hstops => ⟨hstops.ndebug, hstops.again⟩⟩
      exact ⟨hagain.1, hle, hnamed.mpr htype, hname, hagain.2⟩
    · rw [hp₂]
      dsimp only
      rw [if_pos rfl]
      have howns₂ : Owns (Command.begun toks.length (some (some (.ofToken p.curtk))) (some none)) p₂ := by
        obtain ⟨es, hperm, hnodup, hes⟩ := howns₁
        rw [← hheap] at hperm
        exact ⟨es, hperm, hnodup, fun e he => by have := hes e he; omega⟩
      refine (failed_safe hahead₂ hwithin howns₂).trans ?_
      rw [and_iff_left (hnamed.mpr htype), or_iff_left fun hstops => hname hstops.command]
  · rw [if_neg htype]
    refine iff_of_false (fun hsafe => ?_) ?_
    · obtain ⟨freed, hreleases⟩ := hsafe.1
      exact absurd hreleases.destroyed (by simp [commandDestroy, uninitialised])
    · rintro (⟨-, hname⟩ | hstops)
      · exact htype (hnamed.mp hname)
      · exact htype (hnamed.mp hstops.named)

/-- More tokens than there is room for. -/
theorem cliParamsParseArgs_of_lt (hlt : maxTokens < (tokens args).length) :
    cliParamsParseArgs ndebug args = .wrong := by
  have hempty : Ahead ⟨[], 0⟩ [] := ⟨rfl, by simp⟩
  have hfull := (foldlM_add (tokens args) hempty (Nat.zero_le _)).2
  rw [List.length_nil, Nat.zero_add] at hfull
  rw [cliParamsParseArgs, hfull hlt]

/-- One token gets another one, which changes nothing about it. -/
theorem default_iff (hlen : toks.length < 2) :
    ((toks ++ [defaultCommand]).length ≤ 12 ∧ Named (toks ++ [defaultCommand])) ∨
        Stops ndebug (toks ++ [defaultCommand]) ↔
      (toks.length ≤ 12 ∧ Named toks) ∨ Stops ndebug toks := by
  have hlen' : (toks ++ [defaultCommand]).length = toks.length + 1 := List.length_append
  have hstops : ∀ toks', toks'.length ≤ 2 → ¬Stops ndebug toks' := by
    intro toks' hle hstops
    have hagain := hstops.again
    rw [List.drop_eq_nil_of_le hle] at hagain
    exact hagain List.nodup_nil
  rw [or_iff_left (hstops _ (by omega)), or_iff_left (hstops _ (by omega))]
  refine and_congr (by omega) ?_
  cases toks with
  | nil => simp [Named, defaultCommand]
  | cons tk toks => exact Iff.rfl

/-- As many tokens as there is room for. -/
theorem cliParamsParseArgs_safe (hle : (tokens args).length ≤ maxTokens) :
    (cliParamsParseArgs ndebug args).Safe ↔
      ((tokens args).length ≤ 12 ∧ Named (tokens args)) ∨ Stops ndebug (tokens args) := by
  have hempty : Ahead ⟨[], 0⟩ [] := ⟨rfl, by simp⟩
  have hroom := (foldlM_add (tokens args) hempty (Nat.zero_le _)).1
  rw [List.length_nil, Nat.zero_add] at hroom
  obtain ⟨p, hp, hahead, hcur⟩ := hroom hle
  have hahead : Ahead p (tokens args) := hahead
  rw [cliParamsParseArgs, hp, run_scanner]
  dsimp only
  have hfinal : cliParamsFinish (Scanner.End.final : Scanner.End Cli.Cs) = 1 := rfl
  rw [if_pos hfinal, hahead.length]
  by_cases hfew : (tokens args).length < 2
  · have hfits : (tokens args).length < maxTokens := Nat.lt_trans hfew (by decide)
    obtain ⟨p', hp', hahead', hcur'⟩ := (hahead.add defaultCommand).1 hfits
    rw [if_pos hfew, hp', ← default_iff hfew]
    refine commandParse_safe hahead' (hcur'.trans hcur) (by simp) ?_
    rw [List.length_append]
    exact hfits
  · rw [if_neg hfew]
    refine commandParse_safe hahead hcur ?_ hle
    rintro hnil
    rw [hnil] at hfew
    exact hfew (by decide)

-- A command line that does not name the program.
example : (tokens (bytes "-db x"))[0]? = some (.option, bytes "db") := by decide

end

end M2sh

end Mongrel2

/-
The last byte of a configuration file (`Parse_config_string` of `m2sh`).

* `parseConfigString` — the machine goes over all bytes but the last one, and what it finds
  is given to the parser;
* `settings_eq_some_iff` — a text has settings exactly if the grammar reads its tokens;
* `Idle` — the last byte is no part of a token; `Whole` — a text is a configuration;
* **`settings_newline_iff`** — a line feed at the end makes no difference exactly if the last
  byte is idle, or if neither with nor without it there is a configuration.

Design notes: settings are the tree that is returned.  A text fails with NULL, and where an
assertion stops the process.
-/
import Mongrel2.ConfigLexer
import Mongrel2.LemonEnds
import Mongrel2.TstMap

namespace Mongrel2

open ByteStream HttpParser

namespace M2sh.Config

open Lemon (Accepts Eats Finished Stands Tells)

/-! ### Parsing -/

/-- The bytes from `p` to `pe`.  Of an empty text `pe` is in front of the first byte: the
machine comes to the zero behind it, which is in no token. -/
def scanned (content : List Byte) : List Byte :=
  if content = [] then [0] else content.dropLast

/-- `ParseAlloc`, and the initial `ParserState`. -/
def fresh : Lemon.Parser State Minor ParserState := ⟨[], 0, ⟨.nil, false⟩⟩

/-- What is done behind the machine: with an invalid character, or in the middle of a token,
there is no `TKEOF`. -/
def finish (found : Scanner.End Cs) (p : Lemon.Parser State Minor ParserState) :
    Except Lemon.Halt (Lemon.Parser State Minor ParserState) :=
  (if found = .final then parser.parse rounds p .eof .zero else .ok p).bind fun p =>
    parser.parse rounds p .eoi .zero

/-- `Parse_config_string`; `nil` for NULL. -/
def parseConfigString (content : List Byte) : Except Lemon.Halt Pairs :=
  (parser.feed rounds ParserState.error fresh (tokens (scanned content))).bind fun o =>
    match o with
    | none => .ok .nil
    | some p => (finish (scanner.run (scanned content)).2 p).map fun p => p.state.settings

/-- The settings of a text, if it does not fail. -/
def settings (content : List Byte) : Option Pairs :=
  match parseConfigString content with
  | .ok .nil => none
  | .ok t => some t
  | .error _ => none

/-! ### Configurations -/

/-- The tokens are a configuration, behind the last time that the stack was too small. -/
def Whole (text : List Byte) : Prop :=
  ∃ v, Accepts grammar (parser.depth - 1) .vars (tokens text) v

/-- The last byte is no part of a token: outside it is neither in a word or number nor
punctuation, and between quotes it is not the one that ends them. -/
def Idle (content : List Byte) : Prop :=
  ∀ c ∈ content.getLast?, (place content.dropLast).tells c = false

instance (content : List Byte) : Decidable (Idle content) :=
  inferInstanceAs (Decidable (∀ c ∈ content.getLast?, _))

/-- What is declared with `%type`. -/
inductive MinorType
  | none | value | pair | tst | list | cls

def Nonterminal.type : Nonterminal → MinorType
  | .config => .none
  | .expr => .value
  | .assignment | .hashPair => .pair
  | .vars | .parameters | .hash | .hashElements => .tst
  | .list | .listElements => .list
  | .cls => .cls

/-- Values of a type that are not the same, which for pairs have one key. -/
inductive Differ : MinorType → Minor → Minor → Prop
  | value {a b : Value} (h : a ≠ b) : Differ .value (.value a) (.value b)
  | pair (key : List Byte) {a b : Value} (h : a ≠ b) :
    Differ .pair (.pair ⟨key, a⟩) (.pair ⟨key, b⟩)
  | tst {a b : Pairs} (h : a ≠ b) : Differ .tst (.tst a) (.tst b)
  | list {a b : List Value} (h : a ≠ b) : Differ .list (.list a) (.list b)

section

variable {content text w : List Byte} {toks : List (Terminal × Minor)} {v v' : Minor}
  {p : Lemon.Parser State Minor ParserState} {x : List (Terminal × Minor)} {o t t' : Pairs}

theorem tokens_found (text : List Byte) : ∀ tk ∈ tokens text, tk.1.IsFound := by
  intro tk htk
  obtain ⟨found, hfound, rfl⟩ := List.mem_map.mp htk
  exact scanner_kinds.run scanner_productive text found hfound

theorem not_eoi (text : List Byte) : ∀ tk ∈ tokens text, tk.1 ≠ parser.eoi :=
  fun tk htk => (tokens_found text tk htk).1

/-- What the grammar accepts is what a run ends with. -/
theorem accepts_iff (text : List Byte) (v : Minor) :
    Accepts grammar (parser.depth - 1) .vars (tokens text) v ↔
      ∃ p, parser.feed rounds ParserState.error fresh (tokens text) = .ok (some p) ∧
        Finished parser grammar certificate p v :=
  Lemon.accepts_iff parser_certified rounds_enough rfl rfl rfl rfl (not_eoi text)

/-! ### Insertions -/

/-- A pair that is inserted can be found. -/
theorem lookup_insertPair {a : Pair Value} {m : Minor} (h : insertPair o a = some m) :
    ∃ t, m = .tst t ∧ t.lookup (a.key.headD 0 :: a.key.tail) = some a := by
  obtain ⟨t, ht, rfl⟩ := Option.map_eq_some_iff.mp h
  exact ⟨t, rfl, by rw [Tst.lookup_insertBase ht, if_pos rfl]⟩

/-- Pairs with one key make trees that are not the same, unless the pairs are. -/
theorem insertPair_ne {a a' : Pair Value} {m m' : Minor} (h : insertPair o a = some m)
    (h' : insertPair o a' = some m') (hkey : a.key = a'.key) (hne : a ≠ a') :
    ∃ t t', m = .tst t ∧ m' = .tst t' ∧ t ≠ t' := by
  obtain ⟨t, rfl, ht⟩ := lookup_insertPair h
  obtain ⟨t', rfl, ht'⟩ := lookup_insertPair h'
  refine ⟨t, t', rfl, rfl, fun heq => hne ?_⟩
  rw [heq, hkey, ht'] at ht
  injection ht with ht
  exact ht.symm

theorem insertPair_ne_nil {a : Pair Value} {m : Minor} (h : insertPair o a = some m) :
    m.yy9 ≠ .nil := by
  obtain ⟨t, rfl, ht⟩ := lookup_insertPair h
  intro hnil
  have hnil : t = .nil := hnil
  rw [hnil, Tst.lookup_nil_tree] at ht
  exact absurd ht (by simp)

theorem rules_of_vars : ∀ r, grammar.lhs r = .vars → r = 1 ∨ r = 2 ∨ r = 3 := by decide

/-- Where there are variables there is a tree. -/
theorem Reads.yy9_ne_nil {n : ℕ} {Xs : List Symbol} {vs : List Minor}
    (h : Lemon.Reads grammar n Xs toks vs) (hXs : Xs.head? = some (.nonterminal .vars)) :
    (vs.getD 0 .zero).yy9 ≠ .nil := by
  induction h with
  | nil => exact absurd hXs (by simp)
  | token => exact absurd hXs (by simp)
  | @rule n r v Xs w w' us vs _ hact _ ih _ =>
    have hlhs : grammar.lhs r = .vars := by simpa using hXs
    rcases rules_of_vars r hlhs with rfl | rfl | rfl
    · have hact : insertPair (us.getD 0 .zero).yy9 (us.getD 1 .zero).yy35 = some v := hact
      exact insertPair_ne_nil hact
    · have hact : insertPair .nil (us.getD 0 .zero).yy35 = some v := hact
      exact insertPair_ne_nil hact
    · have hact : some (Minor.tst (us.getD 0 .zero).yy9) = some v := hact
      injection hact with hact
      rw [List.getD_cons_zero, ← hact]
      exact ih rfl

theorem Accepts.yy9_ne_nil {n : ℕ} (h : Accepts grammar n .vars toks v) : v.yy9 ≠ .nil := by
  obtain ⟨x, -, hreads⟩ := h
  exact Reads.yy9_ne_nil hreads rfl

/-! ### The end of a text -/

/-- At the end of the file, the variables are kept. -/
theorem Finished.eof (hp : Finished parser grammar certificate p v) :
    Eats parser grammar certificate (parser.ready p).stack [(.eof, .zero)]
      [(certificate.done, .tst v.yy9), (parser.start, parser.zero)] := by
  have hshift : parser.trans certificate.done (.terminal .eof) = some 19 := trans_eq_goes _ _
  have hreduce : Lemon.Reduces parser grammar certificate
      [(19, .zero), (certificate.done, v), (parser.start, parser.zero)]
      [(certificate.done, .tst v.yy9), (parser.start, parser.zero)] :=
    @Lemon.Reduces.intro _ _ _ _ _ _ parser grammar certificate [(19, .zero), (certificate.done, v)]
      [] parser.start 19 certificate.done parser.zero (.tst v.yy9) 3 rfl (by decide) rfl rfl
      (trans_eq_goes _ _) (by decide)
  have hbehind := Eats.shift hshift (by decide) (.reduce hreduce (.refl _))
  exact Eats.trans hp hbehind

/-- **What is to be read** is in the settings at the end. -/
theorem Finished.finish (hp : Finished parser grammar certificate p v) (hlen : p.stack.length ≤ 100)
    (found : Scanner.End Cs) :
    ∃ p', finish found p = .ok p' ∧ p'.state.settings = v.yy9 := by
  by_cases hfinal : found = .final
  · obtain ⟨p₁, hcall, -, hlen₁, heats⟩ :=
      (Finished.eof hp).parse_eq parser_certified rounds_enough hlen
    obtain ⟨p', hcall', hstate⟩ :=
      Lemon.Finished.parse_eoi parser_certified rounds_enough hlen₁ heats .zero
    refine ⟨p', ?_, ?_⟩
    · rw [Config.finish, if_pos hfinal, hcall]
      exact hcall'
    · rw [hstate]
      rfl
  · obtain ⟨p', hcall, hstate⟩ :=
      Lemon.Finished.parse_eoi parser_certified rounds_enough hlen hp .zero
    refine ⟨p', ?_, ?_⟩
    · rw [Config.finish, if_neg hfinal]
      exact hcall
    · rw [hstate]
      rfl

/-- Without settings before, there are some behind the end of the input only where there
was something to be read. -/
theorem finished_of_parse_eoi {σ : List (State × Minor)} {e : ℤ}
    {p' : Lemon.Parser State Minor ParserState} (hready : parser.ready p = ⟨σ, e, p.state⟩)
    (hbuilt : Lemon.Built parser grammar σ x) (hnil : p.state.settings = .nil)
    (hcall : parser.parse rounds p .eoi .zero = .ok p') (hne : p'.state.settings ≠ .nil) :
    ∃ v, Finished parser grammar certificate p v := by
  rw [Lemon.parse, hready] at hcall
  rcases hbuilt.parseLoop_eoi parser_certified hcall with ⟨v, heats, -⟩ | hstate | hstate
  · refine ⟨v, ?_⟩
    rw [Finished, hready]
    exact heats
  · rw [hstate] at hne
    exact absurd hnil hne
  · rw [hstate] at hne
    exact absurd hnil hne

theorem start_none : certificate.reduction parser.start = none := rfl

theorem not_finished_of_nil (hstack : p.stack = []) : ¬Finished parser grammar certificate p v := by
  intro h
  rw [Finished, Lemon.ready, if_pos hstack] at h
  have hends := h.eq_of_none rfl rfl start_none
  exact absurd (congrArg List.length hends) (by simp)

theorem settings_yyError (p : Lemon.Parser State Minor ParserState) (t : Terminal) :
    (parser.yyError p t).state.settings = p.state.settings := by
  show (if p.errcnt ≤ 0 then parser.syntaxError p.state else p.state).settings = _
  by_cases herrcnt : p.errcnt ≤ 0
  · rw [if_pos herrcnt]
    rfl
  · rw [if_neg herrcnt]

/-- Only behind the variables there is a place for the end of the file. -/
theorem eof_check : ∀ q : State, ∀ e ∈ edges.getD q [], e.1 = .terminal .eof →
    q = certificate.done := by decide

theorem shiftAction_done_eof : parser.shiftAction certificate.done .eof = .shift 19 :=
  Lemon.trans_terminal.mp (trans_eq_goes _ _)

/-- **Settings come from what is to be read.** -/
theorem Stands.finished_of_finish (h : Stands parser grammar p x) (hstate : p.state = fresh.state)
    {found : Scanner.End Cs} {p' : Lemon.Parser State Minor ParserState}
    (hfinish : finish found p = .ok p') (hne : p'.state.settings ≠ .nil) :
    ∃ v, Finished parser grammar certificate p v := by
  obtain ⟨σ, e, hready, -, hbuilt⟩ := h.ready
  have hnil : p.state.settings = .nil := by
    rw [hstate]
    rfl
  rw [finish] at hfinish
  by_cases hfinal : found = .final
  · rw [if_pos hfinal] at hfinish
    cases hcall : parser.parse rounds p .eof .zero with
    | error halt =>
      rw [hcall] at hfinish
      exact absurd hfinish (by simp [Except.bind])
    | ok p₁ =>
      rw [hcall] at hfinish
      have hlast : parser.parse rounds p₁ .eoi .zero = .ok p' := hfinish
      have htook : parser.parseLoop rounds ⟨σ, e, p.state⟩ .eof .zero = .ok p₁ := hready ▸ hcall
      cases hbuilt.took parser_certified (by decide) htook with
      | @shifted τ q q' u heats hgo =>
        have hq := eof_check q _ (mem_edges hgo) rfl
        subst hq
        obtain ⟨rfl, -⟩ := (hbuilt.eats parser_certified heats rfl).reads_root parser_certified
        refine ⟨u, ?_⟩
        rw [Finished, hready]
        exact heats
      | emptied =>
        have hready₁ : parser.ready ⟨[], e, p.state⟩ = ⟨_, -1, p.state⟩ := if_pos rfl
        obtain ⟨v, hv⟩ := finished_of_parse_eoi hready₁ .base hnil hlast hne
        exact absurd hv (not_finished_of_nil rfl)
      | @error τ q heats htop hr haction =>
        -- the state in front of the error is not the one behind what is to be read
        obtain ⟨u, τ', rfl⟩ := Lemon.ne_nil_of_top htop
        have hτ := hbuilt.eats parser_certified heats rfl
        have hready₁ : parser.ready (parser.yyError ⟨(q, u) :: τ', e, p.state⟩ .eof) =
            parser.yyError ⟨(q, u) :: τ', e, p.state⟩ .eof :=
          Lemon.ready_of_ne_nil (List.cons_ne_nil _ _)
        have hnil₁ := (settings_yyError ⟨(q, u) :: τ', e, p.state⟩ .eof).trans hnil
        obtain ⟨v, hv⟩ := finished_of_parse_eoi hready₁ hτ hnil₁ hlast hne
        rw [Finished, hready₁] at hv
        have hends := hv.eq_of_none rfl htop hr
        injection hends with hqu _
        injection hqu with hq _
        rw [← hq, shiftAction_done_eof] at haction
        exact absurd haction (by simp)
  · rw [if_neg hfinal] at hfinish
    exact finished_of_parse_eoi hready hbuilt hnil hfinish hne

/-- **A text has settings** exactly if the grammar reads its tokens. -/
theorem settings_eq_some_iff (content : List Byte) (t : Pairs) : settings content = some t ↔
    ∃ v, Accepts grammar (parser.depth - 1) .vars (tokens (scanned content)) v ∧ v.yy9 = t := by
  have hsome : ∀ v, Accepts grammar (parser.depth - 1) .vars (tokens (scanned content)) v →
      settings content = some v.yy9 := by
    intro v h
    obtain ⟨p, hfeed, -, hlen, hfinished⟩ :=
      h.feed_eq parser_certified rounds_enough (rfl : ParserState.error fresh.state = false) rfl rfl
    obtain ⟨p', hfinish, hsettings⟩ :=
      Finished.finish hfinished hlen (scanner.run (scanned content)).2
    have hparse : parseConfigString content = .ok v.yy9 := by
      rw [parseConfigString, hfeed]
      show Except.map _ (finish _ p) = _
      rw [hfinish, ← hsettings]
      rfl
    have hne := Accepts.yy9_ne_nil h
    rw [settings, hparse]
    cases hv : v.yy9 with
    | nil => exact absurd hv hne
    | node => rfl
  constructor
  · intro h
    obtain ⟨hparse, hne⟩ : parseConfigString content = .ok t ∧ t ≠ .nil := by
      rw [settings] at h
      cases hparse : parseConfigString content with
      | error halt =>
        rw [hparse] at h
        exact absurd h (by simp)
      | ok t' =>
        rw [hparse] at h
        cases t' with
        | nil => exact absurd h (by simp)
        | node =>
          injection h with h
          rw [← h]
          exact ⟨rfl, by simp⟩
    rw [parseConfigString] at hparse
    rcases hfeed : parser.feed rounds ParserState.error fresh (tokens (scanned content)) with
      halt | ⟨- | p⟩
    · rw [hfeed] at hparse
      exact absurd hparse (by simp [Except.bind])
    · rw [hfeed] at hparse
      injection hparse with hparse
      exact absurd hparse.symm hne
    · rw [hfeed] at hparse
      have hparse : (finish (scanner.run (scanned content)).2 p).map
        (fun p => p.state.settings) = .ok t := hparse
      cases hfinish : finish (scanner.run (scanned content)).2 p with
      | error halt =>
        rw [hfinish] at hparse
        exact absurd hparse (by simp [Except.map])
      | ok p' =>
        rw [hfinish] at hparse
        injection hparse with hparse
        have hsettings : p'.state.settings ≠ .nil := by
          rw [show p'.state.settings = t from hparse]
          exact hne
        obtain ⟨hstate, x, hstands, -⟩ :=
          Lemon.feed_stands parser_certified rfl rfl (.empty rfl) (not_eoi _) hfeed
        obtain ⟨v, hv⟩ := Stands.finished_of_finish hstands hstate hfinish hsettings
        have haccepts := (accepts_iff _ v).mpr ⟨p, hfeed, hv⟩
        refine ⟨v, haccepts, Option.some.inj ?_⟩
        rw [← hsome v haccepts, h]
  · rintro ⟨v, h, rfl⟩
    exact hsome v h

theorem finish_halt (h : Lemon.Built parser grammar (parser.ready p).stack x)
    {found : Scanner.End Cs} {halt : Lemon.Halt} (hfinish : finish found p = .error halt) :
    halt = .stopped := by
  rw [finish] at hfinish
  by_cases hfinal : found = .final
  · rw [if_pos hfinal] at hfinish
    cases hcall : parser.parse rounds p .eof .zero with
    | error halt' =>
      rw [hcall] at hfinish
      injection hfinish with hfinish
      exact hfinish ▸ rounds_enough.parse_halt parser_certified h hcall
    | ok p₁ =>
      rw [hcall] at hfinish
      have hlast : parser.parse rounds p₁ .eoi .zero = .error halt := hfinish
      obtain ⟨x', h'⟩ := (h.took parser_certified (by decide) hcall).built_ready parser_certified h
        (by decide)
      exact rounds_enough.parse_halt parser_certified h' hlast
  · rw [if_neg hfinal] at hfinish
    exact rounds_enough.parse_halt parser_certified h hfinish

/-- **A call that does not return** has stopped the process: there are rounds enough. -/
theorem parseConfigString_halt {halt : Lemon.Halt} (h : parseConfigString content = .error halt) :
    halt = .stopped := by
  rw [parseConfigString] at h
  rcases hfeed : parser.feed rounds ParserState.error fresh (tokens (scanned content)) with
    halt' | ⟨- | p⟩
  · rw [hfeed] at h
    injection h with h
    exact h ▸ Lemon.feed_halt parser_certified rounds_enough rfl rfl (.empty rfl) (not_eoi _) hfeed
  · rw [hfeed] at h
    exact absurd h (by simp [Except.bind])
  · rw [hfeed] at h
    have h : (finish (scanner.run (scanned content)).2 p).map
      (fun p => p.state.settings) = .error halt := h
    cases hfinish : finish (scanner.run (scanned content)).2 p with
    | ok p' =>
      rw [hfinish] at h
      exact absurd h (by simp [Except.map])
    | error halt' =>
      rw [hfinish] at h
      injection h with h
      obtain ⟨-, x, hstands, -⟩ :=
        Lemon.feed_stands parser_certified rfl rfl (.empty rfl) (not_eoi _) hfeed
      exact h ▸ finish_halt hstands.built_ready hfinish

/-! ### A last token -/

theorem last_check : ∀ p : State, ∀ e ∈ edges.getD p [], ∀ A, e.1 = .nonterminal A →
    ∀ r ∈ certificate.reduction e.2, (A, r) ∈ lastRules := by decide

theorem rhs_ne_nil : ∀ Br ∈ lastRules, grammar.rhs Br.2 ≠ [] := by decide

theorem Differ.insertPair {u u' : Minor} (hD : Differ .pair u u')
    (h : insertPair o u.yy35 = some v) (h' : insertPair o u'.yy35 = some v') : Differ .tst v v' := by
  cases hD with
  | pair key hne =>
    obtain ⟨t, t', rfl, rfl, htree⟩ :=
      insertPair_ne h h' rfl fun heq => hne (congrArg Pair.value heq)
    exact .tst htree

theorem Differ.toPair {u u' : Minor} (hD : Differ .value u u') {key : List Byte}
    (h : some (Minor.pair ⟨key, u.yy48⟩) = some v) (h' : some (Minor.pair ⟨key, u'.yy48⟩) = some v') :
    Differ .pair v v' := by
  injection h with h
  injection h' with h'
  cases hD with
  | value hne => exact h ▸ h' ▸ .pair key hne

theorem Differ.toList {u u' : Minor} (hD : Differ .value u u') {l : List Value}
    (h : some (Minor.list (l ++ [u.yy48])) = some v)
    (h' : some (Minor.list (l ++ [u'.yy48])) = some v') : Differ .list v v' := by
  injection h with h
  injection h' with h'
  cases hD with
  | value hne =>
    rw [← h, ← h']
    exact .list fun heq => hne (by simpa [Minor.yy48] using heq)

theorem Differ.ofList {u u' : Minor} (hD : Differ .list u u')
    (h : some (Minor.value (.list u.yy18)) = some v)
    (h' : some (Minor.value (.list u'.yy18)) = some v') : Differ .value v v' := by
  injection h with h
  injection h' with h'
  cases hD with
  | list hne =>
    rw [← h, ← h']
    exact .value fun heq => hne (by simpa [Minor.yy18] using heq)

theorem Differ.ofHash {u u' : Minor} (hD : Differ .tst u u')
    (h : some (Minor.value (.hash u.yy9)) = some v)
    (h' : some (Minor.value (.hash u'.yy9)) = some v') : Differ .value v v' := by
  injection h with h
  injection h' with h'
  cases hD with
  | tst hne =>
    rw [← h, ← h']
    exact .value fun heq => hne (by simpa [Minor.yy9] using heq)

/-- **The actions keep values apart.** -/
theorem parser_tells : Tells parser grammar certificate fun A => Differ A.type := by
  intro p A q r hgo hr
  have hcheck := last_check p _ (mem_edges hgo) A rfl r hr
  refine ⟨rhs_ne_nil (A, r) hcheck, fun us u u' v v' hlen hD hact hact' => ?_⟩
  simp only [lastRules, List.mem_cons, Prod.mk.injEq, List.not_mem_nil, or_false] at hcheck
  rcases hcheck with ⟨rfl, rfl⟩ | ⟨rfl, rfl⟩ | ⟨rfl, rfl⟩ | ⟨rfl, rfl⟩ | ⟨rfl, rfl⟩ | ⟨rfl, rfl⟩ |
    ⟨rfl, rfl⟩ | ⟨rfl, rfl⟩ | ⟨rfl, rfl⟩ | ⟨rfl, rfl⟩ | ⟨rfl, rfl⟩ | ⟨rfl, rfl⟩ | ⟨rfl, rfl⟩ |
    ⟨rfl, rfl⟩
  · -- `vars ::= vars assignment`
    obtain ⟨a, rfl⟩ := List.length_eq_one_iff.mp (Nat.succ.inj hlen)
    exact Differ.insertPair hD hact hact'
  · -- `vars ::= assignment`
    obtain rfl := List.length_eq_zero_iff.mp (Nat.succ.inj hlen)
    exact @Differ.insertPair v v' .nil u u' hD hact hact'
  · -- `expr ::= class`
    cases hD
  · -- `expr ::= list`
    obtain rfl := List.length_eq_zero_iff.mp (Nat.succ.inj hlen)
    exact Differ.ofList hD hact hact'
  · -- `expr ::= hash`
    obtain rfl := List.length_eq_zero_iff.mp (Nat.succ.inj hlen)
    exact Differ.ofHash hD hact hact'
  · -- `assignment ::= IDENT EQ expr`
    obtain ⟨a, b, rfl⟩ := List.length_eq_two.mp (Nat.succ.inj hlen)
    exact Differ.toPair hD hact hact'
  · -- `parameters ::= parameters COMMA assignment`
    obtain ⟨a, b, rfl⟩ := List.length_eq_two.mp (Nat.succ.inj hlen)
    exact Differ.insertPair hD hact hact'
  · -- `parameters ::= parameters assignment`
    obtain ⟨a, rfl⟩ := List.length_eq_one_iff.mp (Nat.succ.inj hlen)
    exact Differ.insertPair hD hact hact'
  · -- `list_elements ::= list_elements COMMA expr`
    obtain ⟨a, b, rfl⟩ := List.length_eq_two.mp (Nat.succ.inj hlen)
    exact Differ.toList hD hact hact'
  · -- `list_elements ::= list_elements expr`
    obtain ⟨a, rfl⟩ := List.length_eq_one_iff.mp (Nat.succ.inj hlen)
    exact Differ.toList hD hact hact'
  · -- `hash_elements ::= hash_elements COMMA hash_pair`
    obtain ⟨a, b, rfl⟩ := List.length_eq_two.mp (Nat.succ.inj hlen)
    exact Differ.insertPair hD hact hact'
  · -- `hash_elements ::= hash_elements hash_pair`
    obtain ⟨a, rfl⟩ := List.length_eq_one_iff.mp (Nat.succ.inj hlen)
    exact Differ.insertPair hD hact hact'
  · -- `hash_pair ::= QSTRING COLON expr`
    obtain ⟨a, b, rfl⟩ := List.length_eq_two.mp (Nat.succ.inj hlen)
    exact Differ.toPair hD hact hact'
  · -- `hash_pair ::= PATTERN COLON expr`
    obtain ⟨a, b, rfl⟩ := List.length_eq_two.mp (Nat.succ.inj hlen)
    exact Differ.toPair hD hact hact'

/-- Behind the variables, a token does not end a rule. -/
theorem done_check : ∀ e ∈ edges.getD certificate.done [], ∀ t, e.1 = .terminal t → t ≠ .eof →
    certificate.reduction e.2 = none := by decide

/-- **One more token** makes a configuration incomplete. -/
theorem not_accepts_concat {m : Minor} {t : Terminal} (hw : ∀ tk ∈ toks, tk.1 ≠ parser.eoi)
    (ht : t.IsFound) (h : Accepts grammar (parser.depth - 1) .vars toks v) :
    ¬Accepts grammar (parser.depth - 1) .vars (toks ++ [(t, m)]) v' := by
  intro h'
  obtain ⟨p, hfeed, hfinished⟩ :=
    (Lemon.accepts_iff parser_certified rounds_enough (rfl : ParserState.error fresh.state = false)
      rfl rfl rfl hw).mp h
  obtain ⟨p', τ, q, q', u, hfeed', heats, hgo, hends⟩ :=
    h'.concat_inv parser_certified rounds_enough (rfl : ParserState.error fresh.state = false) rfl
      start_none rfl rfl hw ht.1
  injection hfeed.symm.trans hfeed' with hp
  injection hp with hp
  subst hp
  have hstack := heats.unique rfl hfinished rfl (parser_certified.reduction_of_trans hgo) rfl
    parser_certified.root.2
  injection hstack with hqu _
  injection hqu with hq _
  rw [hq] at hgo
  obtain ⟨r, hr⟩ := hends.exists_reduction parser_certified hgo
  rw [done_check _ (mem_edges hgo) t rfl ht.2] at hr
  exact absurd hr (by simp)

/-- The only rules that end with one of these tokens. -/
theorem words_check : ∀ q : State, ∀ e ∈ edges.getD q [], ∀ t ∈ words, e.1 = .terminal t →
    ∀ r ∈ certificate.reduction e.2, t = .number ∧ r = 6 ∨ t = .ident ∧ r = 10 := by decide

/-- A word that comes last is an expression. -/
theorem reduce_word {t : Terminal} {d : List Byte} {q q' : State} {u : Minor}
    {τ : List (State × Minor)} (ht : t ∈ words) (hgo : parser.trans q (.terminal t) = some q')
    (h : Eats parser grammar certificate ((q', .token d) :: (q, u) :: τ) []
      [(certificate.done, v), (parser.start, parser.zero)]) :
    ∃ q₁ a, parser.trans q (.nonterminal .expr) = some q₁ ∧
      (t = .number ∧ a = .number d ∨ t = .ident ∧ a = .ref d) ∧
      Eats parser grammar certificate ((q₁, .value a) :: (q, u) :: τ) []
        [(certificate.done, v), (parser.start, parser.zero)] := by
  obtain ⟨r, hr⟩ := h.exists_reduction parser_certified hgo
  rcases words_check q _ (mem_edges hgo) t ht rfl r hr with ⟨rfl, rfl⟩ | ⟨rfl, rfl⟩
  · obtain ⟨q₁, m, hgo₁, hact, hrest⟩ := h.reduce_single parser_certified hr rfl
    injection hact with hact
    rw [← hact] at hrest
    exact ⟨q₁, .number d, hgo₁, .inl ⟨rfl, rfl⟩, hrest⟩
  · obtain ⟨q₁, m, hgo₁, hact, hrest⟩ := h.reduce_single parser_certified hr rfl
    injection hact with hact
    rw [← hact] at hrest
    exact ⟨q₁, .ref d, hgo₁, .inr ⟨rfl, rfl⟩, hrest⟩

/-- **Another word** at the end makes other settings. -/
theorem yy9_ne_of_words {t t' : Terminal} {d d' : List Byte}
    (hw : ∀ tk ∈ toks, tk.1 ≠ parser.eoi) (ht : t ∈ words) (ht' : t' ∈ words) (hne : d ≠ d')
    (h : Accepts grammar (parser.depth - 1) .vars (toks ++ [(t, .token d)]) v)
    (h' : Accepts grammar (parser.depth - 1) .vars (toks ++ [(t', .token d')]) v') :
    v.yy9 ≠ v'.yy9 := by
  have heoi : ∀ t ∈ words, t ≠ parser.eoi := by decide
  obtain ⟨p, τ, q, q₁, u, hfeed, heats, hgo, hends⟩ :=
    h.concat_inv parser_certified rounds_enough (rfl : ParserState.error fresh.state = false) rfl
      start_none rfl rfl hw (heoi t ht)
  obtain ⟨p', τ', q', q₁', u', hfeed', heats', hgo', hends'⟩ :=
    h'.concat_inv parser_certified rounds_enough (rfl : ParserState.error fresh.state = false) rfl
      start_none rfl rfl hw (heoi t' ht')
  injection hfeed.symm.trans hfeed' with hp
  injection hp with hp
  subst hp
  have hstack := heats.unique rfl heats' rfl (parser_certified.reduction_of_trans hgo) rfl
    (parser_certified.reduction_of_trans hgo')
  injection hstack with hqu hτ
  injection hqu with hq hu
  subst hq hu hτ
  obtain ⟨q₂, a, hgo₂, ha, hrest⟩ := reduce_word ht hgo hends
  obtain ⟨q₂', a', hgo₂', ha', hrest'⟩ := reduce_word ht' hgo' hends'
  injection hgo₂.symm.trans hgo₂' with hq₂
  subst hq₂
  have hvalues : a ≠ a' := by
    rcases ha with ⟨-, rfl⟩ | ⟨-, rfl⟩ <;> rcases ha' with ⟨-, rfl⟩ | ⟨-, rfl⟩ <;> simp [hne]
  have hdiffer := hrest.tells parser_certified parser_tells hrest' hgo₂ (.value hvalues)
  cases hdiffer with
  | tst htrees => exact htrees

/-! ### The last byte -/

theorem scanned_concat (text : List Byte) (c : Byte) : scanned (text ++ [c]) = text := by
  rw [scanned, if_neg (by simp), List.dropLast_concat]

theorem idle_concat_iff (text : List Byte) (c : Byte) :
    Idle (text ++ [c]) ↔ (place text).tells c = false := by
  simp [Idle]

/-- The settings come from the tokens. -/
theorem settings_congr {content' : List Byte}
    (h : tokens (scanned content) = tokens (scanned content')) :
    settings content = settings content' := by
  refine Option.ext fun t => ?_
  rw [settings_eq_some_iff, settings_eq_some_iff, h]

theorem settings_eq_none (h : ¬Whole (scanned content)) : settings content = none := by
  refine Option.eq_none_iff_forall_ne_some.mpr fun t ht => ?_
  obtain ⟨v, hv, -⟩ := (settings_eq_some_iff content t).mp ht
  exact h ⟨v, hv⟩

/-- Where configurations never have the same settings, texts have the same ones exactly if
neither is a configuration. -/
theorem settings_eq_iff_of_ne {content' : List Byte}
    (h : ∀ v v', Accepts grammar (parser.depth - 1) .vars (tokens (scanned content)) v →
      Accepts grammar (parser.depth - 1) .vars (tokens (scanned content')) v' → v.yy9 ≠ v'.yy9) :
    settings content = settings content' ↔
      ¬Whole (scanned content) ∧ ¬Whole (scanned content') := by
  constructor
  · intro heq
    have hnone : ∀ t, settings content ≠ some t := by
      intro t ht
      obtain ⟨v, hv, hvt⟩ := (settings_eq_some_iff content t).mp ht
      obtain ⟨v', hv', hvt'⟩ := (settings_eq_some_iff content' t).mp (heq ▸ ht)
      exact h v v' hv hv' (hvt.trans hvt'.symm)
    refine ⟨fun ⟨v, hv⟩ => ?_, fun ⟨v, hv⟩ => ?_⟩
    · exact hnone v.yy9 ((settings_eq_some_iff content _).mpr ⟨v, hv, rfl⟩)
    · exact hnone v.yy9 (heq.trans ((settings_eq_some_iff content' _).mpr ⟨v, hv, rfl⟩))
  · rintro ⟨hwhole, hwhole'⟩
    rw [settings_eq_none hwhole, settings_eq_none hwhole']

theorem token_word {k : Terminal} (hk : k ∈ words) (d : List Byte) : token (k, d) = (k, .token d) := by
  revert hk
  cases k <;> simp [words, token, Terminal.text]

/-- A last byte that is part of a token makes other settings, or none. -/
theorem yy9_ne_of_tells {c : Byte} (htells : (place text).tells c = true)
    (hv : Accepts grammar (parser.depth - 1) .vars (tokens text) v)
    (hv' : Accepts grammar (parser.depth - 1) .vars (tokens (text ++ [c])) v') :
    v.yy9 ≠ v'.yy9 := by
  have hadds := adds_concat text c
  have hbefore : tokens text = (scanner.run text).1.map token := rfl
  have hafter : tokens (text ++ [c]) = (scanner.run (text ++ [c])).1.map token := rfl
  have hfew := not_eoi text
  have hfound := tokens_found (text ++ [c])
  rw [htells] at hadds
  generalize (scanner.run text).1 = before at hadds hbefore
  generalize (scanner.run (text ++ [c])).1 = after at hadds hafter
  cases hadds with
  | new _ found =>
    rw [hafter, List.map_append, ← hbefore] at hv' hfound
    have ht : (token found).1.IsFound := hfound _ (List.mem_append_right _ List.mem_cons_self)
    exact absurd hv' (not_accepts_concat hfew ht hv)
  | longer l hk hk' x =>
    rw [hafter, List.map_append, List.map_singleton, token_word hk'] at hv'
    rw [hbefore, List.map_append, List.map_singleton, token_word hk] at hv hfew
    refine yy9_ne_of_words (fun tk htk => hfew tk (List.mem_append_left _ htk)) hk hk' ?_ hv hv'
    intro hx
    exact absurd (congrArg List.length hx) (by simp)

theorem tokens_of_not_tells {c : Byte} (htells : (place text).tells c = false) :
    tokens (text ++ [c]) = tokens text := by
  have hadds := adds_concat text c
  rw [tokens, tokens]
  rw [htells] at hadds
  generalize (scanner.run text).1 = before at hadds
  generalize (scanner.run (text ++ [c])).1 = after at hadds
  cases hadds
  rfl

-- In a number the last byte counts, behind it and in a comment it does not.
example : ¬Idle (bytes "a=1") ∧ Idle (bytes "a=1 ") ∧ Idle (bytes "a=1 # one") := by decide +kernel

end

end M2sh.Config

end Mongrel2

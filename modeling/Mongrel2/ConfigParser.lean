/-
The parser of configuration files (`parser.y` and `parser.c` of `m2sh`).

* `Terminal`, `Nonterminal`, `rules`, `act` — the grammar and its actions;
* `yyAction` and the tables behind it, `parser` — what Lemon has made of it;
* **`parser_certified`** — the tables are those of the grammar.

Design notes: a token is its text.  The assertion of `tst_insert` against duplicates is on,
and where it fails the process is stopped.  Allocation succeeds.  Line numbers are left out,
which are only for messages.
-/
import Mongrel2.Ast
import Mongrel2.LemonRuns

namespace Mongrel2

open ByteStream

namespace M2sh.Config

/-! ### The grammar -/

/-- The tokens, and the end of the input. -/
inductive Terminal
  | eoi | eof | qstring | pattern | number | ident | eq | cls | lparen | rparen | comma
  | lbrace | rbrace | lbracket | rbracket | colon
  deriving DecidableEq

inductive Nonterminal
  | config | vars | assignment | expr | cls | list | hash | parameters | listElements
  | hashElements | hashPair
  deriving DecidableEq

/-- Their codes. -/
def Terminal.code : Terminal → ℕ
  | .eoi => 0
  | .eof => 1
  | .qstring => 2
  | .pattern => 3
  | .number => 4
  | .ident => 5
  | .eq => 6
  | .cls => 7
  | .lparen => 8
  | .rparen => 9
  | .comma => 10
  | .lbrace => 11
  | .rbrace => 12
  | .lbracket => 13
  | .rbracket => 14
  | .colon => 15

/-- 16 is the symbol `error`, which has no rule. -/
def Nonterminal.code : Nonterminal → ℕ
  | .config => 17
  | .vars => 18
  | .assignment => 19
  | .expr => 20
  | .cls => 21
  | .list => 22
  | .hash => 23
  | .parameters => 24
  | .listElements => 25
  | .hashElements => 26
  | .hashPair => 27

def Terminal.all : List Terminal :=
  [.eoi, .eof, .qstring, .pattern, .number, .ident, .eq, .cls, .lparen, .rparen, .comma,
    .lbrace, .rbrace, .lbracket, .rbracket, .colon]

def Nonterminal.all : List Nonterminal :=
  [.config, .vars, .assignment, .expr, .cls, .list, .hash, .parameters, .listElements,
    .hashElements, .hashPair]

/-- A symbol of the grammar. -/
abbrev Symbol := Lemon.Symbol Terminal Nonterminal

instance : Coe Terminal Symbol := ⟨.terminal⟩

instance : Coe Nonterminal Symbol := ⟨.nonterminal⟩

open Terminal Nonterminal in
/-- The rules. -/
def rules : List (Nonterminal × List Symbol) := [
  (config, [vars]),
  (vars, [vars, assignment]),
  (vars, [assignment]),
  (vars, [vars, eof]),
  (expr, [qstring]),
  (expr, [pattern]),
  (expr, [number]),
  (expr, [Nonterminal.cls]),
  (expr, [list]),
  (expr, [hash]),
  (expr, [ident]),
  (assignment, [ident, eq, expr]),
  (Nonterminal.cls, [Terminal.cls, lparen, parameters, rparen]),
  (parameters, [parameters, comma, assignment]),
  (parameters, [parameters, assignment]),
  (parameters, []),
  (list, [lbrace, listElements, rbrace]),
  (listElements, [listElements, comma, expr]),
  (listElements, [listElements, expr]),
  (listElements, []),
  (hash, [lbracket, hashElements, rbracket]),
  (hashElements, [hashElements, comma, hashPair]),
  (hashElements, [hashElements, hashPair]),
  (hashElements, []),
  (hashPair, [qstring, colon, expr]),
  (hashPair, [pattern, colon, expr])]

/-- The number of a rule. -/
abbrev Rule := Fin 26

/-- `YYMINORTYPE`. -/
inductive Minor
  | zero
  | token (data : List Byte)
  | tst (t : Pairs)
  | list (elements : List Value)
  | pair (p : Pair Value)
  | cls (ident : List Byte) (params : Pairs)
  | value (v : Value)

namespace Minor

def yy0 : Minor → List Byte
  | token data => data
  | _ => []

def yy9 : Minor → Pairs
  | tst t => t
  | _ => .nil

def yy18 : Minor → List Value
  | list elements => elements
  | _ => []

/-- `yy35`, or `yy27`. -/
def yy35 : Minor → Pair Value
  | pair p => p
  | _ => ⟨[], .list []⟩

def yy29 : Minor → List Byte × Pairs
  | cls ident params => (ident, params)
  | _ => ([], .nil)

def yy48 : Minor → Value
  | value v => v
  | _ => .list []

end Minor

/-- `tst_insert`, as the actions call it. -/
def insertPair (o : Pairs) (a : Pair Value) : Option Minor := (o.insert a.key a).map .tst

/-- The actions, with the values of the symbols of a rule. -/
def act (r : Rule) (vs : List Minor) : Option Minor :=
  let m := fun i => vs.getD i .zero
  match r.val with
  | 0 => some .zero
  | 1 => insertPair (m 0).yy9 (m 1).yy35
  | 2 => insertPair .nil (m 0).yy35
  | 3 => some (.tst (m 0).yy9)
  | 4 => some (.value (.qstring (m 0).yy0))
  | 5 => some (.value (.pattern (m 0).yy0))
  | 6 => some (.value (.number (m 0).yy0))
  | 7 => some (.value (.cls (m 0).yy29.1 (m 0).yy29.2))
  | 8 => some (.value (.list (m 0).yy18))
  | 9 => some (.value (.hash (m 0).yy9))
  | 10 => some (.value (.ref (m 0).yy0))
  | 11 => some (.pair ⟨(m 0).yy0, (m 2).yy48⟩)
  | 12 => some (.cls (m 0).yy0 (m 2).yy9)
  | 13 => insertPair (m 0).yy9 (m 2).yy35
  | 14 => insertPair (m 0).yy9 (m 1).yy35
  | 15 => some (.tst .nil)
  | 16 => some (.list (m 1).yy18)
  | 17 => some (.list ((m 0).yy18 ++ [(m 2).yy48]))
  | 18 => some (.list ((m 0).yy18 ++ [(m 1).yy48]))
  | 19 => some (.list [])
  | 20 => some (.tst (m 1).yy9)
  | 21 => insertPair (m 0).yy9 (m 2).yy35
  | 22 => insertPair (m 0).yy9 (m 1).yy35
  | 23 => some (.tst .nil)
  | 24 => some (.pair ⟨(m 0).yy0, (m 2).yy48⟩)
  | 25 => some (.pair ⟨(m 0).yy0, (m 2).yy48⟩)
  | _ => some .zero

/-- `parser.y`. -/
def grammar : Grammar Terminal Nonterminal Rule Minor where
  lhs := fun r => (rules.getD r.val (.config, [])).1
  rhs := fun r => (rules.getD r.val (.config, [])).2
  act := act

/-! ### The tables -/

/-- `yy_action`. -/
def yyAction : List ℕ := [
  20, 21, 22, 26, 14, 15, 37, 18, 3, 12,
  31, 13, 20, 21, 22, 26, 30, 15, 67, 7,
  39, 12, 34, 13, 38, 23, 24, 25, 1, 27,
  23, 24, 25, 32, 23, 24, 25, 6, 35, 23,
  24, 25, 36, 23, 24, 25, 16, 17, 40, 19,
  29, 14, 8, 14, 9, 28, 10, 2, 33, 16,
  17, 11, 4, 68, 5]

/-- `yy_lookahead`. -/
def yyLookahead : List ℕ := [
  2, 3, 4, 5, 5, 7, 27, 19, 10, 11,
  12, 13, 2, 3, 4, 5, 19, 7, 17, 18,
  19, 11, 27, 13, 20, 21, 22, 23, 25, 20,
  21, 22, 23, 20, 21, 22, 23, 26, 20, 21,
  22, 23, 20, 21, 22, 23, 2, 3, 0, 1,
  19, 5, 24, 5, 10, 9, 10, 6, 14, 2,
  3, 8, 15, 28, 15]

/-- `yy_shift_ofst`, and `YY_SHIFT_USE_DFLT`. -/
def yyShiftOfst : List ℤ := [
  -1, -2, 10, 10, 10, 10, 44, 48, 46, 57,
  -1, -3, -3, -3, 51, 53, 47, 49]

def yyShiftUseDflt : ℤ := -3

/-- `yy_reduce_ofst`, and `YY_REDUCE_USE_DFLT`. -/
def yyReduceOfst : List ℤ := [
  1, 4, 9, 13, 18, 22, -21, -12, -3, -5,
  31, 28, 3, 11]

def yyReduceUseDflt : ℤ := -22

/-- `yy_default`. -/
def yyDefault : List ℕ := [
  66, 66, 66, 66, 66, 66, 66, 66, 66, 66,
  66, 55, 59, 63, 66, 66, 66, 66, 41, 43,
  44, 45, 46, 47, 48, 49, 50, 51, 52, 53,
  54, 56, 57, 60, 61, 64, 65, 62, 58, 42]

/-- `yyRuleInfo`. -/
def yyRuleInfo : List (Nonterminal × ℕ) := [
  (.config, 1), (.vars, 2), (.vars, 1), (.vars, 2), (.expr, 1), (.expr, 1), (.expr, 1),
  (.expr, 1), (.expr, 1), (.expr, 1), (.expr, 1), (.assignment, 3), (.cls, 4),
  (.parameters, 3), (.parameters, 2), (.parameters, 0), (.list, 3), (.listElements, 3),
  (.listElements, 2), (.listElements, 0), (.hash, 3), (.hashElements, 3), (.hashElements, 2),
  (.hashElements, 0), (.hashPair, 3), (.hashPair, 3)]

/-- The number of a state. -/
abbrev State := Fin 40

/-- The action that a number stands for. -/
def decode (n : ℕ) : Lemon.Action State Rule :=
  if hq : n < 40 then .shift ⟨n, hq⟩
  else if hr : n - 40 < 26 then .reduce ⟨n - 40, hr⟩
  else if n = 66 then .error
  else if n = 67 then .accept
  else .none

/-- The entry at an offset, if it is there for the symbol. -/
def entry (ofst : ℤ) (code : ℕ) : Option ℕ :=
  let i := ofst + code
  if 0 ≤ i ∧ yyLookahead[i.toNat]? = some code then yyAction[i.toNat]? else none

/-- `yy_find_shift_action`. -/
def yyFindShiftAction (stateno : State) (lookahead : Terminal) : Lemon.Action State Rule :=
  let dflt := decode (yyDefault.getD stateno 68)
  match yyShiftOfst[stateno.val]? with
  | none => dflt
  | some i =>
    if i = yyShiftUseDflt then dflt
    else match entry i lookahead.code with
      | some n => decode n
      | none => dflt

/-- `yy_find_reduce_action`; where one of its assertions fails, there is no action. -/
def yyFindReduceAction (stateno : State) (lookahead : Nonterminal) :
    Lemon.Action State Rule :=
  match yyReduceOfst[stateno.val]? with
  | none => .none
  | some i =>
    if i = yyReduceUseDflt then .none
    else match entry i lookahead.code with
      | some n => decode n
      | none => .none

/-- `ParserState`. -/
structure ParserState where
  settings : Pairs
  error : Bool

/-- `parser.c`. -/
def parser : Lemon State Terminal Nonterminal Rule Minor ParserState where
  start := 0
  eoi := .eoi
  shiftAction := yyFindShiftAction
  reduceAction := yyFindReduceAction
  lhs := fun r => (yyRuleInfo.getD r.val (.config, 0)).1
  nrhs := fun r => (yyRuleInfo.getD r.val (.config, 0)).2
  zero := .zero
  act := act
  extra := fun r vs s =>
    if r = 0 then { s with settings := (vs.getD 0 .zero).yy9 } else s
  syntaxError := fun s => { s with error := true }
  depth := 100

/-! ### The certificate -/

/-- Where each rule is, in the states behind a symbol. -/
def kernel : List (List (Rule × ℕ)) := [
  [], [(16, 2), (17, 1), (18, 1)], [(11, 2)], [(17, 2)], [(24, 2)], [(25, 2)],
  [(20, 2), (21, 1), (22, 1)], [(1, 1), (3, 1)], [(12, 3), (13, 1), (14, 1)], [(21, 2)],
  [(13, 2)], [(12, 2)], [(16, 1)], [(20, 1)], [(11, 1)], [(12, 1)], [(24, 1)], [(25, 1)],
  [(1, 2)], [(3, 2)], [(4, 1)], [(5, 1)], [(6, 1)], [(7, 1)], [(8, 1)], [(9, 1)], [(10, 1)],
  [(11, 3)], [(12, 4)], [(13, 3)], [(14, 2)], [(16, 3)], [(17, 3)], [(20, 3)], [(21, 3)],
  [(24, 3)], [(25, 3)], [(22, 2)], [(18, 2)], [(2, 1)]]

/-- The symbols that begin an expression come before it, and so on. -/
def level : Symbol → ℕ
  | .terminal _ => 3
  | .nonterminal n => match n with
    | .cls | .list | .hash => 2
    | .expr | .assignment | .hashPair => 1
    | _ => 0

def certificate : Lemon.Certificate State Terminal Nonterminal Rule where
  root := .vars
  done := 7
  accepting := 0
  reduction := fun q => match decode (yyDefault.getD q 68) with
    | .reduce r => some r
    | _ => none
  kernel := fun q => kernel.getD q []
  rank := fun q => if q ∈ [11, 12, 13] then 3 else if q ∈ [20, 21, 22, 23, 24, 25, 26, 39] then 1 else 0
  weight := 2
  level := level

/-! ### Checks of the tables -/

theorem Terminal.mem_all (t : Terminal) : t ∈ all := by
  cases t <;> decide

theorem Nonterminal.mem_all (n : Nonterminal) : n ∈ all := by
  cases n <;> decide

instance (p : Terminal → Prop) [DecidablePred p] : Decidable (∀ t, p t) :=
  decidable_of_iff (∀ t ∈ Terminal.all, p t)
    ⟨fun h t => h t t.mem_all, fun h t _ => h t⟩

instance (p : Nonterminal → Prop) [DecidablePred p] : Decidable (∀ n, p n) :=
  decidable_of_iff (∀ n ∈ Nonterminal.all, p n)
    ⟨fun h n => h n n.mem_all, fun h n _ => h n⟩

instance (p : Symbol → Prop) [DecidablePred p] : Decidable (∀ X, p X) :=
  decidable_of_iff ((∀ t, p (.terminal t)) ∧ ∀ n, p (.nonterminal n))
    ⟨fun h X => by cases X with
      | terminal t => exact h.1 t
      | nonterminal n => exact h.2 n, fun h => ⟨fun t => h _, fun n => h _⟩⟩

open Terminal Nonterminal in
/-- The states behind the symbols that an expression begins with. -/
def exprEdges : List (Symbol × State) := [
  (qstring, 20), (pattern, 21), (number, 22), (ident, 26), (Terminal.cls, 15), (lbrace, 12),
  (lbracket, 13), (Nonterminal.cls, 23), (list, 24), (hash, 25)]

open Terminal Nonterminal in
/-- The states behind each symbol, as the tables have them. -/
def edges : List (List (Symbol × State)) := [
  [(ident, 14), (vars, 7), (assignment, 39)],
  (expr, 38) :: (comma, 3) :: (rbrace, 31) :: exprEdges,
  (expr, 27) :: exprEdges,
  (expr, 32) :: exprEdges,
  (expr, 35) :: exprEdges,
  (expr, 36) :: exprEdges,
  [(qstring, 16), (pattern, 17), (comma, 9), (rbracket, 33), (hashPair, 37)],
  [(eof, 19), (ident, 14), (assignment, 18)],
  [(ident, 14), (rparen, 28), (comma, 10), (assignment, 30)],
  [(qstring, 16), (pattern, 17), (hashPair, 34)],
  [(ident, 14), (assignment, 29)],
  [(parameters, 8)],
  [(listElements, 1)],
  [(hashElements, 6)],
  [(eq, 2)],
  [(lparen, 11)],
  [(colon, 4)],
  [(colon, 5)]]

/-- The state behind a symbol. -/
def goes (p : State) (X : Symbol) : Option State := (edges.getD p []).lookup X

theorem trans_eq_goes : ∀ p X, parser.trans p X = goes p X := by decide +kernel

theorem mem_edges {p q : State} {X : Symbol} (hgo : parser.trans p X = some q) :
    (X, q) ∈ edges.getD p [] := by
  rw [trans_eq_goes, goes] at hgo
  obtain ⟨l, l', hedges, -⟩ := List.lookup_eq_some_iff.mp hgo
  rw [hedges]
  exact List.mem_append_right _ List.mem_cons_self

/-- The highest rank behind a nonterminal. -/
def topRank : Nonterminal → ℕ
  | .cls | .list | .hash | .assignment => 1
  | _ => 0

/-- The rules that end with a nonterminal. -/
def lastRules : List (Nonterminal × Rule) := [
  (.assignment, 1), (.assignment, 2), (.cls, 7), (.list, 8), (.hash, 9), (.expr, 11),
  (.assignment, 13), (.assignment, 14), (.expr, 17), (.expr, 18), (.hashPair, 21),
  (.hashPair, 22), (.expr, 24), (.expr, 25)]

/-- The states that reduce a rule. -/
theorem reduction_check : ∀ q, ∀ r ∈ certificate.reduction q,
    (r ≠ certificate.accepting ∧ ∀ t, parser.shiftAction q t = .reduce r) ∧
    (if grammar.rhs r = [] then goes q (.nonterminal (grammar.lhs r)) ≠ none
      else (r, (grammar.rhs r).length) ∈ certificate.kernel q) ∧
    topRank (grammar.lhs r) + certificate.weight <
      certificate.rank q + certificate.weight * (grammar.rhs r).length := by decide +kernel

/-- The states that reduce none. -/
theorem shift_check : ∀ q, certificate.reduction q = none → ∀ t,
    (t ≠ .eoi → goes q (.terminal t) ≠ none ∨ parser.shiftAction q t = .error) ∧
      (t = .eoi → (q = certificate.done → parser.shiftAction q t = .reduce certificate.accepting) ∧
        (q ≠ certificate.done → parser.shiftAction q t = .error)) := by decide +kernel

/-- The states behind a symbol, and the symbols that can be read. -/
theorem edges_check : ∀ p : State, ∀ e ∈ edges.getD p [],
    ((e.2 = certificate.done → p = parser.start ∧ e.1 = .nonterminal certificate.root) ∧
      e.2 ≠ parser.start) ∧
    (∀ ri ∈ certificate.kernel e.2, 0 < ri.2 ∧ (grammar.rhs ri.1)[ri.2 - 1]? = some e.1 ∧
      if ri.2 = 1 then goes p (.nonterminal (grammar.lhs ri.1)) ≠ none
      else (ri.1, ri.2 - 1) ∈ certificate.kernel p) ∧
    ((p = parser.start ∧ e.1 = .nonterminal certificate.root) ∨
      (∃ ri ∈ certificate.kernel p, (grammar.rhs ri.1)[ri.2]? = some e.1) ∨
      ∃ r, (grammar.rhs r).head? = some e.1 ∧ goes p (.nonterminal (grammar.lhs r)) ≠ none ∧
        certificate.level (.nonterminal (grammar.lhs r)) < certificate.level e.1) ∧
    ∀ A, e.1 = .nonterminal A → certificate.rank e.2 ≤ topRank A := by decide +kernel

/-- The rules of a nonterminal that can be read. -/
theorem complete_check : ∀ q r, goes q (.nonterminal (grammar.lhs r)) ≠ none →
    (parser.walk q (grammar.rhs r)).bind certificate.reduction = some r := by decide +kernel

/-- **The tables are those of the grammar.** -/
theorem parser_certified : parser.Certified grammar certificate where
  lhs := by decide
  nrhs := by decide
  act := fun _ _ => rfl
  extra := fun _ _ _ hr => if_neg hr
  reduces := fun q r hr => (reduction_check q r hr).1
  shifts := by
    intro q hq t ht
    rcases (shift_check q hq t).1 ht with hgo | herror
    · rw [← trans_eq_goes] at hgo
      obtain ⟨q', hgo⟩ := Option.ne_none_iff_exists'.mp hgo
      exact .inl ⟨q', Lemon.trans_terminal.mp hgo⟩
    · exact .inr herror
  ends := fun q hq => (shift_check q hq .eoi).2 rfl
  accepting := ⟨rfl, rfl, fun v => by simp [grammar, act, certificate]⟩
  root := ⟨(trans_eq_goes _ _).trans rfl, rfl⟩
  done := fun p _ hgo => (edges_check p _ (mem_edges hgo)).1.1 rfl
  start := ⟨rfl, fun p _ hgo => (edges_check p _ (mem_edges hgo)).1.2 rfl⟩
  complete := by
    intro q r hgo
    rw [trans_eq_goes] at hgo
    obtain ⟨q', hwalk, hr⟩ := Option.bind_eq_some_iff.mp (complete_check q r hgo)
    exact ⟨q', hwalk, hr⟩
  item := by
    intro q r hr
    obtain ⟨-, hitem, -⟩ := reduction_check q r hr
    rwa [← trans_eq_goes] at hitem
  kernel := by
    intro p X q hgo ri hri
    obtain ⟨-, hkernel, -⟩ := edges_check p _ (mem_edges hgo)
    have hri := hkernel ri hri
    rwa [← trans_eq_goes] at hri
  viable := by
    intro q X hgo
    obtain ⟨q', hgo⟩ := Option.ne_none_iff_exists'.mp hgo
    obtain ⟨-, -, hviable, -⟩ := edges_check q _ (mem_edges hgo)
    rcases hviable with hroot | hnext | ⟨r, hhead, hlhs, hlevel⟩
    · exact .inl hroot
    · exact .inr (.inl hnext)
    · rw [← trans_eq_goes] at hlhs
      exact .inr (.inr ⟨r, hhead, hlhs, hlevel⟩)
  weight := by decide
  rank := by
    intro q r hr p q' hgo
    obtain ⟨-, -, -, hle⟩ := edges_check p _ (mem_edges hgo)
    have hle : certificate.rank q' ≤ _ := hle (grammar.lhs r) rfl
    obtain ⟨-, -, hlt⟩ := reduction_check q r hr
    omega

/-- The most rounds that a call can need. -/
def rounds : ℕ := 204

theorem rank_le : ∀ q, certificate.rank q ≤ 3 := by decide

theorem rounds_enough : Lemon.Enough parser certificate rounds := by
  refine ⟨by decide, fun σ hσ => ?_⟩
  have hlen : σ.length ≤ 100 := hσ
  have hrank : ((Lemon.top σ).map certificate.rank).getD 0 ≤ 3 := by
    cases Lemon.top σ with
    | none => exact Nat.zero_le _
    | some q => exact rank_le q
  show 2 * σ.length + _ < 204
  omega

end M2sh.Config

end Mongrel2

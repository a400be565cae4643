/-
Parsers that are generated by Lemon, and the grammars that they are generated from.

* `Grammar` — rules with what they do; `Reads` — how a grammar reads tokens where so many
  entries of the stack are left, and `Spills` — how it runs out of them;
* `Accepts` — the tokens behind the last time that this happened are read as one symbol;
* `Lemon` — the tables; `parse` — `Parse`, with the stack that it works on;
* `Certified` — what makes tables those of a grammar, where rules are reduced by whatever
  token comes next: the items of each state, and how long it can go on reducing.

Design notes: a loop has a limit on its rounds, which is not reached where the tables are
`Certified` and the limit is `Enough`.  The stack begins with its top.  What is on it is
released by destructors, which are left out.  Tokens have no fallback.
-/
import Mathlib.Data.Int.Notation
import Mathlib.Data.List.Basic

namespace Lemon

/-! ### Grammars -/

/-- Tokens and nonterminals. -/
inductive Symbol (T N : Type*)
  | terminal (t : T)
  | nonterminal (n : N)
  deriving DecidableEq

end Lemon

/-- The rules `R` of a grammar, and their actions; `none` stops the process. -/
structure Grammar (T N R V : Type*) where
  lhs : R → N
  rhs : R → List (Lemon.Symbol T N)
  act : R → List V → Option V

namespace Lemon

variable {Q T N R V S : Type*}

/-- Tokens that are read as symbols with so many values, while that many entries of the stack
are left: each symbol keeps one, and a rule needs those of its symbols in turn. -/
inductive Reads (g : Grammar T N R V) :
    ℕ → List (Symbol T N) → List (T × V) → List V → Prop
  | nil (n : ℕ) : Reads g n [] [] []
  | token {n : ℕ} {t : T} {v : V} {Xs : List (Symbol T N)} {w : List (T × V)} {vs : List V}
    (hrest : Reads g n Xs w vs) : Reads g (n + 1) (.terminal t :: Xs) ((t, v) :: w) (v :: vs)
  | rule {n : ℕ} {r : R} {v : V} {Xs : List (Symbol T N)} {w w' : List (T × V)} {us vs : List V}
    (hrule : Reads g (n + 1) (g.rhs r) w us) (hact : g.act r us = some v)
    (hrest : Reads g n Xs w' vs) :
    Reads g (n + 1) (.nonterminal (g.lhs r) :: Xs) (w ++ w') (v :: vs)

/-- Tokens of which the last finds no entry left.  A rule without symbols needs one as well,
and it is the token behind that is lost. -/
inductive Spills (g : Grammar T N R V) : ℕ → List (Symbol T N) → List (T × V) → Prop
  | token {t : T} {v : V} {Xs : List (Symbol T N)} : Spills g 0 (.terminal t :: Xs) [(t, v)]
  | empty {r : R} {v : V} {tk : T × V} {Xs : List (Symbol T N)} (hrhs : g.rhs r = [])
    (hact : g.act r [] = some v) : Spills g 0 (.nonterminal (g.lhs r) :: Xs) [tk]
  | inside {n : ℕ} {r : R} {Xs : List (Symbol T N)} {w : List (T × V)}
    (hrule : Spills g n (g.rhs r) w) : Spills g n (.nonterminal (g.lhs r) :: Xs) w
  | behind {n : ℕ} {X : Symbol T N} {Xs : List (Symbol T N)} {w w' : List (T × V)} {v : V}
    (hfirst : Reads g (n + 1) [X] w [v]) (hrest : Spills g n Xs w') :
    Spills g (n + 1) (X :: Xs) (w ++ w')

/-- The tokens behind the last time that no entry was left. -/
inductive Behind (g : Grammar T N R V) (n : ℕ) (root : N) :
    List (T × V) → List (T × V) → Prop
  | all (w : List (T × V)) : Behind g n root w w
  | spilt {u w x : List (T × V)} (hu : Spills g n [.nonterminal root] u)
    (hw : Behind g n root w x) : Behind g n root (u ++ w) x

/-- Tokens with a value. -/
def Accepts (g : Grammar T N R V) (n : ℕ) (root : N) (w : List (T × V)) (v : V) : Prop :=
  ∃ x, Behind g n root w x ∧ Reads g n [.nonterminal root] x [v]

/-! ### Tables -/

/-- An entry of the tables. -/
inductive Action (Q R : Type*)
  | shift (q : Q)
  | reduce (r : R)
  | error
  | accept
  | none
  deriving DecidableEq

/-- Why a call does not return: an assertion stops the process, the stack is read below its
first entry, or the limit is too low. -/
inductive Halt
  | stopped
  | underflow
  | unfinished
  deriving DecidableEq

end Lemon

/-- The tables of a parser with states `Q`, tokens `T`, nonterminals `N` and rules `R`; it has
values `V` on its stack and an extra argument of `S`. -/
structure Lemon (Q T N R V S : Type*) where
  start : Q
  /-- the token that ends the input -/
  eoi : T
  /-- `yy_find_shift_action` -/
  shiftAction : Q → T → Lemon.Action Q R
  /-- `yy_find_reduce_action` -/
  reduceAction : Q → N → Lemon.Action Q R
  /-- `yyRuleInfo` -/
  lhs : R → N
  nrhs : R → ℕ
  /-- `yyzerominor` -/
  zero : V
  /-- the action of a rule -/
  act : R → List V → Option V
  /-- what it does to the extra argument -/
  extra : R → List V → S → S
  /-- `%syntax_error` -/
  syntaxError : S → S
  /-- `YYSTACKDEPTH` -/
  depth : ℕ

namespace Lemon

/-- `yyParser`. -/
structure Parser (Q V S : Type*) where
  stack : List (Q × V)
  errcnt : ℤ
  state : S

section

variable (L : Lemon Q T N R V S)

/-- `yy_shift`. -/
def yyShift (p : Parser Q V S) (q : Q) (v : V) : Parser Q V S :=
  { p with stack := if p.stack.length < L.depth then (q, v) :: p.stack else [] }

/-- `yy_reduce`. -/
def yyReduce (p : Parser Q V S) (r : R) : Except Halt (Parser Q V S) :=
  let vs := ((p.stack.take (L.nrhs r)).map Prod.snd).reverse
  match L.act r vs, p.stack.drop (L.nrhs r) with
  | none, _ => .error .stopped
  | some _, [] => .error .underflow
  | some v, (q, u) :: stack =>
    let p := { p with stack := (q, u) :: stack, state := L.extra r vs p.state }
    match L.reduceAction q (L.lhs r) with
    | .shift q' => .ok (L.yyShift p q' v)
    | .accept => .ok { p with stack := [] }
    | _ => .error .stopped

/-- What is done where no action is found. -/
def yyError [DecidableEq T] (p : Parser Q V S) (t : T) : Parser Q V S where
  stack := if t = L.eoi then [] else p.stack
  errcnt := 3
  state := if p.errcnt ≤ 0 then L.syntaxError p.state else p.state

/-- The loop of `Parse`, for so many rounds. -/
def parseLoop [DecidableEq T] : ℕ → Parser Q V S → T → V → Except Halt (Parser Q V S)
  | 0, _, _, _ => .error .unfinished
  | n + 1, p, t, v =>
    match p.stack with
    | [] => .ok p
    | (q, _) :: _ =>
      match L.shiftAction q t with
      | .shift q' =>
        if t = L.eoi then .error .stopped
        else .ok { L.yyShift p q' v with errcnt := p.errcnt - 1 }
      | .reduce r => (L.yyReduce p r).bind fun p => parseLoop n p t v
      | .error => .ok (L.yyError p t)
      | _ => .error .stopped

/-- The parser that a token finds, which begins anew where its stack is empty. -/
def ready (p : Parser Q V S) : Parser Q V S :=
  if p.stack = [] then { p with stack := [(L.start, L.zero)], errcnt := -1 } else p

/-- `Parse`. -/
def parse [DecidableEq T] (n : ℕ) (p : Parser Q V S) (t : T) (v : V) :
    Except Halt (Parser Q V S) :=
  L.parseLoop n (L.ready p) t v

/-- Tokens one after the other, up to the first one behind which the extra argument says that
something is wrong. -/
def feed [DecidableEq T] (n : ℕ) (wrong : S → Bool) :
    Parser Q V S → List (T × V) → Except Halt (Option (Parser Q V S))
  | p, [] => .ok (some p)
  | p, tk :: toks =>
    (L.parse n p tk.1 tk.2).bind fun p => if wrong p.state then .ok none else feed n wrong p toks

/-- The state behind a symbol. -/
def trans (q : Q) : Symbol T N → Option Q
  | .terminal t => match L.shiftAction q t with
    | .shift q' => some q'
    | _ => none
  | .nonterminal n => match L.reduceAction q n with
    | .shift q' => some q'
    | _ => none

/-- The state behind some symbols. -/
def walk : Q → List (Symbol T N) → Option Q
  | q, [] => some q
  | q, X :: Xs => (L.trans q X).bind fun q => walk q Xs

end

/-! ### Certificates -/

/-- How the tables of a parser come from a grammar. -/
structure Certificate (Q T N R : Type*) where
  /-- what is to be read, and the state behind it -/
  root : N
  done : Q
  /-- the rule that is reduced at the end of the input -/
  accepting : R
  /-- the rule that a state reduces -/
  reduction : Q → Option R
  /-- the rules that a state is in, each behind so many of its symbols -/
  kernel : Q → List (R × ℕ)
  /-- an order of the states that reduce without a symbol, or with one, and one of the symbols
  that begin each other -/
  rank : Q → ℕ
  weight : ℕ
  level : Symbol T N → ℕ

/-- The tables are those of the grammar. -/
structure Certified (L : Lemon Q T N R V S) (g : Grammar T N R V) (c : Certificate Q T N R) :
    Prop where
  lhs : ∀ r, L.lhs r = g.lhs r
  nrhs : ∀ r, L.nrhs r = (g.rhs r).length
  act : ∀ r vs, L.act r vs = g.act r vs
  extra : ∀ r vs s, r ≠ c.accepting → L.extra r vs s = s
  reduces : ∀ q r, c.reduction q = some r → r ≠ c.accepting ∧ ∀ t, L.shiftAction q t = .reduce r
  shifts : ∀ q, c.reduction q = none → ∀ t, t ≠ L.eoi →
    (∃ q', L.shiftAction q t = .shift q') ∨ L.shiftAction q t = .error
  ends : ∀ q, c.reduction q = none → (q = c.done → L.shiftAction q L.eoi = .reduce c.accepting) ∧
    (q ≠ c.done → L.shiftAction q L.eoi = .error)
  accepting : g.rhs c.accepting = [.nonterminal c.root] ∧
    L.reduceAction L.start (g.lhs c.accepting) = .accept ∧ ∀ v, g.act c.accepting [v] ≠ none
  root : L.trans L.start (.nonterminal c.root) = some c.done ∧ c.reduction c.done = none
  done : ∀ p X, L.trans p X = some c.done → p = L.start ∧ X = .nonterminal c.root
  start : c.kernel L.start = [] ∧ ∀ p X, L.trans p X ≠ some L.start
  /-- a rule that can begin can be read to its end -/
  complete : ∀ q r, L.trans q (.nonterminal (g.lhs r)) ≠ none →
    ∃ q', L.walk q (g.rhs r) = some q' ∧ c.reduction q' = some r
  /-- a rule that is reduced has been read -/
  item : ∀ q r, c.reduction q = some r → if g.rhs r = []
    then L.trans q (.nonterminal (g.lhs r)) ≠ none else (r, (g.rhs r).length) ∈ c.kernel q
  kernel : ∀ p X q, L.trans p X = some q → ∀ ri ∈ c.kernel q, 0 < ri.2 ∧
    (g.rhs ri.1)[ri.2 - 1]? = some X ∧ if ri.2 = 1
      then L.trans p (.nonterminal (g.lhs ri.1)) ≠ none else (ri.1, ri.2 - 1) ∈ c.kernel p
  /-- a symbol that can be read goes on with a rule, or begins one -/
  viable : ∀ q X, L.trans q X ≠ none → (q = L.start ∧ X = .nonterminal c.root) ∨
    (∃ ri ∈ c.kernel q, (g.rhs ri.1)[ri.2]? = some X) ∨
    ∃ r, (g.rhs r).head? = some X ∧ L.trans q (.nonterminal (g.lhs r)) ≠ none ∧
      c.level (.nonterminal (g.lhs r)) < c.level X
  weight : 0 < c.weight
  rank : ∀ q r, c.reduction q = some r → ∀ p q', L.trans p (.nonterminal (g.lhs r)) = some q' →
    c.rank q' + c.weight < c.rank q + c.weight * (g.rhs r).length

end Lemon

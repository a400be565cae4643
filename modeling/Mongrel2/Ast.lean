/-
The tree of a configuration file (`ast.c` of `m2sh`).

* `Value` — what the parser makes of an expression;
* `Value.resolve`, `get` — how a variable is looked up;
* `walkList`, `walkHash` — the two walks that load a file.

Design notes: the callbacks of the walks pass a state on, which in the source is the
database and two global variables.  The key of a pair is never NULL, and its value is
NULL only where a reference has no target.  That a walk over a hash comes to every pair
in it is `Tst.traverse_perm`.
-/
import Mongrel2.TstValues

namespace Mongrel2

open ByteStream HttpParser

/-! ### Values -/

namespace M2sh

/-- `Pair`. -/
structure Pair (β : Type) where
  key : List Byte
  value : β

/-- `ValueType`. -/
inductive ValueType
  | qstring | pattern | number | cls | list | hash | ident | ref
  deriving DecidableEq

/-- `Value`.  Of a token there is its text. -/
inductive Value
  | qstring (data : List Byte)
  | pattern (data : List Byte)
  | number (data : List Byte)
  | cls (ident : List Byte) (params : Tst (Pair Value))
  | list (elements : List Value)
  | hash (elements : Tst (Pair Value))
  | ident (data : List Byte)
  | ref (data : List Byte)

/-- A `tst_t` of pairs: the variables of a file, the parameters of a class, a hash. -/
abbrev Pairs := Tst (Pair Value)

/-- The tag of a value. -/
def Value.type : Value → ValueType
  | .qstring _ => .qstring
  | .pattern _ => .pattern
  | .number _ => .number
  | .cls _ _ => .cls
  | .list _ => .list
  | .hash _ => .hash
  | .ident _ => .ident
  | .ref _ => .ref

/-- `as.string->data`, where the value is a token: each of them is read alike. -/
def Value.string : Value → Option (List Byte)
  | .qstring data => some data
  | .pattern data => some data
  | .number data => some data
  | .ident data => some data
  | .ref data => some data
  | _ => none

/-! ### Lookups -/

section

variable (settings : Pairs)

/-- `Value_resolve`; `none` for NULL. -/
def Value.resolve : Value → Option Value
  | .ref data => (settings.search data).map Pair.value
  | val => some val

/-- `AST_get`. -/
def get (fr : Pairs) (name : List Byte) (type : ValueType) : Option Value := do
  let pair ← fr.search name
  let val ← pair.value.resolve settings
  if val.type = type then some val else none

/-- `AST_str`, which is asked for tokens only. -/
def str (fr : Pairs) (name : List Byte) (type : ValueType) : Option (List Byte) :=
  (get settings fr name type).bind Value.string

/-! ### Walks -/

variable {σ : Type*}

/-- `AST_walk_list`; `lost` is what an invalid reference leaves. -/
def walkList (lost : σ → σ) (cb : Value → σ → ℤ × σ) : List Value → σ → ℤ × σ
  | [], s => (0, s)
  | ref :: data, s =>
    match ref.resolve settings with
    | none => (-1, lost s)
    | some found =>
      let (rc, s) := cb found s
      if rc = 0 then walkList lost cb data s else (-1, s)

/-- `ast_hash_traverse_cb`: the error so far and the state, after one more pair.  Of a
reference without a target the callback is given NULL. -/
def hashTraverseCb (cb : Pair (Option Value) → σ → ℤ × σ) (scan : ℤ × σ) (pair : Pair Value) :
    ℤ × σ :=
  let (rc, s) := cb ⟨pair.key, pair.value.resolve settings⟩ scan.2
  (if scan.1 = 0 then rc else scan.1, s)

/-- `AST_walk_hash`. -/
def walkHash (cb : Pair (Option Value) → σ → ℤ × σ) (data : Pairs) (s : σ) : ℤ × σ :=
  data.traverse.foldl (hashTraverseCb settings cb) (0, s)

/-- The first error stays, and it does not stop the walk. -/
theorem foldl_hashTraverseCb (cb : Pair (Option Value) → σ → ℤ × σ) (pairs : List (Pair Value))
    (rc : ℤ) (s : σ) :
    pairs.foldl (hashTraverseCb settings cb) (rc, s) =
      (if rc = 0 then (pairs.foldl (hashTraverseCb settings cb) (0, s)).1 else rc,
        (pairs.foldl (hashTraverseCb settings cb) (0, s)).2) := by
  induction pairs generalizing rc s with
  | nil =>
    by_cases hrc : rc = 0
    · simp [hrc]
    · simp [hrc]
  | cons pair pairs ih =>
    rcases hcb : cb ⟨pair.key, pair.value.resolve settings⟩ s with ⟨rc', s'⟩
    have hstep : ∀ rc, hashTraverseCb settings cb (rc, s) pair =
        (if rc = 0 then rc' else rc, s') := by
      intro rc
      simp only [hashTraverseCb, hcb]
    rw [List.foldl_cons, List.foldl_cons, hstep, hstep, ih, ih (if (0 : ℤ) = 0 then rc' else 0)]
    by_cases hrc : rc = 0
    · simp [hrc]
    · simp [hrc]

end

end M2sh

end Mongrel2

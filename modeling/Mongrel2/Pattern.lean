/-
The pattern language (`pattern.c`).

* `matchAt`, `bstringMatch` — `match` and `bstring_match`;
* `Parses` — a well-formed pattern, as the pieces it consists of;
* `matchAt_of_parses` — on a well-formed pattern `match` is `run`, a backtracking matcher
  on its pieces.

Design notes: a pointer into the subject is the byte before it and what follows
(`Subject`).  A pattern is a C string, and `char` is signed.  Where the code would read on
behind a malformed pattern, or in a frontier without a class, the match fails here.
-/
import Mongrel2.Dir

namespace Mongrel2.Pattern

open ByteStream HttpParser

/-! ### Classes -/

def isLower (c : Byte) : Bool := chr 'a' ≤ c && c ≤ chr 'z'
def isAlpha (c : Byte) : Bool := isLower c || isUpper c
def isAlnum (c : Byte) : Bool := isAlpha c || isDigit c
def isCntrl (c : Byte) : Bool := c < chr ' ' || c = 127
def isSpace (c : Byte) : Bool := c = chr ' ' || 9 ≤ c && c ≤ 13
def isPunct (c : Byte) : Bool := chr ' ' < c && c < 127 && !isAlnum c
def toLower (c : Byte) : Byte := if isUpper c then c + 32 else c

/-- `L_ESC`. -/
def esc : Byte := chr '\\'

/-- `match_class`. -/
def matchClass (c cl : Byte) : Bool :=
  let res :=
    match Char.ofNat (toLower cl).toNat with
    | 'a' => some (isAlpha c)
    | 'c' => some (isCntrl c)
    | 'd' => some (isDigit c)
    | 'l' => some (isLower c)
    | 'p' => some (isPunct c)
    | 's' => some (isSpace c)
    | 'u' => some (isUpper c)
    | 'w' => some (isAlnum c)
    | 'x' => some (isXdigit c)
    | 'z' => some (c == 0)
    | _ => none
  match res with
  | some res => if isLower cl then res else !res
  | none => cl == c

/-- The bytes up to the `]` that ends a class, with it, and what follows; `none` if there is
no such `]`. -/
def bracketEnd : List Byte → Option (List Byte × List Byte)
  | x :: y :: p =>
    if x = esc then
      if p.head? = some (chr ']') then some ([x, y, chr ']'], p.tail)
      else (bracketEnd p).map fun (text, ep) => (x :: y :: text, ep)
    else if y = chr ']' then some ([x, y], p)
    else (bracketEnd (y :: p)).map fun (text, ep) => (x :: text, ep)
  | _ => none

/-- `classend`: the item that a pattern starts with, and what follows. -/
def classend : List Byte → Option (List Byte × List Byte)
  | [] => none
  | c :: p =>
    if c = esc then p.head?.map fun x => ([c, x], p.tail)
    else if c = chr '[' then
      if p.head? = some (chr '^') then
        (bracketEnd p.tail).map fun (text, ep) => (c :: chr '^' :: text, ep)
      else (bracketEnd p).map fun (text, ep) => (c :: text, ep)
    else some ([c], p)

/-- The loop of `matchbracketclass`, between the brackets; behind the last byte there is the
`]`. -/
def inBracket (c : Byte) : List Byte → Bool
  | [] => false
  | [x] => if x = esc then matchClass c (chr ']') else x == c
  | [x, y] => if x = esc then matchClass c y else x == c || inBracket c [y]
  | x :: y :: z :: p =>
    if x = esc then matchClass c y || inBracket c (z :: p)
    else if y = chr '-' then
      x.toInt8 ≤ c.toInt8 && c.toInt8 ≤ z.toInt8 || inBracket c p
    else x == c || inBracket c (y :: z :: p)

/-- `matchbracketclass`, for a class with its brackets. -/
def matchbracketclass (c : Byte) (text : List Byte) : Bool :=
  let body := text.tail.dropLast
  if body.head? = some (chr '^') then !inBracket c body.tail else inBracket c body

/-- `singlematch`. -/
def singlematch (c : Byte) : List Byte → Bool
  | [] => false
  | x :: text =>
    if x = chr '.' then true
    else if x = esc then text.head?.any (matchClass c)
    else if x = chr '[' then matchbracketclass c (x :: text)
    else x == c

/-! ### Matching -/

/-- A pointer into the string that is matched: the byte before, 0 at its start, and the
rest. -/
structure Subject where
  prev : Byte
  rest : List Byte
  deriving DecidableEq

/-- The pointer one byte on. -/
def Subject.next (s : Subject) : Subject := ⟨s.rest.headD 0, s.rest.tail⟩

/-- The loop of `matchbalance`. -/
def balanceLoop (b e : Byte) : ℕ → List Byte → Option Subject
  | _, [] => none
  | cont, x :: rest =>
    if x = e then if cont ≤ 1 then some ⟨x, rest⟩ else balanceLoop b e (cont - 1) rest
    else if x = b then balanceLoop b e (cont + 1) rest
    else balanceLoop b e cont rest

/-- `matchbalance`. -/
def matchbalance (s : Subject) (b e : Byte) : Option Subject :=
  if s.rest.head? = some b then balanceLoop b e 1 s.rest.tail else none

/-- `max_expand`; `k` is the match of the rest of the pattern. -/
def maxExpand (k : Subject → Option Subject) (text : List Byte) : Byte → List Byte → Option Subject
  | prev, [] => k ⟨prev, []⟩
  | prev, c :: rest =>
    if singlematch c text then (maxExpand k text c rest).orElse fun _ => k ⟨prev, c :: rest⟩
    else k ⟨prev, c :: rest⟩

/-- `min_expand`. -/
def minExpand (k : Subject → Option Subject) (text : List Byte) : Byte → List Byte → Option Subject
  | prev, [] => k ⟨prev, []⟩
  | prev, c :: rest =>
    (k ⟨prev, c :: rest⟩).orElse fun _ =>
      if singlematch c text then minExpand k text c rest else none

/-- How often an item may occur. -/
inductive Rep
  | one
  | opt
  | star
  | plus
  | minus
  deriving DecidableEq

/-- The repetition behind an item, and what follows. -/
def repetition (ep : List Byte) : Rep × List Byte :=
  if ep.head? = some (chr '?') then (.opt, ep.tail)
  else if ep.head? = some (chr '*') then (.star, ep.tail)
  else if ep.head? = some (chr '+') then (.plus, ep.tail)
  else if ep.head? = some (chr '-') then (.minus, ep.tail)
  else (.one, ep)

/-- The label `dflt` of `match`. -/
def dflt (k : Subject → Option Subject) (text : List Byte) (rep : Rep) (s : Subject) :
    Option Subject :=
  let m := s.rest.head?.any (singlematch · text)
  match rep with
  | .opt => if m then (k s.next).orElse fun _ => k s else k s
  | .star => maxExpand k text s.prev s.rest
  | .plus => if m then maxExpand k text s.next.prev s.next.rest else none
  | .minus => minExpand k text s.prev s.rest
  | .one => if m then k s.next else none

/-- `match`, with as many steps as the pattern is long. -/
def matchAt : ℕ → Subject → List Byte → Option Subject
  | 0, _, _ => none
  | _ + 1, s, [] => some s
  | n + 1, s, c :: p =>
    if c = chr '(' ∨ c = chr ')' then matchAt n s p
    else if c = esc ∧ p.head? = some (chr 'b') then
      match p.tail with
      | b :: e :: p => (matchbalance s b e).bind fun s => matchAt n s p
      | _ => none
    else if c = esc ∧ p.head? = some (chr 'f') then
      if p.tail.head? = some (chr '[') then
        (classend p.tail).bind fun (text, ep) =>
          if matchbracketclass s.prev text || !matchbracketclass (s.rest.headD 0) text then none
          else matchAt n s ep
      else none
    else if c = chr '$' ∧ p = [] then if s.rest = [] then some s else none
    else
      (classend (c :: p)).bind fun (text, ep) =>
        dflt (fun s => matchAt n s (repetition ep).2) text (repetition ep).1 s

/-- `match` on a pointer into a string. -/
def matchFrom (s : Subject) (pattern : List Byte) : Option Subject :=
  matchAt ((cstr pattern).length + 1) s (cstr pattern)

/-- `bstring_match`. -/
def bstringMatch (s pattern : List Byte) : Option Subject := matchFrom ⟨0, s⟩ pattern

example : (bstringMatch (bytes "ZEEEED") (bytes "ZE-D")).isSome = true := by decide

/-! ### Well-formed patterns -/

/-- What a pattern consists of. -/
inductive Piece
  | item (text : List Byte) (rep : Rep)
  | balance (b e : Byte)
  | frontier (text : List Byte)
  | anchor
  deriving DecidableEq

/-- A well-formed pattern and its pieces. -/
inductive Parses : List Byte → List Piece → Prop
  | nil : Parses [] []
  | paren {c : Byte} {p : List Byte} {ps : List Piece} (hc : c = chr '(' ∨ c = chr ')')
      (hp : Parses p ps) : Parses (c :: p) ps
  | balance {b e : Byte} {p : List Byte} {ps : List Piece} (hp : Parses p ps) :
      Parses (esc :: chr 'b' :: b :: e :: p) (.balance b e :: ps)
  | frontier {p text ep : List Byte} {ps : List Piece} (hb : p.head? = some (chr '['))
      (hend : classend p = some (text, ep)) (hp : Parses ep ps) :
      Parses (esc :: chr 'f' :: p) (.frontier text :: ps)
  | anchor : Parses [chr '$'] [.anchor]
  | item {c : Byte} {p text ep : List Byte} {ps : List Piece} (hparen : ¬ (c = chr '(' ∨ c = chr ')'))
      (hb : ¬ (c = esc ∧ p.head? = some (chr 'b'))) (hf : ¬ (c = esc ∧ p.head? = some (chr 'f')))
      (hanchor : ¬ (c = chr '$' ∧ p = [])) (hend : classend (c :: p) = some (text, ep))
      (hp : Parses (repetition ep).2 ps) : Parses (c :: p) (.item text (repetition ep).1 :: ps)

/-- A match, piece by piece. -/
def run : List Piece → Subject → Option Subject
  | [], s => some s
  | .item text rep :: ps, s => dflt (run ps) text rep s
  | .balance b e :: ps, s => (matchbalance s b e).bind (run ps)
  | .frontier text :: ps, s =>
    if matchbracketclass s.prev text || !matchbracketclass (s.rest.headD 0) text then none
    else run ps s
  | .anchor :: ps, s => if s.rest = [] then run ps s else none

section

variable {p r text ep : List Byte} {ps : List Piece}

theorem bracketEnd_append (h : bracketEnd p = some (text, ep)) (r : List Byte) :
    bracketEnd (p ++ r) = some (text, ep ++ r) ∧ p = text ++ ep := by
  induction p using bracketEnd.induct generalizing text ep with
  | case1 y p hhead =>
    obtain ⟨p', rfl⟩ : ∃ p', p = chr ']' :: p' := List.head?_eq_some_iff.mp hhead
    simp only [bracketEnd, if_true, List.head?_cons, List.tail_cons, Option.some.injEq,
      Prod.mk.injEq] at h
    obtain ⟨rfl, rfl⟩ := h
    simp [bracketEnd]
  | case2 y p hhead ih =>
    rw [bracketEnd, if_pos rfl, if_neg hhead, Option.map_eq_some_iff] at h
    obtain ⟨⟨text', ep'⟩, hend, heq⟩ := h
    obtain ⟨rfl, rfl⟩ := Prod.mk.inj heq
    obtain ⟨happ, hsplit⟩ := ih hend
    have hhead' : ¬ (p ++ r).head? = some (chr ']') := by
      cases p with
      | nil => exact absurd hend (by simp [bracketEnd])
      | cons z p => exact hhead
    refine ⟨?_, by rw [hsplit]; rfl⟩
    show bracketEnd (_ :: _ :: (p ++ r)) = _
    rw [bracketEnd, if_pos rfl, if_neg hhead', happ]
    rfl
  | case3 x p hesc =>
    rw [bracketEnd, if_neg hesc, if_pos rfl] at h
    obtain ⟨rfl, rfl⟩ := Prod.mk.inj (Option.some.inj h)
    refine ⟨?_, rfl⟩
    show bracketEnd (_ :: _ :: (p ++ r)) = _
    rw [bracketEnd, if_neg hesc, if_pos rfl]
  | case4 x y p hesc hy ih =>
    rw [bracketEnd, if_neg hesc, if_neg hy, Option.map_eq_some_iff] at h
    obtain ⟨⟨text', ep'⟩, hend, heq⟩ := h
    obtain ⟨rfl, rfl⟩ := Prod.mk.inj heq
    obtain ⟨happ, hsplit⟩ := ih hend
    refine ⟨?_, by rw [hsplit]; rfl⟩
    show bracketEnd (x :: y :: (p ++ r)) = _
    rw [bracketEnd, if_neg hesc, if_neg hy]
    show (bracketEnd ((y :: p) ++ r)).map _ = _
    rw [happ]
    rfl
  | case5 p hshort =>
    rw [bracketEnd.eq_def] at h
    split at h
    · exact absurd rfl (hshort _ _ _)
    · exact absurd h (by simp)

theorem classend_append (h : classend p = some (text, ep)) (r : List Byte) :
    classend (p ++ r) = some (text, ep ++ r) ∧ p = text ++ ep ∧ text ≠ [] := by
  cases p with
  | nil => exact absurd h (by simp [classend])
  | cons c p =>
    rw [List.cons_append]
    rw [classend] at h ⊢
    by_cases hesc : c = esc
    · rw [if_pos hesc, Option.map_eq_some_iff] at h
      obtain ⟨x, hx, heq⟩ := h
      obtain ⟨p', rfl⟩ := List.head?_eq_some_iff.mp hx
      obtain ⟨rfl, rfl⟩ := Prod.mk.inj heq
      rw [if_pos hesc]
      exact ⟨rfl, rfl, by simp⟩
    rw [if_neg hesc] at h ⊢
    by_cases hopen : c = chr '['
    · rw [if_pos hopen] at h ⊢
      by_cases hneg : p.head? = some (chr '^')
      · obtain ⟨p', rfl⟩ := List.head?_eq_some_iff.mp hneg
        rw [if_pos hneg, Option.map_eq_some_iff] at h
        obtain ⟨⟨text', ep'⟩, hend, heq⟩ := h
        obtain ⟨rfl, rfl⟩ := Prod.mk.inj heq
        obtain ⟨happ, hsplit⟩ := bracketEnd_append hend r
        rw [List.tail_cons] at hsplit
        have hneg' : (chr '^' :: p' ++ r).head? = some (chr '^') := rfl
        have happ' : bracketEnd (chr '^' :: p' ++ r).tail = some (text', ep' ++ r) := happ
        rw [if_pos hneg', happ']
        exact ⟨rfl, by rw [hsplit]; rfl, by simp⟩
      · rw [if_neg hneg, Option.map_eq_some_iff] at h
        obtain ⟨⟨text', ep'⟩, hend, heq⟩ := h
        obtain ⟨rfl, rfl⟩ := Prod.mk.inj heq
        obtain ⟨happ, hsplit⟩ := bracketEnd_append hend r
        -- a class that has an end is not empty, so its first byte is still the same
        have hneg' : ¬ (p ++ r).head? = some (chr '^') := by
          cases p with
          | nil => exact absurd hend (by simp [bracketEnd])
          | cons x p => exact hneg
        rw [if_neg hneg', happ]
        exact ⟨rfl, by rw [hsplit]; rfl, by simp⟩
    · rw [if_neg hopen] at h ⊢
      obtain ⟨rfl, rfl⟩ := Prod.mk.inj (Option.some.inj h)
      exact ⟨rfl, rfl, by simp⟩

theorem length_classend (h : classend p = some (text, ep)) : ep.length < p.length := by
  obtain ⟨-, hsplit, hne⟩ := classend_append h []
  have hpos := List.length_pos_iff.mpr hne
  rw [hsplit, List.length_append]
  omega

theorem length_repetition_le (ep : List Byte) : (repetition ep).2.length ≤ ep.length := by
  have htail : ep.tail.length ≤ ep.length := by rw [List.length_tail]; omega
  unfold repetition
  repeat' split
  all_goals first | exact htail | exact le_rfl

theorem matchAt_of_parses (h : Parses p ps) (s : Subject) {n : ℕ} (hn : p.length < n) :
    matchAt n s p = run ps s := by
  induction h generalizing s n with
  | nil =>
    obtain ⟨n, rfl⟩ := Nat.exists_eq_add_of_lt hn
    rfl
  | paren hc _ ih =>
    obtain ⟨n, rfl⟩ : ∃ m, n = m + 1 := ⟨n - 1, by omega⟩
    rw [List.length_cons] at hn
    rw [matchAt, if_pos hc, ih s (by omega)]
  | @balance b e p ps _ ih =>
    obtain ⟨n, rfl⟩ : ∃ m, n = m + 1 := ⟨n - 1, by omega⟩
    simp only [List.length_cons] at hn
    rw [matchAt, if_neg (by decide), if_pos ⟨rfl, rfl⟩]
    show (matchbalance s b e).bind (fun s => matchAt n s p) = _
    rw [run]
    congr 1
    funext s'
    exact ih s' (by omega)
  | @frontier p text ep ps hb hend _ ih =>
    obtain ⟨n, rfl⟩ : ∃ m, n = m + 1 := ⟨n - 1, by omega⟩
    simp only [List.length_cons] at hn
    have hlt := length_classend hend
    have hbal : ¬ (esc = esc ∧ (chr 'f' :: p).head? = some (chr 'b')) := fun h =>
      absurd (Option.some.inj h.2) (by decide)
    rw [matchAt, if_neg (by decide), if_neg hbal, if_pos ⟨rfl, rfl⟩, List.tail_cons,
      if_pos hb, hend, Option.bind_some, run]
    rw [← ih s (show ep.length < n by omega)]
  | anchor =>
    obtain ⟨n, rfl⟩ : ∃ m, n = m + 1 := ⟨n - 1, by omega⟩
    rw [matchAt, if_neg (by decide), if_neg (by decide), if_neg (by decide), if_pos ⟨rfl, rfl⟩]
    rfl
  | @item c p text ep ps hparen hb hf hanchor hend _ ih =>
    obtain ⟨n, rfl⟩ : ∃ m, n = m + 1 := ⟨n - 1, by omega⟩
    rw [matchAt, if_neg hparen, if_neg hb, if_neg hf, if_neg hanchor, hend, Option.bind_some, run]
    have hlt := length_classend hend
    have hle := length_repetition_le ep
    show dflt (fun s => matchAt n s (repetition ep).2) text (repetition ep).1 s = _
    congr 1
    funext s'
    exact ih s' (by omega)

theorem matchFrom_of_parses (h : Parses p ps) (hcstr : cstr p = p) (s : Subject) :
    matchFrom s p = run ps s := by
  rw [matchFrom, hcstr]
  exact matchAt_of_parses h s (Nat.lt_succ_self _)

end

end Mongrel2.Pattern

/-
What the pattern matcher reads (`pattern.c`).

* `Ptr.matchAt` — `match` on pointers, with every read of the pattern and of the subject;
* `parts` — the pieces that a pattern starts with, and what is left of it where it is
  malformed;
* `Overruns` — what is left makes the match read on behind the terminating NUL;
* **`harmless_iff`** — nothing is read behind a NUL, exactly if the match does not come to such a
  rest: the pieces before it match no prefix of the subject.

Design notes: a pointer is what follows it up to the NUL, with the NUL, and a read of nothing
is a fault; so is a match that takes more steps than the pattern has bytes.  A pointer may
stand one byte behind the NUL as long as it is not read.
-/
import Mongrel2.PatternMeaning

namespace Mongrel2.Pattern

open ByteStream HttpParser

/-- Why there is no result: a read behind the end, or too many steps. -/
inductive Fault
  | past
  | steps
  deriving DecidableEq

/-! ### Pointers -/

namespace Ptr

/-- `*p`. -/
def deref : List Byte → Except Fault Byte
  | [] => .error .past
  | c :: _ => .ok c

/-- The loop of `classend` for a set. -/
def bracketEnd : List Byte → Except Fault (List Byte)
  | x :: y :: p =>
    if x = esc ∧ y ≠ 0 then
      if p.head? = some (chr ']') then .ok p.tail else bracketEnd p
    else if y = chr ']' then .ok p
    else bracketEnd (y :: p)
  | _ => .error .past

/-- `classend`. -/
def classend (p : List Byte) : Except Fault (List Byte) := do
  let c ← deref p
  if c = esc then
    -- an escape that ends the pattern is only logged
    let _ ← deref p.tail
    return p.tail.tail
  else if c = chr '[' then
    let x ← deref p.tail
    if x = chr '^' then bracketEnd p.tail.tail else bracketEnd p.tail
  else return p.tail

/-- The loop of `matchbracketclass`, `k` bytes before the end of the set. -/
def inBracket (c : Byte) : List Byte → ℕ → Except Fault Bool
  | _, 0 => .ok false
  | [], _ + 1 => .error .past
  | [_], _ + 1 => .error .past
  | x :: y :: p, k + 1 =>
    if x = esc then
      if matchClass c y then .ok true else inBracket c p (k - 1)
    else if y = chr '-' ∧ 2 ≤ k then
      match p with
      | [] => .error .past
      | z :: p =>
        if x.toInt8 ≤ c.toInt8 ∧ c.toInt8 ≤ z.toInt8 then .ok true else inBracket c p (k - 2)
    else if x = c then .ok true
    else inBracket c (y :: p) k

/-- `matchbracketclass`, for a set of `n` bytes. -/
def matchbracketclass (c : Byte) (p : List Byte) (n : ℕ) : Except Fault Bool := do
  let x ← deref p.tail
  if x = chr '^' then
    let found ← inBracket c p.tail.tail (n - 3)
    return !found
  else inBracket c p.tail (n - 2)

/-- `singlematch`, for an item of `n` bytes. -/
def singlematch (c : Byte) (p : List Byte) (n : ℕ) : Except Fault Bool := do
  let x ← deref p
  if x = chr '.' then return true
  else if x = esc then
    let cl ← deref p.tail
    return matchClass c cl
  else if x = chr '[' then matchbracketclass c p n
  else return x == c

/-- The loop of `matchbalance`. -/
def balanceLoop (b e : Byte) : ℕ → List Byte → Option Subject
  | cont, x :: y :: rest =>
    if x = e then if cont ≤ 1 then some ⟨x, y :: rest⟩ else balanceLoop b e (cont - 1) (y :: rest)
    else if x = b then balanceLoop b e (cont + 1) (y :: rest)
    else balanceLoop b e cont (y :: rest)
  | _, _ => none

/-- `matchbalance`. -/
def matchbalance (s : Subject) (p : List Byte) : Except Fault (Option Subject) := do
  let b ← deref p
  -- a pattern that ends here is only logged
  if b ≠ 0 then
    let _ ← deref p.tail
  let x ← deref s.rest
  if x ≠ b then return none
  else
    let e ← deref p.tail
    return balanceLoop b e 1 s.rest.tail

/-- One attempt, and another one if it returns NULL. -/
def orElse (x y : Except Fault (Option Subject)) : Except Fault (Option Subject) := do
  match ← x with
  | some t => return some t
  | none => y

/-- Before the end of the subject. -/
def before (s : Subject) : Bool := 1 < s.rest.length

/-- `max_expand`. -/
def maxExpand (single : Byte → Except Fault Bool) (k : Subject → Except Fault (Option Subject)) :
    Byte → List Byte → Except Fault (Option Subject)
  | prev, c :: d :: rest => do
    if ← single c then orElse (maxExpand single k c (d :: rest)) (k ⟨prev, c :: d :: rest⟩)
    else k ⟨prev, c :: d :: rest⟩
  | prev, rest => k ⟨prev, rest⟩

/-- `min_expand`. -/
def minExpand (single : Byte → Except Fault Bool) (k : Subject → Except Fault (Option Subject)) :
    Byte → List Byte → Except Fault (Option Subject)
  | prev, c :: d :: rest =>
    orElse (k ⟨prev, c :: d :: rest⟩) (do
      if ← single c then minExpand single k c (d :: rest) else return none)
  | prev, rest => orElse (k ⟨prev, rest⟩) (return none)

/-- The switch behind an item. -/
def repeated (single : Byte → Except Fault Bool) (k : Subject → Except Fault (Option Subject))
    (rep : Rep) (m : Bool) (s : Subject) : Except Fault (Option Subject) :=
  match rep with
  | .opt => if m then orElse (k s.next) (k s) else k s
  | .star => maxExpand single k s.prev s.rest
  | .plus => if m then maxExpand single k s.next.prev s.next.rest else return none
  | .minus => minExpand single k s.prev s.rest
  | .one => if m then k s.next else return none

/-- `m` in `match`: whether the byte at a pointer meets an item. -/
def meets (single : Byte → Except Fault Bool) (s : Subject) : Except Fault Bool :=
  if before s then single (s.rest.headD 0) else .ok false

/-- The label `dflt` of `match`; `k` is the match of a later part of the pattern. -/
def dflt (k : Subject → List Byte → Except Fault (Option Subject)) (s : Subject) (p : List Byte) :
    Except Fault (Option Subject) := do
  let ep ← classend p
  let single := fun c => singlematch c p (p.length - ep.length)
  let m ← meets single s
  let _ ← deref ep
  repeated single (fun s => k s (repetition ep).2) (repetition ep).1 m s

/-- `match`. -/
def matchAt : ℕ → Subject → List Byte → Except Fault (Option Subject)
  | 0, _, _ => .error .steps
  | n + 1, s, p => do
    let c ← deref p
    if c = chr '(' ∨ c = chr ')' then matchAt n s p.tail
    else if c = esc then
      let d ← deref p.tail
      if d = chr 'b' then
        match ← matchbalance s p.tail.tail with
        | none => return none
        | some s => matchAt n s (p.drop 4)
      else if d = chr 'f' then
        let q := p.tail.tail
        -- a missing bracket is only logged
        let _ ← deref q
        let ep ← classend q
        if ← matchbracketclass s.prev q (q.length - ep.length) then return none
        else
          let x ← deref s.rest
          if ← matchbracketclass x q (q.length - ep.length) then matchAt n s ep else return none
      else dflt (matchAt n) s p
    else if c = 0 then return some s
    else if c = chr '$' then
      let d ← deref p.tail
      if d = 0 then
        if before s then return none else return some s
      else dflt (matchAt n) s p
    else dflt (matchAt n) s p

/-- A pointer with the NUL at the end. -/
def ended (s : Subject) : Subject := ⟨s.prev, s.rest ++ [0]⟩

end Ptr

/-- `match` on a subject and a pattern that end in a NUL each. -/
def readingMatch (s p : List Byte) : Except Fault (Option Subject) :=
  Ptr.matchAt (p.length + 1) ⟨0, s ++ [0]⟩ (p ++ [0])

/-- The match comes to a result, and reads nothing behind a NUL. -/
def Harmless (s p : List Byte) : Prop := ∃ r, readingMatch s p = .ok r

example : readingMatch (bytes "ab") (bytes "a[") = .error .past := by decide

/-! ### Malformed patterns -/

/-- The pieces that a pattern starts with, and what is left. -/
def pieces : ℕ → List Byte → List Piece × List Byte
  | 0, p => ([], p)
  | _ + 1, [] => ([], [])
  | n + 1, c :: p =>
    if c = chr '(' ∨ c = chr ')' then pieces n p
    else if c = esc ∧ p.head? = some (chr 'b') then
      match p.tail with
      | b :: e :: q => (.balance b e :: (pieces n q).1, (pieces n q).2)
      | _ => ([], c :: p)
    else if c = esc ∧ p.head? = some (chr 'f') then
      match if p.tail.head? = some (chr '[') then classend p.tail else none with
      | some (text, ep) => (.frontier text :: (pieces n ep).1, (pieces n ep).2)
      | none => ([], c :: p)
    else if c = chr '$' ∧ p = [] then ([.anchor], [])
    else
      match classend (c :: p) with
      | some (text, ep) =>
        (.item text (repetition ep).1 :: (pieces n (repetition ep).2).1,
          (pieces n (repetition ep).2).2)
      | none => ([], c :: p)

/-- What is left of a pattern, and where a match of the pieces before it ends, make the match
read on: a lone backslash, an open set, a `\f` at the end or with an open set; or a `\b` at the
end, at the end of the subject. -/
def Unstopped (r : List Byte) (t : Subject) : Prop :=
  r = [esc] ∨ r.head? = some (chr '[') ∨ r = [esc, chr 'f'] ∨ [esc, chr 'f', chr '['] <+: r ∨
    r = [esc, chr 'b'] ∧ t.rest = []

/-- A match of some pieces can end here. -/
def Ends : List Piece → Subject → Subject → Prop
  | [], s, t => s = t
  | .item text rep :: ps, s, t => ∃ u v, s.rest = u ++ v ∧ rep.Allows u.length ∧
      (∀ c ∈ u, singlematch c text = true) ∧ Ends ps ⟨u.getLastD s.prev, v⟩ t
  | .balance b e :: ps, s, t => ∃ u v, s.rest = b :: (u ++ v) ∧ Closes b e 1 u ∧
      Ends ps ⟨u.getLastD b, v⟩ t
  | .frontier text :: ps, s, t => matchbracketclass s.prev text = false ∧
      matchbracketclass (s.rest.headD 0) text = true ∧ Ends ps s t
  | .anchor :: ps, s, t => s.rest = [] ∧ Ends ps s t

/-- The pieces before what is left match a prefix of the subject, and what is left makes the
match read on. -/
def Overruns (s p : List Byte) : Prop :=
  ∃ t, Ends (pieces (p.length + 1) p).1 ⟨0, s⟩ t ∧ Unstopped (pieces (p.length + 1) p).2 t

section

variable {p q text ep body : List Byte} {s t : Subject} {b c : Byte}

@[simp] theorem Ptr.deref_cons (c : Byte) (p : List Byte) : Ptr.deref (c :: p) = .ok c := rfl

@[simp] theorem ok_bind {α β : Type} (a : α) (f : α → Except Fault β) :
    (Except.ok a >>= f) = f a := rfl

/-! ### Items -/

/-- Where an item ends, for a pointer. -/
def endOf (o : Option (List Byte × List Byte)) : Except Fault (List Byte) :=
  match o with
  | some (_, ep) => .ok (ep ++ [0])
  | none => .error .past

theorem endOf_map (f : List Byte → List Byte) (o : Option (List Byte × List Byte)) :
    endOf (o.map fun (text, ep) => (f text, ep)) = endOf o := by
  rcases o with _ | ⟨text, ep⟩ <;> rfl

theorem bracketEnd_ptr (hp : 0 ∉ p) : Ptr.bracketEnd (p ++ [0]) = endOf (bracketEnd p) := by
  induction p using Pattern.bracketEnd.induct with
  | case1 y p hhead =>
    obtain ⟨p, rfl⟩ := List.head?_eq_some_iff.mp hhead
    have hy : y ≠ 0 := fun h => hp (by simp [h])
    rw [List.cons_append, List.cons_append, Ptr.bracketEnd, if_pos ⟨rfl, hy⟩, bracketEnd,
      if_pos rfl]
    rfl
  | case2 y p hhead ih =>
    simp only [List.mem_cons, not_or] at hp
    have hhead' : ¬ (p ++ [0]).head? = some (chr ']') := by
      cases p with
      | nil => decide
      | cons z p => exact hhead
    rw [List.cons_append, List.cons_append, Ptr.bracketEnd, if_pos ⟨rfl, Ne.symm hp.2.1⟩,
      if_neg hhead', bracketEnd, if_pos rfl, if_neg hhead, ih hp.2.2]
    exact (endOf_map (fun text => esc :: y :: text) _).symm
  | case3 x p hesc =>
    rw [List.cons_append, List.cons_append, Ptr.bracketEnd, if_neg (fun h => hesc h.1), if_pos rfl,
      bracketEnd, if_neg hesc, if_pos rfl]
    rfl
  | case4 x y p hesc hy ih =>
    rw [List.cons_append, List.cons_append, Ptr.bracketEnd, if_neg (fun h => hesc h.1), if_neg hy,
      bracketEnd, if_neg hesc, if_neg hy, ← List.cons_append,
      ih fun h => hp (List.mem_cons_of_mem x h)]
    exact (endOf_map (fun text => x :: text) _).symm
  | case5 p hshort =>
    rcases p with _ | ⟨x, _ | ⟨y, p⟩⟩
    · rfl
    · rw [List.singleton_append, Ptr.bracketEnd, if_neg fun h => h.2 rfl, if_neg (by decide)]
      rfl
    · exact absurd rfl (hshort x y p)

/-- `classend` reads on where a set is open; a lone backslash ends behind the NUL. -/
theorem classend_ptr (hp : 0 ∉ c :: p) :
    Ptr.classend (c :: p ++ [0]) =
      if c = esc ∧ p = [] then .ok [] else endOf (classend (c :: p)) := by
  rw [List.cons_append, Ptr.classend, classend, Ptr.deref_cons, ok_bind]
  by_cases hesc : c = esc
  · rw [if_pos hesc, if_pos hesc]
    rcases p with _ | ⟨x, p⟩
    · rw [if_pos ⟨hesc, rfl⟩]
      rfl
    · rw [if_neg (by simp)]
      rfl
  rw [if_neg hesc, if_neg hesc, if_neg (fun h : c = esc ∧ p = [] => hesc h.1)]
  by_cases hopen : c = chr '['
  · rw [if_pos hopen, if_pos hopen, List.tail_cons]
    rcases p with _ | ⟨x, p⟩
    · rfl
    · rw [List.cons_append, Ptr.deref_cons, ok_bind, List.head?_cons, List.tail_cons,
        List.tail_cons]
      have hp' : 0 ∉ x :: p := fun h => hp (List.mem_cons_of_mem c h)
      by_cases hneg : x = chr '^'
      · rw [if_pos hneg, if_pos (congrArg some hneg),
          bracketEnd_ptr fun h => hp' (List.mem_cons_of_mem x h)]
        exact (endOf_map (fun text => c :: chr '^' :: text) _).symm
      · rw [if_neg hneg, if_neg fun h => hneg (Option.some.inj h), ← List.cons_append,
          bracketEnd_ptr hp']
        exact (endOf_map (fun text => c :: text) _).symm
  · rw [if_neg hopen, if_neg hopen]
    rfl

theorem bracketEnd_text (h : bracketEnd p = some (text, ep)) :
    ∃ body, body ≠ [] ∧ text = body ++ [chr ']'] := by
  induction p using bracketEnd.induct generalizing text ep with
  | case1 y p hhead =>
    rw [bracketEnd, if_pos rfl, if_pos hhead] at h
    obtain ⟨rfl, rfl⟩ := Prod.mk.inj (Option.some.inj h)
    exact ⟨[esc, y], List.cons_ne_nil _ _, rfl⟩
  | case2 y p hhead ih =>
    rw [bracketEnd, if_pos rfl, if_neg hhead, Option.map_eq_some_iff] at h
    obtain ⟨⟨text', ep'⟩, hend, heq⟩ := h
    obtain ⟨rfl, rfl⟩ := Prod.mk.inj heq
    obtain ⟨body, -, rfl⟩ := ih hend
    exact ⟨esc :: y :: body, List.cons_ne_nil _ _, rfl⟩
  | case3 x p hesc =>
    rw [bracketEnd, if_neg hesc, if_pos rfl] at h
    obtain ⟨rfl, rfl⟩ := Prod.mk.inj (Option.some.inj h)
    exact ⟨[x], List.cons_ne_nil _ _, rfl⟩
  | case4 x y p hesc hy ih =>
    rw [bracketEnd, if_neg hesc, if_neg hy, Option.map_eq_some_iff] at h
    obtain ⟨⟨text', ep'⟩, hend, heq⟩ := h
    obtain ⟨rfl, rfl⟩ := Prod.mk.inj heq
    obtain ⟨body, -, rfl⟩ := ih hend
    exact ⟨x :: body, List.cons_ne_nil _ _, rfl⟩
  | case5 p hshort =>
    rw [bracketEnd.eq_def] at h
    split at h
    · exact absurd rfl (hshort _ _ _)
    · exact absurd h (by simp)

theorem inBracket_ptr_zero (c : Byte) (p : List Byte) : Ptr.inBracket c p 0 = .ok false := by
  rcases p with _ | ⟨x, _ | ⟨y, p⟩⟩ <;> rfl

theorem inBracket_ptr_one (c x y : Byte) (p : List Byte) :
    Ptr.inBracket c (x :: y :: p) 1 =
      if x = esc then if matchClass c y then .ok true else .ok false else .ok (x == c) := by
  rw [Ptr.inBracket.eq_def]
  show (if x = esc then if matchClass c y = true then Except.ok true else Ptr.inBracket c p 0
    else if y = chr '-' ∧ 2 ≤ 0 then _
    else if x = c then .ok true else Ptr.inBracket c (y :: p) 0) = _
  rw [if_neg (by simp : ¬ (y = chr '-' ∧ 2 ≤ 0)), inBracket_ptr_zero, inBracket_ptr_zero]
  by_cases hx : x = c
  · rw [if_pos hx, beq_iff_eq.mpr hx]
  · rw [if_neg hx, beq_eq_false_iff_ne.mpr hx]

/-- Inside of a set nothing is read behind its bracket. -/
theorem inBracket_ptr (c : Byte) (body r : List Byte) :
    Ptr.inBracket c (body ++ chr ']' :: r) body.length = .ok (inBracket c body) := by
  have hbool : ∀ b d : Bool, (if b = true then Except.ok true else Except.ok d) =
      (Except.ok (b || d) : Except Fault Bool) := by decide
  induction body using inBracket.induct with
  | case1 => exact inBracket_ptr_zero c _
  | case2 =>
    show Ptr.inBracket c (esc :: chr ']' :: r) 1 = _
    rw [inBracket_ptr_one, if_pos rfl, inBracket, if_pos rfl, hbool, Bool.or_false]
  | case3 x hesc =>
    show Ptr.inBracket c (x :: chr ']' :: r) 1 = _
    rw [inBracket_ptr_one, if_neg hesc, inBracket, if_neg hesc]
  | case4 y =>
    show Ptr.inBracket c (esc :: y :: chr ']' :: r) (1 + 1) = _
    rw [Ptr.inBracket, if_pos rfl, inBracket, if_pos rfl, inBracket_ptr_zero, hbool, Bool.or_false]
  | case5 x y hesc ih =>
    show Ptr.inBracket c (x :: y :: chr ']' :: r) (1 + 1) = _
    have ih' : Ptr.inBracket c (y :: chr ']' :: r) 1 = .ok (inBracket c [y]) := ih
    have hrec : inBracket c [x, y] = (x == c || inBracket c [y]) := by simp [inBracket, hesc]
    rw [Ptr.inBracket, if_neg hesc, if_neg (by simp), ih', hrec]
    by_cases hx : x = c <;> simp [hx]
  | case6 y z p ih =>
    show Ptr.inBracket c (esc :: y :: z :: (p ++ chr ']' :: r)) (p.length + 2 + 1) = _
    have ih' : Ptr.inBracket c (z :: (p ++ chr ']' :: r)) (p.length + 2 - 1) =
        .ok (inBracket c (z :: p)) := ih
    rw [Ptr.inBracket, if_pos rfl, ih', inBracket, if_pos rfl, hbool]
  | case7 x z p hesc ih =>
    show Ptr.inBracket c (x :: chr '-' :: z :: (p ++ chr ']' :: r)) (p.length + 2 + 1) = _
    have ih' : Ptr.inBracket c (p ++ chr ']' :: r) (p.length + 2 - 2) = .ok (inBracket c p) := ih
    rw [Ptr.inBracket, if_neg hesc, if_pos ⟨rfl, by omega⟩]
    show (if x.toInt8 ≤ c.toInt8 ∧ c.toInt8 ≤ z.toInt8 then Except.ok true else _) = _
    rw [ih', inBracket, if_neg hesc, if_pos rfl]
    by_cases hrange : x.toInt8 ≤ c.toInt8 ∧ c.toInt8 ≤ z.toInt8
    · rw [if_pos hrange, decide_eq_true hrange.1, decide_eq_true hrange.2]
      rfl
    · rw [if_neg hrange, ← Bool.decide_and, decide_eq_false hrange, Bool.false_or]
  | case8 x y z p hesc hminus ih =>
    show Ptr.inBracket c (x :: y :: z :: (p ++ chr ']' :: r)) (p.length + 2 + 1) = _
    have ih' : Ptr.inBracket c (y :: z :: (p ++ chr ']' :: r)) (p.length + 2) =
        .ok (inBracket c (y :: z :: p)) := ih
    rw [Ptr.inBracket, if_neg hesc, if_neg fun h => hminus h.1, ih', inBracket, if_neg hesc,
      if_neg hminus]
    by_cases hx : x = c <;> simp [hx]

/-- A set is read up to its bracket. -/
theorem matchbracketclass_ptr (hend : classend p = some (text, ep))
    (hbracket : p.head? = some (chr '[')) (c : Byte) (r : List Byte) :
    Ptr.matchbracketclass c (text ++ r) text.length = .ok (matchbracketclass c text) := by
  obtain ⟨p, rfl⟩ := List.head?_eq_some_iff.mp hbracket
  rw [classend, if_neg (by decide), if_pos rfl] at hend
  split_ifs at hend with hneg
  · obtain ⟨⟨text', ep'⟩, hbody, heq⟩ := Option.map_eq_some_iff.mp hend
    obtain ⟨rfl, rfl⟩ := Prod.mk.inj heq
    obtain ⟨body, -, rfl⟩ := bracketEnd_text hbody
    have hsplit : body ++ [chr ']'] ++ r = body ++ chr ']' :: r := by simp
    have hlen : (chr '[' :: chr '^' :: (body ++ [chr ']'])).length - 3 = body.length := by simp
    have hdrop : (chr '^' :: (body ++ [chr ']'])).dropLast = chr '^' :: body :=
      @List.dropLast_concat _ (chr '^' :: body) (chr ']')
    rw [List.cons_append, List.cons_append, Ptr.matchbracketclass, List.tail_cons, Ptr.deref_cons,
      ok_bind, if_pos rfl, List.tail_cons, hsplit, hlen, inBracket_ptr, matchbracketclass,
      List.tail_cons, hdrop, List.head?_cons, if_pos rfl]
    rfl
  · obtain ⟨⟨text', ep'⟩, hbody, heq⟩ := Option.map_eq_some_iff.mp hend
    obtain ⟨rfl, rfl⟩ := Prod.mk.inj heq
    obtain ⟨body, hne, rfl⟩ := bracketEnd_text hbody
    obtain ⟨x, body, rfl⟩ := List.exists_cons_of_ne_nil hne
    have hx : x ≠ chr '^' := by
      rintro rfl
      obtain ⟨-, hp⟩ := bracketEnd_append hbody []
      exact hneg (by rw [hp]; rfl)
    have hsplit : x :: body ++ [chr ']'] ++ r = x :: body ++ chr ']' :: r := by simp
    have hlen : (chr '[' :: (x :: body ++ [chr ']'])).length - 2 = (x :: body).length := by simp
    rw [List.cons_append, Ptr.matchbracketclass, List.tail_cons, hlen, hsplit,
      matchbracketclass, List.tail_cons, List.dropLast_concat, List.head?_cons,
      if_neg fun h => hx (Option.some.inj h), ← inBracket_ptr c (x :: body) r]
    show (if x = chr '^' then _ else _) = _
    rw [if_neg hx]

/-- An item is read up to its end. -/
theorem singlematch_ptr (hend : classend p = some (text, ep)) (c : Byte) (r : List Byte) :
    Ptr.singlematch c (text ++ r) text.length = .ok (singlematch c text) := by
  obtain ⟨-, hsplit, hne⟩ := classend_append hend []
  obtain ⟨x, text, rfl⟩ := List.exists_cons_of_ne_nil hne
  obtain rfl : p = x :: (text ++ ep) := hsplit
  rw [List.cons_append, Ptr.singlematch, Ptr.deref_cons, ok_bind, singlematch]
  by_cases hdot : x = chr '.'
  · rw [if_pos hdot, if_pos hdot]
    rfl
  rw [if_neg hdot, if_neg hdot]
  by_cases hesc : x = esc
  · rw [if_pos hesc, if_pos hesc]
    rw [classend, if_pos hesc, Option.map_eq_some_iff] at hend
    obtain ⟨y, -, heq⟩ := hend
    obtain ⟨htext, -⟩ := Prod.mk.inj heq
    obtain rfl : [y] = text := (List.cons.inj htext).2
    rw [List.tail_cons, List.singleton_append, Ptr.deref_cons, ok_bind]
    rfl
  rw [if_neg hesc, if_neg hesc]
  by_cases hset : x = chr '['
  · rw [if_pos hset, if_pos hset, ← List.cons_append]
    exact matchbracketclass_ptr hend (congrArg some hset) c r
  · rw [if_neg hset, if_neg hset]
    rfl

/-! ### Outcomes -/

/-- A match reads on exactly if `P`; it returns a pointer only where the pattern is complete. -/
def Outcome (complete P : Prop) (x : Except Fault (Option Subject)) : Prop :=
  x = .error .past ∧ P ∨ ∃ o, x = .ok o ∧ ¬ P ∧ (o = none ∨ complete)

variable {complete P Q : Prop} {x y : Except Fault (Option Subject)}

theorem Outcome.congr (h : Outcome complete P x) (hiff : P ↔ Q) : Outcome complete Q x := by
  rwa [Outcome, ← hiff]

theorem outcome_past (h : P) : Outcome complete P (.error .past) := .inl ⟨rfl, h⟩

theorem outcome_none (h : ¬ P) : Outcome complete P (.ok none) := .inr ⟨none, rfl, h, .inl rfl⟩

theorem outcome_some (h : ¬ P) (hcomplete : complete) (t : Subject) :
    Outcome complete P (.ok (some t)) := .inr ⟨some t, rfl, h, .inr hcomplete⟩

/-- Without a match in full each attempt is made. -/
theorem Outcome.orElse (hx : Outcome complete P x) (hy : Outcome complete Q y)
    (hcomplete : complete → ¬ Q) : Outcome complete (P ∨ Q) (Ptr.orElse x y) := by
  rcases hx with ⟨rfl, hP⟩ | ⟨o, rfl, hP, ho⟩
  · exact outcome_past (.inl hP)
  · cases o with
    | none => exact hy.congr (or_iff_right hP).symm
    | some t =>
      have hfull := ho.resolve_left (by simp)
      exact outcome_some (not_or.mpr ⟨hP, hcomplete hfull⟩) hfull t

section

variable {f : Byte → Bool} {single : Byte → Except Fault Bool}
  {k : Subject → Except Fault (Option Subject)} {bad : Subject → Prop}

theorem repeated_star_iff (prev c : Byte) (rest : List Byte) :
    Repeated f Rep.star.Allows bad ⟨prev, c :: rest⟩ ↔
      bad ⟨prev, c :: rest⟩ ∨ f c = true ∧ Repeated f Rep.star.Allows bad ⟨c, rest⟩ :=
  repeated_cons_iff.trans (or_congr (and_iff_right trivial) Iff.rfl)

theorem maxExpand_outcome (hsingle : ∀ c, single c = .ok (f c))
    (hk : ∀ t, 0 ∉ t.rest → Outcome complete (bad t) (k (Ptr.ended t)))
    (hcomplete : complete → ∀ t, ¬ bad t) (prev : Byte) {rest : List Byte} (hrest : 0 ∉ rest) :
    Outcome complete (Repeated f Rep.star.Allows bad ⟨prev, rest⟩)
      (Ptr.maxExpand single k prev (rest ++ [0])) := by
  induction rest generalizing prev with
  | nil =>
    exact (hk ⟨prev, []⟩ hrest).congr (repeated_nil_iff.trans (and_iff_right trivial)).symm
  | cons c rest ih =>
    have hnow := hk ⟨prev, c :: rest⟩ hrest
    have hmore := ih c fun h => hrest (List.mem_cons_of_mem c h)
    refine Outcome.congr ?_ (repeated_star_iff prev c rest).symm
    obtain ⟨d, rest', hrest'⟩ : ∃ d rest', rest ++ [0] = d :: rest' :=
      List.exists_cons_of_ne_nil (by simp)
    rw [hrest'] at hmore
    have hnow' : Outcome complete (bad ⟨prev, c :: rest⟩) (k ⟨prev, c :: d :: rest'⟩) := by
      rw [← hrest']
      exact hnow
    rw [List.cons_append, hrest', Ptr.maxExpand, hsingle, ok_bind]
    by_cases hc : f c = true
    · rw [if_pos hc]
      refine (hmore.orElse hnow' fun h => hcomplete h _).congr ?_
      rw [or_comm, and_iff_right hc]
    · rw [if_neg hc]
      exact hnow'.congr (or_iff_left fun h => hc h.1).symm

theorem minExpand_outcome (hsingle : ∀ c, single c = .ok (f c))
    (hk : ∀ t, 0 ∉ t.rest → Outcome complete (bad t) (k (Ptr.ended t)))
    (hcomplete : complete → ∀ t, ¬ bad t) (prev : Byte) {rest : List Byte} (hrest : 0 ∉ rest) :
    Outcome complete (Repeated f Rep.star.Allows bad ⟨prev, rest⟩)
      (Ptr.minExpand single k prev (rest ++ [0])) := by
  induction rest generalizing prev with
  | nil =>
    have hend : Outcome complete (bad ⟨prev, []⟩ ∨ False)
        (Ptr.orElse (k (Ptr.ended ⟨prev, []⟩)) (.ok none)) :=
      (hk ⟨prev, []⟩ hrest).orElse (outcome_none not_false) fun _ h => h
    rw [or_false] at hend
    exact hend.congr (repeated_nil_iff.trans (and_iff_right trivial)).symm
  | cons c rest ih =>
    have hnow := hk ⟨prev, c :: rest⟩ hrest
    have hmore := ih c fun h => hrest (List.mem_cons_of_mem c h)
    refine Outcome.congr ?_ (repeated_star_iff prev c rest).symm
    obtain ⟨d, rest', hrest'⟩ : ∃ d rest', rest ++ [0] = d :: rest' :=
      List.exists_cons_of_ne_nil (by simp)
    rw [hrest'] at hmore
    have hnow' : Outcome complete (bad ⟨prev, c :: rest⟩) (k ⟨prev, c :: d :: rest'⟩) := by
      rw [← hrest']
      exact hnow
    rw [List.cons_append, hrest', Ptr.minExpand, hsingle, ok_bind]
    refine hnow'.orElse ?_ fun h ⟨_, u, v, _, _, _, hbad⟩ => hcomplete h _ hbad
    by_cases hc : f c = true
    · rw [if_pos hc]
      exact hmore.congr (and_iff_right hc).symm
    · rw [if_neg hc]
      exact outcome_none fun h => hc h.1

/-- The first byte meets the item, if there is one. -/
def firstMeets (f : Byte → Bool) (s : Subject) : Bool := s.rest.head?.any f

theorem repeated_outcome (hsingle : ∀ c, single c = .ok (f c))
    (hk : ∀ t, 0 ∉ t.rest → Outcome complete (bad t) (k (Ptr.ended t)))
    (hcomplete : complete → ∀ t, ¬ bad t) (rep : Rep) (hs : 0 ∉ s.rest) :
    Outcome complete (Repeated f rep.Allows bad s)
      (Ptr.repeated single k rep (firstMeets f s) (Ptr.ended s)) := by
  obtain ⟨prev, rest⟩ := s
  cases rep with
  | star => exact maxExpand_outcome hsingle hk hcomplete prev hs
  | minus => exact minExpand_outcome hsingle hk hcomplete prev hs
  | one =>
    rcases rest with _ | ⟨c, rest⟩
    · exact outcome_none fun h => absurd (repeated_nil_iff.mp h).1 (by simp [Rep.Allows])
    have hnext := hk ⟨c, rest⟩ fun h => hs (List.mem_cons_of_mem c h)
    have hiff : Repeated f Rep.one.Allows bad ⟨prev, c :: rest⟩ ↔
        f c = true ∧ bad ⟨c, rest⟩ := by
      rw [repeated_cons_iff, or_iff_right fun h => absurd h.1 (by simp [Rep.Allows]),
        repeated_zero_iff fun n => by simp [Rep.Allows]]
    refine Outcome.congr ?_ hiff.symm
    show Outcome complete _ (if f c = true then k (Ptr.ended ⟨c, rest⟩) else .ok none)
    split_ifs with hc
    · exact hnext.congr (and_iff_right hc).symm
    · exact outcome_none fun h => hc h.1
  | opt =>
    rcases rest with _ | ⟨c, rest⟩
    · exact (hk ⟨prev, []⟩ hs).congr
        (repeated_nil_iff.trans (and_iff_right (Nat.zero_le 1))).symm
    have hnow := hk ⟨prev, c :: rest⟩ hs
    have hnext := hk ⟨c, rest⟩ fun h => hs (List.mem_cons_of_mem c h)
    have hiff : Repeated f Rep.opt.Allows bad ⟨prev, c :: rest⟩ ↔
        f c = true ∧ bad ⟨c, rest⟩ ∨ bad ⟨prev, c :: rest⟩ := by
      rw [repeated_cons_iff, repeated_zero_iff fun n => by simp [Rep.Allows], or_comm,
        and_iff_right (show Rep.opt.Allows 0 from Nat.zero_le 1)]
    refine Outcome.congr ?_ hiff.symm
    show Outcome complete _ (if f c = true then
      Ptr.orElse (k (Ptr.ended ⟨c, rest⟩)) (k (Ptr.ended ⟨prev, c :: rest⟩))
        else k (Ptr.ended ⟨prev, c :: rest⟩))
    split_ifs with hc
    · exact (hnext.orElse hnow fun h => hcomplete h _).congr (by rw [and_iff_right hc])
    · exact hnow.congr (or_iff_right fun h => hc h.1).symm
  | plus =>
    rcases rest with _ | ⟨c, rest⟩
    · exact outcome_none fun h => absurd (repeated_nil_iff.mp h).1 (by simp [Rep.Allows])
    have hmore := maxExpand_outcome hsingle hk hcomplete c fun h => hs (List.mem_cons_of_mem c h)
    have hiff : Repeated f Rep.plus.Allows bad ⟨prev, c :: rest⟩ ↔
        f c = true ∧ Repeated f Rep.star.Allows bad ⟨c, rest⟩ := by
      rw [repeated_cons_iff, or_iff_right fun h => absurd h.1 (by simp [Rep.Allows])]
      exact and_congr_right fun _ =>
        ⟨fun h => h.mono fun _ _ => trivial, fun h => h.mono fun n _ => Nat.le_add_left 1 n⟩
    refine Outcome.congr ?_ hiff.symm
    show Outcome complete _
      (if f c = true then Ptr.maxExpand single k c (rest ++ [0]) else .ok none)
    split_ifs with hc
    · exact hmore.congr (and_iff_right hc).symm
    · exact outcome_none fun h => hc h.1

end

/-! ### Pieces -/

theorem not_unstopped_nil (t : Subject) : ¬ Unstopped [] t := by
  simp [Unstopped]

/-- The pieces match up to here, and what is left makes the match read on. -/
def OverrunsFrom (n : ℕ) (p : List Byte) (s : Subject) : Prop :=
  ∃ t, Ends (pieces n p).1 s t ∧ Unstopped (pieces n p).2 t

/-- What is left is nothing. -/
def Complete (n : ℕ) (p : List Byte) : Prop := (pieces n p).2 = []

theorem Complete.not_overrunsFrom {n : ℕ} (h : Complete n p) (s : Subject) :
    ¬ OverrunsFrom n p s := by
  rintro ⟨t, -, ht⟩
  rw [show (pieces n p).2 = [] from h] at ht
  exact not_unstopped_nil t ht

/-- At a rest that is malformed the match ends. -/
theorem outcome_of_pieces_nil {n : ℕ} (h : pieces n p = ([], p))
    (hx : x = .error .past ∧ Unstopped p s ∨ x = .ok none ∧ ¬ Unstopped p s) :
    Outcome (Complete n p) (OverrunsFrom n p s) x := by
  have hiff : OverrunsFrom n p s ↔ Unstopped p s := by
    rw [OverrunsFrom, h]
    constructor
    · rintro ⟨t, rfl, ht⟩
      exact ht
    · exact fun hs => ⟨s, rfl, hs⟩
  rcases hx with ⟨rfl, hs⟩ | ⟨rfl, hs⟩
  · exact outcome_past (hiff.mpr hs)
  · exact outcome_none (mt hiff.mp hs)

theorem balanceLoop_ptr (b e : Byte) (cont : ℕ) (rest : List Byte) :
    Ptr.balanceLoop b e cont (rest ++ [0]) = (balanceLoop b e cont rest).map Ptr.ended := by
  induction rest generalizing cont with
  | nil => rfl
  | cons c rest ih =>
    obtain ⟨d, rest', hrest'⟩ : ∃ d rest', rest ++ [0] = d :: rest' :=
      List.exists_cons_of_ne_nil (by simp)
    rw [List.cons_append, hrest', Ptr.balanceLoop, ← hrest', ih, ih, ih, balanceLoop]
    split_ifs <;> rfl

theorem matchbalance_ptr (hb : b ≠ 0) (s : Subject) (e : Byte) (r : List Byte) :
    Ptr.matchbalance (Ptr.ended s) (b :: e :: r) = .ok ((matchbalance s b e).map Ptr.ended) := by
  obtain ⟨prev, rest⟩ := s
  rw [Ptr.matchbalance, Ptr.deref_cons, ok_bind, if_pos hb, List.tail_cons, Ptr.deref_cons,
    matchbalance]
  rcases rest with _ | ⟨c, rest⟩
  · show (if 0 ≠ b then _ else _) = _
    rw [if_pos (Ne.symm hb)]
    rfl
  · show (if c ≠ b then _ else _) = _
    by_cases hc : c = b
    · rw [if_neg (not_not.mpr hc), List.head?_cons, if_pos (congrArg some hc)]
      show Except.ok (Ptr.balanceLoop b e 1 (rest ++ [0])) = _
      rw [balanceLoop_ptr]
      rfl
    · rw [if_pos hc, List.head?_cons, if_neg fun h => hc (Option.some.inj h)]
      rfl

/-- A part that is to be closed by the NUL is not. -/
theorem balanceLoop_zero (b : Byte) {cont : ℕ} {rest : List Byte} (hrest : 0 ∉ rest) :
    balanceLoop b 0 cont rest = none := by
  induction rest generalizing cont with
  | nil => rfl
  | cons c rest ih =>
    rw [List.mem_cons, not_or] at hrest
    rw [balanceLoop, if_neg (Ne.symm hrest.1), ih hrest.2, ih hrest.2, ite_self]

theorem ends_balance_iff {e : Byte} {ps : List Piece} :
    Ends (.balance b e :: ps) s t ↔ ∃ s', matchbalance s b e = some s' ∧ Ends ps s' t := by
  constructor
  · rintro ⟨u, v, hrest, hu, ht⟩
    refine ⟨⟨u.getLastD b, v⟩, matchbalance_eq_some_iff.mpr ⟨b :: u, hrest, ?_, u, rfl, hu⟩, ht⟩
    rw [List.getLastD_cons]
  · rintro ⟨s', hs', ht⟩
    obtain ⟨_, hrest, hprev, u, rfl, hu⟩ := matchbalance_eq_some_iff.mp hs'
    rw [List.getLastD_cons] at hprev
    refine ⟨u, s'.rest, hrest, hu, ?_⟩
    rw [← hprev]
    exact ht

theorem notMem_repetition (hp : 0 ∉ p) (hsplit : p = text ++ ep) : 0 ∉ (repetition ep).2 := by
  have hep : 0 ∉ ep := fun h => hp (hsplit ▸ List.mem_append_right text h)
  have htail : 0 ∉ ep.tail := fun h => hep (List.mem_of_mem_tail h)
  unfold repetition
  split_ifs <;> first | exact htail | exact hep

theorem meets_ended (single : Byte → Except Fault Bool) (prev d : Byte) (rest : List Byte) :
    Ptr.meets single (Ptr.ended ⟨prev, d :: rest⟩) = single d := by
  have hbefore : Ptr.before (Ptr.ended ⟨prev, d :: rest⟩) = true := by
    simp [Ptr.before, Ptr.ended]
  rw [Ptr.meets, if_pos hbefore]
  rfl

/-- An item, its repetition and the rest. -/
theorem dflt_outcome {k : Subject → List Byte → Except Fault (Option Subject)}
    {bad : Subject → Prop} (hp : 0 ∉ c :: p) (hend : classend (c :: p) = some (text, ep))
    (hk : ∀ t, 0 ∉ t.rest → Outcome complete (bad t) (k (Ptr.ended t) ((repetition ep).2 ++ [0])))
    (hcomplete : complete → ∀ t, ¬ bad t) (hs : 0 ∉ s.rest) :
    Outcome complete (Repeated (singlematch · text) (repetition ep).1.Allows bad s)
      (Ptr.dflt k (Ptr.ended s) (c :: p ++ [0])) := by
  obtain ⟨-, hsplit, -⟩ := classend_append hend []
  have hescape : ¬ (c = esc ∧ p = []) := by
    rintro ⟨rfl, rfl⟩
    exact absurd hend (by simp [classend])
  have hlen : (c :: p ++ [0]).length - (ep ++ [0]).length = text.length := by
    rw [hsplit]
    simp only [List.length_append]
    omega
  have hsingle : ∀ d, Ptr.singlematch d (c :: p ++ [0]) text.length = .ok (singlematch d text) := by
    intro d
    rw [hsplit, List.append_assoc]
    exact singlematch_ptr hend d _
  have hfirst : Ptr.meets (fun d => Ptr.singlematch d (c :: p ++ [0]) text.length) (Ptr.ended s) =
      .ok (firstMeets (singlematch · text) s) := by
    obtain ⟨prev, rest⟩ := s
    rcases rest with _ | ⟨d, rest⟩
    · rfl
    · rw [meets_ended]
      exact hsingle d
  obtain ⟨x, hx⟩ : ∃ x, Ptr.deref (ep ++ [0]) = .ok x := by
    cases ep with
    | nil => exact ⟨0, rfl⟩
    | cons x ep => exact ⟨x, rfl⟩
  rw [Ptr.dflt, classend_ptr hp, if_neg hescape, hend, endOf, ok_bind, hlen]
  dsimp only
  rw [hfirst, ok_bind, hx, ok_bind, repetition_append rfl]
  exact repeated_outcome hsingle hk hcomplete (repetition ep).1 hs

/-- The outcomes of shorter patterns. -/
def Settled (n : ℕ) : Prop :=
  ∀ p s, p.length < n → 0 ∉ p → 0 ∉ s.rest →
    Outcome (Complete n p) (OverrunsFrom n p s) (Ptr.matchAt n (Ptr.ended s) (p ++ [0]))

variable {n : ℕ}

theorem item_outcome (ih : Settled n) (hn : p.length < n) (hp : 0 ∉ c :: p) (hs : 0 ∉ s.rest)
    (hparen : ¬ (c = chr '(' ∨ c = chr ')')) (hb : ¬ (c = esc ∧ p.head? = some (chr 'b')))
    (hf : ¬ (c = esc ∧ p.head? = some (chr 'f'))) (hanchor : ¬ (c = chr '$' ∧ p = [])) :
    Outcome (Complete (n + 1) (c :: p)) (OverrunsFrom (n + 1) (c :: p) s)
      (Ptr.dflt (Ptr.matchAt n) (Ptr.ended s) (c :: p ++ [0])) := by
  have hpieces : pieces (n + 1) (c :: p) = match classend (c :: p) with
      | some (text, ep) =>
        (.item text (repetition ep).1 :: (pieces n (repetition ep).2).1,
          (pieces n (repetition ep).2).2)
      | none => ([], c :: p) := by
    rw [pieces, if_neg hparen, if_neg hb, if_neg hf, if_neg hanchor]
  rcases hend : classend (c :: p) with _ | ⟨text, ep⟩
  · rw [hend] at hpieces
    refine outcome_of_pieces_nil hpieces (.inl ⟨?_, ?_⟩)
    · rw [Ptr.dflt, classend_ptr hp]
      by_cases hescape : c = esc ∧ p = []
      · obtain ⟨rfl, rfl⟩ := hescape
        rw [if_pos ⟨rfl, rfl⟩, ok_bind]
        dsimp only
        obtain ⟨prev, rest⟩ := s
        rcases rest with _ | ⟨d, rest⟩
        · rfl
        · rw [meets_ended]
          rfl
      · rw [if_neg hescape, hend]
        rfl
    · -- only an escape or a set has no end
      rw [classend] at hend
      split_ifs at hend with hesc hopen hneg
      · have hnil : p = [] := by simpa using hend
        exact .inl (by rw [hesc, hnil])
      · exact .inr (.inl (congrArg some hopen))
      · exact .inr (.inl (congrArg some hopen))
  · rw [hend] at hpieces
    have hlt := length_classend hend
    have hle := length_repetition_le ep
    obtain ⟨-, hsplit, -⟩ := classend_append hend []
    rw [List.length_cons] at hlt
    have hq : 0 ∉ (repetition ep).2 := notMem_repetition hp hsplit
    have hmain := @dflt_outcome (c :: p).tail text ep s c (Complete n (repetition ep).2)
      (Ptr.matchAt n) (OverrunsFrom n (repetition ep).2) hp hend
      (fun t ht => ih _ t (by omega) hq ht) (fun h t => h.not_overrunsFrom t) hs
    rw [Complete, OverrunsFrom, hpieces]
    refine hmain.congr ⟨?_, ?_⟩
    · rintro ⟨u, v, hrest, hrep, hu, t, ht, hbad⟩
      exact ⟨t, ⟨u, v, hrest, hrep, hu, ht⟩, hbad⟩
    · rintro ⟨t, ⟨u, v, hrest, hrep, hu, ht⟩, hbad⟩
      exact ⟨u, v, hrest, hrep, hu, t, ht, hbad⟩

/-- What `match` does behind `\b`. -/
def balanceStep (n : ℕ) (s : Subject) (q : List Byte) : Except Fault (Option Subject) := do
  match ← Ptr.matchbalance s q with
  | none => return none
  | some s => Ptr.matchAt n s (q.drop 2)

theorem balance_outcome (ih : Settled n) (hn : p.length < n) (hp : 0 ∉ p) (hs : 0 ∉ s.rest) :
    Outcome (Complete (n + 1) (esc :: chr 'b' :: p)) (OverrunsFrom (n + 1) (esc :: chr 'b' :: p) s)
      (balanceStep n (Ptr.ended s) (p ++ [0])) := by
  have hstart : ∀ p, pieces (n + 1) (esc :: chr 'b' :: p) = match p with
      | b :: e :: q => (.balance b e :: (pieces n q).1, (pieces n q).2)
      | _ => ([], esc :: chr 'b' :: p) := by
    intro p
    rw [pieces, if_neg (by decide), if_pos ⟨rfl, rfl⟩]
    rfl
  rcases p with _ | ⟨b, _ | ⟨e, q⟩⟩
  · refine outcome_of_pieces_nil (hstart []) ?_
    obtain ⟨prev, rest⟩ := s
    rcases rest with _ | ⟨d, rest⟩
    · exact .inl ⟨rfl, by simp [Unstopped]⟩
    · have hd : d ≠ 0 := fun h => hs (by simp [h])
      have hbal : Ptr.matchbalance (Ptr.ended ⟨prev, d :: rest⟩) [0] = .ok none := by
        show (if d ≠ 0 then _ else _) = _
        rw [if_pos hd]
        rfl
      refine .inr ⟨?_, ?_⟩
      · rw [List.nil_append, balanceStep, hbal]
        rfl
      · simp only [Unstopped, reduceCtorEq, and_false, or_false]
        decide
  · have hb : b ≠ 0 := fun h => hp (by simp [h])
    have hbal : matchbalance s b 0 = none := by
      rw [matchbalance, balanceLoop_zero b fun h => hs (List.mem_of_mem_tail h), ite_self]
    refine outcome_of_pieces_nil (hstart [b]) (.inr ⟨?_, ?_⟩)
    · show balanceStep n (Ptr.ended s) [b, 0] = _
      rw [balanceStep, matchbalance_ptr hb, hbal]
      rfl
    · have hesc : ¬ esc = chr '[' := by decide
      have hf : ¬ chr 'f' = chr 'b' := by decide
      simp [Unstopped, hesc, hf]
  · have hb : b ≠ 0 := fun h => hp (by simp [h])
    have hq : 0 ∉ q := fun h => hp (by simp [h])
    rw [Complete, OverrunsFrom, hstart]
    show Outcome _ _ (balanceStep n (Ptr.ended s) (b :: e :: (q ++ [0])))
    rw [balanceStep, matchbalance_ptr hb, ok_bind]
    rcases hbal : matchbalance s b e with _ | s'
    · refine outcome_none ?_
      rintro ⟨t, ht, -⟩
      obtain ⟨s', hs', -⟩ := ends_balance_iff.mp ht
      rw [hbal] at hs'
      exact absurd hs' (by simp)
    · obtain ⟨w, hsplit, -⟩ := matchbalance_eq_some_iff.mp hbal
      have hrest : 0 ∉ s'.rest := fun h => hs (hsplit ▸ List.mem_append_right w h)
      refine (ih q s' (by simp at hn; omega) hq hrest).congr ?_
      refine exists_congr fun t => and_congr_left fun _ => ?_
      rw [ends_balance_iff, hbal]
      simp

/-- What `match` does behind `\f`. -/
def frontierStep (n : ℕ) (s : Subject) (q : List Byte) : Except Fault (Option Subject) := do
  let _ ← Ptr.deref q
  let ep ← Ptr.classend q
  if ← Ptr.matchbracketclass s.prev q (q.length - ep.length) then return none
  else
    let x ← Ptr.deref s.rest
    if ← Ptr.matchbracketclass x q (q.length - ep.length) then Ptr.matchAt n s ep else return none

/-- Without a bracket there is nothing between the ends of a set. -/
theorem matchbracketclass_ptr_short (c x y : Byte) (r : List Byte) {k : ℕ} (hk : k ≤ 2) :
    Ptr.matchbracketclass c (x :: y :: r) k = .ok (decide (y = chr '^')) := by
  have htwo : k - 2 = 0 := by omega
  have hthree : k - 3 = 0 := by omega
  rw [Ptr.matchbracketclass, List.tail_cons, Ptr.deref_cons, ok_bind, htwo, hthree,
    inBracket_ptr_zero, inBracket_ptr_zero]
  by_cases hy : y = chr '^'
  · rw [if_pos hy, decide_eq_true hy]
    rfl
  · rw [if_neg hy, decide_eq_false hy]

theorem deref_ended (s : Subject) : Ptr.deref (Ptr.ended s).rest = .ok (s.rest.headD 0) := by
  obtain ⟨prev, rest⟩ := s
  cases rest <;> rfl

/-- With a set behind it, a frontier looks at the byte before and at the next one. -/
theorem frontierStep_set (hp : 0 ∉ chr '[' :: q)
    (hend : classend (chr '[' :: q) = some (text, ep)) :
    frontierStep n (Ptr.ended s) (chr '[' :: q ++ [0]) =
      if matchbracketclass s.prev text = true then .ok none
      else if matchbracketclass (s.rest.headD 0) text = true then
        Ptr.matchAt n (Ptr.ended s) (ep ++ [0])
      else .ok none := by
  obtain ⟨-, hsplit, -⟩ := classend_append hend []
  have hlen : (chr '[' :: (q ++ [0])).length - (ep ++ [0]).length = text.length := by
    rw [← List.cons_append, hsplit]
    simp only [List.length_append]
    omega
  have hset : ∀ c, Ptr.matchbracketclass c (chr '[' :: (q ++ [0])) text.length =
      .ok (matchbracketclass c text) := by
    intro c
    rw [← List.cons_append, hsplit, List.append_assoc]
    exact matchbracketclass_ptr hend rfl c _
  rw [frontierStep, classend_ptr hp, List.cons_append, Ptr.deref_cons, ok_bind,
    if_neg (fun h => absurd h.1 (by decide)), hend, endOf, ok_bind, hlen, hset, ok_bind]
  show (if matchbracketclass s.prev text = true then _ else _) = _
  congr 1
  rw [deref_ended, ok_bind, hset, ok_bind]
  rfl

/-- Without a set a frontier is never met. -/
theorem frontierStep_of_ne {x : Byte} (hp : 0 ∉ x :: q) (hopen : x ≠ chr '[') :
    frontierStep n (Ptr.ended s) (x :: q ++ [0]) = .ok none := by
  obtain ⟨y, r, hy⟩ : ∃ y r, q ++ [0] = y :: r := List.exists_cons_of_ne_nil (by simp)
  obtain ⟨ep, hep, hk⟩ : ∃ ep, (if x = esc ∧ q = [] then .ok [] else endOf (classend (x :: q))) =
      (.ok ep : Except Fault (List Byte)) ∧ (x :: y :: r).length - ep.length ≤ 2 := by
    rw [← hy, classend]
    by_cases hescape : x = esc ∧ q = []
    · rw [if_pos hescape]
      exact ⟨[], rfl, by simp [hescape.2]⟩
    rw [if_neg hescape]
    by_cases hesc : x = esc
    · obtain ⟨z, q, rfl⟩ : ∃ z q', q = z :: q' :=
        List.exists_cons_of_ne_nil fun h => hescape ⟨hesc, h⟩
      rw [if_pos hesc]
      exact ⟨q ++ [0], rfl, by simp⟩
    · rw [if_neg hesc, if_neg hopen]
      exact ⟨q ++ [0], rfl, by simp⟩
  rw [frontierStep, classend_ptr hp, List.cons_append, Ptr.deref_cons, ok_bind, hep, ok_bind, hy,
    matchbracketclass_ptr_short _ _ _ _ hk, ok_bind, deref_ended, ok_bind,
    matchbracketclass_ptr_short _ _ _ _ hk, ok_bind]
  split_ifs <;> rfl

theorem frontier_outcome (ih : Settled n) (hn : p.length < n) (hp : 0 ∉ p) (hs : 0 ∉ s.rest) :
    Outcome (Complete (n + 1) (esc :: chr 'f' :: p)) (OverrunsFrom (n + 1) (esc :: chr 'f' :: p) s)
      (frontierStep n (Ptr.ended s) (p ++ [0])) := by
  have hstart : pieces (n + 1) (esc :: chr 'f' :: p) =
      match if p.head? = some (chr '[') then classend p else none with
      | some (text, ep) => (.frontier text :: (pieces n ep).1, (pieces n ep).2)
      | none => ([], esc :: chr 'f' :: p) := by
    rw [pieces, if_neg (by decide), if_neg (by simp; decide), if_pos ⟨rfl, rfl⟩]
    rfl
  rcases p with _ | ⟨x, q⟩
  · refine outcome_of_pieces_nil hstart (.inl ⟨rfl, ?_⟩)
    exact .inr (.inr (.inl rfl))
  by_cases hopen : x = chr '['
  · subst hopen
    rw [List.head?_cons, if_pos rfl] at hstart
    rcases hend : classend (chr '[' :: q) with _ | ⟨text, ep⟩
    · rw [hend] at hstart
      refine outcome_of_pieces_nil hstart (.inl ⟨?_, .inr (.inr (.inr (.inl ⟨q, rfl⟩)))⟩)
      rw [frontierStep, classend_ptr hp, List.cons_append, Ptr.deref_cons, ok_bind,
        if_neg (fun h => absurd h.1 (by decide)), hend]
      rfl
    rw [hend] at hstart
    have hlt := length_classend hend
    obtain ⟨-, hsplit, -⟩ := classend_append hend []
    have hep : 0 ∉ ep := fun h => hp (hsplit ▸ List.mem_append_right text h)
    rw [frontierStep_set hp hend, Complete, OverrunsFrom, hstart]
    split_ifs with hprev hmeets
    · refine outcome_none ?_
      rintro ⟨t, ⟨hnot, -⟩, -⟩
      rw [hprev] at hnot
      exact absurd hnot (by simp)
    · refine (ih ep s (by simp at hlt hn; omega) hep hs).congr ?_
      refine exists_congr fun t => and_congr_left fun _ => ?_
      rw [Ends, and_iff_right hmeets, and_iff_right (Bool.not_eq_true _ ▸ hprev)]
    · refine outcome_none ?_
      rintro ⟨t, ⟨-, hyes, -⟩, -⟩
      exact hmeets hyes
  · have hhead : ¬ (x :: q).head? = some (chr '[') := fun h => hopen (Option.some.inj h)
    rw [if_neg hhead] at hstart
    refine outcome_of_pieces_nil hstart (.inr ⟨frontierStep_of_ne hp hopen, ?_⟩)
    have hesc : ¬ esc = chr '[' := by decide
    simp [Unstopped, hesc, Ne.symm hopen]

/-- The first byte of a pattern with its NUL. -/
theorem head?_eq_some_iff {d : Byte} {r : List Byte} (hd : p ++ [0] = d :: r) (hb : b ≠ 0) :
    p.head? = some b ↔ d = b := by
  cases p with
  | nil =>
    obtain ⟨rfl, -⟩ := List.cons.inj hd
    exact iff_of_false (by simp) (Ne.symm hb)
  | cons x p =>
    obtain ⟨rfl, -⟩ := List.cons.inj hd
    rw [List.head?_cons, Option.some.injEq]

/-- A `$` at the end. -/
theorem anchor_outcome (n : ℕ) (s : Subject) :
    Outcome (Complete (n + 1) [chr '$']) (OverrunsFrom (n + 1) [chr '$'] s)
      (if Ptr.before (Ptr.ended s) = true then .ok none else .ok (some (Ptr.ended s))) := by
  have hpieces : pieces (n + 1) [chr '$'] = ([.anchor], []) := by
    rw [pieces, if_neg (by decide), if_neg (by decide), if_neg (by decide), if_pos ⟨rfl, rfl⟩]
  have hcomplete : Complete (n + 1) [chr '$'] := by rw [Complete, hpieces]
  split_ifs
  · exact outcome_none (hcomplete.not_overrunsFrom s)
  · exact outcome_some (hcomplete.not_overrunsFrom s) hcomplete _

theorem settled (n : ℕ) : Settled n := by
  induction n with
  | zero => exact fun p s hn => absurd hn (Nat.not_lt_zero _)
  | succ n ih =>
    intro p s hn hp hs
    rcases p with _ | ⟨c, p⟩
    · exact outcome_some (fun h => (show Complete (n + 1) [] from rfl).not_overrunsFrom s h) rfl _
    rw [List.length_cons] at hn
    have hc : c ≠ 0 := fun h => hp (by simp [h])
    have hp' : 0 ∉ p := fun h => hp (List.mem_cons_of_mem c h)
    have hlen : p.length < n := by omega
    rw [List.cons_append, Ptr.matchAt, Ptr.deref_cons, ok_bind]
    by_cases hparen : c = chr '(' ∨ c = chr ')'
    · have hpieces : pieces (n + 1) (c :: p) = pieces n p := by rw [pieces, if_pos hparen]
      rw [if_pos hparen, Complete, OverrunsFrom, hpieces]
      exact ih p s hlen hp' hs
    rw [if_neg hparen]
    by_cases hesc : c = esc
    · subst hesc
      obtain ⟨d, r, hd⟩ : ∃ d r, p ++ [0] = d :: r := List.exists_cons_of_ne_nil (by simp)
      have hhead : ∀ b : Byte, b ≠ 0 → (p.head? = some b ↔ d = b) :=
        fun b => head?_eq_some_iff hd
      rw [if_pos rfl, List.tail_cons, hd, Ptr.deref_cons, ok_bind, ← hd]
      by_cases hb : d = chr 'b'
      · obtain ⟨q, rfl⟩ := List.head?_eq_some_iff.mp ((hhead _ (by decide)).mpr hb)
        rw [if_pos hb]
        exact balance_outcome ih (by simp at hlen; omega) (fun h => hp' (by simp [h])) hs
      rw [if_neg hb]
      by_cases hf : d = chr 'f'
      · obtain ⟨q, rfl⟩ := List.head?_eq_some_iff.mp ((hhead _ (by decide)).mpr hf)
        rw [if_pos hf]
        exact frontier_outcome ih (by simp at hlen; omega) (fun h => hp' (by simp [h])) hs
      rw [if_neg hf, ← List.cons_append]
      refine item_outcome ih hlen hp hs hparen ?_ ?_ fun h => absurd h.1 (by decide)
      · exact fun h => hb ((hhead _ (by decide)).mp h.2)
      · exact fun h => hf ((hhead _ (by decide)).mp h.2)
    rw [if_neg hesc, if_neg hc]
    by_cases hdollar : c = chr '$'
    · subst hdollar
      rw [if_pos rfl]
      rcases p with _ | ⟨d, p⟩
      · exact anchor_outcome n s
      · have hd : d ≠ 0 := fun h => hp' (by simp [h])
        rw [List.tail_cons, List.cons_append, Ptr.deref_cons, ok_bind, if_neg hd]
        exact item_outcome ih hlen hp hs hparen (fun h => hesc h.1) (fun h => hesc h.1)
          fun h => absurd h.2 (by simp)
    rw [if_neg hdollar, ← List.cons_append]
    exact item_outcome ih hlen hp hs hparen (fun h => hesc h.1) (fun h => hesc h.1)
      fun h => hdollar h.1

/-- **Nothing is read behind a NUL**, exactly if the match does not come to what makes it read
on. -/
theorem harmless_iff {p s : List Byte} (hp : 0 ∉ p) (hs : 0 ∉ s) :
    Harmless s p ↔ ¬ Overruns s p := by
  have hmain := settled (p.length + 1) p ⟨0, s⟩ (Nat.lt_succ_self _) hp hs
  have hread : readingMatch s p = Ptr.matchAt (p.length + 1) (Ptr.ended ⟨0, s⟩) (p ++ [0]) := rfl
  rw [Harmless, hread]
  rcases hmain with ⟨hpast, hover⟩ | ⟨o, ho, hover, -⟩
  · rw [hpast]
    exact iff_of_false (by simp) (not_not.mpr hover)
  · exact iff_of_true ⟨o, ho⟩ hover

end

theorem harmless_iff_images : Harmless (bytes "/images/a") (bytes "/images/(.*") ↔
    ¬ Overruns (bytes "/images/a") (bytes "/images/(.*") :=
  harmless_iff (by decide) (by decide)

/-- An open set makes the match read on. -/
theorem not_harmless_open : ¬ ∀ s p : List Byte, 0 ∉ p → 0 ∉ s → Harmless s p := by
  intro h
  obtain ⟨r, hr⟩ := h (bytes "a") (bytes "[") (by decide) (by decide)
  have hpast : readingMatch (bytes "a") (bytes "[") = .error .past := by decide
  rw [hpast] at hr
  exact absurd hr (by simp)

end Mongrel2.Pattern

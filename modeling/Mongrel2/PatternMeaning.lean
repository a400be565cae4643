/-
What a pattern means (`pattern.c`, `docs/manual/managing.tex`).

* `Elem` — the elements of the pattern language, and `Spells` — how a pattern spells them;
* `Matches` — which part of a subject a sequence of elements matches, where it stands;
* `Implements` — a matcher finds an end of such a part, whenever there is one;
* **`patternMatch_iff`** — `pattern_match` does, for every well-formed pattern.

Design notes: a set is read from the left, an escape as two bytes and `x-y` as three, so that
the second backslash of `[a-\\]` has nothing to escape and that pattern is not well formed.
Bytes in a range are compared as `char`, which is signed.
-/
import Mongrel2.PrefixPattern

namespace Mongrel2.Pattern

open ByteStream HttpParser

/-- `pattern_match`. -/
def patternMatch (s pattern : List Byte) : Option Subject := matchFrom ⟨0, s⟩ pattern

/-! ### The language -/

/-- A part of a set. -/
inductive SetItem
  | byte (c : Byte)
  | range (x y : Byte)
  | escape (c : Byte)
  deriving DecidableEq

/-- What stands for one byte. -/
inductive Single
  | byte (c : Byte)
  | any
  | escape (c : Byte)
  | set (negated : Bool) (items : List SetItem)
  deriving DecidableEq

/-- An element of a pattern. -/
inductive Elem
  | item (x : Single) (rep : Rep)
  | balance (b e : Byte)
  | frontier (negated : Bool) (items : List SetItem)
  | anchor
  deriving DecidableEq

/-! ### How it is spelled -/

/-- What lies between the brackets of a set, as its parts. -/
inductive SpellsItems : List Byte → List SetItem → Prop
  | nil : SpellsItems [] []
  | escape {x : Byte} {body : List Byte} {items : List SetItem} (h : SpellsItems body items) :
      SpellsItems (esc :: x :: body) (.escape x :: items)
  | range {x y : Byte} {body : List Byte} {items : List SetItem} (hesc : x ≠ esc)
      (h : SpellsItems body items) : SpellsItems (x :: chr '-' :: y :: body) (.range x y :: items)
  | byte {x : Byte} {body : List Byte} {items : List SetItem} (hesc : x ≠ esc)
      (hrange : ∀ y rest, body ≠ chr '-' :: y :: rest) (h : SpellsItems body items) :
      SpellsItems (x :: body) (.byte x :: items)

/-- Bytes of a set behind its first, among them no `]` that is not escaped. -/
inductive Inner : List Byte → Prop
  | nil : Inner []
  | escape {x : Byte} {body : List Byte} (h : Inner body) : Inner (esc :: x :: body)
  | byte {x : Byte} {body : List Byte} (hesc : x ≠ esc) (hclose : x ≠ chr ']')
      (h : Inner body) : Inner (x :: body)

/-- What can lie between the brackets of a set; a `]` can only come first. -/
inductive Enclosed : List Byte → Prop
  | escape {x : Byte} {body : List Byte} (h : Inner body) : Enclosed (esc :: x :: body)
  | byte {x : Byte} {body : List Byte} (hesc : x ≠ esc) (h : Inner body) : Enclosed (x :: body)

/-- A set with its brackets. -/
inductive SpellsSet : List Byte → Bool → List SetItem → Prop
  | plain {body : List Byte} {items : List SetItem} (hbody : Enclosed body)
      (hfirst : body.head? ≠ some (chr '^')) (hitems : SpellsItems body items) :
      SpellsSet (chr '[' :: (body ++ [chr ']'])) false items
  | negated {body : List Byte} {items : List SetItem} (hbody : Enclosed body)
      (hitems : SpellsItems body items) :
      SpellsSet (chr '[' :: chr '^' :: (body ++ [chr ']'])) true items

inductive SpellsSingle : List Byte → Single → Prop
  | byte {c : Byte} (hdot : c ≠ chr '.') (hesc : c ≠ esc) (hset : c ≠ chr '[') :
      SpellsSingle [c] (.byte c)
  | any : SpellsSingle [chr '.'] .any
  | escape (c : Byte) : SpellsSingle [esc, c] (.escape c)
  | set {text : List Byte} {negated : Bool} {items : List SetItem}
      (h : SpellsSet text negated items) : SpellsSingle text (.set negated items)

/-- The mark of a repetition. -/
def Rep.text : Rep → List Byte
  | .one => []
  | .opt => [chr '?']
  | .star => [chr '*']
  | .plus => [chr '+']
  | .minus => [chr '-']

/-- A pattern spells a sequence of elements. -/
inductive Spells : List Byte → List Elem → Prop
  | nil : Spells [] []
  | paren {c : Byte} {p : List Byte} {es : List Elem} (hc : c = chr '(' ∨ c = chr ')')
      (h : Spells p es) : Spells (c :: p) es
  | balance {b e : Byte} {p : List Byte} {es : List Elem} (h : Spells p es) :
      Spells (esc :: chr 'b' :: b :: e :: p) (.balance b e :: es)
  | frontier {text p : List Byte} {negated : Bool} {items : List SetItem} {es : List Elem}
      (hset : SpellsSet text negated items) (h : Spells p es) :
      Spells (esc :: chr 'f' :: (text ++ p)) (.frontier negated items :: es)
  | anchor : Spells [chr '$'] [.anchor]
  | item {c : Byte} {q text p : List Byte} {x : Single} {rep : Rep} {es : List Elem}
      (hparen : ¬ (c = chr '(' ∨ c = chr ')')) (hbalance : ¬ (c = esc ∧ q.head? = some (chr 'b')))
      (hfrontier : ¬ (c = esc ∧ q.head? = some (chr 'f'))) (hanchor : ¬ (c = chr '$' ∧ q = []))
      (hx : SpellsSingle text x) (hone : rep = .one → (repetition p).1 = .one)
      (hsplit : c :: q = text ++ (rep.text ++ p)) (h : Spells p es) :
      Spells (c :: q) (.item x rep :: es)

/-! ### What it means -/

/-- The classes by their letters. -/
def classOf : Char → Option (Byte → Bool)
  | 'a' => some isAlpha
  | 'c' => some isCntrl
  | 'd' => some isDigit
  | 'l' => some isLower
  | 'p' => some isPunct
  | 's' => some isSpace
  | 'u' => some isUpper
  | 'w' => some isAlnum
  | 'x' => some isXdigit
  | 'z' => some (· == 0)
  | _ => none

/-- The bytes that an escape stands for: those of a class, the others for a capital letter, or
the byte itself. -/
def InEscape (x c : Byte) : Prop :=
  match classOf (Char.ofNat (toLower x).toNat) with
  | some members => members c = !isUpper x
  | none => c = x

def SetItem.Mem (c : Byte) : SetItem → Prop
  | .byte x => c = x
  | .range x y => x.toInt8 ≤ c.toInt8 ∧ c.toInt8 ≤ y.toInt8
  | .escape x => InEscape x c

def InSet (negated : Bool) (items : List SetItem) (c : Byte) : Prop :=
  (∃ i ∈ items, i.Mem c) ↔ negated = false

def Single.Mem (c : Byte) : Single → Prop
  | .byte x => c = x
  | .any => True
  | .escape x => InEscape x c
  | .set negated items => InSet negated items c

/-- How many bytes a repetition allows. -/
def Rep.Allows (n : ℕ) : Rep → Prop
  | .one => n = 1
  | .opt => n ≤ 1
  | .star => True
  | .plus => 1 ≤ n
  | .minus => True

/-- Each `e` closes, and each other `b` opens. -/
def weight (b e c : Byte) : ℤ := if c = e then -1 else if c = b then 1 else 0

/-- What is open behind a string, where `n` were before. -/
def level (b e : Byte) (n : ℤ) (u : List Byte) : ℤ := n + (u.map (weight b e)).sum

/-- What is open is closed at the end of a string, and not before. -/
def Closes (b e : Byte) (n : ℤ) (u : List Byte) : Prop :=
  level b e n u = 0 ∧ ∀ v, v <+: u → v ≠ u → 0 < level b e n v

/-- A part of the subject, between the byte before it and what follows it, is matched by an
element. -/
def Elem.Matches (prev : Byte) (w rest : List Byte) : Elem → Prop
  | .item x rep => rep.Allows w.length ∧ ∀ c ∈ w, x.Mem c
  | .balance b e => ∃ u, w = b :: u ∧ Closes b e 1 u
  | .frontier negated items => w = [] ∧ ¬ InSet negated items prev ∧
      InSet negated items (rest.headD 0)
  | .anchor => w = [] ∧ rest = []

/-- A part of the subject is matched by a sequence of elements. -/
def Matches (prev : Byte) (w rest : List Byte) : List Elem → Prop
  | [] => w = []
  | e :: es => ∃ u v, w = u ++ v ∧ e.Matches prev u (v ++ rest) ∧
      Matches (u.getLastD prev) v rest es

/-- A matcher finds the end of a part that is matched, and finds one whenever there is one. -/
structure Implements (k : Subject → Option Subject) (es : List Elem) : Prop where
  sound : ∀ s t, k s = some t → ∃ w, s.rest = w ++ t.rest ∧ t.prev = w.getLastD s.prev ∧
    Matches s.prev w t.rest es
  complete : ∀ prev w rest, Matches prev w rest es → (k ⟨prev, w ++ rest⟩).isSome = true

section

variable {p q body text ep : List Byte} {items : List SetItem} {negated : Bool} {es : List Elem}
  {k : Subject → Option Subject} {s t : Subject} {b e c : Byte}

/-! ### Sets -/

theorem matchClass_iff (c x : Byte) : matchClass c x = true ↔ InEscape x c := by
  have hclass : matchClass c x = match classOf (Char.ofNat (toLower x).toNat) with
      | some members => if isLower x then members c else !members c
      | none => x == c := by
    rw [matchClass]
    generalize Char.ofNat (toLower x).toNat = l
    unfold classOf
    split
    all_goals
      rename_i hletter
      split at hletter <;> simp_all
  have hcapital : ∀ y : Byte, (classOf (Char.ofNat (toLower y).toNat)).isSome = true →
      isLower y = !isUpper y := by
    intro y
    obtain ⟨y, rfl⟩ : ∃ n : Fin 256, y = UInt8.ofFin n := ⟨y.toFin, by simp⟩
    revert y
    decide +kernel
  rw [hclass, InEscape]
  cases hx : classOf (Char.ofNat (toLower x).toNat) with
  | none => rw [beq_iff_eq, eq_comm]
  | some members =>
    have hlower := hcapital x (by rw [hx]; rfl)
    show (if isLower x = true then members c else !members c) = true ↔ members c = !isUpper x
    rw [hlower]
    cases isUpper x <;> cases members c <;> decide

theorem inBracket_escape (c x : Byte) (body : List Byte) :
    inBracket c (esc :: x :: body) = (matchClass c x || inBracket c body) := by
  cases body with
  | nil => simp [inBracket]
  | cons y body => rw [inBracket, if_pos rfl]

theorem inBracket_range {x : Byte} (hesc : x ≠ esc) (c y : Byte) (body : List Byte) :
    inBracket c (x :: chr '-' :: y :: body) =
      (decide (x.toInt8 ≤ c.toInt8) && decide (c.toInt8 ≤ y.toInt8) || inBracket c body) := by
  rw [inBracket, if_neg hesc, if_pos rfl]

theorem inBracket_byte {x : Byte} (hesc : x ≠ esc) (hrange : ∀ y rest, body ≠ chr '-' :: y :: rest)
    (c : Byte) : inBracket c (x :: body) = (x == c || inBracket c body) := by
  rcases body with _ | ⟨y, _ | ⟨z, body⟩⟩
  · simp [inBracket, hesc]
  · simp [inBracket, hesc]
  · have hy : y ≠ chr '-' := fun hy => hrange z body (by rw [hy])
    rw [inBracket, if_neg hesc, if_neg hy]

theorem inBracket_iff (h : SpellsItems body items) (c : Byte) :
    inBracket c body = true ↔ ∃ i ∈ items, i.Mem c := by
  induction h with
  | nil => simp [inBracket]
  | escape _ ih =>
    rw [inBracket_escape, Bool.or_eq_true, matchClass_iff, ih, List.exists_mem_cons_iff]
    rfl
  | range hesc _ ih =>
    rw [inBracket_range hesc, Bool.or_eq_true, ih, List.exists_mem_cons_iff, Bool.and_eq_true,
      decide_eq_true_iff, decide_eq_true_iff]
    rfl
  | @byte x body items hesc hrange _ ih =>
    rw [inBracket_byte hesc hrange, Bool.or_eq_true, ih, List.exists_mem_cons_iff, beq_iff_eq,
      eq_comm]
    rfl

theorem bracketEnd_inner (h : Inner body) (ep : List Byte) :
    (∀ x, x ≠ esc → bracketEnd (x :: (body ++ chr ']' :: ep)) =
        some (x :: (body ++ [chr ']']), ep)) ∧
      ∀ x, bracketEnd (esc :: x :: (body ++ chr ']' :: ep)) =
        some (esc :: x :: (body ++ [chr ']']), ep) := by
  induction h with
  | nil =>
    constructor
    · intro x hx
      rw [List.nil_append, bracketEnd, if_neg hx, if_pos rfl]
      rfl
    · intro x
      rw [List.nil_append, bracketEnd, if_pos rfl, List.head?_cons, if_pos rfl]
      rfl
  | @escape y body _ ih =>
    have hend := ih.2 y
    constructor
    · intro x hx
      show bracketEnd (x :: esc :: y :: (body ++ chr ']' :: ep)) = _
      rw [bracketEnd, if_neg hx, if_neg (by decide), hend]
      rfl
    · intro x
      show bracketEnd (esc :: x :: esc :: y :: (body ++ chr ']' :: ep)) = _
      rw [bracketEnd, if_pos rfl, List.head?_cons, if_neg (by decide), hend]
      rfl
  | @byte y body hesc hclose _ ih =>
    have hend := ih.1 y hesc
    constructor
    · intro x hx
      show bracketEnd (x :: y :: (body ++ chr ']' :: ep)) = _
      rw [bracketEnd, if_neg hx, if_neg hclose, hend]
      rfl
    · intro x
      have hhead : ¬ some y = some (chr ']') := fun h => hclose (Option.some.inj h)
      show bracketEnd (esc :: x :: y :: (body ++ chr ']' :: ep)) = _
      rw [bracketEnd, if_pos rfl, List.head?_cons, if_neg hhead, hend]
      rfl

theorem bracketEnd_enclosed (h : Enclosed body) (ep : List Byte) :
    bracketEnd (body ++ chr ']' :: ep) = some (body ++ [chr ']'], ep) := by
  rcases h with ⟨hinner⟩ | ⟨hesc, hinner⟩
  · exact (bracketEnd_inner hinner ep).2 _
  · exact (bracketEnd_inner hinner ep).1 _ hesc

/-- A set ends where it is closed, and its bytes are those that it says. -/
theorem SpellsSet.spec (h : SpellsSet text negated items) :
    text.head? = some (chr '[') ∧ (∀ p, classend (text ++ p) = some (text, p)) ∧
      ∀ c, matchbracketclass c text = true ↔ InSet negated items c := by
  rcases h with @⟨body, items, hbody, hfirst, hitems⟩ | @⟨body, items, hbody, hitems⟩
  · have hne : body ≠ [] := by rcases hbody with _ | _ <;> exact List.cons_ne_nil _ _
    have hhead : ∀ p, ¬ (body ++ p).head? = some (chr '^') := by
      intro p
      rwa [List.head?_append_of_ne_nil _ hne]
    refine ⟨rfl, fun p => ?_, fun c => ?_⟩
    · rw [List.cons_append, List.append_assoc, List.singleton_append, classend,
        if_neg (by decide), if_pos rfl, if_neg (hhead _), bracketEnd_enclosed hbody]
      rfl
    · rw [matchbracketclass, List.tail_cons, List.dropLast_concat, if_neg hfirst,
        inBracket_iff hitems, InSet, iff_true_right rfl]
  · refine ⟨rfl, fun p => ?_, fun c => ?_⟩
    · have hend := bracketEnd_enclosed hbody p
      rw [List.cons_append, List.cons_append, List.append_assoc, List.singleton_append, classend,
        if_neg (by decide), if_pos rfl, List.head?_cons, if_pos rfl, List.tail_cons, hend]
      rfl
    · have hnot : (¬ ∃ i ∈ items, i.Mem c) ↔ InSet true items c := by simp [InSet]
      have hdrop : (chr '^' :: (body ++ [chr ']'])).dropLast = chr '^' :: body :=
        @List.dropLast_concat _ (chr '^' :: body) (chr ']')
      rw [matchbracketclass, List.tail_cons, hdrop, List.head?_cons, if_pos rfl, List.tail_cons,
        Bool.not_eq_true', ← Bool.not_eq_true, inBracket_iff hitems, hnot]

/-- What stands for one byte ends where it is complete, and stands for what it says. -/
theorem SpellsSingle.spec {x : Single} (h : SpellsSingle text x) :
    text ≠ [] ∧ (∀ p, classend (text ++ p) = some (text, p)) ∧
      ∀ c, singlematch c text = true ↔ x.Mem c := by
  rcases h with ⟨hdot, hesc, hset⟩ | _ | c | hset
  · refine ⟨List.cons_ne_nil _ _, fun p => ?_, fun c => ?_⟩
    · rw [List.singleton_append, classend, if_neg hesc, if_neg hset]
    · rw [singlematch, if_neg hdot, if_neg hesc, if_neg hset, beq_iff_eq, eq_comm]
      rfl
  · exact ⟨List.cons_ne_nil _ _, fun p => rfl, fun c => iff_of_true rfl trivial⟩
  · refine ⟨List.cons_ne_nil _ _, fun p => rfl, fun d => ?_⟩
    rw [singlematch, if_neg (by decide), if_pos rfl]
    exact matchClass_iff d c
  · obtain ⟨hhead, hend, hmem⟩ := hset.spec
    obtain ⟨body, rfl⟩ := List.head?_eq_some_iff.mp hhead
    refine ⟨List.cons_ne_nil _ _, hend, fun c => ?_⟩
    rw [singlematch, if_neg (by decide), if_neg (by decide), if_pos rfl]
    exact hmem c

/-! ### Repetitions -/

/-- As many bytes as are allowed, each of them met by the item, and then what follows. -/
def Repeated (f : Byte → Bool) (allows : ℕ → Prop) (after : Subject → Prop) (s : Subject) : Prop :=
  ∃ u v, s.rest = u ++ v ∧ allows u.length ∧ (∀ c ∈ u, f c = true) ∧ after ⟨u.getLastD s.prev, v⟩

section

variable {f : Byte → Bool} {allows allows' : ℕ → Prop} {after : Subject → Prop} {prev c : Byte}
  {rest : List Byte}

theorem Repeated.now (hzero : allows 0) (h : after s) : Repeated f allows after s :=
  ⟨[], s.rest, rfl, hzero, by simp, h⟩

theorem Repeated.cons (hc : f c = true)
    (h : Repeated f (fun n => allows (n + 1)) after ⟨c, rest⟩) :
    Repeated f allows after ⟨prev, c :: rest⟩ := by
  obtain ⟨u, v, hsplit, hlen, hu, hafter⟩ := h
  obtain rfl : rest = u ++ v := hsplit
  refine ⟨c :: u, v, rfl, hlen, List.forall_mem_cons.mpr ⟨hc, hu⟩, ?_⟩
  rw [List.getLastD_cons]
  exact hafter

theorem Repeated.mono (h : Repeated f allows after s) (hallows : ∀ n, allows n → allows' n) :
    Repeated f allows' after s := by
  obtain ⟨u, v, hsplit, hlen, hu, hafter⟩ := h
  exact ⟨u, v, hsplit, hallows _ hlen, hu, hafter⟩

theorem repeated_nil_iff :
    Repeated f allows after ⟨prev, []⟩ ↔ allows 0 ∧ after ⟨prev, []⟩ := by
  constructor
  · rintro ⟨u, v, heq, hzero, -, hafter⟩
    obtain ⟨rfl, rfl⟩ := List.append_eq_nil_iff.mp heq.symm
    exact ⟨hzero, hafter⟩
  · exact fun h => .now h.1 h.2

/-- A repetition takes the first byte, or is over. -/
theorem repeated_cons_iff :
    Repeated f allows after ⟨prev, c :: rest⟩ ↔ allows 0 ∧ after ⟨prev, c :: rest⟩ ∨
      f c = true ∧ Repeated f (fun n => allows (n + 1)) after ⟨c, rest⟩ := by
  constructor
  · rintro ⟨u, v, heq, hlen, hu, hafter⟩
    rcases u with _ | ⟨d, u⟩
    · obtain rfl : c :: rest = v := heq
      exact .inl ⟨hlen, hafter⟩
    · obtain ⟨rfl, rfl⟩ := List.cons.inj heq
      rw [List.forall_mem_cons] at hu
      rw [List.getLastD_cons] at hafter
      exact .inr ⟨hu.1, u, v, rfl, hlen, hu.2, hafter⟩
  · rintro (⟨hzero, hafter⟩ | ⟨hc, h⟩)
    · exact .now hzero hafter
    · exact .cons hc h

theorem repeated_zero_iff (hallows : ∀ n, allows n ↔ n = 0) :
    Repeated f allows after s ↔ after s := by
  constructor
  · rintro ⟨u, v, heq, hlen, -, hafter⟩
    obtain rfl := List.length_eq_zero_iff.mp ((hallows _).mp hlen)
    obtain rfl : s.rest = v := heq
    exact hafter
  · exact .now ((hallows 0).mpr rfl)

end

/-- The longest repetition that the rest can follow. -/
theorem maxExpand_sound {prev : Byte} {rest : List Byte}
    (h : maxExpand k text prev rest = some t) :
    Repeated (singlematch · text) Rep.star.Allows (fun s => k s = some t) ⟨prev, rest⟩ := by
  induction rest generalizing prev with
  | nil => exact .now trivial h
  | cons c rest ih =>
    rw [maxExpand] at h
    split_ifs at h with hc
    · rcases hmore : maxExpand k text c rest with _ | t'
      · rw [hmore] at h
        exact .now trivial h
      · rw [hmore] at h
        obtain rfl : t' = t := Option.some.inj h
        exact .cons hc (ih hmore)
    · exact .now trivial h

theorem maxExpand_complete {prev : Byte} {rest : List Byte}
    (h : Repeated (singlematch · text) Rep.star.Allows (fun s => (k s).isSome = true)
      ⟨prev, rest⟩) : (maxExpand k text prev rest).isSome = true := by
  induction rest generalizing prev with
  | nil => exact (repeated_nil_iff.mp h).2
  | cons c rest ih =>
    rw [maxExpand]
    rcases repeated_cons_iff.mp h with ⟨-, hk⟩ | ⟨hc, hmore⟩
    · split_ifs
      · exact (isSome_orElse _ _).mpr (.inr hk)
      · exact hk
    · rw [if_pos hc, isSome_orElse]
      exact .inl (ih hmore)

/-- The shortest repetition that the rest can follow. -/
theorem minExpand_sound {prev : Byte} {rest : List Byte}
    (h : minExpand k text prev rest = some t) :
    Repeated (singlematch · text) Rep.minus.Allows (fun s => k s = some t) ⟨prev, rest⟩ := by
  induction rest generalizing prev with
  | nil => exact .now trivial h
  | cons c rest ih =>
    rw [minExpand] at h
    rcases hnow : k ⟨prev, c :: rest⟩ with _ | t'
    · rw [hnow] at h
      have hmore : (if singlematch c text = true then minExpand k text c rest else none) = some t :=
        h
      split_ifs at hmore with hc
      exact .cons hc (ih hmore)
    · rw [hnow] at h
      obtain rfl : t' = t := Option.some.inj h
      exact .now trivial hnow

/-- An item with its repetition, and then the rest. -/
theorem dflt_sound {rep : Rep} (h : dflt k text rep s = some t) :
    Repeated (singlematch · text) rep.Allows (fun s => k s = some t) s := by
  obtain ⟨prev, rest⟩ := s
  cases rep with
  | star => exact maxExpand_sound h
  | minus => exact minExpand_sound h
  | one =>
    obtain ⟨c, v, hrest, hc, -⟩ :=
      (isSome_dflt_one k text ⟨prev, rest⟩).mp (Option.isSome_iff_exists.mpr ⟨t, h⟩)
    obtain rfl : rest = c :: v := hrest
    have hstep : (if singlematch c text = true then k ⟨c, v⟩ else none) = some t := h
    rw [if_pos hc] at hstep
    exact .cons hc (.now rfl hstep)
  | opt =>
    rcases rest with _ | ⟨c, rest⟩
    · exact .now (Nat.zero_le 1) h
    have hstep : (if singlematch c text = true then
        (k ⟨c, rest⟩).orElse fun _ => k ⟨prev, c :: rest⟩ else k ⟨prev, c :: rest⟩) = some t := h
    split_ifs at hstep with hc
    · rcases hnext : k ⟨c, rest⟩ with _ | t'
      · rw [hnext] at hstep
        exact .now (Nat.zero_le 1) hstep
      · rw [hnext] at hstep
        obtain rfl : t' = t := Option.some.inj hstep
        exact .cons hc (.now (le_refl 1) hnext)
    · exact .now (Nat.zero_le 1) hstep
  | plus =>
    rcases rest with _ | ⟨c, rest⟩
    · exact absurd h (by simp [dflt])
    have hstep : (if singlematch c text = true then maxExpand k text c rest else none) = some t := h
    split_ifs at hstep with hc
    exact .cons hc ((maxExpand_sound hstep).mono fun n _ => Nat.le_add_left 1 n)

theorem dflt_complete {rep : Rep}
    (h : Repeated (singlematch · text) rep.Allows (fun s => (k s).isSome = true) s) :
    (dflt k text rep s).isSome = true := by
  obtain ⟨prev, rest⟩ := s
  cases rep with
  | star => exact maxExpand_complete h
  | minus =>
    obtain ⟨u, v, hsplit, -, hu, hk⟩ := h
    exact (isSome_minExpand k text prev rest).mpr ⟨u, v, hsplit, hu, hk⟩
  | one =>
    obtain ⟨u, v, hsplit, hlen, hu, hk⟩ := h
    obtain ⟨c, rfl⟩ := List.length_eq_one_iff.mp hlen
    exact (isSome_dflt_one k text _).mpr ⟨c, v, hsplit, hu c (by simp), hk⟩
  | opt =>
    rcases rest with _ | ⟨c, rest⟩
    · exact (repeated_nil_iff.mp h).2
    have hstep : dflt k text .opt ⟨prev, c :: rest⟩ = if singlematch c text = true then
      (k ⟨c, rest⟩).orElse fun _ => k ⟨prev, c :: rest⟩ else k ⟨prev, c :: rest⟩ := rfl
    rw [hstep]
    rcases repeated_cons_iff.mp h with ⟨-, hk⟩ | ⟨hc, hnext⟩
    · split_ifs
      · exact (isSome_orElse _ _).mpr (.inr hk)
      · exact hk
    · rw [if_pos hc, isSome_orElse]
      exact .inl ((repeated_zero_iff fun n => by simp [Rep.Allows]).mp hnext)
  | plus =>
    rcases rest with _ | ⟨c, rest⟩
    · exact absurd (repeated_nil_iff.mp h).1 (by simp [Rep.Allows])
    have hstep : dflt k text .plus ⟨prev, c :: rest⟩ =
      if singlematch c text = true then maxExpand k text c rest else none := rfl
    rcases repeated_cons_iff.mp h with ⟨hzero, -⟩ | ⟨hc, hmore⟩
    · exact absurd hzero (by simp [Rep.Allows])
    · rw [hstep, if_pos hc]
      exact maxExpand_complete (hmore.mono fun _ _ => trivial)

/-! ### Balanced parts -/

theorem closes_nil_iff (n : ℤ) : Closes b e n [] ↔ n = 0 := by
  constructor
  · rintro ⟨h, -⟩
    simpa [level] using h
  · rintro rfl
    exact ⟨by simp [level], fun v hv hne => absurd (List.prefix_nil.mp hv) hne⟩

theorem closes_cons_iff (n : ℤ) (u : List Byte) :
    Closes b e n (c :: u) ↔ 0 < n ∧ Closes b e (n + weight b e c) u := by
  have hlevel : ∀ v, level b e n (c :: v) = level b e (n + weight b e c) v := by
    intro v
    rw [level, level, List.map_cons, List.sum_cons, add_assoc]
  constructor
  · rintro ⟨hend, hbefore⟩
    refine ⟨?_, ?_, fun v hv hne => ?_⟩
    · have hstart := hbefore [] (List.nil_prefix) (List.cons_ne_nil c u).symm
      simpa [level] using hstart
    · rw [← hlevel]
      exact hend
    · rw [← hlevel]
      exact hbefore (c :: v) ((List.prefix_cons_inj c).mpr hv) fun h => hne (List.cons.inj h).2
  · rintro ⟨hn, hend, hbefore⟩
    refine ⟨by rw [hlevel]; exact hend, fun v hv hne => ?_⟩
    rcases v with _ | ⟨d, v⟩
    · simpa [level] using hn
    · obtain ⟨rfl, hv'⟩ := List.cons_prefix_cons.mp hv
      rw [hlevel]
      exact hbefore v hv' fun h => hne (by rw [h])

/-- The loop ends at the byte that closes what is open. -/
theorem balanceLoop_eq_some_iff (d : Byte) {cont : ℕ} (hcont : 1 ≤ cont) (rest : List Byte) :
    balanceLoop b e cont rest = some t ↔
      ∃ u, rest = u ++ t.rest ∧ t.prev = u.getLastD d ∧ Closes b e cont u := by
  induction rest generalizing cont d with
  | nil =>
    rw [balanceLoop]
    refine iff_of_false (by simp) ?_
    rintro ⟨u, hnil, -, hu⟩
    obtain rfl := (List.append_eq_nil_iff.mp hnil.symm).1
    have := (closes_nil_iff _).mp hu
    omega
  | cons c rest ih =>
    -- what is open is not closed before the first byte
    have hsplit : (∃ u, c :: rest = u ++ t.rest ∧ t.prev = u.getLastD d ∧ Closes b e cont u) ↔
        ∃ u, rest = u ++ t.rest ∧ t.prev = u.getLastD c ∧ Closes b e (cont + weight b e c) u := by
      constructor
      · rintro ⟨u, heq, hprev, hu⟩
        rcases u with _ | ⟨x, u⟩
        · have := (closes_nil_iff _).mp hu
          omega
        · obtain ⟨rfl, rfl⟩ := List.cons.inj heq
          rw [List.getLastD_cons] at hprev
          exact ⟨u, rfl, hprev, ((closes_cons_iff _ _).mp hu).2⟩
      · rintro ⟨u, rfl, hprev, hu⟩
        exact ⟨c :: u, rfl, by rw [List.getLastD_cons]; exact hprev,
          (closes_cons_iff _ _).mpr ⟨by omega, hu⟩⟩
    rw [hsplit, balanceLoop]
    by_cases hclose : c = e
    · rw [if_pos hclose, weight, if_pos hclose]
      by_cases hlast : cont ≤ 1
      · obtain rfl : cont = 1 := by omega
        rw [if_pos hlast]
        constructor
        · intro h
          obtain rfl := Option.some.inj h
          exact ⟨[], rfl, rfl, (closes_nil_iff _).mpr rfl⟩
        · rintro ⟨u, rfl, hprev, hu⟩
          rcases u with _ | ⟨x, u⟩
          · rw [List.nil_append, ← (show t.prev = c from hprev)]
          · exact absurd ((closes_cons_iff _ _).mp hu).1 (by decide)
      · have hcast : ((cont - 1 : ℕ) : ℤ) = (cont : ℤ) + -1 := by omega
        rw [if_neg hlast, ih c (by omega : 1 ≤ cont - 1), hcast]
    · rw [if_neg hclose, weight, if_neg hclose]
      by_cases hopen : c = b
      · rw [if_pos hopen, if_pos hopen, ih c (by omega : 1 ≤ cont + 1)]
        norm_cast
      · rw [if_neg hopen, if_neg hopen, ih c hcont, add_zero]

theorem matchbalance_eq_some_iff :
    matchbalance s b e = some t ↔
      ∃ w, s.rest = w ++ t.rest ∧ t.prev = w.getLastD s.prev ∧ ∃ u, w = b :: u ∧ Closes b e 1 u := by
  obtain ⟨prev, rest⟩ := s
  rw [matchbalance]
  constructor
  · intro h
    split_ifs at h with hb
    obtain ⟨rest', hrest⟩ := List.head?_eq_some_iff.mp hb
    obtain rfl : rest = b :: rest' := hrest
    obtain ⟨u, heq, hprev, hu⟩ := (balanceLoop_eq_some_iff b le_rfl _).mp h
    obtain rfl : rest' = u ++ t.rest := heq
    exact ⟨b :: u, rfl, by rw [List.getLastD_cons]; exact hprev, u, rfl, hu⟩
  · rintro ⟨w, hrest, hprev, u, rfl, hu⟩
    obtain rfl : rest = b :: (u ++ t.rest) := hrest
    rw [List.getLastD_cons] at hprev
    rw [if_pos (show (b :: (u ++ t.rest)).head? = some b from rfl), List.tail_cons]
    exact (balanceLoop_eq_some_iff b le_rfl _).mpr ⟨u, rfl, hprev, hu⟩

/-! ### The matcher -/

theorem implements_nil : Implements (run []) [] where
  sound := by
    rintro s t h
    obtain rfl := Option.some.inj h
    exact ⟨[], rfl, rfl, rfl⟩
  complete := by
    rintro prev w rest rfl
    rfl

variable {ps : List Piece}

/-- An element in front, where it takes what it should. -/
theorem Implements.cons {x : Elem} {piece : Piece} (h : Implements (run ps) es)
    (hsound : ∀ s t, run (piece :: ps) s = some t → ∃ u v, s.rest = u ++ v ∧
      x.Matches s.prev u v ∧ run ps ⟨u.getLastD s.prev, v⟩ = some t)
    (hcomplete : ∀ prev u v, x.Matches prev u v → (run ps ⟨u.getLastD prev, v⟩).isSome = true →
      (run (piece :: ps) ⟨prev, u ++ v⟩).isSome = true) :
    Implements (run (piece :: ps)) (x :: es) where
  sound := by
    intro s t hrun
    obtain ⟨u, v, hsplit, hx, hrest⟩ := hsound s t hrun
    obtain ⟨w, hw, hprev, hes⟩ := h.sound _ _ hrest
    obtain rfl : v = w ++ t.rest := hw
    refine ⟨u ++ w, by rw [hsplit, List.append_assoc], ?_, u, w, rfl, hx, hes⟩
    rw [hprev, getLastD_append]
  complete := by
    rintro prev w rest ⟨u, v, rfl, hx, hes⟩
    rw [List.append_assoc]
    exact hcomplete prev u (v ++ rest) hx (h.complete _ v rest hes)

theorem Implements.item {x : Single} (rep : Rep) (h : Implements (run ps) es)
    (hx : ∀ c, singlematch c text = true ↔ x.Mem c) :
    Implements (run (.item text rep :: ps)) (.item x rep :: es) := by
  refine h.cons (fun s t hrun => ?_) fun prev u v hmatch hrest => ?_
  · obtain ⟨u, v, hsplit, hrep, hu, hk⟩ := dflt_sound hrun
    exact ⟨u, v, hsplit, ⟨hrep, fun c hc => (hx c).mp (hu c hc)⟩, hk⟩
  · exact dflt_complete ⟨u, v, rfl, hmatch.1, fun c hc => (hx c).mpr (hmatch.2 c hc), hrest⟩

theorem Implements.balance (h : Implements (run ps) es) :
    Implements (run (.balance b e :: ps)) (.balance b e :: es) := by
  refine h.cons (fun s t hrun => ?_) fun prev u v hmatch hrest => ?_
  · obtain ⟨s', hs', hk⟩ := Option.bind_eq_some_iff.mp hrun
    obtain ⟨w, hsplit, hprev, hw⟩ := matchbalance_eq_some_iff.mp hs'
    refine ⟨w, s'.rest, hsplit, hw, ?_⟩
    rw [← hprev]
    exact hk
  · have hsome : matchbalance ⟨prev, u ++ v⟩ b e = some ⟨u.getLastD prev, v⟩ :=
      matchbalance_eq_some_iff.mpr ⟨u, rfl, rfl, hmatch⟩
    rw [run, hsome]
    exact hrest

theorem Implements.frontier (h : Implements (run ps) es)
    (hset : ∀ c, matchbracketclass c text = true ↔ InSet negated items c) :
    Implements (run (.frontier text :: ps)) (.frontier negated items :: es) := by
  have hnot : ∀ s : Subject,
      (matchbracketclass s.prev text || !matchbracketclass (s.rest.headD 0) text) = true ↔
        InSet negated items s.prev ∨ ¬ InSet negated items (s.rest.headD 0) := by
    intro s
    rw [← hset, ← hset, Bool.or_eq_true, Bool.not_eq_true', Bool.not_eq_true]
  refine h.cons (fun s t hrun => ?_) fun prev u v hmatch hrest => ?_
  · rw [run] at hrun
    split_ifs at hrun with hfail
    rw [hnot, not_or, not_not] at hfail
    exact ⟨[], s.rest, rfl, ⟨rfl, hfail⟩, hrun⟩
  · obtain ⟨rfl, hprev, hnext⟩ := hmatch
    rw [run, if_neg (mt (hnot _).mp (not_or.mpr ⟨hprev, not_not.mpr hnext⟩))]
    exact hrest

theorem Implements.anchor (h : Implements (run ps) es) :
    Implements (run (.anchor :: ps)) (.anchor :: es) := by
  refine h.cons (fun s t hrun => ?_) fun prev u v hmatch hrest => ?_
  · rw [run] at hrun
    split_ifs at hrun with hnil
    exact ⟨[], s.rest, rfl, ⟨rfl, hnil⟩, hrun⟩
  · obtain ⟨rfl, rfl⟩ := hmatch
    exact hrest

theorem repetition_text (rep : Rep) (hone : rep = .one → (repetition p).1 = .one) :
    repetition (rep.text ++ p) = (rep, p) := by
  cases rep with
  | one =>
    have hrep := hone rfl
    have hrest : repetition p = (.one, p) := by
      unfold repetition at hrep ⊢
      split_ifs at hrep ⊢
      rfl
    exact hrest
  | opt => rfl
  | star => rfl
  | plus => rfl
  | minus => rfl

/-- A well-formed pattern has pieces that do what it says. -/
theorem Spells.implements (h : Spells p es) :
    ∃ ps, Parses p ps ∧ Implements (run ps) es := by
  induction h with
  | nil => exact ⟨[], .nil, implements_nil⟩
  | paren hc _ ih =>
    obtain ⟨ps, hparse, himpl⟩ := ih
    exact ⟨ps, .paren hc hparse, himpl⟩
  | balance _ ih =>
    obtain ⟨ps, hparse, himpl⟩ := ih
    exact ⟨_, .balance hparse, himpl.balance⟩
  | @frontier text p _ _ _ hset _ ih =>
    obtain ⟨ps, hparse, himpl⟩ := ih
    obtain ⟨hhead, hend, hmem⟩ := hset.spec
    have hbracket : (text ++ p).head? = some (chr '[') := by
      obtain ⟨body, rfl⟩ := List.head?_eq_some_iff.mp hhead
      rfl
    exact ⟨_, .frontier hbracket (hend p) hparse, himpl.frontier hmem⟩
  | anchor => exact ⟨_, .anchor, implements_nil.anchor⟩
  | @item c q text p x rep es hparen hbalance hfrontier hanchor hx hone hsplit _ ih =>
    obtain ⟨ps, hparse, himpl⟩ := ih
    obtain ⟨-, hend, hmem⟩ := hx.spec
    have hclass : classend (c :: q) = some (text, rep.text ++ p) := by
      rw [hsplit]
      exact hend _
    have hrep := repetition_text rep hone
    have hitem := @Parses.item c q text (rep.text ++ p) ps hparen hbalance hfrontier hanchor hclass
      (by rw [hrep]; exact hparse)
    rw [hrep] at hitem
    exact ⟨_, hitem, himpl.item rep hmem⟩

end

/-- The elements of `[0-9]+$`. -/
def digits : List Elem := [.item (.set false [.range (chr '0') (chr '9')]) .plus, .anchor]

theorem spells_digits : Spells (bytes "[0-9]+$") digits := by
  have hset : SpellsSet (bytes "[0-9]") false [.range (chr '0') (chr '9')] :=
    @SpellsSet.plain (bytes "0-9") _
      (.byte (by decide) (.byte (by decide) (by decide) (.byte (by decide) (by decide) .nil)))
      (by decide) (.range (by decide) .nil)
  exact @Spells.item (chr '[') (bytes "0-9]+$") (bytes "[0-9]") (bytes "$") _ .plus _
    (by decide) (by decide) (by decide) (by decide) (.set hset) (fun h => absurd h (by decide))
    rfl .anchor

end Mongrel2.Pattern

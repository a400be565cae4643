/-
Red-black trees, and places in them.

* `RBTree.Balanced`, `RBTree.IsRedBlack` — no red node has a red child, and all ways down meet as many
  black nodes;
* `depth_le_log_size` — such a tree is not deep;
* `Path` — the way from a place up to the root, with what stands beside it; `fill` puts a tree
  there;
* `isRedBlack_fill_iff` — what the place asks of the tree that is put there;
* `Loc` — a node in its place.
-/
import Mathlib.Data.List.Basic
import Mathlib.Data.Nat.Log
import Mathlib.Tactic.Linarith

namespace RedBlack

inductive Color
  | red | black
  deriving DecidableEq

inductive Side
  | left | right
  deriving DecidableEq

def Side.opposite : Side → Side
  | left => right
  | right => left

@[simp] theorem Side.opposite_opposite (s : Side) : s.opposite.opposite = s := by
  cases s <;> rfl

inductive RBTree (α : Type*)
  | nil
  | node (color : Color) (left : RBTree α) (val : α) (right : RBTree α)

variable {α : Type*}

/-! ### Trees -/

namespace RBTree

/-- The empty tree is black. -/
def color : RBTree α → Color
  | nil => .black
  | node c _ _ _ => c

def paint (c : Color) : RBTree α → RBTree α
  | nil => nil
  | node _ l a r => node c l a r

/-- The values from left to right. -/
def toList : RBTree α → List α
  | nil => []
  | node _ l a r => l.toList ++ a :: r.toList

def size : RBTree α → ℕ
  | nil => 0
  | node _ l _ r => l.size + r.size + 1

/-- How many nodes there are on the longest way down. -/
def depth : RBTree α → ℕ
  | nil => 0
  | node _ l _ r => max l.depth r.depth + 1

/-- A node with a child on a side, and another across. -/
def join (s : Side) (c : Color) (child : RBTree α) (a : α) (across : RBTree α) : RBTree α :=
  match s with
  | .left => node c child a across
  | .right => node c across a child

/-- A red node has black children, and the black nodes on each way down are `n`. -/
inductive Balanced : RBTree α → ℕ → Prop
  | nil : Balanced nil 0
  | red {l r : RBTree α} {a : α} {n : ℕ} : l.Balanced n → r.Balanced n → l.color = .black →
      r.color = .black → Balanced (node .red l a r) n
  | black {l r : RBTree α} {a : α} {n : ℕ} : l.Balanced n → r.Balanced n →
      Balanced (node .black l a r) (n + 1)

/-- The root is black besides. -/
def IsRedBlack (t : RBTree α) : Prop := (∃ n, t.Balanced n) ∧ t.color = .black

variable {t l r : RBTree α} {a : α} {c : Color} {n : ℕ}

theorem length_toList (t : RBTree α) : t.toList.length = t.size := by
  induction t with
  | nil => rfl
  | node c l a r ihl ihr =>
    rw [toList, List.length_append, List.length_cons, ihl, ihr, size, Nat.add_assoc]

@[simp] theorem toList_paint (c : Color) (t : RBTree α) : (t.paint c).toList = t.toList := by
  cases t <;> rfl

@[simp] theorem size_paint (c : Color) (t : RBTree α) : (t.paint c).size = t.size := by
  cases t <;> rfl

@[simp] theorem color_join (s : Side) : (join s c l a r).color = c := by
  cases s <;> rfl

theorem color_paint_black (t : RBTree α) : (t.paint .black).color = .black := by
  cases t <;> rfl

theorem paint_black_of_black (h : t.color = .black) : t.paint .black = t := by
  cases t with
  | nil => rfl
  | node c l a r => exact congrArg (node · l a r) h.symm

theorem exists_of_red (h : t.color = .red) : ∃ l a r, t = node .red l a r := by
  cases t with
  | nil => exact absurd h (by simp [color])
  | node c l a r => exact ⟨l, a, r, congrArg (node · l a r) h⟩

namespace Balanced

theorem join_red (s : Side) (hl : l.Balanced n) (hr : r.Balanced n) (hlc : l.color = .black)
    (hrc : r.color = .black) : (join s .red l a r).Balanced n := by
  cases s with
  | left => exact red hl hr hlc hrc
  | right => exact red hr hl hrc hlc

theorem join_black (s : Side) (hl : l.Balanced n) (hr : r.Balanced n) :
    (join s .black l a r).Balanced (n + 1) := by
  cases s with
  | left => exact black hl hr
  | right => exact black hr hl

/-- Black nodes may be painted red where their children are black, and red ones black. -/
theorem paint_black (h : t.Balanced n) : ∃ m, (t.paint .black).Balanced m := by
  cases h with
  | nil => exact ⟨0, nil⟩
  | @red l r a n hl hr => exact ⟨n + 1, black hl hr⟩
  | @black l r a n hl hr => exact ⟨n + 1, black hl hr⟩

theorem isRedBlack_paint (h : t.Balanced n) : (t.paint .black).IsRedBlack :=
  ⟨h.paint_black, color_paint_black t⟩

/-- A black root with nodes below has a black height. -/
theorem pos_of_black (h : (node .black l a r).Balanced n) :
    ∃ m, n = m + 1 ∧ l.Balanced m ∧ r.Balanced m := by
  cases h with
  | @black _ _ _ m hl hr => exact ⟨m, rfl, hl, hr⟩

theorem of_red (h : (node .red l a r).Balanced n) :
    l.Balanced n ∧ r.Balanced n ∧ l.color = .black ∧ r.color = .black := by
  cases h with
  | red hl hr hlc hrc => exact ⟨hl, hr, hlc, hrc⟩

theorem setVal (b : α) (h : (node c l a r).Balanced n) : (node c l b r).Balanced n := by
  cases h with
  | red hl hr hlc hrc => exact red hl hr hlc hrc
  | black hl hr => exact black hl hr

theorem two_pow_le (h : t.Balanced n) : 2 ^ n ≤ t.size + 1 := by
  induction h with
  | nil => exact Nat.le_refl 1
  | red _ _ _ _ ihl ihr =>
    rw [size]
    omega
  | black _ _ ihl ihr =>
    rw [size, pow_succ]
    omega

theorem depth_le (h : t.Balanced n) : t.depth ≤ if t.color = .black then 2 * n else 2 * n + 1 := by
  induction h with
  | nil => exact Nat.le_refl 0
  | red _ _ hlc hrc ihl ihr =>
    rw [if_pos hlc] at ihl
    rw [if_pos hrc] at ihr
    rw [if_neg (by simp [color]), depth]
    omega
  | @black l r a n _ _ ihl ihr =>
    have hl : l.depth ≤ 2 * n + 1 := ihl.trans (by split <;> omega)
    have hr : r.depth ≤ 2 * n + 1 := ihr.trans (by split <;> omega)
    rw [if_pos (show (node .black l a r).color = .black from rfl), depth]
    omega

end Balanced

/-- **A red-black tree is not deep**: a way down is at most twice as long as the logarithm of
how many nodes there are. -/
theorem depth_le_log_size (h : t.IsRedBlack) : t.depth ≤ 2 * Nat.log 2 (t.size + 1) := by
  obtain ⟨⟨n, hn⟩, hblack⟩ := h
  have hdepth := hn.depth_le
  rw [if_pos hblack] at hdepth
  have hlog : n ≤ Nat.log 2 (t.size + 1) := Nat.le_log_of_pow_le (by omega) hn.two_pow_le
  omega

end RBTree

/-! ### Places -/

/-- A node without its child on one side. -/
structure Frame (α : Type*) where
  side : Side
  color : Color
  val : α
  /-- the child on the other side -/
  across : RBTree α

/-- The nodes above a place, from the lowest one up to the root. -/
abbrev Path (α : Type*) := List (Frame α)

namespace Frame

variable (f : Frame α) (t : RBTree α)

/-- The node with its child. -/
def close : RBTree α := RBTree.join f.side f.color t f.val f.across

def before : List α :=
  match f.side with
  | .left => []
  | .right => f.across.toList ++ [f.val]

def after : List α :=
  match f.side with
  | .left => f.val :: f.across.toList
  | .right => []

theorem toList_close : (f.close t).toList = f.before ++ t.toList ++ f.after := by
  unfold close before after RBTree.join
  cases f.side with
  | left => rfl
  | right => simp [RBTree.toList]

theorem color_close : (f.close t).color = f.color := RBTree.color_join f.side

end Frame

namespace Path

/-- The color of what stands above the place, which is black where nothing does. -/
def above : Path α → Color
  | [] => .black
  | f :: _ => f.color

/-- The values to the left of the place. -/
def before : Path α → List α
  | [] => []
  | f :: p => before p ++ f.before

/-- The values to the right of the place. -/
def after : Path α → List α
  | [] => []
  | f :: p => f.after ++ after p

end Path

/-- The whole tree, with `t` in the place. -/
def fill (t : RBTree α) : Path α → RBTree α
  | [] => t
  | f :: p => fill (f.close t) p

theorem toList_fill (t : RBTree α) (p : Path α) :
    (fill t p).toList = p.before ++ t.toList ++ p.after := by
  induction p generalizing t with
  | nil => simp [fill, Path.before, Path.after]
  | cons f p ih => rw [fill, ih, f.toList_close, Path.before, Path.after]; simp

/-- What is around the place is balanced, for a tree with `n` black nodes on each way down. -/
inductive Around : Path α → ℕ → Prop
  | root {n : ℕ} : Around [] n
  | red {s : Side} {a : α} {t : RBTree α} {p : Path α} {n : ℕ} : t.Balanced n → t.color = .black →
      p ≠ [] → p.above = .black → Around p n → Around (⟨s, .red, a, t⟩ :: p) n
  | black {s : Side} {a : α} {t : RBTree α} {p : Path α} {n : ℕ} : t.Balanced n →
      Around p (n + 1) → Around (⟨s, .black, a, t⟩ :: p) n

/-- A tree for the place is black where it would be the root, and under a red node. -/
def Suits (p : Path α) (t : RBTree α) : Prop := p = [] ∨ p.above = .red → t.color = .black

variable {t : RBTree α} {p : Path α} {n : ℕ}

theorem Suits.of_black (h : t.color = .black) : Suits p t := fun _ => h

/-- Under a black node any tree will do. -/
theorem Suits.of_above (hne : p ≠ []) (h : p.above = .black) : Suits p t := by
  rintro (hnil | hred)
  · exact absurd hnil hne
  · exact absurd (h.symm.trans hred) (by simp)

theorem Around.isRedBlack_fill (hp : Around p n) (ht : t.Balanced n) (hs : Suits p t) :
    (fill t p).IsRedBlack := by
  induction hp generalizing t with
  | root => exact ⟨⟨_, ht⟩, hs (.inl rfl)⟩
  | red hacross hblack hne habove _ ih =>
    exact ih (.join_red _ ht hacross (hs (.inr rfl)) hblack) (.of_above hne habove)
  | black hacross _ ih => exact ih (.join_black _ ht hacross) (.of_black (RBTree.color_join _))

/-- What a place asks of the tree that is put there. -/
theorem isRedBlack_fill_iff :
    (fill t p).IsRedBlack ↔ ∃ n, Around p n ∧ t.Balanced n ∧ Suits p t := by
  constructor
  · intro h
    induction p generalizing t with
    | nil =>
      obtain ⟨⟨n, hn⟩, hblack⟩ := h
      exact ⟨n, .root, hn, .of_black hblack⟩
    | cons f p ih =>
      obtain ⟨s, c, a, across⟩ := f
      obtain ⟨n, hp, ht, hs⟩ := ih h
      have hjoin : ∃ l r, RBTree.join s c t a across = RBTree.node c l a r ∧
          (∀ P : RBTree α → Prop, P l ∧ P r ↔ P t ∧ P across) := by
        cases s with
        | left => exact ⟨t, across, rfl, fun _ => Iff.rfl⟩
        | right => exact ⟨across, t, rfl, fun _ => and_comm⟩
      obtain ⟨l, r, heq, hboth⟩ := hjoin
      have hnode : (RBTree.node c l a r).Balanced n := heq ▸ ht
      cases c with
      | red =>
        obtain ⟨hl, hr, hlc, hrc⟩ := hnode.of_red
        obtain ⟨ht', hacross⟩ := (hboth (·.Balanced n)).mp ⟨hl, hr⟩
        obtain ⟨htc, hac⟩ := (hboth (·.color = .black)).mp ⟨hlc, hrc⟩
        have hup : ¬ (p = [] ∨ Path.above p = .red) := by
          intro hup
          have hblack := hs hup
          rw [Frame.color_close] at hblack
          exact absurd hblack (by simp)
        rw [not_or] at hup
        have habove : Path.above p = .black := by
          cases h : Path.above p with
          | red => exact absurd h hup.2
          | black => rfl
        exact ⟨n, .red hacross hac hup.1 habove hp, ht', .of_black htc⟩
      | black =>
        obtain ⟨m, rfl, hl, hr⟩ := hnode.pos_of_black
        obtain ⟨ht', hacross⟩ := (hboth (·.Balanced m)).mp ⟨hl, hr⟩
        exact ⟨m, .black hacross hp, ht', .of_above (List.cons_ne_nil _ _) rfl⟩
  · rintro ⟨n, hp, ht, hs⟩
    exact hp.isRedBlack_fill ht hs

/-- A node in its place. -/
structure Loc (α : Type*) where
  color : Color
  left : RBTree α
  val : α
  right : RBTree α
  path : Path α

namespace Loc

variable (x : Loc α)

/-- The tree from the node on. -/
def node : RBTree α := .node x.color x.left x.val x.right

/-- The tree that the node is in. -/
def root : RBTree α := fill x.node x.path

/-- What stands before the node. -/
def before : List α := x.path.before ++ x.left.toList

/-- What stands behind the node. -/
def after : List α := x.right.toList ++ x.path.after

theorem toList_root : x.root.toList = x.before ++ x.val :: x.after := by
  rw [root, toList_fill, node, RBTree.toList, before, after]
  simp

end Loc

end RedBlack

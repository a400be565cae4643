/-
The dictionary (`adt/dict.c`).

* `first`, `next`, `lookup`, `lowerBound`, `upperBound` — where the nodes are found;
* `insertLoop`, `deleteLoop` — the adjustments behind an insertion and a deletion;
* `verify` — `dict_verify`;
* `Dict.insert`, `Dict.delete` — `dict_insert` and `dict_delete`, with what they assert.

Design notes: a node is a key with its data, and a pointer to it is the node with the way up to
the root.  The nodes come from the allocator, so none is in a dictionary already.  What follows a
child or a grandparent that the sentinel stands for is `none`.
-/
import Mongrel2.RedBlack

namespace Mongrel2.Dict

open RedBlack

variable {α κ δ : Type*}

/-! ### Nodes in order -/

/-- The leftmost node of a tree. -/
def leftmost : RBTree α → Path α → Option (Loc α)
  | .nil, _ => none
  | .node c .nil a r, p => some ⟨c, .nil, a, r, p⟩
  | .node c l a r, p => leftmost l (⟨.left, c, a, r⟩ :: p)

def rightmost : RBTree α → Path α → Option (Loc α)
  | .nil, _ => none
  | .node c l a .nil, p => some ⟨c, l, a, .nil, p⟩
  | .node c l a r, p => rightmost r (⟨.right, c, a, l⟩ :: p)

/-- `dict_first`. -/
def first (t : RBTree α) : Option (Loc α) := leftmost t []

/-- `dict_last`. -/
def last (t : RBTree α) : Option (Loc α) := rightmost t []

/-- The parent, if the node is its child on the side; else that of the parent, and so on. -/
def climb (s : Side) : RBTree α → Path α → Option (Loc α)
  | _, [] => none
  | curr, f :: p =>
    if f.side = s then
      match s with
      | .left => some ⟨f.color, curr, f.val, f.across, p⟩
      | .right => some ⟨f.color, f.across, f.val, curr, p⟩
    else climb s (f.close curr) p

/-- `dict_next`. -/
def next (x : Loc α) : Option (Loc α) :=
  match x.right with
  | .nil => climb .left x.node x.path
  | r => leftmost r (⟨.right, x.color, x.val, x.left⟩ :: x.path)

/-- `dict_prev`. -/
def prev (x : Loc α) : Option (Loc α) :=
  match x.left with
  | .nil => climb .right x.node x.path
  | l => rightmost l (⟨.left, x.color, x.val, x.right⟩ :: x.path)

/-- A loop over `dict_next`, of so many turns. -/
def walk : ℕ → Option (Loc α) → List α
  | n + 1, some x => x.val :: walk n (next x)
  | _, _ => []

/-- What a loop from `dict_first` on comes to. -/
def entries (t : RBTree α) : List α := walk t.size (first t)

section

variable {x y : Loc α} {t : RBTree α} {p : Path α}

/-- The one node stands right behind the other in the same tree. -/
structure Succ (x y : Loc α) : Prop where
  root : y.root = x.root
  before : y.before = x.before ++ [x.val]
  after : x.after = y.val :: y.after

theorem leftmost_eq_none_iff : leftmost t p = none ↔ t = .nil := by
  induction t generalizing p with
  | nil => exact iff_of_true rfl rfl
  | node c l a r ihl =>
    cases l with
    | nil => exact iff_of_false (by simp [leftmost]) (by simp)
    | node => exact iff_of_false (fun h => absurd (ihl.mp h) (by simp)) (by simp)

theorem leftmost_spec (h : leftmost t p = some x) :
    x.root = fill t p ∧ x.left = .nil ∧ x.before = p.before ∧ t.toList ++ p.after = x.val :: x.after := by
  induction t generalizing p with
  | nil => exact absurd h (by simp [leftmost])
  | node c l a r ihl =>
    cases l with
    | nil =>
      obtain rfl := Option.some.inj h
      exact ⟨rfl, rfl, List.append_nil _, rfl⟩
    | node c' l' a' r' =>
      obtain ⟨hroot, hleft, hbefore, hafter⟩ := ihl h
      refine ⟨hroot, hleft, hbefore.trans (List.append_nil _), ?_⟩
      rw [← hafter]
      simp [RBTree.toList, Path.after, Frame.after]

theorem leftmost_append (t : RBTree α) (p q : Path α) :
    leftmost t (p ++ q) = (leftmost t p).map fun x => { x with path := x.path ++ q } := by
  induction t generalizing p with
  | nil => rfl
  | node c l a r ihl =>
    cases l with
    | nil => rfl
    | node c' l' a' r' => exact ihl (⟨.left, c, a, r⟩ :: p)

theorem rightmost_eq_none_iff : rightmost t p = none ↔ t = .nil := by
  induction t generalizing p with
  | nil => exact iff_of_true rfl rfl
  | node c l a r _ ihr =>
    cases r with
    | nil => exact iff_of_false (by simp [rightmost]) (by simp)
    | node => exact iff_of_false (fun h => absurd (ihr.mp h) (by simp)) (by simp)

theorem rightmost_spec (h : rightmost t p = some x) :
    x.root = fill t p ∧ x.after = p.after ∧ p.before ++ t.toList = x.before ++ [x.val] := by
  induction t generalizing p with
  | nil => exact absurd h (by simp [rightmost])
  | node c l a r _ ihr =>
    cases r with
    | nil =>
      obtain rfl := Option.some.inj h
      exact ⟨rfl, rfl, by simp [Loc.before, RBTree.toList]⟩
    | node c' l' a' r' =>
      obtain ⟨hroot, hafter, hbefore⟩ := ihr h
      refine ⟨hroot, hafter, ?_⟩
      rw [← hbefore]
      simp [RBTree.toList, Path.before, Frame.before]

theorem climb_left_spec (h : climb .left t p = some x) :
    x.root = fill t p ∧ x.before = p.before ++ t.toList ∧ p.after = x.val :: x.after := by
  induction p generalizing t with
  | nil => exact absurd h (by simp [climb])
  | cons f p ih =>
    obtain ⟨s, c, a, across⟩ := f
    cases s with
    | left =>
      obtain rfl := Option.some.inj h
      exact ⟨rfl, by simp [Loc.before, Path.before, Frame.before],
        by simp [Loc.after, Path.after, Frame.after]⟩
    | right =>
      obtain ⟨hroot, hbefore, hafter⟩ := ih h
      refine ⟨hroot, ?_, hafter⟩
      rw [hbefore, Frame.toList_close]
      simp [Path.before, Frame.before, Frame.after]

theorem climb_left_eq_none (h : climb .left t p = none) : p.after = [] := by
  induction p generalizing t with
  | nil => rfl
  | cons f p ih =>
    obtain ⟨s, c, a, across⟩ := f
    cases s with
    | left => exact absurd h (by simp [climb])
    | right => exact ih h

theorem climb_right_spec (h : climb .right t p = some x) :
    x.root = fill t p ∧ x.after = t.toList ++ p.after ∧ p.before = x.before ++ [x.val] := by
  induction p generalizing t with
  | nil => exact absurd h (by simp [climb])
  | cons f p ih =>
    obtain ⟨s, c, a, across⟩ := f
    cases s with
    | right =>
      obtain rfl := Option.some.inj h
      exact ⟨rfl, by simp [Loc.after, Path.after, Frame.after],
        by simp [Loc.before, Path.before, Frame.before]⟩
    | left =>
      obtain ⟨hroot, hafter, hbefore⟩ := ih h
      refine ⟨hroot, ?_, ?_⟩
      · rw [hafter, Frame.toList_close]
        simp [Path.after, Frame.before, Frame.after]
      · rw [← hbefore]
        exact List.append_nil _

theorem climb_right_eq_none (h : climb .right t p = none) : p.before = [] := by
  induction p generalizing t with
  | nil => rfl
  | cons f p ih =>
    obtain ⟨s, c, a, across⟩ := f
    cases s with
    | right => exact absurd h (by simp [climb])
    | left => exact (List.append_nil _).trans (ih h)

/-- **`dict_next` goes to the next node**, and stops behind the last one. -/
theorem next_eq_some (h : next x = some y) : Succ x y := by
  obtain ⟨c, l, a, r, p⟩ := x
  cases r with
  | nil =>
    obtain ⟨hroot, hbefore, hafter⟩ := climb_left_spec h
    refine ⟨hroot, ?_, hafter⟩
    rw [hbefore]
    simp [Loc.before, Loc.node, RBTree.toList]
  | node =>
    obtain ⟨hroot, -, hbefore, hafter⟩ := leftmost_spec h
    refine ⟨hroot, ?_, hafter⟩
    rw [hbefore]
    simp [Loc.before, Path.before, Frame.before]

theorem next_eq_none (h : next x = none) : x.after = [] := by
  obtain ⟨c, l, a, r, p⟩ := x
  cases r with
  | nil => exact climb_left_eq_none h
  | node => exact absurd (leftmost_eq_none_iff.mp h) (by simp)

/-- **`dict_prev` goes back** by one node. -/
theorem prev_eq_some (h : prev y = some x) : Succ x y := by
  obtain ⟨c, l, a, r, p⟩ := y
  cases l with
  | nil =>
    obtain ⟨hroot, hafter, hbefore⟩ := climb_right_spec h
    refine ⟨hroot.symm, ?_, ?_⟩
    · rw [← hbefore]
      exact List.append_nil _
    · rw [hafter]
      simp [Loc.after, Loc.node, RBTree.toList]
  | node =>
    obtain ⟨hroot, hafter, hbefore⟩ := rightmost_spec h
    refine ⟨hroot.symm, ?_, ?_⟩
    · rw [← hbefore]
      simp [Loc.before, Path.before, Frame.before]
    · rw [hafter]
      simp [Loc.after, Path.after, Frame.after]

theorem prev_eq_none (h : prev y = none) : y.before = [] := by
  obtain ⟨c, l, a, r, p⟩ := y
  cases l with
  | nil => exact (List.append_nil _).trans (climb_right_eq_none h)
  | node => exact absurd (rightmost_eq_none_iff.mp h) (by simp)

theorem first_eq_some (h : first t = some x) : x.root = t ∧ x.before = [] := by
  obtain ⟨hroot, -, hbefore, -⟩ := leftmost_spec h
  exact ⟨hroot, hbefore⟩

theorem last_eq_some (h : last t = some x) : x.root = t ∧ x.after = [] := by
  obtain ⟨hroot, hafter, -⟩ := rightmost_spec h
  exact ⟨hroot, hafter⟩

theorem walk_some {n : ℕ} (hn : x.after.length < n) : walk n (some x) = x.val :: x.after := by
  induction n generalizing x with
  | zero => exact absurd hn (Nat.not_lt_zero _)
  | succ n ih =>
    rw [walk]
    cases h : next x with
    | none =>
      rw [next_eq_none h]
      cases n <;> rfl
    | some y =>
      have hafter := (next_eq_some h).after
      rw [hafter] at hn ⊢
      rw [ih (Nat.lt_of_succ_lt_succ hn)]

/-- **A loop over a dictionary** comes to each node once, from left to right. -/
theorem entries_eq (t : RBTree α) : entries t = t.toList := by
  rw [entries]
  cases h : first t with
  | none =>
    rw [leftmost_eq_none_iff.mp h]
    rfl
  | some x =>
    obtain ⟨hroot, hbefore⟩ := first_eq_some h
    have hlist : t.toList = x.val :: x.after := by
      rw [← hroot, x.toList_root, hbefore]
      rfl
    have hlen : x.after.length < t.size := by
      rw [← t.length_toList, hlist]
      exact Nat.lt_succ_self _
    rw [walk_some hlen, hlist]

end

/-! ### Searching -/

section

variable (cmp : κ → κ → Ordering) (dupes : Bool) (key : κ)

/-- The node that is equal to the key, and the first of them in the tree below. -/
def lookupDupes (saved : Loc (κ × δ)) : RBTree (κ × δ) → Path (κ × δ) → Loc (κ × δ)
  | .nil, _ => saved
  | .node c l a r, p =>
    if cmp key a.1 = .eq then lookupDupes ⟨c, l, a, r, p⟩ l (⟨.left, c, a, r⟩ :: p)
    else lookupDupes saved r (⟨.right, c, a, l⟩ :: p)

def lookupAt : RBTree (κ × δ) → Path (κ × δ) → Option (Loc (κ × δ))
  | .nil, _ => none
  | .node c l a r, p =>
    match cmp key a.1 with
    | .lt => lookupAt l (⟨.left, c, a, r⟩ :: p)
    | .gt => lookupAt r (⟨.right, c, a, l⟩ :: p)
    | .eq =>
      if dupes then some (lookupDupes cmp key ⟨c, l, a, r, p⟩ l (⟨.left, c, a, r⟩ :: p))
      else some ⟨c, l, a, r, p⟩

/-- `dict_lower_bound`, with the node that it would return so far. -/
def lowerBoundAt (tentative : Option (Loc (κ × δ))) :
    RBTree (κ × δ) → Path (κ × δ) → Option (Loc (κ × δ))
  | .nil, _ => tentative
  | .node c l a r, p =>
    match cmp key a.1 with
    | .gt => lowerBoundAt tentative r (⟨.right, c, a, l⟩ :: p)
    | .lt => lowerBoundAt (some ⟨c, l, a, r, p⟩) l (⟨.left, c, a, r⟩ :: p)
    | .eq =>
      if dupes then lowerBoundAt (some ⟨c, l, a, r, p⟩) l (⟨.left, c, a, r⟩ :: p)
      else some ⟨c, l, a, r, p⟩

/-- `dict_upper_bound`. -/
def upperBoundAt (tentative : Option (Loc (κ × δ))) :
    RBTree (κ × δ) → Path (κ × δ) → Option (Loc (κ × δ))
  | .nil, _ => tentative
  | .node c l a r, p =>
    match cmp key a.1 with
    | .lt => upperBoundAt tentative l (⟨.left, c, a, r⟩ :: p)
    | .gt => upperBoundAt (some ⟨c, l, a, r, p⟩) r (⟨.right, c, a, l⟩ :: p)
    | .eq =>
      if dupes then upperBoundAt (some ⟨c, l, a, r, p⟩) r (⟨.right, c, a, l⟩ :: p)
      else some ⟨c, l, a, r, p⟩

/-- Where an insertion comes to; `none` is the assertion against another node of the key. -/
def insertWhere : RBTree (κ × δ) → Path (κ × δ) → Option (Path (κ × δ))
  | .nil, p => some p
  | .node c l a r, p =>
    if cmp key a.1 = .eq ∧ dupes = false then none
    else if cmp key a.1 = .lt then insertWhere l (⟨.left, c, a, r⟩ :: p)
    else insertWhere r (⟨.right, c, a, l⟩ :: p)

end

/-! ### Rotations -/

/-- `rotate_left`. -/
def rotateLeft : RBTree α → Option (RBTree α)
  | .node c l a (.node c' l' a' r') => some (.node c' (.node c l a l') a' r')
  | _ => none

/-- `rotate_right`. -/
def rotateRight : RBTree α → Option (RBTree α)
  | .node c (.node c' l' a' r') a r => some (.node c' l' a' (.node c r' a r))
  | _ => none

/-- The one for `upper == upparent->left` and its mirror image. -/
def rotate : Side → RBTree α → Option (RBTree α)
  | .left => rotateLeft
  | .right => rotateRight

def child (s : Side) : RBTree α → RBTree α
  | .nil => .nil
  | .node _ l _ r =>
    match s with
    | .left => l
    | .right => r

def setChild (s : Side) (t : RBTree α) : RBTree α → RBTree α
  | .nil => .nil
  | .node c l a r =>
    match s with
    | .left => .node c t a r
    | .right => .node c l a t

/-! ### The adjustments -/

/-- An inner child of its grandparent is rotated with its parent first. -/
def straighten (node : RBTree α) (parent grandpa : Frame α) : Option (RBTree α) :=
  if parent.side = grandpa.side then some (parent.close node)
  else rotate grandpa.side (parent.close node)

/-- The loop of `dict_insert`, from the red node `node` up.  Its two halves are mirror images. -/
def insertLoop (node : RBTree α) : Path α → Option (RBTree α)
  | [] => some node
  | [parent] => if parent.color = .red then none else some (parent.close node)
  | parent :: grandpa :: p =>
    if parent.color = .red then
      if grandpa.across.color = .red then
        -- the uncle is red
        insertLoop (Frame.close
          { grandpa with color := .red, across := grandpa.across.paint .black }
          (Frame.close { parent with color := .black } node)) p
      else do
        let parent ← straighten node parent grandpa
        let grandpa ← rotate grandpa.side.opposite
          (Frame.close { grandpa with color := .red } (parent.paint .black))
        some (fill grandpa p)
    else some (fill node (parent :: grandpa :: p))

/-- A sister whose far child is black is rotated with its near child, which is red. -/
def straightenSister (s : Side) (sister : RBTree α) : Option (RBTree α) :=
  if (child s.opposite sister).color = .black then
    rotate s.opposite (setChild s ((child s sister).paint .black) (sister.paint .red))
  else some sister

/-- What the loop of `dict_delete` does to a parent whose other child, the sister, is black:
the tree in its place, and whether the loop is left. -/
def settle (node : RBTree α) (parent : Frame α) : Option (RBTree α × Bool) :=
  let near := child parent.side
  let far := child parent.side.opposite
  match parent.across with
  | .nil => none
  | sister@(.node _ _ _ _) =>
    if (near sister).color = .black ∧ (far sister).color = .black then
      some (Frame.close { parent with across := sister.paint .red } node, false)
    else do
      let sister ← straightenSister parent.side sister
      let sister := setChild parent.side.opposite ((far sister).paint .black)
        (sister.paint parent.color)
      let parent ← rotate parent.side
        (Frame.close { parent with color := .black, across := sister } node)
      some (parent, true)

/-- A rotation of the parent towards the node: the parent, and the sister that is above it then. -/
def turn (parent : Frame α) : Option (Frame α × Frame α) :=
  match parent.across with
  | .nil => none
  | .node c l a r =>
    match parent.side with
    | .left => some (⟨.left, parent.color, parent.val, l⟩, ⟨.left, c, a, r⟩)
    | .right => some (⟨.right, parent.color, parent.val, r⟩, ⟨.right, c, a, l⟩)

/-- The loop of `dict_delete`, from where a black node is missing up.  The root is painted red
for it and black behind it, so it ends there; no other color depends on that. -/
def deleteLoop (node : RBTree α) : Path α → Option (RBTree α)
  | [] => some (node.paint .black)
  | parent :: p =>
    if node.color = .red then some (fill (node.paint .black) (parent :: p))
    else if parent.across.color = .red then do
      let (parent, sister) ← turn
        { parent with color := .red, across := parent.across.paint .black }
      let (node, done) ← settle node parent
      -- the parent is red, and ends the loop as the next node
      some (fill (if done then node else node.paint .black) (sister :: p))
    else do
      let (node, done) ← settle node parent
      if done then some (fill node p) else deleteLoop node p

/-- A node is taken out: what moves up, into which place, and the color that is missing.  A node
with two children has its successor take its place. -/
def splice (x : Loc α) : Option (RBTree α × Path α × Color) :=
  match x.left, x.right with
  | .nil, r => some (r, x.path, x.color)
  | l, .nil => some (l, x.path, x.color)
  | l, r => (leftmost r []).map fun next =>
    (next.right, next.path ++ ⟨.right, x.color, next.val, l⟩ :: x.path, next.color)

/-- Nothing is missing where the node was red. -/
def adjust (node : RBTree α) (p : Path α) (color : Color) : Option (RBTree α) :=
  if color = .black then (deleteLoop node p).map (RBTree.paint .black) else some (fill node p)

/-! ### The checks -/

/-- `verify_bintree`. -/
def verifyBintree (cmp : κ → κ → Ordering) (dupes : Bool) : List (κ × δ) → Bool
  | a :: b :: rest =>
    (if dupes then cmp a.1 b.1 ≠ .gt else cmp a.1 b.1 = .lt) && verifyBintree cmp dupes (b :: rest)
  | _ => true

/-- `verify_redblack`. -/
def verifyRedblack : RBTree α → ℕ
  | .nil => 1
  | .node c l _ r =>
    let heightLeft := verifyRedblack l
    let heightRight := verifyRedblack r
    if heightLeft = 0 ∨ heightRight = 0 then 0
    else if heightLeft ≠ heightRight then 0
    else
      match c with
      | .red => if l.color ≠ .black ∨ r.color ≠ .black then 0 else heightLeft
      | .black => heightLeft + 1

/-- `verify_node_count`. -/
def verifyNodeCount : RBTree α → ℕ
  | .nil => 0
  | .node _ l _ r => 1 + verifyNodeCount l + verifyNodeCount r

end Mongrel2.Dict

namespace Mongrel2

open RedBlack

/-- `dict_t`. -/
structure Dict (κ δ : Type*) where
  tree : RBTree (κ × δ)
  nodecount : ℕ
  maxcount : ℕ
  dupes : Bool

namespace Dict

variable {κ δ : Type*} (cmp : κ → κ → Ordering) (d : Dict κ δ)

/-- `dict_create`. -/
def create (maxcount : ℕ) : Dict κ δ := ⟨.nil, 0, maxcount, false⟩

/-- `dict_allow_dupes`. -/
def allowDupes : Dict κ δ := { d with dupes := true }

/-- `dict_isfull`. -/
def isfull : Bool := d.nodecount == d.maxcount

/-- `dict_verify`. -/
def verify : Bool :=
  d.tree.color = .black && verifyBintree cmp d.dupes (entries d.tree) &&
    verifyRedblack d.tree ≠ 0 && verifyNodeCount d.tree = d.nodecount

/-- `dict_lookup`. -/
def lookup (key : κ) : Option (Loc (κ × δ)) := lookupAt cmp d.dupes key d.tree []

/-- `dict_lower_bound`. -/
def lowerBound (key : κ) : Option (Loc (κ × δ)) := lowerBoundAt cmp d.dupes key none d.tree []

/-- `dict_upper_bound`. -/
def upperBound (key : κ) : Option (Loc (κ × δ)) := upperBoundAt cmp d.dupes key none d.tree []

/-- `dict_insert` of a new node; `none` where an assertion fails. -/
def insert (key : κ) (data : δ) : Option (Dict κ δ) :=
  if d.isfull then none
  else do
    let p ← insertWhere cmp d.dupes key d.tree []
    let tree ← insertLoop (.node .red .nil (key, data) .nil) p
    let d := { d with tree := tree.paint .black, nodecount := d.nodecount + 1 }
    if d.verify cmp then some d else none

/-- `dict_delete` of a node of the dictionary. -/
def delete (x : Loc (κ × δ)) : Option (Dict κ δ) :=
  if d.nodecount = 0 then none
  else do
    let (node, p, color) ← splice x
    let d := { d with nodecount := d.nodecount - 1 }
    if verifyBintree cmp d.dupes (entries (fill node p)) then
      let tree ← adjust node p color
      let d := { d with tree := tree }
      if d.verify cmp then some d else none
    else none

/-- `dict_free_nodes`. -/
def freeNodes : Dict κ δ := { d with tree := .nil, nodecount := 0 }

end Dict

end Mongrel2

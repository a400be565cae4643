/-
Forests of named nodes.

A forest is given by its first tree and the rest of it, so that the children of a node are a
forest again.

* `nodes`, `first` — what is in a forest, and the node it starts with;
* `extract` — a forest without a node and all that is below it;
* `adopt` — a node, with what is below it, as the first child of another;
* `extract_perm`, `adopt_perm` — neither loses a node.
-/
import Mathlib.Data.List.Perm.Basic

namespace Hierarchy

/-- A node, with its children, before others. -/
inductive Forest (α : Type*)
  | nil
  | cons (a : α) (kids rest : Forest α)

namespace Forest

variable {α β : Type*}

/-- Each node before its children. -/
def nodes : Forest α → List α
  | nil => []
  | cons a kids rest => a :: (kids.nodes ++ rest.nodes)

/-- The first of the roots. -/
def first : Forest α → Option α
  | nil => none
  | cons a _ _ => some a

/-- The roots. -/
def roots : Forest α → List α
  | nil => []
  | cons a _ rest => a :: rest.roots

/-- Other names. -/
def map (f : α → β) : Forest α → Forest β
  | nil => nil
  | cons a kids rest => cons (f a) (kids.map f) (rest.map f)

section

variable [DecidableEq α]

/-- What is below a node, and what is left without the two. -/
def extract (b : α) : Forest α → Option (Forest α × Forest α)
  | nil => none
  | cons a kids rest =>
    if a = b then some (kids, rest)
    else
      match kids.extract b with
      | some (below, kids) => some (below, cons a kids rest)
      | none => (rest.extract b).map fun x => (x.1, cons a kids x.2)

/-- A node, and what is below it, as the first child of another. -/
def adopt (p b : α) (below : Forest α) : Forest α → Forest α
  | nil => nil
  | cons a kids rest =>
    if a = p then cons a (cons b below kids) rest
    else cons a (adopt p b below kids) (adopt p b below rest)

end

variable {F F' below kids rest : Forest α} {a b p : α}

@[simp] theorem nodes_nil : (nil : Forest α).nodes = [] := rfl

@[simp] theorem nodes_cons : (cons a kids rest).nodes = a :: (kids.nodes ++ rest.nodes) := rfl

@[simp] theorem first_nil : (nil : Forest α).first = none := rfl

@[simp] theorem first_cons : (cons a kids rest).first = some a := rfl

theorem first_mem (h : F.first = some a) : a ∈ F.nodes := by
  cases F with
  | nil => exact absurd h nofun
  | cons b kids rest => exact Option.some.inj h ▸ List.mem_cons_self

theorem roots_subset : F.roots ⊆ F.nodes := by
  induction F with
  | nil => exact List.Subset.refl _
  | cons a kids rest _ ih =>
    intro x hx
    rcases List.mem_cons.mp hx with rfl | hx
    · exact List.mem_cons_self
    · exact List.mem_cons_of_mem _ (List.mem_append_right _ (ih hx))

theorem nodes_map (f : α → β) (F : Forest α) : (F.map f).nodes = F.nodes.map f := by
  induction F with
  | nil => rfl
  | cons a kids rest ihk ihr => simp [map, ihk, ihr]

theorem first_map (f : α → β) (F : Forest α) : (F.map f).first = F.first.map f := by
  cases F <;> rfl

variable [DecidableEq α]

theorem extract_eq_none_iff : F.extract b = none ↔ b ∉ F.nodes := by
  induction F with
  | nil => simp [extract]
  | cons a kids rest ihk ihr =>
    rw [extract, nodes_cons, List.mem_cons, List.mem_append]
    by_cases ha : a = b
    · simp [ha]
    · rw [if_neg ha]
      cases hk : kids.extract b with
      | some x =>
        have hmem : b ∈ kids.nodes := by
          by_contra hnot
          rw [ihk.mpr hnot] at hk
          exact absurd hk nofun
        simp [hmem]
      | none => simp [ihr, ihk.mp hk, Ne.symm ha]

/-- **Nothing is lost** when a node is taken out. -/
theorem extract_perm (h : F.extract b = some (below, F')) :
    F.nodes.Perm (b :: (below.nodes ++ F'.nodes)) := by
  rw [List.perm_iff_count]
  intro x
  induction F generalizing F' with
  | nil => exact absurd h nofun
  | cons a kids rest ihk ihr =>
    rw [extract] at h
    by_cases ha : a = b
    · rw [if_pos ha] at h
      obtain ⟨rfl, rfl⟩ := Prod.mk.inj (Option.some.inj h)
      rw [nodes_cons, ha]
    · rw [if_neg ha] at h
      cases hk : kids.extract b with
      | some y =>
        rw [hk] at h
        obtain ⟨rfl, rfl⟩ := Prod.mk.inj (Option.some.inj h)
        have hcount := ihk hk
        simp only [nodes_cons, List.count_cons, List.count_append] at hcount ⊢
        omega
      | none =>
        rw [hk] at h
        obtain ⟨y, hy, h⟩ := Option.map_eq_some_iff.mp h
        obtain ⟨rfl, rfl⟩ := Prod.mk.inj h
        have hcount := ihr hy
        simp only [nodes_cons, List.count_cons, List.count_append] at hcount ⊢
        omega

theorem adopt_of_not_mem (h : p ∉ F.nodes) : adopt p b below F = F := by
  induction F with
  | nil => rfl
  | cons a kids rest ihk ihr =>
    simp only [nodes_cons, List.mem_cons, List.mem_append, not_or] at h
    rw [adopt, if_neg (Ne.symm h.1), ihk h.2.1, ihr h.2.2]

theorem first_adopt : (adopt p b below F).first = F.first := by
  cases F with
  | nil => rfl
  | cons a kids rest =>
    rw [adopt]
    split <;> rfl

/-- A node comes to the others. -/
theorem adopt_perm (hnodup : F.nodes.Nodup) (h : p ∈ F.nodes) :
    (adopt p b below F).nodes.Perm (b :: (below.nodes ++ F.nodes)) := by
  rw [List.perm_iff_count]
  intro x
  induction F with
  | nil => exact absurd h List.not_mem_nil
  | cons a kids rest ihk ihr =>
    obtain ⟨hnot, hnodup⟩ := List.nodup_cons.mp hnodup
    obtain ⟨hkids, hrest, hdisjoint⟩ := List.nodup_append.mp hnodup
    rw [adopt]
    by_cases ha : a = p
    · rw [if_pos ha]
      simp only [nodes_cons, List.count_cons, List.count_append]
      omega
    · rw [if_neg ha]
      rcases List.mem_append.mp (List.mem_of_ne_of_mem (Ne.symm ha) h) with hp | hp
      · have hcount := ihk hkids hp
        rw [adopt_of_not_mem fun hmem => hdisjoint p hp p hmem rfl]
        simp only [nodes_cons, List.count_cons, List.count_append] at hcount ⊢
        omega
      · have hcount := ihr hrest hp
        rw [adopt_of_not_mem fun hmem => hdisjoint p hmem p hp rfl]
        simp only [nodes_cons, List.count_cons, List.count_append] at hcount ⊢
        omega

end Forest

end Hierarchy

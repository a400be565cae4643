/-
Paths and their lexical normal form.

A path is a list of letters with a separator; a normal path is the list of its
names.  The alphabet, the separator and the dot are arbitrary.

* `resolve` — the names that a path leads to from a directory: empty names and
  single dots are skipped, and two dots drop the name before them;
* `components` — the names as they stand in the path;
* `render` — the absolute path with given names; `resolve_render` is the round
  trip;
* **`render_prefix_iff`** — one rendered path starts with another, letter by letter,
  if the other's names come first in it, or if it has a longer name (`Shadows`) in the
  place of the other's last one.
-/
import Mathlib.Data.List.Infix
import Mathlib.Tactic.Common

namespace LexPath

variable {α : Type*} {sep dot : α}

/-! ### Normal form -/

section

variable [DecidableEq α]

/-- One more name on the way. -/
def push (dot : α) (names : List (List α)) (name : List α) : List (List α) :=
  if name = [] ∨ name = [dot] then names
  else if name = [dot, dot] then names.dropLast
  else names ++ [name]

/-- The names that `path` leads to from the directory `dir`. -/
def resolve (sep dot : α) (dir : List (List α)) (path : List α) : List (List α) :=
  (path.splitOn sep).foldl (push dot) (if path.head? = some sep then [] else dir)

/-- The names behind one another, each after a separator. -/
def join (sep : α) (names : List (List α)) : List α := names.flatMap (sep :: ·)

/-- The absolute path with these names. -/
def render (sep : α) (names : List (List α)) : List α :=
  if names = [] then [sep] else join sep names

/-- A name that a normal path can have. -/
structure IsName (sep dot : α) (name : List α) : Prop where
  ne_nil : name ≠ []
  ne_dot : name ≠ [dot]
  ne_dots : name ≠ [dot, dot]
  sep_not_mem : sep ∉ name

/-- A normal path. -/
def Normal (sep dot : α) (names : List (List α)) : Prop := ∀ name ∈ names, IsName sep dot name

theorem normal_push {names : List (List α)} {name : List α} (h : Normal sep dot names)
    (hname : sep ∉ name) : Normal sep dot (push dot names name) := by
  unfold push
  split_ifs with hskip hup
  · exact h
  · exact fun n hn => h n (List.dropLast_subset _ hn)
  · intro n hn
    rcases List.mem_append.mp hn with hn | hn
    · exact h n hn
    · obtain rfl := List.mem_singleton.mp hn
      rw [not_or] at hskip
      exact ⟨hskip.1, hskip.2, hup, hname⟩

theorem sep_not_mem_of_mem_splitOn {path name : List α} (h : name ∈ path.splitOn sep) :
    sep ∉ name := by
  induction path generalizing name with
  | nil =>
    rw [List.splitOn_nil, List.mem_singleton] at h
    exact h ▸ List.not_mem_nil
  | cons a path ih =>
    rw [List.splitOn_cons_eq_if_modifyHead] at h
    split_ifs at h with ha
    · rcases List.mem_cons.mp h with rfl | h
      · exact List.not_mem_nil
      · exact ih h
    · obtain ⟨first, rest, hsplit⟩ := List.exists_cons_of_ne_nil (List.splitOn_ne_nil sep path)
      rw [hsplit, List.modifyHead_cons] at h
      have hne : sep ≠ a := fun heq => ha (by rw [heq, beq_self_eq_true])
      rcases List.mem_cons.mp h with rfl | h
      · have hfirst : sep ∉ first := ih (hsplit ▸ List.mem_cons_self ..)
        exact fun hmem => (List.mem_cons.mp hmem).elim hne hfirst
      · exact ih (hsplit ▸ List.mem_cons_of_mem _ h)

/-- The names in a path, as they stand in it. -/
def components (sep : α) (path : List α) : List (List α) := (path.splitOn sep).filter (· ≠ [])

theorem flatten_splitOn (path : List α) : (path.splitOn sep).flatten = path.filter (· ≠ sep) := by
  induction path with
  | nil => rw [List.splitOn_nil]; rfl
  | cons a path ih =>
    obtain ⟨first, rest, hsplit⟩ := List.exists_cons_of_ne_nil (List.splitOn_ne_nil sep path)
    rw [hsplit] at ih
    rw [List.splitOn_cons_eq_if_modifyHead, hsplit]
    by_cases ha : a = sep
    · subst ha
      simpa using ih
    · simpa [ha] using ih

/-- The letters of the names are those of the path that are no separator. -/
theorem flatten_components (path : List α) :
    (components sep path).flatten = path.filter (· ≠ sep) := by
  rw [components, List.flatten_filter_ne_nil, flatten_splitOn]

theorem normal_foldl {names parts : List (List α)} (h : Normal sep dot names)
    (hparts : ∀ name ∈ parts, sep ∉ name) : Normal sep dot (parts.foldl (push dot) names) := by
  induction parts generalizing names with
  | nil => exact h
  | cons part parts ih =>
    rw [List.foldl_cons]
    refine ih (normal_push h (hparts part (List.mem_cons_self ..))) ?_
    exact fun name hname => hparts name (List.mem_cons_of_mem _ hname)

/-- A path leads to a normal one. -/
theorem normal_resolve {dir : List (List α)} (h : Normal sep dot dir) (path : List α) :
    Normal sep dot (resolve sep dot dir path) := by
  refine normal_foldl ?_ fun name hname => sep_not_mem_of_mem_splitOn hname
  split
  · exact fun name hname => absurd hname List.not_mem_nil
  · exact h

/-! ### The round trip -/

theorem push_of_isName {name : List α} (h : IsName sep dot name) (names : List (List α)) :
    push dot names name = names ++ [name] := by
  have hskip : ¬ (name = [] ∨ name = [dot]) := by
    rw [not_or]
    exact ⟨h.ne_nil, h.ne_dot⟩
  rw [push, if_neg hskip, if_neg h.ne_dots]

theorem splitOn_join {names : List (List α)} (h : Normal sep dot names) (hne : names ≠ []) :
    (join sep names).splitOn sep = [] :: names := by
  induction names with
  | nil => exact absurd rfl hne
  | cons name names ih =>
    have hname : sep ∉ name := (h name (List.mem_cons_self ..)).sep_not_mem
    have hcons : join sep (name :: names) = sep :: (name ++ join sep names) := rfl
    rw [hcons, List.splitOn_cons_eq_if_modifyHead, if_pos (beq_self_eq_true sep)]
    congr 1
    by_cases hnil : names = []
    · subst hnil
      rw [join, List.flatMap_nil, List.append_nil, List.splitOn_eq_singleton hname]
    · have hrest := ih (fun n hn => h n (List.mem_cons_of_mem _ hn)) hnil
      obtain ⟨next, others, rfl⟩ := List.exists_cons_of_ne_nil hnil
      have hcons : join sep (next :: others) = sep :: (next ++ join sep others) := rfl
      rw [hcons, List.splitOn_cons_eq_if_modifyHead, if_pos (beq_self_eq_true sep)] at hrest
      rw [hcons, List.splitOn_append_cons_self_of_not_mem hname, (List.cons.inj hrest).2]

/-- A rendered path leads to the names it was made of. -/
theorem resolve_render {names : List (List α)} (h : Normal sep dot names) (dir : List (List α)) :
    resolve sep dot dir (render sep names) = names := by
  by_cases hnil : names = []
  · subst hnil
    have hsplit : [sep].splitOn sep = [[], []] := by
      rw [List.splitOn_cons_eq_if_modifyHead, if_pos (beq_self_eq_true sep), List.splitOn_nil]
    simp [resolve, render, hsplit, push]
  · have hhead : (join sep names).head? = some sep := by
      obtain ⟨name, others, rfl⟩ := List.exists_cons_of_ne_nil hnil
      rfl
    have hpush : ∀ parts : List (List α), (∀ name ∈ parts, IsName sep dot name) →
        ∀ start, parts.foldl (push dot) start = start ++ parts := by
      intro parts hparts
      induction parts with
      | nil =>
        intro start
        exact (List.append_nil start).symm
      | cons part parts ih =>
        intro start
        rw [List.foldl_cons, push_of_isName (hparts part (List.mem_cons_self ..)),
          ih (fun n hn => hparts n (List.mem_cons_of_mem _ hn)), List.append_assoc,
          List.singleton_append]
    have hskip : push dot [] ([] : List α) = [] := if_pos (.inl rfl)
    rw [resolve, render, if_neg hnil, hhead, if_pos rfl, splitOn_join h hnil, List.foldl_cons,
      hskip, hpush names h, List.nil_append]

end

/-! ### One path at the start of another -/

/-- In the place of the last name of `base`, `names` has another one that starts with
it, and the names before are the same. -/
def Shadows : List (List α) → List (List α) → Prop
  | [x], y :: _ => x <+: y ∧ x ≠ y
  | x :: base, y :: names => x = y ∧ Shadows base names
  | _, _ => False

instance Shadows.decidable [DecidableEq α] :
    ∀ base names : List (List α), Decidable (Shadows base names)
  | [], _ => .isFalse id
  | [_], [] => .isFalse id
  | _ :: _ :: _, [] => .isFalse id
  | [x], y :: _ => inferInstanceAs (Decidable (x <+: y ∧ x ≠ y))
  | x :: x' :: base, y :: names =>
    have : Decidable (Shadows (x' :: base) names) := Shadows.decidable _ _
    inferInstanceAs (Decidable (x = y ∧ Shadows (x' :: base) names))

theorem Shadows.not_isPrefix {base names : List (List α)} (h : Shadows base names) :
    ¬ base <+: names := by
  induction base generalizing names with
  | nil => exact absurd h (by simp [Shadows])
  | cons x base ih =>
    intro hpre
    obtain ⟨y, names, rfl⟩ : ∃ y rest, names = y :: rest := by
      cases names with
      | nil => exact absurd (List.prefix_nil.mp hpre) (List.cons_ne_nil x base)
      | cons y rest => exact ⟨y, rest, rfl⟩
    obtain ⟨hxy, hrest⟩ := List.cons_prefix_cons.mp hpre
    cases base with
    | nil => exact h.2 hxy
    | cons x' base => exact ih h.2 hrest

/-- What follows a name in a joined path: nothing, or a separator. -/
theorem join_cases (sep : α) (names : List (List α)) :
    join sep names = [] ∨ ∃ rest, join sep names = sep :: rest := by
  cases names with
  | nil => exact .inl rfl
  | cons name names => exact .inr ⟨name ++ join sep names, rfl⟩

/-- Before a separator, one name ends where the other does. -/
theorem append_sep_prefix_iff {x y u v : List α} (hx : sep ∉ x) (hy : sep ∉ y)
    (hv : v = [] ∨ ∃ rest, v = sep :: rest) :
    x ++ sep :: u <+: y ++ v ↔ x = y ∧ sep :: u <+: v := by
  induction x generalizing y with
  | nil =>
    cases y with
    | nil => exact ⟨fun h => ⟨rfl, h⟩, fun h => h.2⟩
    | cons b y =>
      have hb : sep ≠ b := fun h => hy (h ▸ List.mem_cons_self ..)
      refine iff_of_false (fun h => hb (List.cons_prefix_cons.mp h).1) fun h => ?_
      exact absurd h.1 (List.cons_ne_nil b y).symm
  | cons a x ih =>
    have ha : a ≠ sep := fun h => hx (h ▸ List.mem_cons_self ..)
    cases y with
    | nil =>
      refine iff_of_false (fun h => ?_) fun h => absurd h.1 (List.cons_ne_nil a x)
      rcases hv with rfl | ⟨rest, rfl⟩
      · exact absurd (List.prefix_nil.mp h) (List.cons_ne_nil _ _)
      · exact ha (List.cons_prefix_cons.mp h).1
    | cons b y =>
      rw [List.cons_append, List.cons_append, List.cons_prefix_cons, List.cons.injEq, and_assoc,
        ih (fun h => hx (List.mem_cons_of_mem a h)) fun h => hy (List.mem_cons_of_mem b h)]

/-- At the end of a path, a name only has to start the other. -/
theorem prefix_append_iff {x y v : List α} (hx : sep ∉ x)
    (hv : v = [] ∨ ∃ rest, v = sep :: rest) : x <+: y ++ v ↔ x <+: y := by
  induction x generalizing y with
  | nil => exact iff_of_true ⟨_, rfl⟩ ⟨_, rfl⟩
  | cons a x ih =>
    have ha : a ≠ sep := fun h => hx (h ▸ List.mem_cons_self ..)
    cases y with
    | nil =>
      refine iff_of_false (fun h => ?_) fun h =>
        absurd (List.prefix_nil.mp h) (List.cons_ne_nil a x)
      rcases hv with rfl | ⟨rest, rfl⟩
      · exact absurd (List.prefix_nil.mp h) (List.cons_ne_nil a x)
      · exact ha (List.cons_prefix_cons.mp h).1
    | cons b y =>
      rw [List.cons_append, List.cons_prefix_cons, List.cons_prefix_cons,
        ih fun h => hx (List.mem_cons_of_mem a h)]

theorem join_prefix_iff {base names : List (List α)} (hb : Normal sep dot base)
    (hn : Normal sep dot names) (hne : base ≠ []) :
    join sep base <+: join sep names ↔ base <+: names ∨ Shadows base names := by
  induction base generalizing names with
  | nil => exact absurd rfl hne
  | cons x base ih =>
    have hx : sep ∉ x := (hb x (List.mem_cons_self ..)).sep_not_mem
    cases names with
    | nil =>
      have hfar : ¬ Shadows (x :: base) [] := by
        cases base <;> exact id
      refine iff_of_false (fun h => ?_) fun h => ?_
      · exact absurd (List.prefix_nil.mp h) (List.cons_ne_nil _ _)
      · rcases h with h | h
        · exact absurd (List.prefix_nil.mp h) (List.cons_ne_nil _ _)
        · exact hfar h
    | cons y names =>
      have hy : sep ∉ y := (hn y (List.mem_cons_self ..)).sep_not_mem
      have hrest : join sep (x :: base) <+: join sep (y :: names) ↔
          x ++ join sep base <+: y ++ join sep names := by
        show sep :: (x ++ join sep base) <+: sep :: (y ++ join sep names) ↔ _
        rw [List.cons_prefix_cons, and_iff_right rfl]
      rw [hrest, List.cons_prefix_cons]
      cases base with
      | nil =>
        have hnil : join sep ([] : List (List α)) = [] := rfl
        rw [hnil, List.append_nil, prefix_append_iff hx (join_cases sep names)]
        constructor
        · intro h
          by_cases hxy : x = y
          · exact .inl ⟨hxy, _, rfl⟩
          · exact .inr ⟨h, hxy⟩
        · rintro (⟨rfl, -⟩ | h)
          · exact List.prefix_rfl
          · exact h.1
      | cons x' base =>
        have hcons : join sep (x' :: base) = sep :: (x' ++ join sep base) := rfl
        have ih := @ih names (fun n hm => hb n (List.mem_cons_of_mem x hm))
          (fun n hm => hn n (List.mem_cons_of_mem y hm)) (List.cons_ne_nil x' base)
        rw [hcons] at ih ⊢
        rw [append_sep_prefix_iff hx hy (join_cases sep names), ih, and_or_left]
        rfl

/-- **One rendered path starts with another** if the other's names come first in it,
or if a longer name than its last one takes that one's place. -/
theorem render_prefix_iff {base names : List (List α)} (hb : Normal sep dot base)
    (hn : Normal sep dot names) :
    render sep base <+: render sep names ↔ base <+: names ∨ Shadows base names := by
  by_cases hbase : base = []
  · subst hbase
    refine iff_of_true ?_ (.inl ⟨_, rfl⟩)
    rw [render, if_pos rfl, render]
    split
    · exact List.prefix_rfl
    case isFalse hne =>
      obtain ⟨name, others, rfl⟩ := List.exists_cons_of_ne_nil hne
      exact ⟨name ++ join sep others, rfl⟩
  rw [render, if_neg hbase, render]
  split
  case isFalse => exact join_prefix_iff hb hn hbase
  case isTrue hnil =>
    subst hnil
    rw [← join_prefix_iff hb hn hbase]
    obtain ⟨x, others, rfl⟩ := List.exists_cons_of_ne_nil hbase
    have hx : x ≠ [] := (hb x (List.mem_cons_self ..)).ne_nil
    obtain ⟨a, x, rfl⟩ := List.exists_cons_of_ne_nil hx
    refine iff_of_false (fun h => ?_) fun h => ?_
    · exact absurd (List.prefix_nil.mp (List.cons_prefix_cons.mp h).2) (List.cons_ne_nil _ _)
    · exact absurd (List.prefix_nil.mp h) (List.cons_ne_nil _ _)

theorem head?_render (sep : α) (names : List (List α)) : (render sep names).head? = some sep := by
  unfold render
  split
  · rfl
  case isFalse hne =>
    obtain ⟨name, others, rfl⟩ := List.exists_cons_of_ne_nil hne
    rfl

end LexPath

/-
The dictionary as a sorted list (`adt/dict.c`).

* `lookupAt_spec`, `lowerBoundAt_spec`, `upperBoundAt_spec` — what the searches find;
* `verify_iff` — what `dict_verify` checks;
* `insert_spec`, `delete_spec` — what a call does to the entries, and where it asserts;
* **`exec_apply_refines`** — on every run the dictionary is the list of its entries;
* **`dict_search_exact`**, **`dict_depth_le`** — a search finds what a scan of the entries would
  find, and does not go deep.

Design notes: a node to delete is named by how many others are before it, since `dict_next` takes a
client to each.  A client that has no node to delete does not call.
-/
import Mathlib.Data.List.TakeWhile
import Mongrel2.DictBalance
import Mongrel2.Runs

namespace Mongrel2.Dict

open RedBlack

variable {κ δ : Type*} {cmp : κ → κ → Ordering} {dupes : Bool} {key : κ}

/-! ### The order of the entries -/

/-- The order that `dict_insert` keeps between an entry and those behind it. -/
def Before (cmp : κ → κ → Ordering) (dupes : Bool) (a b : κ × δ) : Prop :=
  cmp a.1 b.1 = .lt ∨ dupes = true ∧ cmp a.1 b.1 = .eq

/-- The entries are in order. -/
def Sorted (cmp : κ → κ → Ordering) (dupes : Bool) (l : List (κ × δ)) : Prop :=
  l.Pairwise (Before cmp dupes)

section

variable {a b c : κ × δ}

theorem Before.isLE (h : Before cmp dupes a b) : (cmp a.1 b.1).isLE := by
  rcases h with h | ⟨-, h⟩ <;> rw [h] <;> rfl

theorem sorted_node {color : Color} {l r : RBTree (κ × δ)}
    (h : Sorted cmp dupes (RBTree.node color l a r).toList) :
    Sorted cmp dupes l.toList ∧ Sorted cmp dupes r.toList ∧
      (∀ b ∈ l.toList, Before cmp dupes b a) ∧ ∀ b ∈ r.toList, Before cmp dupes a b := by
  obtain ⟨hl, hr, hboth⟩ := List.pairwise_append.mp h
  obtain ⟨har, hr⟩ := List.pairwise_cons.mp hr
  exact ⟨hl, hr, fun b hb => hboth b hb a List.mem_cons_self, har⟩

variable [Std.TransCmp cmp]

theorem Before.trans (hab : Before cmp dupes a b) (hbc : Before cmp dupes b c) :
    Before cmp dupes a c := by
  rcases hab with hab | ⟨hdupes, hab⟩
  · exact .inl (Std.TransCmp.lt_of_lt_of_isLE hab hbc.isLE)
  · rcases hbc with hbc | ⟨-, hbc⟩
    · exact .inl (Std.TransCmp.lt_of_eq_of_lt hab hbc)
    · exact .inr ⟨hdupes, Std.TransCmp.eq_trans hab hbc⟩

/-- What is behind an entry that the key comes before. -/
theorem Before.lt_of_lt (hab : Before cmp dupes a b) (h : cmp key a.1 = .lt) :
    cmp key b.1 = .lt :=
  Std.TransCmp.lt_of_lt_of_isLE h hab.isLE

/-- What is before an entry that the key comes behind. -/
theorem Before.gt_of_gt (hab : Before cmp dupes a b) (h : cmp key b.1 = .gt) :
    cmp key a.1 = .gt :=
  Std.OrientedCmp.gt_of_lt (Std.TransCmp.lt_of_isLE_of_lt hab.isLE (Std.OrientedCmp.lt_of_gt h))

theorem Before.ne_lt_of_eq (hab : Before cmp dupes a b) (h : cmp key b.1 = .eq) :
    cmp key a.1 ≠ .lt := by
  intro hlt
  exact absurd (h.symm.trans (hab.lt_of_lt hlt)) (by simp)

theorem Before.ne_gt_of_eq (hab : Before cmp dupes a b) (h : cmp key a.1 = .eq) :
    cmp key b.1 ≠ .gt := by
  intro hgt
  exact absurd (h.symm.trans (hab.gt_of_gt hgt)) (by simp)

/-- Without duplicates, what is before an entry that is equal to the key is less. -/
theorem Before.gt_of_eq (hab : Before cmp false a b) (h : cmp key b.1 = .eq) :
    cmp key a.1 = .gt := by
  rcases hab with hab | ⟨hdupes, -⟩
  · exact Std.OrientedCmp.gt_of_lt (Std.TransCmp.lt_of_lt_of_eq hab (Std.OrientedCmp.eq_symm h))
  · exact absurd hdupes (by simp)

theorem Before.lt_of_eq (hab : Before cmp false a b) (h : cmp key a.1 = .eq) :
    cmp key b.1 = .lt := by
  rcases hab with hab | ⟨hdupes, -⟩
  · exact Std.TransCmp.lt_of_eq_of_lt h hab
  · exact absurd hdupes (by simp)

end

/-! ### Searches -/

section

variable [Std.TransCmp cmp] {t : RBTree (κ × δ)} {p : Path (κ × δ)} {saved x : Loc (κ × δ)}

theorem mem_before_right {a b : κ × δ} {c : Color} {l : RBTree (κ × δ)}
    (h : b ∈ Path.before (⟨.right, c, a, l⟩ :: p)) : b ∈ Path.before p ∨ b ∈ l.toList ∨ b = a := by
  simpa [Path.before, Frame.before] using h

theorem mem_after_left {a b : κ × δ} {c : Color} {r : RBTree (κ × δ)}
    (h : b ∈ Path.after (⟨.left, c, a, r⟩ :: p)) : b ∈ Path.after p ∨ b ∈ r.toList ∨ b = a := by
  have hmem : b = a ∨ b ∈ r.toList ∨ b ∈ Path.after p := by
    simpa [Path.after, Frame.after] using h
  rcases hmem with h | h | h
  · exact .inr (.inr h)
  · exact .inr (.inl h)
  · exact .inl h

theorem lookupDupes_spec (hroot : saved.root = fill t p) (heq : cmp key saved.val.1 = .eq)
    (hbefore : saved.before = Path.before p ++ t.toList)
    (hgt : ∀ a ∈ Path.before p, cmp key a.1 = .gt) (hsorted : Sorted cmp dupes t.toList)
    (hge : ∀ a ∈ t.toList, cmp key a.1 ≠ .lt) :
    (lookupDupes cmp key saved t p).root = fill t p ∧
      cmp key (lookupDupes cmp key saved t p).val.1 = .eq ∧
      ∀ a ∈ (lookupDupes cmp key saved t p).before, cmp key a.1 = .gt := by
  induction t generalizing saved p with
  | nil =>
    refine ⟨hroot, heq, fun a ha => hgt a ?_⟩
    rw [lookupDupes, hbefore] at ha
    simpa [RBTree.toList] using ha
  | node c l a r ihl ihr =>
    obtain ⟨hl, hr, hla, har⟩ := sorted_node hsorted
    rw [lookupDupes]
    split
    · next h =>
      refine ihl rfl h ?_ ?_ hl fun b hb => (hla b hb).ne_lt_of_eq h
      · simp [Loc.before, Path.before, Frame.before]
      · intro b hb
        exact hgt b (by simpa [Path.before, Frame.before] using hb)
    · next h =>
      -- the node is less than the key, and so are those before it
      have ha : cmp key a.1 = .gt := by
        have hne := hge a (by simp [RBTree.toList])
        cases hcmp : cmp key a.1 with
        | lt => exact absurd hcmp hne
        | eq => exact absurd hcmp h
        | gt => rfl
      refine ihr hroot heq ?_ ?_ hr fun b hb => hge b (by simp [RBTree.toList, hb])
      · rw [hbefore]
        simp [RBTree.toList, Path.before, Frame.before]
      · intro b hb
        rcases mem_before_right hb with hb | hb | rfl
        · exact hgt b hb
        · exact (hla b hb).gt_of_gt ha
        · exact ha

/-- **`dict_lookup`** finds the first node that is equal to the key, if there is one. -/
theorem lookupAt_spec (hgt : ∀ a ∈ Path.before p, cmp key a.1 = .gt)
    (hsorted : Sorted cmp dupes t.toList) :
    (∀ x, lookupAt cmp dupes key t p = some x → x.root = fill t p ∧ cmp key x.val.1 = .eq ∧
      ∀ a ∈ x.before, cmp key a.1 = .gt) ∧
    (lookupAt cmp dupes key t p = none → ∀ a ∈ t.toList, cmp key a.1 ≠ .eq) := by
  induction t generalizing p with
  | nil => exact ⟨fun x h => absurd h (by simp [lookupAt]), fun _ a ha => absurd ha (by simp [RBTree.toList])⟩
  | node c l a r ihl ihr =>
    obtain ⟨hl, hr, hla, har⟩ := sorted_node hsorted
    have hmem : ∀ b ∈ (RBTree.node c l a r).toList, b ∈ l.toList ∨ b = a ∨ b ∈ r.toList := by
      intro b hb
      simpa [RBTree.toList] using hb
    rw [lookupAt]
    cases hcmp : cmp key a.1 with
    | lt =>
      obtain ⟨hsome, hnone⟩ := @ihl (⟨.left, c, a, r⟩ :: p)
        (fun b hb => hgt b (by simpa [Path.before, Frame.before] using hb)) hl
      refine ⟨hsome, fun h b hb => ?_⟩
      rcases hmem b hb with hb | rfl | hb
      · exact hnone h b hb
      · simp [hcmp]
      · simp [(har b hb).lt_of_lt hcmp]
    | gt =>
      have hgt' : ∀ b ∈ Path.before (⟨.right, c, a, l⟩ :: p), cmp key b.1 = .gt := by
        intro b hb
        rcases mem_before_right hb with hb | hb | rfl
        · exact hgt b hb
        · exact (hla b hb).gt_of_gt hcmp
        · exact hcmp
      obtain ⟨hsome, hnone⟩ := ihr hgt' hr
      refine ⟨hsome, fun h b hb => ?_⟩
      rcases hmem b hb with hb | rfl | hb
      · simp [(hla b hb).gt_of_gt hcmp]
      · simp [hcmp]
      · exact hnone h b hb
    | eq =>
      dsimp only
      split
      · refine ⟨fun x h => ?_, fun h => absurd h (by simp)⟩
        obtain rfl := Option.some.inj h
        refine lookupDupes_spec rfl hcmp ?_ ?_ hl fun b hb => (hla b hb).ne_lt_of_eq hcmp
        · simp [Loc.before, Path.before, Frame.before]
        · intro b hb
          exact hgt b (by simpa [Path.before, Frame.before] using hb)
      · next hdupes =>
        obtain rfl : dupes = false := by simpa using hdupes
        refine ⟨fun x h => ?_, fun h => absurd h (by simp)⟩
        obtain rfl := Option.some.inj h
        refine ⟨rfl, hcmp, fun b hb => ?_⟩
        rcases List.mem_append.mp hb with hb | hb
        · exact hgt b hb
        · exact (hla b hb).gt_of_eq hcmp

/-- **`dict_lower_bound`** finds the first node that is not less than the key. -/
theorem lowerBoundAt_spec {tentative : Option (Loc (κ × δ))}
    (htentative : ∀ y, tentative = some y → y.root = fill t p ∧ cmp key y.val.1 ≠ .gt ∧
      y.before = Path.before p ++ t.toList)
    (hgt : ∀ a ∈ Path.before p, cmp key a.1 = .gt) (hsorted : Sorted cmp dupes t.toList) :
    (∀ x, lowerBoundAt cmp dupes key tentative t p = some x → x.root = fill t p ∧
      cmp key x.val.1 ≠ .gt ∧ ∀ a ∈ x.before, cmp key a.1 = .gt) ∧
    (lowerBoundAt cmp dupes key tentative t p = none → tentative = none ∧
      ∀ a ∈ t.toList, cmp key a.1 = .gt) := by
  induction t generalizing p tentative with
  | nil =>
    refine ⟨fun x h => ?_, fun h => ⟨h, fun a ha => absurd ha (by simp [RBTree.toList])⟩⟩
    obtain ⟨hroot, hle, hbefore⟩ := htentative x h
    refine ⟨hroot, hle, fun a ha => hgt a ?_⟩
    rw [hbefore] at ha
    simpa [RBTree.toList] using ha
  | node c l a r ihl ihr =>
    obtain ⟨hl, hr, hla, har⟩ := sorted_node hsorted
    have hleft : ∀ b ∈ Path.before (⟨.left, c, a, r⟩ :: p), cmp key b.1 = .gt := by
      intro b hb
      exact hgt b (by simpa [Path.before, Frame.before] using hb)
    -- the node itself becomes the tentative one
    have hhere : cmp key a.1 ≠ .gt → ∀ y, some (⟨c, l, a, r, p⟩ : Loc (κ × δ)) = some y →
        y.root = fill l (⟨.left, c, a, r⟩ :: p) ∧ cmp key y.val.1 ≠ .gt ∧
          y.before = Path.before (⟨.left, c, a, r⟩ :: p) ++ l.toList := by
      intro hle y hy
      obtain rfl := Option.some.inj hy
      exact ⟨rfl, hle, by simp [Loc.before, Path.before, Frame.before]⟩
    rw [lowerBoundAt]
    cases hcmp : cmp key a.1 with
    | gt =>
      have hright : ∀ b ∈ Path.before (⟨.right, c, a, l⟩ :: p), cmp key b.1 = .gt := by
        intro b hb
        rcases mem_before_right hb with hb | hb | rfl
        · exact hgt b hb
        · exact (hla b hb).gt_of_gt hcmp
        · exact hcmp
      obtain ⟨hsome, hnone⟩ := @ihr (⟨.right, c, a, l⟩ :: p) tentative (fun y hy => by
        obtain ⟨hroot, hle, hbefore⟩ := htentative y hy
        refine ⟨hroot, hle, ?_⟩
        rw [hbefore]
        simp [RBTree.toList, Path.before, Frame.before]) hright hr
      refine ⟨hsome, fun h => ⟨(hnone h).1, fun b hb => ?_⟩⟩
      have hb : b ∈ l.toList ∨ b = a ∨ b ∈ r.toList := by simpa [RBTree.toList] using hb
      rcases hb with hb | rfl | hb
      · exact (hla b hb).gt_of_gt hcmp
      · exact hcmp
      · exact (hnone h).2 b hb
    | lt =>
      obtain ⟨hsome, hnone⟩ := ihl (hhere (by simp [hcmp])) hleft hl
      exact ⟨hsome, fun h => absurd (hnone h).1 (by simp)⟩
    | eq =>
      dsimp only
      split
      · obtain ⟨hsome, hnone⟩ := ihl (hhere (by simp [hcmp])) hleft hl
        exact ⟨hsome, fun h => absurd (hnone h).1 (by simp)⟩
      · next hdupes =>
        obtain rfl : dupes = false := by simpa using hdupes
        refine ⟨fun x h => ?_, fun h => absurd h (by simp)⟩
        obtain rfl := Option.some.inj h
        refine ⟨rfl, by simp [hcmp], fun b hb => ?_⟩
        rcases List.mem_append.mp hb with hb | hb
        · exact hgt b hb
        · exact (hla b hb).gt_of_eq hcmp

/-- **`dict_upper_bound`** finds the last node that is not greater than the key. -/
theorem upperBoundAt_spec {tentative : Option (Loc (κ × δ))}
    (htentative : ∀ y, tentative = some y → y.root = fill t p ∧ cmp key y.val.1 ≠ .lt ∧
      y.after = t.toList ++ Path.after p)
    (hlt : ∀ a ∈ Path.after p, cmp key a.1 = .lt) (hsorted : Sorted cmp dupes t.toList) :
    (∀ x, upperBoundAt cmp dupes key tentative t p = some x → x.root = fill t p ∧
      cmp key x.val.1 ≠ .lt ∧ ∀ a ∈ x.after, cmp key a.1 = .lt) ∧
    (upperBoundAt cmp dupes key tentative t p = none → tentative = none ∧
      ∀ a ∈ t.toList, cmp key a.1 = .lt) := by
  induction t generalizing p tentative with
  | nil =>
    refine ⟨fun x h => ?_, fun h => ⟨h, fun a ha => absurd ha (by simp [RBTree.toList])⟩⟩
    obtain ⟨hroot, hge, hafter⟩ := htentative x h
    refine ⟨hroot, hge, fun a ha => hlt a ?_⟩
    rw [hafter] at ha
    simpa [RBTree.toList] using ha
  | node c l a r ihl ihr =>
    obtain ⟨hl, hr, hla, har⟩ := sorted_node hsorted
    have hright : ∀ b ∈ Path.after (⟨.right, c, a, l⟩ :: p), cmp key b.1 = .lt := by
      intro b hb
      exact hlt b (by simpa [Path.after, Frame.after] using hb)
    have hhere : cmp key a.1 ≠ .lt → ∀ y, some (⟨c, l, a, r, p⟩ : Loc (κ × δ)) = some y →
        y.root = fill r (⟨.right, c, a, l⟩ :: p) ∧ cmp key y.val.1 ≠ .lt ∧
          y.after = r.toList ++ Path.after (⟨.right, c, a, l⟩ :: p) := by
      intro hge y hy
      obtain rfl := Option.some.inj hy
      exact ⟨rfl, hge, by simp [Loc.after, Path.after, Frame.after]⟩
    rw [upperBoundAt]
    cases hcmp : cmp key a.1 with
    | lt =>
      have hleft : ∀ b ∈ Path.after (⟨.left, c, a, r⟩ :: p), cmp key b.1 = .lt := by
        intro b hb
        rcases mem_after_left hb with hb | hb | rfl
        · exact hlt b hb
        · exact (har b hb).lt_of_lt hcmp
        · exact hcmp
      obtain ⟨hsome, hnone⟩ := @ihl (⟨.left, c, a, r⟩ :: p) tentative (fun y hy => by
        obtain ⟨hroot, hge, hafter⟩ := htentative y hy
        refine ⟨hroot, hge, ?_⟩
        rw [hafter]
        simp [RBTree.toList, Path.after, Frame.after]) hleft hl
      refine ⟨hsome, fun h => ⟨(hnone h).1, fun b hb => ?_⟩⟩
      have hb : b ∈ l.toList ∨ b = a ∨ b ∈ r.toList := by simpa [RBTree.toList] using hb
      rcases hb with hb | rfl | hb
      · exact (hnone h).2 b hb
      · exact hcmp
      · exact (har b hb).lt_of_lt hcmp
    | gt =>
      obtain ⟨hsome, hnone⟩ := ihr (hhere (by simp [hcmp])) hright hr
      exact ⟨hsome, fun h => absurd (hnone h).1 (by simp)⟩
    | eq =>
      dsimp only
      split
      · obtain ⟨hsome, hnone⟩ := ihr (hhere (by simp [hcmp])) hright hr
        exact ⟨hsome, fun h => absurd (hnone h).1 (by simp)⟩
      · next hdupes =>
        obtain rfl : dupes = false := by simpa using hdupes
        refine ⟨fun x h => ?_, fun h => absurd h (by simp)⟩
        obtain rfl := Option.some.inj h
        refine ⟨rfl, by simp [hcmp], fun b hb => ?_⟩
        rcases List.mem_append.mp hb with hb | hb
        · exact (har b hb).lt_of_eq hcmp
        · exact hlt b hb

end

/-! ### Insertions -/

/-- A list with an entry behind those that it does not come before. -/
def insertEntry (cmp : κ → κ → Ordering) (e : κ × δ) : List (κ × δ) → List (κ × δ)
  | [] => [e]
  | n :: nodes => if cmp e.1 n.1 = .lt then e :: n :: nodes else n :: insertEntry cmp e nodes

/-- The key is among those of the entries. -/
def HasKey (cmp : κ → κ → Ordering) (key : κ) (l : List (κ × δ)) : Prop :=
  ∃ a ∈ l, cmp key a.1 = .eq

instance (l : List (κ × δ)) : Decidable (HasKey cmp key l) :=
  inferInstanceAs (Decidable (∃ a ∈ l, cmp key a.1 = .eq))

section

variable {e : κ × δ} {l l' : List (κ × δ)}

theorem insertEntry_append (hl : ∀ a ∈ l, cmp e.1 a.1 ≠ .lt) (hl' : ∀ a ∈ l', cmp e.1 a.1 = .lt) :
    insertEntry cmp e (l ++ l') = l ++ e :: l' := by
  induction l with
  | nil =>
    cases l' with
    | nil => rfl
    | cons a l' => exact if_pos (hl' a List.mem_cons_self)
  | cons a l ih =>
    rw [List.cons_append, insertEntry, if_neg (hl a List.mem_cons_self),
      ih fun b hb => hl b (List.mem_cons_of_mem a hb)]
    rfl

theorem length_insertEntry (e : κ × δ) (l : List (κ × δ)) :
    (insertEntry cmp e l).length = l.length + 1 := by
  induction l with
  | nil => rfl
  | cons a l ih =>
    rw [insertEntry]
    split
    · rfl
    · rw [List.length_cons, ih, List.length_cons]

variable [Std.TransCmp cmp]

/-- **The place of an insertion** is behind all that the key does not come before. -/
theorem insertWhere_spec {t : RBTree (κ × δ)} {p : Path (κ × δ)}
    (hsorted : Sorted cmp dupes t.toList) :
    (∀ q, insertWhere cmp dupes key t p = some q → fill .nil q = fill t p ∧
      ∃ l l', t.toList = l ++ l' ∧ Path.before q = Path.before p ++ l ∧
        Path.after q = l' ++ Path.after p ∧ (∀ a ∈ l, cmp key a.1 ≠ .lt) ∧
        ∀ a ∈ l', cmp key a.1 = .lt) ∧
    (insertWhere cmp dupes key t p = none ↔ dupes = false ∧ HasKey cmp key t.toList) := by
  induction t generalizing p with
  | nil =>
    refine ⟨fun q h => ?_, iff_of_false (by simp [insertWhere]) (by simp [HasKey, RBTree.toList])⟩
    obtain rfl := Option.some.inj h
    exact ⟨rfl, [], [], rfl, by simp, by simp, by simp, by simp⟩
  | node c l a r ihl ihr =>
    obtain ⟨hl, hr, hla, har⟩ := sorted_node hsorted
    have hhas : HasKey cmp key (RBTree.node c l a r).toList ↔
        HasKey cmp key l.toList ∨ cmp key a.1 = .eq ∨ HasKey cmp key r.toList := by
      simp only [HasKey, RBTree.toList, List.mem_append, List.mem_cons, or_and_right, exists_or,
        exists_eq_left]
    rw [insertWhere]
    split
    · next h => exact ⟨fun q hq => absurd hq (by simp), iff_of_true rfl ⟨h.2, hhas.mpr (.inr (.inl h.1))⟩⟩
    · next hdupe =>
      split
      · next hlt =>
        have hrlt : ∀ b ∈ a :: r.toList, cmp key b.1 = .lt := by
          intro b hb
          rcases List.mem_cons.mp hb with rfl | hb
          · exact hlt
          · exact (har b hb).lt_of_lt hlt
        obtain ⟨hsome, hnone⟩ := @ihl (⟨.left, c, a, r⟩ :: p) hl
        constructor
        · intro q hq
          obtain ⟨hfill, l₁, l₂, hlist, hbefore, hafter, hge, hl₂⟩ := hsome q hq
          refine ⟨hfill, l₁, l₂ ++ a :: r.toList, ?_, ?_, ?_, hge, ?_⟩
          · rw [RBTree.toList, hlist, List.append_assoc]
          · rw [hbefore]
            simp [Path.before, Frame.before]
          · rw [hafter]
            simp [Path.after, Frame.after]
          · intro b hb
            exact (List.mem_append.mp hb).elim (hl₂ b) (hrlt b)
        · refine hnone.trans (and_congr_right fun hdupes => ?_)
          rw [hhas]
          refine (or_iff_left ?_).symm
          rintro (heq | ⟨b, hb, heq⟩)
          · exact absurd (heq.symm.trans hlt) (by simp)
          · exact absurd (heq.symm.trans (hrlt b (List.mem_cons_of_mem a hb))) (by simp)
      · next hnlt =>
        have hlge : ∀ b ∈ l.toList ++ [a], cmp key b.1 ≠ .lt := by
          intro b hb
          rcases List.mem_append.mp hb with hb | hb
          · exact fun h => hnlt ((hla b hb).lt_of_lt h)
          · exact List.mem_singleton.mp hb ▸ hnlt
        obtain ⟨hsome, hnone⟩ := @ihr (⟨.right, c, a, l⟩ :: p) hr
        constructor
        · intro q hq
          obtain ⟨hfill, l₁, l₂, hlist, hbefore, hafter, hge, hl₂⟩ := hsome q hq
          refine ⟨hfill, l.toList ++ [a] ++ l₁, l₂, ?_, ?_, ?_, ?_, hl₂⟩
          · rw [RBTree.toList, hlist]
            simp
          · rw [hbefore]
            simp [Path.before, Frame.before]
          · rw [hafter]
            simp [Path.after, Frame.after]
          · intro b hb
            exact (List.mem_append.mp hb).elim (hlge b) (hge b)
        · refine hnone.trans (and_congr_right fun hdupes => ?_)
          have hgt : cmp key a.1 = .gt := by
            cases h : cmp key a.1 with
            | lt => exact absurd h hnlt
            | eq => exact absurd ⟨h, hdupes⟩ hdupe
            | gt => rfl
          rw [hhas]
          constructor
          · exact fun h => .inr (.inr h)
          · rintro (⟨b, hb, heq⟩ | heq | h)
            · exact absurd (heq.symm.trans ((hla b hb).gt_of_gt hgt)) (by simp)
            · exact absurd (heq.symm.trans hgt) (by simp)
            · exact h

/-- An insertion keeps the entries in order. -/
theorem sorted_insertEntry (h : Sorted cmp dupes l) (hkey : dupes = true ∨ ¬ HasKey cmp e.1 l) :
    Sorted cmp dupes (insertEntry cmp e l) := by
  induction l with
  | nil => exact List.pairwise_singleton _ _
  | cons a l ih =>
    obtain ⟨hal, hl⟩ := List.pairwise_cons.mp h
    rw [insertEntry]
    split
    · next hlt =>
      refine List.pairwise_cons.mpr ⟨fun b hb => ?_, h⟩
      rcases List.mem_cons.mp hb with rfl | hb
      · exact .inl hlt
      · exact .inl ((hal b hb).lt_of_lt hlt)
    · next hnlt =>
      have hae : Before cmp dupes a e := by
        cases hcmp : cmp e.1 a.1 with
        | lt => exact absurd hcmp hnlt
        | gt => exact .inl (Std.OrientedCmp.lt_of_gt hcmp)
        | eq =>
          rcases hkey with hdupes | hno
          · exact .inr ⟨hdupes, Std.OrientedCmp.eq_symm hcmp⟩
          · exact absurd ⟨a, List.mem_cons_self, hcmp⟩ hno
      have hrest : Sorted cmp dupes (insertEntry cmp e l) := by
        refine ih hl (hkey.imp_right fun hno => ?_)
        rintro ⟨b, hb, heq⟩
        exact hno ⟨b, List.mem_cons_of_mem a hb, heq⟩
      have hmem : ∀ {l : List (κ × δ)} {b}, b ∈ insertEntry cmp e l → b = e ∨ b ∈ l := by
        intro l b hb
        induction l with
        | nil => exact .inl (List.mem_singleton.mp hb)
        | cons n l ih =>
          rw [insertEntry] at hb
          split at hb
          · exact List.mem_cons.mp hb
          · rcases List.mem_cons.mp hb with rfl | hb
            · exact .inr List.mem_cons_self
            · exact (ih hb).imp_right (List.mem_cons_of_mem n)
      refine List.pairwise_cons.mpr ⟨fun b hb => ?_, hrest⟩
      rcases hmem hb with rfl | hb
      · exact hae
      · exact hal b hb

/-- The first entry of a key stays the first. -/
theorem find?_insertEntry (h : Sorted cmp dupes l) (key : κ) :
    (insertEntry cmp e l).find? (fun a => cmp key a.1 = .eq) =
      (l.find? fun a => cmp key a.1 = .eq).or (if cmp key e.1 = .eq then some e else none) := by
  induction l with
  | nil =>
    rw [insertEntry, List.find?_singleton, List.find?_nil, Option.none_or]
    simp
  | cons n l ih =>
    obtain ⟨hnl, hl⟩ := List.pairwise_cons.mp h
    rw [insertEntry]
    split
    · next hlt =>
      by_cases hkey : cmp key e.1 = .eq
      · have hnone : (n :: l).find? (fun a => cmp key a.1 = .eq) = none := by
          refine List.find?_eq_none.mpr fun a ha => ?_
          have hea : cmp e.1 a.1 = .lt := by
            rcases List.mem_cons.mp ha with rfl | ha
            · exact hlt
            · exact (hnl a ha).lt_of_lt hlt
          simp [Std.TransCmp.lt_of_eq_of_lt hkey hea]
        rw [hnone, Option.none_or, if_pos hkey]
        exact List.find?_cons_of_pos (by simpa using hkey)
      · rw [if_neg hkey, Option.or_none]
        exact List.find?_cons_of_neg (by simpa using hkey)
    · next hnlt =>
      by_cases hkey : cmp key n.1 = .eq
      · rw [List.find?_cons_of_pos (by simpa using hkey), List.find?_cons_of_pos (by simpa using hkey)]
        rfl
      · rw [List.find?_cons_of_neg (by simpa using hkey), List.find?_cons_of_neg (by simpa using hkey),
          ih hl]

end

/-! ### The checks -/

theorem verifyRedblack_of_balanced {α : Type*} {t : RBTree α} {n : ℕ} (h : t.Balanced n) :
    verifyRedblack t = n + 1 := by
  induction h with
  | nil => rfl
  | red _ _ hlc hrc ihl ihr => simp [verifyRedblack, ihl, ihr, hlc, hrc]
  | black _ _ ihl ihr => simp [verifyRedblack, ihl, ihr]

theorem balanced_of_verifyRedblack {α : Type*} {t : RBTree α} (h : verifyRedblack t ≠ 0) :
    t.Balanced (verifyRedblack t - 1) := by
  induction t with
  | nil => exact .nil
  | node c l a r ihl ihr =>
    have hzero : ¬ (verifyRedblack l = 0 ∨ verifyRedblack r = 0) := by
      intro hzero
      cases c <;> exact h (if_pos hzero)
    have heq : ¬ verifyRedblack l ≠ verifyRedblack r := by
      intro hne
      cases c <;> exact h ((if_neg hzero).trans (if_pos hne))
    rw [not_or] at hzero
    rw [not_not] at heq
    have hl := ihl hzero.1
    have hr := ihr hzero.2
    rw [← heq] at hr
    cases c with
    | red =>
      rw [verifyRedblack, if_neg (not_or.mpr hzero), if_neg (not_not.mpr heq)] at h ⊢
      by_cases hc : l.color ≠ .black ∨ r.color ≠ .black
      · exact absurd (if_pos hc) h
      · rw [if_neg hc]
        rw [not_or, not_not, not_not] at hc
        exact .red hl hr hc.1 hc.2
    | black =>
      have hsucc : verifyRedblack l + 1 - 1 = verifyRedblack l - 1 + 1 := by
        have hpos := Nat.pos_of_ne_zero hzero.1
        omega
      rw [verifyRedblack, if_neg (not_or.mpr hzero), if_neg (not_not.mpr heq), hsucc]
      exact .black hl hr

theorem verifyNodeCount_eq {α : Type*} (t : RBTree α) : verifyNodeCount t = t.size := by
  induction t with
  | nil => rfl
  | node c l a r ihl ihr =>
    rw [verifyNodeCount, ihl, ihr, RBTree.size]
    omega

theorem verifyBintree_iff [Std.TransCmp cmp] (l : List (κ × δ)) :
    verifyBintree cmp dupes l = true ↔ Sorted cmp dupes l := by
  have hone : ∀ a b : κ × δ, (if dupes then decide (cmp a.1 b.1 ≠ .gt)
      else decide (cmp a.1 b.1 = .lt)) = true ↔ Before cmp dupes a b := by
    intro a b
    rw [Before]
    cases dupes <;> cases cmp a.1 b.1 <;> simp
  have : Trans (Before (δ := δ) cmp dupes) (Before cmp dupes) (Before cmp dupes) := ⟨Before.trans⟩
  rw [Sorted, ← List.isChain_iff_pairwise]
  induction l with
  | nil => exact iff_of_true rfl .nil
  | cons a l ih =>
    cases l with
    | nil => exact iff_of_true rfl (.singleton a)
    | cons b l =>
      rw [List.isChain_cons_cons, verifyBintree, Bool.and_eq_true]
      exact and_congr (hone a b) ih

/-! ### Calls -/

/-- What every call relies on, and keeps. -/
structure Valid (cmp : κ → κ → Ordering) (d : Dict κ δ) : Prop where
  isRedBlack : d.tree.IsRedBlack
  sorted : Sorted cmp d.dupes d.tree.toList
  count : d.nodecount = d.tree.size
  count_le : d.nodecount ≤ d.maxcount

section

variable [Std.TransCmp cmp] {d d' : Dict κ δ} {data : δ} {x : Loc (κ × δ)}

/-- **What `dict_verify` checks.** -/
theorem verify_iff : d.verify cmp = true ↔
    d.tree.IsRedBlack ∧ Sorted cmp d.dupes d.tree.toList ∧ d.tree.size = d.nodecount := by
  rw [verify, entries_eq, verifyNodeCount_eq]
  simp only [Bool.and_eq_true, decide_eq_true_eq, verifyBintree_iff]
  constructor
  · rintro ⟨⟨⟨hc, hsorted⟩, hheight⟩, hcount⟩
    exact ⟨⟨⟨_, balanced_of_verifyRedblack hheight⟩, hc⟩, hsorted, hcount⟩
  · rintro ⟨⟨⟨n, hn⟩, hc⟩, hsorted, hcount⟩
    have hheight := verifyRedblack_of_balanced hn
    exact ⟨⟨⟨hc, hsorted⟩, by omega⟩, hcount⟩

/-- **An insertion** asserts that the dictionary is not full, and that the key is new unless
duplicates are allowed.  No other assertion fails. -/
theorem insert_spec (h : Valid cmp d) (key : κ) (data : δ) :
    (d.insert cmp key data = none ↔
      d.nodecount = d.maxcount ∨ d.dupes = false ∧ HasKey cmp key d.tree.toList) ∧
    ∀ d', d.insert cmp key data = some d' → Valid cmp d' ∧ d'.dupes = d.dupes ∧
      d'.maxcount = d.maxcount ∧
      d'.tree.toList = insertEntry cmp (key, data) d.tree.toList := by
  rw [insert]
  by_cases hfull : d.isfull = true
  · rw [if_pos hfull]
    exact ⟨iff_of_true rfl (.inl (beq_iff_eq.mp hfull)), fun d' h => absurd h (by simp)⟩
  · rw [if_neg hfull]
    have hne : d.nodecount ≠ d.maxcount := fun heq => hfull (beq_iff_eq.mpr heq)
    obtain ⟨hsome, hnone⟩ := @insertWhere_spec _ _ cmp d.dupes key _ d.tree [] h.sorted
    rw [or_iff_right hne, ← hnone]
    cases hwhere : insertWhere cmp d.dupes key d.tree [] with
    | none => exact ⟨iff_of_true rfl rfl, fun d' h => absurd h (by simp)⟩
    | some q =>
      obtain ⟨hfill, l, l', hlist, hbefore, hafter, hge, hlt⟩ := hsome q hwhere
      obtain ⟨n, hq, hnil, -⟩ := isRedBlack_fill_iff.mp
        (show (fill .nil q).IsRedBlack by rw [hfill]; exact h.isRedBlack)
      cases hnil with
      | nil =>
      obtain ⟨t, hloop, hred⟩ := @insertLoop_spec _ (.node .red .nil (key, data) .nil) q 0 hq
        (.red .nil .nil rfl rfl) rfl
      have hentries : (t.paint .black).toList = insertEntry cmp (key, data) d.tree.toList := by
        rw [RBTree.toList_paint, toList_insertLoop hloop, toList_fill, hbefore, hafter, hlist,
          insertEntry_append hge hlt]
        simp [Path.before, Path.after, RBTree.toList]
      have hkey : d.dupes = true ∨ ¬ HasKey cmp key d.tree.toList := by
        cases hdupes : d.dupes with
        | true => exact .inl rfl
        | false =>
          refine .inr fun hhas => ?_
          rw [hnone.mpr ⟨hdupes, hhas⟩] at hwhere
          exact absurd hwhere (by simp)
      have hsorted : Sorted cmp d.dupes (t.paint .black).toList := by
        rw [hentries]
        exact sorted_insertEntry h.sorted hkey
      have hsize : (t.paint .black).size = d.nodecount + 1 := by
        rw [← RBTree.length_toList, hentries, length_insertEntry, RBTree.length_toList, h.count]
      have hverify : Dict.verify cmp
          { d with tree := t.paint .black, nodecount := d.nodecount + 1 } = true :=
        verify_iff.mpr ⟨hred, hsorted, hsize⟩
      have hrun : ((some q).bind fun p => (insertLoop (.node .red .nil (key, data) .nil) p).bind
          fun tree =>
            let d := { d with tree := tree.paint .black, nodecount := d.nodecount + 1 }
            if d.verify cmp then some d else none) =
          some { d with tree := t.paint .black, nodecount := d.nodecount + 1 } := by
        rw [Option.bind_some, hloop, Option.bind_some]
        exact if_pos hverify
      refine ⟨iff_of_false (fun hno => ?_) (by simp), fun d' hd' => ?_⟩
      · exact absurd (hrun.symm.trans hno) (by simp)
      · obtain rfl := Option.some.inj (hrun.symm.trans hd')
        have hle := h.count_le
        refine ⟨⟨hred, hsorted, hsize.symm, ?_⟩, rfl, rfl, hentries⟩
        show d.nodecount + 1 ≤ d.maxcount
        omega

/-- **A deletion** takes out its node, and no assertion fails. -/
theorem delete_spec (h : Valid cmp d) (hx : x.root = d.tree) :
    ∃ d', d.delete cmp x = some d' ∧ Valid cmp d' ∧ d'.dupes = d.dupes ∧
      d'.maxcount = d.maxcount ∧ d'.tree.toList = x.before ++ x.after := by
  have hlist : d.tree.toList = x.before ++ x.val :: x.after := by rw [← hx, x.toList_root]
  have hcount : d.nodecount = (x.before ++ x.after).length + 1 := by
    rw [h.count, ← RBTree.length_toList, hlist]
    simp [Nat.add_assoc]
  obtain ⟨t, p, c, hsplice, hentries, hred, hblack⟩ :=
    splice_spec (show x.root.IsRedBlack by rw [hx]; exact h.isRedBlack)
  have hsorted : Sorted cmp d.dupes (x.before ++ x.after) := by
    have hsub : (x.before ++ x.after).Sublist (x.before ++ x.val :: x.after) :=
      (List.sublist_cons_self _ _).append_left _
    exact (hlist ▸ h.sorted : Sorted cmp d.dupes _).sublist hsub
  obtain ⟨t', hadjust, hred', ht'⟩ : ∃ t', adjust t p c = some t' ∧ t'.IsRedBlack ∧
      t'.toList = x.before ++ x.after := by
    cases c with
    | red => exact ⟨_, rfl, hred rfl, hentries⟩
    | black =>
      obtain ⟨n, hp, hshort⟩ := hblack rfl
      obtain ⟨u, hloop, hredu, hu⟩ := deleteLoop_spec hp hshort
      refine ⟨u.paint .black, ?_, hredu, ?_⟩
      · rw [adjust, if_pos rfl, hloop, Option.map_some]
      · rw [RBTree.toList_paint, hu, hentries]
  have hsize : t'.size = d.nodecount - 1 := by
    rw [← RBTree.length_toList, ht', hcount, Nat.add_sub_cancel]
  have hverify : Dict.verify cmp { d with tree := t', nodecount := d.nodecount - 1 } = true :=
    verify_iff.mpr ⟨hred', ht' ▸ hsorted, hsize⟩
  have hle := h.count_le
  refine ⟨{ d with tree := t', nodecount := d.nodecount - 1 }, ?_, ⟨hred', ht' ▸ hsorted,
    hsize.symm, ?_⟩, rfl, rfl, ht'⟩
  · rw [delete, if_neg (by omega), hsplice]
    show (if verifyBintree cmp d.dupes (entries (fill t p)) then _ else none) = _
    rw [entries_eq, hentries, if_pos ((verifyBintree_iff _).mpr hsorted), hadjust]
    exact if_pos hverify
  · show d.nodecount - 1 ≤ d.maxcount
    omega

end

/-! ### Runs -/

/-- The node with so many others before it, found by `dict_next`. -/
def nodeAt (t : RBTree (κ × δ)) : ℕ → Option (Loc (κ × δ))
  | 0 => first t
  | i + 1 => (nodeAt t i).bind next

theorem nodeAt_eq_some {t : RBTree (κ × δ)} {i : ℕ} {x : Loc (κ × δ)} (h : nodeAt t i = some x) :
    x.root = t ∧ x.before.length = i := by
  induction i generalizing x with
  | zero =>
    obtain ⟨hroot, hbefore⟩ := first_eq_some h
    exact ⟨hroot, by rw [hbefore]; rfl⟩
  | succ i ih =>
    obtain ⟨y, hy, hnext⟩ := Option.bind_eq_some_iff.mp h
    obtain ⟨hroot, hlen⟩ := ih hy
    have hsucc := next_eq_some hnext
    refine ⟨hsucc.root.trans hroot, ?_⟩
    rw [hsucc.before, List.length_append, hlen]
    rfl

theorem nodeAt_eq_none {t : RBTree (κ × δ)} {i : ℕ} (h : nodeAt t i = none) : t.size ≤ i := by
  induction i with
  | zero =>
    rw [leftmost_eq_none_iff.mp h]
    exact Nat.le_refl 0
  | succ i ih =>
    cases hi : nodeAt t i with
    | none => exact Nat.le_succ_of_le (ih hi)
    | some y =>
      obtain ⟨hroot, hlen⟩ := nodeAt_eq_some hi
      have hafter : y.after = [] := next_eq_none (by simpa [nodeAt, hi] using h)
      have hlist := y.toList_root
      rw [hroot, hafter] at hlist
      rw [← t.length_toList, hlist, List.length_append, hlen]
      exact Nat.le_refl _

/-- A call of a client. -/
inductive Op (κ δ : Type*)
  /-- `dict_alloc_insert` -/
  | insert (key : κ) (data : δ)
  /-- `dict_delete`, of the node with so many others before it -/
  | delete (i : ℕ)

/-- A call; `none` where an assertion fails. -/
def apply (cmp : κ → κ → Ordering) (d : Dict κ δ) : Op κ δ → Option (Dict κ δ)
  | .insert key data => d.insert cmp key data
  | .delete i =>
    match nodeAt d.tree i with
    | some x => d.delete cmp x
    | none => some d

/-- The same on a list of entries that is to have at most so many. -/
def applyEntries (cmp : κ → κ → Ordering) (max : ℕ) (dupes : Bool) (l : List (κ × δ)) :
    Op κ δ → Option (List (κ × δ))
  | .insert key data =>
    if l.length = max ∨ dupes = false ∧ HasKey cmp key l then none
    else some (insertEntry cmp (key, data) l)
  | .delete i => some (l.eraseIdx i)

/-- `dict_create`, with `dict_allow_dupes` or without. -/
def start (max : ℕ) (dupes : Bool) : Dict κ δ :=
  if dupes then (create max).allowDupes else create max

/-- The first node that meets a condition. -/
theorem find?_toList {α : Type*} {t : RBTree α} {x : Loc α} {P : α → Bool} (hroot : x.root = t)
    (hx : P x.val = true) (hbefore : ∀ a ∈ x.before, P a = false) :
    t.toList.find? P = some x.val := by
  rw [← hroot, x.toList_root]
  refine List.find?_eq_some_iff_append.mpr ⟨hx, x.before, x.after, rfl, fun a ha => ?_⟩
  rw [hbefore a ha]
  rfl

/-- The last one. -/
theorem find?_reverse_toList {α : Type*} {t : RBTree α} {x : Loc α} {P : α → Bool}
    (hroot : x.root = t) (hx : P x.val = true) (hafter : ∀ a ∈ x.after, P a = false) :
    t.toList.reverse.find? P = some x.val := by
  rw [← hroot, x.toList_root]
  refine List.find?_eq_some_iff_append.mpr
    ⟨hx, x.after.reverse, x.before.reverse, by simp, fun a ha => ?_⟩
  rw [hafter a (List.mem_reverse.mp ha)]
  rfl

theorem valid_start (max : ℕ) (dupes : Bool) : Valid cmp (start max dupes : Dict κ δ) := by
  cases dupes <;> exact ⟨⟨⟨0, .nil⟩, rfl⟩, .nil, rfl, Nat.zero_le _⟩

section

variable [Std.TransCmp cmp] {d d' : Dict κ δ}

/-- One call, on the dictionary and on the list of its entries. -/
theorem apply_spec (h : Valid cmp d) (op : Op κ δ) :
    (apply cmp d op).map (·.tree.toList) = applyEntries cmp d.maxcount d.dupes d.tree.toList op ∧
      ∀ d', apply cmp d op = some d' → Valid cmp d' ∧ d'.dupes = d.dupes ∧ d'.maxcount = d.maxcount := by
  have hlen : d.tree.toList.length = d.nodecount := by rw [RBTree.length_toList, h.count]
  cases op with
  | insert key data =>
    obtain ⟨hnone, hsome⟩ := insert_spec h key data
    rw [← hlen] at hnone
    refine ⟨?_, fun d' hd' => ⟨(hsome d' hd').1, (hsome d' hd').2.1, (hsome d' hd').2.2.1⟩⟩
    rw [apply, applyEntries]
    cases hinsert : d.insert cmp key data with
    | none => rw [if_pos (hnone.mp hinsert), Option.map_none]
    | some d' =>
      have hno : ¬ (d.tree.toList.length = d.maxcount ∨
          d.dupes = false ∧ HasKey cmp key d.tree.toList) := by
        intro hno
        rw [hnone.mpr hno] at hinsert
        exact absurd hinsert (by simp)
      rw [if_neg hno, Option.map_some, (hsome d' hinsert).2.2.2]
  | delete i =>
    rw [apply, applyEntries]
    cases hi : nodeAt d.tree i with
    | none =>
      refine ⟨?_, fun d' hd' => ?_⟩
      · have hle := nodeAt_eq_none hi
        rw [← RBTree.length_toList] at hle
        rw [List.eraseIdx_of_length_le hle]
        rfl
      · obtain rfl := Option.some.inj hd'
        exact ⟨h, rfl, rfl⟩
    | some x =>
      obtain ⟨hroot, hbefore⟩ := nodeAt_eq_some hi
      obtain ⟨d₁, hdelete, hvalid, hdupes, hmax, hlist⟩ := delete_spec h hroot
      refine ⟨?_, fun d' hd' => ?_⟩
      · show (d.delete cmp x).map _ = _
        rw [hdelete, Option.map_some, hlist, ← hroot, x.toList_root, ← hbefore,
          List.eraseIdx_append_of_length_le (Nat.le_refl _), Nat.sub_self]
        rfl
      · obtain rfl := Option.some.inj (hdelete.symm.trans hd')
        exact ⟨hvalid, hdupes, hmax⟩

theorem exec_apply_spec (h : Valid cmp d) (ops : List (Op κ δ)) :
    (Runs.exec (apply cmp) d ops).map (·.tree.toList) =
        Runs.exec (applyEntries cmp d.maxcount d.dupes) d.tree.toList ops ∧
      ∀ d', Runs.exec (apply cmp) d ops = some d' →
        Valid cmp d' ∧ d'.dupes = d.dupes ∧ d'.maxcount = d.maxcount := by
  induction ops generalizing d with
  | nil =>
    refine ⟨rfl, fun d' hd' => ?_⟩
    obtain rfl := Option.some.inj hd'
    exact ⟨h, rfl, rfl⟩
  | cons op ops ih =>
    obtain ⟨hmap, hkeep⟩ := apply_spec h op
    rw [Runs.exec_cons, Runs.exec_cons, ← hmap]
    cases hop : apply cmp d op with
    | none => exact ⟨rfl, fun d' hd' => absurd hd' (by simp)⟩
    | some d₁ =>
      obtain ⟨hvalid, hdupes, hmax⟩ := hkeep d₁ hop
      obtain ⟨hrun, hlast⟩ := ih hvalid
      rw [hdupes, hmax] at hrun
      refine ⟨hrun, fun d' hd' => ?_⟩
      obtain ⟨hvalid', hdupes', hmax'⟩ := hlast d' hd'
      exact ⟨hvalid', hdupes'.trans hdupes, hmax'.trans hmax⟩

theorem valid_of_exec {max : ℕ} {ops : List (Op κ δ)}
    (h : Runs.exec (apply cmp) (start max dupes) ops = some d) : Valid cmp d :=
  ((exec_apply_spec (valid_start max dupes) ops).2 d h).1

theorem toList_exec_start (max : ℕ) (dupes : Bool) (ops : List (Op κ δ)) :
    (Runs.exec (apply cmp) (start max dupes) ops).map (·.tree.toList) =
      Runs.exec (applyEntries cmp max dupes) [] ops := by
  have hrun := (@exec_apply_spec _ _ cmp _ (start max dupes) (valid_start max dupes) ops).1
  have hstart : (start max dupes : Dict κ δ).maxcount = max ∧
      (start max dupes : Dict κ δ).dupes = dupes ∧ (start max dupes : Dict κ δ).tree = .nil := by
    cases dupes <;> exact ⟨rfl, rfl, rfl⟩
  rwa [hstart.1, hstart.2.1, hstart.2.2] at hrun

theorem lookup_spec (h : Valid cmp d) (key : κ) :
    (d.lookup cmp key).map (·.val) = d.tree.toList.find? fun a => cmp key a.1 = .eq := by
  obtain ⟨hsome, hnone⟩ :=
    @lookupAt_spec _ _ cmp d.dupes key _ d.tree [] (by simp [Path.before]) h.sorted
  rw [lookup]
  cases hx : lookupAt cmp d.dupes key d.tree [] with
  | none =>
    refine (List.find?_eq_none.mpr fun a ha => ?_).symm
    simpa using hnone hx a ha
  | some x =>
    obtain ⟨hroot, heq, hbefore⟩ := hsome x hx
    exact (find?_toList hroot (by simpa using heq) fun a ha => by simp [hbefore a ha]).symm

theorem lowerBound_spec (h : Valid cmp d) (key : κ) :
    (d.lowerBound cmp key).map (·.val) = d.tree.toList.find? fun a => cmp key a.1 ≠ .gt := by
  obtain ⟨hsome, hnone⟩ := @lowerBoundAt_spec _ _ cmp d.dupes key _ d.tree [] none (by simp)
    (by simp [Path.before]) h.sorted
  rw [lowerBound]
  cases hx : lowerBoundAt cmp d.dupes key none d.tree [] with
  | none =>
    refine (List.find?_eq_none.mpr fun a ha => ?_).symm
    simp [(hnone hx).2 a ha]
  | some x =>
    obtain ⟨hroot, hle, hbefore⟩ := hsome x hx
    exact (find?_toList hroot (by simpa using hle) fun a ha => by simp [hbefore a ha]).symm

theorem upperBound_spec (h : Valid cmp d) (key : κ) :
    (d.upperBound cmp key).map (·.val) =
      d.tree.toList.reverse.find? fun a => cmp key a.1 ≠ .lt := by
  obtain ⟨hsome, hnone⟩ := @upperBoundAt_spec _ _ cmp d.dupes key _ d.tree [] none (by simp)
    (by simp [Path.after]) h.sorted
  rw [upperBound]
  cases hx : upperBoundAt cmp d.dupes key none d.tree [] with
  | none =>
    refine (List.find?_eq_none.mpr fun a ha => ?_).symm
    simp [(hnone hx).2 a (List.mem_reverse.mp ha)]
  | some x =>
    obtain ⟨hroot, hge, hafter⟩ := hsome x hx
    exact (find?_reverse_toList hroot (by simpa using hge) fun a ha => by simp [hafter a ha]).symm

/-- **On every run the dictionary is the sorted list of its entries**: an insertion goes behind those
with an equal key, a deletion takes its entry out, and an assertion fails for an insertion only, of
a key that is there already where duplicates are not allowed, or of one too many. -/
theorem exec_apply_refines (max : ℕ) (dupes : Bool) (ops : List (Op κ δ)) :
    (Runs.exec (apply cmp) (start max dupes) ops).map (fun d => entries d.tree) =
      Runs.exec (applyEntries cmp max dupes) [] ops := by
  simp only [entries_eq]
  exact toList_exec_start max dupes ops

/-- **A search finds what a scan would find**: the first entry of the key, the first that is not
less, and the last that is not greater. -/
theorem dict_search_exact {max : ℕ} {ops : List (Op κ δ)}
    (h : Runs.exec (apply cmp) (start max dupes) ops = some d) (key : κ) :
    (d.lookup cmp key).map (·.val) = (entries d.tree).find? (fun a => cmp key a.1 = .eq) ∧
      (d.lowerBound cmp key).map (·.val) = (entries d.tree).find? (fun a => cmp key a.1 ≠ .gt) ∧
      (d.upperBound cmp key).map (·.val) =
        (entries d.tree).reverse.find? (fun a => cmp key a.1 ≠ .lt) := by
  have hvalid := valid_of_exec h
  rw [entries_eq]
  exact ⟨lookup_spec hvalid key, lowerBound_spec hvalid key, upperBound_spec hvalid key⟩

/-- **The tree of a dictionary is not deep**, whatever the order of the calls. -/
theorem dict_depth_le {max : ℕ} {ops : List (Op κ δ)}
    (h : Runs.exec (apply cmp) (start max dupes) ops = some d) :
    d.tree.depth ≤ 2 * Nat.log 2 (d.nodecount + 1) := by
  have hvalid := valid_of_exec h
  rw [hvalid.count]
  exact RBTree.depth_le_log_size hvalid.isRedBlack

end

/-- Five insertions, of which two are of one key, and a deletion. -/
def sixCalls : List (Op ℕ ℕ) :=
  [.insert 5 0, .insert 3 1, .insert 8 2, .insert 3 3, .insert 1 4, .delete 1]

theorem exec_apply_refines_sixCalls :
    (Runs.exec (apply compare) (start 5 true) sixCalls).map (fun d => entries d.tree) =
      some [(1, 4), (3, 3), (5, 0), (8, 2)] :=
  (exec_apply_refines 5 true sixCalls).trans (by decide)

theorem dict_search_exact_sixCalls : ∃ d : Dict ℕ ℕ,
    Runs.exec (apply compare) (start 5 true) sixCalls = some d ∧
      (d.lookup compare 3).map (·.val) = (entries d.tree).find? (fun a => compare 3 a.1 = .eq) ∧
      (d.lowerBound compare 3).map (·.val) =
        (entries d.tree).find? (fun a => compare 3 a.1 ≠ .gt) ∧
      (d.upperBound compare 3).map (·.val) =
        (entries d.tree).reverse.find? (fun a => compare 3 a.1 ≠ .lt) := by
  have hsome : (Runs.exec (apply compare) (start 5 true) sixCalls).isSome = true := by decide
  obtain ⟨d, hd⟩ := Option.isSome_iff_exists.mp hsome
  exact ⟨d, hd, dict_search_exact hd 3⟩

theorem dict_depth_le_sixCalls : ∃ d : Dict ℕ ℕ,
    Runs.exec (apply compare) (start 5 true) sixCalls = some d ∧
      d.tree.depth ≤ 2 * Nat.log 2 (d.nodecount + 1) := by
  have hsome : (Runs.exec (apply compare) (start 5 true) sixCalls).isSome = true := by decide
  obtain ⟨d, hd⟩ := Option.isSome_iff_exists.mp hsome
  exact ⟨d, hd, dict_depth_le hd⟩

end Mongrel2.Dict

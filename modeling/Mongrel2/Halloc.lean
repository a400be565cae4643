/-
The hierarchical allocator (`mem/halloc.c`, `mem/hlist.h`).

A block that is attached to another is freed with it.  The children of a block are a list
with a pointer back, from an item to the pointer that leads to it.

* `Heap`, `load`, `store` — the blocks, and the pointers in them;
* `halloc`, `hattach` — the calls, in which an access to a freed block fails as an assertion
  does;
* `Linked` — a heap holds a forest;
* `Linked.extract`, `Linked.adopt`, `Linked.rename` — what is linked after a change of pointers;
* `hlistDel_spec`, `hlistAdd_spec`, `relateLoop_spec`, `freeLoop_spec` — what the parts do.

Design notes: a block is known by its address, and `none` for an item is `hlist_null`, whose
pointer back nobody reads.  The data of a block are left out.
-/
import Mathlib.Logic.Function.Basic
import Mongrel2.Hierarchy

namespace Mongrel2

open Hierarchy Hierarchy.Forest

namespace Halloc

/-- A place that holds a pointer to an item: `next` of a head or `next` of an item. -/
inductive Slot
  | head (p : ℕ)
  | item (b : ℕ)
  deriving DecidableEq, Repr

/-- The block that a place is in. -/
def Slot.owner : Slot → ℕ
  | head p => p
  | item b => b

/-- `hblock_t`; whether `magic` is `HH_MAGIC`. -/
structure Block where
  magic : Bool
  next : Option ℕ
  prev : Slot
  children : Option ℕ
  deriving DecidableEq, Repr

/-- The blocks that are not freed. -/
abbrev Heap := ℕ → Option Block

/-! ### Pointers -/

/-- What is at a place. -/
def load (h : Heap) : Slot → Option (Option ℕ)
  | .head p => (h p).map (·.children)
  | .item b => (h b).map (·.next)

/-- `prev` of an item. -/
def back (h : Heap) (b : ℕ) : Option Slot := (h b).map (·.prev)

def magic (h : Heap) (b : ℕ) : Option Bool := (h b).map (·.magic)

def modify (h : Heap) (b : ℕ) (f : Block → Block) : Option Heap :=
  (h b).map fun x => Function.update h b (some (f x))

/-- A write to a place. -/
def store (h : Heap) (x : Slot) (v : Option ℕ) : Option Heap :=
  match x with
  | .head p => modify h p fun b => { b with children := v }
  | .item b => modify h b fun b => { b with next := v }

/-- A write to `prev`. -/
def setBack (h : Heap) (b : ℕ) (x : Slot) : Option Heap := modify h b fun b => { b with prev := x }

/-- A write to `prev` of what may be `hlist_null`. -/
def setBackOf (h : Heap) (next : Option ℕ) (x : Slot) : Option Heap :=
  match next with
  | none => some h
  | some n => setBack h n x

/-- `hlist_init_item`. -/
def hlistInitItem (h : Heap) (i : ℕ) : Option Heap := do
  let h ← setBack h i (.item i)
  store h (.item i) none

/-- `hlist_add`. -/
def hlistAdd (h : Heap) (p i : ℕ) : Option Heap := do
  let next ← load h (.head p)
  let h ← store h (.item i) next
  let h ← setBackOf h next (.item i)
  let h ← store h (.head p) (some i)
  setBack h i (.head p)

/-- `hlist_del`. -/
def hlistDel (h : Heap) (i : ℕ) : Option Heap := do
  let next ← load h (.item i)
  let prev ← back h i
  let h ← setBackOf h next prev
  let h ← store h prev next
  hlistInitItem h i

/-- `hlist_relink`. -/
def hlistRelink (h : Heap) (i : ℕ) : Option Heap := do
  let prev ← back h i
  let h ← store h prev (some i)
  let next ← load h (.item i)
  setBackOf h next (.item i)

/-- `hlist_relink_head`. -/
def hlistRelinkHead (h : Heap) (p : ℕ) : Option Heap := do
  let next ← load h (.head p)
  setBackOf h next (.head p)

/-! ### The calls -/

/-- `assert(p->magic == HH_MAGIC)`. -/
def assertMagic (h : Heap) (p : ℕ) : Option Unit := do
  let ok ← magic h p
  if ok then some () else none

/-- `allocator(p, 0)`. -/
def release (h : Heap) (p : ℕ) : Option Heap := (h p).map fun _ => Function.update h p none

/-- `allocator(p, len)`, which finds the address `q`; it is not one that is in use. -/
def move (h : Heap) (p q : ℕ) : Option Heap :=
  if q = p then some h
  else if (h q).isSome then none
  else some (Function.update (Function.update h p none) q (h p))

/-- The loop of `_relate` from an item on. -/
def relateLoop : ℕ → Heap → ℕ → Option ℕ → Option Bool
  | 0, _, _, _ => none
  | _ + 1, _, _, none => some false
  | fuel + 1, h, b, some q => do
    if q = b then some true
    else
      let children ← load h (.head q)
      let related ← relateLoop fuel h b children
      if related then some true
      else
        let next ← load h (.item q)
        relateLoop fuel h b next

/-- `_relate`. -/
def relate (fuel : ℕ) (h : Heap) (b p : ℕ) : Option Bool := do
  let children ← load h (.head p)
  relateLoop fuel h b children

/-- The loop of `_free_children` from an item on. -/
def freeLoop : ℕ → Heap → Option ℕ → Option Heap
  | 0, _, _ => none
  | _ + 1, h, none => some h
  | fuel + 1, h, some q => do
    let tmp ← load h (.item q)
    -- `_free_children(q)`
    assertMagic h q
    let h ← modify h q fun b => { b with magic := false }
    let children ← load h (.head q)
    let h ← freeLoop fuel h children
    let h ← release h q
    freeLoop fuel h tmp

/-- `_free_children`. -/
def freeChildren (fuel : ℕ) (h : Heap) (p : ℕ) : Option Heap := do
  assertMagic h p
  let h ← modify h p fun b => { b with magic := false }
  let children ← load h (.head p)
  freeLoop fuel h children

/-- `halloc`: the pointer and the heap; `addr` is what the allocator returns. -/
def halloc (fuel : ℕ) (h : Heap) (ptr : Option ℕ) (len : ℕ) (addr : Option ℕ) :
    Option (Option ℕ × Heap) :=
  match ptr with
  | none =>
    if len = 0 then some (none, h)
    else
      match addr with
      | none => some (none, h)
      | some q =>
        if (h q).isSome then none
        else some (some q, Function.update h q (some ⟨true, none, .item q, none⟩))
  | some p => do
    assertMagic h p
    if len ≠ 0 then
      match addr with
      | none => some (none, h)
      | some q =>
        let h ← move h p q
        let h ← hlistRelink h q
        let h ← hlistRelinkHead h q
        some (some q, h)
    else
      let h ← freeChildren fuel h p
      let h ← hlistDel h p
      let h ← release h p
      some (none, h)

/-- `hattach`. -/
def hattach (fuel : ℕ) (h : Heap) (block parent : Option ℕ) : Option Heap :=
  match block with
  | none => if parent = none then some h else none
  | some b => do
    assertMagic h b
    let h ← hlistDel h b
    match parent with
    | none => some h
    | some p =>
      assertMagic h p
      if b = p then none
      else
        let related ← relate fuel h p b
        if related then none else hlistAdd h p b

/-! ### What a write changes -/

section

variable {h h' : Heap} {x y : Slot} {v : Option ℕ} {a b p q : ℕ} {F F' below : Forest ℕ}

theorem isSome_magic : (magic h b).isSome = (h b).isSome := by
  rw [magic, Option.isSome_map]

theorem isSome_load : (load h x).isSome = (h x.owner).isSome := by
  cases x <;> exact Option.isSome_map ..

theorem isSome_back : (back h b).isSome = (h b).isSome := by
  rw [back, Option.isSome_map]

/-- A field of the blocks after one of them has changed. -/
theorem map_update {α : Type*} (f : Block → α) (h : Heap) (b c : ℕ) (new : Option Block) :
    ((Function.update h b new) c).map f =
      Function.update (fun c => (h c).map f) b (new.map f) c := by
  by_cases hc : c = b
  · rw [hc, Function.update_self, Function.update_self]
  · rw [Function.update_of_ne hc, Function.update_of_ne hc]

theorem store_spec (hx : (h x.owner).isSome) (v : Option ℕ) :
    ∃ h', store h x v = some h' ∧ load h' = Function.update (load h) x (some v) ∧
      back h' = back h ∧ magic h' = magic h := by
  obtain ⟨b, hb⟩ := Option.isSome_iff_exists.mp hx
  cases x with
  | head p =>
    change h p = some b at hb
    refine ⟨_, by rw [store, modify, hb]; rfl, ?_, ?_, ?_⟩
    · funext y
      cases y with
      | head q => grind [load, map_update]
      | item q => grind [load, map_update]
    · funext q
      grind [back, map_update]
    · funext q
      grind [magic, map_update]
  | item p =>
    change h p = some b at hb
    refine ⟨_, by rw [store, modify, hb]; rfl, ?_, ?_, ?_⟩
    · funext y
      cases y with
      | head q => grind [load, map_update]
      | item q => grind [load, map_update]
    · funext q
      grind [back, map_update]
    · funext q
      grind [magic, map_update]

theorem setBack_spec (hb : (h b).isSome) (x : Slot) :
    ∃ h', setBack h b x = some h' ∧ load h' = load h ∧
      back h' = Function.update (back h) b (some x) ∧ magic h' = magic h := by
  obtain ⟨c, hc⟩ := Option.isSome_iff_exists.mp hb
  refine ⟨_, by rw [setBack, modify, hc]; rfl, ?_, ?_, ?_⟩
  · funext y
    cases y with
    | head q => grind [load, map_update]
    | item q => grind [load, map_update]
  · funext q
    grind [back, map_update]
  · funext q
    grind [magic, map_update]

theorem setBackOf_spec {n : Option ℕ} (hn : ∀ c, n = some c → (h c).isSome) (x : Slot) :
    ∃ h', setBackOf h n x = some h' ∧ load h' = load h ∧
      (∀ c, back h' c = if n = some c then some x else back h c) ∧ magic h' = magic h := by
  cases n with
  | none => exact ⟨h, rfl, rfl, fun c => (if_neg (by simp)).symm, rfl⟩
  | some a =>
    obtain ⟨h', hset, hload, hback, hmagic⟩ := setBack_spec (hn a rfl) x
    refine ⟨h', hset, hload, fun c => ?_, hmagic⟩
    rw [hback]
    grind

theorem live_of_magic (hmagic : magic h' = magic h) (a : ℕ) : (h' a).isSome = (h a).isSome := by
  rw [← isSome_magic, hmagic, isSome_magic]

/-- The item before and the one behind are linked to each other. -/
theorem hlistDel_spec {n : Option ℕ} (hnext : load h (.item b) = some n)
    (hprev : back h b = some x) (hn : ∀ c, n = some c → (h c).isSome)
    (hx : (h x.owner).isSome) :
    ∃ h', hlistDel h b = some h' ∧ magic h' = magic h ∧
      (∀ y, load h' y = if y = .item b then some none else if y = x then some n else load h y) ∧
      ∀ c, back h' c =
        if c = b then some (.item b) else if n = some c then some x else back h c := by
  have hb : (h b).isSome := by
    rw [← isSome_back, hprev]
    rfl
  obtain ⟨h₁, hset₁, hload₁, hback₁, hmagic₁⟩ := setBackOf_spec hn x
  obtain ⟨h₂, hset₂, hload₂, hback₂, hmagic₂⟩ :=
    store_spec ((live_of_magic hmagic₁ x.owner).trans hx) n
  have hmagic₂' := hmagic₂.trans hmagic₁
  obtain ⟨h₃, hset₃, hload₃, hback₃, hmagic₃⟩ :=
    setBack_spec ((live_of_magic hmagic₂' b).trans hb) (.item b)
  have hmagic₃' := hmagic₃.trans hmagic₂'
  obtain ⟨h₄, hset₄, hload₄, hback₄, hmagic₄⟩ :=
    @store_spec h₃ (.item b) ((live_of_magic hmagic₃' b).trans hb) none
  refine ⟨h₄, ?_, hmagic₄.trans hmagic₃', fun y => ?_, fun c => ?_⟩
  · simp only [hlistDel, hlistInitItem, Option.bind_eq_bind, Option.bind_some, hnext, hprev, hset₁,
      hset₂, hset₃, hset₄]
  · rw [hload₄, hload₃, hload₂, hload₁, Function.update_apply, Function.update_apply]
  · rw [hback₄, hback₃, hback₂, Function.update_apply, hback₁]

theorem hlistAdd_spec {n : Option ℕ} (hchildren : load h (.head p) = some n)
    (hb : (h b).isSome) (hn : ∀ c, n = some c → (h c).isSome) :
    ∃ h', hlistAdd h p b = some h' ∧ magic h' = magic h ∧
      (∀ y, load h' y =
        if y = .head p then some (some b) else if y = .item b then some n else load h y) ∧
      ∀ c, back h' c =
        if c = b then some (.head p) else if n = some c then some (.item b) else back h c := by
  have hp' : (h p).isSome := by
    have hsome := @isSome_load h (.head p)
    rw [hchildren] at hsome
    exact hsome.symm
  obtain ⟨h₁, hset₁, hload₁, hback₁, hmagic₁⟩ := @store_spec h (.item b) hb n
  obtain ⟨h₂, hset₂, hload₂, hback₂, hmagic₂⟩ :=
    @setBackOf_spec h₁ n (fun c hc => (live_of_magic hmagic₁ c).trans (hn c hc)) (.item b)
  have hmagic₂' := hmagic₂.trans hmagic₁
  obtain ⟨h₃, hset₃, hload₃, hback₃, hmagic₃⟩ :=
    @store_spec h₂ (.head p) ((live_of_magic hmagic₂' p).trans hp') (some b)
  have hmagic₃' := hmagic₃.trans hmagic₂'
  obtain ⟨h₄, hset₄, hload₄, hback₄, hmagic₄⟩ :=
    setBack_spec ((live_of_magic hmagic₃' b).trans hb) (.head p)
  refine ⟨h₄, ?_, hmagic₄.trans hmagic₃', fun y => ?_, fun c => ?_⟩
  · simp only [hlistAdd, Option.bind_eq_bind, Option.bind_some, hchildren, hset₁, hset₂, hset₃,
      hset₄]
  · rw [hload₄, hload₃, hload₂, hload₁, Function.update_apply, Function.update_apply]
  · rw [hback₄, hback₃, Function.update_apply, hback₂, hback₁]

/-! ### Heaps that hold a forest -/

/-- The items of a list, of which the first is found at `x`, with what is below them. -/
def Linked (h : Heap) : Slot → Forest ℕ → Prop
  | _, .nil => True
  | x, .cons a kids rest =>
    back h a = some x ∧ magic h a = some true ∧
      (load h (.head a) = some kids.first ∧ Linked h (.head a) kids) ∧
      load h (.item a) = some rest.first ∧ Linked h (.item a) rest

/-- What a heap says of a block, its place in a list apart. -/
structure Same (h h' : Heap) (a : ℕ) : Prop where
  head : load h' (.head a) = load h (.head a)
  item : load h' (.item a) = load h (.item a)
  magic : magic h' a = magic h a

theorem Linked.frame (hlinked : Linked h x F) (hsame : ∀ a ∈ F.nodes, Same h h' a)
    (hback : ∀ a ∈ F.nodes, back h' a = back h a) : Linked h' x F := by
  induction F generalizing x with
  | nil => trivial
  | cons a kids rest ihk ihr =>
    obtain ⟨hprev, hmagic, ⟨hhead, hkids⟩, hitem, hrest⟩ := hlinked
    simp only [nodes_cons, List.mem_cons, List.mem_append] at hsame hback
    have ha := hsame a (.inl rfl)
    exact ⟨(hback a (.inl rfl)).trans hprev, ha.magic.trans hmagic,
      ⟨ha.head.trans hhead, ihk hkids (fun c hc => hsame c (.inr (.inl hc)))
        fun c hc => hback c (.inr (.inl hc))⟩,
      ha.item.trans hitem, ihr hrest (fun c hc => hsame c (.inr (.inr hc)))
        fun c hc => hback c (.inr (.inr hc))⟩

theorem Linked.congr (hlinked : Linked h x F) (hsame : ∀ a ∈ F.nodes, h' a = h a) :
    Linked h' x F := by
  refine hlinked.frame (fun a ha => ⟨?_, ?_, ?_⟩) fun a ha => ?_
  · rw [load, load, hsame a ha]
  · rw [load, load, hsame a ha]
  · rw [Halloc.magic, Halloc.magic, hsame a ha]
  · rw [back, back, hsame a ha]

/-- The list is found at another place. -/
theorem Linked.move (hlinked : Linked h x F) (hnodup : F.nodes.Nodup)
    (hsame : ∀ a ∈ F.nodes, Same h h' a)
    (hback : ∀ a ∈ F.nodes, back h' a = if F.first = some a then some y else back h a) :
    Linked h' y F := by
  cases F with
  | nil => trivial
  | cons a kids rest =>
    obtain ⟨-, hmagic, ⟨hhead, hkids⟩, hitem, hrest⟩ := hlinked
    obtain ⟨hnot, -⟩ := List.nodup_cons.mp hnodup
    simp only [nodes_cons, List.mem_cons, List.mem_append] at hsame hback hnot
    have ha := hsame a (.inl rfl)
    have hother : ∀ c, c ∈ kids.nodes ∨ c ∈ rest.nodes → back h' c = back h c := fun c hc => by
      rw [hback c (.inr hc), if_neg]
      intro hfirst
      obtain rfl := Option.some.inj hfirst
      exact hnot hc
    exact ⟨(hback a (.inl rfl)).trans (if_pos rfl), ha.magic.trans hmagic,
      ⟨ha.head.trans hhead, hkids.frame (fun c hc => hsame c (.inr (.inl hc)))
        fun c hc => hother c (.inl hc)⟩,
      ha.item.trans hitem, hrest.frame (fun c hc => hsame c (.inr (.inr hc)))
        fun c hc => hother c (.inr hc)⟩

theorem Linked.live (hlinked : Linked h x F) {a : ℕ} (ha : a ∈ F.nodes) :
    magic h a = some true := by
  induction F generalizing x with
  | nil => exact absurd ha List.not_mem_nil
  | cons c kids rest ihk ihr =>
    obtain ⟨-, hmagic, ⟨-, hkids⟩, -, hrest⟩ := hlinked
    rcases List.mem_cons.mp ha with rfl | ha
    · exact hmagic
    · rcases List.mem_append.mp ha with ha | ha
      · exact ihk hkids ha
      · exact ihr hrest ha

/-- What the place of a node in a list is, once the node has been taken out. -/
structure Cut (h : Heap) (b : ℕ) (x : Slot) (n : Option ℕ) (F : Forest ℕ) : Prop where
  prev : back h b = some x
  next : load h (.item b) = some n
  magic : magic h b = some true
  behind : ∀ c, n = some c → c ∈ F.nodes

/-- What a heap says of the blocks of a forest after such a node is gone. -/
structure Closed (h h' : Heap) (x : Slot) (n : Option ℕ) (F : Forest ℕ) : Prop where
  load : ∀ y : Slot, y.owner ∈ F.nodes → load h' y = if y = x then some n else load h y
  back : ∀ a ∈ F.nodes, back h' a = if n = some a then some x else back h a
  magic : ∀ a ∈ F.nodes, magic h' a = magic h a

theorem Closed.mono {n : Option ℕ} (h₁ : Closed h h' x n F) (hsub : F'.nodes ⊆ F.nodes) :
    Closed h h' x n F' where
  load y hy := h₁.load y (hsub hy)
  back a ha := h₁.back a (hsub ha)
  magic a ha := h₁.magic a (hsub ha)

/-- A part that the node was not in. -/
theorem Closed.frame {n : Option ℕ} (hclosed : Closed h h' x n F) (hlinked : Linked h y F)
    (hx : x.owner ∉ F.nodes) (hn : ∀ c, n = some c → c ∉ F.nodes) : Linked h' y F := by
  refine hlinked.frame (fun a ha => ?_) fun a ha => ?_
  · have hne : ∀ z : Slot, z.owner = a → Halloc.load h' z = Halloc.load h z := by
      rintro z rfl
      rw [hclosed.load z ha, if_neg]
      rintro rfl
      exact hx ha
    exact ⟨hne (.head a) rfl, hne (.item a) rfl, hclosed.magic a ha⟩
  · rw [hclosed.back a ha, if_neg fun hnext => hn a hnext ha]

/-- **A list without one of its nodes.** -/
theorem Linked.extract (hlinked : Linked h y F) (hfirst : load h y = some F.first)
    (hex : F.extract b = some (below, F')) (hnodup : F.nodes.Nodup) (hy : y.owner ∉ F.nodes) :
    (load h (.head b) = some below.first ∧ Linked h (.head b) below) ∧
      ∃ x n, Cut h b x n F' ∧ (x = y ∨ x.owner ∈ F'.nodes) ∧ ∀ h', Closed h h' x n F' →
        (load h' y = if y = x then some n else load h y) →
          load h' y = some F'.first ∧ Linked h' y F' := by
  induction F generalizing y below F' with
  | nil => exact absurd hex nofun
  | cons a kids rest ihk ihr =>
    obtain ⟨hprev, hmagic, ⟨hhead, hkids⟩, hitem, hrest⟩ := hlinked
    rw [nodes_cons, List.mem_cons, List.mem_append, not_or, not_or] at hy
    obtain ⟨hnot, hnodup'⟩ := List.nodup_cons.mp hnodup
    rw [List.mem_append, not_or] at hnot
    obtain ⟨hnodupk, hnodupr, hdisjoint⟩ := List.nodup_append.mp hnodup'
    rw [Forest.extract] at hex
    by_cases ha : a = b
    · rw [if_pos ha] at hex
      obtain ⟨rfl, rfl⟩ := Prod.mk.inj (Option.some.inj hex)
      subst ha
      refine ⟨⟨hhead, hkids⟩, y, rest.first, ⟨hprev, hitem, hmagic, fun c hc => first_mem hc⟩,
        .inl rfl, fun h' hclosed hload => ?_⟩
      refine ⟨hload.trans (if_pos rfl), hrest.move hnodupr (fun c hc => ?_) hclosed.back⟩
      have hne : ∀ z : Slot, z.owner = c → load h' z = load h z := by
        rintro z rfl
        rw [hclosed.load z hc, if_neg]
        rintro rfl
        exact hy.2.2 hc
      exact ⟨hne (.head c) rfl, hne (.item c) rfl, hclosed.magic c hc⟩
    · rw [if_neg ha] at hex
      cases hk : kids.extract b with
      | some z =>
        rw [hk] at hex
        obtain ⟨rfl, rfl⟩ := Prod.mk.inj (Option.some.inj hex)
        obtain ⟨hbelow, x, n, hcut, hx, hclose⟩ := ihk hkids hhead hk hnodupk hnot.1
        have hsub : ∀ c ∈ z.2.nodes, c ∈ kids.nodes := fun c hc =>
          (extract_perm hk).mem_iff.mpr (by simp [hc])
        have hx' : x.owner = a ∨ x.owner ∈ kids.nodes := by
          rcases hx with rfl | hx
          · exact .inl rfl
          · exact .inr (hsub _ hx)
        have hin : x.owner ∈ (cons a z.2 rest).nodes := by
          rcases hx with rfl | hx
          · exact List.mem_cons_self
          · exact List.mem_cons_of_mem _ (List.mem_append_left _ hx)
        refine ⟨hbelow, x, n, ⟨hcut.prev, hcut.next, hcut.magic, fun c hc => ?_⟩, .inr hin,
          fun h' hclosed hload => ?_⟩
        · exact List.mem_cons_of_mem _ (List.mem_append_left _ (hcut.behind c hc))
        have hyx : y ≠ x := by
          rintro rfl
          rcases hx' with heq | hmem
          · exact hy.1 heq
          · exact hy.2.1 hmem
        have hax : Slot.item a ≠ x := by
          rintro rfl
          rcases hx with heq | hmem
          · exact absurd heq (by simp)
          · exact hnot.1 (hsub _ hmem)
        have hna : n ≠ some a := fun hn => hnot.1 (hsub _ (hcut.behind a hn))
        have hmem : a ∈ (cons a z.2 rest).nodes := List.mem_cons_self
        obtain ⟨hhead', hkids'⟩ := hclose h'
          (hclosed.mono fun c hc => List.mem_cons_of_mem _ (List.mem_append_left _ hc))
          (hclosed.load (.head a) hmem)
        refine ⟨?_, ?_, (hclosed.magic a hmem).trans hmagic, ⟨hhead', hkids'⟩, ?_, ?_⟩
        · rw [hload, if_neg hyx, hfirst]
          rfl
        · rw [hclosed.back a hmem, if_neg hna, hprev]
        · rw [hclosed.load (.item a) hmem, if_neg hax, hitem]
        · refine (hclosed.mono fun c hc =>
            List.mem_cons_of_mem _ (List.mem_append_right _ hc)).frame hrest ?_ ?_
          · intro hmem
            rcases hx' with heq | hmem'
            · exact hnot.2 (heq ▸ hmem)
            · exact hdisjoint _ hmem' _ hmem rfl
          · exact fun c hc hmem => hdisjoint c (hsub c (hcut.behind c hc)) c hmem rfl
      | none =>
        rw [hk] at hex
        obtain ⟨z, hz, hex⟩ := Option.map_eq_some_iff.mp hex
        obtain ⟨rfl, rfl⟩ := Prod.mk.inj hex
        obtain ⟨hbelow, x, n, hcut, hx, hclose⟩ := ihr hrest hitem hz hnodupr hnot.2
        have hsub : ∀ c ∈ z.2.nodes, c ∈ rest.nodes := fun c hc =>
          (extract_perm hz).mem_iff.mpr (by simp [hc])
        have hx' : x.owner = a ∨ x.owner ∈ rest.nodes := by
          rcases hx with rfl | hx
          · exact .inl rfl
          · exact .inr (hsub _ hx)
        have hin : x.owner ∈ (cons a kids z.2).nodes := by
          rcases hx with rfl | hx
          · exact List.mem_cons_self
          · exact List.mem_cons_of_mem _ (List.mem_append_right _ hx)
        refine ⟨hbelow, x, n, ⟨hcut.prev, hcut.next, hcut.magic, fun c hc => ?_⟩, .inr hin,
          fun h' hclosed hload => ?_⟩
        · exact List.mem_cons_of_mem _ (List.mem_append_right _ (hcut.behind c hc))
        have hyx : y ≠ x := by
          rintro rfl
          rcases hx' with heq | hmem
          · exact hy.1 heq
          · exact hy.2.2 hmem
        have hax : Slot.head a ≠ x := by
          rintro rfl
          rcases hx with heq | hmem
          · exact absurd heq (by simp)
          · exact hnot.2 (hsub _ hmem)
        have hna : n ≠ some a := fun hn => hnot.2 (hsub _ (hcut.behind a hn))
        have hmem : a ∈ (cons a kids z.2).nodes := List.mem_cons_self
        obtain ⟨hitem', hrest'⟩ := hclose h'
          (hclosed.mono fun c hc => List.mem_cons_of_mem _ (List.mem_append_right _ hc))
          (hclosed.load (.item a) hmem)
        refine ⟨?_, ?_, (hclosed.magic a hmem).trans hmagic, ⟨?_, ?_⟩, hitem', hrest'⟩
        · rw [hload, if_neg hyx, hfirst]
          rfl
        · rw [hclosed.back a hmem, if_neg hna, hprev]
        · rw [hclosed.load (.head a) hmem, if_neg hax, hhead]
        · refine (hclosed.mono fun c hc =>
            List.mem_cons_of_mem _ (List.mem_append_left _ hc)).frame hkids ?_ ?_
          · intro hmem
            rcases hx' with heq | hmem'
            · exact hnot.1 (heq ▸ hmem)
            · exact hdisjoint _ hmem _ hmem' rfl
          · exact fun c hc hmem => hdisjoint c hmem c (hsub c (hcut.behind c hc)) rfl

theorem Linked.child_mem (hlinked : Linked h y F) (hp : p ∈ F.nodes) {c : ℕ}
    (hc : load h (.head p) = some (some c)) : c ∈ F.nodes := by
  induction F generalizing y with
  | nil => exact absurd hp List.not_mem_nil
  | cons a kids rest ihk ihr =>
    obtain ⟨-, -, ⟨hhead, hkids⟩, -, hrest⟩ := hlinked
    rcases List.mem_cons.mp hp with rfl | hp
    · have hfirst := Option.some.inj (hhead.symm.trans hc)
      exact List.mem_cons_of_mem _ (List.mem_append_left _ (first_mem hfirst))
    · rcases List.mem_append.mp hp with hp | hp
      · exact List.mem_cons_of_mem _ (List.mem_append_left _ (ihk hkids hp))
      · exact List.mem_cons_of_mem _ (List.mem_append_right _ (ihr hrest hp))

/-- What `hlist_add` of `b` to the children of `p` changes. -/
structure Added (h h' : Heap) (p b : ℕ) (n : Option ℕ) : Prop where
  load : ∀ y : Slot, load h' y =
    if y = .head p then some (some b) else if y = .item b then some n else load h y
  back : ∀ c, back h' c =
    if c = b then some (.head p) else if n = some c then some (.item b) else back h c
  magic : ∀ c, magic h' c = magic h c

theorem Added.same {n : Option ℕ} (hadded : Added h h' p b n) (hp : a ≠ p) (hb : a ≠ b) :
    Same h h' a := by
  refine ⟨?_, ?_, hadded.magic a⟩
  · rw [hadded.load, if_neg (by simpa using hp), if_neg (by simp)]
  · rw [hadded.load, if_neg (by simp), if_neg (by simpa using hb)]

/-- A part that the new parent is not in. -/
theorem Added.frame {n : Option ℕ} (hadded : Added h h' p b n) (hlinked : Linked h y F)
    (hp : p ∉ F.nodes) (hb : b ∉ F.nodes) (hn : ∀ c, n = some c → c ∉ F.nodes) :
    Linked h' y F := by
  have hne : ∀ a ∈ F.nodes, a ≠ b := fun a ha => ne_of_mem_of_not_mem ha hb
  refine hlinked.frame (fun a ha => hadded.same ?_ (hne a ha)) fun a ha => ?_
  · exact ne_of_mem_of_not_mem ha hp
  · rw [hadded.back, if_neg (hne a ha), if_neg fun hnext => hn a hnext ha]

/-- **A list in which a node has got a child more.** -/
theorem Linked.adopt {n : Option ℕ} (hlinked : Linked h y F) (hnodup : F.nodes.Nodup)
    (hp : p ∈ F.nodes) (hb : b ∉ F.nodes) (hchildren : load h (.head p) = some n)
    (hadded : Added h h' p b n) (hmagic : Halloc.magic h b = some true)
    (hbelow : load h' (.head b) = some below.first ∧ Linked h' (.head b) below) :
    Linked h' y (adopt p b below F) := by
  induction F generalizing y with
  | nil => exact absurd hp List.not_mem_nil
  | cons a kids rest ihk ihr =>
    obtain ⟨hprev, hmagica, ⟨hhead, hkids⟩, hitem, hrest⟩ := hlinked
    rw [nodes_cons, List.mem_cons, List.mem_append, not_or, not_or] at hb
    obtain ⟨hnot, hnodup⟩ := List.nodup_cons.mp hnodup
    rw [List.mem_append, not_or] at hnot
    obtain ⟨hnodupk, hnodupr, hdisjoint⟩ := List.nodup_append.mp hnodup
    have hab : a ≠ b := Ne.symm hb.1
    have hitem' : load h' (.item a) = some rest.first := by
      rw [hadded.load, if_neg (by simp), if_neg (by simpa using hab), hitem]
    rw [Forest.adopt]
    by_cases ha : a = p
    · subst ha
      obtain rfl := Option.some.inj (hchildren.symm.trans hhead)
      have hna : kids.first ≠ some a := fun hfirst => hnot.1 (first_mem hfirst)
      rw [if_pos rfl]
      refine ⟨?_, (hadded.magic a).trans hmagica, ⟨?_, ?_, (hadded.magic b).trans hmagic, hbelow,
        ?_, ?_⟩, hitem', ?_⟩
      · rw [hadded.back, if_neg hab, if_neg hna, hprev]
      · rw [hadded.load, if_pos rfl]
        rfl
      · rw [hadded.back, if_pos rfl]
      · rw [hadded.load, if_neg (by simp), if_pos rfl]
      · refine hkids.move hnodupk (fun c hc => ?_) fun c hc => ?_
        · exact hadded.same (ne_of_mem_of_not_mem hc hnot.1) (ne_of_mem_of_not_mem hc hb.2.1)
        · rw [hadded.back, if_neg (ne_of_mem_of_not_mem hc hb.2.1)]
      · exact hadded.frame hrest hnot.2 hb.2.2 fun c hc hmem =>
          hdisjoint c (first_mem hc) c hmem rfl
    · rw [if_neg ha]
      have hp' := List.mem_append.mp (List.mem_of_ne_of_mem (Ne.symm ha) hp)
      have hn : ∀ c, n = some c → (p ∈ kids.nodes → c ∈ kids.nodes) ∧
          (p ∈ rest.nodes → c ∈ rest.nodes) := by
        rintro c rfl
        exact ⟨fun hmem => hkids.child_mem hmem hchildren, fun hmem => hrest.child_mem hmem hchildren⟩
      have hna : n ≠ some a := by
        intro hn'
        rcases hp' with hmem | hmem
        · exact hnot.1 ((hn a hn').1 hmem)
        · exact hnot.2 ((hn a hn').2 hmem)
      refine ⟨?_, (hadded.magic a).trans hmagica, ⟨?_, ?_⟩, ?_, ?_⟩
      · rw [hadded.back, if_neg hab, if_neg hna, hprev]
      · rw [hadded.load, if_neg (by simpa using ha), if_neg (by simp), hhead, first_adopt]
      · by_cases hmem : p ∈ kids.nodes
        · exact ihk hkids hnodupk hmem hb.2.1
        · have hmem' := hp'.resolve_left hmem
          rw [adopt_of_not_mem hmem]
          exact hadded.frame hkids hmem hb.2.1 fun c hc hin =>
            hdisjoint c hin c ((hn c hc).2 hmem') rfl
      · rw [hitem', first_adopt]
      · by_cases hmem : p ∈ rest.nodes
        · exact ihr hrest hnodupr hmem hb.2.2
        · have hmem' := hp'.resolve_right hmem
          rw [adopt_of_not_mem hmem]
          exact hadded.frame hrest hmem hb.2.2 fun c hc hin =>
            hdisjoint c ((hn c hc).1 hmem') c hin rfl

/-! ### Loops over what is below a block -/

theorem relateLoop_spec (hlinked : Linked h x F) (b : ℕ) {fuel : ℕ}
    (hfuel : F.nodes.length < fuel) :
    relateLoop fuel h b F.first = some (decide (b ∈ F.nodes)) := by
  induction F generalizing x fuel with
  | nil =>
    obtain ⟨fuel, rfl⟩ := Nat.exists_eq_succ_of_ne_zero (Nat.ne_zero_of_lt hfuel)
    simp [relateLoop]
  | cons a kids rest ihk ihr =>
    obtain ⟨fuel, rfl⟩ := Nat.exists_eq_succ_of_ne_zero (Nat.ne_zero_of_lt hfuel)
    obtain ⟨-, -, ⟨hhead, hkids⟩, hitem, hrest⟩ := hlinked
    rw [nodes_cons, List.length_cons, List.length_append] at hfuel
    have hk := @ihk _ hkids fuel (by omega)
    have hr := @ihr _ hrest fuel (by omega)
    simp only [relateLoop, first_cons, Option.bind_eq_bind, hhead, hitem, Option.bind_some, hk, hr,
      nodes_cons, List.mem_cons, List.mem_append]
    by_cases ha : a = b
    · simp [ha]
    · by_cases hb : b ∈ kids.nodes
      · simp [ha, hb]
      · simp [ha, hb, Ne.symm ha]

theorem relate_spec (hhead : load h (.head p) = some F.first) (hlinked : Linked h (.head p) F)
    (b : ℕ) {fuel : ℕ} (hfuel : F.nodes.length < fuel) :
    relate fuel h b p = some (decide (b ∈ F.nodes)) := by
  rw [relate, hhead, Option.bind_eq_bind, Option.bind_some, relateLoop_spec hlinked b hfuel]

/-- **All that is below is freed**, and nothing else is touched. -/
theorem freeLoop_spec (hlinked : Linked h x F) (hnodup : F.nodes.Nodup) {fuel : ℕ}
    (hfuel : F.nodes.length < fuel) :
    ∃ h', freeLoop fuel h F.first = some h' ∧ ∀ a, h' a = if a ∈ F.nodes then none else h a := by
  induction F generalizing x h fuel with
  | nil =>
    obtain ⟨fuel, rfl⟩ := Nat.exists_eq_succ_of_ne_zero (Nat.ne_zero_of_lt hfuel)
    exact ⟨h, rfl, fun a => (if_neg List.not_mem_nil).symm⟩
  | cons a kids rest ihk ihr =>
    obtain ⟨fuel, rfl⟩ := Nat.exists_eq_succ_of_ne_zero (Nat.ne_zero_of_lt hfuel)
    obtain ⟨-, hmagic, ⟨hhead, hkids⟩, hitem, hrest⟩ := hlinked
    rw [nodes_cons, List.length_cons, List.length_append] at hfuel
    obtain ⟨hnot, hnodup⟩ := List.nodup_cons.mp hnodup
    rw [List.mem_append, not_or] at hnot
    obtain ⟨hnodupk, hnodupr, hdisjoint⟩ := List.nodup_append.mp hnodup
    obtain ⟨block, hblock⟩ : ∃ block, h a = some block := by
      rw [← Option.isSome_iff_exists, ← isSome_magic, hmagic]
      rfl
    let h₁ : Heap := Function.update h a (some { block with magic := false })
    have hset : modify h a (fun b => { b with magic := false }) = some h₁ := by
      rw [modify, hblock]
      rfl
    have hother : ∀ c, c ≠ a → h₁ c = h c := fun c hc => Function.update_of_ne hc _ _
    have hhead₁ : load h₁ (.head a) = some kids.first := by
      rw [← hhead, load, load, hblock, show h₁ a = _ from Function.update_self ..]
      rfl
    have hkids₁ : Linked h₁ (.head a) kids :=
      hkids.congr fun c hc => hother c fun heq => hnot.1 (heq ▸ hc)
    obtain ⟨h₂, hfree₂, hh₂⟩ := @ihk h₁ _ hkids₁ hnodupk fuel (by omega)
    have hblock₂ : h₂ a = some { block with magic := false } := by
      rw [hh₂, if_neg hnot.1, show h₁ a = _ from Function.update_self ..]
    let h₃ : Heap := Function.update h₂ a none
    have hrelease : release h₂ a = some h₃ := by
      rw [release, hblock₂]
      rfl
    have hrest₃ : Linked h₃ (.item a) rest := by
      refine hrest.congr fun c hc => ?_
      have hne : c ≠ a := fun heq => hnot.2 (heq ▸ hc)
      rw [show h₃ c = h₂ c from Function.update_of_ne hne _ _, hh₂,
        if_neg fun hmem => hdisjoint c hmem c hc rfl, hother c hne]
    obtain ⟨h₄, hfree₄, hh₄⟩ := @ihr h₃ _ hrest₃ hnodupr fuel (by omega)
    refine ⟨h₄, ?_, fun c => ?_⟩
    · simp only [freeLoop, first_cons, assertMagic, Option.bind_eq_bind, Option.bind_some, hitem, hmagic,
        hset, hhead₁, hfree₂, hrelease, hfree₄, if_true]
    · rw [hh₄]
      by_cases hc : c = a
      · have hnone : h₃ a = none := Function.update_self ..
        rw [hc, if_neg hnot.2, hnone]
        exact (if_pos List.mem_cons_self).symm
      · rw [show h₃ c = h₂ c from Function.update_of_ne hc _ _, hh₂, hother c hc]
        by_cases hk : c ∈ kids.nodes <;> by_cases hr : c ∈ rest.nodes <;> simp [hc, hk, hr]

end

end Halloc

end Mongrel2

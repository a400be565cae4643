/-
The queue of a traversal (`tst.c`).

* `Traversal` — the state of `tst_traverse`, with the array that it has allocated;
* `traverseQueue` — `tst_traverse`, which goes wrong where it would leave the array,
  follow a NULL pointer or overflow an `int`;
* `Narrow` — never more than 2³⁰ − 3 nodes wait, level by level;
* `loop_eq_traverseLoop` — while that is so the ring holds what waits, across every
  resize, and the callback is given the values in the order of `traverse`;
* **`traverses_iff`** — a traversal ends and gives each value to the callback once exactly
  if the tree is narrow.

Design notes: the queue doubles from 128 slots on, so that the sum that overflows is
`q_max * 2` when `q_max` is 2³⁰.  Allocation succeeds.  `calloc` leaves NULL pointers.
-/
import Mongrel2.Ring
import Mongrel2.TstValues

namespace Mongrel2

namespace Tst

variable {α : Type}

/-! ### The code -/

/-- A sum or a product that is an `int`. -/
def int (n : ℕ) : Option ℕ := if n < 2 ^ 31 then some n else none

/-- `MAX_TRAVERSE_SIZE`. -/
def maxTraverseSize : ℕ := 128

/-- A write to an array. -/
def write (queue : List (Tst α)) (i : ℕ) (p : Tst α) : Option (List (Tst α)) :=
  if i < queue.length then some (queue.set i p) else none

/-- One step of the loop of `tst_resize_queue`. -/
def resizeStep (queue : List (Tst α)) (qStart qMax : ℕ) (newQueue : List (Tst α)) (i : ℕ) :
    Option (List (Tst α)) := do
  let sum ← int (i + qStart)
  let p ← queue[sum % qMax]?
  write newQueue i p

/-- `tst_resize_queue`. -/
def resizeQueue (queue : List (Tst α)) (qStart qSize qMax newSize : ℕ) : Option (List (Tst α)) :=
  (List.range qSize).foldlM (resizeStep queue qStart qMax) (List.replicate newSize nil)

/-- What `tst_traverse` works on, and the values that the callback has been given. -/
structure Traversal (α : Type) where
  queue : List (Tst α)
  qStart : ℕ
  qSize : ℕ
  qMax : ℕ
  calls : List α

namespace Traversal

/-- The queue doubled. -/
def grow (s : Traversal α) : Option (Traversal α) := do
  let newSize ← int (s.qMax * 2)
  let queue ← resizeQueue s.queue s.qStart s.qSize s.qMax newSize
  some { s with queue, qStart := 0, qMax := newSize }

/-- A link, put behind the last unless it is NULL. -/
def enqueue (s : Traversal α) (link : Tst α) : Option (Traversal α) :=
  match link with
  | nil => some s
  | p => do
    let sum ← int (s.qStart + s.qSize)
    let queue ← write s.queue (sum % s.qMax) p
    some { s with queue, qSize := s.qSize + 1 }

/-- A node taken out: its value, and its links. -/
def visit (s : Traversal α) (cur : Tst α) : Option (Traversal α) :=
  match cur with
  | nil => none
  | node _ low equal high value => do
    let s ← { s with calls := s.calls ++ value.toList }.enqueue low
    let s ← s.enqueue equal
    s.enqueue high

/-- One round of the `while` loop. -/
def step (s : Traversal α) : Option (Traversal α) := do
  let cur ← s.queue[s.qStart]?
  let next ← int (s.qStart + 1)
  let s := { s with qStart := next % s.qMax, qSize := s.qSize - 1 }
  let need ← int (s.qSize + 3)
  let s ← if s.qMax < need then s.grow else some s
  s.visit cur

end Traversal

/-- How a traversal goes. -/
inductive Traversed (α : Type)
  | ended (calls : List α)
  | wrong
  | unfinished

/-- The `while` loop, for that many rounds at most. -/
def Traversal.loop : ℕ → Traversal α → Traversed α
  | 0, s => if s.qSize = 0 then .ended s.calls else .unfinished
  | n + 1, s =>
    if s.qSize = 0 then .ended s.calls
    else
      match s.step with
      | some s => loop n s
      | none => .wrong

/-- `tst_traverse`. -/
def traverseQueue (n : ℕ) (p : Tst α) : Traversed α :=
  match p with
  | nil => .ended []
  | p =>
    match write (List.replicate maxTraverseSize nil) 0 p with
    | some queue => Traversal.loop n ⟨queue, 0, 1, maxTraverseSize, []⟩
    | none => .wrong

/-! ### What waits -/

/-- The value of a node. -/
def root : Tst α → Option α
  | nil => none
  | node _ _ _ _ value => value

/-- The links of a node, as they are queued. -/
def links : Tst α → List (Tst α)
  | nil => []
  | node _ low equal high _ => low.queued ++ equal.queued ++ high.queued

/-- The nodes that many links below those of a list. -/
def level : ℕ → List (Tst α) → List (Tst α)
  | 0, nodes => nodes
  | d + 1, nodes => level d (nodes.flatMap links)

/-- How many wait when the node `j` of a level has been taken out: the others of the level,
and what the nodes before it have put behind them. -/
def waiting (nodes : List (Tst α)) (j : ℕ) : ℕ :=
  nodes.length - (j + 1) + ((nodes.take j).flatMap links).length

/-- With three links more, what waits fits into 2³⁰ slots. -/
def NarrowBelow (nodes : List (Tst α)) : Prop :=
  ∀ d j, j < (level d nodes).length → waiting (level d nodes) j + 3 ≤ 2 ^ 30

/-- The tree is never wider than the queue can grow. -/
def Narrow (t : Tst α) : Prop := NarrowBelow t.queued

/-- The traversal ends, has stayed within its queue, and has given each value to the callback
once. -/
def Traverses (t : Tst α) : Prop :=
  ∃ calls : List α, calls.Perm t.values ∧ ∀ n, t.size ≤ n → t.traverseQueue n = .ended calls

section

variable {s : Traversal α} {xs : List (Tst α)} {queue : List (Tst α)}

theorem int_eq {n : ℕ} (h : n < 2 ^ 31) : int n = some n := if_pos h

theorem length_queued (t : Tst α) : t.queued.length ≤ 1 := by
  cases t <;> simp [queued]

/-! ### A resize -/

/-- A resize copies one pointer more. -/
theorem resizeStep_eq {qStart newSize i : ℕ} (h : Ring.Holds queue qStart xs)
    (hmax : queue.length ≤ 2 ^ 30) (hnew : xs.length ≤ newSize) (hi : i < xs.length) :
    resizeStep queue qStart queue.length (xs.take i ++ List.replicate (newSize - i) nil) i =
      some (xs.take (i + 1) ++ List.replicate (newSize - (i + 1)) nil) := by
  have hsum : i + qStart < 2 ^ 31 := by
    have hstart := h.start_lt
    have hfits := h.fits
    omega
  have hread : queue[(i + qStart) % queue.length]? = some xs[i] := by
    rw [Nat.add_comm, h.slot i hi, List.getElem?_eq_getElem hi]
  have hlen : (xs.take i).length = i := List.length_take_of_le (Nat.le_of_lt hi)
  have hbound : i < (xs.take i ++ List.replicate (newSize - i) nil).length := by
    rw [List.length_append, List.length_replicate, hlen]
    omega
  have hslots : newSize - i = newSize - (i + 1) + 1 := by omega
  rw [resizeStep, int_eq hsum]
  simp only [Option.bind_eq_bind, Option.bind_some, hread]
  rw [write, if_pos hbound, List.set_append_right _ _ (Nat.le_of_eq hlen), hlen, Nat.sub_self,
    hslots, List.replicate_succ, List.set_cons_zero, List.take_succ_eq_append_getElem hi,
    List.append_assoc]
  rfl

/-- **A resize** keeps what waits, at the beginning of the new queue. -/
theorem resizeQueue_eq {qStart newSize : ℕ} (h : Ring.Holds queue qStart xs)
    (hmax : queue.length ≤ 2 ^ 30) (hnew : xs.length ≤ newSize) :
    resizeQueue queue qStart xs.length queue.length newSize =
      some (xs ++ List.replicate (newSize - xs.length) nil) := by
  have hcopied : ∀ i, i ≤ xs.length →
      (List.range i).foldlM (resizeStep queue qStart queue.length) (List.replicate newSize nil) =
        some (xs.take i ++ List.replicate (newSize - i) nil) := by
    intro i hi
    induction i with
    | zero => rfl
    | succ i ih =>
      rw [List.range_succ, List.foldlM_append, ih (Nat.le_of_succ_le hi)]
      simp only [Option.bind_eq_bind, Option.bind_some, List.foldlM_cons, List.foldlM_nil,
        resizeStep_eq h hmax hnew hi]
      rfl
  have hall := hcopied xs.length (Nat.le_refl _)
  rw [List.take_length] at hall
  exact hall

namespace Traversal

/-! ### A round -/

/-- The queue holds the nodes, and has been doubled some times. -/
structure Holds (s : Traversal α) (xs : List (Tst α)) : Prop where
  ring : Ring.Holds s.queue s.qStart xs
  size : s.qSize = xs.length
  max : s.qMax = s.queue.length
  power : ∃ k, 7 ≤ k ∧ k ≤ 30 ∧ s.qMax = 2 ^ k

theorem Holds.max_le (h : s.Holds xs) : s.qMax ≤ 2 ^ 30 := by
  obtain ⟨k, -, hk, hmax⟩ := h.power
  rw [hmax]
  exact Nat.pow_le_pow_right (by decide) hk

theorem Holds.max_ge (h : s.Holds xs) : 2 ^ 7 ≤ s.qMax := by
  obtain ⟨k, hk, -, hmax⟩ := h.power
  rw [hmax]
  exact Nat.pow_le_pow_right (by decide) hk

theorem Holds.length_le (h : s.Holds xs) : xs.length ≤ s.qMax := by
  rw [h.max]
  exact h.ring.fits

theorem Holds.enqueue (h : s.Holds xs) (link : Tst α) (hfits : xs.length < s.qMax) :
    ∃ s', s.enqueue link = some s' ∧ s'.Holds (xs ++ link.queued) ∧ s'.qMax = s.qMax ∧
      s'.calls = s.calls := by
  cases link with
  | nil =>
    have hxs : xs ++ (nil : Tst α).queued = xs := List.append_nil xs
    rw [hxs]
    exact ⟨s, rfl, h, rfl, rfl⟩
  | node c low equal high v =>
    have hmax := h.max
    have hsum : s.qStart + s.qSize < 2 ^ 31 := by
      have hstart := h.ring.start_lt
      have hle := h.max_le
      have hsize := h.size
      omega
    have hindex : (s.qStart + s.qSize) % s.qMax < s.queue.length := by
      rw [← hmax]
      exact Nat.mod_lt _ (Nat.zero_lt_of_lt hfits)
    refine ⟨{ s with
        queue := s.queue.set ((s.qStart + s.qSize) % s.qMax) (node c low equal high v)
        qSize := s.qSize + 1 }, ?_, ?_, rfl, rfl⟩
    · show (int (s.qStart + s.qSize)).bind (fun sum =>
        (write s.queue (sum % s.qMax) (node c low equal high v)).bind fun queue =>
          some { s with queue, qSize := s.qSize + 1 }) = _
      rw [int_eq hsum, Option.bind_some, write, if_pos hindex, Option.bind_some]
    · refine ⟨?_, ?_, ?_, h.power⟩
      · have hpush := h.ring.push (hmax ▸ hfits) (node c low equal high v)
        rw [← h.size, ← hmax] at hpush
        exact hpush
      · show s.qSize + 1 = (xs ++ [node c low equal high v]).length
        rw [List.length_append, List.length_singleton, h.size]
      · show s.qMax = (s.queue.set _ _).length
        rw [List.length_set, hmax]

theorem Holds.visit (h : s.Holds xs) (hfits : xs.length + 3 ≤ s.qMax) (c : ByteStream.Byte)
    (low equal high : Tst α) (v : Option α) :
    ∃ s', s.visit (node c low equal high v) = some s' ∧
      s'.Holds (xs ++ links (node c low equal high v)) ∧ s'.calls = s.calls ++ v.toList := by
  have hcalled : Holds { s with calls := s.calls ++ v.toList } xs := ⟨h.ring, h.size, h.max, h.power⟩
  have hlow := length_queued low
  have hequal := length_queued equal
  obtain ⟨s₁, hs₁, h₁, hmax₁, hcalls₁⟩ := hcalled.enqueue low (by show xs.length < s.qMax; omega)
  have hmax₁ : s₁.qMax = s.qMax := hmax₁
  obtain ⟨s₂, hs₂, h₂, hmax₂, hcalls₂⟩ := h₁.enqueue equal (by
    rw [List.length_append, hmax₁]
    omega)
  obtain ⟨s₃, hs₃, h₃, -, hcalls₃⟩ := h₂.enqueue high (by
    rw [List.length_append, List.length_append, hmax₂, hmax₁]
    omega)
  refine ⟨s₃, ?_, ?_, ?_⟩
  · rw [Traversal.visit, hs₁]
    simp only [Option.bind_eq_bind, Option.bind_some, hs₂, hs₃]
  · have hlinks : xs ++ links (node c low equal high v) =
        xs ++ low.queued ++ equal.queued ++ high.queued := by
      simp only [links, List.append_assoc]
    rw [hlinks]
    exact h₃
  · rw [hcalls₃, hcalls₂, hcalls₁]

theorem Holds.grow (h : s.Holds xs) (hmax : s.qMax < 2 ^ 30) :
    ∃ s', s.grow = some s' ∧ s'.Holds xs ∧ s'.qMax = s.qMax * 2 ∧ s'.calls = s.calls := by
  have hlen := h.length_le
  have hpos := h.max_ge
  have hsize : s.qMax * 2 < 2 ^ 31 := by omega
  have hqueue : s.queue.length ≤ 2 ^ 30 := by
    rw [← h.max]
    exact h.max_le
  have hresize := resizeQueue_eq h.ring hqueue (by omega : xs.length ≤ s.qMax * 2)
  rw [← h.size, ← h.max] at hresize
  have hlength : (xs ++ List.replicate (s.qMax * 2 - s.qSize) (nil : Tst α)).length = s.qMax * 2 := by
    rw [List.length_append, List.length_replicate, h.size]
    omega
  refine ⟨{ s with
      queue := xs ++ List.replicate (s.qMax * 2 - s.qSize) nil
      qStart := 0
      qMax := s.qMax * 2 }, ?_, ?_, rfl, rfl⟩
  · rw [Traversal.grow, int_eq hsize]
    simp only [Option.bind_eq_bind, Option.bind_some, hresize]
  · refine ⟨Ring.Holds.unrolled ?_, h.size, hlength.symm, ?_⟩
    · intro hnil
      rw [hnil, List.length_nil] at hlength
      omega
    · obtain ⟨k, hk, -, hpow⟩ := h.power
      refine ⟨k + 1, by omega, ?_, ?_⟩
      · rw [hpow] at hmax
        exact (Nat.pow_lt_pow_iff_right (by decide)).mp hmax
      · show s.qMax * 2 = 2 ^ (k + 1)
        rw [hpow, Nat.pow_succ]

variable {t : Tst α}

/-- A round, as far as the test for a resize. -/
theorem Holds.step_eq (h : s.Holds (t :: xs)) :
    ∃ s₀ : Traversal α, s₀.Holds xs ∧ s₀.qMax = s.qMax ∧ s₀.calls = s.calls ∧
      s.step = (if s.qMax < xs.length + 3 then s₀.grow else some s₀).bind fun s' => s'.visit t := by
  have hstart := h.ring.start_lt
  have hmax := h.max
  have hle := h.max_le
  have hlen := h.length_le
  rw [List.length_cons] at hlen
  have hnext : s.qStart + 1 < 2 ^ 31 := by omega
  have hsize : s.qSize - 1 = xs.length := by
    rw [h.size, List.length_cons, Nat.add_sub_cancel]
  have hneed : xs.length + 3 < 2 ^ 31 := by omega
  refine ⟨{ s with qStart := (s.qStart + 1) % s.qMax, qSize := s.qSize - 1 },
    ⟨?_, hsize, hmax, h.power⟩, rfl, rfl, ?_⟩
  · show Ring.Holds s.queue ((s.qStart + 1) % s.qMax) xs
    rw [hmax]
    exact h.ring.tail
  · rw [step, h.ring.head]
    simp only [Option.bind_eq_bind, Option.bind_some, int_eq hnext, hsize, int_eq hneed]
    split_ifs <;> rfl

/-- **A round** takes the first node out and puts its links behind the last. -/
theorem Holds.step (h : s.Holds (t :: xs)) (ht : t ≠ nil) (hfits : xs.length + 3 ≤ 2 ^ 30) :
    ∃ s', s.step = some s' ∧ s'.Holds (xs ++ links t) ∧ s'.calls = s.calls ++ t.root.toList := by
  obtain ⟨s₀, h₀, hmax₀, hcalls₀, hstep⟩ := h.step_eq
  have hlen := h.length_le
  rw [List.length_cons] at hlen
  have hge := h.max_ge
  have hvisit : ∀ s₁ : Traversal α, s₁.Holds xs → xs.length + 3 ≤ s₁.qMax → s₁.calls = s.calls →
      ∃ s', s₁.visit t = some s' ∧ s'.Holds (xs ++ links t) ∧
        s'.calls = s.calls ++ t.root.toList := by
    intro s₁ h₁ hfits₁ hcalls₁
    cases t with
    | nil => exact absurd rfl ht
    | node c low equal high v =>
      rw [← hcalls₁]
      exact h₁.visit hfits₁ c low equal high v
  rw [hstep]
  by_cases hgrow : s.qMax < xs.length + 3
  · obtain ⟨s₁, hs₁, h₁, hmax₁, hcalls₁⟩ := h₀.grow (by omega)
    rw [if_pos hgrow, hs₁]
    exact hvisit s₁ h₁ (by omega) (hcalls₁.trans hcalls₀)
  · rw [if_neg hgrow]
    exact hvisit s₀ h₀ (by omega) hcalls₀

/-- A round that finds no room for three links in the largest queue goes wrong. -/
theorem Holds.step_none (h : s.Holds (t :: xs)) (hfits : 2 ^ 30 < xs.length + 3) :
    s.step = none := by
  obtain ⟨s₀, -, hmax₀, -, hstep⟩ := h.step_eq
  have hlen := h.length_le
  rw [List.length_cons] at hlen
  obtain ⟨k, -, hk, hpow⟩ := h.power
  have hmax : s.qMax = 2 ^ 30 := by
    rcases Nat.lt_or_eq_of_le hk with hlt | rfl
    · have hle : 2 ^ k ≤ 2 ^ 29 := Nat.pow_le_pow_right (by decide) (Nat.le_of_lt_succ hlt)
      omega
    · exact hpow
  have hint : int (s₀.qMax * 2) = none := by
    rw [hmax₀, hmax]
    exact if_neg (by decide)
  have hgrow : s₀.grow = none := by
    rw [Traversal.grow, hint]
    rfl
  rw [hstep, if_pos (by omega), hgrow]
  rfl

end Traversal

/-! ### The rounds -/

theorem ne_nil_of_mem_links {t u : Tst α} (hu : u ∈ links t) : u ≠ nil := by
  cases t with
  | nil => exact absurd hu List.not_mem_nil
  | node c low equal high v =>
    rw [links, List.mem_append, List.mem_append] at hu
    rcases hu with (hu | hu) | hu
    · exact queued_ne_nil hu
    · exact queued_ne_nil hu
    · exact queued_ne_nil hu

theorem sizes_links {t : Tst α} (ht : t ≠ nil) : sizes (links t) + 1 = t.size := by
  cases t with
  | nil => exact absurd rfl ht
  | node c low equal high v =>
    rw [links, sizes_append, sizes_append, sizes_queued, sizes_queued, sizes_queued, size]

theorem sizes_cons (t : Tst α) (xs : List (Tst α)) : sizes (t :: xs) = t.size + sizes xs :=
  List.sum_cons

theorem traverseLoop_cons (n : ℕ) {t : Tst α} (ht : t ≠ nil) (xs : List (Tst α)) :
    traverseLoop (n + 1) (t :: xs) = t.root.toList ++ traverseLoop n (xs ++ links t) := by
  cases t with
  | nil => exact absurd rfl ht
  | node c low equal high v =>
    rw [links, traverseLoop, root]
    simp only [List.append_assoc]

theorem traverseLoop_nil (n : ℕ) : traverseLoop n ([] : List (Tst α)) = [] := by
  cases n <;> rfl

theorem loop_empty (h : s.qSize = 0) (n : ℕ) : s.loop n = .ended s.calls := by
  cases n with
  | zero => rw [Traversal.loop, if_pos h]
  | succ n => rw [Traversal.loop, if_pos h]

/-- In each of that many rounds there is room for three links. -/
def Fits : ℕ → List (Tst α) → Prop
  | n + 1, t :: xs => xs.length + 3 ≤ 2 ^ 30 ∧ Fits n (xs ++ links t)
  | _, _ => True

theorem fits_nil (n : ℕ) : Fits n ([] : List (Tst α)) := by
  cases n <;> exact trivial

/-- **The loop** gives the callback what `traverse` finds, as long as there is room, and goes
wrong otherwise. -/
theorem loop_eq_traverseLoop {n : ℕ} (h : s.Holds xs) (hne : ∀ t ∈ xs, t ≠ nil)
    (hn : sizes xs ≤ n) :
    (Fits n xs → s.loop n = .ended (s.calls ++ traverseLoop n xs)) ∧
      (¬Fits n xs → s.loop n = .wrong) := by
  induction n generalizing s xs with
  | zero =>
    rcases xs with _ | ⟨t, xs⟩
    · refine ⟨fun _ => ?_, fun hfits => absurd (fits_nil _) hfits⟩
      rw [loop_empty h.size, traverseLoop_nil, List.append_nil]
    · have ht := sizes_links (hne t (List.mem_cons_self ..))
      rw [sizes_cons] at hn
      omega
  | succ n ih =>
    rcases xs with _ | ⟨t, xs⟩
    · refine ⟨fun _ => ?_, fun hfits => absurd (fits_nil _) hfits⟩
      rw [loop_empty h.size, traverseLoop_nil, List.append_nil]
    · have ht : t ≠ nil := hne t (List.mem_cons_self ..)
      have hpos : s.qSize ≠ 0 := by
        rw [h.size]
        simp
      have hrest : ∀ u ∈ xs ++ links t, u ≠ nil := by
        intro u hu
        rcases List.mem_append.mp hu with hu | hu
        · exact hne u (List.mem_cons_of_mem t hu)
        · exact ne_nil_of_mem_links hu
      have hsizes : sizes (xs ++ links t) ≤ n := by
        have hlinks := sizes_links ht
        rw [sizes_cons] at hn
        rw [sizes_append]
        omega
      rw [Traversal.loop, if_neg hpos]
      by_cases hroom : xs.length + 3 ≤ 2 ^ 30
      · obtain ⟨s', hs', h', hcalls⟩ := h.step ht hroom
        obtain ⟨hended, hwrong⟩ := ih h' hrest hsizes
        rw [hs']
        constructor
        · intro hfits
          rw [traverseLoop_cons n ht, ← List.append_assoc, ← hcalls]
          exact hended hfits.2
        · intro hfits
          exact hwrong fun hn => hfits ⟨hroom, hn⟩
      · rw [h.step_none (Nat.lt_of_not_le hroom)]
        exact ⟨fun hfits => absurd hfits.1 hroom, fun _ => rfl⟩

/-! ### Levels -/

/-- The rounds of one level: what waits is the rest of it and the links before. -/
theorem fits_level {n : ℕ} {xs : List (Tst α)} (hne : ∀ t ∈ xs, t ≠ nil) (ys : List (Tst α))
    (hn : sizes xs ≤ n) :
    Fits n (xs ++ ys) ↔
      (∀ j < xs.length,
        xs.length - (j + 1) + (ys ++ (xs.take j).flatMap links).length + 3 ≤ 2 ^ 30) ∧
      Fits (n - xs.length) (ys ++ xs.flatMap links) := by
  induction xs generalizing n ys with
  | nil => simp
  | cons t xs ih =>
    have ht := sizes_links (hne t (List.mem_cons_self ..))
    rw [sizes_cons] at hn
    obtain ⟨m, rfl⟩ : ∃ m, n = m + 1 := ⟨n - 1, by omega⟩
    have hrest := ih (fun u hu => hne u (List.mem_cons_of_mem t hu)) (ys ++ links t)
      (by omega : sizes xs ≤ m)
    have hlen : m + 1 - (t :: xs).length = m - xs.length := by
      rw [List.length_cons]
      omega
    have hround : Fits (m + 1) (t :: xs ++ ys) ↔
        (xs ++ ys).length + 3 ≤ 2 ^ 30 ∧ Fits m (xs ++ (ys ++ links t)) := by
      rw [← List.append_assoc]
      exact Iff.rfl
    rw [hround, hrest, hlen, List.flatMap_cons, List.append_assoc, ← and_assoc]
    refine and_congr_left fun _ => ?_
    constructor
    · rintro ⟨hfirst, hothers⟩ j hj
      rcases j with _ | j
      · simp only [List.length_cons, List.take_zero, List.flatMap_nil, List.append_nil,
          List.length_append] at hfirst ⊢
        omega
      · have hj' := hothers j (Nat.lt_of_succ_lt_succ hj)
        simp only [List.length_cons, List.take_succ_cons, List.flatMap_cons,
          List.length_append] at hj' ⊢
        omega
    · intro hall
      constructor
      · have hfirst := hall 0 (Nat.succ_pos _)
        simp only [List.length_cons, List.take_zero, List.flatMap_nil, List.append_nil,
          List.length_append] at hfirst ⊢
        omega
      · intro j hj
        have hj' := hall (j + 1) (Nat.succ_lt_succ hj)
        simp only [List.length_cons, List.take_succ_cons, List.flatMap_cons,
          List.length_append] at hj' ⊢
        omega

theorem sizes_flatMap_links {xs : List (Tst α)} (hne : ∀ t ∈ xs, t ≠ nil) :
    sizes (xs.flatMap links) + xs.length = sizes xs := by
  induction xs with
  | nil => rfl
  | cons t xs ih =>
    have ht := sizes_links (hne t (List.mem_cons_self ..))
    have hrest := ih fun u hu => hne u (List.mem_cons_of_mem t hu)
    rw [List.flatMap_cons, sizes_append, sizes_cons, List.length_cons]
    omega

theorem level_nil (d : ℕ) : level d ([] : List (Tst α)) = [] := by
  induction d with
  | zero => rfl
  | succ d ih => exact ih

theorem narrowBelow_iff (xs : List (Tst α)) :
    NarrowBelow xs ↔
      (∀ j < xs.length, waiting xs j + 3 ≤ 2 ^ 30) ∧ NarrowBelow (xs.flatMap links) := by
  constructor
  · exact fun h => ⟨h 0, fun d => h (d + 1)⟩
  · rintro ⟨hfirst, hothers⟩ d
    cases d with
    | zero => exact hfirst
    | succ d => exact hothers d

/-- There is room in each round exactly if no level is too wide. -/
theorem fits_iff_narrowBelow {n : ℕ} (hne : ∀ t ∈ xs, t ≠ nil) (hn : sizes xs ≤ n) :
    Fits n xs ↔ NarrowBelow xs := by
  induction n using Nat.strongRecOn generalizing xs with
  | ind n ih =>
    rcases xs with _ | ⟨t, xs⟩
    · refine iff_of_true (fits_nil n) ?_
      intro d j hj
      rw [level_nil] at hj
      exact absurd hj (Nat.not_lt_zero j)
    · have hsizes := sizes_flatMap_links hne
      have hpos : 0 < (t :: xs).length := Nat.succ_pos _
      have hlinks : ∀ u ∈ (t :: xs).flatMap links, u ≠ nil := by
        intro u hu
        obtain ⟨t', -, hu⟩ := List.mem_flatMap.mp hu
        exact ne_nil_of_mem_links hu
      have hlevel := fits_level hne [] hn
      rw [List.append_nil, List.nil_append] at hlevel
      rw [hlevel, narrowBelow_iff, ih (n - (t :: xs).length) (by omega) hlinks (by omega)]
      rfl

/-! ### The traversal -/

theorem holds_start {t : Tst α} {rest : List (Tst α)}
    (hlen : (t :: rest).length = maxTraverseSize) :
    Traversal.Holds ⟨t :: rest, 0, 1, maxTraverseSize, []⟩ [t] where
  ring := @Ring.Holds.unrolled _ [t] rest (List.cons_ne_nil t rest)
  size := rfl
  max := hlen.symm
  power := ⟨7, by decide, by decide, rfl⟩

/-- **How a traversal goes**, for every tree. -/
theorem traverseQueue_eq {n : ℕ} (t : Tst α) (hn : t.size ≤ n) :
    (Narrow t → t.traverseQueue n = .ended (traverseLoop n t.queued)) ∧
      (¬Narrow t → t.traverseQueue n = .wrong) := by
  have hne : ∀ u ∈ t.queued, u ≠ nil := fun u hu => queued_ne_nil hu
  have hsizes : sizes t.queued ≤ n := by
    rw [sizes_queued]
    exact hn
  rw [Narrow, ← fits_iff_narrowBelow hne hsizes]
  cases t with
  | nil => exact ⟨fun _ => by cases n <;> rfl, fun hfits => absurd (fits_nil n) hfits⟩
  | node c low equal high v =>
    exact loop_eq_traverseLoop (holds_start rfl) hne hsizes

theorem traverseLoop_eq_sizes {n : ℕ} (hne : ∀ t ∈ xs, t ≠ nil) (hn : sizes xs ≤ n) :
    traverseLoop n xs = traverseLoop (sizes xs) xs := by
  induction n generalizing xs with
  | zero => rw [Nat.le_zero.mp hn]
  | succ n ih =>
    rcases xs with _ | ⟨t, xs⟩
    · rw [traverseLoop_nil, traverseLoop_nil]
    · have ht : t ≠ nil := hne t (List.mem_cons_self ..)
      have hlinks := sizes_links ht
      have hsizes : sizes (t :: xs) = sizes (xs ++ links t) + 1 := by
        rw [sizes_cons, sizes_append]
        omega
      have hrest : ∀ u ∈ xs ++ links t, u ≠ nil := by
        intro u hu
        rcases List.mem_append.mp hu with hu | hu
        · exact hne u (List.mem_cons_of_mem t hu)
        · exact ne_nil_of_mem_links hu
      rw [hsizes] at hn
      rw [hsizes, traverseLoop_cons n ht, traverseLoop_cons _ ht, ih hrest (Nat.le_of_succ_le_succ hn)]

/-- A traversal with the queue gives the callback what `traverse` does, in its order. -/
theorem traverseQueue_eq_traverse {n : ℕ} {t : Tst α} (ht : Narrow t) (hn : t.size ≤ n) :
    t.traverseQueue n = .ended t.traverse := by
  have hne : ∀ u ∈ t.queued, u ≠ nil := fun u hu => queued_ne_nil hu
  have hsizes : sizes t.queued ≤ n := by
    rw [sizes_queued]
    exact hn
  rw [(traverseQueue_eq t hn).1 ht, traverseLoop_eq_sizes hne hsizes, sizes_queued, traverse]

end

/-- **A traversal comes to every value once**, within its queue and to an end, exactly if the
tree is narrow. -/
theorem traverses_iff (t : Tst α) : Traverses t ↔ Narrow t := by
  constructor
  · rintro ⟨calls, -, hended⟩
    by_contra hwide
    have hwrong := (traverseQueue_eq t (Nat.le_refl _)).2 hwide
    rw [hended t.size (Nat.le_refl _)] at hwrong
    exact absurd hwrong (by simp)
  · intro ht
    exact ⟨t.traverse, traverse_perm t, fun n hn => traverseQueue_eq_traverse ht hn⟩

/-! ### A tree that is too wide -/

open ByteStream

/-- The tree of all words of that many parts, each of them `a`, `bb` or `c`, and an `a` at
the end. -/
def crowd : ℕ → Tst ℕ
  | 0 => node (chr 'a') nil nil nil (some 0)
  | n + 1 =>
    node (chr 'b') (node (chr 'a') nil (crowd n) nil none) (node (chr 'b') nil (crowd n) nil none)
      (node (chr 'c') nil (crowd n) nil none) none

/-- These words, in the order in which they make the tree. -/
def crowdKeys : ℕ → List (List Byte)
  | 0 => [[chr 'a']]
  | n + 1 =>
    (crowdKeys n).map ([chr 'b', chr 'b'] ++ ·) ++ (crowdKeys n).map ([chr 'a'] ++ ·) ++
      (crowdKeys n).map ([chr 'c'] ++ ·)

/-- The insertion of words. -/
def insertAll (t : Tst ℕ) (keys : List (List Byte)) : Option (Tst ℕ) :=
  keys.foldlM (fun t k => t.insert k 0) t

theorem insertAll_append (t : Tst ℕ) (keys keys' : List (List Byte)) :
    insertAll t (keys ++ keys') = (insertAll t keys).bind fun t => insertAll t keys' :=
  List.foldlM_append

theorem crowdKeys_ne_nil (n : ℕ) : crowdKeys n ≠ [] := by
  cases n with
  | zero => simp [crowdKeys]
  | succ n => simp [crowdKeys, crowdKeys_ne_nil n]

theorem ne_nil_of_mem_crowdKeys {n : ℕ} {k : List Byte} (hk : k ∈ crowdKeys n) : k ≠ [] := by
  cases n with
  | zero =>
    obtain rfl := List.mem_singleton.mp hk
    simp
  | succ n =>
    simp only [crowdKeys, List.mem_append, List.mem_map] at hk
    rcases hk with (⟨w, -, rfl⟩ | ⟨w, -, rfl⟩) | ⟨w, -, rfl⟩ <;> simp

/-- Words with a prefix make the tree of the words, where the prefix leads to. -/
theorem insertAll_map {p : List Byte} {t₀ t' : Tst ℕ} {keys : List (List Byte)}
    (place : Tst ℕ → Tst ℕ) (hne : keys ≠ []) (hkeys : ∀ k ∈ keys, k ≠ [])
    (hfirst : ∀ k, k ≠ [] → t₀.insert (p ++ k) 0 = (nil.insert k 0).map place)
    (hmore : ∀ t k, k ≠ [] → (place t).insert (p ++ k) 0 = (t.insert k 0).map place)
    (h : insertAll nil keys = some t') : insertAll t₀ (keys.map (p ++ ·)) = some (place t') := by
  have hothers : ∀ (keys : List (List Byte)) (t : Tst ℕ), (∀ k ∈ keys, k ≠ []) →
      insertAll (place t) (keys.map (p ++ ·)) = (insertAll t keys).map place := by
    intro keys
    induction keys with
    | nil => exact fun t _ => rfl
    | cons k keys ih =>
      intro t hkeys
      have hrest := fun t => ih t fun k hk => hkeys k (List.mem_cons_of_mem _ hk)
      simp only [insertAll, List.map_cons, List.foldlM_cons, hmore t k (hkeys k (List.mem_cons_self ..)),
        Option.bind_eq_bind] at hrest ⊢
      cases t.insert k 0 with
      | none => rfl
      | some t => exact hrest t
  obtain ⟨k, keys, rfl⟩ := List.exists_cons_of_ne_nil hne
  have hrest := fun t => hothers keys t fun k hk => hkeys k (List.mem_cons_of_mem _ hk)
  simp only [insertAll, List.map_cons, List.foldlM_cons, hfirst k (hkeys k (List.mem_cons_self ..)),
    Option.bind_eq_bind] at h hrest ⊢
  cases hinsert : nil.insert k 0 with
  | none =>
    rw [hinsert] at h
    exact absurd h (by simp)
  | some t =>
    rw [hinsert] at h
    have hrest := hrest t
    rw [show List.foldlM (fun t k => t.insert k 0) t keys = some t' from h] at hrest
    exact hrest

/-- **The tree is one that insertions make.** -/
theorem insertAll_crowdKeys (n : ℕ) : insertAll nil (crowdKeys n) = some (crowd n) := by
  induction n with
  | zero => rfl
  | succ n ih =>
    have hne := crowdKeys_ne_nil n
    have hkeys : ∀ k ∈ crowdKeys n, k ≠ [] := fun k hk => ne_nil_of_mem_crowdKeys hk
    have hb : insertAll nil ((crowdKeys n).map ([chr 'b', chr 'b'] ++ ·)) =
        some (node (chr 'b') nil (node (chr 'b') nil (crowd n) nil none) nil none) := by
      refine insertAll_map (fun t => node (chr 'b') nil (node (chr 'b') nil t nil none) nil none)
        hne hkeys ?_ ?_ ih
      · intro k hk
        obtain ⟨d, k, rfl⟩ := List.exists_cons_of_ne_nil hk
        rfl
      · intro t k hk
        obtain ⟨d, k, rfl⟩ := List.exists_cons_of_ne_nil hk
        simp [insert, insertBase, Option.map_map, Function.comp_def]
    have ha : ∀ x, insertAll (node (chr 'b') nil x nil none) ((crowdKeys n).map ([chr 'a'] ++ ·)) =
        some (node (chr 'b') (node (chr 'a') nil (crowd n) nil none) x nil none) := by
      intro x
      have hlt : (chr 'a').toInt8 < (chr 'b').toInt8 := by decide
      refine insertAll_map (fun t => node (chr 'b') (node (chr 'a') nil t nil none) x nil none)
        hne hkeys ?_ ?_ ih
      · intro k hk
        obtain ⟨d, k, rfl⟩ := List.exists_cons_of_ne_nil hk
        rfl
      · intro t k hk
        obtain ⟨d, k, rfl⟩ := List.exists_cons_of_ne_nil hk
        simp [insert, insertBase, hlt, Option.map_map, Function.comp_def]
    have hc : ∀ x y, insertAll (node (chr 'b') x y nil none) ((crowdKeys n).map ([chr 'c'] ++ ·)) =
        some (node (chr 'b') x y (node (chr 'c') nil (crowd n) nil none) none) := by
      intro x y
      have hlt : ¬(chr 'c').toInt8 < (chr 'b').toInt8 := by decide
      have hne' : chr 'c' ≠ chr 'b' := by decide
      refine insertAll_map (fun t => node (chr 'b') x y (node (chr 'c') nil t nil none) none)
        hne hkeys ?_ ?_ ih
      · intro k hk
        obtain ⟨d, k, rfl⟩ := List.exists_cons_of_ne_nil hk
        rfl
      · intro t k hk
        obtain ⟨d, k, rfl⟩ := List.exists_cons_of_ne_nil hk
        simp [insert, insertBase, hlt, hne', Option.map_map, Function.comp_def]
    rw [crowdKeys, insertAll_append, insertAll_append, hb, Option.bind_some, ha, Option.bind_some, hc]
    rfl

/-- Every second level has three times as many nodes. -/
theorem level_replicate (d m k : ℕ) :
    level (2 * d) (List.replicate m (crowd (d + k))) = List.replicate (m * 3 ^ d) (crowd k) := by
  have hqueued : ∀ n, (crowd n).queued = [crowd n] := fun n => by cases n <;> rfl
  have hone : ∀ c n, links (node c nil (crowd n) nil none) = [crowd n] := by
    intro c n
    rw [links, hqueued]
    rfl
  have hlinks : ∀ n, (links (crowd (n + 1))).flatMap links = List.replicate 3 (crowd n) := by
    intro n
    have hthree : links (crowd (n + 1)) = [node (chr 'a') nil (crowd n) nil none,
        node (chr 'b') nil (crowd n) nil none, node (chr 'c') nil (crowd n) nil none] := rfl
    rw [hthree, List.flatMap_cons, List.flatMap_cons, List.flatMap_cons, hone, hone, hone]
    rfl
  induction d generalizing m with
  | zero => simp [level]
  | succ d ih =>
    have hdown : ((List.replicate m (crowd (d + k + 1))).flatMap links).flatMap links =
        List.replicate (m * 3) (crowd (d + k)) := by
      induction m with
      | zero => simp
      | succ m ihm =>
        rw [List.replicate_succ, List.flatMap_cons, List.flatMap_append, ihm, hlinks,
          List.replicate_append_replicate]
        congr 1
        omega
    have hstep : level (2 * (d + 1)) (List.replicate m (crowd (d + 1 + k))) =
        level (2 * d) (List.replicate (m * 3) (crowd (d + k))) := by
      rw [← hdown, Nat.add_right_comm d 1 k]
      rfl
    rw [hstep, ih, Nat.pow_succ, Nat.mul_assoc, Nat.mul_comm 3]

theorem not_narrow_crowd : ¬Narrow (crowd 19) := by
  intro h
  have hlevel := level_replicate 19 1 0
  have hone : (crowd 19).queued = List.replicate 1 (crowd (19 + 0)) := rfl
  have hwide := h (2 * 19) 0
  rw [hone, hlevel, List.length_replicate, waiting, List.length_replicate, List.take_zero] at hwide
  exact absurd (hwide (by decide)) (by decide)

/-- Of the words of nineteen parts, 3¹⁹ − 1 nodes wait at once, and `q_max` overflows. -/
theorem not_traverses_crowd : ¬Traverses (crowd 19) := by
  rintro ⟨calls, -, hended⟩
  have hwrong := (traverseQueue_eq (crowd 19) (Nat.le_refl _)).2 not_narrow_crowd
  rw [hended _ (Nat.le_refl _)] at hwrong
  exact absurd hwrong (by simp)

end Tst

end Mongrel2

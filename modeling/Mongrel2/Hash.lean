/-
The hash table (`adt/hash.c`).

Chains of nodes, as many as a power of two; the low bits of a hash choose the chain.  The
table doubles when the nodes are twice as many as the chains, and halves when they are half
as many.

* `Chains.collect` — a row of chains as one list;
* `hashInsert`, `hashDelete`, `hashLookup` and `hashFreeNodes` — the calls, with their
  assertions;
* `Sound` — each node is in the chain of its hash;
* `growTable_spec`, `shrinkTable_spec` — another size keeps the nodes;
* `Sound.lookup_iff`, `hashInsert_spec`, `hashDelete_spec` — what a call does.

Design notes: a node is known by its key, since no two have the same.  The sizes do not
wrap.  The table is a function of the chain's number, of which those below `nchains` count.
-/
import Mathlib.Data.Multiset.Filter
import Mathlib.Data.List.Range
import Mathlib.Data.List.Perm.Basic
import Mathlib.Data.Nat.Bitwise
import Mathlib.Logic.Function.Basic

namespace Mongrel2

/-! ### Rows of chains -/

namespace Chains

variable {α : Type*}

/-- All that is in the first chains. -/
def collect (n : ℕ) (c : ℕ → List α) : List α := (List.range n).flatMap c

variable {n i : ℕ} {c c' : ℕ → List α} {a : α} {xs : List α}

theorem mem_collect : a ∈ collect n c ↔ ∃ i < n, a ∈ c i := by
  simp [collect]

theorem collect_succ (n : ℕ) (c : ℕ → List α) : collect (n + 1) c = collect n c ++ c n := by
  simp [collect, List.range_succ]

theorem collect_congr (h : ∀ i < n, c i = c' i) : collect n c = collect n c' := by
  induction n with
  | zero => rfl
  | succ n ih =>
    rw [collect_succ, collect_succ, ih fun i hi => h i (by omega), h n (by omega)]

theorem collect_perm (h : ∀ i < n, (c i).Perm (c' i)) : (collect n c).Perm (collect n c') := by
  induction n with
  | zero => exact .refl _
  | succ n ih =>
    rw [collect_succ, collect_succ]
    exact (ih fun i hi => h i (by omega)).append (h n (by omega))

/-- One chain without one of its members. -/
theorem collect_update (hi : i < n) (h : (c i).Perm (a :: xs)) :
    (collect n c).Perm (a :: collect n (Function.update c i xs)) := by
  induction n with
  | zero => exact absurd hi (Nat.not_lt_zero i)
  | succ n ih =>
    rw [collect_succ, collect_succ]
    rcases Nat.lt_succ_iff_lt_or_eq.mp hi with hlt | rfl
    · rw [Function.update_of_ne (by omega)]
      exact (ih hlt).append_right (c n)
    · have hbelow : ∀ j < i, Function.update c i xs j = c j := fun j hj =>
        Function.update_of_ne (by omega) _ _
      rw [Function.update_self, collect_congr hbelow]
      exact (h.append_left _).trans List.perm_middle

/-- The upper half of the chains behind the lower one. -/
theorem collect_halves (n : ℕ) (c : ℕ → List α) :
    (collect (2 * n) c).Perm (collect n fun i => c i ++ c (i + n)) := by
  have hrange : List.range (2 * n) = List.range n ++ (List.range n).map (n + ·) := by
    rw [Nat.two_mul, List.range_add]
  have hhigh : ((List.range n).map (n + ·)).flatMap c =
      (List.range n).flatMap fun i => c (i + n) := by
    rw [List.flatMap_map]
    exact List.flatMap_congr fun i _ => by rw [Nat.add_comm]
  rw [collect, hrange, List.flatMap_append, hhigh]
  exact List.flatMap_append_perm _ _ _

end Chains

open Chains

namespace Hash

/-! ### The table -/

/-- `hnode_t`. -/
structure Node (κ δ : Type*) where
  hkey : ℕ
  key : κ
  data : δ

end Hash

open Hash

/-- `hash_t`. -/
structure Hash (κ δ : Type*) where
  table : ℕ → List (Node κ δ)
  nchains : ℕ
  nodecount : ℕ
  maxcount : ℕ
  highmark : ℕ
  lowmark : ℕ
  mask : ℕ
  dynamic : Bool

namespace Hash

def initSize : ℕ := 64

section

variable {κ δ : Type*}

/-- `hash_create`. -/
def hashCreate (maxcount : ℕ) : Hash κ δ where
  table := fun _ => []
  nchains := initSize
  nodecount := 0
  maxcount := maxcount
  highmark := initSize * 2
  lowmark := initSize / 2
  mask := initSize - 1
  dynamic := true

/-- `is_power_of_two`. -/
def isPowerOfTwo (arg : ℕ) : Bool :=
  if h : arg = 0 then false
  else if arg % 2 = 0 then isPowerOfTwo (arg / 2) else arg = 1
  termination_by arg
  decreasing_by omega

/-- `hash_init`, for a table of its own; the marks are not set. -/
def hashInit (maxcount nchains : ℕ) : Option (Hash κ δ) :=
  if isPowerOfTwo nchains ∧ 2 ≤ nchains then
    some
      { table := fun _ => []
        nchains := nchains
        nodecount := 0
        maxcount := maxcount
        highmark := 0
        lowmark := 0
        mask := nchains - 1
        dynamic := false }
  else none

/-- `hash_verify`. -/
def hashVerify (h : Hash κ δ) : Bool :=
  (!h.dynamic || (decide (h.lowmark < h.highmark) && isPowerOfTwo h.highmark &&
    isPowerOfTwo h.lowmark)) &&
  ((List.range h.nchains).all fun chain =>
    (h.table chain).all fun node => decide (node.hkey &&& h.mask = chain)) &&
  decide ((collect h.nchains h.table).length = h.nodecount)

/-- `assert (hash_verify(hash))`. -/
def asserted (h : Hash κ δ) : Option (Hash κ δ) := if h.hashVerify then some h else none

/-- The two chains that the nodes of one go to. -/
def split (exposedBit : ℕ) (chain : List (Node κ δ)) : List (Node κ δ) × List (Node κ δ) :=
  chain.foldl (fun x node =>
    if node.hkey &&& exposedBit ≠ 0 then (x.1, node :: x.2) else (node :: x.1, x.2)) ([], [])

/-- `grow_table`; `alloc` is whether there is memory for it. -/
def growTable (alloc : Bool) (h : Hash κ δ) : Option (Hash κ δ) :=
  if alloc then
    let mask := (h.mask <<< 1) ||| 1
    let exposedBit := mask ^^^ h.mask
    asserted { h with
      table := fun chain =>
        if chain < h.nchains then (split exposedBit (h.table chain)).1
        else (split exposedBit (h.table (chain - h.nchains))).2
      mask := mask
      nchains := h.nchains * 2
      lowmark := h.lowmark * 2
      highmark := h.highmark * 2 }
  else asserted h

/-- `shrink_table`. -/
def shrinkTable (h : Hash κ δ) : Option (Hash κ δ) :=
  if h.nchains < 2 then none
  else
    let nchains := h.nchains / 2
    asserted { h with
      -- if one of the two is empty, the other stands alone
      table := fun chain => h.table chain ++ h.table (chain + nchains)
      mask := h.mask >>> 1
      nchains := nchains
      lowmark := h.lowmark / 2
      highmark := h.highmark / 2 }

variable [DecidableEq κ] (function : κ → ℕ)

/-- `hash_lookup`. -/
def hashLookup (h : Hash κ δ) (key : κ) : Option (Node κ δ) :=
  (h.table (function key &&& h.mask)).find? fun node =>
    decide (node.hkey = function key ∧ node.key = key)

/-- `hash_insert` of a node; `alloc` is whether there is memory for a larger table. -/
def hashInsert (h : Hash κ δ) (key : κ) (data : δ) (alloc : Bool) : Option (Hash κ δ) :=
  if ¬h.nodecount < h.maxcount then none
  else if (h.hashLookup function key).isSome then none
  else
    let grown := if h.dynamic ∧ h.highmark ≤ h.nodecount then growTable alloc h else some h
    grown.bind fun h =>
      let chain := function key &&& h.mask
      asserted { h with
        table := Function.update h.table chain (⟨function key, key, data⟩ :: h.table chain)
        nodecount := h.nodecount + 1 }

/-- A node is taken out of its chain. -/
def unlink (h : Hash κ δ) (node : Node κ δ) : Option (Hash κ δ) :=
  let chain := node.hkey &&& h.mask
  asserted { h with
    table := Function.update h.table chain
      ((h.table chain).eraseP fun x => decide (x.key = node.key))
    nodecount := h.nodecount - 1 }

/-- `hash_delete`. -/
def hashDelete (h : Hash κ δ) (node : Node κ δ) : Option (Hash κ δ) :=
  if (h.hashLookup function node.key).isNone then none
  else
    let shrunk :=
      if h.dynamic ∧ h.nodecount ≤ h.lowmark ∧ initSize < h.nodecount then shrinkTable h else some h
    shrunk.bind fun h => unlink h node

/-- `hash_scan_delete`. -/
def hashScanDelete (h : Hash κ δ) (node : Node κ δ) : Option (Hash κ δ) :=
  if (h.hashLookup function node.key).isNone then none else unlink h node

/-! ### Scans -/

/-- `hscan_t`; a node is given by its key. -/
structure Scan (κ : Type*) where
  chain : ℕ
  next : Option κ

/-- The first node of the first chain from `chain` on that has one. -/
def firstFrom (h : Hash κ δ) (chain : ℕ) : Scan κ :=
  match (List.range' chain (h.nchains - chain)).find? fun chain => !(h.table chain).isEmpty with
  | some chain => ⟨chain, (h.table chain).head?.map (·.key)⟩
  | none => ⟨chain, none⟩

/-- `hash_scan_begin`. -/
def hashScanBegin (h : Hash κ δ) : Scan κ := firstFrom h 0

/-- `hash_scan_next`. -/
def hashScanNext (h : Hash κ δ) (scan : Scan κ) : Option (Node κ δ) × Scan κ :=
  match scan.next with
  | none => (none, scan)
  | some key =>
    match (h.table scan.chain).dropWhile fun node => decide (node.key ≠ key) with
    | [] => (none, scan)
    | [node] => (some node, firstFrom h (scan.chain + 1))
    | node :: next :: _ => (some node, { scan with next := some next.key })

/-- The loop of `hash_free_nodes`, with the nodes it has freed. -/
def freeLoop : ℕ → Scan κ → Hash κ δ → List (Node κ δ) → Option (List (Node κ δ) × Hash κ δ)
  | 0, _, _, _ => none
  | fuel + 1, scan, h, freed =>
    match hashScanNext h scan with
    | (none, _) => some (freed, h)
    | (some node, scan) =>
      (h.hashScanDelete function node).bind fun h => freeLoop fuel scan h (freed ++ [node])

/-- `hash_free_nodes`. -/
def hashFreeNodes (h : Hash κ δ) : Option (List (Node κ δ) × Hash κ δ) :=
  (freeLoop function (h.nodecount + 1) h.hashScanBegin h []).map fun x =>
    (x.1, { x.2 with nodecount := 0, table := fun _ => [] })

end

/-! ### What the calls keep -/

section

variable {κ δ : Type*} {function : κ → ℕ} {t t' : Hash κ δ} {node x : Node κ δ} {key : κ} {i k : ℕ}

/-- The nodes, chain by chain. -/
def nodes (t : Hash κ δ) : List (Node κ δ) := collect t.nchains t.table

/-- What is in a table. -/
def entries (t : Hash κ δ) : Multiset (κ × δ) :=
  (t.nodes.map fun node => (node.key, node.data) : List (κ × δ))

/-- The nodes are in their chains, and no two have the same key. -/
structure Sound (function : κ → ℕ) (t : Hash κ δ) : Prop where
  pow : ∃ k, t.nchains = 2 ^ k ∧ t.mask = 2 ^ k - 1
  placed : ∀ i < t.nchains, ∀ node ∈ t.table i,
    node.hkey = function node.key ∧ node.hkey % t.nchains = i
  count : t.nodes.length = t.nodecount
  keys : (t.nodes.map (·.key)).Nodup
  marks : t.dynamic = true →
    initSize ≤ t.nchains ∧ t.lowmark = t.nchains / 2 ∧ t.highmark = t.nchains * 2

theorem card_entries (t : Hash κ δ) : t.entries.card = t.nodes.length := by
  simp [entries]

theorem fst_entries (t : Hash κ δ) : t.entries.map Prod.fst = (t.nodes.map (·.key) : List κ) := by
  simp [entries, Function.comp_def]

theorem nodes_eq_nil (h : ∀ i < t.nchains, t.table i = []) : t.nodes = [] := by
  rw [nodes, collect, List.flatMap_eq_nil_iff]
  exact fun i hi => h i (List.mem_range.mp hi)

theorem isPowerOfTwo_iff (arg : ℕ) : isPowerOfTwo arg = true ↔ ∃ k, arg = 2 ^ k := by
  induction arg using isPowerOfTwo.induct with
  | case1 =>
    rw [isPowerOfTwo]
    refine iff_of_false (by simp) ?_
    rintro ⟨k, hk⟩
    exact absurd hk (Nat.two_pow_pos k).ne
  | case2 arg hne heven ih =>
    rw [isPowerOfTwo, dif_neg hne, if_pos heven, ih]
    constructor
    · rintro ⟨k, hk⟩
      exact ⟨k + 1, by rw [Nat.pow_succ]; omega⟩
    · rintro ⟨k, rfl⟩
      cases k with
      | zero => omega
      | succ k => exact ⟨k, by rw [Nat.pow_succ]; omega⟩
  | case3 arg hne hodd =>
    rw [isPowerOfTwo, dif_neg hne, if_neg hodd, decide_eq_true_iff]
    constructor
    · rintro rfl
      exact ⟨0, rfl⟩
    · rintro ⟨k, rfl⟩
      cases k with
      | zero => rfl
      | succ k =>
        rw [Nat.pow_succ] at hodd
        omega

theorem and_mask (hkey k : ℕ) : hkey &&& (2 ^ k - 1) = hkey % 2 ^ k :=
  Nat.and_two_pow_sub_one_eq_mod hkey k

theorem Sound.chain (h : Sound function t) (hkey : ℕ) : hkey &&& t.mask = hkey % t.nchains := by
  obtain ⟨k, hn, hmask⟩ := h.pow
  rw [hmask, hn, and_mask]

theorem Sound.nchains_pos (h : Sound function t) : 0 < t.nchains := by
  obtain ⟨k, hn, -⟩ := h.pow
  rw [hn]
  exact Nat.two_pow_pos k

theorem Sound.mem_iff (h : Sound function t) :
    node ∈ t.nodes ↔ node ∈ t.table (node.hkey % t.nchains) := by
  rw [nodes, mem_collect]
  constructor
  · rintro ⟨i, hi, hmem⟩
    rw [(h.placed i hi node hmem).2]
    exact hmem
  · exact fun hmem => ⟨_, Nat.mod_lt _ h.nchains_pos, hmem⟩

theorem Sound.hkey_eq (h : Sound function t) (hmem : node ∈ t.nodes) :
    node.hkey = function node.key := by
  obtain ⟨i, hi, hmem⟩ := mem_collect.mp hmem
  exact (h.placed i hi node hmem).1

theorem Sound.eq_of_key (h : Sound function t) (hnode : node ∈ t.nodes) (hx : x ∈ t.nodes)
    (hkey : x.key = node.key) : x = node :=
  List.inj_on_of_nodup_map h.keys hx hnode hkey

/-- **The assertions on the table hold.** -/
theorem Sound.verify (h : Sound function t) : t.hashVerify = true := by
  obtain ⟨k, hn, -⟩ := h.pow
  have hmarks : (!t.dynamic || (decide (t.lowmark < t.highmark) && isPowerOfTwo t.highmark &&
      isPowerOfTwo t.lowmark)) = true := by
    cases hdynamic : t.dynamic with
    | false => rfl
    | true =>
      obtain ⟨hsize, hlow, hhigh⟩ := h.marks hdynamic
      obtain ⟨j, rfl⟩ : ∃ j, k = j + 1 := by
        cases k with
        | zero => exact absurd (hn ▸ hsize) (by decide)
        | succ j => exact ⟨j, rfl⟩
      have hhalf : t.lowmark = 2 ^ j := by rw [hlow, hn, Nat.pow_succ]; omega
      have htwice : t.highmark = 2 ^ (j + 2) := by rw [hhigh, hn, Nat.pow_succ 2 (j + 1)]
      have hlt : t.lowmark < t.highmark := by
        rw [hhalf, htwice]
        exact Nat.pow_lt_pow_right (by decide) (by omega)
      simp [hlt, (isPowerOfTwo_iff _).mpr ⟨_, hhalf⟩, (isPowerOfTwo_iff _).mpr ⟨_, htwice⟩]
  have hchains : ((List.range t.nchains).all fun chain =>
      (t.table chain).all fun node => decide (node.hkey &&& t.mask = chain)) = true := by
    simp only [List.all_eq_true, List.mem_range, decide_eq_true_iff]
    intro i hi node hmem
    rw [h.chain, (h.placed i hi node hmem).2]
  rw [hashVerify, hmarks, hchains]
  exact decide_eq_true h.count

theorem Sound.asserted (h : Sound function t) : asserted t = some t := if_pos h.verify

/-! ### Larger and smaller tables -/

theorem split_foldl (b : ℕ) (chain low high : List (Node κ δ)) :
    chain.foldl (fun x node =>
        if node.hkey &&& b ≠ 0 then (x.1, node :: x.2) else (node :: x.1, x.2)) (low, high) =
      ((chain.filter fun node => !decide (node.hkey &&& b ≠ 0)).reverse ++ low,
        (chain.filter fun node => decide (node.hkey &&& b ≠ 0)).reverse ++ high) := by
  induction chain generalizing low high with
  | nil => rfl
  | cons node chain ih =>
    rw [List.foldl_cons, ih, List.filter_cons, List.filter_cons]
    by_cases hb : node.hkey &&& b ≠ 0 <;> simp [hb]

theorem mem_split_fst {b : ℕ} {chain : List (Node κ δ)} :
    node ∈ (split b chain).1 ↔ node ∈ chain ∧ node.hkey &&& b = 0 := by
  rw [split, split_foldl, List.append_nil, List.mem_reverse, List.mem_filter]
  simp

theorem mem_split_snd {b : ℕ} {chain : List (Node κ δ)} :
    node ∈ (split b chain).2 ↔ node ∈ chain ∧ node.hkey &&& b ≠ 0 := by
  rw [split, split_foldl, List.append_nil, List.append_nil, List.mem_reverse, List.mem_filter]
  simp

theorem split_perm (b : ℕ) (chain : List (Node κ δ)) :
    ((split b chain).1 ++ (split b chain).2).Perm chain := by
  rw [split, split_foldl, List.append_nil, List.append_nil]
  refine ((List.reverse_perm _).append (List.reverse_perm _)).trans ?_
  exact List.perm_append_comm.trans (List.filter_append_perm _ chain)

theorem mask_succ (k : ℕ) : ((2 ^ k - 1) <<< 1) ||| 1 = 2 ^ (k + 1) - 1 := by
  refine Nat.eq_of_testBit_eq fun i => ?_
  rw [Nat.testBit_or, Nat.testBit_shiftLeft, Nat.testBit_two_pow_sub_one,
    Nat.testBit_two_pow_sub_one]
  cases i with
  | zero => simp
  | succ i => simp [Nat.testBit_succ]

theorem exposedBit (k : ℕ) : (2 ^ (k + 1) - 1) ^^^ (2 ^ k - 1) = 2 ^ k := by
  refine Nat.eq_of_testBit_eq fun i => ?_
  rw [Nat.testBit_xor, Nat.testBit_two_pow_sub_one, Nat.testBit_two_pow_sub_one,
    Nat.testBit_two_pow]
  rcases Nat.lt_trichotomy i k with h | rfl | h
  · simp [h, h.ne', Nat.lt_succ_of_lt h]
  · simp
  · simp [h.ne, Nat.not_lt.mpr h.le, Nat.not_lt.mpr (Nat.succ_le_of_lt h)]

/-- The bit that a larger mask exposes says in which half the chain of a node is. -/
theorem mod_succ (hkey k : ℕ) :
    hkey % 2 ^ (k + 1) = hkey % 2 ^ k + if hkey &&& 2 ^ k = 0 then 0 else 2 ^ k := by
  have hmod : hkey % 2 ^ (k + 1) = hkey % 2 ^ k + 2 ^ k * (hkey / 2 ^ k % 2) := by
    rw [Nat.pow_succ, Nat.mod_mul]
  have hbit : hkey &&& 2 ^ k = (hkey.testBit k).toNat * 2 ^ k := Nat.and_two_pow hkey k
  rw [hmod, hbit, Nat.testBit_eq_decide_div_mod_eq]
  rcases Nat.mod_two_eq_zero_or_one (hkey / 2 ^ k) with h | h
  · simp [h]
  · simp [h]

/-- What is the same in a table of another size. -/
structure Resized (t t' : Hash κ δ) : Prop where
  perm : t'.nodes.Perm t.nodes
  nodecount : t'.nodecount = t.nodecount
  maxcount : t'.maxcount = t.maxcount
  dynamic : t'.dynamic = t.dynamic

theorem growTable_spec (h : Sound function t) (hdynamic : t.dynamic = true) (alloc : Bool) :
    ∃ t', growTable alloc t = some t' ∧ Sound function t' ∧ Resized t t' ∧
      t'.nchains = if alloc then t.nchains * 2 else t.nchains := by
  cases alloc with
  | false => exact ⟨t, h.asserted, h, ⟨.refl _, rfl, rfl, rfl⟩, rfl⟩
  | true =>
    obtain ⟨k, hn, hmask⟩ := h.pow
    have hbit : ((t.mask <<< 1) ||| 1) ^^^ t.mask = 2 ^ k := by rw [hmask, mask_succ, exposedBit]
    have hn' : t.nchains * 2 = 2 ^ (k + 1) := by rw [hn, Nat.pow_succ]
    let c : ℕ → List (Node κ δ) := fun i =>
      if i < t.nchains then (split (2 ^ k) (t.table i)).1
      else (split (2 ^ k) (t.table (i - t.nchains))).2
    have hperm : (collect (t.nchains * 2) c).Perm t.nodes := by
      rw [Nat.mul_comm]
      refine (collect_halves _ c).trans (collect_perm fun i hi => ?_)
      have hlow : c i = (split (2 ^ k) (t.table i)).1 := if_pos hi
      have hhigh : c (i + t.nchains) = (split (2 ^ k) (t.table i)).2 := by
        rw [show c (i + t.nchains) = _ from if_neg (by omega), Nat.add_sub_cancel]
      rw [hlow, hhigh]
      exact split_perm _ _
    let t' : Hash κ δ := { t with
      table := c, mask := 2 ^ (k + 1) - 1, nchains := t.nchains * 2
      lowmark := t.lowmark * 2, highmark := t.highmark * 2 }
    have hsound : Sound function t' := by
      refine ⟨⟨k + 1, hn', rfl⟩, fun i hi node hmem => ?_, ?_, ?_, fun _ => ?_⟩
      · change i < t.nchains * 2 at hi
        change node ∈ c i at hmem
        change _ ∧ node.hkey % (t.nchains * 2) = i
        have hmod := mod_succ node.hkey k
        rw [← hn'] at hmod
        by_cases hlow : i < t.nchains
        · rw [show c i = _ from if_pos hlow, mem_split_fst] at hmem
          obtain ⟨hkey, hplace⟩ := h.placed i hlow node hmem.1
          exact ⟨hkey, by rw [hmod, if_pos hmem.2, ← hn, hplace, Nat.add_zero]⟩
        · rw [show c i = _ from if_neg hlow, mem_split_snd] at hmem
          obtain ⟨hkey, hplace⟩ := h.placed (i - t.nchains) (by omega) node hmem.1
          exact ⟨hkey, by rw [hmod, if_neg hmem.2, ← hn, hplace]; omega⟩
      · exact hperm.length_eq.trans h.count
      · exact (hperm.map _).nodup_iff.mpr h.keys
      · obtain ⟨hsize, hlow, hhigh⟩ := h.marks hdynamic
        obtain ⟨j, rfl⟩ : ∃ j, k = j + 1 := by
          cases k with
          | zero => exact absurd (hn ▸ hsize) (by decide)
          | succ j => exact ⟨j, rfl⟩
        rw [Nat.pow_succ] at hn
        refine ⟨?_, ?_, ?_⟩
        · change initSize ≤ t.nchains * 2
          omega
        · change t.lowmark * 2 = t.nchains * 2 / 2
          omega
        · change t.highmark * 2 = t.nchains * 2 * 2
          omega
    refine ⟨t', ?_, hsound, ⟨hperm, rfl, rfl, rfl⟩, rfl⟩
    rw [growTable, if_pos rfl]
    dsimp only
    rw [hbit, hmask, mask_succ]
    exact hsound.asserted

theorem shrinkTable_spec (h : Sound function t) (hdynamic : t.dynamic = true)
    (hsize : initSize < t.nchains) :
    ∃ t', shrinkTable t = some t' ∧ Sound function t' ∧ Resized t t' ∧
      t'.nchains = t.nchains / 2 := by
  obtain ⟨k, hn, hmask⟩ := h.pow
  obtain ⟨-, hlow, hhigh⟩ := h.marks hdynamic
  have hk : 6 < k := by
    rw [hn] at hsize
    have hone : 1 < 2 := by decide
    exact (Nat.pow_lt_pow_iff_right hone).mp (hsize : 2 ^ 6 < 2 ^ k)
  obtain ⟨j, rfl⟩ : ∃ j, k = j + 2 := ⟨k - 2, by omega⟩
  have hhalf : t.nchains / 2 = 2 ^ (j + 1) := by
    rw [hn, Nat.pow_succ 2 (j + 1)]
    omega
  have hquarter : (2 : ℕ) ^ (j + 1) = 2 ^ j * 2 := Nat.pow_succ ..
  have hdouble : t.nchains = 2 * 2 ^ (j + 1) := by
    rw [hn, Nat.pow_succ 2 (j + 1)]
    omega
  have hlarge : 2 ^ 6 ≤ 2 ^ (j + 1) := Nat.pow_le_pow_right (by decide) (by omega)
  have hshift : t.mask >>> 1 = 2 ^ (j + 1) - 1 := by
    rw [Nat.shiftRight_one, hmask, Nat.pow_succ 2 (j + 1)]
    omega
  have hperm : (collect (t.nchains / 2) fun i => t.table i ++ t.table (i + t.nchains / 2)).Perm
      t.nodes := by
    rw [nodes, hhalf, hdouble]
    exact (collect_halves _ _).symm
  let t' : Hash κ δ := { t with
    table := fun i => t.table i ++ t.table (i + t.nchains / 2), mask := t.mask >>> 1
    nchains := t.nchains / 2, lowmark := t.lowmark / 2, highmark := t.highmark / 2 }
  have hsound : Sound function t' := by
    refine ⟨⟨j + 1, hhalf, hshift⟩, fun i hi node hmem => ?_, ?_, ?_, fun _ => ?_⟩
    · change i < t.nchains / 2 at hi
      change _ ∧ node.hkey % (t.nchains / 2) = i
      have hmod : node.hkey % t.nchains % (t.nchains / 2) = node.hkey % (t.nchains / 2) := by
        refine Nat.mod_mod_of_dvd _ ⟨2, ?_⟩
        omega
      rcases List.mem_append.mp hmem with hmem | hmem
      · obtain ⟨hkey, hplace⟩ := h.placed i (by omega) node hmem
        exact ⟨hkey, by rw [← hmod, hplace, Nat.mod_eq_of_lt hi]⟩
      · obtain ⟨hkey, hplace⟩ := h.placed (i + t.nchains / 2) (by omega) node hmem
        exact ⟨hkey, by rw [← hmod, hplace, Nat.add_mod_right, Nat.mod_eq_of_lt hi]⟩
    · exact hperm.length_eq.trans h.count
    · exact (hperm.map _).nodup_iff.mpr h.keys
    · refine ⟨?_, ?_, ?_⟩
      · change 64 ≤ t.nchains / 2
        omega
      · change t.lowmark / 2 = t.nchains / 2 / 2
        rw [hlow]
      · change t.highmark / 2 = t.nchains / 2 * 2
        omega
  refine ⟨t', ?_, hsound, ⟨hperm, rfl, rfl, rfl⟩, rfl⟩
  rw [shrinkTable, if_neg (by omega)]
  exact hsound.asserted

/-! ### The calls -/

variable [DecidableEq κ]

/-- **A lookup finds the node of its key.** -/
theorem Sound.lookup_iff (h : Sound function t) :
    t.hashLookup function key = some node ↔ node ∈ t.nodes ∧ node.key = key := by
  have hchain : function key &&& t.mask < t.nchains := by
    rw [h.chain]
    exact Nat.mod_lt _ h.nchains_pos
  have hfound : ∀ {x : Node κ δ}, t.hashLookup function key = some x →
      x ∈ t.nodes ∧ x.key = key := by
    intro x hfind
    unfold hashLookup at hfind
    have hx := List.find?_some hfind
    exact ⟨mem_collect.mpr ⟨_, hchain, List.mem_of_find?_eq_some hfind⟩, (of_decide_eq_true hx).2⟩
  constructor
  · exact hfound
  · rintro ⟨hmem, rfl⟩
    have hhkey := h.hkey_eq hmem
    have hplace := h.mem_iff.mp hmem
    rw [hhkey, ← h.chain] at hplace
    cases hfind : t.hashLookup function node.key with
    | none => exact absurd (decide_eq_true ⟨hhkey, rfl⟩) (List.find?_eq_none.mp hfind node hplace)
    | some x =>
      obtain ⟨hx, hkey⟩ := hfound hfind
      rw [h.eq_of_key hmem hx hkey]

theorem Sound.lookup_eq_none_iff (h : Sound function t) :
    t.hashLookup function key = none ↔ key ∉ t.nodes.map (·.key) := by
  rw [Option.eq_none_iff_forall_ne_some, List.mem_map]
  constructor
  · rintro hnone ⟨node, hmem, hkey⟩
    exact hnone node (h.lookup_iff.mpr ⟨hmem, hkey⟩)
  · intro hnot node hfind
    exact hnot ⟨node, h.lookup_iff.mp hfind⟩

/-- A chain without one of its nodes. -/
theorem Sound.eraseP_perm (h : Sound function t) (hmem : node ∈ t.table i) (hi : i < t.nchains) :
    (t.table i).Perm (node :: (t.table i).eraseP fun x => decide (x.key = node.key)) := by
  obtain ⟨x, before, after, -, hx, hchain, herase⟩ :=
    List.exists_of_eraseP (p := fun x => decide (x.key = node.key)) hmem (decide_eq_true rfl)
  have hin : x ∈ t.nodes := mem_collect.mpr ⟨i, hi, by rw [hchain]; simp⟩
  obtain rfl := h.eq_of_key (mem_collect.mpr ⟨i, hi, hmem⟩) hin (of_decide_eq_true hx)
  rw [herase, hchain]
  exact List.perm_middle

theorem unlink_spec (h : Sound function t) (hmem : node ∈ t.nodes) :
    ∃ t', unlink t node = some t' ∧ Sound function t' ∧ t.nodes.Perm (node :: t'.nodes) ∧
      t'.nodecount = t.nodecount - 1 ∧ t'.nchains = t.nchains ∧ t'.maxcount = t.maxcount ∧
      t'.dynamic = t.dynamic := by
  have hplace := h.mem_iff.mp hmem
  have hi := Nat.mod_lt node.hkey h.nchains_pos
  let xs := (t.table (node.hkey % t.nchains)).eraseP fun x => decide (x.key = node.key)
  let t' : Hash κ δ := { t with
    table := Function.update t.table (node.hkey % t.nchains) xs, nodecount := t.nodecount - 1 }
  have hperm : t.nodes.Perm (node :: t'.nodes) := collect_update hi (h.eraseP_perm hplace hi)
  have hsound : Sound function t' := by
    refine ⟨h.pow, fun i hi x hx => ?_, ?_, ?_, h.marks⟩
    · change x ∈ Function.update t.table (node.hkey % t.nchains) xs i at hx
      rcases eq_or_ne i (node.hkey % t.nchains) with rfl | hne
      · rw [Function.update_self] at hx
        exact h.placed _ hi x (List.mem_of_mem_eraseP hx)
      · rw [Function.update_of_ne hne] at hx
        exact h.placed i hi x hx
    · have hlen := hperm.length_eq
      rw [List.length_cons, h.count] at hlen
      change t'.nodes.length = t.nodecount - 1
      omega
    · have hkeys := (hperm.map (·.key)).nodup_iff.mp h.keys
      exact (List.nodup_cons.mp hkeys).2
  refine ⟨t', ?_, hsound, hperm, rfl, rfl, rfl, rfl⟩
  rw [unlink, h.chain]
  exact hsound.asserted

/-- **Where an insertion asserts, and what it does.** -/
theorem hashInsert_spec (h : Sound function t) (data : δ) (alloc : Bool) :
    if t.nodecount < t.maxcount ∧ key ∉ t.nodes.map (·.key) then
      ∃ t', hashInsert function t key data alloc = some t' ∧ Sound function t' ∧
        t'.nodes.Perm (⟨function key, key, data⟩ :: t.nodes) ∧ t'.nodecount = t.nodecount + 1 ∧
        t'.maxcount = t.maxcount ∧ t'.dynamic = t.dynamic ∧
        t'.nchains = if t.dynamic ∧ t.highmark ≤ t.nodecount ∧ alloc then t.nchains * 2
          else t.nchains
    else hashInsert function t key data alloc = none := by
  by_cases hroom : t.nodecount < t.maxcount
  case neg => rw [if_neg fun hfits => hroom hfits.1, hashInsert, if_pos hroom]
  by_cases hnew : key ∈ t.nodes.map (·.key)
  case pos =>
    have hsome : (t.hashLookup function key).isSome := by
      rw [Option.isSome_iff_ne_none, Ne, h.lookup_eq_none_iff, not_not]
      exact hnew
    rw [if_neg fun hfits => hfits.2 hnew, hashInsert, if_neg (not_not.mpr hroom), if_pos hsome]
  have hnone : ¬(t.hashLookup function key).isSome := by
    rw [h.lookup_eq_none_iff.mpr hnew]
    simp
  -- the table that the node is put into
  obtain ⟨g, hg, hgsound, hgsame, hgn⟩ : ∃ g,
      (if t.dynamic ∧ t.highmark ≤ t.nodecount then growTable alloc t else some t) = some g ∧
        Sound function g ∧ Resized t g ∧
        g.nchains = if t.dynamic ∧ t.highmark ≤ t.nodecount ∧ alloc then t.nchains * 2
          else t.nchains := by
    by_cases hgrow : t.dynamic ∧ t.highmark ≤ t.nodecount
    · obtain ⟨g, hg, hgsound, hgsame, hgn⟩ := growTable_spec h hgrow.1 alloc
      refine ⟨g, by rw [if_pos hgrow, hg], hgsound, hgsame, ?_⟩
      rw [hgn]
      simp only [hgrow.1, hgrow.2, true_and]
    · refine ⟨t, if_neg hgrow, h, ⟨.refl _, rfl, rfl, rfl⟩, ?_⟩
      rw [if_neg fun hall => hgrow ⟨hall.1, hall.2.1⟩]
  let i := function key % g.nchains
  have hi : i < g.nchains := Nat.mod_lt _ hgsound.nchains_pos
  let node : Node κ δ := ⟨function key, key, data⟩
  let t' : Hash κ δ := { g with
    table := Function.update g.table i (node :: g.table i), nodecount := g.nodecount + 1 }
  have hperm : t'.nodes.Perm (node :: g.nodes) := by
    have hcons : (collect g.nchains t'.table).Perm
        (node :: collect g.nchains (Function.update t'.table i (g.table i))) :=
      collect_update hi (by rw [show t'.table i = _ from Function.update_self ..])
    rwa [show Function.update t'.table i (g.table i) = g.table by
      rw [show t'.table = Function.update g.table i (node :: g.table i) from rfl,
        Function.update_idem, Function.update_eq_self]] at hcons
  have hperm' : t'.nodes.Perm (node :: t.nodes) := hperm.trans (hgsame.perm.cons node)
  have hsound : Sound function t' := by
    refine ⟨hgsound.pow, fun j hj x hx => ?_, ?_, ?_, hgsound.marks⟩
    · change x ∈ Function.update g.table i (node :: g.table i) j at hx
      rcases eq_or_ne j i with rfl | hne
      · rw [Function.update_self] at hx
        rcases List.mem_cons.mp hx with rfl | hx
        · exact ⟨rfl, rfl⟩
        · exact hgsound.placed _ hj x hx
      · rw [Function.update_of_ne hne] at hx
        exact hgsound.placed j hj x hx
    · rw [hperm.length_eq, List.length_cons, hgsound.count]
    · rw [(hperm'.map (·.key)).nodup_iff]
      exact List.nodup_cons.mpr ⟨hnew, h.keys⟩
  rw [if_pos ⟨hroom, hnew⟩]
  refine ⟨t', ?_, hsound, hperm', congrArg (· + 1) hgsame.nodecount, hgsame.maxcount,
    hgsame.dynamic, hgn⟩
  rw [hashInsert, if_neg (not_not.mpr hroom), if_neg hnone]
  dsimp only
  rw [hg, Option.bind_some, hgsound.chain]
  exact hsound.asserted

/-- What a deletion does. -/
theorem hashDelete_spec (h : Sound function t) (hmem : node ∈ t.nodes) :
    ∃ t', t.hashDelete function node = some t' ∧ Sound function t' ∧
      t.nodes.Perm (node :: t'.nodes) ∧ t'.nodecount = t.nodecount - 1 ∧
      t'.maxcount = t.maxcount ∧ t'.dynamic = t.dynamic ∧
      t'.nchains = if t.dynamic ∧ t.nodecount ≤ t.lowmark ∧ initSize < t.nodecount
        then t.nchains / 2 else t.nchains := by
  have hsome : ¬(t.hashLookup function node.key).isNone := by
    rw [h.lookup_iff.mpr ⟨hmem, rfl⟩]
    simp
  -- the table that the node is taken out of
  obtain ⟨g, hg, hgsound, hgsame, hgn⟩ : ∃ g,
      (if t.dynamic ∧ t.nodecount ≤ t.lowmark ∧ initSize < t.nodecount then shrinkTable t
        else some t) = some g ∧ Sound function g ∧ Resized t g ∧
        g.nchains = if t.dynamic ∧ t.nodecount ≤ t.lowmark ∧ initSize < t.nodecount
          then t.nchains / 2 else t.nchains := by
    by_cases hshrink : t.dynamic ∧ t.nodecount ≤ t.lowmark ∧ initSize < t.nodecount
    · have hlow := (h.marks hshrink.1).2.1
      obtain ⟨g, hg, hgsound, hgsame, hgn⟩ := shrinkTable_spec h hshrink.1 (by omega)
      exact ⟨g, by rw [if_pos hshrink, hg], hgsound, hgsame, by rw [hgn, if_pos hshrink]⟩
    · exact ⟨t, if_neg hshrink, h, ⟨.refl _, rfl, rfl, rfl⟩, (if_neg hshrink).symm⟩
  obtain ⟨t', ht', hsound, hperm, hcount, hn, hmax, hdynamic⟩ :=
    unlink_spec hgsound (hgsame.perm.mem_iff.mpr hmem)
  refine ⟨t', ?_, hsound, hgsame.perm.symm.trans hperm, by rw [hcount, hgsame.nodecount],
    hmax.trans hgsame.maxcount, hdynamic.trans hgsame.dynamic, hn.trans hgn⟩
  rw [hashDelete, if_neg hsome]
  dsimp only
  rw [hg, Option.bind_some, ht']

theorem hashScanDelete_eq (h : Sound function t) (hmem : node ∈ t.nodes) :
    t.hashScanDelete function node = unlink t node := by
  rw [hashScanDelete, h.lookup_iff.mpr ⟨hmem, rfl⟩]
  rfl

end

end Hash

end Mongrel2

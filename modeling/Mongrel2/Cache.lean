/-
The cache of objects (`cache.c`).

* `lookup`, `add`, `evictObject`, `destroy` — the calls, with what each of them hands to the
  callback;
* `Kept` — the tag of a slot says how long ago it was used, and that of an empty slot is less
  than all of these;
* **`lru_always`** — an object is stored in an empty slot, or else in the one that was used
  longest ago, and a lookup finds what there is;
* **`cacheConserved_always`** — what was added is in the slots or has been handed to the callback,
  as often as it was added.

Design notes: an object is a pointer, and the callback `lookup` only compares it.  `clock`
counts the additions and lookups, and `lastUse` is history: when a slot was last stored to or
hit.  `tag` is never below 0.
-/
import Mongrel2.Dir
import Mongrel2.Runs
import Mathlib.Data.Multiset.AddSub

namespace Mongrel2

/-- `struct cache_entry`. -/
structure CacheEntry (α : Type*) where
  tag : ℕ
  data : Option α
  deriving DecidableEq

/-- `tag--`, down to 0. -/
def CacheEntry.decay {α : Type*} (e : CacheEntry α) : CacheEntry α := { e with tag := e.tag - 1 }

/-- `Cache`, of at least one slot. -/
structure Cache (α κ : Type*) where
  lookup : α → κ → Bool
  /-- there is a callback -/
  evict : Bool
  arr : List (CacheEntry α)
  arr_ne_nil : arr ≠ []

namespace Cache

variable {α κ : Type*}

/-! ### The calls -/

/-- `Cache_create`; `none` for a cache without slots. -/
def create (size : ℕ) (lookup : α → κ → Bool) (evict : Bool) : Option (Cache α κ) :=
  if h : size = 0 then none
  else some ⟨lookup, evict, .replicate size ⟨intMax, none⟩, by simpa using h⟩

/-- The two loops of `Cache_lookup`, the second of which only counts down: the slot that was
hit and its object, and the slots. -/
def lookupLoop (matching : α → Bool) : List (CacheEntry α) → Option (ℕ × α) × List (CacheEntry α)
  | [] => (none, [])
  | e :: arr =>
    match e.data.filter matching with
    | some rdata => (some (0, rdata), ⟨intMax, e.data⟩ :: arr.map CacheEntry.decay)
    | none =>
      let (hit, arr) := lookupLoop matching arr
      (hit.map fun (i, rdata) => (i + 1, rdata), e.decay :: arr)

theorem lookupLoop_ne_nil (matching : α → Bool) {arr : List (CacheEntry α)} (h : arr ≠ []) :
    (lookupLoop matching arr).2 ≠ [] := by
  obtain ⟨e, arr, rfl⟩ := List.exists_cons_of_ne_nil h
  rw [lookupLoop]
  cases e.data.filter matching <;> simp

/-- `Cache_lookup`: the slot that was hit and its object. -/
def find (cache : Cache α κ) (key : κ) : Option (ℕ × α) × Cache α κ :=
  let r := lookupLoop (cache.lookup · key) cache.arr
  (r.1, { cache with arr := r.2, arr_ne_nil := lookupLoop_ne_nil _ cache.arr_ne_nil })

/-- The loop of `Cache_add` from slot `i` on, with `min_idx` and `min_tag` so far. -/
def addLoop : ℕ → ℕ → ℕ → List (CacheEntry α) → ℕ × List (CacheEntry α)
  | _, minIdx, _, [] => (minIdx, [])
  | i, minIdx, minTag, e :: arr =>
    let (idx, arr) :=
      if e.tag < minTag then addLoop (i + 1) i e.tag arr else addLoop (i + 1) minIdx minTag arr
    (idx, e.decay :: arr)

/-- The slot that `Cache_add` takes, and the slots counted down. -/
def scan (cache : Cache α κ) : ℕ × List (CacheEntry α) :=
  let first := cache.arr.head cache.arr_ne_nil
  let (idx, rest) := addLoop 1 0 first.tag cache.arr.tail
  (idx, first.decay :: rest)

/-- The slots after `Cache_add`. -/
def add (cache : Cache α κ) (data : α) : Cache α κ where
  lookup := cache.lookup
  evict := cache.evict
  arr := cache.scan.2.set cache.scan.1 ⟨intMax, some data⟩
  arr_ne_nil := by simp [scan]

/-- What `Cache_add` hands to the callback. -/
def addEvicts (cache : Cache α κ) : List α :=
  if cache.evict then ((cache.scan.2[cache.scan.1]?).bind CacheEntry.data).toList else []

/-- The loop of `Cache_evict_object`: the slots, and what the callback is given. -/
def evictLoop [DecidableEq α] (obj : α) : List (CacheEntry α) → List (CacheEntry α) × List α
  | [] => ([], [])
  | e :: arr =>
    let r := evictLoop obj arr
    if e.data = some obj then (⟨0, none⟩ :: r.1, obj :: r.2) else (e :: r.1, r.2)

theorem evictLoop_ne_nil [DecidableEq α] (obj : α) {arr : List (CacheEntry α)} (h : arr ≠ []) :
    (evictLoop obj arr).1 ≠ [] := by
  obtain ⟨e, arr, rfl⟩ := List.exists_cons_of_ne_nil h
  rw [evictLoop]
  by_cases he : e.data = some obj <;> simp [he]

/-- `Cache_evict_object`. -/
def evictObject [DecidableEq α] (cache : Cache α κ) (obj : α) : Cache α κ × List α :=
  let r := evictLoop obj cache.arr
  ({ cache with arr := r.1, arr_ne_nil := evictLoop_ne_nil obj cache.arr_ne_nil },
    if cache.evict then r.2 else [])

/-- `Cache_destroy`: what the callback is given. -/
def destroy (cache : Cache α κ) : List α :=
  if cache.evict then cache.arr.filterMap CacheEntry.data else []

/-! ### Runs -/

/-- A call. -/
inductive Op (α κ : Type*)
  | add (data : α)
  | lookup (key : κ)
  | evictObject (obj : α)

/-- A cache that is being used. -/
structure Used (α κ : Type*) where
  cache : Cache α κ
  clock : ℕ
  lastUse : ℕ → ℕ
  added : List α
  evicted : List α

namespace Used

def start (cache : Cache α κ) : Used α κ := ⟨cache, 0, fun _ => 0, [], []⟩

def step [DecidableEq α] (s : Used α κ) : Op α κ → Option (Used α κ)
  | .add data =>
    some ⟨s.cache.add data, s.clock + 1, Function.update s.lastUse s.cache.scan.1 (s.clock + 1),
      data :: s.added, s.cache.addEvicts ++ s.evicted⟩
  | .lookup key =>
    let (hit, cache) := s.cache.find key
    let lastUse :=
      match hit with
      | some (i, _) => Function.update s.lastUse i (s.clock + 1)
      | none => s.lastUse
    some ⟨cache, s.clock + 1, lastUse, s.added, s.evicted⟩
  | .evictObject obj =>
    let (cache, given) := s.cache.evictObject obj
    some { s with cache, evicted := given ++ s.evicted }

end Used

/-- The object in a slot. -/
def data (cache : Cache α κ) (i : ℕ) : Option α := (cache.arr[i]?).bind CacheEntry.data

/-- The slots have places for objects, and this one has none. -/
def IsEmpty (cache : Cache α κ) (i : ℕ) : Prop := i < cache.arr.length ∧ cache.data i = none

/-- `Cache_add` stores the object in slot `i`, and changes no other. -/
structure StoresIn (cache : Cache α κ) (data : α) (i : ℕ) : Prop where
  slot : i < cache.arr.length
  stored : (cache.add data).data i = some data
  others : ∀ j, j ≠ i → (cache.add data).data j = cache.data j

/-- What a cache of the least recently used objects does next. -/
structure Lru (s : Used α κ) : Prop where
  /-- an empty slot is taken, or else the one that was used longest ago -/
  add : ∀ data, ∃ i, StoresIn s.cache data i ∧
    ((∃ j, s.cache.IsEmpty j) → s.cache.IsEmpty i) ∧
      ((∀ j, ¬ s.cache.IsEmpty j) → ∀ j < s.cache.arr.length, j ≠ i → s.lastUse i < s.lastUse j)
  /-- what is found is in a slot and matches the key -/
  found : ∀ key i rdata, (s.cache.find key).1 = some (i, rdata) →
    s.cache.data i = some rdata ∧ s.cache.lookup rdata key = true
  /-- something is found exactly if a slot matches the key -/
  exact : ∀ key, (s.cache.find key).1 ≠ none ↔
    ∃ i rdata, s.cache.data i = some rdata ∧ s.cache.lookup rdata key = true

/-- The objects in the slots. -/
def stored (cache : Cache α κ) : Multiset α := ↑(cache.arr.filterMap CacheEntry.data)

/-- No object is lost, or handed to the callback twice. -/
structure Conserved (s : Used α κ) : Prop where
  now : (s.added : Multiset α) = s.cache.stored + s.evicted
  destroyed : (s.added : Multiset α) = s.cache.destroy + s.evicted

section

variable {arr : List (CacheEntry α)} {cache : Cache α κ} {e : CacheEntry α}

/-! ### The slots that are taken and hit -/

theorem addLoop_snd (i minIdx minTag : ℕ) (arr : List (CacheEntry α)) :
    (addLoop i minIdx minTag arr).2 = arr.map CacheEntry.decay := by
  induction arr generalizing i minIdx minTag with
  | nil => rw [addLoop, List.map_nil]
  | cons e arr ih =>
    rw [addLoop, List.map_cons]
    by_cases hlt : e.tag < minTag
    · rw [if_pos hlt]
      exact congrArg (e.decay :: ·) (ih (i + 1) i e.tag)
    · rw [if_neg hlt]
      exact congrArg (e.decay :: ·) (ih (i + 1) minIdx minTag)

/-- The loop keeps the slot it has, or finds one with a lesser tag. -/
theorem addLoop_fst (i minIdx minTag : ℕ) (arr : List (CacheEntry α)) :
    ((addLoop i minIdx minTag arr).1 = minIdx ∧ ∀ e ∈ arr, minTag ≤ e.tag) ∨
      ∃ k e, (addLoop i minIdx minTag arr).1 = i + k ∧ arr[k]? = some e ∧ e.tag < minTag ∧
        ∀ e' ∈ arr, e.tag ≤ e'.tag := by
  induction arr generalizing i minIdx minTag with
  | nil => exact .inl ⟨by rw [addLoop], by simp⟩
  | cons e arr ih =>
    rw [addLoop]
    by_cases hlt : e.tag < minTag
    · rw [if_pos hlt]
      rcases ih (i + 1) i e.tag with ⟨hidx, hmin⟩ | ⟨k, e', hidx, hk, htag, hmin⟩
      · refine .inr ⟨0, e, hidx, by simp, hlt, ?_⟩
        exact List.forall_mem_cons.mpr ⟨le_rfl, hmin⟩
      · refine .inr ⟨k + 1, e', ?_, by simpa using hk, htag.trans hlt, ?_⟩
        · show (addLoop (i + 1) i e.tag arr).1 = i + (k + 1)
          rw [hidx]
          omega
        · exact List.forall_mem_cons.mpr ⟨htag.le, hmin⟩
    · rw [if_neg hlt]
      rcases ih (i + 1) minIdx minTag with ⟨hidx, hmin⟩ | ⟨k, e', hidx, hk, htag, hmin⟩
      · refine .inl ⟨hidx, ?_⟩
        exact List.forall_mem_cons.mpr ⟨not_lt.mp hlt, hmin⟩
      · refine .inr ⟨k + 1, e', ?_, by simpa using hk, htag, ?_⟩
        · show (addLoop (i + 1) minIdx minTag arr).1 = i + (k + 1)
          rw [hidx]
          omega
        · exact List.forall_mem_cons.mpr ⟨htag.le.trans (not_lt.mp hlt), hmin⟩

theorem scan_snd (cache : Cache α κ) : cache.scan.2 = cache.arr.map CacheEntry.decay := by
  obtain ⟨first, rest, harr⟩ := List.exists_cons_of_ne_nil cache.arr_ne_nil
  simp only [scan, addLoop_snd, harr, List.head_cons, List.tail_cons, List.map_cons]

/-- `Cache_add` takes a slot with the least tag. -/
theorem scan_fst (cache : Cache α κ) :
    ∃ e, cache.arr[cache.scan.1]? = some e ∧ ∀ e' ∈ cache.arr, e.tag ≤ e'.tag := by
  obtain ⟨first, rest, harr⟩ := List.exists_cons_of_ne_nil cache.arr_ne_nil
  have hscan : cache.scan.1 = (addLoop 1 0 first.tag rest).1 := by
    simp only [scan, harr, List.head_cons, List.tail_cons]
  rw [hscan, harr]
  rcases addLoop_fst 1 0 first.tag rest with ⟨hidx, hmin⟩ | ⟨k, e, hidx, hk, htag, hmin⟩
  · refine ⟨first, ?_, List.forall_mem_cons.mpr ⟨le_rfl, hmin⟩⟩
    rw [hidx, List.getElem?_cons_zero]
  · refine ⟨e, ?_, List.forall_mem_cons.mpr ⟨htag.le, hmin⟩⟩
    rw [hidx, add_comm, List.getElem?_cons_succ, hk]

/-- A lookup counts every slot down, and sets the tag of the first that matches. -/
theorem lookupLoop_spec (matching : α → Bool) (arr : List (CacheEntry α)) :
    ((lookupLoop matching arr).1 = none ∧
        (lookupLoop matching arr).2 = arr.map CacheEntry.decay ∧
          ∀ e ∈ arr, ∀ d, e.data = some d → matching d = false) ∨
      ∃ i d e, (lookupLoop matching arr).1 = some (i, d) ∧ arr[i]? = some e ∧ e.data = some d ∧
        matching d = true ∧
          (lookupLoop matching arr).2 = (arr.map CacheEntry.decay).set i ⟨intMax, some d⟩ := by
  induction arr with
  | nil => exact .inl ⟨by rw [lookupLoop], by rw [lookupLoop, List.map_nil], by simp⟩
  | cons e arr ih =>
    rw [lookupLoop]
    cases hdata : e.data.filter matching with
    | some d =>
      obtain ⟨he, hd⟩ := Option.filter_eq_some_iff.mp hdata
      refine .inr ⟨0, d, e, ?_, by simp, he, hd, ?_⟩
      · dsimp only
      · dsimp only
        rw [he, List.map_cons, List.set_cons_zero]
    | none =>
      dsimp only
      have hmiss : ∀ d, e.data = some d → matching d = false := by
        intro d hd
        exact Bool.eq_false_of_not_eq_true (Option.filter_eq_none_iff.mp hdata d hd)
      rcases ih with ⟨hnone, harr, hall⟩ | ⟨i, d, e', hhit, hi, he', hd, harr⟩
      · refine .inl ⟨by rw [hnone, Option.map_none], by rw [harr, List.map_cons], ?_⟩
        exact List.forall_mem_cons.mpr ⟨hmiss, hall⟩
      · refine .inr ⟨i + 1, d, e', by rw [hhit, Option.map_some], by simpa using hi, he', hd, ?_⟩
        rw [harr, List.map_cons, List.set_cons_succ]

theorem evictLoop_fst [DecidableEq α] (obj : α) (arr : List (CacheEntry α)) :
    (evictLoop obj arr).1 = arr.map fun e => if e.data = some obj then ⟨0, none⟩ else e := by
  induction arr with
  | nil => rw [evictLoop, List.map_nil]
  | cons e arr ih =>
    rw [evictLoop, List.map_cons, ← ih]
    by_cases he : e.data = some obj
    · simp only [if_pos he]
    · simp only [if_neg he]

/-! ### Tags -/

/-- The tag of a slot that was last used at `used`.  That of an empty slot is less than that of
a slot with an object. -/
def SlotKept (clock used : ℕ) (e : CacheEntry α) : Prop :=
  match e.data with
  | none => e.tag + clock ≤ intMax
  | some _ => 0 < used ∧ used ≤ clock ∧ e.tag + clock = intMax + used

/-- What the tags say while the clock has not passed the greatest tag. -/
structure Kept (s : Used α κ) : Prop where
  clock : s.clock ≤ intMax
  slot : ∀ i e, s.cache.arr[i]? = some e → SlotKept s.clock (s.lastUse i) e
  /-- no two slots were last used at the same time -/
  differ : ∀ i j, i ≠ j → s.cache.data i ≠ none → s.cache.data j ≠ none → s.lastUse i ≠ s.lastUse j

theorem SlotKept.decay {clock used : ℕ} (h : SlotKept clock used e) (hclock : clock < intMax) :
    SlotKept (clock + 1) used e.decay := by
  obtain ⟨tag, _ | d⟩ := e
  · have hle : tag + clock ≤ intMax := h
    show tag - 1 + (clock + 1) ≤ intMax
    omega
  · obtain ⟨hpos, hle, htag⟩ : 0 < used ∧ used ≤ clock ∧ tag + clock = intMax + used := h
    refine ⟨hpos, hle.trans (Nat.le_succ clock), ?_⟩
    show tag - 1 + (clock + 1) = intMax + used
    omega

theorem data_eq_of_getElem? {i : ℕ} (h : cache.arr[i]? = some e) : cache.data i = e.data := by
  rw [data, h, Option.bind_some]

theorem SlotKept.used_le {clock used : ℕ} (h : SlotKept clock used e) (hd : e.data ≠ none) :
    used ≤ clock := by
  obtain ⟨tag, _ | d⟩ := e
  · exact absurd rfl hd
  · exact h.2.1

theorem exists_getElem?_of_data {i : ℕ} (h : cache.data i ≠ none) :
    ∃ e, cache.arr[i]? = some e ∧ e.data ≠ none := by
  obtain ⟨d, hd⟩ := Option.ne_none_iff_exists'.mp h
  obtain ⟨e, he, hde⟩ := Option.bind_eq_some_iff.mp hd
  exact ⟨e, he, by simp [hde]⟩

theorem data_ne_none {i : ℕ} (he : cache.arr[i]? = some e) (hd : e.data ≠ none) :
    cache.data i ≠ none := by
  rw [data_eq_of_getElem? he]
  exact hd

/-- All slots are counted down, and one is used. -/
theorem Kept.use {s : Used α κ} (h : Kept s) (hclock : s.clock < intMax) {i : ℕ} {d : α}
    {cache : Cache α κ} {added evicted : List α}
    (harr : cache.arr = (s.cache.arr.map CacheEntry.decay).set i ⟨intMax, some d⟩) :
    Kept ⟨cache, s.clock + 1, Function.update s.lastUse i (s.clock + 1), added, evicted⟩ := by
  have hslot : ∀ j e, j ≠ i → cache.arr[j]? = some e →
      ∃ e', s.cache.arr[j]? = some e' ∧ e = e'.decay := by
    intro j e hj he
    rw [harr, List.getElem?_set_ne hj.symm, List.getElem?_map, Option.map_eq_some_iff] at he
    obtain ⟨e', he', heq⟩ := he
    exact ⟨e', he', heq.symm⟩
  have hused : ∀ j, j ≠ i → cache.data j ≠ none →
      s.cache.data j ≠ none ∧ s.lastUse j ≤ s.clock := by
    intro j hj hd
    obtain ⟨e, he, hde⟩ := exists_getElem?_of_data hd
    obtain ⟨e', he', rfl⟩ := hslot j e hj he
    exact ⟨data_ne_none he' hde, (h.slot j e' he').used_le hde⟩
  refine ⟨hclock, ?_, ?_⟩
  · intro j e he
    by_cases hj : j = i
    · subst hj
      have he' : e = ⟨intMax, some d⟩ := by
        have hlt : j < (s.cache.arr.map CacheEntry.decay).length := by
          have hlen := (List.getElem?_eq_some_iff.mp he).1
          rwa [harr, List.length_set] at hlen
        rw [harr, List.getElem?_set_self hlt] at he
        exact (Option.some.inj he).symm
      rw [he']
      show 0 < Function.update s.lastUse j (s.clock + 1) j ∧
        Function.update s.lastUse j (s.clock + 1) j ≤ s.clock + 1 ∧
          intMax + (s.clock + 1) = intMax + Function.update s.lastUse j (s.clock + 1) j
      rw [Function.update_self]
      exact ⟨Nat.succ_pos _, le_rfl, rfl⟩
    · obtain ⟨e', he', rfl⟩ := hslot j e hj he
      show SlotKept (s.clock + 1) (Function.update s.lastUse i (s.clock + 1) j) e'.decay
      rw [Function.update_of_ne hj]
      exact (h.slot j e' he').decay hclock
  · intro j k hjk hdj hdk
    show Function.update s.lastUse i (s.clock + 1) j ≠ Function.update s.lastUse i (s.clock + 1) k
    by_cases hj : j = i
    · have hk : k ≠ i := fun hk => hjk (hj.trans hk.symm)
      have hle := (hused k hk hdk).2
      rw [hj, Function.update_self, Function.update_of_ne hk]
      omega
    · rw [Function.update_of_ne hj]
      by_cases hk : k = i
      · have hle := (hused j hj hdj).2
        rw [hk, Function.update_self]
        omega
      · rw [Function.update_of_ne hk]
        exact h.differ j k hjk (hused j hj hdj).1 (hused k hk hdk).1

/-- All slots are counted down, and none is used. -/
theorem Kept.miss {s : Used α κ} (h : Kept s) (hclock : s.clock < intMax) {cache : Cache α κ}
    {added evicted : List α} (harr : cache.arr = s.cache.arr.map CacheEntry.decay) :
    Kept ⟨cache, s.clock + 1, s.lastUse, added, evicted⟩ := by
  have hslot : ∀ (i : ℕ) (e : CacheEntry α), cache.arr[i]? = some e →
      ∃ e' : CacheEntry α, s.cache.arr[i]? = some e' ∧ e = e'.decay := by
    intro i e he
    rw [harr, List.getElem?_map, Option.map_eq_some_iff] at he
    obtain ⟨e', he', heq⟩ := he
    exact ⟨e', he', heq.symm⟩
  have hdata : ∀ i, cache.data i ≠ none → s.cache.data i ≠ none := by
    intro i hd
    obtain ⟨e, he, hde⟩ := exists_getElem?_of_data hd
    obtain ⟨e', he', rfl⟩ := hslot i e he
    exact data_ne_none he' hde
  refine ⟨hclock, ?_, ?_⟩
  · intro i e he
    obtain ⟨e', he', rfl⟩ := hslot i e he
    exact (h.slot i e' he').decay hclock
  · intro i j hij hdi hdj
    exact h.differ i j hij (hdata i hdi) (hdata j hdj)

theorem kept_step [DecidableEq α] {s s' : Used α κ} {op : Op α κ} (h : Kept s)
    (hclock : s.clock < intMax) (hstep : s.step op = some s') : Kept s' := by
  cases op with
  | add data =>
    obtain rfl := Option.some.inj hstep
    refine h.use hclock (d := data) ?_
    show s.cache.scan.2.set _ _ = _
    rw [scan_snd]
  | lookup key =>
    rcases lookupLoop_spec (s.cache.lookup · key) s.cache.arr with
      ⟨hnone, harr, -⟩ | ⟨i, d, e, hhit, -, -, -, harr⟩
    · simp only [Used.step, find, hnone] at hstep
      obtain rfl := Option.some.inj hstep
      exact h.miss hclock harr
    · simp only [Used.step, find, hhit] at hstep
      obtain rfl := Option.some.inj hstep
      exact h.use hclock harr
  | evictObject obj =>
    obtain rfl := Option.some.inj hstep
    have hget : ∀ (i : ℕ) (e : CacheEntry α), (s.cache.evictObject obj).1.arr[i]? = some e →
        e = ⟨0, none⟩ ∨ s.cache.arr[i]? = some e := by
      intro i e he
      have he : (evictLoop obj s.cache.arr).1[i]? = some e := he
      rw [evictLoop_fst, List.getElem?_map, Option.map_eq_some_iff] at he
      obtain ⟨e', he', heq⟩ := he
      by_cases hobj : e'.data = some obj
      · rw [if_pos hobj] at heq
        exact .inl heq.symm
      · rw [if_neg hobj] at heq
        exact .inr (heq ▸ he')
    have hdata : ∀ i, (s.cache.evictObject obj).1.data i ≠ none → s.cache.data i ≠ none := by
      intro i hd
      obtain ⟨e, he, hde⟩ := exists_getElem?_of_data hd
      rcases hget i e he with rfl | he'
      · exact absurd rfl hde
      · exact data_ne_none he' hde
    refine ⟨h.clock, ?_, ?_⟩
    · intro i e he
      rcases hget i e he with rfl | he'
      · show 0 + s.clock ≤ intMax
        rw [zero_add]
        exact h.clock
      · exact h.slot i e he'
    · intro i j hij hdi hdj
      exact h.differ i j hij (hdata i hdi) (hdata j hdj)

/-! ### The least recently used -/

theorem StoresIn.of_scan (cache : Cache α κ) (d : α) : StoresIn cache d cache.scan.1 := by
  obtain ⟨e, he, -⟩ := scan_fst cache
  have hlt : cache.scan.1 < cache.arr.length := (List.getElem?_eq_some_iff.mp he).1
  have harr : (cache.add d).arr = (cache.arr.map CacheEntry.decay).set cache.scan.1
      ⟨intMax, some d⟩ := by
    show cache.scan.2.set _ _ = _
    rw [scan_snd]
  refine ⟨hlt, ?_, ?_⟩
  · rw [data, harr, List.getElem?_set_self (by rwa [List.length_map]), Option.bind_some]
  · intro j hj
    rw [data, harr, List.getElem?_set_ne hj.symm, List.getElem?_map, data]
    cases cache.arr[j]? with
    | none => rfl
    | some e' => rfl

/-- If a slot is empty, such a slot is taken. -/
theorem Kept.isEmpty_scan {s : Used α κ} (h : Kept s) (hsome : ∃ j, s.cache.IsEmpty j) :
    s.cache.IsEmpty s.cache.scan.1 := by
  obtain ⟨j, hj, hempty⟩ := hsome
  obtain ⟨e, he, hmin⟩ := scan_fst s.cache
  have hslot := h.slot _ e he
  refine ⟨(List.getElem?_eq_some_iff.mp he).1, ?_⟩
  rw [data_eq_of_getElem? he]
  by_contra hfull
  obtain ⟨⟨tag', data'⟩, hget⟩ : ∃ e', s.cache.arr[j]? = some e' :=
    ⟨_, List.getElem?_eq_getElem hj⟩
  rw [data_eq_of_getElem? hget] at hempty
  obtain rfl : data' = none := hempty
  -- the tag of an empty slot is less
  have hless : tag' + s.clock ≤ intMax := h.slot j _ hget
  have hle : e.tag ≤ tag' := hmin _ (List.mem_of_getElem? hget)
  obtain ⟨tag, _ | d⟩ := e
  · exact hfull rfl
  · obtain ⟨hpos, -, htag⟩ : 0 < s.lastUse s.cache.scan.1 ∧ _ ∧
      tag + s.clock = intMax + s.lastUse s.cache.scan.1 := hslot
    have hle : tag ≤ tag' := hle
    omega

/-- If no slot is empty, the one that is taken was used before each other. -/
theorem Kept.lastUse_scan_lt {s : Used α κ} (h : Kept s) (hfull : ∀ j, ¬ s.cache.IsEmpty j)
    {j : ℕ} (hj : j < s.cache.arr.length) (hne : j ≠ s.cache.scan.1) :
    s.lastUse s.cache.scan.1 < s.lastUse j := by
  obtain ⟨e, he, hmin⟩ := scan_fst s.cache
  have hslot := h.slot _ e he
  obtain ⟨⟨tagj, dataj⟩, hget⟩ : ∃ e', s.cache.arr[j]? = some e' :=
    ⟨_, List.getElem?_eq_getElem hj⟩
  have hslotj := h.slot j _ hget
  have hle : e.tag ≤ tagj := hmin _ (List.mem_of_getElem? hget)
  have hdj : s.cache.data j ≠ none := fun hd => hfull j ⟨hj, hd⟩
  have hdi : s.cache.data s.cache.scan.1 ≠ none := fun hd =>
    hfull _ ⟨(List.getElem?_eq_some_iff.mp he).1, hd⟩
  have hdiffer := h.differ j s.cache.scan.1 hne hdj hdi
  rw [data_eq_of_getElem? hget] at hdj
  rw [data_eq_of_getElem? he] at hdi
  obtain ⟨tag, _ | d⟩ := e
  · exact absurd rfl hdi
  obtain ⟨-, -, htag⟩ : _ ∧ _ ∧ tag + s.clock = intMax + s.lastUse s.cache.scan.1 := hslot
  rcases dataj with _ | dj
  · exact absurd rfl hdj
  obtain ⟨-, -, htagj⟩ : _ ∧ _ ∧ tagj + s.clock = intMax + s.lastUse j := hslotj
  have hle : tag ≤ tagj := hle
  omega

theorem find_eq_some {key : κ} {i : ℕ} {d : α} (h : (cache.find key).1 = some (i, d)) :
    cache.data i = some d ∧ cache.lookup d key = true := by
  have h : (lookupLoop (cache.lookup · key) cache.arr).1 = some (i, d) := h
  rcases lookupLoop_spec (cache.lookup · key) cache.arr with
    ⟨hnone, -, -⟩ | ⟨i', d', e, hhit, hi, he, hd, -⟩
  · rw [hnone] at h
    exact absurd h (by simp)
  · rw [hhit] at h
    obtain ⟨rfl, rfl⟩ := Prod.mk.inj (Option.some.inj h)
    exact ⟨by rw [data_eq_of_getElem? hi, he], hd⟩

theorem find_ne_none_iff (key : κ) :
    (cache.find key).1 ≠ none ↔ ∃ i d, cache.data i = some d ∧ cache.lookup d key = true := by
  show (lookupLoop (cache.lookup · key) cache.arr).1 ≠ none ↔ _
  rcases lookupLoop_spec (cache.lookup · key) cache.arr with
    ⟨hnone, -, hall⟩ | ⟨i', d', e, hhit, hi, he, hd, -⟩
  · refine iff_of_false (fun hne => hne hnone) ?_
    rintro ⟨i, d, hdata, hd⟩
    obtain ⟨e, he, hde⟩ := Option.bind_eq_some_iff.mp hdata
    have hmiss := hall e (List.mem_of_getElem? he) d hde
    rw [hd] at hmiss
    exact absurd hmiss (by simp)
  · refine iff_of_true (by rw [hhit]; simp) ⟨i', d', ?_, hd⟩
    rw [data_eq_of_getElem? hi, he]

theorem Kept.lru {s : Used α κ} (h : Kept s) : Lru s where
  add data :=
    ⟨_, .of_scan s.cache data, h.isEmpty_scan, fun hfull _ => h.lastUse_scan_lt hfull⟩
  found _ _ _ := find_eq_some
  exact := find_ne_none_iff

theorem kept_start {size : ℕ} {lookup : α → κ → Bool} {evict : Bool}
    (h : create size lookup evict = some cache) : Kept (.start cache) := by
  rw [create] at h
  split_ifs at h with hsize
  obtain rfl := Option.some.inj h
  have hdata : ∀ i, data ⟨lookup, evict, List.replicate size (⟨intMax, none⟩ : CacheEntry α),
      by simpa using hsize⟩ i = none := by
    intro i
    rw [data]
    cases hget : (List.replicate size (⟨intMax, none⟩ : CacheEntry α))[i]? with
    | none => rfl
    | some e =>
      rw [List.getElem?_replicate] at hget
      split_ifs at hget
      rw [← Option.some.inj hget]
      rfl
  refine ⟨Nat.zero_le _, ?_, ?_⟩
  · intro i e he
    obtain rfl := List.eq_of_mem_replicate (List.mem_of_getElem? he)
    exact le_rfl
  · intro i j _ hdi
    exact absurd (hdata i) hdi

theorem clock_step [DecidableEq α] {s s' : Used α κ} {op : Op α κ} (hstep : s.step op = some s') :
    s'.clock ≤ s.clock + 1 := by
  cases op with
  | add data =>
    obtain rfl := Option.some.inj hstep
    exact le_rfl
  | lookup key =>
    obtain rfl := Option.some.inj hstep
    exact le_rfl
  | evictObject obj =>
    obtain rfl := Option.some.inj hstep
    exact Nat.le_succ _

/-- The clock does not come to its end in a run of so many steps. -/
theorem along_clock [DecidableEq α] {s : Used α κ} {ops : List (Op α κ)}
    (h : s.clock + ops.length ≤ intMax) :
    Runs.Along Used.step (fun (s : Used α κ) _ => s.clock < intMax) s ops := by
  induction ops generalizing s with
  | nil => trivial
  | cons op ops ih =>
    rw [List.length_cons] at h
    refine ⟨by omega, ?_⟩
    intro s' hstep
    have hclock := clock_step hstep
    exact ih (by omega)

end

/-- **The cache is one of the least recently used objects**, in every run that is shorter than
the greatest tag. -/
theorem lru_always [DecidableEq α] {size : ℕ} {lookup : α → κ → Bool} {evict : Bool}
    {cache : Cache α κ} (hcache : create size lookup evict = some cache) (ops : List (Op α κ))
    (hlen : ops.length < intMax) : Runs.Always Used.step Lru (.start cache) ops := by
  have halong :
      Runs.Along Used.step (fun (s : Used α κ) _ => s.clock < intMax) (.start cache) ops :=
    along_clock (by show 0 + ops.length ≤ intMax; omega)
  have hkept : Runs.Always Used.step Kept (.start cache) ops :=
    Runs.always_of_along (fun _ _ _ h hclock hstep => kept_step h hclock hstep)
      (kept_start hcache) halong
  exact hkept.mono fun _ h => h.lru

/-- Two slots, and a lookup between the additions. -/
theorem lru_always_two :
    ∃ cache : Cache ℕ ℕ, create 2 (fun d k => d == k) true = some cache ∧
      Runs.Always Used.step Lru (.start cache) [.add 1, .add 2, .lookup 1, .add 3] :=
  ⟨_, rfl, lru_always (show create 2 _ true = _ from rfl) _ (by decide)⟩

/-! ### What becomes of the objects -/

section

variable {arr : List (CacheEntry α)} {cache : Cache α κ} {e : CacheEntry α}

theorem filterMap_decay (arr : List (CacheEntry α)) :
    (arr.map CacheEntry.decay).filterMap CacheEntry.data = arr.filterMap CacheEntry.data := by
  rw [List.filterMap_map]
  rfl

/-- An object is put into a slot. -/
theorem filterMap_set {i : ℕ} (h : arr[i]? = some e) (tag : ℕ) (d : α) :
    (↑((arr.set i ⟨tag, some d⟩).filterMap CacheEntry.data) : Multiset α) + ↑e.data.toList =
      d ::ₘ ↑(arr.filterMap CacheEntry.data) := by
  induction arr generalizing i with
  | nil => exact absurd h (by simp)
  | cons e' arr ih =>
    cases i with
    | zero =>
      obtain rfl : e' = e := by simpa using h
      obtain ⟨tag', _ | d'⟩ := e'
      · simp
      · simp [← Multiset.cons_coe, Multiset.add_comm]
    | succ i =>
      have hrest := ih (by simpa using h)
      obtain ⟨tag', _ | d'⟩ := e'
      · simpa using hrest
      · simp only [List.set_cons_succ, List.filterMap_cons, ← Multiset.cons_coe, Multiset.cons_add]
        rw [hrest, Multiset.cons_swap]

theorem stored_evictLoop [DecidableEq α] (obj : α) (arr : List (CacheEntry α)) :
    (↑((evictLoop obj arr).1.filterMap CacheEntry.data) : Multiset α) + ↑(evictLoop obj arr).2 =
      ↑(arr.filterMap CacheEntry.data) := by
  induction arr with
  | nil => simp [evictLoop]
  | cons e arr ih =>
    rw [evictLoop]
    by_cases he : e.data = some obj
    · simp only [if_pos he]
      rw [List.filterMap_cons_none (by rfl), List.filterMap_cons_some he, ← Multiset.cons_coe,
        ← Multiset.cons_coe, Multiset.add_cons, ih]
    · simp only [if_neg he]
      cases hd : e.data with
      | none => rw [List.filterMap_cons_none hd, List.filterMap_cons_none hd, ih]
      | some d =>
        rw [List.filterMap_cons_some hd, List.filterMap_cons_some hd, ← Multiset.cons_coe,
          ← Multiset.cons_coe, Multiset.cons_add, ih]

theorem filterMap_lookupLoop (matching : α → Bool) (arr : List (CacheEntry α)) :
    (lookupLoop matching arr).2.filterMap CacheEntry.data = arr.filterMap CacheEntry.data := by
  induction arr with
  | nil => rw [lookupLoop]
  | cons e arr ih =>
    rw [lookupLoop]
    cases hdata : e.data.filter matching with
    | some d =>
      show ((⟨intMax, e.data⟩ : CacheEntry α) :: arr.map CacheEntry.decay).filterMap _ = _
      rw [List.filterMap_cons, List.filterMap_cons, filterMap_decay]
    | none =>
      show (e.decay :: (lookupLoop matching arr).2).filterMap _ = _
      rw [List.filterMap_cons, List.filterMap_cons, ih]
      rfl

/-- What is conserved by a cache with a callback. -/
structure Balanced (s : Used α κ) : Prop where
  evict : s.cache.evict = true
  now : (s.added : Multiset α) = s.cache.stored + s.evicted

theorem Balanced.conserved {s : Used α κ} (h : Balanced s) : Conserved s := by
  refine ⟨h.now, ?_⟩
  rw [destroy, if_pos h.evict]
  exact h.now

theorem balanced_step [DecidableEq α] {s s' : Used α κ} {op : Op α κ} (h : Balanced s)
    (hstep : s.step op = some s') : Balanced s' := by
  cases op with
  | add d =>
    obtain rfl := Option.some.inj hstep
    refine ⟨h.evict, ?_⟩
    obtain ⟨e, he, -⟩ := scan_fst s.cache
    have hget : s.cache.scan.2[s.cache.scan.1]? = some e.decay := by
      rw [scan_snd, List.getElem?_map, he, Option.map_some]
    have hset := filterMap_set hget intMax d
    rw [scan_snd, filterMap_decay, ← scan_snd] at hset
    have hgiven : s.cache.addEvicts = e.data.toList := by
      rw [addEvicts, if_pos h.evict, hget, Option.bind_some]
      rfl
    calc (↑(d :: s.added) : Multiset α)
        = d ::ₘ (s.cache.stored + s.evicted) := by rw [← Multiset.cons_coe, h.now]
      _ = ((s.cache.add d).stored + ↑e.data.toList) + s.evicted := by
        rw [← Multiset.cons_add]
        exact congrArg (· + (s.evicted : Multiset α)) hset.symm
      _ = (s.cache.add d).stored + ↑(s.cache.addEvicts ++ s.evicted) := by
        rw [hgiven, ← Multiset.coe_add, Multiset.add_assoc]
  | lookup key =>
    obtain rfl := Option.some.inj hstep
    refine ⟨h.evict, ?_⟩
    have hstored : (s.cache.find key).2.stored = s.cache.stored :=
      congrArg Multiset.ofList (filterMap_lookupLoop (s.cache.lookup · key) s.cache.arr)
    show (s.added : Multiset α) = (s.cache.find key).2.stored + s.evicted
    rw [hstored, h.now]
  | evictObject obj =>
    obtain rfl := Option.some.inj hstep
    refine ⟨h.evict, ?_⟩
    have hgiven : (s.cache.evictObject obj).2 = (evictLoop obj s.cache.arr).2 := if_pos h.evict
    have hstored : (s.cache.evictObject obj).1.stored + ↑(s.cache.evictObject obj).2 =
        s.cache.stored := by
      rw [hgiven]
      exact stored_evictLoop obj s.cache.arr
    show (s.added : Multiset α) =
      (s.cache.evictObject obj).1.stored + ↑((s.cache.evictObject obj).2 ++ s.evicted)
    rw [← Multiset.coe_add, ← Multiset.add_assoc, hstored, h.now]

theorem balanced_start {size : ℕ} {lookup : α → κ → Bool}
    (h : create size lookup true = some cache) : Balanced (.start cache) := by
  rw [create] at h
  split_ifs at h with hsize
  obtain rfl := Option.some.inj h
  refine ⟨rfl, ?_⟩
  have hnone : (List.replicate size (⟨intMax, none⟩ : CacheEntry α)).filterMap CacheEntry.data =
      [] := by
    rw [List.filterMap_eq_nil_iff]
    intro e he
    rw [List.eq_of_mem_replicate he]
  show (↑([] : List α) : Multiset α) =
    ↑((List.replicate size (⟨intMax, none⟩ : CacheEntry α)).filterMap CacheEntry.data) +
      ↑([] : List α)
  rw [hnone, Multiset.coe_nil, Multiset.add_zero]

end

/-- **No object is lost or handed over twice**, in every run of a cache with a callback. -/
theorem cacheConserved_always [DecidableEq α] {size : ℕ} {lookup : α → κ → Bool} {cache : Cache α κ}
    (hcache : create size lookup true = some cache) (ops : List (Op α κ)) :
    Runs.Always Used.step Conserved (.start cache) ops := by
  have hbalanced : Runs.Always Used.step Balanced (.start cache) ops :=
    Runs.always_of_step (fun _ _ _ h hstep => balanced_step h hstep) (balanced_start hcache) ops
  exact hbalanced.mono fun _ h => h.conserved

/-- One object in both slots. -/
theorem cacheConserved_always_twice :
    ∃ cache : Cache ℕ ℕ, create 2 (fun d k => d == k) true = some cache ∧
      Runs.Always Used.step Conserved (.start cache) [.add 1, .add 1, .evictObject 1, .add 2] :=
  ⟨_, rfl, cacheConserved_always (show create 2 _ true = _ from rfl) _⟩

end Cache

end Mongrel2

/-
The hash table as a set of entries (`adt/hash.c`).

* **`hash_refines`** — on every run the table is the set of its entries;
* **`hash_lookup_exact`** — a lookup finds the entry of its key;
* **`hash_load`** — the chains are neither too few nor too many for the nodes;
* **`hashFreeNodes_frees`** — all nodes are freed, and each of them once.

Design notes: a node to delete has been looked up, and there is no call if nothing was found.
-/
import Mathlib.Data.List.Find
import Mongrel2.Hash
import Mongrel2.Runs

namespace Mongrel2

open Chains

namespace Hash

variable {κ δ : Type*} {function : κ → ℕ} {t t' : Hash κ δ} {node : Node κ δ} {key : κ}

/-- The calls that change a table. -/
inductive Op (κ δ : Type*)
  | insert (key : κ) (data : δ) (alloc : Bool)
  | delete (key : κ)
  | scanDelete (key : κ)

/-- An empty table. -/
def Starts (max : ℕ) (t : Hash κ δ) : Prop :=
  t = hashCreate max ∨ ∃ nchains, hashInit max nchains = some t

theorem Starts.sound {max : ℕ} (h : Starts max t) (function : κ → ℕ) :
    Sound function t ∧ t.maxcount = max ∧ t.entries = 0 := by
  have hempty : ∀ {t : Hash κ δ}, (∀ i, t.table i = []) → t.nodecount = 0 →
      (∃ k, t.nchains = 2 ^ k ∧ t.mask = 2 ^ k - 1) →
      (t.dynamic = true →
        initSize ≤ t.nchains ∧ t.lowmark = t.nchains / 2 ∧ t.highmark = t.nchains * 2) →
      Sound function t ∧ t.entries = 0 := by
    intro t htable hcount hpow hmarks
    have hnodes : t.nodes = [] := nodes_eq_nil fun i _ => htable i
    refine ⟨⟨hpow, fun i _ node hmem => ?_, ?_, ?_, hmarks⟩, ?_⟩
    · rw [htable i] at hmem
      exact absurd hmem List.not_mem_nil
    · rw [hnodes, hcount]
      rfl
    · rw [hnodes]
      exact List.nodup_nil
    · rw [entries, hnodes]
      rfl
  rcases h with rfl | ⟨nchains, hinit⟩
  · obtain ⟨hsound, hentries⟩ := @hempty (hashCreate max) (fun _ => rfl) rfl ⟨6, rfl, rfl⟩
      fun _ => ⟨le_rfl, rfl, rfl⟩
    exact ⟨hsound, rfl, hentries⟩
  · unfold hashInit at hinit
    split at hinit
    case isFalse => cases hinit
    case isTrue hpow =>
      obtain rfl := Option.some.inj hinit
      obtain ⟨k, hk⟩ := (isPowerOfTwo_iff nchains).mp hpow.1
      obtain ⟨hsound, hentries⟩ := @hempty
        ⟨fun _ => [], nchains, 0, max, 0, 0, nchains - 1, false⟩ (fun _ => rfl) rfl
        ⟨k, hk, by rw [hk]⟩ fun htrue => absurd htrue Bool.false_ne_true
      exact ⟨hsound, rfl, hentries⟩

theorem Sound.even (h : Sound function t) (hsize : initSize ≤ t.nchains) : t.nchains % 2 = 0 := by
  obtain ⟨k, hn, -⟩ := h.pow
  cases k with
  | zero => exact absurd (hn ▸ hsize) (by decide)
  | succ k =>
    rw [hn, Nat.pow_succ]
    omega

section

variable [DecidableEq κ]

variable (function) in
/-- A call; a node to delete has been looked up, and there is no call without one. -/
def apply (t : Hash κ δ) : Op κ δ → Option (Hash κ δ)
  | .insert key data alloc => hashInsert function t key data alloc
  | .delete key =>
    match t.hashLookup function key with
    | some node => t.hashDelete function node
    | none => some t
  | .scanDelete key =>
    match t.hashLookup function key with
    | some node => t.hashScanDelete function node
    | none => some t

/-- What a call does to a set of entries, of which there may be `max`. -/
def applyEntries (max : ℕ) (m : Multiset (κ × δ)) : Op κ δ → Option (Multiset (κ × δ))
  | .insert key data _ =>
    if m.card < max ∧ key ∉ m.map Prod.fst then some ((key, data) ::ₘ m) else none
  | .delete key | .scanDelete key => some (m.filter fun entry => entry.1 ≠ key)

variable {max : ℕ} {ops : List (Op κ δ)}

theorem filter_entries (h : t.nodes.Perm (node :: t'.nodes))
    (hkeys : (t.nodes.map (·.key)).Nodup) :
    t.entries.filter (fun entry => entry.1 ≠ node.key) = t'.entries := by
  have hcons : t.entries = (node.key, node.data) ::ₘ t'.entries := Multiset.coe_eq_coe.mpr (h.map _)
  have hnot := (List.nodup_cons.mp ((h.map (·.key)).nodup_iff.mp hkeys)).1
  rw [hcons, Multiset.filter_cons_of_neg _ (by simp), Multiset.filter_eq_self]
  intro entry hentry
  obtain ⟨x, hx, rfl⟩ := List.mem_map.mp (Multiset.mem_coe.mp hentry)
  exact fun heq => hnot (List.mem_map.mpr ⟨x, hx, heq⟩)

theorem filter_entries_of_none (h : key ∉ t.nodes.map (·.key)) :
    t.entries.filter (fun entry => entry.1 ≠ key) = t.entries := by
  rw [Multiset.filter_eq_self]
  intro entry hentry
  obtain ⟨x, hx, rfl⟩ := List.mem_map.mp (Multiset.mem_coe.mp hentry)
  exact fun heq => h (List.mem_map.mpr ⟨x, hx, heq⟩)

/-- A call on the table is the call on its entries. -/
theorem apply_spec (h : Sound function t) (op : Op κ δ) :
    (apply function t op).map entries = applyEntries t.maxcount t.entries op ∧
      ∀ t', apply function t op = some t' → Sound function t' ∧ t'.maxcount = t.maxcount := by
  cases op with
  | insert key data alloc =>
    have hspec := @hashInsert_spec _ _ _ _ key _ h data alloc
    have hmem : key ∈ t.entries.map Prod.fst ↔ key ∈ t.nodes.map (·.key) := by
      rw [fst_entries, Multiset.mem_coe]
    have hcard : t.entries.card = t.nodecount := (card_entries t).trans h.count
    simp only [apply, applyEntries, hmem, hcard]
    by_cases hfits : t.nodecount < t.maxcount ∧ key ∉ t.nodes.map (·.key)
    · rw [if_pos hfits] at hspec ⊢
      obtain ⟨t', ht', hsound, hperm, -, hmax, -⟩ := hspec
      rw [ht']
      refine ⟨congrArg some (Multiset.coe_eq_coe.mpr (hperm.map _)), fun t'' ht'' => ?_⟩
      obtain rfl := Option.some.inj ht''
      exact ⟨hsound, hmax⟩
    · rw [if_neg hfits] at hspec ⊢
      rw [hspec]
      exact ⟨rfl, fun t' ht' => absurd ht' nofun⟩
  | delete key =>
    rw [apply, applyEntries]
    cases hfind : t.hashLookup function key with
    | none =>
      rw [filter_entries_of_none (h.lookup_eq_none_iff.mp hfind)]
      exact ⟨rfl, fun t' ht' => Option.some.inj ht' ▸ ⟨h, rfl⟩⟩
    | some node =>
      obtain ⟨hmem, rfl⟩ := h.lookup_iff.mp hfind
      obtain ⟨t', ht', hsound, hperm, -, hmax, -⟩ := hashDelete_spec h hmem
      dsimp only
      rw [ht', filter_entries hperm h.keys]
      exact ⟨rfl, fun t'' ht'' => Option.some.inj ht'' ▸ ⟨hsound, hmax⟩⟩
  | scanDelete key =>
    rw [apply, applyEntries]
    cases hfind : t.hashLookup function key with
    | none =>
      rw [filter_entries_of_none (h.lookup_eq_none_iff.mp hfind)]
      exact ⟨rfl, fun t' ht' => Option.some.inj ht' ▸ ⟨h, rfl⟩⟩
    | some node =>
      obtain ⟨hmem, rfl⟩ := h.lookup_iff.mp hfind
      obtain ⟨t', ht', hsound, hperm, -, -, hmax, -⟩ := unlink_spec h hmem
      dsimp only
      rw [hashScanDelete_eq h hmem, ht', filter_entries hperm h.keys]
      exact ⟨rfl, fun t'' ht'' => Option.some.inj ht'' ▸ ⟨hsound, hmax⟩⟩

theorem exec_spec (h : Sound function t) (ops : List (Op κ δ)) :
    (Runs.exec (apply function) t ops).map entries =
        Runs.exec (applyEntries t.maxcount) t.entries ops ∧
      ∀ t', Runs.exec (apply function) t ops = some t' → Sound function t' := by
  induction ops generalizing t with
  | nil => exact ⟨rfl, fun t' ht' => Option.some.inj ht' ▸ h⟩
  | cons op ops ih =>
    obtain ⟨hmap, hkeep⟩ := apply_spec h op
    rw [Runs.exec_cons, Runs.exec_cons, ← hmap]
    cases happly : apply function t op with
    | none => exact ⟨rfl, fun t' ht' => absurd ht' nofun⟩
    | some t' =>
      obtain ⟨hsound, hmax⟩ := hkeep t' happly
      have hrest := ih hsound
      rw [hmax] at hrest
      exact hrest

/-- **On every run the table is the set of its entries**, however the memory goes: an insertion
adds one, a deletion takes one out, and an assertion fails for an insertion only, of a key
that is there already or of one too many. -/
theorem hash_refines (h : Starts max t) (ops : List (Op κ δ)) :
    (Runs.exec (apply function) t ops).map entries = Runs.exec (applyEntries max) 0 ops := by
  obtain ⟨hsound, hmax, hentries⟩ := h.sound function
  rw [(exec_spec hsound ops).1, hmax, hentries]

theorem hash_refines_two :
    (Runs.exec (apply id) (hashCreate 2) [.insert 5 1 true, .insert 69 2 true, .delete 5]).map
        entries =
      Runs.exec (applyEntries 2) 0 [.insert 5 1 true, .insert 69 2 true, .delete 5] :=
  hash_refines (.inl rfl) _

/-- **A lookup finds what is there**, in a table that passes its check. -/
theorem hash_lookup_exact (h : Starts max t) (hexec : Runs.exec (apply function) t ops = some t') :
    t'.hashVerify = true ∧ t'.nodecount = t'.entries.card ∧ ∀ key data,
      (t'.hashLookup function key).map (·.data) = some data ↔ (key, data) ∈ t'.entries := by
  have hsound := (exec_spec (h.sound function).1 ops).2 t' hexec
  refine ⟨hsound.verify, by rw [card_entries, hsound.count], fun key data => ?_⟩
  rw [Option.map_eq_some_iff, entries, Multiset.mem_coe, List.mem_map]
  constructor
  · rintro ⟨node, hfind, rfl⟩
    obtain ⟨hmem, rfl⟩ := hsound.lookup_iff.mp hfind
    exact ⟨node, hmem, rfl⟩
  · rintro ⟨node, hmem, hentry⟩
    obtain ⟨rfl, rfl⟩ := Prod.mk.inj hentry
    exact ⟨node, hsound.lookup_iff.mpr ⟨hmem, rfl⟩, rfl⟩

/-- A run that no assertion ends. -/
theorem exec_of_entries (function : κ → ℕ) (ops : List (Op κ δ)) (h : Starts max t)
    {m : Multiset (κ × δ)}
    (hentries : Runs.exec (applyEntries max) 0 ops = some m) :
    ∃ t', Runs.exec (apply function) t ops = some t' ∧ t'.entries = m := by
  obtain ⟨hsound, hmax, hempty⟩ := h.sound function
  have hmap := (exec_spec hsound ops).1
  rw [hmax, hempty, hentries] at hmap
  exact Option.map_eq_some_iff.mp hmap

theorem hash_lookup_exact_two :
    ∃ t', Runs.exec (apply id) (hashCreate 2) [.insert 5 1 true, .insert 69 2 true] = some t' ∧
      (t'.hashLookup id 69).map (·.data) = some 2 := by
  obtain ⟨t', hexec, hentries⟩ := exec_of_entries id [.insert 5 1 true, .insert 69 2 true]
    (.inl rfl : Starts 2 (hashCreate 2)) rfl
  refine ⟨t', hexec, ((hash_lookup_exact (.inl rfl) hexec).2.2 69 2).mpr ?_⟩
  rw [hentries]
  decide

/-! ### The number of chains -/

/-- The table can grow when it has to, and no node is taken out during a scan. -/
def Op.Ordinary : Op κ δ → Prop
  | .insert _ _ alloc => alloc = true
  | .delete _ => True
  | .scanDelete _ => False

/-- The chains are neither too few nor too many. -/
structure Loaded (t : Hash κ δ) : Prop where
  dynamic : t.dynamic = true
  few : t.nodecount ≤ 2 * t.nchains
  many : t.nchains ≤ 2 * initSize ∨ t.nchains ≤ 2 * t.nodecount

theorem Loaded.apply {op : Op κ δ} (h : Sound function t) (hload : Loaded t) (hop : op.Ordinary)
    (happly : apply function t op = some t') : Loaded t' := by
  obtain ⟨hsize, hlow, hhigh⟩ := h.marks hload.dynamic
  have hmany := hload.many
  have hfew := hload.few
  have heven := h.even hsize
  simp only [initSize] at hmany hsize
  cases op with
  | insert key data alloc =>
    obtain rfl : alloc = true := hop
    have hspec := @hashInsert_spec _ _ _ _ key _ h data true
    by_cases hfits : t.nodecount < t.maxcount ∧ key ∉ t.nodes.map (·.key)
    case neg =>
      rw [if_neg hfits] at hspec
      exact absurd (hspec.symm.trans happly) nofun
    rw [if_pos hfits] at hspec
    obtain ⟨g, hg, -, -, hcount, -, hdynamic, hn⟩ := hspec
    obtain rfl := Option.some.inj (hg.symm.trans happly)
    by_cases hgrow : t.highmark ≤ t.nodecount
    · rw [if_pos ⟨hload.dynamic, hgrow, rfl⟩] at hn
      exact ⟨hdynamic.trans hload.dynamic, by omega, .inr (by omega)⟩
    · rw [if_neg fun hall => hgrow hall.2.1] at hn
      exact ⟨hdynamic.trans hload.dynamic, by omega, hmany.imp (by rw [hn]; exact id) (by omega)⟩
  | delete key =>
    rw [Hash.apply] at happly
    cases hfind : t.hashLookup function key with
    | none =>
      rw [hfind] at happly
      exact Option.some.inj happly ▸ hload
    | some node =>
      obtain ⟨g, hg, -, hperm, hcount, -, hdynamic, hn⟩ :=
        hashDelete_spec h (h.lookup_iff.mp hfind).1
      rw [hfind] at happly
      obtain rfl := Option.some.inj (hg.symm.trans happly)
      have hpos : 0 < t.nodecount := by
        rw [← h.count, hperm.length_eq, List.length_cons]
        exact Nat.succ_pos _
      by_cases hshrink : t.nodecount ≤ t.lowmark ∧ initSize < t.nodecount
      · rw [if_pos ⟨hload.dynamic, hshrink⟩] at hn
        simp only [initSize] at hshrink
        exact ⟨hdynamic.trans hload.dynamic, by omega, .inr (by omega)⟩
      · rw [if_neg fun hall => hshrink hall.2] at hn
        simp only [initSize] at hshrink
        refine ⟨hdynamic.trans hload.dynamic, by omega, ?_⟩
        simp only [initSize]
        omega
  | scanDelete key => exact absurd hop id

/-- **The chains of a table** are at least half as many as its nodes, and at most twice as many
unless they are no more than 128, as long as the memory suffices and no scan is under way. -/
theorem hash_load (hops : ∀ op ∈ ops, op.Ordinary)
    (hexec : Runs.exec (apply function) (hashCreate max) ops = some t') :
    t'.nodecount ≤ 2 * t'.nchains ∧ (t'.nchains ≤ 128 ∨ t'.nchains ≤ 2 * t'.nodecount) := by
  have hrun : ∀ ops : List (Op κ δ), (∀ op ∈ ops, op.Ordinary) → ∀ {t : Hash κ δ},
      Sound function t → Loaded t → Runs.exec (apply function) t ops = some t' → Loaded t' := by
    intro ops
    induction ops with
    | nil => exact fun _ t _ hload hexec => Option.some.inj hexec ▸ hload
    | cons op ops ih =>
      intro hops t hsound hload hexec
      obtain ⟨hop, hops⟩ := List.forall_mem_cons.mp hops
      obtain ⟨g, hg, hexec⟩ := Option.bind_eq_some_iff.mp hexec
      exact ih hops ((apply_spec hsound op).2 g hg).1 (hload.apply hsound hop hg) hexec
  have hstart : Starts max (hashCreate max : Hash κ δ) := .inl rfl
  have hload := hrun ops hops (hstart.sound function).1
    ⟨rfl, Nat.zero_le _, .inl (Nat.le_mul_of_pos_left _ (by decide))⟩ hexec
  exact ⟨hload.few, hload.many⟩

theorem hash_load_two :
    ∃ t', Runs.exec (apply id) (hashCreate 2) [.insert 5 1 true, .insert 69 2 true] = some t' ∧
      t'.nodecount ≤ 2 * t'.nchains := by
  obtain ⟨t', hexec, -⟩ := exec_of_entries id [.insert 5 1 true, .insert 69 2 true]
    (.inl rfl : Starts 2 (hashCreate 2)) rfl
  exact ⟨t', hexec, (hash_load (by simp [Op.Ordinary]) hexec).1⟩

end

/-! ### Freeing -/

section

/-- What is left in the table is what the scan has before it. -/
structure Ahead (scan : Scan κ) (t : Hash κ δ) : Prop where
  done : scan.next = none → t.nodes = []
  behind : ∀ i < scan.chain, t.table i = []
  here : ∀ key, scan.next = some key → scan.chain < t.nchains ∧
    ∃ node rest, t.table scan.chain = node :: rest ∧ node.key = key

theorem ahead_firstFrom (t : Hash κ δ) {chain : ℕ} (h : ∀ i < chain, t.table i = []) :
    Ahead (firstFrom t chain) t := by
  unfold firstFrom
  cases hfind : (List.range' chain (t.nchains - chain)).find? fun i => !(t.table i).isEmpty with
  | none =>
    dsimp only
    have hrest := List.find?_eq_none.mp hfind
    refine ⟨fun _ => nodes_eq_nil fun i hi => ?_, h, fun key hkey => absurd hkey nofun⟩
    by_cases hlt : i < chain
    · exact h i hlt
    · have hempty := hrest i (List.mem_range'_1.mpr ⟨by omega, by omega⟩)
      simpa using hempty
  | some i =>
    dsimp only
    obtain ⟨hi, before, after, hrange, hbefore⟩ := List.find?_eq_some_iff_append.mp hfind
    have hmem : i ∈ List.range' chain (t.nchains - chain) := by
      rw [hrange]
      simp
    have hbounds := List.mem_range'_1.mp hmem
    have hne : t.table i ≠ [] := by simpa using hi
    obtain ⟨node, rest, hchain⟩ := List.exists_cons_of_ne_nil hne
    refine ⟨fun hnone => ?_, fun j hj => ?_, fun key hkey => ?_⟩
    · rw [hchain] at hnone
      exact absurd hnone nofun
    · change j < i at hj
      by_cases hlt : j < chain
      · exact h j hlt
      · -- the chains that the search went by
        have hj' : j ∈ before := by
          have hmem' : j ∈ before ++ i :: after := by
            rw [← hrange, List.mem_range'_1]
            omega
          have hsorted : (before ++ i :: after).Pairwise (· < ·) := by
            rw [← hrange]
            exact List.pairwise_lt_range' ..
          rcases List.mem_append.mp hmem' with hbefore | hafter
          · exact hbefore
          · have hle := (List.pairwise_cons.mp (List.pairwise_append.mp hsorted).2.1).1
            rcases List.mem_cons.mp hafter with rfl | hafter
            · exact absurd hj (lt_irrefl _)
            · exact absurd (hle j hafter) (by omega)
        simpa using hbefore j hj'
    · rw [hchain] at hkey
      have hlt : i < t.nchains := by omega
      exact ⟨hlt, node, rest, hchain, Option.some.inj hkey⟩

theorem firstFrom_congr {chain : ℕ} (hn : t'.nchains = t.nchains)
    (h : ∀ i, chain ≤ i → t'.table i = t.table i) : firstFrom t' chain = firstFrom t chain := by
  have hle : ∀ i ∈ List.range' chain (t.nchains - chain), chain ≤ i := fun i hi =>
    (List.mem_range'_1.mp hi).1
  have hfind : (List.range' chain (t'.nchains - chain)).find? (fun i => !(t'.table i).isEmpty) =
      (List.range' chain (t.nchains - chain)).find? fun i => !(t.table i).isEmpty := by
    rw [hn]
    exact List.find?_congr fun i hi => by rw [h i (hle i hi)]
  rw [firstFrom, firstFrom, hfind]
  cases hfirst : (List.range' chain (t.nchains - chain)).find? fun i => !(t.table i).isEmpty with
  | none => rfl
  | some i =>
    dsimp only
    rw [h i (hle i (List.mem_of_find?_eq_some hfirst))]

variable [DecidableEq κ]

theorem unlink_table (h : unlink t node = some t') :
    t'.nchains = t.nchains ∧ t'.table = Function.update t.table (node.hkey &&& t.mask)
      ((t.table (node.hkey &&& t.mask)).eraseP fun x => decide (x.key = node.key)) := by
  dsimp only [unlink, asserted] at h
  split at h
  case isFalse => exact absurd h nofun
  case isTrue => exact Option.some.inj h ▸ ⟨rfl, rfl⟩

/-- The next node is the first of its chain, and the scan goes on behind it. -/
theorem Ahead.step {scan : Scan κ} (h : Ahead scan t) (hsound : Sound function t)
    (hne : t.nodes ≠ []) :
    ∃ node t', node ∈ t.nodes ∧ (hashScanNext t scan).1 = some node ∧ unlink t node = some t' ∧
      Ahead (hashScanNext t scan).2 t' := by
  obtain ⟨key, hkey⟩ := Option.ne_none_iff_exists'.mp fun hnone => hne (h.done hnone)
  obtain ⟨hchain, node, rest, htable, rfl⟩ := h.here key hkey
  have hin : node ∈ t.table scan.chain := by
    rw [htable]
    exact List.mem_cons_self
  have hmem : node ∈ t.nodes := mem_collect.mpr ⟨_, hchain, hin⟩
  obtain ⟨t', ht', -⟩ := unlink_spec hsound hmem
  obtain ⟨hn, htable'⟩ := unlink_table ht'
  rw [hsound.chain, (hsound.placed _ hchain node hin).2, htable,
    List.eraseP_cons_of_pos (by simp)] at htable'
  have hself : t'.table scan.chain = rest := by rw [htable', Function.update_self]
  have hother : ∀ i, i ≠ scan.chain → t'.table i = t.table i := fun i hi => by
    rw [htable', Function.update_of_ne hi]
  have hbehind : ∀ i < scan.chain, t'.table i = [] := fun i hi => by
    rw [hother i hi.ne, h.behind i hi]
  refine ⟨node, t', hmem, ?_⟩
  simp only [hashScanNext, hkey, htable]
  rw [List.dropWhile_cons_of_neg (by simp)]
  cases rest with
  | nil =>
    refine ⟨rfl, ht', ?_⟩
    dsimp only
    rw [← firstFrom_congr hn fun i hi => hother i (by omega)]
    refine ahead_firstFrom t' fun i hi => ?_
    rcases Nat.lt_succ_iff_lt_or_eq.mp hi with hlt | rfl
    · exact hbehind i hlt
    · exact hself
  | cons next rest =>
    refine ⟨rfl, ht', nofun, hbehind, fun key hnext => ?_⟩
    exact ⟨hn ▸ hchain, next, rest, hself, Option.some.inj hnext⟩

theorem freeLoop_spec (fuel : ℕ) {scan : Scan κ} {freed : List (Node κ δ)}
    (hsound : Sound function t) (h : Ahead scan t) (hfuel : t.nodes.length < fuel) :
    ∃ l t', freeLoop function fuel scan t freed = some (freed ++ l, t') ∧ l.Perm t.nodes ∧
      Sound function t' ∧ t'.nodes = [] := by
  induction fuel generalizing scan t freed with
  | zero => exact absurd hfuel (Nat.not_lt_zero _)
  | succ fuel ih =>
    by_cases hne : t.nodes = []
    · have hnone : scan.next = none := by
        by_contra hsome
        obtain ⟨key, hkey⟩ := Option.ne_none_iff_exists'.mp hsome
        obtain ⟨hchain, node, rest, htable, -⟩ := h.here key hkey
        have hmem : node ∈ t.nodes := mem_collect.mpr ⟨_, hchain, by rw [htable]; simp⟩
        rw [hne] at hmem
        exact absurd hmem List.not_mem_nil
      refine ⟨[], t, ?_, by rw [hne], hsound, hne⟩
      simp only [freeLoop, hashScanNext, hnone, List.append_nil]
    · obtain ⟨node, t', hmem, hnext, hunlink, hahead⟩ := h.step hsound hne
      obtain ⟨g, hg, hgsound, hperm, -⟩ := unlink_spec hsound hmem
      obtain rfl := Option.some.inj (hg.symm.trans hunlink)
      have hlength := hperm.length_eq
      rw [List.length_cons] at hlength
      obtain ⟨l, t', hloop, hl, hsound', hempty⟩ :=
        @ih _ _ (freed ++ [node]) hgsound hahead (by omega)
      refine ⟨node :: l, t', ?_, (hl.cons node).trans hperm.symm, hsound', hempty⟩
      have hpair : hashScanNext t scan = (some node, (hashScanNext t scan).2) :=
        Prod.ext hnext rfl
      rw [freeLoop, hpair]
      dsimp only
      rw [hashScanDelete_eq hsound hmem, hunlink, Option.bind_some, hloop, List.append_assoc]
      rfl

/-- **All nodes are freed, each of them once**, and the table can be used on as an empty one. -/
theorem hashFreeNodes_frees {max : ℕ} {ops : List (Op κ δ)} (h : Starts max t)
    (hexec : Runs.exec (apply function) t ops = some t') :
    ∃ freed t'', t'.hashFreeNodes function = some (freed, t'') ∧ freed.Perm t'.nodes ∧
      (freed.map (·.key)).Nodup ∧ t''.hashVerify = true ∧ t''.entries = 0 := by
  have hsound := (exec_spec (h.sound function).1 ops).2 t' hexec
  have hahead : Ahead t'.hashScanBegin t' :=
    ahead_firstFrom t' fun i hi => absurd hi (Nat.not_lt_zero i)
  have hfuel : t'.nodes.length < t'.nodecount + 1 := by
    rw [hsound.count]
    exact Nat.lt_succ_self _
  obtain ⟨freed, g, hloop, hperm, hgsound, hempty⟩ :=
    @freeLoop_spec _ _ function _ _ _ _ [] hsound hahead hfuel
  let t'' : Hash κ δ := { g with nodecount := 0, table := fun _ => [] }
  have hnodes : t''.nodes = [] := nodes_eq_nil fun _ _ => rfl
  have hsound'' : Sound function t'' := by
    refine ⟨hgsound.pow, fun i _ node hmem => absurd hmem List.not_mem_nil, ?_, ?_, hgsound.marks⟩
    · rw [hnodes]
      rfl
    · rw [hnodes]
      exact List.nodup_nil
  refine ⟨freed, t'', ?_, hperm, (hperm.map _).nodup_iff.mpr hsound.keys, hsound''.verify, ?_⟩
  · rw [hashFreeNodes, hloop]
    rfl
  · rw [entries, hnodes]
    rfl

theorem hashFreeNodes_frees_two :
    ∃ t' freed t'', Runs.exec (apply id) (hashCreate 2) [.insert 5 1 true, .insert 69 2 true] =
      some t' ∧ t'.hashFreeNodes id = some (freed, t'') ∧ freed.length = 2 := by
  obtain ⟨t', hexec, hentries⟩ := exec_of_entries id [.insert 5 1 true, .insert 69 2 true]
    (.inl rfl : Starts 2 (hashCreate 2)) rfl
  obtain ⟨freed, t'', hfree, hperm, -⟩ := hashFreeNodes_frees (.inl rfl) hexec
  refine ⟨t', freed, t'', hexec, hfree, ?_⟩
  rw [hperm.length_eq, ← card_entries, hentries]
  rfl

end

end Hash

end Mongrel2

/-
The headers of a request in their dictionary (`request.c`, `adt/dict.c`, `bstr/bstrlib.c`).

* `bstricmp` — the comparison of names, and `compareNames`, which is an order;
* `Request.dict` — `req->headers`: what the insertions since `Request_start` make of it;
* **`dict_exact`** — of every request that is parsed, a loop over the dictionary gives the headers
  in their order, and a lookup the one that `Request_get` returns.
-/
import Mathlib.Algebra.Order.Ring.Int
import Mongrel2.DictRuns
import Mongrel2.HeaderCapacity
import Mongrel2.RequestWords

namespace Mongrel2

open ByteStream HttpParser

/-! ### The comparison of names -/

/-- `(char) downcase (c)`. -/
def signedDowncase (c : Byte) : ℤ := Int.bmod (downcase c).toNat 256

/-- `bstricmp`. -/
def bstricmp : List Byte → List Byte → ℤ
  | x :: xs, y :: ys =>
    let v := signedDowncase x - signedDowncase y
    if v ≠ 0 then v else bstricmp xs ys
  | x :: _, [] =>
    let v := signedDowncase x
    if v ≠ 0 then v else 256
  | [], y :: _ =>
    let v := -signedDowncase y
    if v ≠ 0 then v else -256
  | [], [] => 0

/-- What `dict.c` makes of the answer. -/
def compareNames (a b : List Byte) : Ordering := compare (bstricmp a b) 0

/-- The place of a byte among the others, and the end of a name. -/
def rank (c : Byte) : ℤ :=
  if signedDowncase c < 0 then 2 * signedDowncase c else 2 * signedDowncase c + 1

theorem compare_sub (a b : ℤ) : compare (a - b) 0 = compare a b := by
  rcases lt_trichotomy a b with h | rfl | h
  · rw [compare_lt_iff_lt.mpr h, compare_lt_iff_lt.mpr (by omega)]
  · rw [sub_self]
    exact (compare_eq_iff_eq.mpr rfl).trans (compare_eq_iff_eq.mpr rfl).symm
  · rw [compare_gt_iff_gt.mpr h, compare_gt_iff_gt.mpr (by omega)]

theorem compare_rank (x y : Byte) :
    compare (rank x) (rank y) = compare (signedDowncase x) (signedDowncase y) := by
  have hmono : ∀ a b : Byte, signedDowncase a < signedDowncase b → rank a < rank b := by
    intro a b h
    unfold rank
    split <;> split <;> omega
  rcases lt_trichotomy (signedDowncase x) (signedDowncase y) with h | h | h
  · rw [compare_lt_iff_lt.mpr h, compare_lt_iff_lt.mpr (hmono x y h)]
  · rw [compare_eq_iff_eq.mpr h, compare_eq_iff_eq.mpr (by rw [rank, rank, h])]
  · rw [compare_gt_iff_gt.mpr h, compare_gt_iff_gt.mpr (hmono y x h)]

theorem compareNames_cons (x y : Byte) (xs ys : List Byte) :
    compareNames (x :: xs) (y :: ys) =
      (compare (rank x) (rank y)).then (compareNames xs ys) := by
  rw [compare_rank, compareNames, bstricmp]
  by_cases h : signedDowncase x = signedDowncase y
  · rw [compare_eq_iff_eq.mpr h]
    exact congrArg (compare · 0) (if_neg (by omega))
  · rw [← compare_sub (signedDowncase x)]
    have hne : compare (signedDowncase x - signedDowncase y) 0 ≠ .eq := fun heq =>
      h (by have hzero := compare_eq_iff_eq.mp heq; omega)
    have hthen : ∀ o o' : Ordering, o ≠ .eq → o.then o' = o := by decide
    rw [hthen _ _ hne]
    exact congrArg (compare · 0) (if_pos (by omega))

theorem compareNames_cons_nil (x : Byte) (xs : List Byte) :
    compareNames (x :: xs) [] = compare (rank x) 0 := by
  rw [compareNames, bstricmp, rank]
  rcases lt_trichotomy (signedDowncase x) 0 with h | h | h
  · rw [if_pos h.ne, if_pos h, compare_lt_iff_lt.mpr h, compare_lt_iff_lt.mpr (by omega)]
  · rw [if_neg (by omega), if_neg (by omega), h]
    rfl
  · rw [if_pos (by omega), if_neg (by omega), compare_gt_iff_gt.mpr h,
      compare_gt_iff_gt.mpr (by omega)]

theorem compareNames_nil_cons (y : Byte) (ys : List Byte) :
    compareNames [] (y :: ys) = compare 0 (rank y) := by
  rw [compareNames, bstricmp, rank]
  rcases lt_trichotomy (signedDowncase y) 0 with h | h | h
  · rw [if_pos (by omega), if_pos h, compare_gt_iff_gt.mpr (by omega),
      compare_gt_iff_gt.mpr (by omega)]
  · rw [if_neg (by omega), if_neg (by omega), h]
    rfl
  · rw [if_pos (by omega), if_neg (by omega), compare_lt_iff_lt.mpr (by omega),
      compare_lt_iff_lt.mpr (by omega)]

/-- **Names are compared letter by letter**, with the end of a name between the bytes that are
negative as a `char` and the others. -/
theorem compareNames_eq (a b : List Byte) :
    compareNames a b = List.compareLex compare (a.map rank ++ [0]) (b.map rank ++ [0]) := by
  have hzero : ∀ c : Byte, rank c ≠ 0 := by
    intro c
    unfold rank
    split <;> omega
  have hthen : ∀ o o' : Ordering, o ≠ .eq → o.then o' = o := by decide
  induction a generalizing b with
  | nil =>
    cases b with
    | nil => rfl
    | cons y ys =>
      rw [compareNames_nil_cons, List.map_nil, List.nil_append, List.map_cons, List.cons_append,
        List.compareLex_cons_cons, hthen]
      exact fun heq => hzero y (compare_eq_iff_eq.mp heq).symm
  | cons x xs ih =>
    cases b with
    | nil =>
      rw [compareNames_cons_nil, List.map_cons, List.cons_append, List.map_nil, List.nil_append,
        List.compareLex_cons_cons, hthen]
      exact fun heq => hzero x (compare_eq_iff_eq.mp heq)
    | cons y ys =>
      rw [compareNames_cons, ih, List.map_cons, List.map_cons, List.cons_append, List.cons_append,
        List.compareLex_cons_cons]

/-- **`bstricmp` is an order of names.** -/
instance : Std.TransCmp compareNames where
  eq_swap := by
    intro a b
    rw [compareNames_eq, compareNames_eq]
    exact Std.OrientedCmp.eq_swap
  isLE_trans := by
    intro a b c
    rw [compareNames_eq, compareNames_eq, compareNames_eq]
    exact Std.TransCmp.isLE_trans

theorem bmod_inj {m n : ℕ} (hm : m < 256) (hn : n < 256)
    (h : Int.bmod (m : ℤ) 256 = Int.bmod (n : ℤ) 256) : m = n := by
  rw [Int.bmod_def, Int.bmod_def] at h
  split at h <;> split at h <;> omega

theorem signedDowncase_inj {x y : Byte} (h : signedDowncase x = signedDowncase y) :
    downcase x = downcase y :=
  UInt8.toNat_inj.mp (bmod_inj (downcase x).toNat_lt (downcase y).toNat_lt h)

/-- It answers 0 for names that differ in case only. -/
theorem compareNames_eq_iff (a b : List Byte) :
    compareNames a b = .eq ↔ sameCaseless a b = true := by
  rw [sameCaseless, beq_iff_eq, compareNames_eq, Std.LawfulEqCmp.compare_eq_iff_eq,
    List.append_cancel_right_eq]
  have hrank : ∀ x y : Byte, rank x = rank y ↔ downcase x = downcase y := by
    intro x y
    constructor
    · intro h
      refine signedDowncase_inj (compare_eq_iff_eq.mp ?_)
      rw [← compare_rank]
      exact compare_eq_iff_eq.mpr h
    · intro h
      have hsigned : signedDowncase x = signedDowncase y :=
        congrArg (fun c : Byte => Int.bmod c.toNat 256) h
      rw [rank, rank, hsigned]
  induction a generalizing b with
  | nil => cases b <;> simp
  | cons x xs ih =>
    cases b with
    | nil => simp
    | cons y ys =>
      simp only [List.map_cons, List.cons.injEq]
      exact and_congr (hrank x y) (ih ys)

/-- A byte of a name, which is neither zero nor negative as a `char`. -/
def isAscii (c : Byte) : Bool := 0 < c && c < 128

theorem bmod_small {n : ℕ} (h : n < 128) : Int.bmod (n : ℤ) 256 = n :=
  Int.bmod_eq_of_le (by omega) (by omega)

theorem downcase_of_isAscii {c : Byte} (h : isAscii c = true) :
    signedDowncase c = (downcase c).toNat ∧ 0 < (downcase c).toNat := by
  simp only [isAscii, Bool.and_eq_true, decide_eq_true_eq, UInt8.lt_iff_toNat_lt,
    UInt8.reduceToNat] at h
  have hdown : 0 < (downcase c).toNat ∧ (downcase c).toNat < 128 := by
    unfold downcase
    split
    · next hupper =>
      simp only [isUpper, Bool.and_eq_true, decide_eq_true_eq, UInt8.le_iff_toNat_le] at hupper
      have hZ : (chr 'Z').toNat = 90 := rfl
      have h32 : (32 : UInt8).toNat = 32 := rfl
      rw [UInt8.toNat_add, h32]
      omega
    · exact h
  exact ⟨bmod_small hdown.2, hdown.1⟩

/-- It answers less than 0 for ASCII names in the order of their bytes. -/
theorem compareNames_lt_iff {a b : List Byte} (ha : ∀ c ∈ a, isAscii c = true)
    (hb : ∀ c ∈ b, isAscii c = true) : compareNames a b = .lt ↔ caselessLt a b = true := by
  rw [caselessLt, decide_eq_true_eq]
  induction a generalizing b with
  | nil =>
    cases b with
    | nil => exact iff_of_false (by decide) (by simp)
    | cons y ys =>
      obtain ⟨hy, hpos⟩ := downcase_of_isAscii (hb y List.mem_cons_self)
      refine iff_of_true ?_ (by simp)
      rw [compareNames_nil_cons, compare_lt_iff_lt, rank]
      split <;> omega
  | cons x xs ih =>
    obtain ⟨hx, hposx⟩ := downcase_of_isAscii (ha x List.mem_cons_self)
    cases b with
    | nil =>
      refine iff_of_false ?_ (by simp)
      rw [compareNames_cons_nil, compare_lt_iff_lt, rank]
      split <;> omega
    | cons y ys =>
      obtain ⟨hy, hposy⟩ := downcase_of_isAscii (hb y List.mem_cons_self)
      have hrest := ih (fun c hc => ha c (List.mem_cons_of_mem x hc))
        fun c hc => hb c (List.mem_cons_of_mem y hc)
      rw [compareNames_cons, compare_rank, hx, hy, List.map_cons, List.map_cons,
        List.cons_lt_cons_iff, UInt8.lt_iff_toNat_lt, ← UInt8.toNat_inj, ← hrest]
      rcases lt_trichotomy (downcase x).toNat (downcase y).toNat with h | h | h
      · rw [compare_lt_iff_lt.mpr (by exact_mod_cast h)]
        exact iff_of_true rfl (.inl h)
      · rw [compare_eq_iff_eq.mpr (by exact_mod_cast h)]
        simp [h]
      · rw [compare_gt_iff_gt.mpr (by exact_mod_cast h)]
        refine iff_of_false (by simp) ?_
        rintro (hlt | ⟨heq, -⟩) <;> omega

theorem isAscii_of_between {c lo hi : Byte} (h : lo ≤ c ∧ c ≤ hi) (hlo : 0 < lo) (hhi : hi < 128) :
    isAscii c = true := by
  rw [isAscii, Bool.and_eq_true, decide_eq_true_eq, decide_eq_true_eq]
  exact ⟨UInt8.lt_of_lt_of_le hlo h.1, UInt8.lt_of_le_of_lt h.2 hhi⟩

theorem isAscii_of_isToken {c : Byte} (h : isToken c = true) : isAscii c = true := by
  simp only [isToken, isDigit, isUpper, Bool.or_eq_true, Bool.and_eq_true, beq_iff_eq,
    decide_eq_true_eq] at h
  rcases h with (((((((((rfl | h) | rfl) | rfl) | rfl) | rfl) | h) | h) | h) | rfl) | rfl
  · decide
  · exact isAscii_of_between h (by decide) (by decide)
  · decide
  · decide
  · decide
  · decide
  · exact isAscii_of_between h (by decide) (by decide)
  · exact isAscii_of_between h (by decide) (by decide)
  · exact isAscii_of_between h (by decide) (by decide)
  · decide
  · decide

/-! ### The dictionary of a request -/

/-- `dict_alloc_insert` of a header. -/
def insertHeader (d : Dict (List Byte) (List Byte)) (h : List Byte × List Byte) :
    Option (Dict (List Byte) (List Byte)) :=
  d.insert compareNames h.1 h.2

/-- `req->headers`: what the insertions since `Request_start` make of the dictionary. -/
def Request.dict (max : ℕ) (r : Request) : Option (Dict (List Byte) (List Byte)) :=
  r.headers.foldlM insertHeader (Dict.start max true)

theorem insertEntry_eq_dictInsert {h : List Byte × List Byte}
    {nodes : List (List Byte × List Byte)} (hh : ∀ c ∈ h.1, isAscii c = true)
    (hnodes : ∀ n ∈ nodes, ∀ c ∈ n.1, isAscii c = true) :
    Dict.insertEntry compareNames h nodes = dictInsert h nodes := by
  induction nodes with
  | nil => rfl
  | cons n nodes ih =>
    rw [Dict.insertEntry, dictInsert, ih fun m hm => hnodes m (List.mem_cons_of_mem n hm)]
    exact if_congr (compareNames_lt_iff hh (hnodes n List.mem_cons_self)) rfl rfl

/-- The insertions are a run of the dictionary. -/
theorem foldlM_insertHeader (hs : List (List Byte × List Byte))
    (d : Dict (List Byte) (List Byte)) :
    hs.foldlM insertHeader d =
      Runs.exec (Dict.apply compareNames) d (hs.map fun h => .insert h.1 h.2) := by
  induction hs generalizing d with
  | nil => rfl
  | cons h hs ih =>
    rw [List.foldlM_cons, List.map_cons, Runs.exec_cons]
    exact congrArg (Option.bind (insertHeader d h)) (funext ih)

theorem foldlM_applyEntries {max : ℕ} {hs : List (List Byte × List Byte)} {t : HeaderTable max}
    (hhs : ∀ h ∈ hs, ∀ c ∈ h.1, isAscii c = true)
    (ht : ∀ h ∈ t.nodes, ∀ c ∈ h.1, isAscii c = true) :
    Runs.exec (Dict.applyEntries compareNames max true) t.nodes
        (hs.map fun h => .insert h.1 h.2) =
      (hs.foldlM HeaderTable.allocInsert t).map (·.nodes) := by
  induction hs generalizing t with
  | nil => rfl
  | cons h hs ih =>
    have hh := hhs h List.mem_cons_self
    rw [List.foldlM_cons, List.map_cons, Runs.exec_cons, Dict.applyEntries,
      HeaderTable.allocInsert]
    by_cases hfull : t.isfull = true
    · rw [dif_pos hfull, if_pos (.inl (t.isfull_iff.mp hfull))]
      rfl
    · rw [dif_neg hfull, if_neg (by simpa [t.isfull_iff] using hfull), Option.bind_some,
        insertEntry_eq_dictInsert hh ht]
      show Runs.exec _ (dictInsert h t.nodes) _ = (hs.foldlM HeaderTable.allocInsert _).map _
      refine @ih ⟨dictInsert h t.nodes, _⟩ (fun h' hh' => hhs h' (List.mem_cons_of_mem h hh'))
        fun n hn => ?_
      rcases List.mem_cons.mp ((dictInsert_perm h t.nodes).mem_iff.mp hn) with rfl | hn
      · exact hh
      · exact ht n hn

/-- The first header of a name in the dictionary is the first that was inserted. -/
theorem find?_exec_applyEntries {max : ℕ} {hs : List (List Byte × List Byte)}
    {nodes nodes' : List (List Byte × List Byte)} (hsorted : Dict.Sorted compareNames true nodes)
    (hrun : Runs.exec (Dict.applyEntries compareNames max true) nodes
      (hs.map fun h => .insert h.1 h.2) = some nodes') (field : List Byte) :
    nodes'.find? (fun a => compareNames field a.1 = .eq) =
      (nodes.find? fun a => compareNames field a.1 = .eq).or
        (hs.find? fun a => compareNames field a.1 = .eq) := by
  induction hs generalizing nodes with
  | nil =>
    obtain rfl := Option.some.inj hrun
    rw [List.find?_nil, Option.or_none]
  | cons h hs ih =>
    rw [List.map_cons, Runs.exec_cons] at hrun
    obtain ⟨nodes₁, hone, hrun⟩ := Option.bind_eq_some_iff.mp hrun
    rw [Dict.applyEntries] at hone
    split at hone
    · exact absurd hone (by simp)
    · obtain rfl := Option.some.inj hone
      rw [ih (Dict.sorted_insertEntry hsorted (.inl rfl)) hrun, Dict.find?_insertEntry hsorted,
        Option.or_assoc]
      congr 1
      by_cases hkey : compareNames field h.1 = .eq
      · rw [if_pos hkey, List.find?_cons_of_pos (by simpa using hkey)]
        rfl
      · rw [if_neg hkey, List.find?_cons_of_neg (by simpa using hkey), Option.none_or]

/-- **The headers of a request in their dictionary**, with any that are inserted besides: as long as
it has room for them, a loop over it gives them in the order in which they are sent to a handler, and
a lookup gives the one that `Request_get` is to return. -/
theorem dict_exact (r₀ : Request) (buffer : List Byte) (extra : List (List Byte × List Byte))
    (hextra : ∀ x ∈ extra, ∀ c ∈ x.1, isToken c = true) (max : ℕ) :
    let r := { (r₀.parse buffer).1 with headers := (r₀.parse buffer).1.headers ++ extra }
    (r.dict max).map (fun d => Dict.entries d.tree) = (r.table max).map (·.nodes) ∧
      ∀ d, r.dict max = some d →
        ∀ field, (d.lookup compareNames field).map (·.val.2) = r.get field := by
  intro r
  have hnames : ∀ h ∈ r.headers, ∀ c ∈ h.1, isAscii c = true := by
    intro h hh c hc
    refine isAscii_of_isToken ?_
    rcases List.mem_append.mp hh with hh | hh
    · exact (Request.worded_parse r₀ buffer).names h hh c hc
    · exact hextra h hh c hc
  have hrun : (r.dict max).map (fun d => Dict.entries d.tree) =
      Runs.exec (Dict.applyEntries compareNames max true) []
        (r.headers.map fun h => .insert h.1 h.2) := by
    rw [Request.dict, foldlM_insertHeader]
    simp only [Dict.entries_eq]
    exact Dict.toList_exec_start max true _
  constructor
  · rw [hrun]
    exact @foldlM_applyEntries max r.headers (.create max) hnames (by simp [HeaderTable.create])
  · intro d hd field
    rw [hd, Option.map_some] at hrun
    have hfind := find?_exec_applyEntries .nil hrun.symm field
    rw [Request.dict, foldlM_insertHeader] at hd
    have hlookup := Dict.lookup_spec (Dict.valid_of_exec hd) field
    rw [← Dict.entries_eq, hfind, List.find?_nil, Option.none_or] at hlookup
    have hsame : (fun h : List Byte × List Byte => sameCaseless h.1 field) =
        fun a => decide (compareNames field a.1 = .eq) := by
      funext h
      rw [Bool.eq_iff_iff, decide_eq_true_eq, ← compareNames_eq_iff]
      exact Std.OrientedCmp.eq_comm
    rw [Request.get, hsame, ← hlookup, Option.map_map]
    rfl

theorem dict_exact_path :
    let r₀ := (Request.create.parse (bytes "GET / HTTP/1.1\r\nX: 1\r\n\r\n")).1
    let r := { r₀ with headers := r₀.headers ++ [(bytes "PATH", bytes "/")] }
    (r.dict 4).map (fun d => Dict.entries d.tree) = (r.table 4).map (·.nodes) ∧
      ∀ d, r.dict 4 = some d →
        ∀ field, (d.lookup compareNames field).map (·.val.2) = r.get field := by
  refine dict_exact Request.create (bytes "GET / HTTP/1.1\r\nX: 1\r\n\r\n")
    [(bytes "PATH", bytes "/")] (fun x hx => ?_) 4
  rw [List.mem_singleton.mp hx]
  exact List.all_eq_true.mp (by decide)

end Mongrel2

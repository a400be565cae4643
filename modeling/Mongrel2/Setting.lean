/-
The settings (`setting.c`).

* `searchAt` — `tst_search` of a number of bytes, which may be more than the key has;
* `settingAdd`, `getStr` — `Setting_add` and `Setting_get_str`;
* **`asMap_iff`** — the settings are a map that refuses a key it has, throughout a run, exactly
  if in every call the part of the key that is as long as the value is a key of the map just
  when the key is.

Design notes: the keys and the values are C strings, without the terminating zero.  The
assertion against duplicates is on.  Memory does not run out, so that the calls fail only as
`Setting_add` makes them.
-/
import Mongrel2.Runs
import Mongrel2.TstMap

namespace Mongrel2

open ByteStream HttpParser

namespace Tst

variable {α : Type*}

/-- `tst_search` of `len` bytes from a pointer on, behind which there are just these; `none`
when it reads past them. -/
def searchAt : Tst α → List Byte → ℕ → Option (Option α)
  | nil, _, _ => some none
  | node _ _ _ _ v, _, 0 => some v
  | node _ _ _ _ _, [], _ + 1 => none
  | node c low equal high v, x :: xs, len + 1 =>
    if x.toInt8 < c.toInt8 then searchAt low (x :: xs) (len + 1)
    else if x = c then if len = 0 then some v else searchAt equal xs len
    else searchAt high (x :: xs) (len + 1)

end Tst

namespace Setting

open Tst

/-- What a call comes to. -/
inductive Outcome
  | returned (rc : ℤ)
  /-- the assertion of `tst_insert` fails -/
  | aborted
  /-- a byte behind the key is read -/
  | overread
  deriving DecidableEq

/-- A call of `Setting_add`, and what it came to. -/
structure Call where
  key : List Byte
  value : List Byte
  outcome : Outcome
  deriving DecidableEq

/-- `SETTINGS_MAP`, and the calls so far. -/
structure Settings where
  map : Tst (List Byte)
  calls : List Call

def Settings.start : Settings := ⟨.nil, []⟩

/-- `Setting_add`. -/
def settingAdd (map : Tst (List Byte)) (key value : List Byte) : Outcome × Tst (List Byte) :=
  -- the length is that of the value
  match map.searchAt (key ++ [0]) value.length with
  | none => (.overread, map)
  | some (some _) => (.returned (-1), map)
  | some none =>
    match map.insert key value with
    | none => (.aborted, map)
    | some map => (.returned 0, map)

/-- `Setting_get_str`. -/
def getStr (map : Tst (List Byte)) (key : List Byte) (default : Option (List Byte)) :
    Option (List Byte) :=
  (map.search key).orElse fun _ => default

/-- One more call. -/
def step (s : Settings) (c : List Byte × List Byte) : Option Settings :=
  let (outcome, map) := settingAdd s.map c.1 c.2
  some ⟨map, s.calls ++ [⟨c.1, c.2, outcome⟩]⟩

/-- The pairs of the calls that returned 0. -/
def added (calls : List Call) : List (List Byte × List Byte) :=
  (calls.filter (·.outcome = .returned 0)).map fun c => (c.key, c.value)

/-- Their keys. -/
def keysOf (calls : List Call) : List (List Byte) := (added calls).map Prod.fst

/-- A map that refuses a key it has. -/
structure AsMap (s : Settings) : Prop where
  /-- a call returned 0, or, if its key was there, -1 -/
  refused : ∀ earlier c later, s.calls = earlier ++ c :: later →
    c.key ∉ keysOf earlier ∧ c.outcome = .returned 0 ∨
      c.key ∈ keysOf earlier ∧ c.outcome = .returned (-1)
  /-- a key has the value it was added with -/
  value : ∀ k v, (k, v) ∈ added s.calls → ∀ default, getStr s.map k default = some v
  /-- another has none -/
  default : ∀ k, k ≠ [] → k ∉ keysOf s.calls → ∀ default, getStr s.map k default = default

/-- The search of `Setting_add` finds a value: that of the part of the key that is as long as
the new value; with an empty value, that of the first byte of the first key. -/
def Blocked (keys : List (List Byte)) (key value : List Byte) : Prop :=
  if value = [] then ∃ k, keys.head? = some k ∧ k.take 1 ∈ keys
  else value.length ≤ key.length ∧ key.take value.length ∈ keys

/-- It does just when the key is there. -/
def Unmistaken (s : Settings) (c : List Byte × List Byte) : Prop :=
  Blocked (keysOf s.calls) c.1 c.2 ↔ c.1 ∈ keysOf s.calls

section

variable {α : Type*} {t t' : Tst α} {value : List Byte → α} {keys : List (List Byte)}

/-! ### The search -/

/-- The search takes a byte that is there. -/
theorem searchAt_cons (t : Tst α) (x : Byte) (xs : List Byte) (len : ℕ) :
    t.searchAt (x :: xs) (len + 1) =
      if len = 0 then some (t.val x) else (t.mid x).searchAt xs len := by
  induction t with
  | nil =>
    by_cases hlen : len = 0
    · rw [if_pos hlen, val_nil, searchAt]
    · rw [if_neg hlen, mid_nil, searchAt, searchAt]
  | node d low equal high w ihlow _ ihhigh =>
    rw [searchAt]
    by_cases hlt : x.toInt8 < d.toInt8
    · rw [if_pos hlt, ihlow, val_low hlt, mid_low hlt]
    · rw [if_neg hlt]
      by_cases heq : x = d
      · subst heq
        rw [if_pos rfl, val_eq_of_find find_self, mid_eq_of_find find_self]
      · rw [if_neg heq, ihhigh, val_high hlt heq, mid_high hlt heq]

theorem searchAt_zero (t : Tst α) (s : List Byte) : t.searchAt s 0 = some t.rootVal := by
  cases t with
  | nil => rfl
  | node d low equal high w =>
    rw [searchAt, rootVal, top, Option.bind_some, val_eq_of_find find_self]

/-- As many bytes as are there are looked up. -/
theorem searchAt_of_le {s : List Byte} {len : ℕ} (t : Tst α) (hpos : 0 < len)
    (hlen : len ≤ s.length) : t.searchAt s len = some (t.lookup (s.take len)) := by
  induction s generalizing t len with
  | nil => exact absurd hlen (not_le.mpr hpos)
  | cons x xs ih =>
    obtain ⟨len, rfl⟩ := Nat.exists_eq_add_of_lt hpos
    rw [zero_add] at hlen ⊢
    rw [List.length_cons] at hlen
    rw [searchAt_cons, List.take_succ_cons]
    by_cases hzero : len = 0
    · rw [if_pos hzero, hzero, List.take_zero, lookup_singleton]
    · rw [if_neg hzero, ih _ (Nat.pos_of_ne_zero hzero) (by omega)]
      have hne : xs.take len ≠ [] := by
        intro hnil
        have htake := congrArg List.length hnil
        rw [List.length_take, List.length_nil] at htake
        omega
      obtain ⟨y, ys, hys⟩ := List.exists_cons_of_ne_nil hne
      rw [hys, lookup_cons_cons]

/-- Past the end nothing is read where the tree has ended. -/
theorem searchAt_of_gt {s : List Byte} {len : ℕ} (t : Tst α) (hne : s ≠ []) (hlen : s.length < len)
    (hnil : (t.behind s).top = none) : t.searchAt s len = some none := by
  induction s generalizing t len with
  | nil => exact absurd rfl hne
  | cons x xs ih =>
    rw [List.length_cons] at hlen
    obtain ⟨len, rfl⟩ : ∃ n, len = n + 1 := ⟨len - 1, by omega⟩
    have hbehind : (t.behind (x :: xs)).top = ((t.mid x).behind xs).top := rfl
    rw [hbehind] at hnil
    rw [searchAt_cons, if_neg (by omega)]
    by_cases hxs : xs = []
    · subst hxs
      have hmid : t.mid x = nil := by
        cases hm : t.mid x with
        | nil => rfl
        | node d low equal high w =>
          rw [hm] at hnil
          exact absurd hnil (by simp [behind, top])
      rw [hmid, searchAt]
    · exact ih _ hxs (by omega) hnil

/-- **What `Setting_add` finds.** -/
theorem searchAt_spec (h : Holds value keys t) (hkeys : ∀ k ∈ keys, k ≠ [] ∧ 0 ∉ k)
    (k v : List Byte) :
    ∃ o, t.searchAt (k ++ [0]) v.length = some o ∧ (o ≠ none ↔ Blocked keys k v) := by
  have hlookup : ∀ k', t.lookup k' ≠ none ↔ k' ∈ keys := by
    intro k'
    rw [h.lookup]
    by_cases hk' : k' ∈ keys
    · simp [hk']
    · simp [hk']
  -- no key has a zero
  have hend : ∀ k', k ++ [0] <+: k' → k' ∉ keys := by
    intro k' hpre hmem
    exact (hkeys k' hmem).2 (hpre.subset (by simp))
  by_cases hv : v = []
  · subst hv
    refine ⟨t.rootVal, searchAt_zero t _, ?_⟩
    have htop := h.top []
    rw [show t.behind [] = t from rfl] at htop
    rw [Blocked, if_pos rfl, rootVal, htop]
    cases keys with
    | nil => simp
    | cons k₀ keys =>
      obtain ⟨c, rest, rfl⟩ := List.exists_cons_of_ne_nil (hkeys k₀ (by simp)).1
      have hfirst : ((c :: rest) :: keys).findSome? (follows []) = some c := by
        rw [List.findSome?_cons]
        simp [follows]
      rw [hfirst, Option.bind_some, ← lookup_singleton, hlookup]
      simp
  · have hpos : 0 < v.length := List.length_pos_iff.mpr hv
    rw [Blocked, if_neg hv]
    by_cases hle : v.length ≤ k.length
    · refine ⟨t.lookup (k.take v.length), ?_, ?_⟩
      · rw [searchAt_of_le t hpos (by rw [List.length_append]; omega), List.take_append_of_le_length hle]
      · rw [hlookup, and_iff_right hle]
    · refine ⟨none, ?_, iff_of_false (by simp) fun hb => hle hb.1⟩
      have hlen : (k ++ [0]).length = k.length + 1 := by simp
      by_cases heq : v.length = k.length + 1
      · rw [searchAt_of_le t hpos (by omega), List.take_of_length_le (by omega)]
        by_contra hsome
        have hmem := (hlookup _).mp fun hnone => hsome (by rw [hnone])
        exact hend _ (List.prefix_refl _) hmem
      · refine searchAt_of_gt t (by simp) (by omega) ?_
        rw [h.top, List.findSome?_eq_none_iff]
        intro k' hmem
        rw [follows, if_neg fun hpre => hend k' hpre hmem]

theorem Holds.congr {value' : List Byte → α} (h : Holds value keys t)
    (hvalue : ∀ k ∈ keys, value' k = value k) : Holds value' keys t := by
  refine ⟨?_, h.has, h.top⟩
  intro k
  rw [h.lookup]
  by_cases hk : k ∈ keys
  · rw [if_pos hk, if_pos hk, hvalue k hk]
  · rw [if_neg hk, if_neg hk]

end

section

variable {s s' : Settings} {c : List Byte × List Byte} {calls : List Call} {k v : List Byte}

/-! ### The calls -/

theorem added_append (calls : List Call) (c : Call) :
    added (calls ++ [c]) =
      added calls ++ if c.outcome = .returned 0 then [(c.key, c.value)] else [] := by
  rw [added, List.filter_append, List.map_append]
  by_cases hc : c.outcome = .returned 0
  · rw [if_pos hc, List.filter_cons_of_pos (by simpa using hc)]
    rfl
  · rw [if_neg hc, List.filter_cons_of_neg (by simpa using hc)]
    rfl

theorem keysOf_append (calls : List Call) (c : Call) :
    keysOf (calls ++ [c]) = keysOf calls ++ if c.outcome = .returned 0 then [c.key] else [] := by
  rw [keysOf, added_append, List.map_append]
  by_cases hc : c.outcome = .returned 0
  · rw [if_pos hc, if_pos hc]
    rfl
  · rw [if_neg hc, if_neg hc]
    rfl

/-- Each call so far has been answered as it should be. -/
def Refused (calls : List Call) : Prop :=
  ∀ earlier c later, calls = earlier ++ c :: later →
    c.key ∉ keysOf earlier ∧ c.outcome = .returned 0 ∨
      c.key ∈ keysOf earlier ∧ c.outcome = .returned (-1)

theorem refused_append_iff {c : Call} : Refused (calls ++ [c]) ↔ Refused calls ∧
    (c.key ∉ keysOf calls ∧ c.outcome = .returned 0 ∨
      c.key ∈ keysOf calls ∧ c.outcome = .returned (-1)) := by
  constructor
  · intro h
    refine ⟨?_, h calls c [] rfl⟩
    rintro earlier c' later rfl
    exact h earlier c' (later ++ [c]) (by simp)
  · rintro ⟨h, hc⟩ earlier c' later heq
    rcases List.eq_nil_or_concat later with rfl | ⟨later, c'', rfl⟩
    · obtain ⟨rfl, hsame⟩ := List.append_inj' heq rfl
      obtain rfl : c = c' := (List.cons.inj hsame).1
      exact hc
    · have hcons : earlier ++ c' :: (later ++ [c'']) = (earlier ++ c' :: later) ++ [c''] := by simp
      rw [List.concat_eq_append, hcons] at heq
      obtain ⟨heq, -⟩ := List.append_inj' heq rfl
      exact h earlier c' later heq

/-- The tree holds the pairs of the calls that returned 0. -/
structure Kept (s : Settings) : Prop where
  refused : Refused s.calls
  nodup : (keysOf s.calls).Nodup
  keys : ∀ k ∈ keysOf s.calls, k ≠ [] ∧ 0 ∉ k
  holds : ∃ value, Holds value (keysOf s.calls) s.map ∧ ∀ p ∈ added s.calls, p.2 = value p.1

theorem Kept.asMap (h : Kept s) : AsMap s := by
  obtain ⟨value, hholds, hvalue⟩ := h.holds
  refine ⟨h.refused, ?_, ?_⟩
  · intro k v hmem default
    have hkey : k ∈ keysOf s.calls := List.mem_map_of_mem hmem
    rw [getStr, search_eq_lookup _ (h.keys k hkey).1, hholds.lookup, if_pos hkey,
      ← hvalue _ hmem]
    rfl
  · intro k hk hkey default
    rw [getStr, search_eq_lookup _ hk, hholds.lookup, if_neg hkey]
    rfl

/-- A call whose answer is as it should be. -/
theorem Kept.refused_append_iff (h : Kept s) (k v : List Byte) (outcome : Outcome) :
    Refused (s.calls ++ [⟨k, v, outcome⟩]) ↔ k ∉ keysOf s.calls ∧ outcome = .returned 0 ∨
      k ∈ keysOf s.calls ∧ outcome = .returned (-1) := by
  rw [Setting.refused_append_iff, and_iff_right h.refused]

/-- A key that is there is refused, and nothing changes. -/
theorem Kept.again (h : Kept s) (hmem : k ∈ keysOf s.calls) :
    Kept ⟨s.map, s.calls ++ [⟨k, v, .returned (-1)⟩]⟩ := by
  have hadded : added (s.calls ++ [⟨k, v, .returned (-1)⟩]) = added s.calls := by
    rw [added_append, if_neg (by simp), List.append_nil]
  obtain ⟨value, hholds, hvalue⟩ := h.holds
  refine ⟨(h.refused_append_iff k v _).mpr (.inr ⟨hmem, rfl⟩), ?_, ?_, value, ?_, ?_⟩
  · rw [keysOf, hadded]
    exact h.nodup
  · rw [keysOf, hadded]
    exact h.keys
  · rw [keysOf, hadded]
    exact hholds
  · rw [hadded]
    exact hvalue

/-- A new key is stored with its value. -/
theorem Kept.stored (h : Kept s) (hk : k ≠ []) (hzero : 0 ∉ k) (hmem : k ∉ keysOf s.calls)
    (hinsert : s.map.insert k v = some map) :
    Kept ⟨map, s.calls ++ [⟨k, v, .returned 0⟩]⟩ := by
  have hadded : added (s.calls ++ [⟨k, v, .returned 0⟩]) = added s.calls ++ [(k, v)] := by
    rw [added_append, if_pos rfl]
  have hkeys : keysOf (s.calls ++ [⟨k, v, .returned 0⟩]) = keysOf s.calls ++ [k] := by
    rw [keysOf_append, if_pos rfl]
  obtain ⟨value, hholds, hvalue⟩ := h.holds
  refine ⟨(h.refused_append_iff k v _).mpr (.inl ⟨hmem, rfl⟩), ?_, ?_, Function.update value k v,
    ?_, ?_⟩
  · rw [hkeys, List.nodup_append]
    refine ⟨h.nodup, List.nodup_singleton k, ?_⟩
    intro k' hk' k'' hk'' heq
    rw [List.mem_singleton.mp hk''] at heq
    exact hmem (heq ▸ hk')
  · rw [hkeys]
    intro k' hk'
    rcases List.mem_append.mp hk' with hk' | hk'
    · exact h.keys k' hk'
    · rw [List.mem_singleton.mp hk']
      exact ⟨hk, hzero⟩
  · rw [hkeys]
    have hupdate : Holds (Function.update value k v) (keysOf s.calls) s.map := by
      refine Holds.congr hholds ?_
      intro k' hk'
      have hne : k' ≠ k := by
        rintro rfl
        exact hmem hk'
      exact Function.update_of_ne hne v value
    refine hupdate.insert hk ?_
    rw [Function.update_self]
    exact hinsert
  · rw [hadded]
    intro p hp
    rcases List.mem_append.mp hp with hp | hp
    · have hne : p.1 ≠ k := by
        intro heq
        exact hmem (heq ▸ List.mem_map_of_mem hp)
      rw [Function.update_of_ne hne]
      exact hvalue p hp
    · rw [List.mem_singleton.mp hp, Function.update_self]

/-- **One call**: it is answered as it should be exactly if the search is not mistaken, and
then the tree holds what it should. -/
theorem Kept.call (h : Kept s) (hc : c.1 ≠ [] ∧ 0 ∉ c.1) :
    ∃ outcome map, step s c = some ⟨map, s.calls ++ [⟨c.1, c.2, outcome⟩]⟩ ∧
      (Refused (s.calls ++ [⟨c.1, c.2, outcome⟩]) ↔ Unmistaken s c) ∧
        (Unmistaken s c → Kept ⟨map, s.calls ++ [⟨c.1, c.2, outcome⟩]⟩) := by
  obtain ⟨k, v⟩ := c
  obtain ⟨hk, hzero⟩ : k ≠ [] ∧ 0 ∉ k := hc
  obtain ⟨value, hholds, -⟩ := h.holds
  obtain ⟨o, hsearch, hblocked⟩ := searchAt_spec hholds h.keys k v
  have hun : Unmistaken s (k, v) ↔ (o ≠ none ↔ k ∈ keysOf s.calls) := by
    rw [hblocked]
    exact Iff.rfl
  cases o with
  | some found =>
    refine ⟨.returned (-1), s.map, ?_, ?_, ?_⟩
    · simp only [step, settingAdd, hsearch]
    · rw [h.refused_append_iff, hun]
      simp
    · exact fun hok => h.again ((hun.mp hok).mp (by simp))
  | none =>
    have hlookup := insert_eq_none_iff (t := s.map) (v := v) hk
    rw [hholds.lookup] at hlookup
    cases hinsert : s.map.insert k v with
    | none =>
      -- the key is there, and nothing was found
      have hmem : k ∈ keysOf s.calls := by
        by_contra hmem
        rw [if_neg hmem] at hlookup
        exact hlookup.mp hinsert rfl
      refine ⟨.aborted, s.map, ?_, ?_, ?_⟩
      · simp only [step, settingAdd, hsearch, hinsert]
      · rw [h.refused_append_iff, hun]
        simp [hmem]
      · intro hok
        exact absurd rfl ((hun.mp hok).mpr hmem)
    | some map =>
      have hmem : k ∉ keysOf s.calls := by
        intro hmem
        rw [if_pos hmem] at hlookup
        rw [hlookup.mpr (by simp)] at hinsert
        exact absurd hinsert (by simp)
      refine ⟨.returned 0, map, ?_, ?_, ?_⟩
      · simp only [step, settingAdd, hsearch, hinsert]
      · rw [h.refused_append_iff, hun]
        simp [hmem]
      · exact fun _ => h.stored hk hzero hmem hinsert

theorem kept_start : Kept .start := by
  refine ⟨?_, List.nodup_nil, ?_, fun _ => [], holds_nil _, ?_⟩
  · intro earlier c later heq
    exact absurd heq (by simp [Settings.start])
  · intro k hk
    exact absurd hk List.not_mem_nil
  · intro p hp
    exact absurd hp List.not_mem_nil

end

/-- **The settings are a map** throughout a run exactly if no search is mistaken. -/
theorem asMap_iff {calls : List (List Byte × List Byte)}
    (hcalls : ∀ c ∈ calls, c.1 ≠ [] ∧ 0 ∉ c.1) :
    Runs.Always step AsMap .start calls ↔ Runs.Along step Unmistaken .start calls := by
  refine Runs.always_iff_along_of_inv (I := Kept) (fun _ h => h.asMap) ?_ ?_ kept_start hcalls
  · intro s c s' h hc hok hstep
    obtain ⟨outcome, map, hrun, -, hkept⟩ := h.call hc
    rw [hrun] at hstep
    obtain rfl := Option.some.inj hstep
    exact hkept hok
  · intro s c h hc hok
    obtain ⟨outcome, map, hrun, hrefused, -⟩ := h.call hc
    refine ⟨_, hrun, ?_⟩
    intro hmap
    exact hok (hrefused.mp hmap.refused)

/-- The settings of the test. -/
theorem asMap_iff_two :
    Runs.Always step AsMap .start
        [(bytes "TEST1", bytes "2345"), (bytes "TEST2", bytes "Hello")] ↔
      Runs.Along step Unmistaken .start
        [(bytes "TEST1", bytes "2345"), (bytes "TEST2", bytes "Hello")] :=
  asMap_iff (by decide)

/-- A key is added again with a shorter value: the search does not find it, and the insertion
aborts. -/
theorem not_asMap_again :
    ¬ Runs.Always step AsMap .start
      [(bytes "TEST1", bytes "2345"), (bytes "TEST1", bytes "2")] := by
  intro h
  have hmap := ((h.2 _ rfl).2 _ rfl).head
  rcases hmap.refused [⟨bytes "TEST1", bytes "2345", .returned 0⟩]
    ⟨bytes "TEST1", bytes "2", .aborted⟩ [] rfl with ⟨-, habort⟩ | ⟨-, habort⟩
  · exact absurd habort (by simp)
  · exact absurd habort (by simp)

end Setting

end Mongrel2

/-
Routes that are inserted one after the other (`routing.c`, `tst.c`).

* `insertRoute`, `lookupRoute` — `RouteMap_insert` with `RouteMap_simple_prefix_match`, or
  `RouteMap_insert_reversed` with `RouteMap_match_suffix`;
* `search_spec` — which of the inserted keys a search finds;
* **`coexist_iff`** — no insertion aborts and every route can be found, exactly if the keys of
  the routes differ, and each route has a target that its pattern matches and its key is found
  for.

Design notes: an insertion that aborts leaves no map.  Memory does not run out, so none
returns -1.  `RouteMap_match` has no caller and is left out.
-/
import Mongrel2.Pattern
import Mongrel2.Runs
import Mongrel2.TstLookup

namespace Mongrel2

open ByteStream HttpParser

namespace Tst

variable {α : Type*}

/-- The key as it is inserted. -/
def stored (reversed : Bool) (k : List Byte) : List Byte := if reversed then k.reverse else k

/-- The tree into which the keys have been inserted. -/
def treeOf (reversed : Bool) (value : List Byte → α) (keys : List (List Byte)) : Option (Tst α) :=
  keys.foldlM (fun t k => t.insert (stored reversed k) (value k)) nil

/-- The search that goes with the insertion. -/
def searchBy (reversed : Bool) (t : Tst α) (s : List Byte) : Option α :=
  if reversed then t.searchSuffix s else t.searchPrefix s

/-- The key that `tst_search_prefix` finds: the string itself, or, if no key goes on behind it,
the longest that is a prefix. -/
def FoundPrefix (keys : List (List Byte)) (s k : List Byte) : Prop :=
  k ∈ keys ∧ k = s ∨ (∀ k' ∈ keys, ¬ s <+: k') ∧ Longest (· <+: s) keys k

/-- The key that `tst_search_suffix` finds: what the key that crosses the string has in its
place, or, if none does, the longest that is a suffix. -/
def FoundSuffix (keys : List (List Byte)) (s k : List Byte) : Prop :=
  (∃ k', crossed keys s = some k' ∧ k = k'.drop (k'.length - s.length) ∧ k ∈ keys) ∨
    crossed keys s = none ∧ Longest (· <:+ s) keys k

def Found (reversed : Bool) (keys : List (List Byte)) (s k : List Byte) : Prop :=
  if reversed then FoundSuffix keys s k else FoundPrefix keys s k

section

variable {value : List Byte → α} {keys : List (List Byte)} {t : Tst α} {s : List Byte} {v : α}

theorem Exact.eq_some_iff {p : List Byte → Prop} {answer : Option α}
    (h : Exact p value keys answer) : answer = some v ↔ ∃ k, Longest p keys k ∧ value k = v := by
  constructor
  · intro hsome
    have hp : ∃ k ∈ keys, p k := by
      by_contra hnone
      rw [h.missing.mpr fun k hmem hk => hnone ⟨k, hmem, hk⟩] at hsome
      exact absurd hsome (by simp)
    obtain ⟨k, hk⟩ := exists_longest hp
    exact ⟨k, hk, Option.some.inj ((h.longest k hk).symm.trans hsome)⟩
  · rintro ⟨k, hk, rfl⟩
    exact h.longest k hk

theorem Holds.searchPrefix_eq_some_iff (h : Holds value keys t) (hs : s ≠ []) :
    t.searchPrefix s = some v ↔ ∃ k, FoundPrefix keys s k ∧ value k = v := by
  obtain ⟨hpos, hneg⟩ := searchPrefixLoop_spec none t hs
  rw [searchPrefix, if_neg hs]
  by_cases hhas : t.has s
  · -- the string ends inside of a key, or is one
    obtain ⟨k₀, hmem₀, hk₀⟩ := (h.has s hs).mp hhas
    rw [hpos hhas, h.lookup]
    constructor
    · intro hv
      split_ifs at hv with hmem
      exact ⟨s, .inl ⟨hmem, rfl⟩, Option.some.inj hv⟩
    · rintro ⟨k, ⟨hmem, rfl⟩ | ⟨hnone, -⟩, rfl⟩
      · rw [if_pos hmem]
      · exact absurd hk₀ (hnone k₀ hmem₀)
  · have hnone : ∀ k ∈ keys, ¬ s <+: k := fun k hmem hk => hhas ((h.has s hs).mpr ⟨k, hmem, hk⟩)
    have hbest : (t.best s <|> none) = t.best s := by cases t.best s <;> rfl
    rw [hneg hhas, hbest, (h.exact_best s).eq_some_iff]
    refine exists_congr fun k => and_congr_left fun _ => ⟨fun hk => .inr ⟨hnone, hk⟩, ?_⟩
    rintro (⟨hmem, rfl⟩ | ⟨-, hk⟩)
    · exact absurd (List.prefix_refl k) (hnone k hmem)
    · exact hk

/-- **Which key a search finds.** -/
theorem search_spec (reversed : Bool) (value : List Byte → α) (hnodup : keys.Nodup)
    (hne : [] ∉ keys) :
    ∃ t, treeOf reversed value keys = some t ∧
      (∀ k ∈ keys, t.lookup (stored reversed k) ≠ none) ∧
        ∀ s, s ≠ [] → ∀ v, t.searchBy reversed s = some v ↔
          ∃ k, Found reversed keys s k ∧ value k = v := by
  cases reversed with
  | false =>
    obtain ⟨t, ht, h⟩ := holds_ofKeys value hnodup hne
    refine ⟨t, ht, fun k hk => ?_, fun s hs v => h.searchPrefix_eq_some_iff hs⟩
    rw [show stored false k = k from rfl, h.lookup, if_pos hk]
    simp
  | true =>
    obtain ⟨t, ht, hspec⟩ := searchSuffix_spec value hnodup hne
    have hnodup' : (keys.map List.reverse).Nodup := hnodup.map List.reverse_injective
    have hne' : [] ∉ keys.map List.reverse := by simpa using hne
    obtain ⟨t', ht', h⟩ := holds_ofKeys (fun k => value k.reverse) hnodup' hne'
    obtain rfl : t = t' :=
      Option.some.inj ((ht.symm.trans (ofKeysReversed_eq value keys)).trans ht')
    refine ⟨t, ht, fun k hk => ?_, fun s hs v => ?_⟩
    · rw [show stored true k = k.reverse from rfl, h.lookup,
        if_pos (List.mem_map_of_mem hk)]
      simp
    · obtain ⟨hnone, hsome⟩ := hspec s hs
      show t.searchSuffix s = some v ↔ ∃ k, FoundSuffix keys s k ∧ value k = v
      cases hcross : crossed keys s with
      | none =>
        rw [(hnone hcross).eq_some_iff]
        simp [FoundSuffix, hcross]
      | some k' =>
        rw [hsome k' hcross]
        simp only [FoundSuffix, hcross, Option.some.injEq, exists_eq_left', reduceCtorEq,
          false_and, or_false]
        constructor
        · intro hv
          split_ifs at hv with hmem
          exact ⟨_, ⟨rfl, hmem⟩, Option.some.inj hv⟩
        · rintro ⟨k, ⟨rfl, hmem⟩, rfl⟩
          rw [if_pos hmem]

theorem mem_of_found {reversed : Bool} {k : List Byte} (h : Found reversed keys s k) :
    k ∈ keys := by
  cases reversed with
  | false => exact h.elim And.left fun h => h.2.mem
  | true => exact h.elim (fun ⟨_, _, _, hmem⟩ => hmem) fun h => h.2.mem

end

end Tst

/-! ### Insertions -/

namespace RouteMap

open Tst

variable {β : Type*}

/-- Of an empty key the terminating zero is taken. -/
def orZero (k : List Byte) : List Byte := if k = [] then [0] else k

/-- The key of a route. -/
def routeKey (reversed : Bool) (pattern : List Byte) : List Byte :=
  orZero (if reversed then (pattern.reverse.takeWhile (· ≠ chr ')')).reverse
    else pattern.takeWhile (· ≠ chr '('))

/-- The route that is made of a pattern and its data. -/
def routeOf (reversed : Bool) (c : List Byte × β) : Route β :=
  ⟨c.1, c.2, decide ((if reversed then chr ')' else chr '(') ∈ c.1)⟩

/-- `RouteMap_insert_reversed`, or `RouteMap_insert`. -/
def insertRoute (reversed : Bool) (map : RouteMap β) (c : List Byte × β) : Option (RouteMap β) :=
  if reversed then map.insertReversed c.1 c.2 else map.insert c.1 c.2

/-- `RouteMap_match_suffix`, or `RouteMap_simple_prefix_match`. -/
def lookupRoute (bstringMatch : List Byte → List Byte → Bool) (reversed : Bool) (map : RouteMap β)
    (target : List Byte) : Option (Route β) :=
  if reversed then map.matchSuffix bstringMatch target
  else map.simplePrefixMatch bstringMatch target

/-- The calls so far, and the map they left. -/
structure Inserts (β : Type*) where
  map : Option (RouteMap β)
  calls : List (List Byte × β)

def Inserts.start : Inserts β := ⟨some .create, []⟩

/-- One more call. -/
def step (reversed : Bool) (s : Inserts β) (c : List Byte × β) : Option (Inserts β) :=
  some ⟨s.map.bind (insertRoute reversed · c), s.calls ++ [c]⟩

section

variable (bstringMatch : List Byte → List Byte → Bool) (reversed : Bool)

/-- No call aborted, and every route can be returned by a lookup. -/
def Coexist (s : Inserts β) : Prop :=
  ∃ map, s.map = some map ∧
    ∀ c ∈ s.calls, ∃ target, lookupRoute bstringMatch reversed map target =
      some (routeOf reversed c)

def keysOf (calls : List (List Byte × β)) : List (List Byte) :=
  calls.map fun c => routeKey reversed c.1

/-- There is a target for which the key of a route is found among others, and that its pattern
matches, if it has one. -/
def Reachable (keys : List (List Byte)) (c : List Byte × β) : Prop :=
  ∃ target, target ≠ [] ∧ Found reversed keys target (routeKey reversed c.1) ∧
    ((routeOf reversed c).hasPattern = true → bstringMatch target c.1 = true)

/-- The key is a new one, and with it every route can still be reached. -/
def Room (s : Inserts β) (c : List Byte × β) : Prop :=
  routeKey reversed c.1 ∉ keysOf reversed s.calls ∧
    ∀ c' ∈ s.calls ++ [c], Reachable bstringMatch reversed (keysOf reversed (s.calls ++ [c])) c'

end

section

variable {bstringMatch : List Byte → List Byte → Bool} {reversed : Bool}
  {calls : List (List Byte × β)} {c : List Byte × β}

theorem routeKey_ne_nil (pattern : List Byte) : routeKey reversed pattern ≠ [] := by
  rw [routeKey, orZero]
  by_cases hk : (if reversed = true then (pattern.reverse.takeWhile (· ≠ chr ')')).reverse
      else pattern.takeWhile (· ≠ chr '(')) = []
  · rw [if_pos hk]
    simp
  · rw [if_neg hk]
    exact hk

theorem insert_orZero (t : Tst (Route β)) (k : List Byte) (v : Route β) :
    t.insert (orZero k) v = t.insert k v := by
  rw [orZero]
  split
  · next hk =>
    rw [hk]
    rfl
  · rfl

theorem reverse_orZero (k : List Byte) : (orZero k).reverse = orZero k.reverse := by
  by_cases hk : k = []
  · rw [hk]
    rfl
  · rw [orZero, if_neg hk, orZero, if_neg (by simpa using hk)]

/-- A route is inserted under its key. -/
theorem insertRoute_eq (t : Tst (Route β)) (c : List Byte × β) :
    insertRoute reversed ⟨t⟩ c =
      (t.insert (stored reversed (routeKey reversed c.1)) (routeOf reversed c)).map
        RouteMap.mk := by
  cases reversed with
  | false =>
    show (t.insert (c.1.takeWhile (· ≠ chr '(')) (routeOf false c)).map RouteMap.mk = _
    rw [← insert_orZero]
    rfl
  | true =>
    show (t.insert (c.1.reverse.takeWhile (· ≠ chr ')')) (routeOf true c)).map RouteMap.mk = _
    rw [← insert_orZero, show stored true (routeKey true c.1) = (routeKey true c.1).reverse from rfl,
      routeKey, reverse_orZero, if_pos rfl, List.reverse_reverse]

/-- All the insertions, one after the other. -/
def insertAll (reversed : Bool) (calls : List (List Byte × β)) : Option (RouteMap β) :=
  calls.foldlM (insertRoute reversed) .create

theorem insertAll_append (calls : List (List Byte × β)) (c : List Byte × β) :
    insertAll reversed (calls ++ [c]) =
      (insertAll reversed calls).bind (insertRoute reversed · c) := by
  have hlast : ∀ map : RouteMap β, [c].foldlM (insertRoute reversed) map =
      insertRoute reversed map c := by
    intro map
    rw [List.foldlM_cons]
    cases insertRoute reversed map c <;> rfl
  rw [insertAll, List.foldlM_append]
  exact congrArg _ (funext hlast)

/-- The map of the routes is the tree of their keys. -/
theorem foldlM_insertRoute (value : List Byte → Route β) (t : Tst (Route β))
    (hvalue : ∀ c ∈ calls, value (routeKey reversed c.1) = routeOf reversed c) :
    calls.foldlM (insertRoute reversed) ⟨t⟩ =
      ((keysOf reversed calls).foldlM
        (fun (t : Tst (Route β)) k => t.insert (stored reversed k) (value k)) t).map
          RouteMap.mk := by
  induction calls generalizing t with
  | nil => rfl
  | cons c calls ih =>
    have hcons : keysOf reversed (c :: calls) = routeKey reversed c.1 :: keysOf reversed calls := rfl
    rw [hcons, List.foldlM_cons, List.foldlM_cons, insertRoute_eq, hvalue c (by simp)]
    cases t.insert (stored reversed (routeKey reversed c.1)) (routeOf reversed c) with
    | none => rfl
    | some t' => exact ih t' fun c' hc' => hvalue c' (List.mem_cons_of_mem _ hc')

/-- The value that a key has, where the keys differ. -/
theorem exists_value (hnodup : (keysOf reversed calls).Nodup) (hne : calls ≠ []) :
    ∃ value : List Byte → Route β,
      ∀ c ∈ calls, value (routeKey reversed c.1) = routeOf reversed c := by
  refine ⟨fun k => ((calls.find? fun c => decide (routeKey reversed c.1 = k)).map
    (routeOf reversed)).getD (routeOf reversed (calls.head hne)), fun c hc => ?_⟩
  have hfind : calls.find? (fun c' => decide (routeKey reversed c'.1 = routeKey reversed c.1)) =
      some c := by
    cases hf : calls.find? fun c' => decide (routeKey reversed c'.1 = routeKey reversed c.1) with
    | none => exact absurd (List.find?_eq_none.mp hf c hc) (by simp)
    | some c' =>
      have hkey : routeKey reversed c'.1 = routeKey reversed c.1 := by
        simpa using List.find?_some hf
      rw [List.inj_on_of_nodup_map hnodup (List.mem_of_find?_eq_some hf) hc hkey]
  dsimp only
  rw [hfind]
  rfl

/-- Where the keys differ all routes are inserted, and a search finds those whose keys it
finds; another route with one of the keys is not inserted. -/
theorem insertAll_spec (hnodup : (keysOf reversed calls).Nodup) :
    ∃ t, insertAll reversed calls = some ⟨t⟩ ∧
      (∀ target, target ≠ [] → ∀ r, t.searchBy reversed target = some r ↔
        ∃ c ∈ calls, Found reversed (keysOf reversed calls) target (routeKey reversed c.1) ∧
          routeOf reversed c = r) ∧
      ∀ c, routeKey reversed c.1 ∈ keysOf reversed calls → insertRoute reversed ⟨t⟩ c = none := by
  by_cases hcalls : calls = []
  · subst hcalls
    refine ⟨.nil, rfl, fun target htarget r => ?_, fun c hc => absurd hc (by simp [keysOf])⟩
    have hnone : (Tst.nil : Tst (Route β)).searchBy reversed target = none := by
      cases reversed with
      | false => simp [searchBy, searchPrefix, searchPrefixLoop]
      | true => simp [searchBy, searchSuffix, searchSuffixLoop]
    simp [hnone]
  obtain ⟨value, hvalue⟩ := exists_value hnodup hcalls
  have hne : [] ∉ keysOf reversed calls := by
    intro hmem
    obtain ⟨c, -, hc⟩ := List.mem_map.mp hmem
    exact routeKey_ne_nil c.1 hc
  obtain ⟨t, ht, hlookup, hsearch⟩ := search_spec reversed value hnodup hne
  have hall : insertAll reversed calls = some ⟨t⟩ := by
    have htree := foldlM_insertRoute value .nil hvalue
    rw [show ((keysOf reversed calls).foldlM
      (fun (t : Tst (Route β)) k => t.insert (stored reversed k) (value k)) .nil) = some t from ht]
      at htree
    exact htree
  refine ⟨t, hall, fun target htarget r => ?_, fun c hc => ?_⟩
  · rw [hsearch target htarget]
    constructor
    · rintro ⟨k, hk, rfl⟩
      obtain ⟨c, hc, rfl⟩ := List.mem_map.mp (mem_of_found hk)
      exact ⟨c, hc, hk, (hvalue c hc).symm⟩
    · rintro ⟨c, hc, hk, rfl⟩
      exact ⟨_, hk, hvalue c hc⟩
  · -- the key has a value already
    obtain ⟨x, rest, hstored⟩ : ∃ x rest, stored reversed (routeKey reversed c.1) = x :: rest := by
      refine List.exists_cons_of_ne_nil ?_
      cases reversed with
      | false => exact routeKey_ne_nil c.1
      | true => simpa [stored] using routeKey_ne_nil c.1
    have hvalued := hlookup _ hc
    rw [hstored] at hvalued
    rw [insertRoute_eq, hstored, Option.map_eq_none_iff]
    exact (insertBase_eq_none_iff _ t x rest).mpr hvalued

theorem lookupRoute_eq_some_iff {t : Tst (Route β)} {target : List Byte} {r : Route β} :
    lookupRoute bstringMatch reversed ⟨t⟩ target = some r ↔
      t.searchBy reversed target = some r ∧
        (r.hasPattern = true → bstringMatch target r.pattern = true) := by
  have hlookup : lookupRoute bstringMatch reversed ⟨t⟩ target =
      checked bstringMatch target (t.searchBy reversed target) := by
    cases reversed <;> rfl
  rw [hlookup, checked, Option.filter_eq_some_iff]
  simp [imp_iff_not_or]

/-- In a map of routes whose keys differ, a route can be returned exactly if it can be
reached. -/
theorem exists_lookupRoute_iff {t : Tst (Route β)}
    (hsearch : ∀ target, target ≠ [] → ∀ r, t.searchBy reversed target = some r ↔
      ∃ c ∈ calls, Found reversed (keysOf reversed calls) target (routeKey reversed c.1) ∧
        routeOf reversed c = r) (hc : c ∈ calls) :
    (∃ target, lookupRoute bstringMatch reversed ⟨t⟩ target = some (routeOf reversed c)) ↔
      Reachable bstringMatch reversed (keysOf reversed calls) c := by
  constructor
  · rintro ⟨target, hlookup⟩
    obtain ⟨hfound, hmatch⟩ := lookupRoute_eq_some_iff.mp hlookup
    have htarget : target ≠ [] := by
      rintro rfl
      have hnone : t.searchBy reversed [] = none := by cases reversed <;> rfl
      rw [hnone] at hfound
      exact absurd hfound (by simp)
    obtain ⟨c', -, hkey, hroute⟩ := (hsearch target htarget _).mp hfound
    have hpattern : c'.1 = c.1 := congrArg Route.pattern hroute
    rw [hpattern] at hkey
    exact ⟨target, htarget, hkey, hmatch⟩
  · rintro ⟨target, htarget, hkey, hmatch⟩
    exact ⟨target, lookupRoute_eq_some_iff.mpr
      ⟨(hsearch target htarget _).mpr ⟨c, hc, hkey, rfl⟩, hmatch⟩⟩

/-! ### Runs -/

/-- What holds while the routes coexist: the map is the one of the calls. -/
structure Kept (bstringMatch : List Byte → List Byte → Bool) (reversed : Bool) (s : Inserts β) :
    Prop where
  map : s.map = insertAll reversed s.calls
  nodup : (keysOf reversed s.calls).Nodup
  coexist : Coexist bstringMatch reversed s

theorem keysOf_append (calls : List (List Byte × β)) (c : List Byte × β) :
    keysOf reversed (calls ++ [c]) = keysOf reversed calls ++ [routeKey reversed c.1] :=
  List.map_append

/-- A map is made of routes whose keys differ. -/
theorem nodup_of_insertAll {map : RouteMap β} (h : insertAll reversed calls = some map) :
    (keysOf reversed calls).Nodup := by
  induction calls using List.reverseRecOn generalizing map with
  | nil => exact List.nodup_nil
  | append_singleton calls c ih =>
    rw [insertAll_append, Option.bind_eq_some_iff] at h
    obtain ⟨map', hmap', hc⟩ := h
    have hnodup := ih hmap'
    obtain ⟨t, hall, -, hdup⟩ := insertAll_spec hnodup
    obtain rfl : map' = ⟨t⟩ := Option.some.inj (hmap'.symm.trans hall)
    have hkey : routeKey reversed c.1 ∉ keysOf reversed calls := by
      intro hmem
      rw [hdup c hmem] at hc
      exact absurd hc (by simp)
    rw [keysOf_append, List.nodup_append]
    refine ⟨hnodup, List.nodup_singleton _, fun k hk k' hk' heq => hkey ?_⟩
    rw [← List.mem_singleton.mp hk', ← heq]
    exact hk

theorem coexist_append_iff {s : Inserts β} (h : Kept bstringMatch reversed s) :
    Coexist bstringMatch reversed ⟨s.map.bind (insertRoute reversed · c), s.calls ++ [c]⟩ ↔
      Room bstringMatch reversed s c := by
  obtain ⟨t, hall, -, hdup⟩ := insertAll_spec h.nodup
  by_cases hkey : routeKey reversed c.1 ∈ keysOf reversed s.calls
  · -- the assertion fails
    refine iff_of_false ?_ fun hroom => hroom.1 hkey
    rintro ⟨map, hmap, -⟩
    rw [h.map, hall, Option.bind_some, hdup c hkey] at hmap
    exact absurd hmap (by simp)
  · have hnodup : (keysOf reversed (s.calls ++ [c])).Nodup := by
      rw [keysOf_append, List.nodup_append]
      refine ⟨h.nodup, List.nodup_singleton _, fun k hk k' hk' heq => hkey ?_⟩
      rw [← List.mem_singleton.mp hk', ← heq]
      exact hk
    obtain ⟨t', hall', hsearch, -⟩ := insertAll_spec hnodup
    have hmap : s.map.bind (insertRoute reversed · c) = some ⟨t'⟩ := by
      rw [h.map, ← insertAll_append, hall']
    rw [Room, and_iff_right hkey, hmap]
    constructor
    · rintro ⟨map, heq, hroutes⟩ c' hc'
      obtain rfl := Option.some.inj heq
      exact (exists_lookupRoute_iff hsearch hc').mp (hroutes c' hc')
    · intro hroutes
      exact ⟨_, rfl, fun c' hc' => (exists_lookupRoute_iff hsearch hc').mpr (hroutes c' hc')⟩

theorem kept_start : Kept bstringMatch reversed (Inserts.start : Inserts β) :=
  ⟨rfl, List.nodup_nil, _, rfl, fun _ hc => absurd hc List.not_mem_nil⟩

/-- **Routes coexist throughout** exactly if each is inserted where there is room for it. -/
theorem coexist_iff (bstringMatch : List Byte → List Byte → Bool) (reversed : Bool)
    (calls : List (List Byte × β)) :
    Runs.Always (step reversed) (Coexist bstringMatch reversed) Inserts.start calls ↔
      Runs.Along (step reversed) (Room bstringMatch reversed) Inserts.start calls := by
  refine @Runs.always_iff_along_of_inv _ _ (step reversed) _ (Kept bstringMatch reversed) _
    (fun _ => True) (fun _ h => h.coexist) ?_ ?_ _ _ kept_start fun _ _ => trivial
  · rintro s c s' h - hroom hstep
    obtain rfl := Option.some.inj hstep
    refine ⟨?_, ?_, (coexist_append_iff h).mpr hroom⟩
    · show s.map.bind _ = _
      rw [h.map, ← insertAll_append]
    · show (keysOf reversed (s.calls ++ [c])).Nodup
      rw [keysOf_append, List.nodup_append]
      refine ⟨h.nodup, List.nodup_singleton _, fun k hk k' hk' heq => hroom.1 ?_⟩
      rw [← List.mem_singleton.mp hk', ← heq]
      exact hk
  · intro s c h _ hroom
    exact ⟨_, rfl, fun hcoexist => hroom ((coexist_append_iff h).mp hcoexist)⟩

end

/-- Two patterns behind one prefix: the second insertion aborts. -/
theorem not_coexist_samePrefix :
    ¬ Runs.Always (step false) (Coexist (fun t r => (Pattern.bstringMatch t r).isSome) false)
      (Inserts.start : Inserts ℕ) [(bytes "/a(b)", 1), (bytes "/a(c)", 2)] := by
  intro h
  have habort : ((Inserts.start : Inserts ℕ).map.bind
      (insertRoute false · (bytes "/a(b)", 1))).bind (insertRoute false · (bytes "/a(c)", 2)) =
        none := by
    decide
  obtain ⟨map, hmap, -⟩ := (h.2 _ rfl).2 _ rfl
  exact absurd (habort.symm.trans hmap) (by simp)

end RouteMap

end Mongrel2

/-
A route and its pattern (`routing.c`, `pattern.c`).

* `Reads` — what a literal prefix matches when it is read as a pattern;
* `isSome_run_append` — the match of a prefix, and then of what follows it;
* **`agrees_iff`** — the tree and the pattern agree on the route `P(Q)` exactly as far as `Q`
  means the same between `P` and `)` as alone, for each `Q`, if and only if `P` as a pattern
  stands for itself;
* `exactly_of_notMem` — it does if there is no `-` behind its first byte.

Design notes: a path that has the prefix is compared with the whole pattern once more, where a
`-` behind another byte makes it optional, and a `.` is any byte.
-/
import Mongrel2.Pattern
import Mongrel2.RouteInserts

namespace Mongrel2.Pattern

open ByteStream HttpParser RouteMap

/-! ### Prefixes as patterns -/

/-- The bytes of a prefix. -/
def isLiteral (c : Byte) : Bool :=
  isAlnum c || c == chr '/' || c == chr '-' || c == chr '.' || c == chr '_' || c == chr '~'

/-- The pieces of a prefix. -/
def prefixPieces : List Byte → List Piece
  | [] => []
  | [x] => [.item [x] .one]
  | x :: y :: p =>
    if y = chr '-' then .item [x] .minus :: prefixPieces p
    else .item [x] .one :: prefixPieces (y :: p)

/-- A prefix, as a pattern, matches a string as a whole. -/
def Reads : List Byte → List Byte → Prop
  | [], w => w = []
  | [x], w => ∃ c, w = [c] ∧ singlematch c [x] = true
  | x :: y :: p, w =>
    if y = chr '-' then
      ∃ u v, w = u ++ v ∧ (∀ c ∈ u, singlematch c [x] = true) ∧ Reads p v
    else ∃ c v, w = c :: v ∧ singlematch c [x] = true ∧ Reads (y :: p) v

section

variable {c b : Byte} {p q rest : List Byte} {ps : List Piece}

theorem ne_of_isLiteral (hc : isLiteral c = true) (hb : isLiteral b = false) : c ≠ b := by
  rintro rfl
  rw [hc] at hb
  exact absurd hb (by simp)

/-- A byte that does not stand for anything. -/
def isPlain (c : Byte) : Bool :=
  c ≠ chr '(' && c ≠ chr ')' && c ≠ esc && c ≠ chr '[' && c ≠ chr '$'

theorem parses_plain (hc : isPlain c = true) (hp : Parses (repetition rest).2 ps) :
    Parses (c :: rest) (.item [c] (repetition rest).1 :: ps) := by
  simp only [isPlain, Bool.and_eq_true, decide_eq_true_eq, ne_eq, and_assoc] at hc
  obtain ⟨hopen, hclose, hesc, hbracket, hanchor⟩ := hc
  have hend : classend (c :: rest) = some ([c], rest) := by
    rw [classend, if_neg hesc, if_neg hbracket]
  exact .item (not_or.mpr ⟨hopen, hclose⟩) (fun h => hesc h.1) (fun h => hesc h.1)
    (fun h => hanchor h.1) hend hp

theorem isPlain_of_isLiteral (hc : isLiteral c = true) : isPlain c = true := by
  have hne : ∀ b, isLiteral b = false → c ≠ b := fun b hb => ne_of_isLiteral hc hb
  simp only [isPlain, Bool.and_eq_true, decide_eq_true_eq, and_assoc]
  exact ⟨hne _ (by decide), hne _ (by decide), hne _ (by decide), hne _ (by decide),
    hne _ (by decide)⟩

/-- A byte of a prefix is an item. -/
theorem parses_literal (hc : isLiteral c = true) (hp : Parses (repetition rest).2 ps) :
    Parses (c :: rest) (.item [c] (repetition rest).1 :: ps) :=
  parses_plain (isPlain_of_isLiteral hc) hp

theorem repetition_of_ne (hopt : c ≠ chr '?') (hstar : c ≠ chr '*') (hplus : c ≠ chr '+')
    (hminus : c ≠ chr '-') : repetition (c :: rest) = (.one, c :: rest) := by
  have hhead : ∀ x, c ≠ x → (c :: rest).head? ≠ some x := fun x hx h => hx (Option.some.inj h)
  rw [repetition, if_neg (hhead _ hopt), if_neg (hhead _ hstar), if_neg (hhead _ hplus),
    if_neg (hhead _ hminus)]

theorem repetition_of_isLiteral (hc : isLiteral c = true) (hne : c ≠ chr '-') :
    repetition (c :: rest) = (.one, c :: rest) :=
  repetition_of_ne (ne_of_isLiteral hc (by decide)) (ne_of_isLiteral hc (by decide))
    (ne_of_isLiteral hc (by decide)) hne

theorem repetition_minus (rest : List Byte) : repetition (chr '-' :: rest) = (.minus, rest) := rfl

/-- A prefix in front of what is no repetition. -/
theorem parses_append (hp : ∀ c ∈ p, isLiteral c = true) (hrest : repetition rest = (.one, rest))
    (hps : Parses rest ps) : Parses (p ++ rest) (prefixPieces p ++ ps) := by
  induction p using prefixPieces.induct with
  | case1 => exact hps
  | case2 x =>
    have hparse := @parses_literal x rest ps (hp x (by simp)) (by rw [hrest]; exact hps)
    rw [hrest] at hparse
    exact hparse
  | case3 x p ih =>
    have hrep := repetition_minus (p ++ rest)
    have hps' := ih fun c hc => hp c (by simp [hc])
    have hparse := @parses_literal x (chr '-' :: (p ++ rest)) _ (hp x (by simp))
      (by rw [hrep]; exact hps')
    rw [hrep] at hparse
    rw [prefixPieces, if_pos rfl]
    exact hparse
  | case4 x y p hne ih =>
    have hrep : repetition (y :: p ++ rest) = (.one, y :: p ++ rest) :=
      repetition_of_isLiteral (hp y (by simp)) hne
    have hps' := ih fun c hc => hp c (List.mem_cons_of_mem x hc)
    have hparse := @parses_literal x (y :: p ++ rest) _ (hp x (by simp))
      (by rw [hrep]; exact hps')
    rw [hrep] at hparse
    rw [prefixPieces, if_neg hne]
    exact hparse

/-! ### Matching a prefix -/

theorem isSome_orElse {α : Type*} (o : Option α) (f : Unit → Option α) :
    (o.orElse f).isSome = true ↔ o.isSome = true ∨ (f ()).isSome = true := by
  cases o <;> simp

theorem isSome_minExpand (k : Subject → Option Subject) (text : List Byte) (prev : Byte)
    (rest : List Byte) :
    (minExpand k text prev rest).isSome = true ↔
      ∃ u v, rest = u ++ v ∧ (∀ c ∈ u, singlematch c text = true) ∧
        (k ⟨u.getLastD prev, v⟩).isSome = true := by
  induction rest generalizing prev with
  | nil =>
    rw [minExpand]
    constructor
    · exact fun h => ⟨[], [], rfl, by simp, h⟩
    · rintro ⟨u, v, huv, -, hk⟩
      obtain ⟨rfl, rfl⟩ := List.append_eq_nil_iff.mp huv.symm
      exact hk
  | cons c rest ih =>
    rw [minExpand, isSome_orElse]
    constructor
    · rintro (h | h)
      · exact ⟨[], c :: rest, rfl, by simp, h⟩
      · split_ifs at h with hm
        · obtain ⟨u, v, rfl, hu, hk⟩ := (ih c).mp h
          refine ⟨c :: u, v, rfl, ?_, ?_⟩
          · exact List.forall_mem_cons.mpr ⟨hm, hu⟩
          · rw [List.getLastD_cons]
            exact hk
        · exact absurd h (by simp)
    · rintro ⟨u, v, huv, hu, hk⟩
      cases u with
      | nil =>
        obtain rfl : v = c :: rest := huv.symm
        exact .inl hk
      | cons d u =>
        obtain ⟨rfl, rfl⟩ := List.cons.inj huv
        rw [List.forall_mem_cons] at hu
        rw [if_pos hu.1]
        rw [List.getLastD_cons] at hk
        exact .inr ((ih _).mpr ⟨u, v, rfl, hu.2, hk⟩)

theorem isSome_dflt_one (k : Subject → Option Subject) (text : List Byte) (s : Subject) :
    (dflt k text .one s).isSome = true ↔
      ∃ c v, s.rest = c :: v ∧ singlematch c text = true ∧ (k ⟨c, v⟩).isSome = true := by
  obtain ⟨prev, rest⟩ := s
  cases rest with
  | nil => simp [dflt]
  | cons c v =>
    have hstep : dflt k text .one ⟨prev, c :: v⟩ =
        if singlematch c text = true then k ⟨c, v⟩ else none := rfl
    rw [hstep]
    constructor
    · intro h
      split_ifs at h with hm
      · exact ⟨c, v, rfl, hm, h⟩
      · exact absurd h (by simp)
    · rintro ⟨d, v', heq, hm, hk⟩
      obtain ⟨rfl, rfl⟩ := List.cons.inj heq
      rw [if_pos hm]
      exact hk

theorem getLastD_append (u w : List Byte) (a : Byte) :
    (u ++ w).getLastD a = w.getLastD (u.getLastD a) := by
  induction u generalizing a with
  | nil => rfl
  | cons c u ih => rw [List.cons_append, List.getLastD_cons, List.getLastD_cons, ih]

/-- **A prefix matches what it reads**, and what follows it the rest. -/
theorem isSome_run_append (p : List Byte) (ps : List Piece) (s : Subject) :
    (run (prefixPieces p ++ ps) s).isSome = true ↔
      ∃ w rest, s.rest = w ++ rest ∧ Reads p w ∧
        (run ps ⟨w.getLastD s.prev, rest⟩).isSome = true := by
  induction p using prefixPieces.induct generalizing s with
  | case1 =>
    constructor
    · exact fun h => ⟨[], s.rest, rfl, rfl, h⟩
    · rintro ⟨w, rest, hrest, rfl, h⟩
      obtain ⟨prev, rest'⟩ := s
      obtain rfl : rest' = rest := hrest
      exact h
  | case2 x =>
    show (dflt (run ps) [x] .one s).isSome = true ↔ _
    rw [isSome_dflt_one]
    constructor
    · rintro ⟨c, v, hrest, hm, h⟩
      exact ⟨[c], v, hrest, ⟨c, rfl, hm⟩, h⟩
    · rintro ⟨w, rest, hrest, ⟨c, rfl, hm⟩, h⟩
      exact ⟨c, rest, hrest, hm, h⟩
  | case3 x p ih =>
    rw [prefixPieces, if_pos rfl]
    show (minExpand (run (prefixPieces p ++ ps)) [x] s.prev s.rest).isSome = true ↔ _
    rw [isSome_minExpand]
    constructor
    · rintro ⟨u, v, hrest, hu, h⟩
      obtain ⟨w, rest, hv, hw, h⟩ := (ih _).mp h
      obtain rfl : v = w ++ rest := hv
      refine ⟨u ++ w, rest, by rw [hrest, List.append_assoc], ?_, ?_⟩
      · rw [Reads, if_pos rfl]
        exact ⟨u, w, rfl, hu, hw⟩
      · rw [getLastD_append]
        exact h
    · rintro ⟨w, rest, hrest, hw, h⟩
      rw [Reads, if_pos rfl] at hw
      obtain ⟨u, v, rfl, hu, hv⟩ := hw
      rw [getLastD_append] at h
      exact ⟨u, v ++ rest, by rw [hrest, List.append_assoc], hu, (ih _).mpr ⟨v, rest, rfl, hv, h⟩⟩
  | case4 x y p hne ih =>
    rw [prefixPieces, if_neg hne]
    show (dflt (run (prefixPieces (y :: p) ++ ps)) [x] .one s).isSome = true ↔ _
    rw [isSome_dflt_one]
    constructor
    · rintro ⟨c, v, hrest, hm, h⟩
      obtain ⟨w, rest, hv, hw, h⟩ := (ih _).mp h
      refine ⟨c :: w, rest, by rw [hrest]; exact congrArg _ hv, ?_, ?_⟩
      · rw [Reads, if_neg hne]
        exact ⟨c, w, rfl, hm, hw⟩
      · rw [List.getLastD_cons]
        exact h
    · rintro ⟨w, rest, hrest, hw, h⟩
      rw [Reads, if_neg hne] at hw
      obtain ⟨c, v, rfl, hm, hv⟩ := hw
      rw [List.getLastD_cons] at h
      exact ⟨c, v ++ rest, hrest, hm, (ih _).mpr ⟨v, rest, rfl, hv, h⟩⟩

theorem zero_notMem_of_isLiteral (hp : ∀ c ∈ p, isLiteral c = true) : 0 ∉ p := fun h =>
  absurd (hp 0 h) (by decide)

/-- A prefix with a `$` behind it matches a string that it reads. -/
theorem bstringMatch_anchored (hp : ∀ c ∈ p, isLiteral c = true) (w : List Byte) :
    (bstringMatch w (p ++ [chr '$'])).isSome = true ↔ Reads p w := by
  have hzero : 0 ∉ p ++ [chr '$'] := by
    rw [List.mem_append, not_or]
    exact ⟨zero_notMem_of_isLiteral hp, by decide⟩
  rw [bstringMatch, matchFrom_of_parses (parses_append hp rfl .anchor) (cstr_of_notMem hzero),
    isSome_run_append]
  constructor
  · rintro ⟨u, rest, hrest, hu, h⟩
    obtain rfl : w = u ++ rest := hrest
    have hnil : rest = [] := by
      by_contra hne
      rw [run, if_neg hne] at h
      exact absurd h (by simp)
    rwa [hnil, List.append_nil]
  · intro hw
    exact ⟨w, [], (List.append_nil w).symm, hw, rfl⟩

/-! ### What stands between the parentheses -/

/-- A pattern to stand between the parentheses of a route. -/
structure WellFormed (q : List Byte) : Prop where
  parses : ∃ ps, Parses q ps
  zero : 0 ∉ q
  noRepetition : (repetition q).1 = .one

/-- A byte that marks no repetition can be added. -/
theorem repetition_append (hb : repetition [b] = (.one, [b])) (ep : List Byte) :
    repetition (ep ++ [b]) = ((repetition ep).1, (repetition ep).2 ++ [b]) := by
  cases ep with
  | nil => exact hb
  | cons c ep =>
    by_cases hopt : c = chr '?'
    · rw [hopt]
      rfl
    by_cases hstar : c = chr '*'
    · rw [hstar]
      rfl
    by_cases hplus : c = chr '+'
    · rw [hplus]
      rfl
    by_cases hminus : c = chr '-'
    · rw [hminus]
      rfl
    rw [List.cons_append, repetition_of_ne hopt hstar hplus hminus,
      repetition_of_ne hopt hstar hplus hminus]
    rfl

/-- Before the parenthesis a `$` is a byte. -/
theorem Parses.append_paren (h : Parses q ps) : ∃ ps', Parses (q ++ [chr ')']) ps' := by
  have hparen : Parses [chr ')'] [] := .paren (.inr rfl) .nil
  induction h with
  | nil => exact ⟨_, hparen⟩
  | paren hc _ ih =>
    obtain ⟨ps', h⟩ := ih
    exact ⟨ps', .paren hc h⟩
  | balance _ ih =>
    obtain ⟨ps', h⟩ := ih
    exact ⟨_, .balance h⟩
  | @frontier p text ep _ hb hend _ ih =>
    obtain ⟨ps', h⟩ := ih
    obtain ⟨hend', hsplit, -⟩ := classend_append hend [chr ')']
    refine ⟨_, .frontier ?_ hend' h⟩
    cases p with
    | nil => exact absurd hb (by simp)
    | cons c p => exact hb
  | anchor =>
    refine ⟨_, @Parses.item (chr '$') [chr ')'] _ _ _ ?_ ?_ ?_ ?_ rfl hparen⟩ <;> decide
  | @item c p text ep _ hc hb hf hanchor hend _ ih =>
    obtain ⟨ps', h⟩ := ih
    obtain ⟨hend', -, -⟩ := classend_append hend [chr ')']
    have hrep := @repetition_append (chr ')') rfl ep
    have hhead : ∀ x, c = esc → (p ++ [chr ')']).head? = some x → p.head? = some x := by
      rintro x rfl hx
      cases p with
      | nil => exact absurd hend (by simp [classend])
      | cons d p => exact hx
    have hp : Parses (repetition (ep ++ [chr ')'])).2 ps' := by
      rw [hrep]
      exact h
    exact ⟨_, .item hc (fun h => hb ⟨h.1, hhead _ h.1 h.2⟩) (fun h => hf ⟨h.1, hhead _ h.1 h.2⟩)
      (fun h => absurd h.2 (by simp)) hend' hp⟩

/-! ### One route -/

/-- The pattern of a route. -/
def routePattern (p q : List Byte) : List Byte := p ++ chr '(' :: (q ++ [chr ')'])

/-- Of the map that holds just this route. -/
def oneRoute {β : Type*} (p q : List Byte) (data : β) : Option (RouteMap β) :=
  RouteMap.create.insert (routePattern p q) data

/-- The route is returned for the prefix with what its pattern matches from the start. -/
def Agrees {β : Type*} (p q : List Byte) (data : β) : Prop :=
  ∃ map, oneRoute p q data = some map ∧ ∀ path,
    map.simplePrefixMatch (fun t r => (bstringMatch t r).isSome) path =
        some ⟨routePattern p q, data, true⟩ ↔
      ∃ s, path = p ++ s ∧ (bstringMatch s q).isSome = true

/-- Between the prefix and the parenthesis a pattern matches what it matches alone. -/
def InPlace (p q : List Byte) : Prop :=
  ∀ s, (matchFrom ⟨p.getLastD 0, s⟩ (q ++ [chr ')'])).isSome = (bstringMatch s q).isSome

/-- As a pattern, the prefix matches no other string that begins as it does, or that it begins
with. -/
def Exactly (p : List Byte) : Prop :=
  ∀ w, (w <+: p ∨ p <+: w) → ((bstringMatch w (p ++ [chr '$'])).isSome = true ↔ w = p)

theorem routeKey_routePattern (hne : p ≠ []) (hp : ∀ c ∈ p, isLiteral c = true) :
    routeKey false (routePattern p q) = p := by
  have hpos : ∀ c ∈ p, decide (c ≠ chr '(') = true := fun c hc =>
    decide_eq_true (ne_of_isLiteral (hp c hc) (by decide))
  have htake : (routePattern p q).takeWhile (· ≠ chr '(') = p := by
    rw [routePattern, List.takeWhile_append_of_pos hpos, List.takeWhile_cons_of_neg (by simp),
      List.append_nil]
  show orZero ((routePattern p q).takeWhile (· ≠ chr '(')) = p
  rw [htake, orZero, if_neg hne]

/-- In a tree of one key the key is found for what it begins. -/
theorem found_singleton_iff (k s : List Byte) : Tst.Found false [k] s k ↔ k <+: s := by
  show Tst.FoundPrefix [k] s k ↔ _
  constructor
  · rintro (⟨-, rfl⟩ | ⟨-, hk⟩)
    · exact List.prefix_refl k
    · exact hk.meets
  · intro hk
    by_cases heq : k = s
    · exact .inl ⟨List.mem_singleton_self k, heq⟩
    · refine .inr ⟨fun k' hk' hs => heq ?_, List.mem_singleton_self k, hk, fun k' hk' _ => ?_⟩
      · rw [List.mem_singleton.mp hk'] at hs
        exact hk.eq_of_length_le hs.length_le
      · rw [List.mem_singleton.mp hk']

/-- What the map with one route answers. -/
theorem exists_oneRoute {β : Type*} (hne : p ≠ []) (hp : ∀ c ∈ p, isLiteral c = true)
    (q : List Byte) (data : β) :
    ∃ map, oneRoute p q data = some map ∧ ∀ path,
      map.simplePrefixMatch (fun t r => (bstringMatch t r).isSome) path =
          some ⟨routePattern p q, data, true⟩ ↔
        ∃ s, path = p ++ s ∧ (bstringMatch path (routePattern p q)).isSome = true := by
  have hkey : routeKey false (routePattern p q) = p := routeKey_routePattern hne hp
  have hroute : routeOf false (routePattern p q, data) = ⟨routePattern p q, data, true⟩ := by
    have hmem : chr '(' ∈ routePattern p q := by simp [routePattern]
    simp [routeOf, hmem]
  have hkeys : keysOf false [(routePattern p q, data)] = [p] := by
    show [routeKey false (routePattern p q)] = [p]
    rw [hkey]
  obtain ⟨t, hall, hsearch, -⟩ := @insertAll_spec β false [(routePattern p q, data)]
    (by rw [hkeys]; exact List.nodup_singleton p)
  rw [hkeys] at hsearch
  refine ⟨⟨t⟩, (insertAll_append [] (routePattern p q, data)).symm.trans hall, fun path => ?_⟩
  have hlookup := @lookupRoute_eq_some_iff β (fun t r => (bstringMatch t r).isSome) false t path
    ⟨routePattern p q, data, true⟩
  refine hlookup.trans ?_
  by_cases hpath : path = []
  · subst hpath
    refine iff_of_false (fun h => absurd h.1 (by simp [Tst.searchBy, Tst.searchPrefix])) ?_
    rintro ⟨s, hs, -⟩
    exact hne (List.append_eq_nil_iff.mp hs.symm).1
  · rw [hsearch path hpath]
    constructor
    · rintro ⟨⟨c, hc, hfound, -⟩, hmatch⟩
      obtain rfl := List.mem_singleton.mp hc
      rw [hkey, found_singleton_iff] at hfound
      obtain ⟨s, rfl⟩ := hfound
      exact ⟨s, rfl, hmatch rfl⟩
    · rintro ⟨s, rfl, hmatch⟩
      refine ⟨⟨_, List.mem_singleton_self _, ?_, hroute⟩, fun _ => hmatch⟩
      rw [hkey, found_singleton_iff]
      exact List.prefix_append p s

/-- The pattern of a route matches what the prefix reads and then the rest. -/
theorem bstringMatch_routePattern (hp : ∀ c ∈ p, isLiteral c = true) (hq : WellFormed q)
    (path : List Byte) :
    (bstringMatch path (routePattern p q)).isSome = true ↔
      ∃ w rest, path = w ++ rest ∧ Reads p w ∧
        (matchFrom ⟨w.getLastD 0, rest⟩ (q ++ [chr ')'])).isSome = true := by
  obtain ⟨ps, hps⟩ := hq.parses
  obtain ⟨ps', hps'⟩ := hps.append_paren
  have hzero' : 0 ∉ q ++ [chr ')'] := by
    rw [List.mem_append, not_or]
    exact ⟨hq.zero, by decide⟩
  have hzero : 0 ∉ routePattern p q := by
    rw [routePattern, List.mem_append, not_or, List.mem_cons, not_or]
    exact ⟨zero_notMem_of_isLiteral hp, by decide, hzero'⟩
  have hparse : Parses (routePattern p q) (prefixPieces p ++ ps') :=
    parses_append hp rfl (.paren (.inl rfl) hps')
  rw [bstringMatch, matchFrom_of_parses hparse (cstr_of_notMem hzero), isSome_run_append]
  refine exists_congr fun w => exists_congr fun rest => ?_
  rw [matchFrom_of_parses hps' (cstr_of_notMem hzero')]

/-! ### When they agree -/

/-- The route is returned where the prefix reads a part of the path and the rest matches. -/
theorem agrees_iff_reads {β : Type*} (data : β) (hne : p ≠ []) (hp : ∀ c ∈ p, isLiteral c = true)
    (hq : WellFormed q) :
    Agrees p q data ↔ ∀ s,
      (∃ w rest, p ++ s = w ++ rest ∧ Reads p w ∧
          (matchFrom ⟨w.getLastD 0, rest⟩ (q ++ [chr ')'])).isSome = true) ↔
        (bstringMatch s q).isSome = true := by
  obtain ⟨map, hmap, hanswer⟩ := exists_oneRoute hne hp q data
  constructor
  · rintro ⟨map', hmap', hagrees⟩ s
    obtain rfl : map = map' := Option.some.inj (hmap.symm.trans hmap')
    rw [← bstringMatch_routePattern hp hq]
    constructor
    · intro h
      obtain ⟨s', hs', hmatch⟩ := (hagrees (p ++ s)).mp ((hanswer _).mpr ⟨s, rfl, h⟩)
      rwa [List.append_cancel_left hs']
    · intro h
      obtain ⟨-, -, hmatch⟩ := (hanswer (p ++ s)).mp ((hagrees _).mpr ⟨s, rfl, h⟩)
      exact hmatch
  · intro h
    refine ⟨map, hmap, fun path => (hanswer path).trans (exists_congr fun s => ?_)⟩
    refine and_congr_right fun hpath => ?_
    rw [hpath, bstringMatch_routePattern hp hq, h s]

/-- A prefix that stands for itself reads no other part of a path. -/
theorem Exactly.reads_iff (h : Exactly p) (hp : ∀ c ∈ p, isLiteral c = true)
    {s w : List Byte} (hw : p ++ s = w ++ rest) : Reads p w ↔ w = p := by
  have hcomp : w <+: p ∨ p <+: w :=
    List.prefix_or_prefix_of_prefix (hw ▸ List.prefix_append w rest) (List.prefix_append p s)
  rw [← bstringMatch_anchored hp, h w hcomp]

/-- A pattern of one byte, or of any byte, is in place. -/
theorem single_spec (p : List Byte) (hb : b = 1 ∨ b = 2 ∨ b = chr '.') :
    WellFormed [b] ∧ InPlace p [b] ∧ ∀ s : Subject,
      (matchFrom s ([b] ++ [chr ')'])).isSome = s.rest.head?.any (singlematch · [b]) := by
  have hone : ∀ s : Subject, (dflt (run []) [b] .one s).isSome =
      s.rest.head?.any (singlematch · [b]) := by
    intro s
    show (if s.rest.head?.any (singlematch · [b]) then some s.next else none).isSome = _
    cases s.rest.head?.any (singlematch · [b]) <;> rfl
  obtain ⟨hplain, hparen, hzero, hrep⟩ : Parses [b] [.item [b] .one] ∧
      Parses ([b] ++ [chr ')']) [.item [b] .one] ∧ (0 ∉ [b]) ∧ (repetition [b]).1 = .one := by
    have hend : Parses [chr ')'] [] := .paren (.inr rfl) .nil
    have hplain : isPlain b = true := by obtain rfl | rfl | rfl := hb <;> rfl
    refine ⟨@parses_plain b [] _ hplain .nil, @parses_plain b [chr ')'] _ hplain hend, ?_, ?_⟩
    · obtain rfl | rfl | rfl := hb <;> decide
    · obtain rfl | rfl | rfl := hb <;> rfl
  have hzero' : 0 ∉ [b] ++ [chr ')'] := by
    rw [List.mem_append, not_or]
    exact ⟨hzero, by decide⟩
  have hbehind : ∀ s : Subject, (matchFrom s ([b] ++ [chr ')'])).isSome =
      s.rest.head?.any (singlematch · [b]) := fun s => by
    rw [matchFrom_of_parses hparen (cstr_of_notMem hzero')]
    exact hone s
  refine ⟨⟨⟨_, hplain⟩, hzero, hrep⟩, fun s => ?_, hbehind⟩
  rw [hbehind, bstringMatch, matchFrom_of_parses hplain (cstr_of_notMem hzero)]
  exact (hone ⟨0, s⟩).symm

/-- A pattern of one byte tells a prefix that does not stand for itself. -/
theorem not_reads_of_agrees {β : Type*} {data : β} (hne : p ≠ [])
    (hp : ∀ c ∈ p, isLiteral c = true) (hb : b = 1 ∨ b = 2 ∨ b = chr '.')
    (h : ∀ q, WellFormed q → (Agrees p q data ↔ InPlace p q)) (s : List Byte) :
    (∃ w rest, p ++ s = w ++ rest ∧ Reads p w ∧ rest.head?.any (singlematch · [b]) = true) ↔
      s.head?.any (singlematch · [b]) = true := by
  obtain ⟨hwell, hplace, hmatch⟩ := single_spec p hb
  have hagrees := (agrees_iff_reads data hne hp hwell).mp ((h _ hwell).mpr hplace) s
  rw [← hplace s, hmatch] at hagrees
  simpa only [hmatch] using hagrees

theorem singlematch_one (c : Byte) : singlematch c [1] = true ↔ c = 1 := by
  show ((1 : Byte) == c) = true ↔ c = 1
  rw [beq_iff_eq, eq_comm]

theorem singlematch_two (c : Byte) : singlematch c [2] = true ↔ c = 2 := by
  show ((2 : Byte) == c) = true ↔ c = 2
  rw [beq_iff_eq, eq_comm]

/-- One of the two marks is another byte. -/
theorem exists_mark (c : Byte) :
    ∃ b : Byte, (b = 1 ∨ b = 2) ∧ singlematch b [b] = true ∧ ¬ singlematch c [b] = true := by
  by_cases hc : c = 1
  · refine ⟨2, .inr rfl, rfl, fun h => ?_⟩
    rw [singlematch_two, hc] at h
    exact absurd h (by decide)
  · exact ⟨1, .inl rfl, rfl, fun h => hc ((singlematch_one c).mp h)⟩

/-- The mark ends what has no mark. -/
theorem eq_of_append_mark {v : List Byte} (hmem : b ∉ p) (h : p ++ [b] = v ++ b :: rest) :
    v = p := by
  rcases List.append_eq_append_iff.mp h with ⟨u, rfl, hu⟩ | ⟨u, rfl, hu⟩
  · have hlen := congrArg List.length hu
    simp only [List.length_append, List.length_cons, List.length_nil] at hlen
    have hnil : u = [] := List.length_eq_zero_iff.mp (by omega)
    rw [hnil, List.append_nil]
  · cases u with
    | nil => rw [List.append_nil]
    | cons c u =>
      obtain ⟨rfl, -⟩ := List.cons.inj hu
      exact absurd (List.mem_append_right v List.mem_cons_self) hmem

/-- **The tree and the pattern agree** on every `Q` as far as it is in place, exactly if the
prefix stands for itself. -/
theorem agrees_iff {β : Type*} (data : β) (hne : p ≠ []) (hp : ∀ c ∈ p, isLiteral c = true) :
    (∀ q, WellFormed q → (Agrees p q data ↔ InPlace p q)) ↔ Exactly p := by
  constructor
  · intro h w hcomp
    rw [bstringMatch_anchored hp]
    constructor
    · intro hw
      by_contra hdiff
      rcases hcomp with ⟨u, rfl⟩ | ⟨u, rfl⟩
      · -- what is left of the prefix is taken for the rest of the path
        have hu : u ≠ [] := fun hnil => hdiff (by rw [hnil, List.append_nil])
        obtain ⟨c, u, rfl⟩ := List.exists_cons_of_ne_nil hu
        have hdot := (not_reads_of_agrees hne hp (.inr (.inr rfl)) h []).mp
          ⟨w, c :: u, List.append_nil _, hw, rfl⟩
        exact absurd hdot (by simp)
      · -- the prefix takes a part of what is behind it
        have hu : u ≠ [] := fun hnil => hdiff (by rw [hnil, List.append_nil])
        obtain ⟨c, u, rfl⟩ := List.exists_cons_of_ne_nil hu
        obtain ⟨b, hb, hself, hother⟩ := exists_mark c
        have hfirst := (not_reads_of_agrees hne hp (hb.imp_right .inl) h (c :: u ++ [b])).mp
          ⟨p ++ c :: u, [b], (List.append_assoc ..).symm, hw, hself⟩
        exact absurd hfirst (by simpa using hother)
    · rintro rfl
      -- a byte that is in no prefix marks the end
      obtain ⟨v, rest, hsplit, hv, hmark⟩ :=
        (not_reads_of_agrees hne hp (.inl rfl) h [1]).mpr (by decide)
      cases rest with
      | nil => exact absurd hmark (by simp)
      | cons x rest =>
        obtain rfl : x = 1 := (singlematch_one x).mp hmark
        have hsame := eq_of_append_mark (fun hmem => absurd (hp 1 hmem) (by decide)) hsplit
        rwa [hsame] at hv
  · intro h q hq
    rw [agrees_iff_reads data hne hp hq]
    refine forall_congr' fun s => ?_
    refine Iff.trans (iff_congr ⟨?_, fun hmatch => ?_⟩ Iff.rfl)
      (@Bool.eq_iff_iff (matchFrom ⟨p.getLastD 0, s⟩ (q ++ [chr ')'])).isSome _).symm
    · rintro ⟨w, rest, hsplit, hw, hmatch⟩
      obtain rfl := (h.reads_iff hp hsplit).mp hw
      rwa [List.append_cancel_left hsplit]
    · exact ⟨p, s, rfl, (h.reads_iff hp (show p ++ s = p ++ s from rfl)).mpr rfl, hmatch⟩

/-- Without a `-` behind its first byte, a prefix reads strings of its own length. -/
theorem length_of_reads {w : List Byte} (hminus : chr '-' ∉ p.tail) (h : Reads p w) :
    w.length = p.length := by
  induction p using prefixPieces.induct generalizing w with
  | case1 => rw [show w = [] from h]
  | case2 x =>
    obtain ⟨c, rfl, -⟩ := h
    rfl
  | case3 x p ih => exact absurd List.mem_cons_self hminus
  | case4 x y p hne ih =>
    rw [Reads, if_neg hne] at h
    obtain ⟨c, v, rfl, -, hv⟩ := h
    have hlen := ih (fun hmem => hminus (List.mem_cons_of_mem y hmem)) hv
    rw [List.length_cons, List.length_cons, hlen]

theorem reads_self (hp : ∀ c ∈ p, isLiteral c = true) (hminus : chr '-' ∉ p.tail) : Reads p p := by
  have hself : ∀ c, isLiteral c = true → singlematch c [c] = true := by
    intro c hc
    have hesc : c ≠ esc := ne_of_isLiteral hc (by decide)
    have hbracket : c ≠ chr '[' := ne_of_isLiteral hc (by decide)
    simp [singlematch, hesc, hbracket]
  induction p using prefixPieces.induct with
  | case1 => rfl
  | case2 x => exact ⟨x, rfl, hself x (hp x (by simp))⟩
  | case3 x p ih => exact absurd List.mem_cons_self hminus
  | case4 x y p hne ih =>
    rw [Reads, if_neg hne]
    refine ⟨x, y :: p, rfl, hself x (hp x (by simp)), ?_⟩
    exact ih (fun c hc => hp c (List.mem_cons_of_mem x hc)) fun hmem =>
      hminus (List.mem_cons_of_mem y hmem)

/-- **A prefix without a `-` behind its first byte stands for itself.** -/
theorem exactly_of_notMem (hp : ∀ c ∈ p, isLiteral c = true) (hminus : chr '-' ∉ p.tail) :
    Exactly p := by
  intro w hcomp
  rw [bstringMatch_anchored hp]
  constructor
  · intro hw
    have hlen := length_of_reads hminus hw
    rcases hcomp with hpre | hpre
    · exact hpre.eq_of_length hlen
    · exact (hpre.eq_of_length hlen.symm).symm
  · rintro rfl
    exact reads_self hp hminus

end

theorem agrees_iff_images :
    (∀ q, WellFormed q → (Agrees (bytes "/images/") q 0 ↔ InPlace (bytes "/images/") q)) ↔
      Exactly (bytes "/images/") :=
  agrees_iff 0 (by decide) (List.all_eq_true.mp (by decide +kernel))

/-- A `-` in a prefix: the route is not returned for the prefix itself. -/
theorem not_agrees_minus : ¬ Agrees (bytes "/a-b") [] 0 := by
  rintro ⟨map, hmap, h⟩
  have hnone : (oneRoute (bytes "/a-b") [] 0).bind (fun map =>
      map.simplePrefixMatch (fun t r => (bstringMatch t r).isSome) (bytes "/a-b")) = none := by
    decide
  rw [hmap, Option.bind_some] at hnone
  have hsome := (h (bytes "/a-b")).mpr ⟨[], rfl, rfl⟩
  rw [hnone] at hsome
  exact absurd hsome (by simp)

end Mongrel2.Pattern

/-
The headers of a message as JSON (`request.c`).

* `headersText_eq` — the text of the headers is an object written member by member;
* `Means` — the text is read as what was received;
* `Clean` — the bytes that may not be in a request for that;
* `means_iff_clean` — the headers mean what was received exactly if the request is
  clean.

Design notes: the target of a request is pasted in as it is, a header's value with its
quotes and backslashes escaped, and both up to the first zero.  The members of the
headers stand in the order of the dictionary.
-/
import Mongrel2.Json
import Mongrel2.Payload

namespace Mongrel2

open ByteStream HttpParser

/-! ### The text as an object -/

/-- A member whose value is pasted in. -/
def partField (key value : List Byte) : Json.Field := ⟨key, cstr value, value⟩

/-- A member whose value is escaped. -/
def headerField (h : List Byte × List Byte) : Json.Field := ⟨h.1, cstr (escape h.2), h.2⟩

theorem escape_eq_quote (v : List Byte) : escape v = Json.quote v := by
  induction v with
  | nil => rfl
  | cons c v ih =>
    have hcons : escape (c :: v) = escape [c] ++ escape v := by
      simp only [escape, findReplace, List.flatMap_cons, List.flatMap_nil, List.append_nil,
        List.flatMap_append]
    have hone : escape [c] = if c = 0x22 ∨ c = 0x5C then [0x5C, c] else [c] := by
      by_cases hq : c = 0x22
      · subst hq
        rfl
      by_cases hs : c = 0x5C
      · subst hs
        rfl
      · have hq' : c ≠ chr '"' := hq
        have hs' : c ≠ chr '\\' := hs
        simp [escape, findReplace, hq', hs', hq, hs]
    rw [hcons, hone, ih, Json.quote_cons]

theorem cstr_quote (v : List Byte) : cstr (Json.quote v) = Json.quote (cstr v) := by
  induction v with
  | nil => rfl
  | cons c v ih =>
    have hslash : (0x5C : Byte) ≠ 0 := by decide
    rw [Json.quote_cons]
    by_cases hz : c = 0
    · subst hz
      rfl
    · have hcstr : cstr (c :: v) = c :: cstr v := List.takeWhile_cons_of_pos (by simpa using hz)
      rw [hcstr, Json.quote_cons, ← ih]
      split <;> simp [cstr, hz]

theorem member_eq {key text value : List Byte} (hkey : 0 ∉ key) (v : List Byte) (ht : cstr v = text) :
    member key v = 0x2C :: (Json.Field.mk key text value).write := by
  have hopen : bytes ",\"" = [0x2C, 0x22] := by decide
  have hcolon : bytes "\":\"" = [0x22, 0x3A, 0x22] := by decide
  have hclose : bytes "\"" = [0x22] := by decide
  simp [member, Json.Field.write, cstr_eq_self hkey, hopen, hcolon, hclose, ht]

theorem parts_spec {r : Request} {pattern : Option (List Byte)} {x : List Byte × List Byte} :
    x ∈ r.parts pattern ↔
      x.1 = bytes "METHOD" ∧
          (if r.parser.jsonSent then some (bytes "JSON") else r.requestMethod) = some x.2 ∨
        x.1 = bytes "VERSION" ∧ r.version = some x.2 ∨ x.1 = bytes "URI" ∧ r.uri = some x.2 ∨
        x.1 = bytes "QUERY" ∧ r.queryString = some x.2 ∨
        x.1 = bytes "FRAGMENT" ∧ r.fragment = some x.2 ∨
        x.1 = bytes "PATTERN" ∧ pattern = some x.2 := by
  obtain ⟨k, v⟩ := x
  simp only [Request.parts, List.mem_filterMap, List.mem_cons, List.not_mem_nil, or_false,
    Option.map_eq_some_iff, Prod.mk.injEq]
  constructor
  · rintro ⟨p, hp, w, hw, rfl, rfl⟩
    rcases hp with rfl | rfl | rfl | rfl | rfl | rfl <;> simp_all
  · rintro (⟨rfl, h⟩ | ⟨rfl, h⟩ | ⟨rfl, h⟩ | ⟨rfl, h⟩ | ⟨rfl, h⟩ | ⟨rfl, h⟩)
    · exact ⟨_, .inl rfl, v, h, rfl, rfl⟩
    · exact ⟨_, .inr (.inl rfl), v, h, rfl, rfl⟩
    · exact ⟨_, .inr (.inr (.inl rfl)), v, h, rfl, rfl⟩
    · exact ⟨_, .inr (.inr (.inr (.inl rfl))), v, h, rfl, rfl⟩
    · exact ⟨_, .inr (.inr (.inr (.inr (.inl rfl)))), v, h, rfl, rfl⟩
    · exact ⟨_, .inr (.inr (.inr (.inr (.inr rfl)))), v, h, rfl, rfl⟩

/-- The names of the members that are not headers are plain ASCII. -/
theorem key_of_parts {r : Request} {pattern : Option (List Byte)} {x : List Byte × List Byte}
    (hx : x ∈ r.parts pattern) : ∀ c ∈ x.1, Json.Plain c ∧ c < 0x80 := by
  rcases parts_spec.mp hx with h | h | h | h | h | h <;> rw [h.1] <;>
    exact List.all_iff_forall_prop.mp (by decide)

/-- **The text of the headers** is an object that is written member by member. -/
theorem headersText_eq {r : Request} {p : List Byte} (pattern : Option (List Byte))
    (hpath : r.path = some p) (hnames : ∀ h ∈ r.nodes, 0 ∉ h.1) :
    headersText r pattern =
      Json.Field.writeObject (partField (bytes "PATH") p)
        ((r.parts pattern).map (fun x => partField x.1 x.2) ++ r.nodes.map headerField) := by
  have hflat : ∀ {xs : List (List Byte × List Byte)} {f : List Byte × List Byte → List Byte}
      {g : List Byte × List Byte → Json.Field}, (∀ x ∈ xs, f x = 0x2C :: (g x).write) →
      xs.flatMap f = (xs.map g).flatMap fun x => 0x2C :: x.write := by
    intro xs f g hfg
    rw [List.flatMap_map]
    exact List.flatMap_congr hfg
  have hparts : (r.parts pattern).flatMap (fun x => member x.1 x.2) =
      ((r.parts pattern).map fun x => partField x.1 x.2).flatMap fun x => 0x2C :: x.write :=
    hflat fun x hx => member_eq (fun hz => absurd (key_of_parts hx 0 hz).1 (by decide)) x.2 rfl
  have hheaders : r.nodes.flatMap (fun h => member h.1 (escape h.2)) =
      (r.nodes.map headerField).flatMap fun x => 0x2C :: x.write :=
    hflat fun x hx => member_eq (hnames x hx) (escape x.2) rfl
  have hopen : bytes "\x7b\"" ++ bytes "PATH" ++ bytes "\":\"" =
      0x7B :: 0x22 :: (bytes "PATH" ++ [0x22, 0x3A, 0x22]) := by decide
  have hquote : bytes "\"" = [0x22] := by decide
  have hbrace : bytes "\x7d" = [0x7D] := by decide
  rw [headersText, hparts, hheaders, hpath, printed, hopen, hquote, hbrace]
  simp [Json.Field.writeObject, Json.Field.write, Json.Field.writeRest, partField]

/-! ### The dictionary -/

theorem dictInsert_perm (h : List Byte × List Byte) (nodes : List (List Byte × List Byte)) :
    (dictInsert h nodes).Perm (h :: nodes) := by
  induction nodes with
  | nil => exact .refl _
  | cons n nodes ih =>
    rw [dictInsert]
    split
    · exact .refl _
    · exact (ih.cons n).trans (.swap h n nodes)

/-- The dictionary holds the headers that were received. -/
theorem nodes_perm (r : Request) : r.nodes.Perm r.headers := by
  suffices h : ∀ (hs nodes : List (List Byte × List Byte)),
      (hs.foldl (fun nodes h => dictInsert h nodes) nodes).Perm (nodes ++ hs) from
    h r.headers []
  intro hs
  induction hs with
  | nil => exact fun nodes => (List.append_nil nodes).symm ▸ .refl _
  | cons h hs ih =>
    intro nodes
    rw [List.foldl_cons]
    exact ((ih _).trans ((dictInsert_perm h nodes).append_right hs)).trans List.perm_middle.symm

/-! ### What the grammar admits -/

theorem plain_of_isTarget {c : Byte} (h : isTarget c = true) : Json.Plain c ↔ c ≠ chr '\\' := by
  simp only [isTarget, isUchar, chr, Json.Plain, Bool.or_eq_true, Bool.and_eq_true,
    decide_eq_true_eq, beq_iff_eq, UInt8.le_iff_toNat_le, ← UInt8.toNat_inj, ne_eq] at h ⊢
  simp at h ⊢
  omega

/-- A class of bytes that stand for themselves in a string of ASCII. -/
def Simple (P : Byte → Bool) : Prop := ∀ c, P c = true → Json.Plain c ∧ c < 0x80

theorem simple_isToken : Simple isToken := by
  intro c h
  simp only [isToken, isDigit, isUpper, chr, Json.Plain, Bool.or_eq_true, Bool.and_eq_true,
    decide_eq_true_eq, beq_iff_eq, UInt8.le_iff_toNat_le, UInt8.lt_iff_toNat_lt,
    ← UInt8.toNat_inj, ne_eq] at h ⊢
  simp at h ⊢
  omega

theorem simple_isMethod : Simple isMethod := by
  intro c h
  simp only [isMethod, isDigit, isUpper, chr, Json.Plain, Bool.or_eq_true, Bool.and_eq_true,
    decide_eq_true_eq, beq_iff_eq, UInt8.le_iff_toNat_le, UInt8.lt_iff_toNat_lt,
    ← UInt8.toNat_inj, ne_eq] at h ⊢
  simp at h ⊢
  omega

theorem simple_isVersion : Simple isVersion := by
  intro c h
  have hall : ∀ c ∈ bytes "HTTP/1.0", Json.Plain c ∧ c < 0x80 :=
    List.all_iff_forall_prop.mp (by decide)
  exact hall c (List.contains_iff_mem.mp h)

/-! ### What the text means -/

/-- The text is read as the path, the other parts that are set and every header. -/
def Means (r : Request) (pattern : Option (List Byte)) : Prop :=
  ∃ p, r.path = some p ∧ ((r.parts pattern).map Prod.fst).head? = some (bytes "METHOD") ∧
    r.nodes.Perm r.headers ∧
    Json.object (headersText r pattern) = some ((bytes "PATH", p) :: (r.parts pattern ++ r.nodes))

/-- The parts of the target that are set. -/
def Request.target (r : Request) : List (List Byte) :=
  [r.path, r.uri, r.queryString, r.fragment].filterMap id

/-- What is pasted in needs no escape, a header's value has no control character, and all
of it is UTF-8. -/
structure Clean (r : Request) (pattern : Option (List Byte)) : Prop where
  path : r.path.isSome = true
  target : ∀ v ∈ r.target, chr '\\' ∉ v ∧ Utf8.Valid v
  pattern : ∀ v ∈ pattern, (∀ c ∈ v, Json.Plain c) ∧ Utf8.Valid v
  headers : ∀ h ∈ r.headers, (∀ c ∈ h.2, 0x20 ≤ c) ∧ Utf8.Valid h.2

theorem mem_target {r : Request} {v : List Byte} : v ∈ r.target ↔
    r.path = some v ∨ r.uri = some v ∨ r.queryString = some v ∨ r.fragment = some v := by
  simp [Request.target, eq_comm]

theorem cstr_of_printable {v : List Byte} (h : ∀ c ∈ v, 0x20 ≤ c) : cstr v = v :=
  cstr_eq_self fun hz => absurd (h 0 hz) (by decide)

theorem good_partField {k v : List Byte} : (partField k v).Good ↔ ∀ c ∈ v, Json.Plain c := by
  constructor
  · intro hg
    have hcstr : cstr v = v := cstr_of_printable hg.2
    have hread := hg.read (n := v.length + 1) (by simp [partField, hcstr]) [0x7D]
    simp only [partField, hcstr] at hread
    exact (Json.plain_of_chars hread (.inr rfl) (List.prefix_refl v) (by simp)).2
  · intro hplain
    have hctl : ∀ c ∈ v, 0x20 ≤ c := fun c hc => (hplain c hc).1
    exact ⟨(cstr_of_printable hctl).trans (Json.quote_of_plain hplain).symm, hctl⟩

theorem good_headerField {h : List Byte × List Byte} :
    (headerField h).Good ↔ ∀ c ∈ h.2, 0x20 ≤ c := by
  refine and_iff_right_of_imp fun hctl => ?_
  have hcstr : cstr h.2 = h.2 := cstr_of_printable hctl
  change cstr (escape h.2) = Json.quote h.2
  rw [escape_eq_quote, cstr_quote, hcstr]

/-- The text goes up to the first zero, and a comma is none. -/
theorem reads_partField {k : List Byte} (hkey : ∀ c ∈ k, Json.Plain c) (v : List Byte) :
    (partField k v).Reads := by
  refine Json.Field.reads_of_prefix hkey (List.takeWhile_prefix _) fun hv => ?_
  change v = cstr v ++ [0x2C] at hv
  have hz : 0 ∉ v := by
    rw [hv, List.mem_append, not_or]
    exact ⟨zero_not_mem_cstr v, by decide⟩
  rw [cstr_eq_self hz] at hv
  exact absurd (congrArg List.length hv) (by simp)

theorem reads_headerField {h : List Byte × List Byte} (hkey : ∀ c ∈ h.1, Json.Plain c) :
    (headerField h).Reads :=
  Json.Field.reads_of_quote hkey ((congrArg cstr (escape_eq_quote h.2)).trans (cstr_quote h.2))

/-- A field that is good and whose value is UTF-8. -/
def Fine (f : Json.Field) : Prop := f.Good ∧ Utf8.Valid f.value

theorem fine_of_simple {P : Byte → Bool} (hP : Simple P) {k v : List Byte}
    (hv : ∀ c ∈ v, P c = true) : Fine (partField k v) :=
  ⟨good_partField.mpr fun c hc => (hP c (hv c hc)).1,
    Utf8.valid_of_ascii fun c hc => (hP c (hv c hc)).2⟩

theorem fine_of_target {k v : List Byte} (hv : ∀ c ∈ v, isTarget c = true) :
    Fine (partField k v) ↔ chr '\\' ∉ v ∧ Utf8.Valid v := by
  refine and_congr_left' (good_partField.trans ?_)
  constructor
  · exact fun hplain hs => (plain_of_isTarget (hv _ hs)).mp (hplain _ hs) rfl
  · exact fun hs c hc => (plain_of_isTarget (hv c hc)).mpr fun heq => hs (heq ▸ hc)

section

variable {r : Request} {pattern : Option (List Byte)}

/-- The text is read as what was received exactly if all its fields are fine. -/
theorem object_headersText_iff (hw : r.Worded) {p : List Byte} (hpath : r.path = some p) :
    Json.object (headersText r pattern) =
        some ((bytes "PATH", p) :: (r.parts pattern ++ r.nodes)) ↔
      Fine (partField (bytes "PATH") p) ∧
        (∀ x ∈ r.parts pattern, Fine (partField x.1 x.2)) ∧
        ∀ h ∈ r.nodes, Fine (headerField h) := by
  have hname : ∀ h ∈ r.nodes, ∀ c ∈ h.1, Json.Plain c ∧ c < 0x80 := fun h hh c hc =>
    simple_isToken c (hw.names h ((nodes_perm r).mem_iff.mp hh) c hc)
  have hpathKey : ∀ c ∈ bytes "PATH", Json.Plain c ∧ c < 0x80 :=
    List.all_iff_forall_prop.mp (by decide)
  have hall : ∀ {Q : Json.Field → Prop}, (∀ g ∈ partField (bytes "PATH") p ::
      ((r.parts pattern).map (fun x => partField x.1 x.2) ++ r.nodes.map headerField), Q g) ↔
      Q (partField (bytes "PATH") p) ∧ (∀ x ∈ r.parts pattern, Q (partField x.1 x.2)) ∧
        ∀ h ∈ r.nodes, Q (headerField h) := by
    intro Q
    rw [List.forall_mem_cons, List.forall_mem_append, List.forall_mem_map, List.forall_mem_map]
  have hkeys : ∀ g ∈ partField (bytes "PATH") p ::
      ((r.parts pattern).map (fun x => partField x.1 x.2) ++ r.nodes.map headerField),
      ∀ c ∈ g.key, Json.Plain c ∧ c < 0x80 :=
    hall.mpr ⟨hpathKey, fun x hx => key_of_parts hx, hname⟩
  have hreads := hall.mpr ⟨reads_partField (fun c hc => (hpathKey c hc).1) p,
    fun x hx => reads_partField (fun c hc => (key_of_parts hx c hc).1) x.2,
    fun h hh => reads_headerField fun c hc => (hname h hh c hc).1⟩
  have hvalues : (partField (bytes "PATH") p ::
      ((r.parts pattern).map (fun x => partField x.1 x.2) ++ r.nodes.map headerField)).map
        (fun g => (g.key, g.value)) = (bytes "PATH", p) :: (r.parts pattern ++ r.nodes) := by
    simp [partField, headerField, Function.comp_def]
  have hzero : ∀ h ∈ r.nodes, 0 ∉ h.1 := fun h hh hz => absurd (hname h hh 0 hz).1 (by decide)
  rw [headersText_eq pattern hpath hzero, ← hvalues, Json.Field.object_writeObject_iff hreads,
    Json.Field.valid_writeObject fun g hg c hc => (hkeys g hg c hc).2, ← forall₂_and, ← hall]
  refine forall₂_congr fun g _ => and_comm.trans (and_congr_right fun hg => ?_)
  rw [hg.1, Json.Field.valid_quote]

theorem means_iff_clean_of_worded (hw : r.Worded)
    (hmethod : r.path.isSome = true →
      r.parser.jsonSent = true ∨ r.requestMethod.isSome = true) :
    Means r pattern ↔ Clean r pattern := by
  have hperm := nodes_perm r
  have hheaders : (∀ h ∈ r.nodes, Fine (headerField h)) ↔
      ∀ h ∈ r.headers, (∀ c ∈ h.2, 0x20 ≤ c) ∧ Utf8.Valid h.2 :=
    forall_congr' fun h => imp_congr hperm.mem_iff (and_congr_left' good_headerField)
  constructor
  · rintro ⟨p, hpath, -, -, hobject⟩
    obtain ⟨hp, hparts, hnodes⟩ := (object_headersText_iff hw hpath).mp hobject
    refine ⟨by rw [hpath]; rfl, ?_, ?_, hheaders.mp hnodes⟩
    · intro v hmem
      rcases mem_target.mp hmem with hv | hv | hv | hv
      · obtain rfl := Option.some.inj (hpath.symm.trans hv)
        exact (fine_of_target (hw.path _ hv)).mp hp
      · have hpart := hparts (bytes "URI", v) (parts_spec.mpr (by simp [hv]))
        exact (fine_of_target (hw.uri _ hv)).mp hpart
      · have hpart := hparts (bytes "QUERY", v) (parts_spec.mpr (by simp [hv]))
        exact (fine_of_target (hw.queryString _ hv)).mp hpart
      · have hpart := hparts (bytes "FRAGMENT", v) (parts_spec.mpr (by simp [hv]))
        exact (fine_of_target (hw.fragment _ hv)).mp hpart
    · intro v hv
      rw [Option.mem_def] at hv
      have hpart := hparts (bytes "PATTERN", v) (parts_spec.mpr (by simp [hv]))
      exact ⟨good_partField.mp hpart.1, hpart.2⟩
  · intro hc
    obtain ⟨p, hpath⟩ := Option.isSome_iff_exists.mp hc.path
    refine ⟨p, hpath, ?_, hperm, (object_headersText_iff hw hpath).mpr ⟨?_, ?_, ?_⟩⟩
    · rcases hmethod hc.path with hjson | hm
      · simp [Request.parts, hjson]
      · obtain ⟨m, hm⟩ := Option.isSome_iff_exists.mp hm
        cases hjson : r.parser.jsonSent <;> simp [Request.parts, hjson, hm]
    · exact (fine_of_target (hw.path _ hpath)).mpr (hc.target p (mem_target.mpr (.inl hpath)))
    · rintro ⟨k, v⟩ hx
      rcases parts_spec.mp hx with ⟨-, hv⟩ | ⟨-, hv⟩ | ⟨-, hv⟩ | ⟨-, hv⟩ | ⟨-, hv⟩ | ⟨-, hv⟩
      · split at hv
        · obtain rfl := Option.some.inj hv
          have hall : ∀ c ∈ bytes "JSON", isMethod c = true :=
            List.all_iff_forall_prop.mp (by decide)
          exact fine_of_simple simple_isMethod hall
        · exact fine_of_simple simple_isMethod (hw.requestMethod v hv)
      · exact fine_of_simple simple_isVersion (hw.version v hv)
      · exact (fine_of_target (hw.uri v hv)).mpr (hc.target v (mem_target.mpr (.inr (.inl hv))))
      · exact (fine_of_target (hw.queryString v hv)).mpr (hc.target v (mem_target.mpr (.inr (.inr (.inl hv)))))
      · exact (fine_of_target (hw.fragment v hv)).mpr (hc.target v (mem_target.mpr (.inr (.inr (.inr hv)))))
      · exact ⟨good_partField.mpr (hc.pattern v hv).1, (hc.pattern v hv).2⟩
    · exact hheaders.mpr hc.headers

end

/-- **The headers mean what was received** exactly if no part of the target has a
backslash, the pattern needs no escape, no header's value has a control character, and
all of them are UTF-8. -/
theorem means_iff_clean {r₀ : Request} {h : List Byte} (extra : List (List Byte × List Byte))
    (pattern : Option (List Byte)) (hfinish : (r₀.parse h).1.finish = 1)
    (hextra : ∀ x ∈ extra, ∀ c ∈ x.1, isToken c = true) :
    let r := { (r₀.parse h).1 with headers := (r₀.parse h).1.headers ++ extra }
    Means r pattern ↔ Clean r pattern := by
  intro r
  have hworded := Request.worded_parse r₀ h
  have hw : r.Worded := { hworded with
    names := fun x hx => (List.mem_append.mp hx).elim (hworded.names x) (hextra x) }
  refine means_iff_clean_of_worded hw fun hpath => ?_
  obtain ⟨p, hp⟩ := Option.isSome_iff_exists.mp hpath
  exact Request.method_of_finish hfinish hp

/-- A request whose header has a quote, a backslash and a letter that is not ASCII. -/
def quotedRequest : List Byte := bytes "GET /a?b HTTP/1.1\r\nK: \"\\\u00c3\u00a9\r\n\r\n"

/-- Another header is added on the way. -/
theorem means_quotedRequest :
    Means { (Request.create.parse quotedRequest).1 with
      headers := (Request.create.parse quotedRequest).1.headers ++
        [(bytes "X-Forwarded-For", bytes "10.0.0.1")] } (some (bytes "/a")) :=
  (means_iff_clean [(bytes "X-Forwarded-For", bytes "10.0.0.1")] (some (bytes "/a")) (by decide)
    (List.forall_mem_singleton.mpr (List.all_iff_forall_prop.mp (by decide)))).mpr
      { path := by decide
        target := List.all_iff_forall_prop.mp (by decide)
        pattern := fun v hv => Option.some.inj hv ▸ ⟨List.all_iff_forall_prop.mp (by decide), by decide⟩
        headers := List.forall_mem_cons.mpr
          ⟨⟨List.all_iff_forall_prop.mp (by decide), by decide⟩, List.forall_mem_singleton.mpr
            ⟨List.all_iff_forall_prop.mp (by decide), by decide⟩⟩ }

/-- A path with a backslash is accepted, and read as one with a backspace. -/
theorem not_means_backslash :
    (Request.create.parse (bytes "GET /a\\b HTTP/1.1\r\n\r\n")).1.finish = 1 ∧
      Json.object
        (headersText (Request.create.parse (bytes "GET /a\\b HTTP/1.1\r\n\r\n")).1 none) ≠
          some [(bytes "PATH", bytes "/a\\b"), (bytes "METHOD", bytes "GET"),
            (bytes "VERSION", bytes "HTTP/1.1"), (bytes "URI", bytes "/a\\b")] := by
  decide

end Mongrel2

/-
The words of a request (`http11/http11_parser.rl`).

Which bytes can be in the parts of a request that the parser reports: the classes of
the grammar that a method, a target, a version and the name of a header are made of.

* `Cs.word` — the class that the marked word belongs to, by state;
* `Spells` — what a transition does to the words that are open;
* `Request.Worded` — the parts that have been reported are words of their classes;
* `worded_parse` — they are after every parse.

Design notes: a word is open from its mark on, and the action that reports it comes
with the byte behind it.  The query has a mark of its own, and so has the name of a
header.
-/
import Mongrel2.HttpParser
import Mathlib.Data.Bool.AllAny

namespace Mongrel2

open ByteStream (Byte)

namespace HttpParser

/-- The bytes of a target: `uchar | reserved` and the `%` of an escape. -/
def isTarget (c : Byte) : Bool := isUchar c || c == chr '%'

/-- The bytes of an HTTP version. -/
def isVersion (c : Byte) : Bool := (bytes "HTTP/1.0").contains c

/-- The class of the word from `mark` on. -/
def Cs.word : Cs → Option (Byte → Bool)
  | .method _ => some isMethod
  | .star | .scheme _ | .within _ _ | .queryStart | .jsonStart | .jsonQueryStart => some isTarget
  | .version n => if n = 0 then none else some isVersion
  | .versionEnd => some isVersion
  | _ => none

/-- The query is open. -/
def Cs.inQuery : Cs → Bool
  | .within .query _ | .within .jsonQuery _ => true
  | _ => false

/-- The class of what an action reports from `mark` on. -/
def Act.word : Act → Option (Byte → Bool)
  | .requestMethod => some isMethod
  | .requestUri | .requestPath | .fragment => some isTarget
  | .httpVersion => some isVersion
  | _ => none

/-- A word that is open goes on with the byte or begins with it, and what is reported
was open or is empty. -/
structure Spells (cs : Cs) (c : Byte) (acts : List Act) (cs' : Cs) : Prop where
  word : ∀ P, cs'.word = some P → P c = true ∧ (.mark ∈ acts ∨ cs.word = some P)
  reported : ∀ a ∈ acts, ∀ P, a.word = some P → .mark ∈ acts ∨ cs.word = some P
  query : cs'.inQuery = true → isTarget c = true ∧ (.startQuery ∈ acts ∨ cs.inQuery = true)
  queried : .queryString ∈ acts → .startQuery ∈ acts ∨ cs.inQuery = true
  marked : .mark ∈ acts → acts.head? = some .mark ∧ .mark ∉ acts.tail
  started : .startQuery ∈ acts → acts.head? = some .startQuery ∧ .startQuery ∉ acts.tail
  name : cs' = .field → isToken c = true

/-- Without an action the word and the query that are open go on. -/
theorem Spells.silent {cs cs' : Cs} {c : Byte}
    (hword : ∀ P, cs'.word = some P → P c = true ∧ cs.word = some P)
    (hquery : cs'.inQuery = true → isTarget c = true ∧ cs.inQuery = true)
    (hname : cs' ≠ .field) : Spells cs c [] cs' := by
  have hnot : ∀ a : Act, a ∉ [] := fun a => List.not_mem_nil
  constructor
  · intro P hP
    exact ⟨(hword P hP).1, .inr (hword P hP).2⟩
  · exact fun a ha => absurd ha (hnot a)
  · intro hq
    exact ⟨(hquery hq).1, .inr (hquery hq).2⟩
  · exact fun h => absurd h (hnot _)
  · exact fun h => absurd h (hnot _)
  · exact fun h => absurd h (hnot _)
  · exact fun h => absurd h hname

/-- Inside a part of the target, over a byte of it. -/
theorem Spells.inside {part : Part} {esc esc' : Esc} {c : Byte} (hc : isTarget c = true) :
    Spells (.within part esc) c [] (.within part esc') := by
  refine .silent (fun P hP => ?_) (fun hq => ?_) (by simp)
  · obtain rfl : isTarget = P := by cases part <;> exact Option.some.inj hP
    exact ⟨hc, by cases part <;> rfl⟩
  · exact ⟨hc, by cases part <;> exact hq⟩

theorem isTarget_of_isXdigit {c : Byte} (h : isXdigit c = true) : isTarget c = true := by
  simp only [isXdigit, isDigit, isTarget, isUchar, chr, Bool.or_eq_true, Bool.and_eq_true,
    decide_eq_true_eq, beq_iff_eq, UInt8.le_iff_toNat_le, ← UInt8.toNat_inj] at h ⊢
  simp at h ⊢
  omega

theorem isTarget_of_mem {part : Part} {c : Byte} (h : part.mem c = true) : isTarget c = true := by
  have hu : isUchar c = true := by
    cases part <;> simp only [Part.mem, Bool.and_eq_true] at h
    all_goals first | exact h | exact h.1 | exact h.1.1
  rw [isTarget, hu, Bool.true_or]

/-- Where a part of the target may begin, and with which actions. -/
inductive Enters : Cs → Part → List Act → Prop
  | «within» (part) : Enters (.within part .out) part []
  | json : Enters .jsonStart .jsonPath []
  | query : Enters .queryStart .query [.startQuery]
  | jsonQuery : Enters .jsonQueryStart .jsonQuery [.startQuery]
  | fragment : Enters .fragmentStart .fragment [.mark]

theorem word_of_reports {a : Act} {P : Byte → Bool} (h : a.reports = true)
    (hP : a.word = some P) : P = isTarget := by
  cases a with
  | requestUri | requestPath | fragment => exact (Option.some.inj hP).symm
  | queryString => cases hP
  | _ => exact absurd h (by simp [Act.reports])

/-- What ends a part is a byte of the next word, if one goes on. -/
theorem leave_spells {part : Part} {c : Byte} {tail : List Act} {cs' : Cs}
    (h : part.leave c = some (tail, cs')) :
    (∀ P, cs'.word = some P → P = isTarget ∧ isTarget c = true) ∧ cs'.inQuery = false ∧
      cs' ≠ .field ∧ (.queryString ∈ tail → (Cs.within part .out).inQuery = true) := by
  cases part
  all_goals
    simp only [Part.leave] at h
    split_ifs at h
    all_goals
      obtain ⟨rfl, rfl⟩ := Prod.mk.inj (Option.some.inj h)
      subst c
      refine ⟨?_, rfl, by simp, by decide⟩
      first
      | exact fun P hP => ⟨(Option.some.inj hP).symm, rfl⟩
      | exact fun P hP => absurd hP (by simp [Cs.word])

/-- A part that is entered goes on, or ends at once. -/
theorem Enters.spells_append {cs cs' : Cs} {part : Part} {acts tail : List Act} {c : Byte}
    (he : Enters cs part acts)
    (hword : ∀ P, cs'.word = some P → P = isTarget ∧ isTarget c = true)
    (hquery : cs'.inQuery = true → isTarget c = true ∧ (Cs.within part .out).inQuery = true)
    (hname : cs' ≠ .field) (htail : ∀ a ∈ tail, a.reports)
    (hqueried : .queryString ∈ tail → (Cs.within part .out).inQuery = true) :
    Spells cs c (acts ++ tail) cs' := by
  have hopen : .mark ∈ acts ∨ cs.word = some isTarget := by
    cases he with
    | fragment => exact .inl List.mem_cons_self
    | _ => exact .inr rfl
  have hasked : (Cs.within part .out).inQuery = true →
      .startQuery ∈ acts ∨ cs.inQuery = true := by
    cases he with
    | query | jsonQuery => exact fun _ => .inl List.mem_cons_self
    | _ => exact .inr
  have hacts : ∀ a ∈ acts, acts = [a] ∧ (a = .mark ∨ a = .startQuery) := by
    cases he <;> simp
  have hnot : ∀ a : Act, a.reports = false → a ∉ tail := by
    intro a ha hmem
    rw [htail a hmem] at ha
    exact absurd ha (by simp)
  have hhead : ∀ a : Act, a.reports = false → a ∈ acts ++ tail →
      (acts ++ tail).head? = some a ∧ a ∉ (acts ++ tail).tail := by
    intro a ha hmem
    obtain ⟨rfl, -⟩ := hacts a ((List.mem_append.mp hmem).resolve_right (hnot a ha))
    exact ⟨rfl, hnot a ha⟩
  constructor
  · intro P hP
    obtain ⟨rfl, hc⟩ := hword P hP
    exact ⟨hc, hopen.imp_left (List.mem_append_left tail)⟩
  · intro a ha P hP
    rcases List.mem_append.mp ha with ha | ha
    · obtain ⟨-, rfl | rfl⟩ := hacts a ha
      · exact .inl (List.mem_append_left tail ha)
      · cases hP
    · obtain rfl := word_of_reports (htail a ha) hP
      exact hopen.imp_left (List.mem_append_left tail)
  · intro hq
    obtain ⟨hc, hpart⟩ := hquery hq
    exact ⟨hc, (hasked hpart).imp_left (List.mem_append_left tail)⟩
  · intro hmem
    rcases List.mem_append.mp hmem with hmem | hmem
    · obtain ⟨-, heq | heq⟩ := hacts _ hmem
      · cases heq
      · cases heq
    · exact (hasked (hqueried hmem)).imp_left (List.mem_append_left tail)
  · exact hhead .mark rfl
  · exact hhead .startQuery rfl
  · exact fun h => absurd h hname

theorem Enters.spells {cs cs' : Cs} {part : Part} {acts acts' : List Act} {c : Byte}
    (he : Enters cs part acts) (h : part.enter acts c = some (acts', cs')) :
    Spells cs c acts' cs' := by
  -- a byte of the part
  have hinside : ∀ esc, isTarget c = true → Spells cs c acts (.within part esc) := by
    intro esc hc
    rw [← List.append_nil acts]
    refine he.spells_append (fun P hP => ⟨(Option.some.inj hP).symm, hc⟩) (fun hq => ⟨hc, ?_⟩)
      nofun (by simp) (by simp)
    cases part with
    | query | jsonQuery => rfl
    | _ => exact hq
  unfold Part.enter at h
  split at h
  · rename_i hc
    obtain ⟨rfl, rfl⟩ := Prod.mk.inj (Option.some.inj h)
    exact hinside .first (hc ▸ rfl)
  · split at h
    case h_1 tail cs'' hl =>
      obtain ⟨rfl, rfl⟩ := Prod.mk.inj (Option.some.inj h)
      obtain ⟨hword, hquery, hname, hqueried⟩ := leave_spells hl
      exact he.spells_append hword (fun hq => absurd (hquery.symm.trans hq) (by simp)) hname
        (leave_spec hl).1 hqueried
    case h_2 =>
      obtain ⟨hc, h⟩ := Option.ite_none_right_eq_some.mp h
      obtain ⟨rfl, rfl⟩ := Prod.mk.inj (Option.some.inj h)
      exact hinside .out (isTarget_of_mem hc)

/-- An action that neither opens a word nor reports one. -/
def Act.quiet : Act → Bool
  | .startField | .writeField | .writeValue | .done | .socket | .json => true
  | _ => false

/-- Outside the words of the request line. -/
theorem Spells.of_quiet {cs cs' : Cs} {c : Byte} {acts : List Act} (hacts : ∀ a ∈ acts, a.quiet)
    (hword : cs'.word = none) (hquery : cs'.inQuery = false)
    (hname : cs' = .field → isToken c = true) : Spells cs c acts cs' := by
  have hnot : ∀ a : Act, a.quiet = false → a ∉ acts := by
    intro a ha hmem
    rw [hacts a hmem] at ha
    exact absurd ha (by simp)
  constructor
  · intro P hP
    exact absurd (hword.symm.trans hP) (by simp)
  · intro a ha P hP
    have hq := hacts a ha
    cases a <;> simp_all [Act.word, Act.quiet]
  · intro hq
    exact absurd (hquery.symm.trans hq) (by simp)
  · exact fun h => absurd h (hnot _ rfl)
  · exact fun h => absurd h (hnot _ rfl)
  · exact fun h => absurd h (hnot _ rfl)
  · exact hname

theorem isVersion_of_getElem? {n : ℕ} {c : Byte} (h : (bytes "HTTP/1.")[n]? = some c) :
    isVersion c = true := by
  have hsub : ∀ x ∈ bytes "HTTP/1.", isVersion x = true :=
    List.all_iff_forall_prop.mp (by decide)
  exact hsub c (List.mem_of_getElem? h)

theorem isTarget_of_getElem? {n : ℕ} {c : Byte} (h : (bytes "ttp:")[n]? = some c) :
    isTarget c = true := by
  have hsub : ∀ x ∈ bytes "ttp:", isTarget x = true :=
    List.all_iff_forall_prop.mp (by decide)
  exact hsub c (List.mem_of_getElem? h)

theorem next_spells {cs cs' : Cs} {c : Byte} {acts : List Act}
    (h : cs.next c = some (acts, cs')) : Spells cs c acts cs' := by
  cases cs with
  | «within» part esc =>
    cases esc with
    | out => exact Enters.spells (.within part) h
    | first | second =>
      simp only [Cs.next] at h
      split_ifs at h with hc
      obtain ⟨rfl, rfl⟩ := Prod.mk.inj (Option.some.inj h)
      exact .inside (isTarget_of_isXdigit hc)
  | queryStart => exact Enters.spells .query h
  | fragmentStart => exact Enters.spells .fragment h
  | jsonQueryStart => exact Enters.spells .jsonQuery h
  | jsonStart =>
    simp only [Cs.next] at h
    split_ifs at h
    exact Enters.spells .json h
  | error => exact absurd h (by simp [Cs.next])
  | done => exact absurd h (by simp [Cs.next])
  | scheme n =>
    simp only [Cs.next] at h
    split_ifs at h with hc hn <;> obtain ⟨rfl, rfl⟩ := Prod.mk.inj (Option.some.inj h) <;>
      have ht := isTarget_of_getElem? hc <;>
      constructor <;> simp_all [Cs.word, Cs.inQuery]
  | version n =>
    simp only [Cs.next] at h
    split_ifs at h with hn hc hc hz <;> obtain ⟨rfl, rfl⟩ := Prod.mk.inj (Option.some.inj h)
    · have hv : isVersion c = true := by rcases hc with rfl | rfl <;> rfl
      constructor <;> simp_all [Cs.word, Cs.inQuery]
    · have hv := isVersion_of_getElem? hc
      constructor <;> simp_all [Cs.word, Cs.inQuery, Act.word]
    · have hv := isVersion_of_getElem? hc
      constructor <;> simp_all [Cs.word, Cs.inQuery]
  | start | method n | uri | star | versionEnd =>
    simp only [Cs.next] at h
    split_ifs at h <;> obtain ⟨rfl, rfl⟩ := Prod.mk.inj (Option.some.inj h) <;>
      constructor <;> simp_all [Cs.word, Cs.inQuery, Act.word, isTarget, isUchar, chr]
  | headers | field | lastLF | lineLF | policy _ | brace | json | jsonDone =>
    simp only [Cs.next] at h
    split_ifs at h <;> obtain ⟨rfl, rfl⟩ := Prod.mk.inj (Option.some.inj h) <;>
      exact .of_quiet (by simp [Act.quiet]) rfl rfl (by simp_all)
  | valueStart | value =>
    simp only [Cs.next] at h
    split_ifs at h <;> obtain ⟨rfl, rfl⟩ := Prod.mk.inj (Option.some.inj h) <;>
      constructor <;> simp [Cs.word, Cs.inQuery, Act.word]

end HttpParser

open HttpParser

namespace Request

variable {buffer : List Byte} {fpc : ℕ} {r : Request}

/-- What has been reported are words of the grammar. -/
structure Worded (r : Request) : Prop where
  requestMethod : ∀ w ∈ r.requestMethod, ∀ c ∈ w, isMethod c = true
  version : ∀ w ∈ r.version, ∀ c ∈ w, isVersion c = true
  uri : ∀ w ∈ r.uri, ∀ c ∈ w, isTarget c = true
  path : ∀ w ∈ r.path, ∀ c ∈ w, isTarget c = true
  queryString : ∀ w ∈ r.queryString, ∀ c ∈ w, isTarget c = true
  fragment : ∀ w ∈ r.fragment, ∀ c ∈ w, isTarget c = true
  names : ∀ h ∈ r.headers, ∀ c ∈ h.1, isToken c = true

/-- The bytes from `start` to the position are a word of the class. -/
def Spelled (buffer : List Byte) (fpc start : ℕ) (P : Byte → Bool) : Prop :=
  start ≤ fpc ∧ ∀ c ∈ span buffer start (fpc - start), P c = true

/-- The words that are open at the position. -/
structure Open (buffer : List Byte) (fpc : ℕ) (r : Request) : Prop where
  word : ∀ P, r.parser.cs.word = some P → Spelled buffer fpc r.parser.mark P
  query : r.parser.cs.inQuery = true → Spelled buffer fpc r.parser.queryStart isTarget
  name : r.parser.cs = .field → Spelled buffer fpc r.parser.fieldStart isToken
  named : r.parser.cs = .valueStart ∨ r.parser.cs = .value →
    ∀ c ∈ span buffer r.parser.fieldStart r.parser.fieldLen, isToken c = true

theorem spelled_self (P : Byte → Bool) : Spelled buffer fpc fpc P := by
  refine ⟨le_rfl, fun c hc => ?_⟩
  rw [span_self] at hc
  exact absurd hc List.not_mem_nil

theorem Spelled.succ {start : ℕ} {P : Byte → Bool} {c : Byte} (h : Spelled buffer fpc start P)
    (hc : buffer[fpc]? = some c) (hP : P c = true) : Spelled buffer (fpc + 1) start P := by
  obtain ⟨hle, hall⟩ := h
  refine ⟨by omega, fun x hx => ?_⟩
  rw [span_succ hle hc, List.mem_append, List.mem_singleton] at hx
  rcases hx with hx | rfl
  · exact hall x hx
  · exact hP

theorem foldl_mark (buffer : List Byte) (fpc : ℕ) (acts : List Act) (r : Request) :
    (acts.foldl (fun r a => r.act buffer fpc a) r).parser.mark =
      if .mark ∈ acts then fpc else r.parser.mark := by
  refine foldl_act_sets (·.parser.mark) buffer fpc (fun a ha r => ?_) (fun _ => rfl) acts r
  cases a <;> first | rfl | exact absurd rfl ha

theorem foldl_queryStart (buffer : List Byte) (fpc : ℕ) (acts : List Act) (r : Request) :
    (acts.foldl (fun r a => r.act buffer fpc a) r).parser.queryStart =
      if .startQuery ∈ acts then fpc else r.parser.queryStart := by
  refine foldl_act_sets (·.parser.queryStart) buffer fpc (fun a ha r => ?_) (fun _ => rfl) acts r
  cases a <;> first | rfl | exact absurd rfl ha

/-- Actions that report only words of their classes. -/
theorem Worded.foldl {acts : List Act} (h : r.Worded)
    (hword : ∀ a ∈ acts, ∀ P, a.word = some P → Spelled buffer fpc r.parser.mark P)
    (hquery : .queryString ∈ acts → Spelled buffer fpc r.parser.queryStart isTarget)
    (hmark : .mark ∉ acts) (hstart : .startQuery ∉ acts) (hvalue : .writeValue ∉ acts) :
    (acts.foldl (fun r a => r.act buffer fpc a) r).Worded := by
  induction acts generalizing r with
  | nil => exact h
  | cons a acts ih =>
    simp only [List.mem_cons, not_or] at hmark hstart hvalue
    have ha := hword a (List.mem_cons_self ..)
    rw [List.foldl_cons]
    refine ih ?_ ?_ ?_ hmark.2 hstart.2 hvalue.2
    · cases a with
      | mark => exact absurd rfl hmark.1
      | startQuery => exact absurd rfl hstart.1
      | writeValue => exact absurd rfl hvalue.1
      | requestMethod =>
        exact { h with requestMethod := fun w hw => Option.some.inj hw ▸ (ha _ rfl).2 }
      | requestUri => exact { h with uri := fun w hw => Option.some.inj hw ▸ (ha _ rfl).2 }
      | requestPath => exact { h with path := fun w hw => Option.some.inj hw ▸ (ha _ rfl).2 }
      | fragment => exact { h with fragment := fun w hw => Option.some.inj hw ▸ (ha _ rfl).2 }
      | httpVersion => exact { h with version := fun w hw => Option.some.inj hw ▸ (ha _ rfl).2 }
      | queryString =>
        exact { h with
          queryString := fun w hw => Option.some.inj hw ▸ (hquery (List.mem_cons_self ..)).2 }
      | startField | writeField | done | socket | json => exact { h with }
    · intro b hb P hP
      have hm : (r.act buffer fpc a).parser.mark = r.parser.mark := by
        cases a <;> first | rfl | exact absurd rfl hmark.1
      rw [hm]
      exact hword b (List.mem_cons_of_mem a hb) P hP
    · intro hb
      have hq : (r.act buffer fpc a).parser.queryStart = r.parser.queryStart := by
        cases a <;> first | rfl | exact absurd rfl hstart.1
      rw [hq]
      exact hquery (List.mem_cons_of_mem a hb)

/-- What a transition reports. -/
theorem Worded.take {c : Byte} {acts : List Act} {cs : Cs} (h : r.Worded)
    (ho : r.Open buffer fpc) (hn : r.parser.cs.next c = some (acts, cs)) :
    (r.take buffer fpc acts cs).Worded := by
  have hs := next_spells hn
  suffices hfold : (acts.foldl (fun r a => r.act buffer fpc a) r).Worded from { hfold with }
  by_cases hvalue : .writeValue ∈ acts
  · -- a header is added to what was reported before
    have he := next_effect hn
    generalize hcs : r.parser.cs = cs₀ at he
    have hnames : cs₀ = .valueStart ∨ cs₀ = .value → ∀ c ∈ span buffer r.parser.fieldStart
        r.parser.fieldLen, isToken c = true := fun hv => ho.named (hcs ▸ hv)
    cases he with
    | writeValue hv hacts _ =>
      have hheader : ∀ w : List Byte, ∀ h' ∈ r.headers ++
          [(span buffer r.parser.fieldStart r.parser.fieldLen, w)], ∀ c ∈ h'.1, isToken c = true := by
        intro w h' hh
        rcases List.mem_append.mp hh with hh | hh
        · exact h.names h' hh
        · rw [List.mem_singleton] at hh
          exact hh ▸ hnames hv
      rcases hacts with rfl | rfl <;> exact { h with names := hheader _ }
    | plain _ hw => exact absurd hvalue hw
    | startField => exact absurd hvalue (by simp)
    | inField => exact absurd hvalue (by simp)
    | writeField => exact absurd hvalue (by simp)
    | inValue _ hacts _ => rcases hacts with rfl | rfl <;> exact absurd hvalue (by simp)
    | finish hacts _ => rcases hacts with rfl | rfl | rfl <;> exact absurd hvalue (by simp)
  by_cases hmark : .mark ∈ acts
  · -- the word that is reported is empty
    obtain ⟨hhead, htail⟩ := hs.marked hmark
    obtain ⟨tail, rfl⟩ := List.head?_eq_some_iff.mp hhead
    have hstart : .startQuery ∉ Act.mark :: tail := fun hq => by
      have hh := (hs.started hq).1
      exact absurd (hhead.symm.trans hh) (by simp)
    rw [List.foldl_cons]
    refine Worded.foldl (r := r.act buffer fpc .mark) { h with } ?_ ?_ htail ?_ ?_
    · exact fun a _ P _ => spelled_self P
    · intro hq
      rcases hs.queried (List.mem_cons_of_mem _ hq) with hq | hq
      · exact absurd hq hstart
      · exact ho.query hq
    · exact fun hq => hstart (List.mem_cons_of_mem _ hq)
    · exact fun hw => hvalue (List.mem_cons_of_mem _ hw)
  have hword : ∀ a ∈ acts, ∀ P, a.word = some P → Spelled buffer fpc r.parser.mark P := by
    intro a ha P hP
    exact ho.word P ((hs.reported a ha P hP).resolve_left hmark)
  by_cases hstart : .startQuery ∈ acts
  · -- the query that is reported is empty
    obtain ⟨hhead, htail⟩ := hs.started hstart
    obtain ⟨tail, rfl⟩ := List.head?_eq_some_iff.mp hhead
    rw [List.foldl_cons]
    refine Worded.foldl (r := r.act buffer fpc .startQuery) { h with } ?_ ?_ ?_ htail ?_
    · exact fun a ha => hword a (List.mem_cons_of_mem _ ha)
    · exact fun _ => spelled_self isTarget
    · exact fun hm => hmark (List.mem_cons_of_mem _ hm)
    · exact fun hw => hvalue (List.mem_cons_of_mem _ hw)
  · exact h.foldl hword (fun hq => ho.query ((hs.queried hq).resolve_left hstart)) hmark hstart hvalue

/-- What a transition leaves open. -/
theorem Open.take {c : Byte} {acts : List Act} {cs : Cs} (h : r.Open buffer fpc)
    (hc : buffer[fpc]? = some c) (hn : r.parser.cs.next c = some (acts, cs)) :
    (r.take buffer fpc acts cs).Open buffer (fpc + 1) := by
  have hs := next_spells hn
  have hmark : (r.take buffer fpc acts cs).parser.mark =
      if .mark ∈ acts then fpc else r.parser.mark := foldl_mark ..
  have hquery : (r.take buffer fpc acts cs).parser.queryStart =
      if .startQuery ∈ acts then fpc else r.parser.queryStart := foldl_queryStart ..
  constructor
  · intro P hP
    obtain ⟨hPc, hopen⟩ := hs.word P hP
    rw [hmark]
    split
    · exact (spelled_self P).succ hc hPc
    · exact (h.word P (hopen.resolve_left ‹_›)).succ hc hPc
  · intro hq
    obtain ⟨hPc, hopen⟩ := hs.query hq
    rw [hquery]
    split
    · exact (spelled_self isTarget).succ hc hPc
    · exact (h.query (hopen.resolve_left ‹_›)).succ hc hPc
  · intro hname
    have he := next_effect hn
    have htoken := hs.name hname
    generalize hcs : r.parser.cs = cs₀ at he
    change cs = .field at hname
    subst hname
    cases he with
    | plain _ _ _ _ hne => exact absurd rfl hne
    | startField => exact (spelled_self isToken).succ hc htoken
    | inField => exact (h.name hcs).succ hc htoken
    | inValue _ _ hcs' => rcases hcs' with hcs' | hcs' <;> exact absurd hcs' nofun
    | writeValue _ _ hcs' => rcases hcs' with hcs' | hcs' <;> exact absurd hcs' nofun
    | finish _ hf => exact absurd hf (by simp [Cs.isFinished])
  · intro hv
    change cs = .valueStart ∨ cs = .value at hv
    have he := next_effect hn
    generalize hcs : r.parser.cs = cs₀ at he
    cases he with
    | plain _ _ _ _ _ h₁ h₂ => exact absurd hv (not_or.mpr ⟨h₁, h₂⟩)
    | startField => exact absurd hv (by simp)
    | inField => exact absurd hv (by simp)
    | writeField => exact (h.name hcs).2
    | inValue hcs₀ hacts _ =>
      rcases hacts with rfl | rfl <;> exact h.named (hcs ▸ hcs₀)
    | writeValue _ _ hcs' => rcases hcs' with rfl | rfl <;> exact absurd hv (by simp)
    | finish _ hf => rcases hv with rfl | rfl <;> exact absurd hf (by simp [Cs.isFinished])

theorem consume_worded {xs : List Byte} (hxs : buffer.drop fpc = xs) (h : r.Worded)
    (ho : r.Open buffer fpc) : (consume buffer fpc xs r).1.Worded := by
  induction xs generalizing fpc r with
  | nil => exact h
  | cons c xs ih =>
    obtain ⟨hc, hrest⟩ := drop_eq_cons hxs
    rw [consume]
    cases hn : r.parser.cs.next c with
    | none => exact { h with }
    | some p =>
      obtain ⟨acts, cs⟩ := p
      dsimp only
      split
      · exact h.take ho hn
      · exact ih hrest (h.take ho hn) (ho.take hc hn)

/-- **The parts of a request are words of the grammar**, after the parse of any bytes. -/
theorem worded_parse (r : Request) (buffer : List Byte) : (r.parse buffer).1.Worded := by
  have hstart : r.start.Worded := by
    constructor <;> simp [start]
  have hopen : r.start.Open buffer 0 := by
    constructor <;> simp [start, Cs.word, Cs.inQuery]
  rw [parse, execute]
  split
  · exact hstart
  · exact { consume_worded rfl hstart hopen with }

/-! ### The kind of a request -/

end Request

namespace HttpParser

/-- The states behind the method of an HTTP request. -/
def Cs.named : Cs → Bool
  | .within part _ => part ∉ [.jsonPath, .jsonParams, .jsonQuery]
  | .uri | .star | .scheme _ | .queryStart | .fragmentStart | .version _ | .versionEnd
  | .headers | .lastLF | .field | .valueStart | .value | .lineLF => true
  | _ => false

def Cs.inPolicy : Cs → Bool
  | .policy _ => true
  | _ => false

theorem not_named_of_inPolicy {cs : Cs} (h : cs.inPolicy = true) : ¬cs.named = true := by
  cases cs <;> simp_all [Cs.named, Cs.inPolicy]

/-- How a transition goes on towards one of the three kinds of request. -/
structure Leads (cs : Cs) (acts : List Act) (cs' : Cs) : Prop where
  named : cs'.named = true → .requestMethod ∈ acts ∨ cs.named = true
  policy : cs'.inPolicy = true → acts = [] ∧ (cs = .start ∨ cs.inPolicy = true)
  done : cs' = .done → (acts = [.socket, .done] ∧ cs.inPolicy = true) ∨ cs.named = true
  jsonDone : cs' = .jsonDone → .json ∈ acts
  socket : .socket ∈ acts → cs' = .done ∧ cs.inPolicy = true
  start : cs' ≠ .start

theorem leave_leads {part : Part} {c : Byte} {acts : List Act} {cs : Cs}
    (h : part.leave c = some (acts, cs)) :
    (cs.named = true → (Cs.within part .out).named = true) ∧ cs.target = true ∧ .socket ∉ acts := by
  cases part <;> simp only [Part.leave] at h <;> split_ifs at h <;>
    obtain ⟨rfl, rfl⟩ := Prod.mk.inj (Option.some.inj h) <;> decide

theorem not_of_target {cs : Cs} (h : cs.target = true) :
    cs.inPolicy = false ∧ cs ≠ .done ∧ cs ≠ .jsonDone ∧ cs ≠ .start := by
  cases cs <;> simp_all [Cs.target, Cs.inPolicy]

theorem Enters.leads {cs cs' : Cs} {part : Part} {acts acts' : List Act} {c : Byte}
    (he : Enters cs part acts) (h : part.enter acts c = some (acts', cs')) : Leads cs acts' cs' := by
  have hkind : (Cs.within part .out).named = cs.named := by cases he <;> rfl
  have hacts : .socket ∉ acts := by cases he <;> decide
  have hof : ∀ {acts' cs'}, (cs'.named = true → cs.named = true) → cs'.target = true →
      .socket ∉ acts' → Leads cs acts' cs' := by
    intro acts' cs' hn ht hs
    obtain ⟨hpolicy, hdone, hjson, hstart⟩ := not_of_target ht
    exact ⟨fun hn' => .inr (hn hn'), fun hp => absurd hp (by simp [hpolicy]),
      fun hd => absurd hd hdone, fun hj => absurd hj hjson, fun hm => absurd hm hs, hstart⟩
  unfold Part.enter at h
  split at h
  · obtain ⟨rfl, rfl⟩ := Prod.mk.inj (Option.some.inj h)
    exact hof (fun hn => hkind ▸ hn) rfl hacts
  · split at h
    case h_1 tail cs'' hl =>
      obtain ⟨rfl, rfl⟩ := Prod.mk.inj (Option.some.inj h)
      obtain ⟨hn, ht, hs⟩ := leave_leads hl
      refine hof (fun hn' => hkind ▸ hn hn') ht ?_
      rw [List.mem_append, not_or]
      exact ⟨hacts, hs⟩
    case h_2 =>
      obtain ⟨-, h⟩ := Option.ite_none_right_eq_some.mp h
      obtain ⟨rfl, rfl⟩ := Prod.mk.inj (Option.some.inj h)
      exact hof (fun hn => hkind ▸ hn) rfl hacts

theorem next_leads {cs cs' : Cs} {c : Byte} {acts : List Act}
    (h : cs.next c = some (acts, cs')) : Leads cs acts cs' := by
  cases cs with
  | «within» part esc =>
    cases esc with
    | out => exact Enters.leads (.within part) h
    | first | second =>
      simp only [Cs.next] at h
      split_ifs at h
      obtain ⟨rfl, rfl⟩ := Prod.mk.inj (Option.some.inj h)
      constructor <;> simp [Cs.named, Cs.inPolicy]
  | queryStart => exact Enters.leads .query h
  | fragmentStart => exact Enters.leads .fragment h
  | jsonQueryStart => exact Enters.leads .jsonQuery h
  | jsonStart =>
    simp only [Cs.next] at h
    split_ifs at h
    exact Enters.leads .json h
  | error => exact absurd h (by simp [Cs.next])
  | done => exact absurd h (by simp [Cs.next])
  | _ =>
    simp only [Cs.next] at h
    split_ifs at h <;> obtain ⟨rfl, rfl⟩ := Prod.mk.inj (Option.some.inj h) <;>
      constructor <;> simp [Cs.named, Cs.inPolicy]

end HttpParser

namespace Request

variable {buffer : List Byte} {fpc : ℕ} {r : Request}

/-- What is known of the kind of a request from the state. -/
structure Kind (r : Request) : Prop where
  named : r.parser.cs.named = true → r.requestMethod.isSome = true
  early : r.parser.cs = .start ∨ r.parser.cs.inPolicy = true → r.path = none
  socket : r.parser.socketStarted = true →
    r.path = none ∧ (r.parser.cs = .done ∨ r.parser.cs = .error)
  done : r.parser.cs = .done → r.parser.socketStarted = true ∨ r.requestMethod.isSome = true
  jsonDone : r.parser.cs = .jsonDone → r.parser.jsonSent = true

theorem foldl_requestMethod (buffer : List Byte) (fpc : ℕ) (acts : List Act) (r : Request) :
    (acts.foldl (fun r a => r.act buffer fpc a) r).requestMethod.isSome =
      (decide (.requestMethod ∈ acts) || r.requestMethod.isSome) := by
  have hsets := @foldl_act_sets _ (·.requestMethod.isSome) .requestMethod buffer fpc
    (fun a ha r => by cases a <;> first | rfl | exact absurd rfl ha) true (fun _ => rfl) acts r
  rw [hsets]
  by_cases hmem : .requestMethod ∈ acts <;> simp [hmem]

theorem foldl_jsonSent (buffer : List Byte) (fpc : ℕ) (acts : List Act) (r : Request) :
    (acts.foldl (fun r a => r.act buffer fpc a) r).parser.jsonSent =
      (decide (.json ∈ acts) || r.parser.jsonSent) := by
  have hsets := @foldl_act_sets _ (·.parser.jsonSent) .json buffer fpc
    (fun a ha r => by cases a <;> first | rfl | exact absurd rfl ha) true (fun _ => rfl) acts r
  rw [hsets]
  by_cases hmem : .json ∈ acts <;> simp [hmem]

theorem foldl_socketStarted (buffer : List Byte) (fpc : ℕ) (acts : List Act) (r : Request) :
    (acts.foldl (fun r a => r.act buffer fpc a) r).parser.socketStarted =
      (decide (.socket ∈ acts) || r.parser.socketStarted) := by
  have hsets := @foldl_act_sets _ (·.parser.socketStarted) .socket buffer fpc
    (fun a ha r => by cases a <;> first | rfl | exact absurd rfl ha) true (fun _ => rfl) acts r
  rw [hsets]
  by_cases hmem : .socket ∈ acts <;> simp [hmem]

theorem Kind.take {c : Byte} {acts : List Act} {cs : Cs} (h : r.Kind)
    (hn : r.parser.cs.next c = some (acts, cs)) : (r.take buffer fpc acts cs).Kind := by
  have hl := next_leads hn
  have hrunning : r.parser.socketStarted = false := by
    by_contra hs
    rw [Bool.not_eq_false] at hs
    rcases (h.socket hs).2 with hcs | hcs <;> rw [hcs] at hn <;> exact absurd hn (by simp [Cs.next])
  have hmethod : (r.take buffer fpc acts cs).requestMethod.isSome =
      (decide (.requestMethod ∈ acts) || r.requestMethod.isSome) := foldl_requestMethod ..
  have hjson : (r.take buffer fpc acts cs).parser.jsonSent =
      (decide (.json ∈ acts) || r.parser.jsonSent) := foldl_jsonSent ..
  have hsocket : (r.take buffer fpc acts cs).parser.socketStarted =
      (decide (.socket ∈ acts) || r.parser.socketStarted) := foldl_socketStarted ..
  constructor
  · intro hnamed
    rw [hmethod]
    rcases hl.named hnamed with hm | hm
    · simp [hm]
    · simp [h.named hm]
  · intro hearly
    obtain ⟨rfl, hcs⟩ := hl.policy (hearly.resolve_left hl.start)
    exact h.early hcs
  · intro hs
    rw [hsocket, hrunning, Bool.or_false, decide_eq_true_eq] at hs
    obtain ⟨hdone, hpolicy⟩ := hl.socket hs
    obtain ⟨rfl, -⟩ : acts = [.socket, .done] ∧ cs = .done := by
      rcases hl.done hdone with ⟨hacts, -⟩ | hnamed
      · exact ⟨hacts, hdone⟩
      · exact absurd hnamed (not_named_of_inPolicy hpolicy)
    exact ⟨h.early (.inr hpolicy), .inl hdone⟩
  · intro hdone
    rcases hl.done hdone with ⟨rfl, -⟩ | hnamed
    · exact .inl (by rw [hsocket]; rfl)
    · exact .inr (by rw [hmethod, h.named hnamed, Bool.or_true])
  · intro hdone
    rw [hjson]
    simp [hl.jsonDone hdone]

theorem consume_kind (xs : List Byte) (h : r.Kind) : (consume buffer fpc xs r).1.Kind := by
  induction xs generalizing fpc r with
  | nil => exact h
  | cons c xs ih =>
    rw [consume]
    cases hn : r.parser.cs.next c with
    | none =>
      exact ⟨fun he => absurd he (by simp [Cs.named]), fun he => absurd he (by simp [Cs.inPolicy]),
        fun hs => ⟨(h.socket hs).1, .inr rfl⟩, fun he => absurd he (by simp),
        fun he => absurd he (by simp)⟩
    | some p =>
      obtain ⟨acts, cs⟩ := p
      dsimp only
      split
      · exact h.take hn
      · exact ih (h.take hn)

theorem eq_of_isFinished {cs : Cs} (h : cs.isFinished = true) : cs = .done ∨ cs = .jsonDone := by
  cases cs <;> simp_all [Cs.isFinished]

theorem kind_parse (r : Request) (buffer : List Byte) : (r.parse buffer).1.Kind := by
  have hstart : r.start.Kind := by
    constructor <;> simp [start, Cs.named]
  rw [parse, execute]
  split
  · exact hstart
  · exact { consume_kind _ hstart with }

/-- **A request with a path that is complete is JSON or has a method.** -/
theorem method_of_finish {p : List Byte} (h : (r.parse buffer).1.finish = 1)
    (hp : (r.parse buffer).1.path = some p) :
    (r.parse buffer).1.parser.jsonSent = true ∨ (r.parse buffer).1.requestMethod.isSome = true := by
  have hk := kind_parse r buffer
  generalize (r.parse buffer).1 = r' at h hp hk
  have hf : r'.parser.cs.isFinished = true := by
    rw [finish] at h
    split_ifs at h <;> first | assumption | omega
  rcases Bool.eq_false_or_eq_true r'.parser.socketStarted with hs | hs
  · exact absurd (hp.symm.trans (hk.socket hs).1) nofun
  rcases eq_of_isFinished hf with hcs | hcs
  · exact .inr ((hk.done hcs).resolve_left (by simp [hs]))
  · exact .inl (hk.jsonDone hcs)

end Request

end Mongrel2

/-
Parts of a request that are reported once (`http11/http11_parser.rl`, `request.c`).

* `Cs.due` — what a state of the machine may still report;
* `next_due` — a transition reports no more than that, but for the space behind a JSON
  target with parameters or a query;
* `Rereported` — the messages with such a target, in the grammar's words;
* `reportedOnce_iff` — in whichever pieces the bytes come, every part is reported at most
  once and the path is without the query, if and only if they do not begin with such a
  message.

Design notes: `rel_path` reports the path where its parameters or its query begin, and
`SocketJSON` reports it at the space.
-/
import Mongrel2.Callbacks
import Mongrel2.MsgStream
import Mongrel2.RequestTarget
import Mongrel2.RequestWords

namespace Mongrel2

open ByteStream (Byte)
open HttpParser

/-! ### What is reported -/

/-- The callbacks that a request has one value of. -/
inductive Single
  | requestMethod | requestUri | requestPath | queryString | fragment | httpVersion | headerDone
  deriving DecidableEq

def Callback.kind : Callback → Option Single
  | .httpField _ _ => none
  | .requestMethod _ => some .requestMethod
  | .requestUri _ => some .requestUri
  | .fragment _ => some .fragment
  | .requestPath _ => some .requestPath
  | .queryString _ => some .queryString
  | .httpVersion _ => some .httpVersion
  | .headerDone _ _ => some .headerDone

/-- How often the kind is among the callbacks. -/
def count (k : Single) (events : List Callback) : ℕ := events.countP fun e => e.kind = some k

/-- The string of a `Request` that a callback of the kind stores. -/
def Single.slot : Single → Request → Option (List Byte)
  | .requestMethod, r => r.requestMethod
  | .requestUri, r => r.uri
  | .requestPath, r => r.path
  | .queryString, r => r.queryString
  | .fragment, r => r.fragment
  | .httpVersion, r => r.version
  | .headerDone, _ => none

/-- What is reported of a request that was started: each part at most once, so that no
string is stored over another one; and the path is without a query. -/
structure ReportedOnce (r : Request) (events : List Callback) : Prop where
  once : ∀ k, count k events ≤ 1
  fresh : ∀ before e after k, events = before ++ e :: after → e.kind = some k →
    k.slot (before.foldl (fun r e => e.handle r) r.start) = none
  path : ∀ xs, .requestPath xs ∈ events → chr '?' ∉ xs

namespace HttpParser

/-! ### What is due -/

def Act.kind : Act → Option Single
  | .requestMethod => some .requestMethod
  | .requestUri => some .requestUri
  | .requestPath => some .requestPath
  | .queryString => some .queryString
  | .fragment => some .fragment
  | .httpVersion => some .httpVersion
  | .done => some .headerDone
  | .mark | .startField | .writeField | .writeValue | .startQuery | .socket | .json => none

/-- How often the kind is among what the actions report. -/
def countActs (k : Single) (acts : List Act) : ℕ := acts.countP fun a => a.kind = some k

/-- What may be reported in the state or later. -/
def Cs.due : Cs → Single → Bool
  | .start, _ | .method _, _ => true
  | .uri, k | .star, k | .scheme _, k | .within .absolute _, k | .within .path _, k =>
    k != .requestMethod
  | .within .params _, k => k != .requestMethod && k != .requestPath
  | .queryStart, k | .within .query _, k => k != .requestMethod && k != .requestPath
  | .fragmentStart, k | .within .fragment _, k =>
    k == .fragment || k == .httpVersion || k == .headerDone
  | .version _, k | .versionEnd, k => k == .httpVersion || k == .headerDone
  | .headers, k | .lastLF, k | .field, k | .valueStart, k | .value, k | .lineLF, k
  | .policy _, k | .brace, k | .json, k => k == .headerDone
  | .jsonStart, k | .within .jsonPath _, k =>
    k == .requestPath || k == .queryString || k == .headerDone
  | .within .jsonParams _, k | .jsonQueryStart, k | .within .jsonQuery _, k =>
    k == .queryString || k == .headerDone
  | .error, _ | .done, _ | .jsonDone, _ => false

/-- The states of a JSON target between characters. -/
def Cs.between : Cs → Bool
  | .within .jsonPath .out | .within .jsonParams .out | .jsonQueryStart
  | .within .jsonQuery .out => true
  | _ => false

/-- Those of them that are reached by a `;` or a `?`, between characters. -/
def Cs.jsonTail : Cs → Bool
  | .within .jsonParams .out | .jsonQueryStart | .within .jsonQuery .out => true
  | _ => false

variable {cs cs' : Cs} {part : Part} {acts acts₀ : List Act} {c : Byte} {k : Single}

theorem countActs_append (k : Single) (acts acts' : List Act) :
    countActs k (acts ++ acts') = countActs k acts + countActs k acts' :=
  List.countP_append

theorem leave_due (h : part.leave c = some (acts, cs'))
    (hspace : (Cs.within part .out).jsonTail = true → c ≠ chr ' ') :
    countActs k acts + (cs'.due k).toNat ≤ ((Cs.within part .out).due k).toNat := by
  cases part <;> simp only [Part.leave] at h <;> split_ifs at h <;>
    first
    | exact absurd ‹c = chr ' '› (hspace rfl)
    | (obtain ⟨rfl, rfl⟩ := Prod.mk.inj (Option.some.inj h)
       cases k <;> decide)

/-- The first character of a part is as one inside it. -/
theorem enter_due (h : part.enter acts₀ c = some (acts, cs')) (h₀ : countActs k acts₀ = 0)
    (hspace : (Cs.within part .out).jsonTail = true → c ≠ chr ' ') :
    countActs k acts + (cs'.due k).toNat ≤ ((Cs.within part .out).due k).toNat := by
  have hstay : ∀ esc, (Cs.within part esc).due k = (Cs.within part .out).due k := by
    intro esc
    cases part <;> rfl
  unfold Part.enter at h
  split at h
  · obtain ⟨rfl, rfl⟩ := Prod.mk.inj (Option.some.inj h)
    rw [h₀, Nat.zero_add, hstay]
  · split at h
    case h_1 acts' cs₁ hleave =>
      obtain ⟨rfl, rfl⟩ := Prod.mk.inj (Option.some.inj h)
      rw [countActs_append, h₀, Nat.zero_add]
      exact leave_due hleave hspace
    case h_2 =>
      obtain ⟨-, h⟩ := Option.ite_none_right_eq_some.mp h
      obtain ⟨rfl, rfl⟩ := Prod.mk.inj (Option.some.inj h)
      rw [h₀, Nat.zero_add]

/-- **A transition reports what is due**, once. -/
theorem next_due (h : cs.next c = some (acts, cs')) (hrun : cs.isFinished = false)
    (hspace : cs.jsonTail = true → c ≠ chr ' ') :
    countActs k acts + (cs'.due k).toNat ≤ (cs.due k).toNat := by
  have hplain : ∀ {a b : List Act} {d e : Cs}, some (a, d) = some (b, e) →
      countActs k a + (d.due k).toNat ≤ (cs.due k).toNat →
      countActs k b + (e.due k).toNat ≤ (cs.due k).toNat := by
    intro a b d e he hle
    obtain ⟨rfl, rfl⟩ := Prod.mk.inj (Option.some.inj he)
    exact hle
  cases cs with
  | «within» part esc =>
    have hstay : ∀ esc esc', ((Cs.within part esc).due k).toNat = ((Cs.within part esc').due k).toNat := by
      intro esc esc'
      cases part <;> rfl
    cases esc with
    | out => exact enter_due h rfl hspace
    | first | second =>
      simp only [Cs.next] at h
      split_ifs at h
      refine hplain h ?_
      rw [countActs, List.countP_nil, Nat.zero_add]
      exact (hstay _ _).le
  | queryStart => exact enter_due h rfl hspace
  | fragmentStart => exact enter_due h rfl (by simp [Cs.jsonTail])
  | jsonQueryStart => exact enter_due h rfl hspace
  | jsonStart =>
    simp only [Cs.next] at h
    split_ifs at h
    exact enter_due h rfl hspace
  | done | jsonDone => exact absurd hrun (by simp [Cs.isFinished])
  | error => exact absurd h (by simp [Cs.next])
  | _ =>
    simp only [Cs.next] at h
    split_ifs at h <;> refine hplain h ?_ <;> cases k <;>
      exact Nat.le_of_ble_eq_true rfl

/-! ### JSON targets -/

/-- A word of `uchar | reserved`. -/
inductive IsChars : List Byte → Prop
  | nil : IsChars []
  | char {c w} : isUchar c = true → IsChars w → IsChars (c :: w)
  | escape {a b w} : isXdigit a = true → isXdigit b = true → IsChars w →
      IsChars (chr '%' :: a :: b :: w)

theorem leave_json_due (h : part.leave c = some (acts, cs')) (hcs' : cs'.jsonTarget = true) :
    ((Cs.within part .out).due .requestPath).toNat ≤
      countActs .requestPath acts + (cs'.due .requestPath).toNat := by
  cases part <;> simp only [Part.leave] at h <;> split_ifs at h <;>
    obtain ⟨rfl, rfl⟩ := Prod.mk.inj (Option.some.inj h) <;>
      first | exact Nat.le_of_ble_eq_true rfl | exact absurd hcs' (by simp [Cs.jsonTarget])

theorem enter_json_due (h : part.enter acts₀ c = some (acts, cs')) (hcs' : cs'.jsonTarget = true) :
    ((Cs.within part .out).due .requestPath).toNat ≤
      countActs .requestPath acts + (cs'.due .requestPath).toNat := by
  have hstay : ∀ esc, ((Cs.within part .out).due .requestPath).toNat ≤
      countActs .requestPath acts₀ + ((Cs.within part esc).due .requestPath).toNat := by
    intro esc
    refine le_trans (le_of_eq ?_) (Nat.le_add_left ..)
    cases part <;> rfl
  unfold Part.enter at h
  split at h
  · obtain ⟨rfl, rfl⟩ := Prod.mk.inj (Option.some.inj h)
    exact hstay .first
  · split at h
    case h_1 acts' cs₁ hleave =>
      obtain ⟨rfl, rfl⟩ := Prod.mk.inj (Option.some.inj h)
      have hle := leave_json_due hleave hcs'
      rw [countActs_append]
      omega
    case h_2 =>
      obtain ⟨-, h⟩ := Option.ite_none_right_eq_some.mp h
      obtain ⟨rfl, rfl⟩ := Prod.mk.inj (Option.some.inj h)
      exact hstay .out

/-- On the way through a JSON target the path is reported where it is due no longer. -/
theorem json_due (h : cs.next c = some (acts, cs')) (hcs : cs.jsonTarget = true)
    (hcs' : cs'.jsonTarget = true) :
    (cs.due .requestPath).toNat ≤
      countActs .requestPath acts + (cs'.due .requestPath).toNat := by
  cases cs with
  | «within» part esc =>
    have hstay : ∀ esc esc', ((Cs.within part esc).due .requestPath).toNat ≤
        ((Cs.within part esc').due .requestPath).toNat := by
      intro esc esc'
      cases part <;> exact le_rfl
    cases esc with
    | out => exact enter_json_due h hcs'
    | first | second =>
      obtain ⟨-, h⟩ := Option.ite_none_right_eq_some.mp h
      obtain ⟨rfl, rfl⟩ := Prod.mk.inj (Option.some.inj h)
      exact le_trans (hstay _ _) (Nat.le_add_left ..)
  | jsonQueryStart => exact enter_json_due h hcs'
  | jsonStart =>
    obtain ⟨-, h⟩ := Option.ite_none_left_eq_some.mp h
    exact enter_json_due h hcs'
  | _ => exact absurd hcs (by simp [Cs.jsonTarget])

/-- A character of a JSON target. -/
theorem next_char (hcs : cs.between = true) (hc : isUchar c = true) :
    ∃ acts cs', cs.next c = some (acts, cs') ∧ cs'.between = true ∧
      (cs'.jsonTail = true ↔ cs.jsonTail = true ∨ c = chr ';' ∨ c = chr '?') := by
  have hpercent : c ≠ chr '%' := by
    rintro rfl
    exact absurd hc (by decide)
  have hspace : c ≠ chr ' ' := by
    rintro rfl
    exact absurd hc (by decide)
  cases cs with
  | «within» part esc =>
    cases esc with
    | out =>
      cases part with
      | jsonPath =>
        by_cases hsemi : c = chr ';'
        · subst hsemi
          exact ⟨_, _, rfl, rfl, iff_of_true rfl (.inr (.inl rfl))⟩
        by_cases hask : c = chr '?'
        · subst hask
          exact ⟨_, _, rfl, rfl, iff_of_true rfl (.inr (.inr rfl))⟩
        · refine ⟨[], .within .jsonPath .out, ?_, rfl, iff_of_false nofun ?_⟩
          · simp [Cs.next, Part.enter, Part.leave, Part.mem, hpercent, hspace, hsemi, hask, hc]
          · simp [hsemi, hask, Cs.jsonTail]
      | jsonParams =>
        by_cases hask : c = chr '?'
        · subst hask
          exact ⟨_, _, rfl, rfl, iff_of_true rfl (.inl rfl)⟩
        · refine ⟨[], .within .jsonParams .out, ?_, rfl, iff_of_true rfl (.inl rfl)⟩
          simp [Cs.next, Part.enter, Part.leave, Part.mem, hpercent, hspace, hask, hc]
      | jsonQuery =>
        refine ⟨[], .within .jsonQuery .out, ?_, rfl, iff_of_true rfl (.inl rfl)⟩
        simp [Cs.next, Part.enter, Part.leave, Part.mem, hpercent, hspace, hc]
      | _ => exact absurd hcs (by simp [Cs.between])
    | _ => exact absurd hcs (by cases part <;> simp [Cs.between])
  | jsonQueryStart =>
    refine ⟨[.startQuery], .within .jsonQuery .out, ?_, rfl, iff_of_true rfl (.inl rfl)⟩
    simp [Cs.next, Part.enter, Part.leave, Part.mem, hpercent, hspace, hc]
  | _ => exact absurd hcs (by simp [Cs.between])

/-- An escape of a JSON target. -/
theorem run_escape {a b : Byte} (hcs : cs.between = true) (ha : isXdigit a = true)
    (hb : isXdigit b = true) :
    ∃ cs', cs.run [chr '%', a, b] = some cs' ∧ cs'.between = true ∧
      (cs'.jsonTail = true ↔ cs.jsonTail = true) := by
  have hrun : ∀ {part acts}, cs.next (chr '%') = some (acts, .within part .first) →
      cs.run [chr '%', a, b] = some (.within part .out) := by
    intro part acts h
    have hfirst : (Cs.within part .first).next a = some ([], .within part .second) := if_pos ha
    have hsecond : (Cs.within part .second).next b = some ([], .within part .out) := if_pos hb
    rw [Cs.run, h]
    show (Cs.within part .first).run [a, b] = _
    rw [Cs.run, hfirst]
    exact run_singleton hsecond
  cases cs with
  | «within» part esc =>
    cases esc with
    | out =>
      cases part with
      | jsonPath | jsonParams | jsonQuery => exact ⟨_, hrun rfl, rfl, Iff.rfl⟩
      | _ => exact absurd hcs (by simp [Cs.between])
    | _ => exact absurd hcs (by cases part <;> simp [Cs.between])
  | jsonQueryStart => exact ⟨_, hrun rfl, rfl, iff_of_true rfl rfl⟩
  | _ => exact absurd hcs (by simp [Cs.between])

theorem run_chars {w : List Byte} (hw : IsChars w) (hcs : cs.between = true) :
    ∃ cs', cs.run w = some cs' ∧ cs'.between = true ∧
      (cs'.jsonTail = true ↔ cs.jsonTail = true ∨ chr ';' ∈ w ∨ chr '?' ∈ w) := by
  induction hw generalizing cs with
  | nil => exact ⟨cs, rfl, hcs, by simp⟩
  | @char c w hc _ ih =>
    obtain ⟨acts, cs₁, hnext, hcs₁, htail₁⟩ := next_char hcs hc
    obtain ⟨cs', hrun, hcs', htail⟩ := ih hcs₁
    refine ⟨cs', ?_, hcs', ?_⟩
    · rw [Cs.run, hnext]
      exact hrun
    · rw [htail, htail₁, List.mem_cons, List.mem_cons, eq_comm (a := c), eq_comm (a := c),
        or_assoc, or_or_or_comm]
  | @escape a b w ha hb _ ih =>
    obtain ⟨cs₁, hrun₁, hcs₁, htail₁⟩ := run_escape hcs ha hb
    obtain ⟨cs', hrun, hcs', htail⟩ := ih hcs₁
    have hplain : ∀ {d}, d = chr ';' ∨ d = chr '?' → isXdigit d = false ∧ d ≠ chr '%' := by
      rintro d (rfl | rfl) <;> decide
    have hmem : ∀ {d}, d = chr ';' ∨ d = chr '?' → (d ∈ chr '%' :: a :: b :: w ↔ d ∈ w) := by
      intro d hd
      obtain ⟨hx, hp⟩ := hplain hd
      have hda : d ≠ a := by
        rintro rfl
        exact absurd ha (by simp [hx])
      have hdb : d ≠ b := by
        rintro rfl
        exact absurd hb (by simp [hx])
      simp [hp, hda, hdb]
    refine ⟨cs', ?_, hcs', ?_⟩
    · rw [show chr '%' :: a :: b :: w = [chr '%', a, b] ++ w from rfl, run_append, hrun₁]
      exact hrun
    · rw [htail, htail₁, hmem (.inl rfl), hmem (.inr rfl)]

theorem jsonTarget_of_between (h : cs.between = true) : cs.jsonTarget = true := by
  cases cs with
  | «within» part esc => cases part <;> cases esc <;> first | rfl | exact absurd h (by simp [Cs.between])
  | jsonQueryStart => rfl
  | _ => exact absurd h (by simp [Cs.between])

theorem between_of_jsonTail (h : cs.jsonTail = true) : cs.between = true := by
  cases cs with
  | «within» part esc => cases part <;> cases esc <;> first | rfl | exact absurd h (by simp [Cs.jsonTail])
  | jsonQueryStart => rfl
  | _ => exact absurd h (by simp [Cs.jsonTail])

theorem leave_not_json (h : part.leave c = some (acts, cs'))
    (hpart : (Cs.within part .out).jsonTarget = false) : cs'.jsonTarget = false ∧ cs' ≠ .start := by
  cases part <;> simp only [Part.leave] at h <;> split_ifs at h <;>
    obtain ⟨rfl, rfl⟩ := Prod.mk.inj (Option.some.inj h) <;>
      first | exact ⟨rfl, by simp⟩ | exact absurd hpart (by simp [Cs.jsonTarget])

theorem enter_not_json (h : part.enter acts₀ c = some (acts, cs'))
    (hpart : (Cs.within part .out).jsonTarget = false) : cs'.jsonTarget = false ∧ cs' ≠ .start := by
  have hstay : ∀ esc, (Cs.within part esc).jsonTarget = false := by
    intro esc
    cases part <;> first | rfl | exact absurd hpart (by simp [Cs.jsonTarget])
  unfold Part.enter at h
  split at h
  · obtain ⟨rfl, rfl⟩ := Prod.mk.inj (Option.some.inj h)
    exact ⟨hstay .first, by simp⟩
  · split at h
    case h_1 acts' cs₁ hleave =>
      obtain ⟨rfl, rfl⟩ := Prod.mk.inj (Option.some.inj h)
      exact leave_not_json hleave hpart
    case h_2 =>
      obtain ⟨-, h⟩ := Option.ite_none_right_eq_some.mp h
      obtain ⟨rfl, rfl⟩ := Prod.mk.inj (Option.some.inj h)
      exact ⟨hstay .out, by simp⟩

/-- Only the first byte leads into a JSON target. -/
theorem next_not_json (h : cs.next c = some (acts, cs')) (hcs : cs.jsonTarget = false)
    (hstart : cs ≠ .start) : cs'.jsonTarget = false ∧ cs' ≠ .start := by
  cases cs with
  | start => exact absurd rfl hstart
  | «within» part esc =>
    have hstay : ∀ esc, (Cs.within part esc).jsonTarget = false := by
      intro esc
      cases part <;> first | rfl | exact absurd hcs (by simp [Cs.jsonTarget])
    cases esc with
    | out => exact enter_not_json h hcs
    | first | second =>
      obtain ⟨-, h⟩ := Option.ite_none_right_eq_some.mp h
      obtain ⟨rfl, rfl⟩ := Prod.mk.inj (Option.some.inj h)
      exact ⟨hstay _, by simp⟩
  | queryStart => exact enter_not_json h rfl
  | fragmentStart => exact enter_not_json h rfl
  | jsonStart | jsonQueryStart => exact absurd hcs (by simp [Cs.jsonTarget])
  | error | done => exact absurd h (by simp [Cs.next])
  | _ =>
    simp only [Cs.next] at h
    split_ifs at h <;> obtain ⟨rfl, rfl⟩ := Prod.mk.inj (Option.some.inj h) <;>
      exact ⟨rfl, by simp⟩

theorem run_not_json {w : List Byte} (hcs : cs.jsonTarget = false) (hstart : cs ≠ .start)
    (hrun : cs.run w = some cs') : cs'.jsonTarget = false := by
  induction w generalizing cs with
  | nil =>
    obtain rfl := Option.some.inj hrun
    exact hcs
  | cons c w ih =>
    obtain ⟨acts, cs₁, hnext, hrun⟩ := run_cons hrun
    obtain ⟨hcs₁, hstart₁⟩ := next_not_json hnext hcs hstart
    exact ih hcs₁ hstart₁ hrun

/-- What can stand in a JSON target between characters. -/
theorem next_between (h : cs.next c = some (acts, cs')) (hcs : cs.between = true) :
    isUchar c = true ∧ cs'.between = true ∨ cs' = .brace ∨
      c = chr '%' ∧ ∃ part, cs' = .within part .first ∧ (Cs.within part .out).between = true := by
  have henter : ∀ {part : Part} {acts₀}, (Cs.within part .out).between = true →
      part.enter acts₀ c = some (acts, cs') →
      isUchar c = true ∧ cs'.between = true ∨ cs' = .brace ∨
        c = chr '%' ∧ ∃ part, cs' = .within part .first ∧ (Cs.within part .out).between = true := by
    intro part acts₀ hpart h
    unfold Part.enter at h
    split at h
    case isTrue hc =>
      obtain ⟨rfl, rfl⟩ := Prod.mk.inj (Option.some.inj h)
      exact .inr (.inr ⟨hc, part, rfl, hpart⟩)
    case isFalse =>
      split at h
      case h_1 acts' cs₁ hleave =>
        obtain ⟨rfl, rfl⟩ := Prod.mk.inj (Option.some.inj h)
        have hsemi : isUchar (chr ';') = true := by decide
        have hask : isUchar (chr '?') = true := by decide
        cases part <;> simp only [Part.leave] at hleave <;> split_ifs at hleave <;>
          obtain ⟨rfl, rfl⟩ := Prod.mk.inj (Option.some.inj hleave) <;>
            first
            | exact .inr (.inl rfl)
            | exact .inl ⟨‹c = chr ';'› ▸ hsemi, rfl⟩
            | exact .inl ⟨‹c = chr '?'› ▸ hask, rfl⟩
            | exact absurd hpart (by simp [Cs.between])
      case h_2 =>
        obtain ⟨hmem, h⟩ := Option.ite_none_right_eq_some.mp h
        obtain ⟨rfl, rfl⟩ := Prod.mk.inj (Option.some.inj h)
        refine .inl ⟨?_, hpart⟩
        cases part <;> simp only [Part.mem, Bool.and_eq_true] at hmem <;>
          first | exact hmem | exact hmem.1 | exact hmem.1.1
  cases cs with
  | «within» part esc =>
    cases esc with
    | out => exact henter hcs h
    | _ => exact absurd hcs (by cases part <;> simp [Cs.between])
  | jsonQueryStart => exact henter rfl h
  | _ => exact absurd hcs (by simp [Cs.between])

/-- What leads from character to character is characters. -/
theorem chars_of_run {w : List Byte} (hcs : cs.between = true) (hrun : cs.run w = some cs')
    (hcs' : cs'.between = true) : IsChars w := by
  induction hlen : w.length using Nat.strong_induction_on generalizing w cs with
  | _ len ih =>
    cases w with
    | nil => exact .nil
    | cons c w =>
      rw [List.length_cons] at hlen
      obtain ⟨acts, cs₁, hnext, hrun⟩ := run_cons hrun
      rcases next_between hnext hcs with ⟨hc, hcs₁⟩ | rfl | ⟨rfl, part, rfl, hpart⟩
      · exact .char hc (ih w.length (by omega) hcs₁ hrun rfl)
      · -- behind the space there is no way back
        have hout := run_not_json rfl (by simp) hrun
        rw [jsonTarget_of_between hcs'] at hout
        exact absurd hout (by simp)
      · have hinside : ∀ esc, esc ≠ .out → (Cs.within part esc).between ≠ true := by
          intro esc hesc
          cases part <;> cases esc <;> first | exact absurd rfl hesc | simp [Cs.between]
        cases w with
        | nil =>
          obtain rfl := Option.some.inj hrun
          exact absurd hcs' (hinside .first (by simp))
        | cons a w =>
          obtain ⟨acts, cs₂, hnext, hrun⟩ := run_cons hrun
          obtain ⟨ha, hnext⟩ := Option.ite_none_right_eq_some.mp hnext
          obtain ⟨rfl, rfl⟩ := Prod.mk.inj (Option.some.inj hnext)
          cases w with
          | nil =>
            obtain rfl := Option.some.inj hrun
            exact absurd hcs' (hinside .second (by simp))
          | cons b w =>
            obtain ⟨acts, cs₃, hnext, hrun⟩ := run_cons hrun
            obtain ⟨hb, hnext⟩ := Option.ite_none_right_eq_some.mp hnext
            obtain ⟨rfl, rfl⟩ := Prod.mk.inj (Option.some.inj hnext)
            simp only [List.length_cons] at hlen
            exact .escape ha hb (ih w.length (by omega) hpart hrun rfl)

/-- **The targets that lead behind a `;` or a `?`**, between characters. -/
theorem jsonTail_iff {t : List Byte} :
    (∃ cs', Cs.jsonStart.run t = some cs' ∧ cs'.jsonTail = true) ↔
      IsChars t ∧ t.head? ≠ some (chr '/') ∧ (chr ';' ∈ t ∨ chr '?' ∈ t) := by
  cases t with
  | nil =>
    refine iff_of_false ?_ (by simp)
    rintro ⟨cs', hrun, htail⟩
    obtain rfl := Option.some.inj hrun
    exact absurd htail (by simp [Cs.jsonTail])
  | cons c w =>
    rw [List.head?_cons, Ne, Option.some_inj]
    by_cases hc : c = chr '/'
    · subst hc
      refine iff_of_false ?_ fun h => h.2.1 rfl
      rintro ⟨cs', hrun, -⟩
      exact absurd hrun (by simp [Cs.run, Cs.next])
    · -- the first character is as one inside the path
      have hfirst : Cs.jsonStart.run (c :: w) = (Cs.within .jsonPath .out).run (c :: w) := by
        simp only [Cs.run, Cs.next, if_neg hc]
      rw [hfirst]
      constructor
      · rintro ⟨cs', hrun, htail⟩
        have hchars := chars_of_run rfl hrun (between_of_jsonTail htail)
        obtain ⟨cs₁, hrun₁, -, htail₁⟩ := @run_chars (.within .jsonPath .out) _ hchars rfl
        obtain rfl := Option.some.inj (hrun₁.symm.trans hrun)
        exact ⟨hchars, hc, (htail₁.mp htail).resolve_left (by simp [Cs.jsonTail])⟩
      · rintro ⟨hchars, -, hmem⟩
        obtain ⟨cs', hrun, -, htail⟩ := @run_chars (.within .jsonPath .out) _ hchars rfl
        exact ⟨cs', hrun, htail.mpr (.inr hmem)⟩

/-! ### The path and the query -/

/-- The states inside a path. -/
def Cs.inPath : Cs → Bool
  | .within .path _ | .within .jsonPath _ | .jsonStart => true
  | _ => false

/-- What a transition does to a path that is being read. -/
structure PathStep (cs : Cs) (c : Byte) (acts : List Act) (cs' : Cs) : Prop where
  reports : .requestPath ∈ acts → .mark ∉ acts ∧ cs.inPath = true
  goes : cs'.inPath = true → c ≠ chr '?' ∧ (.mark ∈ acts ∨ .mark ∉ acts ∧ cs.inPath = true)

theorem leave_path (h : part.leave c = some (acts, cs'))
    (hspace : (Cs.within part .out).jsonTail = true → c ≠ chr ' ') :
    .mark ∉ acts ∧ (.requestPath ∈ acts → (Cs.within part .out).inPath = true) ∧
      cs'.inPath = false := by
  cases part <;> simp only [Part.leave] at h <;> split_ifs at h <;>
    first
    | exact absurd ‹c = chr ' '› (hspace rfl)
    | (obtain ⟨rfl, rfl⟩ := Prod.mk.inj (Option.some.inj h)
       decide)

theorem enter_path (h : part.enter acts₀ c = some (acts, cs')) (h₀ : .requestPath ∉ acts₀)
    (hpart : (Cs.within part .out).inPath = true → acts₀ = [])
    (hspace : (Cs.within part .out).jsonTail = true → c ≠ chr ' ') :
    (.requestPath ∈ acts → .mark ∉ acts ∧ (Cs.within part .out).inPath = true) ∧
      (cs'.inPath = true → c ≠ chr '?' ∧ .mark ∉ acts ∧ (Cs.within part .out).inPath = true) := by
  have hstay : ∀ esc, (Cs.within part esc).inPath = (Cs.within part .out).inPath := by
    intro esc
    cases part <;> rfl
  have hmark : (Cs.within part .out).inPath = true → .mark ∉ acts₀ := by
    intro hin
    rw [hpart hin]
    exact List.not_mem_nil
  unfold Part.enter at h
  split at h
  case isTrue hc =>
    obtain ⟨rfl, rfl⟩ := Prod.mk.inj (Option.some.inj h)
    refine ⟨fun hmem => absurd hmem h₀, fun hin => ?_⟩
    rw [hstay] at hin
    exact ⟨hc ▸ by decide, hmark hin, hin⟩
  case isFalse =>
    split at h
    case h_1 acts' cs₁ hleave =>
      obtain ⟨rfl, rfl⟩ := Prod.mk.inj (Option.some.inj h)
      obtain ⟨hacts', hreports, hout⟩ := leave_path hleave hspace
      refine ⟨fun hmem => ?_, fun hin => ?_⟩
      · have hin := hreports ((List.mem_append.mp hmem).resolve_left h₀)
        refine ⟨fun hmem => ?_, hin⟩
        exact (List.mem_append.mp hmem).elim (hmark hin) hacts'
      · rw [hout] at hin
        exact absurd hin (by simp)
    case h_2 =>
      obtain ⟨hmem, h⟩ := Option.ite_none_right_eq_some.mp h
      obtain ⟨rfl, rfl⟩ := Prod.mk.inj (Option.some.inj h)
      refine ⟨fun hmem => absurd hmem h₀, fun hin => ⟨?_, hmark hin, hin⟩⟩
      rintro rfl
      cases part <;> first | exact absurd hmem (by decide) | exact absurd hin (by simp [Cs.inPath])

theorem next_path (h : cs.next c = some (acts, cs')) (hspace : cs.jsonTail = true → c ≠ chr ' ') :
    PathStep cs c acts cs' := by
  have henter : ∀ {part : Part} {acts₀}, part.enter acts₀ c = some (acts, cs') →
      .requestPath ∉ acts₀ → ((Cs.within part .out).inPath = true → acts₀ = [] ∧ cs.inPath = true) →
      ((Cs.within part .out).jsonTail = true → c ≠ chr ' ') → PathStep cs c acts cs' := by
    intro part acts₀ h h₀ hpart hspace
    obtain ⟨hreports, hgoes⟩ := enter_path h h₀ (fun hin => (hpart hin).1) hspace
    constructor
    · intro hmem
      obtain ⟨hmark, hin⟩ := hreports hmem
      exact ⟨hmark, (hpart hin).2⟩
    · intro hin
      obtain ⟨hask, hmark, hin⟩ := hgoes hin
      exact ⟨hask, .inr ⟨hmark, (hpart hin).2⟩⟩
  cases cs with
  | «within» part esc =>
    have hstay : ∀ esc esc', (Cs.within part esc).inPath = (Cs.within part esc').inPath := by
      intro esc esc'
      cases part <;> rfl
    cases esc with
    | out => exact henter h List.not_mem_nil (fun hin => ⟨rfl, hin⟩) hspace
    | first | second =>
      obtain ⟨hx, h⟩ := Option.ite_none_right_eq_some.mp h
      obtain ⟨rfl, rfl⟩ := Prod.mk.inj (Option.some.inj h)
      refine ⟨fun hmem => absurd hmem List.not_mem_nil, fun hin => ⟨?_, .inr ⟨List.not_mem_nil, ?_⟩⟩⟩
      · rintro rfl
        exact absurd hx (by decide)
      · rw [← hin]
        exact hstay _ _
  | queryStart => exact henter h (by simp) (by simp [Cs.inPath]) hspace
  | fragmentStart => exact henter h (by simp) (by simp [Cs.inPath]) (by simp [Cs.jsonTail])
  | jsonQueryStart => exact henter h (by simp) (by simp [Cs.inPath]) hspace
  | jsonStart =>
    obtain ⟨-, h⟩ := Option.ite_none_left_eq_some.mp h
    exact henter h List.not_mem_nil (fun _ => ⟨rfl, rfl⟩) hspace
  | error | done => exact absurd h (by simp [Cs.next])
  | start | uri =>
    simp only [Cs.next] at h
    split_ifs at h <;> obtain ⟨rfl, rfl⟩ := Prod.mk.inj (Option.some.inj h) <;>
      constructor <;> simp_all [Cs.inPath, chr]
  | _ =>
    simp only [Cs.next] at h
    split_ifs at h <;> obtain ⟨rfl, rfl⟩ := Prod.mk.inj (Option.some.inj h) <;>
      constructor <;> simp [Cs.inPath]

end HttpParser

namespace HttpParser

variable {cs cs' : Cs} {acts : List Act} {c : Byte}

/-- The space behind a `;` or a `?` of a JSON target. -/
theorem tail_space (h : cs.jsonTail = true) :
    ∃ acts, cs.next (chr ' ') = some (acts, .brace) ∧
      (cs.due .requestPath).toNat + 1 ≤ countActs .requestPath acts := by
  cases cs with
  | «within» part esc =>
    cases part <;> cases esc <;>
      first
      | exact ⟨_, rfl, Nat.le_of_ble_eq_true rfl⟩
      | exact absurd h (by simp [Cs.jsonTail])
  | jsonQueryStart => exact ⟨_, rfl, Nat.le_of_ble_eq_true rfl⟩
  | _ => exact absurd h (by simp [Cs.jsonTail])

end HttpParser

/-! ### Runs -/

namespace Request

variable {buffer xs : List Byte} {fpc : ℕ} {r : Request} {k : Single}
  {acts : List HttpParser.Act} {cs cs' : HttpParser.Cs} {c : Byte}

/-- The machine does not go from behind a `;` or a `?` of a JSON target to the brace. -/
def Plain (cs : HttpParser.Cs) (xs : List Byte) : Prop :=
  ∀ u rest cs', xs = u ++ chr ' ' :: rest → cs.run u = some cs' → cs'.jsonTail = false

theorem Plain.space (h : Plain cs (c :: xs)) (htail : cs.jsonTail = true) : c ≠ chr ' ' := by
  rintro rfl
  have hplain := h [] xs cs rfl rfl
  rw [htail] at hplain
  exact absurd hplain (by simp)

theorem Plain.rest (h : Plain cs (c :: xs)) (hnext : cs.next c = some (acts, cs')) : Plain cs' xs := by
  intro u rest cs₁ hxs hrun
  refine h (c :: u) rest cs₁ (by rw [hxs, List.cons_append]) ?_
  rw [Cs.run, hnext]
  exact hrun

theorem count_append (k : Single) (events events' : List Callback) :
    count k (events ++ events') = count k events + count k events' :=
  List.countP_append

theorem count_callsOf (k : Single) (buffer : List Byte) (fpc : ℕ) (acts : List HttpParser.Act)
    (r : Request) : count k (callsOf buffer fpc acts r) = countActs k acts := by
  induction acts generalizing r with
  | nil => rfl
  | cons a acts ih =>
    have hcall : count k (r.call buffer fpc a).toList = countActs k [a] := by cases a <;> rfl
    rw [callsOf, count_append, hcall, ih, ← countActs_append]
    rfl

/-- **No more is reported than what is due.** -/
theorem count_calls_le (hrun : r.parser.cs.isFinished = false) (hplain : Plain r.parser.cs xs) :
    count k (calls buffer fpc xs r) ≤ (r.parser.cs.due k).toNat := by
  induction xs generalizing fpc r with
  | nil => exact Nat.zero_le _
  | cons c xs ih =>
    rw [calls]
    cases hnext : r.parser.cs.next c with
    | none => exact Nat.zero_le _
    | some p =>
      obtain ⟨acts, cs⟩ := p
      have hdue := next_due (k := k) hnext hrun hplain.space
      dsimp only
      rw [count_append, count_callsOf]
      by_cases hdone : .done ∈ acts
      · rw [if_pos hdone]
        show countActs k acts + 0 ≤ _
        omega
      -- what this byte reports is no longer due
      · rw [if_neg hdone]
        have hgo : (r.take buffer fpc acts cs).parser.cs.isFinished = false :=
          Bool.eq_false_iff.mpr fun hf => hdone ((next_effect hnext).done_mem_iff.mpr hf)
        have hrest : count k (calls buffer (fpc + 1) xs (r.take buffer fpc acts cs)) ≤
          (cs.due k).toNat := ih hgo (hplain.rest hnext)
        omega

/-- **The path is reported twice** when a `;` or a `?` of a JSON target is followed by the
space behind it. -/
theorem two_calls {u rest : List Byte} (hcs : r.parser.cs.jsonTarget = true)
    (hrun : r.parser.cs.run u = some cs') (htail : cs'.jsonTail = true) :
    (r.parser.cs.due .requestPath).toNat + 1 ≤
      count .requestPath (calls buffer fpc (u ++ chr ' ' :: rest) r) := by
  induction u generalizing fpc r with
  | nil =>
    -- the space reports it again
    have hcs' : r.parser.cs = cs' := Option.some.inj hrun
    rw [← hcs'] at htail
    obtain ⟨acts, hnext, hdue⟩ := tail_space htail
    rw [List.nil_append, calls, hnext]
    dsimp only
    rw [count_append, count_callsOf]
    omega
  | cons c u ih =>
    obtain ⟨acts, cs₁, hnext, hrun⟩ := run_cons hrun
    obtain ⟨-, hdone, hstay, hspace⟩ := jsonTarget_next hcs hnext
    -- a space here would leave the target, to which there is no way back
    have hcs₁ : cs₁.jsonTarget = true := by
      refine hstay fun hc => ?_
      obtain ⟨rfl, -⟩ := hspace hc
      have hnot := run_not_json rfl (by simp) hrun
      rw [jsonTarget_of_between (between_of_jsonTail htail)] at hnot
      exact absurd hnot (by simp)
    have hdue := json_due hnext hcs hcs₁
    have hrest : (cs₁.due .requestPath).toNat + 1 ≤
        count .requestPath (calls buffer (fpc + 1) (u ++ chr ' ' :: rest) (r.take buffer fpc acts cs₁)) :=
      @ih (fpc + 1) (r.take buffer fpc acts cs₁) hcs₁ hrun
    rw [List.cons_append, calls, hnext]
    dsimp only
    rw [if_neg hdone, count_append, count_callsOf]
    omega

/-- A path that is reported is what was read since the mark. -/
theorem path_of_callsOf {p : List Byte} (h : .requestPath p ∈ callsOf buffer fpc acts r) :
    .requestPath ∈ acts ∧
      (.mark ∉ acts → p = span buffer r.parser.mark (fpc - r.parser.mark)) := by
  induction acts generalizing r with
  | nil => exact absurd h List.not_mem_nil
  | cons a acts ih =>
    rw [callsOf, List.mem_append, Option.mem_toList] at h
    -- by this action, or by one behind it
    rcases h with h | h
    · have ha : a = .requestPath ∧ p = span buffer r.parser.mark (fpc - r.parser.mark) := by
        cases a <;> first | exact ⟨rfl, by simpa [call] using h.symm⟩ | exact absurd h (by simp [call])
      obtain ⟨rfl, hp⟩ := ha
      exact ⟨List.mem_cons_self .., fun _ => hp⟩
    · obtain ⟨hmem, hp⟩ := ih h
      refine ⟨List.mem_cons_of_mem a hmem, fun hmark => ?_⟩
      rw [List.mem_cons, not_or] at hmark
      have hkeep := act_mark buffer fpc a (Ne.symm hmark.1) r
      rw [hp hmark.2, hkeep]

/-- **A path that is reported is without a query.** -/
theorem path_of_calls (hxs : buffer.drop fpc = xs) (hplain : Plain r.parser.cs xs)
    (hopen : r.parser.cs.inPath = true → Spelled buffer fpc r.parser.mark (· != chr '?'))
    {p : List Byte} (h : .requestPath p ∈ calls buffer fpc xs r) : chr '?' ∉ p := by
  induction xs generalizing fpc r with
  | nil => exact absurd h List.not_mem_nil
  | cons c xs ih =>
    obtain ⟨hc, hrest⟩ := drop_eq_cons hxs
    rw [calls] at h
    cases hnext : r.parser.cs.next c with
    | none =>
      rw [hnext] at h
      exact absurd h List.not_mem_nil
    | some q =>
      obtain ⟨acts, cs⟩ := q
      have hstep := next_path hnext hplain.space
      rw [hnext] at h
      dsimp only at h
      -- it is reported at this byte, or later
      rcases List.mem_append.mp h with h | h
      · obtain ⟨hmem, hp⟩ := path_of_callsOf h
        obtain ⟨hmark, hin⟩ := hstep.reports hmem
        rw [hp hmark]
        intro hask
        have hne := (hopen hin).2 _ hask
        exact absurd hne (by decide)
      · split at h
        · exact absurd h List.not_mem_nil
        · refine ih hrest (hplain.rest hnext) (fun hin => ?_) h
          obtain ⟨hask, hmark⟩ := hstep.goes hin
          have hkeep : (r.take buffer fpc acts cs).parser.mark =
              if .mark ∈ acts then fpc else r.parser.mark := foldl_mark buffer fpc acts r
          rw [hkeep]
          rcases hmark with hmark | ⟨hmark, hin⟩
          · rw [if_pos hmark]
            exact (spelled_self _).succ hc (by simpa using hask)
          · rw [if_neg hmark]
            exact (hopen hin).succ hc (by simpa using hask)

end Request

/-! ### Every stream -/

/-- The bytes begin with a JSON message whose target has a `;` or a `?`, up to the space
behind the target. -/
def Rereported (all : List Byte) : Prop :=
  ∃ path rest, all = chr '@' :: (path ++ chr ' ' :: rest) ∧ IsChars path ∧
    path.head? ≠ some (chr '/') ∧ (chr ';' ∈ path ∨ chr '?' ∈ path)

/-- The machine gets behind a `;` or a `?` of a JSON target only by such a message. -/
theorem plain_start_iff {all : List Byte} : Request.Plain .start all ↔ ¬Rereported all := by
  have hat : Cs.start.next (chr '@') = some ([.mark], .jsonStart) := by decide
  constructor
  · rintro h ⟨path, rest, rfl, hpath⟩
    obtain ⟨cs', hrun, htail⟩ := jsonTail_iff.mpr hpath
    have hplain := h (chr '@' :: path) rest cs' rfl (by rw [HttpParser.Cs.run, hat]; exact hrun)
    rw [htail] at hplain
    exact absurd hplain (by simp)
  · intro h u rest cs' hall hrun
    by_contra htail
    rw [Bool.not_eq_false] at htail
    cases u with
    | nil =>
      obtain rfl := Option.some.inj hrun
      exact absurd htail (by simp [Cs.jsonTail])
    | cons c t =>
      obtain ⟨acts, cs₁, hnext, hrun⟩ := run_cons hrun
      by_cases hc : c = chr '@'
      · subst hc
        rw [hat] at hnext
        obtain ⟨rfl, rfl⟩ := Prod.mk.inj (Option.some.inj hnext)
        exact h ⟨t, rest, hall, jsonTail_iff.mp ⟨cs', hrun, htail⟩⟩
      · -- an HTTP request or a policy request does not get there
        have hcs₁ : cs₁.jsonTarget = false ∧ cs₁ ≠ .start := by
          simp only [Cs.next, if_neg hc] at hnext
          split_ifs at hnext <;> obtain ⟨rfl, rfl⟩ := Prod.mk.inj (Option.some.inj hnext) <;>
            exact ⟨rfl, by simp⟩
        have hnot := run_not_json hcs₁.1 hcs₁.2 hrun
        rw [jsonTarget_of_between (between_of_jsonTail htail)] at hnot
        exact absurd hnot (by simp)

/-- A callback stores nothing in the place of another kind. -/
theorem slot_handle {k : Single} {e : Callback} (h : e.kind ≠ some k) (r : Request) :
    k.slot (e.handle r) = k.slot r := by
  cases e <;> cases k <;> first | rfl | exact absurd rfl h

theorem slot_foldl {k : Single} {events : List Callback} (h : count k events = 0) (r : Request) :
    k.slot (events.foldl (fun r e => e.handle r) r) = k.slot r := by
  induction events generalizing r with
  | nil => rfl
  | cons e events ih =>
    rw [count, List.countP_cons] at h
    have he : e.kind ≠ some k := by
      intro heq
      rw [heq] at h
      simp at h
    rw [List.foldl_cons, ih (Nat.eq_zero_of_add_eq_zero_right h), slot_handle he]

/-- What is reported once is stored where nothing is. -/
theorem fresh_of_once {k : Single} {events before after : List Callback} {e : Callback} (r : Request)
    (h : count k events ≤ 1) (hevents : events = before ++ e :: after) (he : e.kind = some k) :
    k.slot (before.foldl (fun r e => e.handle r) r.start) = none := by
  have hone : count k (e :: after) = count k after + 1 := by
    rw [count, List.countP_cons_of_pos (by simp [he])]
    rfl
  rw [hevents, Request.count_append, hone] at h
  rw [slot_foldl (by omega)]
  cases k <;> rfl

theorem count_shown (k : Single) (events : List Callback) :
    count k (events.map Callback.shown) = count k events := by
  have hkind : ∀ e : Callback, e.shown.kind = e.kind := by
    intro e
    cases e <;> rfl
  rw [count, List.countP_map]
  simp only [Function.comp_def, hkind]
  rfl

theorem mem_shown {xs : List Byte} {events : List Callback} :
    .requestPath xs ∈ events.map Callback.shown ↔ .requestPath xs ∈ events := by
  rw [List.mem_map]
  constructor
  · rintro ⟨e, he, hshown⟩
    cases e <;> first | exact hshown ▸ he | exact absurd hshown (by simp [Callback.shown])
  · exact fun h => ⟨_, h, rfl⟩

/-- **Every part of a request is reported once**, in whichever pieces the bytes come,
exactly if they do not begin with a JSON message whose target has parameters or a query. -/
theorem reportedOnce_iff (r : Request) (pieces : List (List Byte)) :
    ReportedOnce r (Parsing.deliver r pieces).events ↔ ¬Rereported pieces.flatten := by
  have hevents := (Parsing.parsed_deliver r pieces).events
  generalize (Parsing.deliver r pieces).events = events at hevents ⊢
  generalize pieces.flatten = all at hevents ⊢
  have hcount : ∀ k, count k events = count k (r.parseCalls all) := by
    intro k
    rw [← count_shown, hevents, count_shown]
  constructor
  · rintro h ⟨path, rest, rfl, hpath⟩
    obtain ⟨cs', hrun, htail⟩ := jsonTail_iff.mpr hpath
    have hat : Cs.start.next (chr '@') = some ([.mark], .jsonStart) := by decide
    have hstart : r.start.parser.cs.next (chr '@') = some ([.mark], .jsonStart) := hat
    have htwo := @Request.two_calls (chr '@' :: (path ++ chr ' ' :: rest)) 1
      (r.start.take (chr '@' :: (path ++ chr ' ' :: rest)) 0 [.mark] .jsonStart) cs' path rest rfl hrun htail
    have hone := h.once .requestPath
    rw [hcount, Request.parseCalls_eq (List.cons_ne_nil _ _), Request.calls, hstart] at hone
    have hle : 2 ≤ 1 := le_trans htwo hone
    exact absurd hle (by decide)
  · intro h
    have hplain : Request.Plain r.start.parser.cs all := plain_start_iff.mpr h
    by_cases hall : all = []
    · subst hall
      have hnil : events = [] := List.map_eq_nil_iff.mp hevents
      subst hnil
      refine ⟨fun k => Nat.zero_le _, fun before e after k heq => ?_, fun xs hmem => ?_⟩
      · exact absurd heq (by simp)
      · exact absurd hmem List.not_mem_nil
    · rw [Request.parseCalls_eq hall] at hevents
      have honce : ∀ k, count k events ≤ 1 := by
        intro k
        rw [hcount, Request.parseCalls_eq hall]
        exact le_trans (Request.count_calls_le rfl hplain) (Bool.toNat_le _)
      refine ⟨honce, fun before e after k heq he => fresh_of_once r (honce k) heq he, fun xs hmem => ?_⟩
      rw [← mem_shown, hevents, mem_shown] at hmem
      exact Request.path_of_calls rfl hplain (fun hin => absurd hin (by simp [Request.start, Cs.inPath])) hmem

/-- A message whose path is stored, and then stored again with its query. -/
theorem not_reportedOnce_query :
    ¬ReportedOnce Request.create
      (Parsing.deliver Request.create [bytes "@chat?room \x7b", bytes "\x7d\x00"]).events := by
  intro h
  exact absurd (h.once .requestPath) (by decide)

end Mongrel2

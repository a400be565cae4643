/-
The parts of a target (`http11/http11_parser.rl`).

The path and the query string of a request are parts of its URI, and the same URI, or a
longer one, is read in the same way again.

* `pathOf`, `queryOf` — the path and the query string of a target;
* `Request.Within` — a target that is being read; `Request.Told` — one that has been;
* **`told_parse`** — an accepted request with a URI and a path has told the parts of
  this URI;
* **`parse_target`** — a target that the machine can leave with a space is told, in any
  request.

Design notes: a URI without a path (`*`, or one with a scheme) is read elsewhere in the
machine, and so are the requests that are not HTTP.
-/
import Mongrel2.HttpParser

namespace Mongrel2

open ByteStream (Byte)

/-! ### The parts -/

/-- The path of a target. -/
def pathOf (w : List Byte) : List Byte := w.takeWhile fun c => c != chr ';' && c != chr '?'

/-- The query string of a target. -/
def queryOf (w : List Byte) : Option (List Byte) :=
  match w.dropWhile (· != chr '?') with
  | [] => none
  | _ :: q => some q

theorem pathOf_append_of_ne {w : List Byte} (h : pathOf w ≠ w) (xs : List Byte) :
    pathOf (w ++ xs) = pathOf w := by
  unfold pathOf at h ⊢
  rw [List.takeWhile_append, if_neg fun hlen => h ((List.takeWhile_prefix _).eq_of_length hlen)]

theorem pathOf_append_ne {w : List Byte} (h : pathOf w ≠ w) (xs : List Byte) :
    pathOf (w ++ xs) ≠ w ++ xs := by
  intro heq
  rw [pathOf_append_of_ne h] at heq
  have hpre : pathOf w <+: w := List.takeWhile_prefix _
  have hle := hpre.length_le
  have hlen := congrArg List.length heq
  rw [List.length_append] at hlen
  exact h (hpre.eq_of_length (by omega))

theorem pathOf_append_of_eq {w : List Byte} (h : pathOf w = w) (xs : List Byte) :
    pathOf (w ++ xs) = w ++ pathOf xs := by
  unfold pathOf at h ⊢
  rw [List.takeWhile_append, if_pos (congrArg List.length h)]

theorem queryOf_append_of_none {w : List Byte} (h : queryOf w = none) (xs : List Byte) :
    queryOf (w ++ xs) = queryOf xs := by
  have hnil : w.dropWhile (· != chr '?') = [] := by
    unfold queryOf at h
    split at h
    · assumption
    · exact absurd h (by simp)
  rw [queryOf, List.dropWhile_append, hnil]
  rfl

theorem queryOf_append_of_some {w q : List Byte} (h : queryOf w = some q) (xs : List Byte) :
    queryOf (w ++ xs) = some (q ++ xs) := by
  unfold queryOf at h
  split at h
  · exact absurd h (by simp)
  case h_2 c q' hdrop =>
    obtain rfl := Option.some.inj h
    rw [queryOf, List.dropWhile_append, hdrop]
    rfl

theorem pathOf_singleton {c : Byte} (hsemi : c ≠ chr ';') (hask : c ≠ chr '?') :
    pathOf [c] = [c] := by
  simp [pathOf, hsemi, hask]

theorem queryOf_singleton {c : Byte} (hask : c ≠ chr '?') : queryOf [c] = none := by
  simp [queryOf, hask]

namespace HttpParser

/-! ### The machine in a target -/

/-- Where in a request the machine is. -/
inductive Phase
  | before | inside | whole | socket | behind
  deriving DecidableEq

def Cs.phase : Cs → Phase
  | .start | .method _ | .uri => .before
  | .within .path _ | .within .params _ | .within .query _ | .queryStart => .inside
  | .star | .scheme _ | .within .absolute _ => .whole
  | .jsonStart | .within .jsonPath _ | .within .jsonParams _ | .within .jsonQuery _
  | .jsonQueryStart | .brace | .json | .jsonDone | .policy _ => .socket
  | _ => .behind

/-- A transition from inside a target. -/
inductive TargetStep : Cs → Byte → List Act → Cs → Prop
  | path {e c e'} : c ≠ chr ';' → c ≠ chr '?' → TargetStep (.within .path e) c [] (.within .path e')
  | params {e c e'} : c ≠ chr '?' → TargetStep (.within .params e) c [] (.within .params e')
  | query {e c e'} : TargetStep (.within .query e) c [] (.within .query e')
  | semi : TargetStep (.within .path .out) (chr ';') [.requestPath] (.within .params .out)
  | ask : TargetStep (.within .path .out) (chr '?') [.requestPath] .queryStart
  | askParams : TargetStep (.within .params .out) (chr '?') [] .queryStart
  | first {c e} : TargetStep .queryStart c [.startQuery] (.within .query e)
  | leavePath {c cs} : cs.phase = .behind →
      TargetStep (.within .path .out) c [.requestPath, .requestUri] cs
  | leaveParams {c cs} : cs.phase = .behind → TargetStep (.within .params .out) c [.requestUri] cs
  | leaveQuery {c cs} : cs.phase = .behind →
      TargetStep (.within .query .out) c [.queryString, .requestUri] cs
  | leaveFirst {c cs} : cs.phase = .behind →
      TargetStep .queryStart c [.startQuery, .queryString, .requestUri] cs

theorem not_delimiter_of_isXdigit {c : Byte} (h : isXdigit c = true) :
    c ≠ chr ';' ∧ c ≠ chr '?' := by
  constructor <;> rintro rfl <;> exact absurd h (by decide)

theorem next_inside {cs cs' : Cs} {c : Byte} {acts : List Act} (h : cs.next c = some (acts, cs'))
    (hin : cs.phase = .inside) : TargetStep cs c acts cs' := by
  have hpercent : chr '%' ≠ chr ';' ∧ chr '%' ≠ chr '?' := by decide
  cases cs with
  | «within» part esc =>
    cases esc with
    | out =>
      change part.enter [] c = _ at h
      unfold Part.enter at h
      split at h
      case isTrue hc =>
        obtain ⟨rfl, rfl⟩ := Prod.mk.inj (Option.some.inj h)
        subst hc
        cases part <;> first | exact absurd hin (by decide) | skip
        exacts [.path hpercent.1 hpercent.2, .params hpercent.2, .query]
      case isFalse =>
        split at h
        case h_1 tail cs'' hl =>
          obtain ⟨rfl, rfl⟩ := Prod.mk.inj (Option.some.inj h)
          cases part <;> first | exact absurd hin (by decide) | skip
          all_goals
            simp only [Part.leave] at hl
            split_ifs at hl <;> obtain ⟨rfl, rfl⟩ := Prod.mk.inj (Option.some.inj hl)
          · exact .leavePath rfl
          · exact .leavePath rfl
          · exact ‹c = chr ';'› ▸ .semi
          · exact ‹c = chr '?'› ▸ .ask
          · exact .leaveParams rfl
          · exact .leaveParams rfl
          · exact ‹c = chr '?'› ▸ .askParams
          · exact .leaveQuery rfl
          · exact .leaveQuery rfl
        case h_2 hl =>
          obtain ⟨hc, h⟩ := Option.ite_none_right_eq_some.mp h
          obtain ⟨rfl, rfl⟩ := Prod.mk.inj (Option.some.inj h)
          cases part <;> first | exact absurd hin (by decide) | skip
          · simp only [Part.mem, Bool.and_eq_true, bne_iff_ne] at hc
            exact .path hc.2 hc.1.2
          · simp only [Part.mem, Bool.and_eq_true, bne_iff_ne] at hc
            exact .params hc.2
          · exact .query
    | first | second =>
      simp only [Cs.next] at h
      split_ifs at h with hc
      obtain ⟨rfl, rfl⟩ := Prod.mk.inj (Option.some.inj h)
      obtain ⟨hsemi, hask⟩ := not_delimiter_of_isXdigit hc
      cases part <;> first | exact absurd hin (by decide) | skip
      exacts [.path hsemi hask, .params hask, .query]
  | queryStart =>
    change Part.query.enter [.startQuery] c = _ at h
    unfold Part.enter at h
    split at h
    · obtain ⟨rfl, rfl⟩ := Prod.mk.inj (Option.some.inj h)
      exact .first
    · split at h
      case h_1 tail cs'' hl =>
        obtain ⟨rfl, rfl⟩ := Prod.mk.inj (Option.some.inj h)
        simp only [Part.leave] at hl
        split_ifs at hl <;> obtain ⟨rfl, rfl⟩ := Prod.mk.inj (Option.some.inj hl) <;>
          exact .leaveFirst rfl
      case h_2 =>
        obtain ⟨-, h⟩ := Option.ite_none_right_eq_some.mp h
        obtain ⟨rfl, rfl⟩ := Prod.mk.inj (Option.some.inj h)
        exact .first
  | _ => exact absurd hin (by simp [Cs.phase])

theorem TargetStep.not_done {cs cs' : Cs} {c : Byte} {acts : List Act}
    (h : TargetStep cs c acts cs') : .done ∉ acts := by
  cases h <;> simp

/-- A space ends a target. -/
theorem next_space {cs cs' : Cs} {acts : List Act} (h : cs.next (chr ' ') = some (acts, cs'))
    (hin : cs.phase = .inside) : cs'.phase = .behind := by
  cases cs with
  | «within» part esc =>
    cases esc with
    | first | second => exact absurd (show (none : Option (List Act × Cs)) = some _ from h) nofun
    | out =>
      cases part <;> first
        | exact absurd hin (by decide)
        | obtain ⟨rfl, rfl⟩ := Prod.mk.inj (Option.some.inj h)
          rfl
  | queryStart =>
    obtain ⟨rfl, rfl⟩ := Prod.mk.inj (Option.some.inj h)
    rfl
  | _ => exact absurd hin (by simp [Cs.phase])

/-- What the other transitions report of a target. -/
structure Elsewhere (cs : Cs) (c : Byte) (acts : List Act) (cs' : Cs) : Prop where
  before : cs.phase = .before → .requestUri ∉ acts ∧ .requestPath ∉ acts ∧ .queryString ∉ acts ∧
    cs'.phase ≠ .behind ∧ (cs'.phase = .inside → cs = .uri ∧ c = chr '/' ∧ acts = [.mark] ∧
      cs' = .within .path .out)
  whole : cs.phase = .whole → .requestPath ∉ acts ∧ (cs'.phase = .whole ∨ cs'.phase = .behind)
  socket : cs.phase = .socket → .requestUri ∉ acts ∧ (cs'.phase = .socket ∨ cs'.phase = .behind)
  behind : cs.phase = .behind →
    .requestUri ∉ acts ∧ .requestPath ∉ acts ∧ .queryString ∉ acts ∧ cs'.phase = .behind

/-- In the same phase and without an action nothing is reported. -/
theorem Elsewhere.stay {cs cs' : Cs} {c : Byte} (hphase : cs'.phase = cs.phase)
    (hbefore : cs.phase ≠ .before) : Elsewhere cs c [] cs' where
  before h := absurd h hbefore
  whole h := ⟨List.not_mem_nil, .inl (hphase.trans h)⟩
  socket h := ⟨List.not_mem_nil, .inl (hphase.trans h)⟩
  behind h := ⟨List.not_mem_nil, List.not_mem_nil, List.not_mem_nil, hphase.trans h⟩

theorem phase_ne_before (part : Part) (esc : Esc) : (Cs.within part esc).phase ≠ .before := by
  cases part <;> nofun

theorem leave_elsewhere {part : Part} {c : Byte} {tail : List Act} {cs' : Cs}
    (h : part.leave c = some (tail, cs')) (hin : (Cs.within part .out).phase ≠ .inside) :
    Elsewhere (.within part .out) c tail cs' := by
  cases part with
  | path | params | query => exact absurd rfl hin
  | fragment | absolute | jsonPath | jsonParams | jsonQuery =>
    simp only [Part.leave] at h
    split_ifs at h
    all_goals
      obtain ⟨rfl, rfl⟩ := Prod.mk.inj (Option.some.inj h)
      exact ⟨by simp [Cs.phase], by simp [Cs.phase], by simp [Cs.phase], by simp [Cs.phase]⟩

/-- What a part reports is reported where it is entered, in the same phase. -/
theorem Elsewhere.enter {cs cs' : Cs} {part : Part} {acts tail : List Act} {c : Byte}
    (h : Elsewhere (.within part .out) c tail cs') (hcs : cs.phase = (Cs.within part .out).phase)
    (hacts : .requestUri ∉ acts ∧ .requestPath ∉ acts ∧ .queryString ∉ acts) :
    Elsewhere cs c (acts ++ tail) cs' := by
  have hnot : ∀ a : Act, a ∉ acts → a ∉ tail → a ∉ acts ++ tail :=
    fun a ha ht hmem => (List.mem_append.mp hmem).elim ha ht
  obtain ⟨huri, hpath, hquery⟩ := hacts
  constructor
  · exact fun hb => absurd (hcs.symm.trans hb) (phase_ne_before part .out)
  · intro hw
    obtain ⟨ht, hphase⟩ := h.whole (hcs.symm.trans hw)
    exact ⟨hnot _ hpath ht, hphase⟩
  · intro hs
    obtain ⟨ht, hphase⟩ := h.socket (hcs.symm.trans hs)
    exact ⟨hnot _ huri ht, hphase⟩
  · intro hb
    obtain ⟨ht, ht', ht'', hphase⟩ := h.behind (hcs.symm.trans hb)
    exact ⟨hnot _ huri ht, hnot _ hpath ht', hnot _ hquery ht'', hphase⟩

theorem enter_elsewhere {cs cs' : Cs} {part : Part} {acts acts' : List Act} {c : Byte}
    (h : part.enter acts c = some (acts', cs')) (hcs : cs.phase = (Cs.within part .out).phase)
    (hin : cs.phase ≠ .inside)
    (hacts : .requestUri ∉ acts ∧ .requestPath ∉ acts ∧ .queryString ∉ acts) :
    Elsewhere cs c acts' cs' := by
  have hinside : ∀ esc, Elsewhere cs c acts (.within part esc) := by
    intro esc
    have hphase : (Cs.within part esc).phase = (Cs.within part .out).phase := by
      cases part <;> rfl
    rw [← List.append_nil acts]
    exact (Elsewhere.stay hphase (phase_ne_before part .out)).enter hcs hacts
  unfold Part.enter at h
  split at h
  · obtain ⟨rfl, rfl⟩ := Prod.mk.inj (Option.some.inj h)
    exact hinside .first
  · split at h
    case h_1 tail cs'' hl =>
      obtain ⟨rfl, rfl⟩ := Prod.mk.inj (Option.some.inj h)
      rw [hcs] at hin
      exact (leave_elsewhere hl hin).enter hcs hacts
    case h_2 =>
      obtain ⟨-, h⟩ := Option.ite_none_right_eq_some.mp h
      obtain ⟨rfl, rfl⟩ := Prod.mk.inj (Option.some.inj h)
      exact hinside .out

theorem next_elsewhere {cs cs' : Cs} {c : Byte} {acts : List Act}
    (h : cs.next c = some (acts, cs')) (hin : cs.phase ≠ .inside) : Elsewhere cs c acts cs' := by
  cases cs with
  | «within» part esc =>
    cases esc with
    | out => exact enter_elsewhere h rfl hin (by simp)
    | first | second =>
      simp only [Cs.next] at h
      split_ifs at h
      obtain ⟨rfl, rfl⟩ := Prod.mk.inj (Option.some.inj h)
      exact .stay (by cases part <;> rfl) (phase_ne_before part _)
  | queryStart => exact absurd rfl hin
  | fragmentStart => exact enter_elsewhere h rfl hin (by simp)
  | jsonQueryStart => exact enter_elsewhere h rfl hin (by simp)
  | jsonStart =>
    simp only [Cs.next] at h
    split_ifs at h
    exact enter_elsewhere h rfl hin (by simp)
  | error => exact absurd h (by simp [Cs.next])
  | done => exact absurd h (by simp [Cs.next])
  | _ =>
    simp only [Cs.next] at h
    split_ifs at h <;> obtain ⟨rfl, rfl⟩ := Prod.mk.inj (Option.some.inj h) <;>
      constructor <;> simp_all [Cs.phase]

theorem run_append (cs : Cs) (xs ys : List Byte) :
    cs.run (xs ++ ys) = (cs.run xs).bind fun cs' => cs'.run ys := by
  induction xs generalizing cs with
  | nil => rfl
  | cons c xs ih =>
    rw [List.cons_append, Cs.run, Cs.run]
    cases cs.next c with
    | none => rfl
    | some p => exact ih p.2

theorem run_singleton {cs cs' : Cs} {c : Byte} {acts : List Act}
    (h : cs.next c = some (acts, cs')) : cs.run [c] = some cs' := by
  rw [Cs.run, h]
  rfl

theorem run_cons {cs cs' : Cs} {c : Byte} {xs : List Byte} (h : cs.run (c :: xs) = some cs') :
    ∃ acts cs₁, cs.next c = some (acts, cs₁) ∧ cs₁.run xs = some cs' := by
  rw [Cs.run] at h
  obtain ⟨⟨acts, cs₁⟩, hn, hrun⟩ := Option.bind_eq_some_iff.mp h
  exact ⟨acts, cs₁, hn, hrun⟩

end HttpParser

open HttpParser

namespace Request

variable {buffer : List Byte} {fpc : ℕ} {r : Request} {w : List Byte}

/-! ### A target that is read -/

/-- The machine is behind the first bytes `w` of a target. -/
structure Within (buffer : List Byte) (fpc : ℕ) (w : List Byte) (r : Request) : Prop where
  inside : r.parser.cs.phase = .inside
  run : Cs.uri.run w = some r.parser.cs
  le : r.parser.mark ≤ fpc
  word : span buffer r.parser.mark (fpc - r.parser.mark) = w
  uri : r.uri = none
  path : (∃ e, r.parser.cs = .within .path e) ∧ r.path = none ∧ pathOf w = w ∨
    (∀ e, r.parser.cs ≠ .within .path e) ∧ r.path = some (pathOf w) ∧ pathOf w ≠ w
  queryString : r.queryString = none
  noQuery : (∃ e, r.parser.cs = .within .path e) ∨ (∃ e, r.parser.cs = .within .params e) →
    queryOf w = none
  first : r.parser.cs = .queryStart → queryOf w = some []
  query : ∀ e, r.parser.cs = .within .query e → r.parser.queryStart ≤ fpc ∧
    queryOf w = some (span buffer r.parser.queryStart (fpc - r.parser.queryStart))

/-- The parts of the target `w` have been reported. -/
structure Told (r : Request) (w : List Byte) : Prop where
  uri : r.uri = some w
  path : r.path = some (pathOf w)
  queryString : r.queryString = queryOf w
  run : ∃ cs, Cs.uri.run w = some cs ∧ cs.phase = .inside ∧ (cs.next (chr ' ')).isSome = true

/-- In the path of the target. -/
theorem Within.inPath {e : Esc} (h : r.Within buffer fpc w)
    (hcs : r.parser.cs = .within .path e) :
    r.path = none ∧ pathOf w = w ∧ queryOf w = none := by
  rcases h.path with ⟨-, hnone, heq⟩ | ⟨hne, -⟩
  · exact ⟨hnone, heq, h.noQuery (.inl ⟨e, hcs⟩)⟩
  · exact absurd hcs (hne e)

/-- Behind the path of the target. -/
theorem Within.pastPath (h : r.Within buffer fpc w)
    (hne : ∀ e, r.parser.cs ≠ .within .path e) : r.path = some (pathOf w) ∧ pathOf w ≠ w := by
  rcases h.path with ⟨⟨e, hcs⟩, -⟩ | ⟨-, hsome⟩
  · exact absurd hcs (hne e)
  · exact hsome

/-- More bytes leave the path that was reported as it is. -/
theorem Within.pastPath_append (h : r.Within buffer fpc w)
    (hne : ∀ e, r.parser.cs ≠ .within .path e) (xs : List Byte) :
    r.path = some (pathOf (w ++ xs)) ∧ pathOf (w ++ xs) ≠ w ++ xs := by
  obtain ⟨hsome, hne⟩ := h.pastPath hne
  rw [pathOf_append_of_ne hne]
  exact ⟨hsome, pathOf_append_of_ne hne xs ▸ pathOf_append_ne hne xs⟩

/-- One more byte of a target, or the byte behind it. -/
theorem Within.take {c : Byte} {acts : List Act} {cs : Cs} (h : r.Within buffer fpc w)
    (hc : buffer[fpc]? = some c) (hn : r.parser.cs.next c = some (acts, cs)) :
    (cs.phase = .inside ∧ (r.take buffer fpc acts cs).Within buffer (fpc + 1) (w ++ [c])) ∨
      (cs.phase = .behind ∧ (r.take buffer fpc acts cs).Told w) := by
  have hword : span buffer r.parser.mark (fpc + 1 - r.parser.mark) = w ++ [c] := by
    rw [span_succ h.le hc, h.word]
  have hle : r.parser.mark ≤ fpc + 1 := Nat.le_succ_of_le h.le
  have hi := next_inside hn h.inside
  have hrun : Cs.uri.run (w ++ [c]) = some cs := by
    rw [run_append, h.run]
    exact run_singleton hn
  generalize hcs : r.parser.cs = cs₀ at hi
  cases hi with
  | @path e _ e' hsemi hask =>
    obtain ⟨hnone, heq, hquery⟩ := h.inPath hcs
    refine .inl ⟨rfl, ⟨rfl, hrun, hle, hword, h.uri, .inl ⟨⟨e', rfl⟩, hnone, ?_⟩,
      h.queryString, fun _ => ?_, nofun, nofun⟩⟩
    · rw [pathOf_append_of_eq heq, pathOf_singleton hsemi hask]
    · rw [queryOf_append_of_none hquery, queryOf_singleton hask]
  | @params e _ e' hask =>
    have hpath' := h.pastPath_append (by simp [hcs]) [c]
    have hquery := h.noQuery (.inr ⟨e, hcs⟩)
    refine .inl ⟨rfl, ⟨rfl, hrun, hle, hword, h.uri,
      .inr ⟨nofun, hpath'⟩, h.queryString, fun _ => ?_, nofun, nofun⟩⟩
    · rw [queryOf_append_of_none hquery, queryOf_singleton hask]
  | @query e _ e' =>
    have hpath' := h.pastPath_append (by simp [hcs]) [c]
    obtain ⟨hstart, hquery⟩ := h.query e hcs
    refine .inl ⟨rfl, ⟨rfl, hrun, hle, hword, h.uri,
      .inr ⟨nofun, hpath'⟩, h.queryString, ?_, nofun, fun _ _ => ?_⟩⟩
    · rintro (⟨e, heq⟩ | ⟨e, heq⟩) <;> exact absurd heq nofun
    · refine ⟨Nat.le_succ_of_le hstart, ?_⟩
      rw [queryOf_append_of_some hquery, ← span_succ hstart hc]
      rfl
  | semi =>
    obtain ⟨-, heq, hquery⟩ := h.inPath hcs
    have hpath' : pathOf (w ++ [chr ';']) = w := by
      rw [pathOf_append_of_eq heq]
      exact List.append_nil w
    refine .inl ⟨rfl, ⟨rfl, hrun, hle, hword, h.uri, .inr ⟨nofun, ?_, ?_⟩,
      h.queryString, fun _ => ?_, nofun, nofun⟩⟩
    · rw [hpath', ← h.word]
      rfl
    · rw [hpath']
      simp
    · rw [queryOf_append_of_none hquery]
      rfl
  | ask =>
    obtain ⟨-, heq, hquery⟩ := h.inPath hcs
    have hpath' : pathOf (w ++ [chr '?']) = w := by
      rw [pathOf_append_of_eq heq]
      exact List.append_nil w
    refine .inl ⟨rfl, ⟨rfl, hrun, hle, hword, h.uri, .inr ⟨nofun, ?_, ?_⟩,
      h.queryString, ?_, fun _ => ?_, nofun⟩⟩
    · rw [hpath', ← h.word]
      rfl
    · rw [hpath']
      simp
    · rintro (⟨e, heq⟩ | ⟨e, heq⟩) <;> exact absurd heq nofun
    · rw [queryOf_append_of_none hquery]
      rfl
  | askParams =>
    have hpath' := h.pastPath_append (by simp [hcs]) [chr '?']
    have hquery := h.noQuery (.inr ⟨.out, hcs⟩)
    refine .inl ⟨rfl, ⟨rfl, hrun, hle, hword, h.uri,
      .inr ⟨nofun, hpath'⟩, h.queryString, ?_, fun _ => ?_, nofun⟩⟩
    · rintro (⟨e, heq⟩ | ⟨e, heq⟩) <;> exact absurd heq nofun
    · rw [queryOf_append_of_none hquery]
      rfl
  | @first _ e =>
    have hpath' := h.pastPath_append (by simp [hcs]) [c]
    have hquery := h.first hcs
    refine .inl ⟨rfl, ⟨rfl, hrun, hle, hword, h.uri,
      .inr ⟨nofun, hpath'⟩, h.queryString, ?_, nofun, fun _ _ => ?_⟩⟩
    · rintro (⟨e, heq⟩ | ⟨e, heq⟩) <;> exact absurd heq nofun
    · refine ⟨Nat.le_succ fpc, ?_⟩
      have hone := @span_succ buffer fpc fpc c le_rfl hc
      rw [span_self] at hone
      rw [queryOf_append_of_some hquery, ← hone]
      rfl
  | leavePath hb =>
    obtain ⟨-, heq, hquery⟩ := h.inPath hcs
    refine .inr ⟨hb, ?_, ?_, ?_, ⟨_, h.run, h.inside, by rw [hcs]; decide⟩⟩
    · rw [← h.word]
      rfl
    · rw [heq, ← h.word]
      rfl
    · rw [hquery]
      exact h.queryString
  | leaveParams hb =>
    obtain ⟨hsome, -⟩ := h.pastPath (by simp [hcs])
    refine .inr ⟨hb, ?_, hsome, ?_, ⟨_, h.run, h.inside, by rw [hcs]; decide⟩⟩
    · rw [← h.word]
      rfl
    · rw [h.noQuery (.inr ⟨.out, hcs⟩)]
      exact h.queryString
  | leaveQuery hb =>
    obtain ⟨hsome, -⟩ := h.pastPath (by simp [hcs])
    refine .inr ⟨hb, ?_, hsome, ?_, ⟨_, h.run, h.inside, by rw [hcs]; decide⟩⟩
    · rw [← h.word]
      rfl
    · rw [(h.query .out hcs).2]
      rfl
  | leaveFirst hb =>
    obtain ⟨hsome, -⟩ := h.pastPath (by simp [hcs])
    refine .inr ⟨hb, ?_, hsome, ?_, ⟨_, h.run, h.inside, by rw [hcs]; decide⟩⟩
    · rw [← h.word]
      rfl
    · rw [h.first hcs, ← span_self buffer fpc]
      rfl

/-! ### A whole request -/

theorem foldl_uri {acts : List Act} (h : .requestUri ∉ acts) (r : Request) :
    (acts.foldl (fun r a => r.act buffer fpc a) r).uri = r.uri := by
  refine foldl_act_keeps (·.uri) buffer fpc (fun a ha r => ?_) h r
  cases a <;> first | rfl | exact absurd rfl ha

theorem foldl_path {acts : List Act} (h : .requestPath ∉ acts) (r : Request) :
    (acts.foldl (fun r a => r.act buffer fpc a) r).path = r.path := by
  refine foldl_act_keeps (·.path) buffer fpc (fun a ha r => ?_) h r
  cases a <;> first | rfl | exact absurd rfl ha

theorem foldl_queryString {acts : List Act} (h : .queryString ∉ acts) (r : Request) :
    (acts.foldl (fun r a => r.act buffer fpc a) r).queryString = r.queryString := by
  refine foldl_act_keeps (·.queryString) buffer fpc (fun a ha r => ?_) h r
  cases a <;> first | rfl | exact absurd rfl ha

/-- What is known of the target, by where the machine is. -/
def Targeted (buffer : List Byte) (fpc : ℕ) (r : Request) : Prop :=
  match r.parser.cs.phase with
  | .before => r.uri = none ∧ r.path = none ∧ r.queryString = none
  | .inside => ∃ w, r.Within buffer fpc w
  | .whole => r.path = none
  | .socket => r.uri = none
  | .behind => ∀ u p, r.uri = some u → r.path = some p → r.Told u

/-- Wherever the machine is, a URI and a path that have been reported belong together. -/
theorem Targeted.told (h : r.Targeted buffer fpc) {u p : List Byte} (hu : r.uri = some u)
    (hp : r.path = some p) : r.Told u := by
  unfold Targeted at h
  split at h
  · exact absurd (h.1.symm.trans hu) (by simp)
  · obtain ⟨w, hw⟩ := h
    exact absurd (hw.uri.symm.trans hu) (by simp)
  · exact absurd (h.symm.trans hp) (by simp)
  · exact absurd (h.symm.trans hu) (by simp)
  · exact h u p hu hp

/-- The machine comes to the first byte of a target. -/
theorem within_first (hc : buffer[fpc]? = some (chr '/'))
    (hnone : r.uri = none ∧ r.path = none ∧ r.queryString = none) :
    (r.take buffer fpc [.mark] (.within .path .out)).Within buffer (fpc + 1) [chr '/'] := by
  have hone := @span_succ buffer fpc fpc _ le_rfl hc
  rw [span_self] at hone
  have hrun : Cs.uri.run [chr '/'] = some (.within .path .out) := by decide
  have hfirst : Cs.within .path .out ≠ .queryStart := by decide
  have hquery : ∀ e, Cs.within .path .out ≠ .within .query e := by simp
  exact ⟨rfl, hrun, Nat.le_succ fpc, hone, hnone.1, .inl ⟨⟨.out, rfl⟩, hnone.2.1, by decide⟩,
    hnone.2.2, fun _ => by decide, fun h => absurd h hfirst, fun e h => absurd h (hquery e)⟩

theorem Targeted.take {c : Byte} {acts : List Act} {cs : Cs} (h : r.Targeted buffer fpc)
    (hc : buffer[fpc]? = some c) (hn : r.parser.cs.next c = some (acts, cs)) :
    (r.take buffer fpc acts cs).Targeted buffer (fpc + 1) := by
  unfold Targeted at h ⊢
  have hcs : (r.take buffer fpc acts cs).parser.cs = cs := rfl
  have huri (ha : .requestUri ∉ acts) : (r.take buffer fpc acts cs).uri = r.uri := foldl_uri ha r
  have hpath (ha : .requestPath ∉ acts) : (r.take buffer fpc acts cs).path = r.path :=
    foldl_path ha r
  have hquery (ha : .queryString ∉ acts) :
      (r.take buffer fpc acts cs).queryString = r.queryString := foldl_queryString ha r
  cases hphase : r.parser.cs.phase with
  | inside =>
    rw [hphase] at h
    obtain ⟨w, hw⟩ := h
    rcases hw.take hc hn with ⟨hin, hw'⟩ | ⟨hb, htold⟩
    · rw [hcs, hin]
      exact ⟨_, hw'⟩
    · rw [hcs, hb]
      intro u p hu _
      obtain rfl := Option.some.inj (htold.uri.symm.trans hu)
      exact htold
  | before =>
    rw [hphase] at h
    have he := next_elsewhere hn (by rw [hphase]; decide)
    obtain ⟨hau, hap, haq, hnb, hin⟩ := he.before hphase
    rw [hcs]
    cases hphase' : cs.phase with
    | before => exact ⟨(huri hau).trans h.1, (hpath hap).trans h.2.1, (hquery haq).trans h.2.2⟩
    | inside =>
      obtain ⟨-, rfl, rfl, rfl⟩ := hin hphase'
      exact ⟨_, within_first hc h⟩
    | whole => exact (hpath hap).trans h.2.1
    | socket => exact (huri hau).trans h.1
    | behind => exact absurd hphase' hnb
  | whole =>
    rw [hphase] at h
    have he := next_elsewhere hn (by rw [hphase]; decide)
    obtain ⟨hap, hb⟩ := he.whole hphase
    have hnone := (hpath hap).trans h
    rcases hb with hb | hb <;> rw [hcs, hb]
    · exact hnone
    · exact fun u p _ hp => absurd (hnone.symm.trans hp) (by simp)
  | socket =>
    rw [hphase] at h
    have he := next_elsewhere hn (by rw [hphase]; decide)
    obtain ⟨hau, hb⟩ := he.socket hphase
    have hnone := (huri hau).trans h
    rcases hb with hb | hb <;> rw [hcs, hb]
    · exact hnone
    · exact fun u p hu _ => absurd (hnone.symm.trans hu) (by simp)
  | behind =>
    rw [hphase] at h
    have he := next_elsewhere hn (by rw [hphase]; decide)
    obtain ⟨hau, hap, haq, hb⟩ := he.behind hphase
    rw [hcs, hb]
    intro u p hu hp
    have htold := h u p ((huri hau).symm.trans hu) ((hpath hap).symm.trans hp)
    exact ⟨hu, (hpath hap).trans htold.path, (hquery haq).trans htold.queryString, htold.run⟩

theorem consume_targeted {xs : List Byte} (hxs : buffer.drop fpc = xs)
    (h : r.Targeted buffer fpc) {u p : List Byte} (hu : (consume buffer fpc xs r).1.uri = some u)
    (hp : (consume buffer fpc xs r).1.path = some p) : (consume buffer fpc xs r).1.Told u := by
  induction xs generalizing fpc r with
  | nil => exact h.told hu hp
  | cons c xs ih =>
    obtain ⟨hc, hrest⟩ := drop_eq_cons hxs
    rw [consume] at hu hp ⊢
    cases hn : r.parser.cs.next c with
    | none =>
      rw [hn] at hu hp
      exact { h.told hu hp with }
    | some p =>
      obtain ⟨acts, cs⟩ := p
      rw [hn] at hu hp
      dsimp only at hu hp ⊢
      split at hu
      case isTrue hd =>
        rw [if_pos hd] at hp ⊢
        exact (h.take hc hn).told hu hp
      case isFalse hd =>
        rw [if_neg hd] at hp ⊢
        exact ih hrest (h.take hc hn) hu hp

/-- **The path and the query string are those of the URI**, after the parse of any bytes. -/
theorem told_parse (r : Request) (buffer : List Byte) {u p : List Byte}
    (hu : (r.parse buffer).1.uri = some u) (hp : (r.parse buffer).1.path = some p) :
    (r.parse buffer).1.Told u := by
  have hstart : r.start.Targeted buffer 0 := ⟨rfl, rfl, rfl⟩
  rw [parse, execute] at hu hp ⊢
  split at hu
  case isTrue => exact absurd hu (by simp [start])
  case isFalse hne =>
    rw [if_neg hne] at hp ⊢
    exact { consume_targeted rfl hstart hu hp with }

/-! ### A target that is requested again -/

/-- The machine does not come back to a target. -/
theorem run_outside {cs cs' : Cs} {xs : List Byte} (hb : cs.phase = .whole ∨ cs.phase = .behind)
    (h : cs.run xs = some cs') : cs'.phase = .whole ∨ cs'.phase = .behind := by
  induction xs generalizing cs with
  | nil => exact Option.some.inj h ▸ hb
  | cons c xs ih =>
    obtain ⟨acts, cs₁, hn, hrun⟩ := run_cons h
    have he := next_elsewhere hn (by rcases hb with hb | hb <;> rw [hb] <;> decide)
    rcases hb with hb | hb
    · exact ih (he.whole hb).2 hrun
    · exact ih (.inr (he.behind hb).2.2.2) hrun

/-- The machine takes the bytes of a target. -/
theorem Within.consume {xs ys : List Byte} {cs : Cs} (h : r.Within buffer fpc w)
    (hdrop : buffer.drop fpc = xs ++ ys) (hrun : r.parser.cs.run xs = some cs)
    (hin : cs.phase = .inside) :
    ∃ r' : Request, r.consume buffer fpc (xs ++ ys) = r'.consume buffer (fpc + xs.length) ys ∧
      r'.parser.cs = cs ∧ r'.Within buffer (fpc + xs.length) (w ++ xs) := by
  induction xs generalizing fpc r w with
  | nil =>
    rw [List.append_nil]
    exact ⟨r, rfl, Option.some.inj hrun, h⟩
  | cons c xs ih =>
    obtain ⟨hc, hrest⟩ := drop_eq_cons hdrop
    obtain ⟨acts, cs₁, hn, hrun'⟩ := run_cons hrun
    rcases h.take hc hn with ⟨-, hw⟩ | ⟨hb, -⟩
    · obtain ⟨r', heq, hcs, hw'⟩ := ih hw hrest hrun'
      have hlen : fpc + (c :: xs).length = fpc + 1 + xs.length := by
        rw [List.length_cons]
        omega
      rw [hlen, List.append_cons w c xs]
      exact ⟨r', (consume_cons buffer fpc _ hn (next_inside hn h.inside).not_done).trans heq, hcs,
        hw'⟩
    · rcases run_outside (.inr hb) hrun' with hb | hb <;> exact absurd (hin.symm.trans hb) nofun

/-- Behind a target nothing is reported of it. -/
theorem consume_behind (xs : List Byte) (hb : r.parser.cs.phase = .behind) :
    (consume buffer fpc xs r).1.uri = r.uri ∧ (consume buffer fpc xs r).1.path = r.path ∧
      (consume buffer fpc xs r).1.queryString = r.queryString := by
  induction xs generalizing fpc r with
  | nil => exact ⟨rfl, rfl, rfl⟩
  | cons c xs ih =>
    rw [Request.consume]
    cases hn : r.parser.cs.next c with
    | none => exact ⟨rfl, rfl, rfl⟩
    | some p =>
      obtain ⟨acts, cs⟩ := p
      have he := next_elsewhere hn (by rw [hb]; decide)
      obtain ⟨hau, hap, haq, hb'⟩ := he.behind hb
      have htake : (r.take buffer fpc acts cs).uri = r.uri ∧
          (r.take buffer fpc acts cs).path = r.path ∧
          (r.take buffer fpc acts cs).queryString = r.queryString :=
        ⟨foldl_uri hau r, foldl_path hap r, foldl_queryString haq r⟩
      dsimp only
      split
      · exact htake
      · obtain ⟨hu, hp, hq⟩ := @ih (fpc + 1) (r.take buffer fpc acts cs) hb'
        exact ⟨hu.trans htake.1, hp.trans htake.2.1, hq.trans htake.2.2⟩

/-- A target begins with a slash. -/
theorem run_uri_cons {w : List Byte} {cs : Cs} (hrun : Cs.uri.run w = some cs)
    (hin : cs.phase = .inside) :
    ∃ w', w = chr '/' :: w' ∧ (Cs.within .path .out).run w' = some cs := by
  cases w with
  | nil => exact absurd (Option.some.inj hrun ▸ hin) nofun
  | cons c w =>
    obtain ⟨acts, cs₁, hn, hrun'⟩ := run_cons hrun
    have hout : ¬ (cs₁.phase = .whole ∨ cs₁.phase = .behind) := fun hb => by
      rcases run_outside hb hrun' with hb | hb <;> exact absurd (hin.symm.trans hb) nofun
    simp only [Cs.next] at hn
    split_ifs at hn <;> obtain ⟨rfl, rfl⟩ := Prod.mk.inj (Option.some.inj hn)
    · exact absurd (.inl rfl) hout
    · exact ⟨w, congrArg (· :: w) ‹c = chr '/'›, hrun'⟩
    · exact absurd (.inl rfl) hout

/-- **A target that can end is told**, whatever comes behind it. -/
theorem parse_target (r : Request) {w : List Byte} {cs : Cs} (hrun : Cs.uri.run w = some cs)
    (hin : cs.phase = .inside) (hend : (cs.next (chr ' ')).isSome = true) (rest : List Byte) :
    (r.parse (bytes "GET " ++ w ++ chr ' ' :: rest)).1.Told w := by
  obtain ⟨w', rfl, hrun'⟩ := run_uri_cons hrun hin
  obtain ⟨⟨acts, cs'⟩, hn⟩ := Option.isSome_iff_exists.mp hend
  generalize hbuffer : bytes "GET " ++ chr '/' :: w' ++ chr ' ' :: rest = buffer
  have hne : buffer ≠ [] := by rw [← hbuffer]; exact nofun
  have hdrop : buffer.drop 5 = w' ++ chr ' ' :: rest := by
    rw [← hbuffer]
    rfl
  have hspace : buffer[5 + w'.length]? = some (chr ' ') := by
    rw [← List.getElem?_drop, hdrop, List.getElem?_append_right le_rfl, Nat.sub_self]
    rfl
  have hfirst : buffer[4]? = some (chr '/') := by
    rw [← hbuffer]
    rfl
  -- the method
  have hmethod : ∀ b xs, consume b 0 (bytes "GET " ++ xs) r.start = consume b 4 xs { r.start with
      requestMethod := some (span b 0 3), parser := { r.start.parser with cs := .uri } } :=
    fun _ _ => rfl
  generalize hr₀ : { r.start with
      requestMethod := some (span buffer 0 3), parser := { r.start.parser with cs := .uri } } = r₀
  have hcs₀ : r₀.parser.cs.next (chr '/') = some ([.mark], .within .path .out) := by
    rw [← hr₀]
    rfl
  have hnone : r₀.uri = none ∧ r₀.path = none ∧ r₀.queryString = none := by
    rw [← hr₀]
    exact ⟨rfl, rfl, rfl⟩
  -- the target, and the byte behind it
  obtain ⟨r₁, hconsume, hcs₁, hw⟩ := (within_first hfirst hnone).consume hdrop hrun' hin
  have hrun₀ : consume buffer 0 buffer r.start =
      consume buffer (4 + 1 + w'.length) (chr ' ' :: rest) r₁ := by
    rw [← hconsume, ← consume_cons buffer 4 _ hcs₀ (by simp), ← hr₀, ← hmethod]
    congr 1
    rw [← hbuffer, List.append_assoc]
    rfl
  have hn₁ : r₁.parser.cs.next (chr ' ') = some (acts, cs') := by rw [hcs₁, hn]
  have hb := next_space hn hin
  have hd := (next_inside hn hin).not_done
  have htold : (r₁.take buffer (5 + w'.length) acts cs').Told (chr '/' :: w') := by
    rcases hw.take hspace hn₁ with ⟨hin', -⟩ | ⟨-, htold⟩
    · exact absurd (hb.symm.trans hin') nofun
    · exact htold
  obtain ⟨hu, hp, hq⟩ := @consume_behind buffer (5 + w'.length + 1)
    (r₁.take buffer (5 + w'.length) acts cs') rest hb
  rw [parse_eq hne, hrun₀, consume_cons buffer _ rest hn₁ hd]
  exact ⟨hu.trans htold.uri, hp.trans htold.path, hq.trans htold.queryString, htold.run⟩

end Request

end Mongrel2

/-
The headers that stand in a request (`http11_parser.rl`).

* `Cs.inLine`, `Cs.inMessage` — the states inside a request line, and inside a message;
* `Written` — a request as it is written, with its headers;
* `parse_written` — these are the headers that the parser inserts, and what
  `Request_content_length` is read from;
* `exists_written` — every request that the parser takes is written so;
* `headers_parse` — of a request that is cut short the first of its headers are inserted.

Design notes: a request line is told from a message by its first byte, and ends at its first
line feed.
-/
import Mongrel2.Connection
import Mongrel2.HeaderSection
import Mongrel2.RequestTarget

namespace Mongrel2

open ByteStream HttpParser

/-! ### Lines and messages -/

namespace HttpParser

/-- The states inside a JSON or a socket message. -/
def Cs.inMessage : Cs → Bool
  | .within part _ => part ∈ [.jsonPath, .jsonParams, .jsonQuery]
  | .policy _ | .jsonStart | .jsonQueryStart | .brace | .json | .done | .jsonDone => true
  | _ => false

/-- The states inside the first line of an HTTP request. -/
def Cs.inLine : Cs → Bool
  | .within part _ => part ∉ [.jsonPath, .jsonParams, .jsonQuery]
  | .method _ | .uri | .star | .scheme _ | .queryStart | .fragmentStart | .version _
  | .versionEnd | .lineLF => true
  | _ => false

variable {cs cs' : Cs} {part : Part} {acts acts₀ : List Act} {c : Byte}

theorem inLine_of_target (h : cs.target = true) : cs.inLine = !cs.inMessage := by
  cases cs <;> simp_all [Cs.target, Cs.inLine, Cs.inMessage]

theorem leave_inMessage (h : part.leave c = some (acts, cs)) :
    cs.inMessage = (Cs.within part .out).inMessage := by
  cases part <;> simp only [Part.leave] at h <;> split_ifs at h <;>
    obtain ⟨rfl, rfl⟩ := Prod.mk.inj (Option.some.inj h) <;> decide

theorem enter_inMessage (h : part.enter acts₀ c = some (acts, cs)) :
    cs.inMessage = (Cs.within part .out).inMessage := by
  unfold Part.enter at h
  split at h
  · obtain ⟨rfl, rfl⟩ := Prod.mk.inj (Option.some.inj h)
    rfl
  · split at h
    case h_1 tail cs₁ hleave =>
      obtain ⟨rfl, rfl⟩ := Prod.mk.inj (Option.some.inj h)
      exact leave_inMessage hleave
    case h_2 =>
      obtain ⟨-, h⟩ := Option.ite_none_right_eq_some.mp h
      obtain ⟨rfl, rfl⟩ := Prod.mk.inj (Option.some.inj h)
      rfl

theorem not_writeValue_of_reports (h₀ : .writeValue ∉ acts₀)
    (h : ∃ tail, acts = acts₀ ++ tail ∧ ∀ a ∈ tail, a.reports) : .writeValue ∉ acts := by
  obtain ⟨tail, rfl, htail⟩ := h
  intro hmem
  rcases List.mem_append.mp hmem with hmem | hmem
  · exact h₀ hmem
  · exact absurd (htail _ hmem) (by decide)

/-- A message goes on as one, and reports no header. -/
theorem next_inMessage (h : cs.inMessage = true) (hnext : cs.next c = some (acts, cs')) :
    cs'.inMessage = true ∧ .writeValue ∉ acts := by
  have henter : ∀ {part acts₀}, (Cs.within part .out).inMessage = true → .writeValue ∉ acts₀ →
      part.enter acts₀ c = some (acts, cs') → cs'.inMessage = true ∧ .writeValue ∉ acts := by
    intro part acts₀ hpart h₀ he
    exact ⟨(enter_inMessage he).trans hpart, not_writeValue_of_reports h₀ (enter_spec he).1⟩
  cases cs with
  | «within» part esc =>
    cases esc with
    | out => exact henter h (by simp) hnext
    | first | second =>
      simp only [Cs.next] at hnext
      split_ifs at hnext
      obtain ⟨rfl, rfl⟩ := Prod.mk.inj (Option.some.inj hnext)
      exact ⟨h, by simp⟩
  | jsonQueryStart => exact henter rfl (by simp) hnext
  | jsonStart =>
    simp only [Cs.next] at hnext
    split_ifs at hnext
    exact henter rfl (by simp) hnext
  | policy | brace | json | jsonDone =>
    simp only [Cs.next] at hnext
    split_ifs at hnext <;> obtain ⟨rfl, rfl⟩ := Prod.mk.inj (Option.some.inj hnext) <;>
      exact ⟨rfl, by simp⟩
  | done => exact absurd hnext (by simp [Cs.next])
  | _ => exact absurd h (by simp [Cs.inMessage])

/-- The first line ends at its first line feed. -/
structure LineStep (c : Byte) (acts : List Act) (cs' : Cs) : Prop where
  goes : .done ∉ acts
  silent : .writeValue ∉ acts
  ends : c = chr '\n' → cs' = .headers
  inside : c ≠ chr '\n' → cs'.inLine = true

theorem enter_lf (part : Part) (acts₀ : List Act) : part.enter acts₀ (chr '\n') = none := by
  cases part <;> rfl

theorem enter_line (hpart : (Cs.within part .out).inMessage = false) (hdone : .done ∉ acts₀)
    (hwrite : .writeValue ∉ acts₀) (h : part.enter acts₀ c = some (acts, cs')) :
    LineStep c acts cs' := by
  obtain ⟨hacts, htarget⟩ := enter_spec h
  have hlf : c ≠ chr '\n' := by
    rintro rfl
    exact absurd h (by simp [enter_lf])
  refine ⟨fun hmem => ?_, not_writeValue_of_reports hwrite hacts, fun heq => absurd heq hlf,
    fun _ => ?_⟩
  · obtain ⟨tail, rfl, htail⟩ := hacts
    rcases List.mem_append.mp hmem with hmem | hmem
    · exact hdone hmem
    · exact absurd (htail _ hmem) (by decide)
  · rw [inLine_of_target htarget, enter_inMessage h, hpart]
    rfl

theorem ne_lf_of_getElem? {w : List Byte} {n : ℕ} (hw : chr '\n' ∉ w) (h : w[n]? = some c) :
    c ≠ chr '\n' := by
  rintro rfl
  exact hw (List.mem_of_getElem? h)

theorem next_inLine (h : cs.inLine = true) (hnext : cs.next c = some (acts, cs')) :
    LineStep c acts cs' := by
  have hplain : ∀ {acts' : List Act} {cs₁ : Cs}, some (acts', cs₁) = some (acts, cs') →
      .done ∉ acts' → .writeValue ∉ acts' → cs₁.inLine = true → c ≠ chr '\n' →
        LineStep c acts cs' := by
    intro acts' cs₁ heq hdone hwrite hin hlf
    obtain ⟨rfl, rfl⟩ := Prod.mk.inj (Option.some.inj heq)
    exact ⟨hdone, hwrite, fun heq => absurd heq hlf, fun _ => hin⟩
  -- only `versionEnd` and `lineLF` go on with a line feed
  cases cs with
  | «within» part esc =>
    have hpart : (Cs.within part .out).inMessage = false := by
      cases part <;> first | rfl | exact absurd h (by simp [Cs.inLine])
    cases esc with
    | out => exact enter_line hpart (by simp) (by simp) hnext
    | first | second =>
      simp only [Cs.next] at hnext
      split_ifs at hnext with hx
      refine hplain hnext (by simp) (by simp) h ?_
      rintro rfl
      exact absurd hx (by decide)
  | queryStart => exact enter_line rfl (by simp) (by simp) hnext
  | fragmentStart => exact enter_line rfl (by simp) (by simp) hnext
  | method n =>
    simp only [Cs.next] at hnext
    split_ifs at hnext with hspace hx
    · exact hplain hnext (by simp) (by simp) rfl (hspace ▸ by decide)
    · refine hplain hnext (by simp) (by simp) rfl ?_
      rintro rfl
      have hlf : isMethod (chr '\n') = false := by decide
      rw [hlf] at hx
      exact absurd hx (by simp)
  | uri =>
    simp only [Cs.next] at hnext
    split_ifs at hnext with h₁ h₂ h₃
    · exact hplain hnext (by simp) (by simp) rfl (h₁ ▸ by decide)
    · exact hplain hnext (by simp) (by simp) rfl (h₂ ▸ by decide)
    · exact hplain hnext (by simp) (by simp) rfl (h₃ ▸ by decide)
  | star =>
    simp only [Cs.next] at hnext
    split_ifs at hnext with h₁ h₂
    · exact hplain hnext (by simp) (by simp) rfl (h₁ ▸ by decide)
    · exact hplain hnext (by simp) (by simp) rfl (h₂ ▸ by decide)
  | scheme n =>
    simp only [Cs.next] at hnext
    split_ifs at hnext with h₁ h₂
    · exact hplain hnext (by simp) (by simp) rfl (ne_lf_of_getElem? (by decide) h₁)
    · exact hplain hnext (by simp) (by simp) rfl (ne_lf_of_getElem? (by decide) h₁)
  | version n =>
    simp only [Cs.next] at hnext
    split_ifs at hnext with h₁ h₂ h₃ h₄
    · exact hplain hnext (by simp) (by simp) rfl (by rcases h₂ with rfl | rfl <;> decide)
    · exact hplain hnext (by simp) (by simp) rfl (ne_lf_of_getElem? (by decide) h₃)
    · exact hplain hnext (by simp) (by simp) rfl (ne_lf_of_getElem? (by decide) h₃)
  | versionEnd =>
    simp only [Cs.next] at hnext
    split_ifs at hnext with h₁ h₂
    · obtain ⟨rfl, rfl⟩ := Prod.mk.inj (Option.some.inj hnext)
      exact ⟨by simp, by simp, fun _ => rfl, fun hne => absurd h₁ hne⟩
    · exact hplain hnext (by simp) (by simp) rfl h₁
  | lineLF =>
    simp only [Cs.next] at hnext
    split_ifs at hnext with h₁
    obtain ⟨rfl, rfl⟩ := Prod.mk.inj (Option.some.inj hnext)
    exact ⟨by simp, by simp, fun _ => rfl, fun hne => absurd h₁ hne⟩
  | _ => exact absurd h (by simp [Cs.inLine])

end HttpParser

/-! ### A request as it is written -/

/-- A request with the headers that stand in it. -/
inductive Written : List Byte → List (List Byte × List Byte) → Prop
  /-- a request line that the machine takes for one, and its header section -/
  | http {line headers text} : chr '\n' ∉ line →
      HttpParser.Cs.start.run (line ++ [chr '\n']) = some .headers → HeaderSection headers text →
      Written (line ++ [chr '\n'] ++ text) headers
  /-- a JSON or a socket message -/
  | message {c rest} : c = chr '@' ∨ c = chr '<' → Written (c :: rest) []

/-- `Request_content_length` of a request with the headers. -/
def contentLength (headers : List (List Byte × List Byte)) : ℤ :=
  (((headers.find? fun h => sameCaseless h.1 (bytes "Content-Length")).map Prod.snd).map
    atoi).getD 0

namespace Request

variable {buffer w xs h : List Byte} {fpc : ℕ} {r : Request} {cs cs' : HttpParser.Cs} {c : Byte}
  {acts : List Act} {headers : List (List Byte × List Byte)}

theorem run_inMessage (hcs : cs.inMessage = true) (hrun : cs.run w = some cs') :
    cs'.inMessage = true := by
  induction w generalizing cs with
  | nil => exact Option.some.inj hrun ▸ hcs
  | cons c w ih =>
    obtain ⟨acts, cs₁, hnext, hrest⟩ := run_cons hrun
    exact ih (next_inMessage hcs hnext).1 hrest

/-- The first byte tells a line from a message. -/
theorem next_start (hnext : HttpParser.Cs.start.next c = some (acts, cs)) :
    .done ∉ acts ∧ .writeValue ∉ acts ∧
      (cs.inLine = true ∨ (c = chr '@' ∨ c = chr '<') ∧ cs.inMessage = true) := by
  simp only [HttpParser.Cs.next] at hnext
  split_ifs at hnext with h₁ h₂ h₃ <;> obtain ⟨rfl, rfl⟩ := Prod.mk.inj (Option.some.inj hnext)
  · exact ⟨by simp, by simp, .inl rfl⟩
  · exact ⟨by simp, by simp, .inr ⟨.inr h₂, rfl⟩⟩
  · exact ⟨by simp, by simp, .inr ⟨.inl h₃, rfl⟩⟩

theorem headers_take (hacts : .writeValue ∉ acts) : (r.take buffer fpc acts cs).headers = r.headers :=
  foldl_act_keeps (·.headers) buffer fpc
    (fun a ha r => by cases a <;> first | rfl | exact absurd rfl ha) hacts r

/-- Over the rest of the first line. -/
theorem goes_inLine (hcs : r.parser.cs.inLine = true) (hw : chr '\n' ∉ w)
    (hrun : r.parser.cs.run (w ++ [chr '\n']) = some cs) :
    ∃ events r', Goes buffer fpc (w ++ [chr '\n']) r events r' ∧ r'.parser.cs = .headers ∧
      r'.headers = r.headers := by
  induction w generalizing fpc r with
  | nil =>
    obtain ⟨acts, cs₁, hnext, -⟩ := run_cons hrun
    have hstep := next_inLine hcs hnext
    exact ⟨_, _, goes_step hnext hstep.goes, hstep.ends rfl, headers_take hstep.silent⟩
  | cons c w ih =>
    obtain ⟨hc, hw⟩ := not_or.mp (List.mem_cons.not.mp hw)
    obtain ⟨acts, cs₁, hnext, hrest⟩ := run_cons hrun
    have hstep := next_inLine hcs hnext
    have hin : (r.take buffer fpc acts cs₁).parser.cs.inLine = true :=
      hstep.inside fun heq => hc heq.symm
    obtain ⟨events, r', hgoes, hcs', hheaders⟩ := @ih (fpc + 1) _ hin hw hrest
    exact ⟨_, r', (goes_step hnext hstep.goes).trans hgoes, hcs',
      hheaders.trans (headers_take hstep.silent)⟩

/-- **A request line** leads to its header section, and reports no header. -/
theorem goes_requestLine (hcs : r.parser.cs = .start) (hw : chr '\n' ∉ w)
    (hrun : HttpParser.Cs.start.run (w ++ [chr '\n']) = some .headers) :
    ∃ events r', Goes buffer fpc (w ++ [chr '\n']) r events r' ∧ r'.parser.cs = .headers ∧
      r'.headers = r.headers := by
  cases w with
  | nil => exact absurd hrun (by decide)
  | cons c w =>
    obtain ⟨acts, cs₁, hnext, hrest⟩ := run_cons hrun
    obtain ⟨hdone, hwrite, hline | ⟨-, hmessage⟩⟩ := next_start hnext
    · obtain ⟨events, r', hgoes, hcs', hheaders⟩ := @goes_inLine buffer w (fpc + 1)
        (r.take buffer fpc acts cs₁) _ hline (fun hmem => hw (List.mem_cons_of_mem c hmem)) hrest
      exact ⟨_, r', (goes_step (hcs ▸ hnext) hdone).trans hgoes, hcs',
        hheaders.trans (headers_take hwrite)⟩
    -- a message never comes to the header state
    · exact absurd (run_inMessage hmessage hrest) (by decide)

/-- **An HTTP request**: the machine stops behind its section, having reported the headers. -/
theorem consume_http {line text : List Byte} (hlf : chr '\n' ∉ line)
    (hrun : HttpParser.Cs.start.run (line ++ [chr '\n']) = some .headers)
    (hsection : HeaderSection headers text) (behind : List Byte) (r : Request) :
    ∃ r', consume (line ++ [chr '\n'] ++ (text ++ behind)) 0
        (line ++ [chr '\n'] ++ (text ++ behind)) r.start =
          (r', (line ++ [chr '\n'] ++ text).length) ∧
      r'.parser.cs = .done ∧ r'.headers = headers := by
  obtain ⟨events, r₁, hgoes, hcs, hnone⟩ := @goes_requestLine
    (line ++ [chr '\n'] ++ (text ++ behind)) line 0 r.start rfl hlf hrun
  obtain ⟨-, r₂, hconsume, hdone, -, hheaders⟩ := @consume_section
    (line ++ [chr '\n'] ++ (text ++ behind)) behind (0 + (line ++ [chr '\n']).length) r₁ headers
    text hsection hcs (by rw [Nat.zero_add, List.drop_left])
  refine ⟨r₂, ?_, hdone, by rw [hheaders, hnone]; rfl⟩
  rw [hgoes.consume, hconsume, Nat.zero_add, ← List.length_append]

theorem isHeader_http {line text : List Byte} (hlf : chr '\n' ∉ line)
    (hrun : HttpParser.Cs.start.run (line ++ [chr '\n']) = some .headers)
    (hsection : HeaderSection headers text) (r : Request) :
    IsHeader r (line ++ [chr '\n'] ++ text) := by
  obtain ⟨r', hconsume, hdone, -⟩ := consume_http hlf hrun hsection [] r
  rw [List.append_nil] at hconsume
  have hne : line ++ [chr '\n'] ++ text ≠ [] := by simp
  constructor
  · rw [parse_eq hne, hconsume]
    show r'.parser.cs.isFinished = true
    rw [hdone]
    rfl
  · rw [parse_eq hne, hconsume]

/-- A message reports no header. -/
theorem headers_of_inMessage (hcs : r.parser.cs.inMessage = true) :
    (consume buffer fpc xs r).1.headers = r.headers := by
  induction xs generalizing fpc r with
  | nil => rfl
  | cons c xs ih =>
    rw [consume]
    cases hnext : r.parser.cs.next c with
    | none => rfl
    | some p =>
      obtain ⟨hmessage, hwrite⟩ := next_inMessage hcs hnext
      have htake : (r.take buffer fpc p.1 p.2).headers = r.headers := headers_take hwrite
      dsimp only
      split
      · exact htake
      · exact (@ih (fpc + 1) (r.take buffer fpc p.1 p.2) hmessage).trans htake

theorem contentLen_take (hacts : .done ∉ acts) :
    (r.take buffer fpc acts cs).parser.contentLen = r.parser.contentLen :=
  foldl_act_keeps (·.parser.contentLen) buffer fpc
    (fun a ha r => by cases a <;> first | rfl | exact absurd rfl ha) hacts r

/-- A machine that is done has read the length of the body from the headers. -/
theorem contentLen_consume (hrun : r.parser.cs.isFinished = false) (hzero : r.parser.contentLen = 0)
    (hfin : (consume buffer fpc xs r).1.parser.cs.isFinished = true) :
    (consume buffer fpc xs r).1.parser.contentLen =
      contentLength (consume buffer fpc xs r).1.headers := by
  induction xs generalizing fpc r with
  | nil => exact absurd hfin (by simp [consume, hrun])
  | cons c xs ih =>
    simp only [consume] at hfin ⊢
    cases hnext : r.parser.cs.next c with
    | none => exact absurd hfin (by simp [hnext, Cs.isFinished])
    | some p =>
      obtain ⟨acts, cs⟩ := p
      simp only [hnext] at hfin ⊢
      have heffect := next_effect hnext
      by_cases hdone : .done ∈ acts
      · rw [if_pos hdone]
        have hacts : acts = [.done] ∨ acts = [.socket, .done] ∨ acts = [.json, .done] := by
          generalize r.parser.cs = cs₀ at heffect
          cases heffect with
          | plain h₀ => exact absurd hdone h₀
          | startField => exact absurd hdone (by simp)
          | inField => exact absurd hdone (by simp)
          | writeField => exact absurd hdone (by simp)
          | inValue _ hacts _ => rcases hacts with rfl | rfl <;> exact absurd hdone (by simp)
          | writeValue _ hacts _ => rcases hacts with rfl | rfl <;> exact absurd hdone (by simp)
          | finish hacts _ => exact hacts
        rw [contentLength, ← hzero]
        rcases hacts with rfl | rfl | rfl <;> rfl
      · rw [if_neg hdone] at hfin ⊢
        exact ih (Bool.eq_false_iff.mpr fun hf => hdone (heffect.done_mem_iff.mpr hf))
          ((contentLen_take hdone).trans hzero) hfin

/-- The states that a run goes through, and where it stops, depend on the first state. -/
theorem consume_cs (xs : List Byte) {r r' : Request} (hcs : r.parser.cs = r'.parser.cs) :
    (consume buffer fpc xs r).1.parser.cs = (consume buffer fpc xs r').1.parser.cs ∧
      (consume buffer fpc xs r).2 = (consume buffer fpc xs r').2 := by
  induction xs generalizing fpc r r' with
  | nil => exact ⟨hcs, rfl⟩
  | cons c xs ih =>
    rw [consume, consume, ← hcs]
    cases r.parser.cs.next c with
    | none => exact ⟨rfl, rfl⟩
    | some p =>
      dsimp only
      split
      · exact ⟨rfl, rfl⟩
      · exact ih rfl

theorem isHeader_of_create (hh : IsHeader create h) (r : Request) : IsHeader r h := by
  have hsame := @consume_cs h 0 h create.start r.start rfl
  have hfin := hh.finished
  have hlen := hh.nparsed
  rw [parse_eq hh.ne_nil] at hfin hlen
  constructor
  · rw [parse_eq hh.ne_nil]
    show (consume h 0 h r.start).1.parser.cs.isFinished = true
    rw [← hsame.1]
    exact hfin
  · rw [parse_eq hh.ne_nil]
    exact hsame.2.symm.trans hlen

/-- **What stands in a request is inserted**, and gives the length of its body. -/
theorem parse_written (hw : Written h headers) (hh : IsHeader r h) :
    (r.parse h).1.headers = headers ∧
      (r.parse h).1.parser.contentLen = contentLength headers := by
  have hheaders : (r.parse h).1.headers = headers := by
    rw [parse_eq hh.ne_nil]
    show (consume h 0 h r.start).1.headers = headers
    cases hw with
    | @http line headers text hlf hrun hsection =>
      obtain ⟨r', hconsume, -, hheaders⟩ := consume_http hlf hrun hsection [] r
      rw [List.append_nil] at hconsume
      rw [hconsume]
      exact hheaders
    | @message c rest hc =>
      have hfirst : ∃ acts cs, HttpParser.Cs.start.next c = some (acts, cs) ∧ cs.inMessage = true ∧
          .done ∉ acts ∧ .writeValue ∉ acts := by
        rcases hc with rfl | rfl
        · exact ⟨[.mark], .jsonStart, by decide, rfl, by simp, by simp⟩
        · exact ⟨[], .policy 0, by decide, rfl, by simp, by simp⟩
      obtain ⟨acts, cs, hnext, hmessage, hdone, hwrite⟩ := hfirst
      rw [consume_cons (c :: rest) 0 rest hnext hdone, headers_of_inMessage hmessage,
        headers_take hwrite]
      rfl
  refine ⟨hheaders, ?_⟩
  have hfin := hh.finished
  rw [parse_eq hh.ne_nil] at hfin hheaders ⊢
  rw [← hheaders]
  exact contentLen_consume rfl rfl hfin

/-- A request line that is read on ends with a line feed. -/
theorem finishes_inLine (hcs : cs.inLine = true) (hfin : Finishes cs xs) :
    ∃ line rest, xs = line ++ [chr '\n'] ++ rest ∧ chr '\n' ∉ line ∧
      cs.run (line ++ [chr '\n']) = some .headers ∧ Finishes .headers rest := by
  induction xs generalizing cs with
  | nil => exact absurd hfin id
  | cons c xs ih =>
    obtain ⟨acts, cs₁, hnext, hrest⟩ := hfin
    have hstep := next_inLine hcs hnext
    have hrest := hrest.resolve_left hstep.goes
    have hrun : ∀ w, cs.run (c :: w) = cs₁.run w := by
      intro w
      rw [HttpParser.Cs.run, hnext]
      rfl
    -- the line ends here, or goes on inside
    by_cases hlf : c = chr '\n'
    · obtain rfl := hstep.ends hlf
      subst hlf
      exact ⟨[], xs, rfl, List.not_mem_nil, hrun [], hrest⟩
    · obtain ⟨line, rest, rfl, hline, hrun', hrest'⟩ := ih (hstep.inside hlf) hrest
      refine ⟨c :: line, rest, rfl, ?_, (hrun _).trans hrun', hrest'⟩
      exact fun hmem => (List.mem_cons.mp hmem).elim (fun heq => hlf heq.symm) hline

/-- **Every request is written so.** -/
theorem exists_written (hh : IsHeader create h) : ∃ headers, Written h headers := by
  obtain ⟨c, w, rfl⟩ := List.exists_cons_of_ne_nil hh.ne_nil
  have hfin := hh.finished
  rw [parse_eq hh.ne_nil] at hfin
  have hfinishes : Finishes .start (c :: w) := 
    @finishes_of_consume (c :: w) 0 create.start (c :: w) rfl hfin
  obtain ⟨acts, cs, hnext, hrest⟩ := hfinishes
  obtain ⟨hdone, hwrite, hline | ⟨hc, -⟩⟩ := next_start hnext
  · obtain ⟨line, rest, rfl, hlf, hrun, hrest⟩ := finishes_inLine hline (hrest.resolve_left hdone)
    obtain ⟨headers, text, behind, hsection, rfl⟩ := section_of_finishes hrest
    have hfirst : c ≠ chr '\n' := by
      rintro rfl
      have hnone : HttpParser.Cs.start.next (chr '\n') = none := by decide
      exact absurd (hnone.symm.trans hnext) (by simp)
    have hline : chr '\n' ∉ c :: line := fun hmem =>
      (List.mem_cons.mp hmem).elim (fun heq => hfirst heq.symm) hlf
    have hrun : HttpParser.Cs.start.run (c :: line ++ [chr '\n']) = some .headers := by
      rw [List.cons_append, HttpParser.Cs.run, hnext]
      exact hrun
    -- nothing can stand behind the section
    have happend : c :: (line ++ [chr '\n'] ++ (text ++ behind)) =
        c :: line ++ [chr '\n'] ++ (text ++ behind) := rfl
    have hpos := hh.nparsed
    rw [parse_eq hh.ne_nil, happend] at hpos
    obtain ⟨r', hconsume, -⟩ := consume_http hline hrun hsection behind create
    rw [hconsume] at hpos
    have hnil : behind = [] := by
      refine List.eq_nil_of_length_eq_zero ?_
      simp only [List.length_append] at hpos
      omega
    rw [happend, hnil, List.append_nil]
    exact ⟨headers, .http hline hrun hsection⟩
  · exact ⟨[], .message hc⟩

/-! ### A request that is cut short -/

theorem headers_act (buffer : List Byte) (fpc : ℕ) (r : Request) (a : Act) :
    r.headers <+: (r.act buffer fpc a).headers := by
  cases a with
  | writeValue => exact List.prefix_append ..
  | _ => exact List.prefix_refl _

theorem headers_foldl_act (buffer : List Byte) (fpc : ℕ) (acts : List Act) (r : Request) :
    r.headers <+: (acts.foldl (fun r a => r.act buffer fpc a) r).headers := by
  induction acts generalizing r with
  | nil => exact List.prefix_refl _
  | cons a acts ih => exact (headers_act buffer fpc r a).trans (ih _)

/-- Headers are only added. -/
theorem headers_consume (buffer : List Byte) (fpc : ℕ) (xs : List Byte) (r : Request) :
    r.headers <+: (consume buffer fpc xs r).1.headers := by
  induction xs generalizing fpc r with
  | nil => exact List.prefix_refl _
  | cons c xs ih =>
    rw [consume]
    cases r.parser.cs.next c with
    | none => exact List.prefix_refl _
    | some p =>
      have htake : r.headers <+: (r.take buffer fpc p.1 p.2).headers :=
        headers_foldl_act buffer fpc p.1 r
      dsimp only
      split
      · exact htake
      · exact htake.trans (ih (fpc + 1) _)

theorem headers_parse (r : Request) (h : w <+: xs) :
    (r.parse w).1.headers <+: (r.parse xs).1.headers := by
  by_cases hw : w = []
  · subst hw
    exact List.nil_prefix
  obtain ⟨more, rfl⟩ := h
  -- the machine has stopped, or goes on with what follows
  rcases parse_append_cases hw r more with ⟨-, heq⟩ | ⟨-, -, heq⟩
  · rw [heq]
  · rw [heq, parse_eq hw]
    exact headers_consume (w ++ more) w.length more (consume w 0 w r.start).1

end Request

end Mongrel2

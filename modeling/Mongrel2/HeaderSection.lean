/-
The header section of a request (`message_header` of `http11_parser.rl`).

* `HeaderLine`, `HeaderSection` — how headers are written, line by line, with CRLF or LF
  and any number of spaces before a value;
* `Goes` — what the machine does over some bytes, whatever stands behind them;
* `execute_headerSection` — from the header state on, what is written is reported, and
  whatever is accepted is written that way.

Design notes: a value ends before the first CR or LF.  The mark of a value is set anew at
each space before it, so a value of spaces only is reported as the empty one.
-/
import Mongrel2.Callbacks

namespace Mongrel2

open ByteStream (Byte)
open HttpParser

/-! ### The written form -/

/-- CRLF or LF. -/
def IsEol (w : List Byte) : Prop := w = [chr '\n'] ∨ w = [chr '\r', chr '\n']

/-- A header as it is written in a line. -/
structure HeaderLine (name value line : List Byte) : Prop where
  named : name ≠ [] ∧ ∀ c ∈ name, isToken c = true
  plain : ∀ c ∈ value, c ≠ chr '\n' ∧ c ≠ chr '\r'
  trimmed : value.head? ≠ some (chr ' ')
  written : ∃ spaces eol, IsEol eol ∧
    line = name ++ chr ':' :: (List.replicate spaces (chr ' ') ++ (value ++ eol))

/-- Headers as they are written, up to the empty line. -/
inductive HeaderSection : List (List Byte × List Byte) → List Byte → Prop
  | empty {eol} : IsEol eol → HeaderSection [] eol
  | cons {name value line headers rest} : HeaderLine name value line →
      HeaderSection headers rest → HeaderSection ((name, value) :: headers) (line ++ rest)

theorem HeaderSection.ne_nil {headers : List (List Byte × List Byte)} {text : List Byte}
    (h : HeaderSection headers text) : text ≠ [] := by
  cases h with
  | empty heol => rcases heol with rfl | rfl <;> simp
  | cons hline _ =>
    obtain ⟨spaces, eol, -, rfl⟩ := hline.written
    simp

namespace Request

/-- `http_parser_execute` from `buffer[off]` on reports the headers, and the body starts at
`stop`. -/
structure Reports (r : Request) (buffer : List Byte) (off : ℕ)
    (headers : List (List Byte × List Byte)) (stop : ℕ) : Prop where
  events : r.executeCalls buffer off =
    headers.map (fun h => .httpField h.1 h.2) ++ [.headerDone stop (buffer.length - stop)]
  headers : (r.execute buffer off).1.headers = r.headers ++ headers
  finish : (r.execute buffer off).1.finish = 1
  bodyStart : (r.execute buffer off).1.parser.bodyStart = stop

/-! ### Over some bytes -/

/-- Over the bytes the machine goes from one request to the other, with the callbacks, and
then goes on with whatever stands behind them. -/
structure Goes (buffer : List Byte) (fpc : ℕ) (w : List Byte) (r : Request)
    (events : List Callback) (r' : Request) : Prop where
  consume : ∀ xs, consume buffer fpc (w ++ xs) r = consume buffer (fpc + w.length) xs r'
  calls : ∀ xs, calls buffer fpc (w ++ xs) r = events ++ calls buffer (fpc + w.length) xs r'

section

variable {buffer w w' rest line name value eol : List Byte} {fpc off : ℕ} {r r' r'' : Request}
  {events events' : List Callback} {c : Byte} {acts : List Act} {cs cs' : Cs}

theorem Goes.refl (buffer : List Byte) (fpc : ℕ) (r : Request) : Goes buffer fpc [] r [] r :=
  ⟨fun _ => rfl, fun _ => rfl⟩

theorem Goes.trans (h : Goes buffer fpc w r events r')
    (h' : Goes buffer (fpc + w.length) w' r' events' r'') :
    Goes buffer fpc (w ++ w') r (events ++ events') r'' := by
  constructor <;> intro xs
  · rw [List.append_assoc, h.consume, h'.consume, List.length_append, Nat.add_assoc]
  · rw [List.append_assoc, h.calls, h'.calls, List.length_append, Nat.add_assoc, List.append_assoc]

/-- One byte. -/
theorem goes_step (hnext : r.parser.cs.next c = some (acts, cs)) (hgo : .done ∉ acts) :
    Goes buffer fpc [c] r (callsOf buffer fpc acts r) (r.take buffer fpc acts cs) := by
  constructor <;> intro xs
  · rw [List.singleton_append, consume_cons buffer fpc xs hnext hgo, List.length_singleton]
  · rw [List.singleton_append, Request.calls, hnext, List.length_singleton]
    simp only [if_neg hgo]

/-- What a header has been read of is kept. -/
def SameName (r r' : Request) : Prop :=
  r'.parser.fieldStart = r.parser.fieldStart ∧ r'.parser.fieldLen = r.parser.fieldLen ∧
    r'.headers = r.headers

theorem SameName.trans (h : SameName r r') (h' : SameName r' r'') : SameName r r'' :=
  ⟨h'.1.trans h.1, h'.2.1.trans h.2.1, h'.2.2.trans h.2.2⟩

/-- A state that only goes on over the bytes of a class. -/
theorem goes_loop {P : Byte → Bool} (hloop : ∀ c, P c = true → r.parser.cs.next c = some ([], r.parser.cs))
    (hw : ∀ c ∈ w, P c = true) : Goes buffer fpc w r [] r := by
  induction w generalizing fpc with
  | nil => exact .refl buffer fpc r
  | cons c w ih =>
    obtain ⟨hc, hw⟩ := List.forall_mem_cons.mp hw
    have hstep : Goes buffer fpc [c] r [] r := goes_step (hloop c hc) List.not_mem_nil
    exact hstep.trans (ih hw)

/-! ### A line -/

theorem token_ne {c : Byte} (h : isToken c = true) : c ≠ chr ':' ∧ c ≠ chr '\n' ∧ c ≠ chr '\r' := by
  refine ⟨?_, ?_, ?_⟩ <;> rintro rfl <;> exact absurd h (by decide)

theorem next_field (h : isToken c = true) : Cs.field.next c = some ([], .field) := by
  rw [Cs.next, if_neg (token_ne h).1, if_pos h]

/-- The name of a header and its colon. -/
theorem goes_name (hcs : r.parser.cs = .headers) (hne : name ≠ []) (hname : ∀ c ∈ name, isToken c = true) :
    ∃ r', Goes buffer fpc (name ++ [chr ':']) r [] r' ∧ r'.parser.cs = .valueStart ∧
      r'.parser.fieldStart = fpc ∧ r'.parser.fieldLen = name.length ∧ r'.headers = r.headers := by
  obtain ⟨c, w, rfl⟩ := List.exists_cons_of_ne_nil hne
  obtain ⟨hc, hw⟩ := List.forall_mem_cons.mp hname
  have hnext : r.parser.cs.next c = some ([.startField], .field) := by
    rw [hcs, Cs.next, if_neg (token_ne hc).2.1, if_neg (token_ne hc).2.2, if_pos hc]
  -- the first byte sets where the name starts, the others leave it
  have hfirst : Goes buffer fpc [c] r [] (r.take buffer fpc [.startField] .field) :=
    goes_step hnext (by simp)
  have hrest : Goes buffer (fpc + [c].length) w (r.take buffer fpc [.startField] .field) []
      (r.take buffer fpc [.startField] .field) := goes_loop (fun c hc => next_field hc) hw
  have hboth := hfirst.trans hrest
  refine ⟨_, hboth.trans (@goes_step buffer _ _ (chr ':') [.writeField] .valueStart rfl (by simp)), rfl, rfl,
    ?_, rfl⟩
  show fpc + ([c] ++ w).length - fpc = (c :: w).length
  exact Nat.add_sub_cancel_left ..

/-- The spaces before a value. -/
theorem goes_spaces (n : ℕ) (hcs : r.parser.cs = .valueStart) :
    ∃ r', Goes buffer fpc (List.replicate n (chr ' ')) r [] r' ∧ r'.parser.cs = .valueStart ∧
      SameName r r' := by
  induction n generalizing fpc r with
  | zero => exact ⟨r, .refl buffer fpc r, hcs, rfl, rfl, rfl⟩
  | succ n ih =>
    have hstep : Goes buffer fpc [chr ' '] r [] (r.take buffer fpc [.mark] .valueStart) :=
      @goes_step buffer fpc r (chr ' ') [.mark] .valueStart (by rw [hcs]; rfl) (by simp)
    obtain ⟨r', hgoes, hcs', hsame⟩ := @ih (fpc + 1) (r.take buffer fpc [.mark] .valueStart) rfl
    exact ⟨r', hstep.trans hgoes, hcs', hsame⟩

theorem next_value (h : c ≠ chr '\n' ∧ c ≠ chr '\r') : Cs.value.next c = some ([], .value) := by
  rw [Cs.next, if_neg h.1, if_neg h.2]

/-- The machine is behind a value that begins at the position. -/
def AtValue (r : Request) (fpc : ℕ) (value : List Byte) : Prop :=
  r.parser.cs = .valueStart ∧ value = [] ∨ r.parser.cs = .value ∧ r.parser.mark = fpc

theorem goes_value (hcs : r.parser.cs = .valueStart)
    (hvalue : ∀ c ∈ value, c ≠ chr '\n' ∧ c ≠ chr '\r') (hhead : value.head? ≠ some (chr ' ')) :
    ∃ r', Goes buffer fpc value r [] r' ∧ AtValue r' fpc value ∧ SameName r r' := by
  cases value with
  | nil => exact ⟨r, .refl buffer fpc r, .inl ⟨hcs, rfl⟩, rfl, rfl, rfl⟩
  | cons c w =>
    obtain ⟨hc, hw⟩ := List.forall_mem_cons.mp hvalue
    -- a value that is there is marked at its first byte
    have hspace : c ≠ chr ' ' := by
      rintro rfl
      exact hhead rfl
    have hnext : r.parser.cs.next c = some ([.mark], .value) := by
      rw [hcs, Cs.next, if_neg hc.1, if_neg hc.2, if_neg hspace]
    have hfirst : Goes buffer fpc [c] r [] (r.take buffer fpc [.mark] .value) :=
      goes_step hnext (by simp)
    have hrest : Goes buffer (fpc + [c].length) w (r.take buffer fpc [.mark] .value) []
        (r.take buffer fpc [.mark] .value) :=
      goes_loop (P := fun c => c ≠ chr '\n' ∧ c ≠ chr '\r') (fun c hc => next_value (by simpa using hc))
        (by simpa using hw)
    exact ⟨_, hfirst.trans hrest, .inr ⟨rfl, rfl⟩, rfl, rfl, rfl⟩

/-- The byte that ends a value. -/
theorem goes_write {pos : ℕ} (h : AtValue r pos value) (hpos : fpc = pos + value.length)
    (hspan : span buffer pos value.length = value)
    (hc : c = chr '\n' ∧ cs = .headers ∨ c = chr '\r' ∧ cs = .lineLF) :
    ∃ r', Goes buffer fpc [c] r
        [.httpField (span buffer r.parser.fieldStart r.parser.fieldLen) value] r' ∧
      r'.parser.cs = cs ∧ r'.headers = r.headers ++
        [(span buffer r.parser.fieldStart r.parser.fieldLen, value)] := by
  rcases h with ⟨hcs, rfl⟩ | ⟨hcs, hmark⟩
  · -- nothing but spaces stands before it
    have hnext : r.parser.cs.next c = some ([.mark, .writeValue], cs) := by
      rcases hc with ⟨rfl, rfl⟩ | ⟨rfl, rfl⟩ <;> rw [hcs] <;> rfl
    have hevents : callsOf buffer fpc [.mark, .writeValue] r =
        [.httpField (span buffer r.parser.fieldStart r.parser.fieldLen) []] := by
      rw [← span_self buffer fpc]
      rfl
    have hheaders : (r.take buffer fpc [.mark, .writeValue] cs).headers = r.headers ++
        [(span buffer r.parser.fieldStart r.parser.fieldLen, [])] := by
      rw [← span_self buffer fpc]
      rfl
    have hgoes := @goes_step buffer fpc r c _ cs hnext (by simp)
    rw [hevents] at hgoes
    exact ⟨_, hgoes, rfl, hheaders⟩
  · have hnext : r.parser.cs.next c = some ([.writeValue], cs) := by
      rcases hc with ⟨rfl, rfl⟩ | ⟨rfl, rfl⟩ <;> rw [hcs] <;> rfl
    have hvalue : span buffer r.parser.mark (fpc - r.parser.mark) = value := by
      rw [hmark, hpos, Nat.add_sub_cancel_left, hspan]
    have hevents : callsOf buffer fpc [.writeValue] r =
        [.httpField (span buffer r.parser.fieldStart r.parser.fieldLen) value] := by
      rw [← hvalue]
      rfl
    have hheaders : (r.take buffer fpc [.writeValue] cs).headers = r.headers ++
        [(span buffer r.parser.fieldStart r.parser.fieldLen, value)] := by
      rw [← hvalue]
      rfl
    have hgoes := @goes_step buffer fpc r c _ cs hnext (by simp)
    rw [hevents] at hgoes
    exact ⟨_, hgoes, rfl, hheaders⟩

theorem goes_eol {pos : ℕ} (h : AtValue r pos value) (hpos : fpc = pos + value.length)
    (hspan : span buffer pos value.length = value) (heol : IsEol eol) :
    ∃ r', Goes buffer fpc eol r
        [.httpField (span buffer r.parser.fieldStart r.parser.fieldLen) value] r' ∧
      r'.parser.cs = .headers ∧ r'.headers = r.headers ++
        [(span buffer r.parser.fieldStart r.parser.fieldLen, value)] := by
  rcases heol with rfl | rfl
  · exact goes_write h hpos hspan (.inl ⟨rfl, rfl⟩)
  · obtain ⟨r', hgoes, hcs, hheaders⟩ := goes_write (c := chr '\r') h hpos hspan (.inr ⟨rfl, rfl⟩)
    have hlf : Goes buffer (fpc + [chr '\r'].length) [chr '\n'] r' []
        (r'.take buffer (fpc + [chr '\r'].length) [] .headers) :=
      @goes_step buffer _ r' (chr '\n') [] .headers (by rw [hcs]; rfl) List.not_mem_nil
    exact ⟨_, hgoes.trans hlf, rfl, hheaders⟩

theorem span_of_drop (h : buffer.drop fpc = w ++ rest) : span buffer fpc w.length = w := by
  rw [span, h, List.take_left]

/-- **A line** reports its header. -/
theorem goes_line (hcs : r.parser.cs = .headers) (hline : HeaderLine name value line)
    (hbuffer : buffer.drop fpc = line ++ rest) :
    ∃ r', Goes buffer fpc line r [.httpField name value] r' ∧ r'.parser.cs = .headers ∧
      r'.headers = r.headers ++ [(name, value)] := by
  obtain ⟨spaces, eol, heol, rfl⟩ := hline.written
  obtain ⟨r₁, hgoes₁, hcs₁, hstart, hlen, hheaders⟩ :=
    @goes_name buffer name fpc r hcs hline.named.1 hline.named.2
  obtain ⟨r₂, hgoes₂, hcs₂, hsame₂⟩ := @goes_spaces buffer
    (fpc + (name ++ [chr ':']).length) r₁ spaces hcs₁
  have hboth := hgoes₁.trans hgoes₂
  obtain ⟨r₃, hgoes₃, hat, hsame₃⟩ := @goes_value buffer value
    (fpc + (name ++ [chr ':'] ++ List.replicate spaces (chr ' ')).length) r₂ hcs₂ hline.plain
    hline.trimmed
  have hsame := hsame₂.trans hsame₃
  -- what has been marked is what stands in the line
  have hname : span buffer r₃.parser.fieldStart r₃.parser.fieldLen = name := by
    rw [hsame.1, hsame.2.1, hstart, hlen]
    exact span_of_drop (by rw [hbuffer, List.append_assoc])
  have hvalue : span buffer (fpc + (name ++ [chr ':'] ++ List.replicate spaces (chr ' ')).length)
      value.length = value := by
    refine @span_of_drop buffer value (eol ++ rest) _ ?_
    rw [← List.drop_drop, hbuffer]
    have hassoc : name ++ chr ':' :: (List.replicate spaces (chr ' ') ++ (value ++ eol)) ++ rest =
        name ++ [chr ':'] ++ List.replicate spaces (chr ' ') ++ (value ++ (eol ++ rest)) := by
      simp
    rw [hassoc, List.drop_left]
  have hgoes := hboth.trans hgoes₃
  obtain ⟨r₄, hgoes₄, hcs₄, hheaders₄⟩ := @goes_eol buffer value eol
    (fpc + (name ++ [chr ':'] ++ List.replicate spaces (chr ' ') ++ value).length) r₃ _ hat
    (by rw [@List.length_append _ (name ++ _ ++ _), Nat.add_assoc]) hvalue heol
  have hall := hgoes.trans hgoes₄
  rw [hname] at hall hheaders₄
  refine ⟨r₄, ?_, hcs₄, by rw [hheaders₄, hsame.2.2, hheaders]⟩
  simpa using hall

/-! ### The whole section -/

/-- The byte that ends the section. -/
theorem consume_last (hnext : r.parser.cs.next c = some ([.done], .done)) :
    calls buffer fpc (c :: rest) r = [.headerDone (fpc + 1) (buffer.length - (fpc + 1))] ∧
      consume buffer fpc (c :: rest) r = (r.take buffer fpc [.done] .done, fpc + 1) := by
  constructor
  · rw [Request.calls, hnext, ← Nat.sub_sub]
    rfl
  · rw [Request.consume, hnext]
    exact if_pos (List.mem_singleton_self _)

theorem consume_empty (hcs : r.parser.cs = .headers) (heol : IsEol eol) :
    calls buffer fpc (eol ++ rest) r =
        [.headerDone (fpc + eol.length) (buffer.length - (fpc + eol.length))] ∧
      ∃ r', consume buffer fpc (eol ++ rest) r = (r', fpc + eol.length) ∧ r'.parser.cs = .done ∧
        r'.parser.bodyStart = fpc + eol.length ∧ r'.headers = r.headers := by
  rcases heol with rfl | rfl
  · obtain ⟨hcalls, hconsume⟩ := @consume_last buffer rest fpc r (chr '\n')
      (by rw [hcs]; rfl)
    exact ⟨hcalls, _, hconsume, rfl, rfl, rfl⟩
  · have hcr : Goes buffer fpc [chr '\r'] r [] (r.take buffer fpc [] .lastLF) :=
      @goes_step buffer fpc r (chr '\r') [] .lastLF (by rw [hcs]; rfl) List.not_mem_nil
    obtain ⟨hcalls, hconsume⟩ := @consume_last buffer rest (fpc + 1)
      (r.take buffer fpc [] .lastLF) (chr '\n') rfl
    exact ⟨(hcr.calls _).trans hcalls, _, (hcr.consume _).trans hconsume, rfl, rfl, rfl⟩

theorem consume_section {headers : List (List Byte × List Byte)} {text : List Byte}
    (h : HeaderSection headers text) (hcs : r.parser.cs = .headers)
    (hbuffer : buffer.drop fpc = text ++ rest) :
    calls buffer fpc (text ++ rest) r = headers.map (fun h => .httpField h.1 h.2) ++
        [.headerDone (fpc + text.length) (buffer.length - (fpc + text.length))] ∧
      ∃ r', consume buffer fpc (text ++ rest) r = (r', fpc + text.length) ∧ r'.parser.cs = .done ∧
        r'.parser.bodyStart = fpc + text.length ∧ r'.headers = r.headers ++ headers := by
  -- line by line: each ends in the state that the next one starts in
  induction h generalizing fpc r with
  | empty heol =>
    rw [List.append_nil]
    exact consume_empty hcs heol
  | @cons name value line headers text hline _ ih =>
    rw [List.append_assoc] at hbuffer
    obtain ⟨r₁, hgoes, hcs₁, hheaders₁⟩ := goes_line hcs hline hbuffer
    have hdrop : buffer.drop (fpc + line.length) = text ++ rest := by
      rw [← List.drop_drop, hbuffer, List.drop_left]
    obtain ⟨hcalls, r₂, hconsume, hcs₂, hstart, hheaders⟩ := ih hcs₁ hdrop
    have hlen : fpc + (line ++ text).length = fpc + line.length + text.length := by
      rw [List.length_append, Nat.add_assoc]
    rw [List.append_assoc, hgoes.calls, hgoes.consume, hcalls, hconsume, hlen]
    refine ⟨rfl, r₂, rfl, hcs₂, hstart, ?_⟩
    rw [hheaders, hheaders₁, List.append_assoc]
    rfl

/-- What is written is reported. -/
theorem reports_of_section {headers : List (List Byte × List Byte)} {text : List Byte}
    (h : HeaderSection headers text) (hcs : r.parser.cs = .headers)
    (hbuffer : buffer.drop off = text ++ rest) :
    Reports r buffer off headers (off + text.length) := by
  have hne : buffer ≠ [] := by
    rintro rfl
    rw [List.drop_nil] at hbuffer
    exact h.ne_nil (List.append_eq_nil_iff.mp hbuffer.symm).1
  obtain ⟨hcalls, r', hconsume, hdone, hstart, hheaders⟩ := consume_section h hcs hbuffer
  rw [← hbuffer] at hcalls hconsume
  constructor
  · rw [executeCalls, if_neg hne, hcalls]
  · rw [execute_eq hne, hconsume]
    exact hheaders
  · rw [execute_eq hne, hconsume, finish_eq_one]
    show r'.parser.cs.isFinished = true
    rw [hdone]
    rfl
  · rw [execute_eq hne, hconsume]
    exact hstart

/-! ### What is accepted -/

/-- The machine gets to its end. -/
def Finishes : Cs → List Byte → Prop
  | _, [] => False
  | cs, c :: xs => ∃ acts cs', cs.next c = some (acts, cs') ∧ (.done ∈ acts ∨ Finishes cs' xs)

theorem finishes_of_consume {xs : List Byte} (hr : r.parser.cs.isFinished = false)
    (h : (consume buffer fpc xs r).1.parser.cs.isFinished = true) : Finishes r.parser.cs xs := by
  induction xs generalizing fpc r with
  | nil => exact absurd h (by simp [Request.consume, hr])
  | cons c xs ih =>
    rw [Request.consume] at h
    cases hnext : r.parser.cs.next c with
    | none =>
      rw [hnext] at h
      exact absurd h (by simp [Cs.isFinished])
    | some p =>
      obtain ⟨acts, cs⟩ := p
      refine ⟨acts, cs, hnext, ?_⟩
      by_cases hdone : .done ∈ acts
      · exact .inl hdone
      · rw [hnext] at h
        simp only [if_neg hdone] at h
        have hrun : (r.take buffer fpc acts cs).parser.cs.isFinished = false :=
          Bool.eq_false_iff.mpr fun hf => hdone ((next_effect hnext).done_mem_iff.mpr hf)
        exact .inr (ih hrun h)

/-- A byte that does not end the section. -/
theorem finishes_cons {xs : List Byte} (hnext : cs.next c = some (acts, cs')) (hgo : .done ∉ acts)
    (h : Finishes cs (c :: xs)) : Finishes cs' xs := by
  obtain ⟨acts', cs'', hnext', h⟩ := h
  rw [hnext] at hnext'
  obtain ⟨rfl, rfl⟩ := Prod.mk.inj (Option.some.inj hnext')
  exact h.resolve_left hgo

theorem finishes_field {xs : List Byte} (h : Finishes .field xs) :
    ∃ w rest, xs = w ++ chr ':' :: rest ∧ (∀ c ∈ w, isToken c = true) ∧
      Finishes .valueStart rest := by
  induction xs with
  | nil => exact absurd h id
  | cons c xs ih =>
    by_cases hcolon : c = chr ':'
    · subst hcolon
      exact ⟨[], xs, rfl, List.forall_mem_nil _, finishes_cons rfl (by simp) h⟩
    by_cases hc : isToken c = true
    · obtain ⟨w, rest, rfl, hw, hrest⟩ := ih (finishes_cons (next_field hc) List.not_mem_nil h)
      exact ⟨c :: w, rest, rfl, List.forall_mem_cons.mpr ⟨hc, hw⟩, hrest⟩
    · obtain ⟨acts, cs', hnext, -⟩ := h
      rw [Cs.next, if_neg hcolon, if_neg hc] at hnext
      exact absurd hnext (by simp)

/-- The line end behind a value. -/
theorem finishes_eol {xs : List Byte} {acts' : List Act}
    (hlf : cs.next (chr '\n') = some (acts, .headers))
    (hcr : cs.next (chr '\r') = some (acts', .lineLF)) (hgo : .done ∉ acts ∧ .done ∉ acts')
    (hc : ¬(c ≠ chr '\n' ∧ c ≠ chr '\r')) (h : Finishes cs (c :: xs)) :
    ∃ eol rest, c :: xs = eol ++ rest ∧ IsEol eol ∧ Finishes .headers rest := by
  by_cases heq : c = chr '\n'
  · subst heq
    exact ⟨[chr '\n'], xs, rfl, .inl rfl, finishes_cons hlf hgo.1 h⟩
  · have heq : c = chr '\r' := by
      by_contra hne
      exact hc ⟨heq, hne⟩
    subst heq
    have hline := finishes_cons hcr hgo.2 h
    cases xs with
    | nil => exact absurd hline id
    | cons d rest =>
      -- behind a CR there can only be an LF
      by_cases hd : d = chr '\n'
      · subst hd
        exact ⟨[chr '\r', chr '\n'], rest, rfl, .inr rfl, finishes_cons rfl List.not_mem_nil hline⟩
      · obtain ⟨acts, cs', hnext, -⟩ := hline
        rw [Cs.next, if_neg hd] at hnext
        exact absurd hnext (by simp)

theorem finishes_value {xs : List Byte} (h : Finishes .value xs) :
    ∃ w eol rest, xs = w ++ (eol ++ rest) ∧ (∀ c ∈ w, c ≠ chr '\n' ∧ c ≠ chr '\r') ∧ IsEol eol ∧
      Finishes .headers rest := by
  induction xs with
  | nil => exact absurd h id
  | cons c xs ih =>
    by_cases hc : c ≠ chr '\n' ∧ c ≠ chr '\r'
    · obtain ⟨w, eol, rest, rfl, hw, heol, hrest⟩ := ih (finishes_cons (next_value hc) List.not_mem_nil h)
      exact ⟨c :: w, eol, rest, rfl, List.forall_mem_cons.mpr ⟨hc, hw⟩, heol, hrest⟩
    · obtain ⟨eol, rest, heq, heol, hrest⟩ := finishes_eol rfl rfl (by simp) hc h
      exact ⟨[], eol, rest, heq, List.forall_mem_nil _, heol, hrest⟩

/-- Behind the colon of a header. -/
theorem finishes_valueStart {xs : List Byte} (h : Finishes .valueStart xs) :
    ∃ n w eol rest, xs = List.replicate n (chr ' ') ++ (w ++ (eol ++ rest)) ∧
      (∀ c ∈ w, c ≠ chr '\n' ∧ c ≠ chr '\r') ∧ w.head? ≠ some (chr ' ') ∧ IsEol eol ∧
      Finishes .headers rest := by
  induction xs with
  | nil => exact absurd h id
  | cons c xs ih =>
    by_cases hc : c ≠ chr '\n' ∧ c ≠ chr '\r'
    · by_cases hspace : c = chr ' '
      · -- the value has not begun
        subst hspace
        obtain ⟨n, w, eol, rest, rfl, hw⟩ :=
          ih (@finishes_cons (chr ' ') [.mark] .valueStart .valueStart _ rfl (by simp) h)
        exact ⟨n + 1, w, eol, rest, by rw [List.replicate_succ, List.cons_append], hw⟩
      · have hnext : Cs.valueStart.next c = some ([.mark], .value) := by
          rw [Cs.next, if_neg hc.1, if_neg hc.2, if_neg hspace]
        obtain ⟨w, eol, rest, rfl, hw, heol, hrest⟩ :=
          finishes_value (finishes_cons hnext (by simp) h)
        refine ⟨0, c :: w, eol, rest, rfl, List.forall_mem_cons.mpr ⟨hc, hw⟩, ?_, heol, hrest⟩
        rw [List.head?_cons]
        exact fun heq => hspace (Option.some.inj heq)
    · obtain ⟨eol, rest, heq, heol, hrest⟩ := finishes_eol rfl rfl (by simp) hc h
      exact ⟨0, [], eol, rest, heq, List.forall_mem_nil _, by simp, heol, hrest⟩

/-- **What is accepted is written as a section.** -/
theorem section_of_finishes {xs : List Byte} (h : Finishes .headers xs) :
    ∃ headers text rest, HeaderSection headers text ∧ xs = text ++ rest := by
  -- on the length: what stands behind a line is shorter
  induction hlen : xs.length using Nat.strong_induction_on generalizing xs with
  | _ len ih =>
    cases xs with
    | nil => exact absurd h id
    | cons c xs =>
      by_cases hlf : c = chr '\n'
      · subst hlf
        exact ⟨[], [chr '\n'], xs, .empty (.inl rfl), rfl⟩
      by_cases hcr : c = chr '\r'
      · -- an empty line that ends with CRLF
        subst hcr
        have hlast : Finishes .lastLF xs := finishes_cons rfl List.not_mem_nil h
        cases xs with
        | nil => exact absurd hlast id
        | cons d rest =>
          by_cases hd : d = chr '\n'
          · subst hd
            exact ⟨[], [chr '\r', chr '\n'], rest, .empty (.inr rfl), rfl⟩
          · obtain ⟨acts, cs', hnext, -⟩ := hlast
            rw [Cs.next, if_neg hd] at hnext
            exact absurd hnext (by simp)
      by_cases hc : isToken c = true
      · have hnext : Cs.headers.next c = some ([.startField], .field) := by
          rw [Cs.next, if_neg hlf, if_neg hcr, if_pos hc]
        -- a line of a header, and a section behind it
        obtain ⟨w, behind, rfl, hw, hvalue⟩ := finishes_field (finishes_cons hnext (by simp) h)
        obtain ⟨n, value, eol, behind', rfl, hplain, hhead, heol, hrest⟩ :=
          finishes_valueStart hvalue
        have hshort : behind'.length < len := by
          rw [← hlen]
          simp only [List.length_cons, List.length_append]
          omega
        obtain ⟨headers, text, rest, hsection, rfl⟩ := ih behind'.length hshort hrest rfl
        have hline : HeaderLine (c :: w) value
            (c :: w ++ chr ':' :: (List.replicate n (chr ' ') ++ (value ++ eol))) :=
          ⟨⟨List.cons_ne_nil c w, List.forall_mem_cons.mpr ⟨hc, hw⟩⟩, hplain, hhead, n, eol, heol, rfl⟩
        exact ⟨_, _, rest, .cons hline hsection, by simp⟩
      · obtain ⟨acts, cs', hnext, -⟩ := h
        rw [Cs.next, if_neg hlf, if_neg hcr, if_neg hc] at hnext
        exact absurd hnext (by simp)

end

/-- **A header section is reported exactly**: from the header state on, what is written as
a section of some headers is reported as those headers, and the body starts behind it; and
whatever is accepted is written as a section of the headers that are reported. -/
theorem execute_headerSection {r : Request} (hcs : r.parser.cs = .headers) (buffer : List Byte)
    (off : ℕ) :
    (∀ headers text rest, HeaderSection headers text → buffer.drop off = text ++ rest →
      Reports r buffer off headers (off + text.length)) ∧
    ((r.execute buffer off).1.finish = 1 → ∃ headers text rest, HeaderSection headers text ∧
      buffer.drop off = text ++ rest ∧ Reports r buffer off headers (off + text.length)) := by
  refine ⟨fun headers text rest h hbuffer => reports_of_section h hcs hbuffer, fun h => ?_⟩
  have hrun : r.parser.cs.isFinished = false := by
    rw [hcs]
    rfl
  have hne : buffer ≠ [] := by
    rintro rfl
    have hfin := (finish_eq_one _).mp h
    exact absurd hfin (by simp [execute, hrun])
  rw [execute_eq hne, finish_eq_one] at h
  have hfinishes := finishes_of_consume hrun h
  rw [hcs] at hfinishes
  obtain ⟨headers, text, rest, hsection, hbuffer⟩ := section_of_finishes hfinishes
  exact ⟨headers, text, rest, hsection, hbuffer, reports_of_section hsection hcs hbuffer⟩

/-- Two headers behind a request line that has been read: one with an empty value. -/
theorem execute_headerSection_two :
    Reports ((create.parse (bytes "GET / HTTP/1.1\n")).1) (bytes "GET / HTTP/1.1\nHost:  b \r\nA:\n\r\n.")
      15 [(bytes "Host", bytes "b "), (bytes "A", [])] 31 := by
  have hcs : (create.parse (bytes "GET / HTTP/1.1\n")).1.parser.cs = .headers := by decide
  have hhost : HeaderLine (bytes "Host") (bytes "b ") (bytes "Host:  b \r\n") :=
    ⟨⟨by decide, List.all_eq_true.mp (by decide)⟩,
      List.forall_mem_cons.mpr ⟨by decide, List.forall_mem_singleton.mpr (by decide)⟩, by decide, 2,
      [chr '\r', chr '\n'], .inr rfl, by decide⟩
  have ha : HeaderLine (bytes "A") [] (bytes "A:\n") :=
    ⟨⟨by decide, List.all_eq_true.mp (by decide)⟩, List.forall_mem_nil _, by decide, 0, [chr '\n'],
      .inl rfl, by decide⟩
  exact (execute_headerSection hcs _ 15).1 _ _ (bytes ".")
    (.cons hhost (.cons ha (.empty (.inr rfl)))) (by decide)

end Request

end Mongrel2

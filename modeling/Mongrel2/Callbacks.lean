/-
The callbacks of the request parser (`http11/http11_parser.rl`, `request.c`).

A buffer that is still being filled is parsed again and again, each time from where the
last call of `Request_parse` stopped.

* `Request.calls` — the callbacks of a run of the machine, in order;
* `act_eq_handle` — an action sets the marks, and the rest is what its callback does;
* `report_deliver` — in whichever pieces the bytes come, the callbacks and what the
  parser reports are those of one call on all of them.

Design notes: a callback gets the bytes it is pointed at.  `header_done` gets the position
behind the header and the number of bytes behind it that have been read, which is not
compared.
-/
import Mongrel2.HttpParser

namespace Mongrel2

open ByteStream HttpParser

/-- A callback with its arguments. -/
inductive Callback
  | httpField (field value : List Byte)
  | requestMethod (xs : List Byte)
  | requestUri (xs : List Byte)
  | fragment (xs : List Byte)
  | requestPath (xs : List Byte)
  | queryString (xs : List Byte)
  | httpVersion (xs : List Byte)
  | headerDone (start len : ℕ)
  deriving DecidableEq, Repr

/-- All but the length that `header_done` is given. -/
def Callback.shown : Callback → Callback
  | .headerDone start _ => .headerDone start 0
  | e => e

/-- What the callback does with the request. -/
def Callback.handle : Callback → Request → Request
  | .httpField field value, r => { r with headers := r.headers ++ [(field, value)] }
  | .requestMethod xs, r => { r with requestMethod := some xs }
  | .requestUri xs, r => { r with uri := some xs }
  | .fragment xs, r => { r with fragment := some xs }
  | .requestPath xs, r => { r with path := some xs }
  | .queryString xs, r => { r with queryString := some xs }
  | .httpVersion xs, r => { r with version := some xs }
  | .headerDone _ _, r => r.headerDone

namespace Request

variable (r : Request)

/-- What an action does before its callback. -/
def marks (fpc : ℕ) : Act → Request
  | .mark => { r with parser.mark := fpc }
  | .startField => { r with parser.fieldStart := fpc }
  | .writeField => { r with parser.fieldLen := fpc - r.parser.fieldStart }
  | .startQuery => { r with parser.queryStart := fpc }
  | .done => { r with parser.bodyStart := fpc + 1 }
  | .socket => { r with parser.socketStarted := true }
  | .json => { r with parser.jsonSent := true }
  | _ => r

/-- The callback of an action at the byte `buffer[fpc]`. -/
def call (buffer : List Byte) (fpc : ℕ) : Act → Option Callback
  | .writeValue =>
    some (.httpField (span buffer r.parser.fieldStart r.parser.fieldLen)
      (span buffer r.parser.mark (fpc - r.parser.mark)))
  | .requestMethod => some (.requestMethod (span buffer r.parser.mark (fpc - r.parser.mark)))
  | .requestUri => some (.requestUri (span buffer r.parser.mark (fpc - r.parser.mark)))
  | .fragment => some (.fragment (span buffer r.parser.mark (fpc - r.parser.mark)))
  | .queryString =>
    some (.queryString (span buffer r.parser.queryStart (fpc - r.parser.queryStart)))
  | .httpVersion => some (.httpVersion (span buffer r.parser.mark (fpc - r.parser.mark)))
  | .requestPath => some (.requestPath (span buffer r.parser.mark (fpc - r.parser.mark)))
  | .done => some (.headerDone (fpc + 1) (buffer.length - fpc - 1))
  | _ => none

/-- An action sets the marks and calls back. -/
theorem act_eq_handle (buffer : List Byte) (fpc : ℕ) (a : Act) :
    r.act buffer fpc a = ((r.call buffer fpc a).elim id Callback.handle) (r.marks fpc a) := by
  cases a <;> rfl

/-- The callbacks of the actions of one transition. -/
def callsOf (buffer : List Byte) (fpc : ℕ) : List Act → Request → List Callback
  | [], _ => []
  | a :: acts, r => (r.call buffer fpc a).toList ++ callsOf buffer fpc acts (r.act buffer fpc a)

/-- The callbacks of `consume`. -/
def calls (buffer : List Byte) : ℕ → List Byte → Request → List Callback
  | _, [], _ => []
  | fpc, c :: xs, r =>
    match r.parser.cs.next c with
    | none => []
    | some (acts, cs) =>
      callsOf buffer fpc acts r ++
        if .done ∈ acts then [] else calls buffer (fpc + 1) xs (r.take buffer fpc acts cs)

/-- The callbacks of `http_parser_execute`. -/
def executeCalls (buffer : List Byte) (off : ℕ) : List Callback :=
  if buffer = [] then [] else calls buffer off (buffer.drop off) r

end Request

/-! ### Bytes that come in pieces -/

/-- A request that is being parsed, and the callbacks so far. -/
structure Parsing where
  req : Request
  buffer : List Byte
  nparsed : ℕ
  events : List Callback

namespace Parsing

/-- After `Request_start`. -/
def start (r : Request) : Parsing := ⟨r.start, [], 0, []⟩

/-- `Request_parse` when more bytes are in the buffer, as long as it has answered 0. -/
def feed (d : Parsing) (more : List Byte) : Parsing :=
  if d.req.finish = 0 then
    let buffer := d.buffer ++ more
    { req := (d.req.execute buffer d.nparsed).1
      buffer := buffer
      nparsed := (d.req.execute buffer d.nparsed).2
      events := d.events ++ d.req.executeCalls buffer d.nparsed }
  else d

/-- The bytes come in these pieces. -/
def deliver (r : Request) (pieces : List (List Byte)) : Parsing := pieces.foldl feed (start r)

/-- What is reported of a parse. -/
structure Report where
  events : List Callback
  finish : ℤ
  bodyStart : ℕ
  socketStarted : Bool
  jsonSent : Bool
  nparsed : ℕ
  deriving DecidableEq

def report (d : Parsing) : Report :=
  ⟨d.events.map Callback.shown, d.req.finish, d.req.parser.bodyStart, d.req.parser.socketStarted,
    d.req.parser.jsonSent, d.nparsed⟩

end Parsing

namespace Request

/-! ### Callbacks over more bytes -/

variable {buffer more : List Byte} {fpc : ℕ} {r : Request}

theorem call_append (h : fpc ≤ buffer.length) {a : Act}
    (ha : a = .writeValue → r.parser.fieldStart + r.parser.fieldLen ≤ fpc) :
    (r.call (buffer ++ more) fpc a).map Callback.shown =
      (r.call buffer fpc a).map Callback.shown := by
  cases a with
  | writeValue =>
    have hf := ha rfl
    simp only [call, span_append_mark h]
    rw [span_append (by omega)]
  | done => rfl
  | _ => simp only [call, span_append_mark h]

theorem callsOf_append (h : fpc ≤ buffer.length) {acts : List Act} (ha : .writeValue ∉ acts) :
    (callsOf (buffer ++ more) fpc acts r).map Callback.shown =
      (callsOf buffer fpc acts r).map Callback.shown := by
  induction acts generalizing r with
  | nil => rfl
  | cons a acts ih =>
    rw [List.mem_cons, not_or] at ha
    obtain ⟨hne, hmem⟩ := ha
    have hcall := @call_append buffer more fpc r h a fun heq => absurd heq.symm hne
    rw [callsOf, callsOf, act_append h fun heq => absurd heq.symm hne, List.map_append,
      List.map_append, ih hmem, ← Option.toList_map, ← Option.toList_map, hcall]

/-- The callbacks of a transition do not depend on what is behind the buffer. -/
theorem callsOf_next (h : fpc ≤ buffer.length) (hr : r.Settled fpc) {acts : List Act} {cs : Cs}
    (he : Effect r.parser.cs acts cs) :
    (callsOf (buffer ++ more) fpc acts r).map Callback.shown =
      (callsOf buffer fpc acts r).map Callback.shown := by
  generalize hcs : r.parser.cs = cs₀ at he
  cases he with
  | plain _ hw _ _ _ _ _ => exact callsOf_append h hw
  | startField => exact callsOf_append h (by simp)
  | inField => exact callsOf_append h (by simp)
  | writeField => exact callsOf_append h (by simp)
  | inValue _ hacts _ => rcases hacts with rfl | rfl <;> exact callsOf_append h (by simp)
  | writeValue hcs₀ hacts _ =>
    have hle := hr.of_value (hcs ▸ hcs₀)
    rcases hacts with rfl | rfl
    · -- the mark is set first, and leaves the marks of the name as they are
      have hle' : (r.act buffer fpc .mark).parser.fieldStart +
          (r.act buffer fpc .mark).parser.fieldLen ≤ fpc := hle
      have hcall : ((r.act buffer fpc .mark).call (buffer ++ more) fpc .writeValue).map
          Callback.shown =
          ((r.act buffer fpc .mark).call buffer fpc .writeValue).map Callback.shown :=
        call_append h fun _ => hle'
      have hevents : ∀ b, callsOf b fpc [.mark, .writeValue] r =
          ((r.act buffer fpc .mark).call b fpc .writeValue).toList := fun _ => rfl
      rw [hevents, hevents, ← Option.toList_map, ← Option.toList_map, hcall]
    · have hcall : (r.call (buffer ++ more) fpc .writeValue).map Callback.shown =
          (r.call buffer fpc .writeValue).map Callback.shown := call_append h fun _ => hle
      have hevents : ∀ b, callsOf b fpc [.writeValue] r = (r.call b fpc .writeValue).toList :=
        fun _ => rfl
      rw [hevents, hevents, ← Option.toList_map, ← Option.toList_map, hcall]
  | finish hacts _ => rcases hacts with rfl | rfl | rfl <;> exact callsOf_append h (by simp)

/-- **The callbacks of a longer buffer**: those of the shorter one, and if the machine did
not stop in it, those of what is behind it. -/
theorem calls_append {xs : List Byte} (ys : List Byte) (hlen : fpc + xs.length ≤ buffer.length)
    (hr : r.Settled fpc) (hrun : ¬ r.Stopped) :
    ((consume buffer fpc xs r).1.Stopped ∧
      (calls (buffer ++ more) fpc (xs ++ ys) r).map Callback.shown =
        (calls buffer fpc xs r).map Callback.shown) ∨
    (¬ (consume buffer fpc xs r).1.Stopped ∧
      (calls (buffer ++ more) fpc (xs ++ ys) r).map Callback.shown =
        (calls buffer fpc xs r).map Callback.shown ++
          (calls (buffer ++ more) (fpc + xs.length) ys (consume buffer fpc xs r).1).map
            Callback.shown) := by
  induction xs generalizing fpc r with
  | nil => exact .inr ⟨hrun, rfl⟩
  | cons c xs ih =>
    rw [List.length_cons] at hlen
    simp only [List.cons_append, consume, calls]
    cases hn : r.parser.cs.next c with
    | none => exact .inl ⟨.inl rfl, rfl⟩
    | some p =>
      obtain ⟨acts, cs⟩ := p
      have he := next_effect hn
      have htake : r.take (buffer ++ more) fpc acts cs = r.take buffer fpc acts cs :=
        take_append (by omega) hr he
      have hcalls := @callsOf_next buffer more fpc r (by omega) hr acts cs he
      simp only [htake, List.map_append, hcalls]
      by_cases hd : .done ∈ acts
      · simp only [if_pos hd]
        exact .inl ⟨.inr (he.done_mem_iff.mp hd), trivial⟩
      · simp only [if_neg hd]
        have hrun' : ¬ (r.take buffer fpc acts cs).Stopped := by
          rintro (herr | hfin)
          · exact he.ne_error herr
          · exact hd (he.done_mem_iff.mpr hfin)
        have hfpc : fpc + (c :: xs).length = fpc + 1 + xs.length := by
          rw [List.length_cons]
          omega
        rw [hfpc]
        rcases ih (by omega) (hr.take he) hrun' with ⟨hs, heq⟩ | ⟨hs, heq⟩
        · exact .inl ⟨hs, by rw [heq]⟩
        · exact .inr ⟨hs, by rw [heq, List.append_assoc]⟩

/-- The callbacks do not depend on the count of the bytes read. -/
theorem callsOf_setNread (buffer : List Byte) (fpc : ℕ) (acts : List Act) (r : Request) (n : ℕ) :
    callsOf buffer fpc acts (r.setNread n) = callsOf buffer fpc acts r := by
  induction acts generalizing r with
  | nil => rfl
  | cons a acts ih =>
    have hact : (r.setNread n).act buffer fpc a = (r.act buffer fpc a).setNread n := by
      cases a <;> rfl
    have hcall : (r.setNread n).call buffer fpc a = r.call buffer fpc a := by
      cases a <;> rfl
    rw [callsOf, callsOf, hact, hcall, ih]

theorem calls_setNread (buffer : List Byte) (fpc : ℕ) (xs : List Byte) (r : Request) (n : ℕ) :
    calls buffer fpc xs (r.setNread n) = calls buffer fpc xs r := by
  induction xs generalizing fpc r with
  | nil => rfl
  | cons c xs ih =>
    have hcs : (r.setNread n).parser.cs = r.parser.cs := rfl
    simp only [calls, hcs]
    cases r.parser.cs.next c with
    | none => rfl
    | some p =>
      dsimp only
      rw [callsOf_setNread, take_setNread, ih]

/-- The callbacks of a parse from scratch. -/
def parseCalls (r : Request) (buffer : List Byte) : List Callback := r.start.executeCalls buffer 0

theorem finish_ne_zero_iff (r : Request) : r.finish ≠ 0 ↔ r.Stopped := by
  unfold finish Stopped
  by_cases herr : r.parser.cs = .error
  · simp [herr]
  · cases hfin : r.parser.cs.isFinished <;> simp [herr]

theorem parseCalls_eq (hb : buffer ≠ []) (r : Request) :
    r.parseCalls buffer = calls buffer 0 buffer r.start := by
  rw [parseCalls, executeCalls, if_neg hb, List.drop_zero]

/-- **Going on from where the last parse stopped calls back what is left**, and when it has
stopped for good, nothing is. -/
theorem parseCalls_append (buffer : List Byte) (r : Request) (more : List Byte) :
    ((r.parse buffer).1.finish = 0 ∧
      (r.parseCalls (buffer ++ more)).map Callback.shown =
        (r.parseCalls buffer).map Callback.shown ++
          ((r.parse buffer).1.executeCalls (buffer ++ more) (r.parse buffer).2).map
            Callback.shown) ∨
    ((r.parse buffer).1.finish ≠ 0 ∧ r.parse (buffer ++ more) = r.parse buffer ∧
      (r.parseCalls (buffer ++ more)).map Callback.shown =
        (r.parseCalls buffer).map Callback.shown) := by
  by_cases hb : buffer = []
  · subst hb
    exact .inl ⟨rfl, rfl⟩
  have hb' : buffer ++ more ≠ [] := fun h => hb (List.append_eq_nil_iff.mp h).1
  have hstopped : (r.parse buffer).1.Stopped ↔ (consume buffer 0 buffer r.start).1.Stopped := by
    rw [parse_eq hb]
    exact Iff.rfl
  have hsettled : r.start.Settled 0 := trivial
  rw [parseCalls_eq hb, parseCalls_eq hb']
  have hlen : 0 + buffer.length ≤ buffer.length := by omega
  rcases @calls_append buffer more 0 r.start buffer more hlen hsettled (start_running r) with
    ⟨hs, heq⟩ | ⟨hs, heq⟩
  · -- it stopped in the buffer
    have hs := hstopped.mpr hs
    refine .inr ⟨(finish_ne_zero_iff _).mpr hs, ?_, heq⟩
    rcases parse_append_cases hb r more with ⟨-, hparse⟩ | ⟨hs', -⟩
    · exact hparse
    · exact absurd hs hs'
  · have hs := fun h => hs (hstopped.mp h)
    refine .inl ⟨not_not.mp fun hne => hs ((finish_ne_zero_iff _).mp hne), ?_⟩
    rcases parse_append_cases hb r more with ⟨hs', -⟩ | ⟨-, hpos, -⟩
    · exact absurd hs' hs
    · have hr : (r.parse buffer).1 =
          (consume buffer 0 buffer r.start).1.setNread buffer.length := by
        rw [← hpos, parse_eq hb]
        rfl
      rw [heq, executeCalls, if_neg hb', hpos, List.drop_left, hr, calls_setNread, Nat.zero_add]

end Request

/-! ### Any pieces -/

namespace Parsing

/-- What has been delivered is parsed as it is in one call. -/
structure Parsed (r : Request) (all : List Byte) (d : Parsing) : Prop where
  req : d.req = (r.parse all).1
  nparsed : d.nparsed = (r.parse all).2
  events : d.events.map Callback.shown = (r.parseCalls all).map Callback.shown
  buffer : d.req.finish = 0 → d.buffer = all

theorem parsed_start (r : Request) : Parsed r [] (start r) := ⟨rfl, rfl, rfl, fun _ => rfl⟩

theorem parsed_feed {r : Request} {all : List Byte} {d : Parsing} (h : Parsed r all d)
    (more : List Byte) : Parsed r (all ++ more) (d.feed more) := by
  rcases Request.parseCalls_append all r more with ⟨hfinish, hcalls⟩ | ⟨hfinish, hparse, hcalls⟩
  · rw [← h.req] at hfinish
    have hrun : (r.parse all).1.parser.cs.isFinished = false := by
      refine Bool.eq_false_iff.mpr fun hfin => ?_
      rw [h.req] at hfinish
      exact (Request.finish_ne_zero_iff _).mpr (.inr hfin) hfinish
    have hexec := Request.execute_parse all r more hrun
    rw [feed, if_pos hfinish]
    have hbuffer := h.buffer hfinish
    refine ⟨?_, ?_, ?_, fun _ => by rw [hbuffer]⟩
    · show (d.req.execute (d.buffer ++ more) d.nparsed).1 = _
      rw [hbuffer, h.req, h.nparsed, hexec]
    · show (d.req.execute (d.buffer ++ more) d.nparsed).2 = _
      rw [hbuffer, h.req, h.nparsed, hexec]
    · show (d.events ++ d.req.executeCalls (d.buffer ++ more) d.nparsed).map Callback.shown = _
      rw [List.map_append, hbuffer, h.events, h.req, h.nparsed, hcalls]
  · -- no more calls are made
    rw [← h.req] at hfinish
    rw [feed, if_neg hfinish]
    exact ⟨by rw [hparse, h.req], by rw [hparse, h.nparsed], by rw [hcalls, h.events],
      fun h0 => absurd h0 hfinish⟩

theorem parsed_foldl {r : Request} (pieces : List (List Byte)) {all : List Byte} {d : Parsing}
    (h : Parsed r all d) : Parsed r (all ++ pieces.flatten) (pieces.foldl feed d) := by
  induction pieces generalizing all d with
  | nil =>
    rw [List.flatten_nil, List.append_nil]
    exact h
  | cons piece pieces ih =>
    rw [List.flatten_cons, ← List.append_assoc]
    exact ih (parsed_feed h piece)

theorem parsed_deliver (r : Request) (pieces : List (List Byte)) :
    Parsed r pieces.flatten (deliver r pieces) := by
  have h := parsed_foldl pieces (parsed_start r)
  rwa [List.nil_append] at h

/-- **A request is parsed alike in whichever pieces it comes**: the same callbacks with the
same bytes, the same verdict, and the same state of the parser. -/
theorem report_deliver (r : Request) (pieces : List (List Byte)) :
    (deliver r pieces).report = (deliver r [pieces.flatten]).report := by
  have hpieces := parsed_deliver r pieces
  have hwhole := parsed_deliver r [pieces.flatten]
  rw [List.flatten_singleton] at hwhole
  rw [report, report, hpieces.events, hwhole.events, hpieces.req, hwhole.req, hpieces.nparsed,
    hwhole.nparsed]

example : (deliver Request.create
    [bytes "GET /a", bytes "b?x HTTP/1.1\r", bytes "\nHost:  h\r\n\r", bytes "\nrest"]).events =
    [.requestMethod (bytes "GET"), .requestPath (bytes "/ab"), .queryString (bytes "x"),
      .requestUri (bytes "/ab?x"), .httpVersion (bytes "HTTP/1.1"),
      .httpField (bytes "Host") (bytes "h"), .headerDone 32 4] := by decide

end Parsing

end Mongrel2

/-
JSON messages on a `MSG` connection (`connection.c`).

* `parse_message` — the parser takes a message up to its NUL, and the path is
  all up to the first space;
* `Conn.msgToHandler`, `msgLoop` — `connection_msg_to_handler` and the way back
  to it through `connection_parse`;
* `msgLoop_exact` — the handler gets the text of each message, in order, if no
  `recv` returns bytes behind the message it completes; and, when none is a
  ping, only if.

Design notes: whether the parsed bytes match `PING_PATTERN` is a function of
them, left open.  The handler's queue takes what it is given.
-/
import Mongrel2.HandlerBody

namespace Mongrel2

open ByteStream HttpParser

/-! ### A message and its parse -/

namespace HttpParser

/-- The states in the target of a JSON message. -/
def Cs.jsonTarget : Cs → Bool
  | .jsonStart | .within .jsonPath _ | .within .jsonParams _ | .within .jsonQuery _
  | .jsonQueryStart => true
  | _ => false

theorem jsonPart_leave {part : Part} (hp : (Cs.within part .out).jsonTarget = true) {c : Byte}
    {acts : List Act} {cs : Cs} (h : part.leave c = some (acts, cs)) :
    .mark ∉ acts ∧ .done ∉ acts ∧ (c ≠ chr ' ' → cs.jsonTarget = true) ∧
      (c = chr ' ' → cs = .brace ∧ ∃ init, acts = init ++ [.requestPath]) := by
  have hsemi : chr ';' ≠ chr ' ' := by decide
  have hquery : chr '?' ≠ chr ' ' := by decide
  cases part with
  | jsonPath =>
    simp only [Part.leave] at h
    split_ifs at h with h₁ h₂ h₃
    · obtain ⟨rfl, rfl⟩ := Prod.mk.inj (Option.some.inj h)
      exact ⟨by simp, by simp, absurd h₁, fun _ => ⟨rfl, [], rfl⟩⟩
    · obtain ⟨rfl, rfl⟩ := Prod.mk.inj (Option.some.inj h)
      exact ⟨by simp, by simp, fun _ => rfl, fun heq => absurd (h₂ ▸ heq) hsemi⟩
    · obtain ⟨rfl, rfl⟩ := Prod.mk.inj (Option.some.inj h)
      exact ⟨by simp, by simp, fun _ => rfl, fun heq => absurd (h₃ ▸ heq) hquery⟩
  | jsonParams =>
    simp only [Part.leave] at h
    split_ifs at h with h₁ h₂
    · obtain ⟨rfl, rfl⟩ := Prod.mk.inj (Option.some.inj h)
      exact ⟨by simp, by simp, absurd h₁, fun _ => ⟨rfl, [], rfl⟩⟩
    · obtain ⟨rfl, rfl⟩ := Prod.mk.inj (Option.some.inj h)
      exact ⟨by simp, by simp, fun _ => rfl, fun heq => absurd (h₂ ▸ heq) hquery⟩
  | jsonQuery =>
    simp only [Part.leave] at h
    split_ifs at h with h₁
    obtain ⟨rfl, rfl⟩ := Prod.mk.inj (Option.some.inj h)
    exact ⟨by simp, by simp, absurd h₁, fun _ => ⟨rfl, [.queryString], rfl⟩⟩
  | _ => exact absurd hp (by simp [Cs.jsonTarget])

theorem jsonPart_enter {part : Part} (hp : (Cs.within part .out).jsonTarget = true)
    {acts₀ acts : List Act} {c : Byte} {cs : Cs} (h₀ : .mark ∉ acts₀) (h₁ : .done ∉ acts₀)
    (h : part.enter acts₀ c = some (acts, cs)) :
    .mark ∉ acts ∧ .done ∉ acts ∧ (c ≠ chr ' ' → cs.jsonTarget = true) ∧
      (c = chr ' ' → cs = .brace ∧ ∃ init, acts = init ++ [.requestPath]) := by
  have hpercent : chr '%' ≠ chr ' ' := by decide
  unfold Part.enter at h
  split at h
  case isTrue hc =>
    obtain ⟨rfl, rfl⟩ := Prod.mk.inj (Option.some.inj h)
    refine ⟨h₀, h₁, fun _ => ?_, fun heq => absurd (hc ▸ heq) hpercent⟩
    cases part <;> first | rfl | exact absurd hp (by simp [Cs.jsonTarget])
  case isFalse =>
    split at h
    case h_1 acts' cs' hl =>
      obtain ⟨rfl, rfl⟩ := Prod.mk.inj (Option.some.inj h)
      obtain ⟨hm, hd, hstay, hspace⟩ := jsonPart_leave hp hl
      refine ⟨?_, ?_, hstay, fun heq => ?_⟩
      · exact fun hmem => (List.mem_append.mp hmem).elim h₀ hm
      · exact fun hmem => (List.mem_append.mp hmem).elim h₁ hd
      · obtain ⟨hcs, init, rfl⟩ := hspace heq
        exact ⟨hcs, acts₀ ++ init, (List.append_assoc ..).symm⟩
    case h_2 =>
      obtain ⟨hmem, h⟩ := Option.ite_none_right_eq_some.mp h
      obtain ⟨rfl, rfl⟩ := Prod.mk.inj (Option.some.inj h)
      refine ⟨h₀, h₁, fun _ => hp, ?_⟩
      rintro rfl
      exact absurd hmem (by cases part <;> decide)

/-- On the way through the target `mark` stays where it is, and the space that
ends it reports the path. -/
theorem jsonTarget_next {cs cs' : Cs} {c : Byte} {acts : List Act} (hcs : cs.jsonTarget = true)
    (h : cs.next c = some (acts, cs')) :
    .mark ∉ acts ∧ .done ∉ acts ∧ (c ≠ chr ' ' → cs'.jsonTarget = true) ∧
      (c = chr ' ' → cs' = .brace ∧ ∃ init, acts = init ++ [.requestPath]) := by
  have hhex : isXdigit (chr ' ') = false := by decide
  cases cs with
  | jsonStart =>
    obtain ⟨-, h⟩ := Option.ite_none_left_eq_some.mp h
    exact jsonPart_enter rfl (by simp) (by simp) h
  | jsonQueryStart => exact jsonPart_enter rfl (by simp) (by simp) h
  | «within» part esc =>
    have hp : ∀ e, (Cs.within part e).jsonTarget = true := by
      cases part <;> first | exact fun _ => rfl | exact absurd hcs (by simp [Cs.jsonTarget])
    cases esc with
    | out => exact jsonPart_enter hcs (by simp) (by simp) h
    | first =>
      obtain ⟨hx, h⟩ := Option.ite_none_right_eq_some.mp h
      obtain ⟨rfl, rfl⟩ := Prod.mk.inj (Option.some.inj h)
      exact ⟨by simp, by simp, fun _ => hp _, fun heq => absurd hx (by simp [heq, hhex])⟩
    | second =>
      obtain ⟨hx, h⟩ := Option.ite_none_right_eq_some.mp h
      obtain ⟨rfl, rfl⟩ := Prod.mk.inj (Option.some.inj h)
      exact ⟨by simp, by simp, fun _ => hp _, fun heq => absurd hx (by simp [heq, hhex])⟩
  | _ => exact absurd hcs (by simp [Cs.jsonTarget])

/-- Behind the space the machine does not come back to it. -/
theorem run_brace_ne (c : Byte) (xs : List Byte) : Cs.brace.run (c :: xs) ≠ some .brace := by
  have hjson : ∀ xs cs, cs = .json ∨ cs = .jsonDone → Cs.run cs xs ≠ some .brace := by
    intro xs
    induction xs with
    | nil => rintro cs (rfl | rfl) <;> simp [Cs.run]
    | cons c xs ih =>
      rintro cs (rfl | rfl) <;> simp only [Cs.run, Cs.next] <;> split_ifs <;>
        exact ih _ (by simp)
  simp only [Cs.run, Cs.next]
  split_ifs
  · exact hjson xs .json (.inl rfl)
  · simp

end HttpParser

/-- A message `@path {json}`, closed by a NUL: the path is one the machine takes,
up to the space, and the text starts with a brace. -/
structure Message where
  path : List Byte
  text : List Byte
  path_ok : Cs.jsonStart.run (path ++ [chr ' ']) = some .brace
  text_brace : text.head? = some (chr '{')
  text_nul : 0 ∉ text

namespace Message

/-- What the request's path will be. -/
def target (m : Message) : List Byte := chr '@' :: m.path

/-- The message as it is sent. -/
def bytes (m : Message) : List Byte := m.target ++ chr ' ' :: (m.text ++ [0])

end Message

namespace Request

theorem act_mark (buffer : List Byte) (fpc : ℕ) (a : Act) (ha : a ≠ .mark) (r : Request) :
    (r.act buffer fpc a).parser.mark = r.parser.mark := by
  cases a <;> first | rfl | exact absurd rfl ha

theorem foldl_act_mark {acts : List Act} (ha : .mark ∉ acts) (buffer : List Byte) (fpc : ℕ)
    (r : Request) :
    (acts.foldl (fun r a => r.act buffer fpc a) r).parser.mark = r.parser.mark :=
  foldl_act_keeps (·.parser.mark) buffer fpc (act_mark buffer fpc) ha r

/-- The machine over the rest of a target and the space behind it. -/
theorem consume_target (buffer path rest : List Byte) (fpc : ℕ) {r : Request}
    (hcs : r.parser.cs.jsonTarget = true)
    (hrun : r.parser.cs.run (path ++ [chr ' ']) = some .brace) :
    ∃ r' : Request, consume buffer fpc (path ++ chr ' ' :: rest) r =
        consume buffer (fpc + path.length + 1) rest r' ∧
      r'.parser.cs = .brace ∧
      r'.path = some (span buffer r.parser.mark (fpc + path.length - r.parser.mark)) := by
  induction path generalizing fpc r with
  | nil =>
    obtain ⟨⟨acts, cs⟩, hn, -⟩ := Option.bind_eq_some_iff.mp hrun
    obtain ⟨hmark, hdone, -, hspace⟩ := jsonTarget_next hcs hn
    obtain ⟨rfl, init, rfl⟩ := hspace rfl
    have hinit : .mark ∉ init := fun h => hmark (List.mem_append_left _ h)
    refine ⟨r.take buffer fpc (init ++ [.requestPath]) .brace, ?_, rfl, ?_⟩
    · rw [List.nil_append, consume_cons _ _ _ hn hdone]
      rfl
    · have hfold := foldl_act_mark hinit buffer fpc r
      rw [Request.take, List.foldl_append]
      change some (span buffer (init.foldl (fun r a => r.act buffer fpc a) r).parser.mark
        (fpc - (init.foldl (fun r a => r.act buffer fpc a) r).parser.mark)) = _
      rw [hfold]
      rfl
  | cons c path ih =>
    obtain ⟨⟨acts, cs⟩, hn, hrun⟩ := Option.bind_eq_some_iff.mp hrun
    obtain ⟨hmark, hdone, hstay, hspace⟩ := jsonTarget_next hcs hn
    by_cases hc : c = chr ' '
    · -- a second space would have to be inside the text
      obtain ⟨rfl, -⟩ := hspace hc
      obtain ⟨d, ds, hd⟩ := List.exists_cons_of_ne_nil (List.append_ne_nil_of_right_ne_nil path
        (List.cons_ne_nil (chr ' ') []))
      have hrun : Cs.brace.run (path ++ [chr ' ']) = some .brace := hrun
      rw [hd] at hrun
      exact absurd hrun (run_brace_ne d ds)
    · have hr : (r.take buffer fpc acts cs).parser.mark = r.parser.mark :=
        foldl_act_mark hmark buffer fpc r
      obtain ⟨r', hconsume, hbrace, hpath⟩ :=
        ih (fpc + 1) (show (r.take buffer fpc acts cs).parser.cs.jsonTarget = true from hstay hc) hrun
      have hlen : fpc + 1 + path.length = fpc + (c :: path).length := by
        rw [List.length_cons]
        omega
      rw [hlen] at hconsume hpath
      refine ⟨r', ?_, hbrace, ?_⟩
      · rw [List.cons_append, consume_cons _ _ _ hn hdone, hconsume]
      · rw [hpath, hr]

/-- The machine over the text of a message, brace included, and the NUL. -/
theorem consume_text (buffer text : List Byte) (fpc : ℕ) {r : Request}
    (hcs : r.parser.cs = .json) (hnul : 0 ∉ text) :
    ∃ r' : Request, consume buffer fpc (text ++ [0]) r = (r', fpc + text.length + 1) ∧
      r'.parser.cs = .jsonDone ∧ r'.parser.jsonSent = true ∧ r'.path = r.path := by
  induction text generalizing fpc r with
  | nil =>
    refine ⟨r.take buffer fpc [.json, .done] .jsonDone, ?_, rfl, rfl, rfl⟩
    rw [List.nil_append, consume, hcs]
    rfl
  | cons c text ih =>
    rw [List.mem_cons, not_or] at hnul
    obtain ⟨r', hconsume, hcs', hsent, hpath⟩ :=
      ih (fpc + 1) (show (r.take buffer fpc [] .json).parser.cs = .json from rfl) hnul.2
    have hlen : fpc + 1 + text.length + 1 = fpc + (c :: text).length + 1 := by
      rw [List.length_cons]
      omega
    refine ⟨r', ?_, hcs', hsent, hpath⟩
    have hn : r.parser.cs.next c = some ([], .json) := by
      rw [hcs, Cs.next, if_neg (Ne.symm hnul.1)]
    rw [List.cons_append, consume_cons _ _ _ hn List.not_mem_nil, hconsume, hlen]

end Request

/-- **The parser takes a message up to its NUL.** -/
theorem parse_message (r : Request) (m : Message) :
    (r.parse m.bytes).1.parser.cs = .jsonDone ∧ (r.parse m.bytes).1.parser.jsonSent = true ∧
      (r.parse m.bytes).1.path = some m.target ∧ (r.parse m.bytes).2 = m.bytes.length := by
  obtain ⟨text, htext⟩ : ∃ text, m.text = chr '{' :: text := by
    cases h : m.text with
    | nil => exact absurd m.text_brace (by simp [h])
    | cons c text =>
      have hc := m.text_brace
      rw [h, List.head?_cons, Option.some_inj] at hc
      exact ⟨text, hc ▸ rfl⟩
  have hnul : 0 ∉ text := fun h => m.text_nul (htext ▸ List.mem_cons_of_mem _ h)
  have hne : m.bytes ≠ [] := List.cons_ne_nil _ _
  -- `@` sets the mark at 0
  have hat : Cs.start.next (chr '@') = some ([.mark], .jsonStart) := by decide
  obtain ⟨r₁, h₁, hcs₁, hpath₁⟩ := Request.consume_target m.bytes m.path (m.text ++ [0]) 1
    (show (r.start.take m.bytes 0 [.mark] .jsonStart).parser.cs.jsonTarget = true from rfl) m.path_ok
  obtain ⟨r₂, h₂, hcs₂, hsent, hpath₂⟩ := Request.consume_text m.bytes text
    (1 + m.path.length + 1 + 1)
    (show (r₁.take m.bytes (1 + m.path.length + 1) [] .json).parser.cs = .json from rfl) hnul
  have hbrace : Cs.brace.next (chr '{') = some ([], .json) := by decide
  have hlen : m.bytes.length = 1 + m.path.length + 1 + 1 + text.length + 1 := by
    simp only [Message.bytes, Message.target, htext, List.cons_append, List.length_cons,
      List.length_append, List.length_nil]
    omega
  have hconsume : Request.consume m.bytes 0 m.bytes r.start = (r₂, m.bytes.length) := by
    calc Request.consume m.bytes 0 m.bytes r.start
        = Request.consume m.bytes 1 (m.path ++ chr ' ' :: (m.text ++ [0]))
            (r.start.take m.bytes 0 [.mark] .jsonStart) :=
          Request.consume_cons m.bytes 0 (m.path ++ chr ' ' :: (m.text ++ [0])) hat (by simp)
      _ = Request.consume m.bytes (1 + m.path.length + 1) (chr '{' :: (text ++ [0])) r₁ := by
          rw [h₁, htext, List.cons_append]
      _ = Request.consume m.bytes (1 + m.path.length + 1 + 1) (text ++ [0])
            (r₁.take m.bytes (1 + m.path.length + 1) [] .json) :=
          Request.consume_cons _ _ _ (hcs₁ ▸ hbrace) List.not_mem_nil
      _ = (r₂, m.bytes.length) := by rw [h₂, hlen]
  have hspan : Request.span m.bytes 0 (1 + m.path.length - 0) = m.target := by
    rw [Request.span, List.drop_zero, Nat.sub_zero, Message.bytes]
    refine List.take_left' ?_
    rw [Message.target, List.length_cons]
    omega
  rw [Request.parse_eq hne, hconsume]
  refine ⟨hcs₂, hsent, ?_, rfl⟩
  exact hpath₂.trans (hpath₁.trans (congrArg some hspan))

theorem isHeader_message (r : Request) (m : Message) : IsHeader r m.bytes := by
  obtain ⟨hcs, -, -, hlen⟩ := parse_message r m
  exact ⟨by rw [hcs]; rfl, hlen⟩

/-! ### From one message to the next -/

/-- `connection_msg_to_handler`; `ping` is the match of `PING_PATTERN`. -/
def Conn.msgToHandler (env : HandlerEnv) (ping : List Byte → Bool) (c : Conn) : Event × Conn :=
  if !env.handler then (.close, c)
  else if ping (c.buf.slice 0 c.nparsed) then (.reqSent, c)
  else
    let headerLen := (c.req.path.getD []).length + 1
    if c.nread < headerLen + 1 then (.close, c)
    else
      let c := c.payload (c.buf.slice headerLen (c.nread - headerLen - 1))
      if env.deliver then (.reqSent, c) else (.close, c)

/-- A `MSG` connection whose messages are all routed to handlers, for at most `n`
messages: it is parsed again as long as the parse and the delivery succeed. -/
def msgLoop (lim : Limits) (env : HandlerEnv) (ping : List Byte → Bool) : ℕ → Conn → Conn
  | 0, c => c
  | n + 1, c =>
    match c.parse lim with
    | none => c
    | some c =>
      if c.req.parser.jsonSent then
        match c.msgToHandler env ping with
        | (.reqSent, c) => msgLoop lim env ping n c
        | (_, c) => c
      else c

/-- No `recv` returns bytes behind the message it completes, and each message fits
in what the loop of `Connection_read_header` has room for. -/
def Aligned (lim : Limits) : List ℕ → Socket → Prop
  | [], _ => True
  | len :: lens, s =>
    ∃ s', readUntil (lim.bufferSize - 1) len lim.bufferSize 0 s = some (len, s') ∧
      Aligned lim lens s'

section

variable {lim : Limits} {env : HandlerEnv} {ping : List Byte → Bool}

/-- What one message does once it has been read, in the first `k` bytes. -/
theorem msgToHandler_spec (henv : env.handler = true) (hdeliver : env.deliver = true) {c c' : Conn}
    {m : Message} {k : ℕ} (hread : HeaderRead lim c c' k) (hpre : m.bytes <+: c.sock.stream)
    (hk : m.bytes.length ≤ k) :
    c'.req.parser.jsonSent = true ∧
      ∃ body, (c'.msgToHandler env ping) =
          (.reqSent, if ping m.bytes then c' else c'.payload body) ∧
        body.length + m.target.length + 2 = k ∧ (k = m.bytes.length → body = m.text) := by
  have hlen : m.bytes.length = m.target.length + 1 + m.text.length + 1 := by
    simp only [Message.bytes, List.length_append, List.length_cons, List.length_nil]
    omega
  obtain ⟨hcs, hsent, hpath, hparsed⟩ := parse_message c.req m
  have hstream : c.sock.stream.take m.bytes.length = m.bytes :=
    (List.prefix_iff_eq_take.mp hpre).symm
  have hprefix : m.bytes <+: c.sock.stream.take k := by
    rw [← hstream]
    exact List.take_prefix_take_left hk
  have hparse : c.req.parse (c.sock.stream.take k) = c.req.parse m.bytes :=
    Request.finished_of_prefix _ hprefix (isHeader_message _ _).finished
  have hpath' : c'.req.path = some m.target := by
    rw [hread.req, hparse]
    exact hpath
  have hnparsed : c'.nparsed = m.bytes.length := by
    rw [hread.nparsed, hparse, hparsed]
  have hbytes : c'.buf.slice 0 m.bytes.length = m.bytes := by
    rw [hread.slice_eq (by omega), List.drop_zero, hstream]
  refine ⟨by rw [hread.parser, hparse, hsent],
    c'.buf.slice (m.target.length + 1) (k - (m.target.length + 1) - 1), ?_, ?_, ?_⟩
  · have hroom : ¬ k < m.target.length + 1 + 1 := by omega
    rw [Conn.msgToHandler, henv, hnparsed, hbytes, hpath', hread.nread]
    simp only [Bool.not_true, Bool.false_eq_true, if_false, Option.getD_some, if_neg hroom,
      hdeliver, if_true]
    split <;> rfl
  · rw [Buffer.length_slice]
    omega
  · intro heq
    have htext : k - (m.target.length + 1) - 1 = m.text.length := by omega
    rw [htext, hread.slice_eq (by omega)]
    obtain ⟨rest, hrest⟩ := hpre
    have hsplit : m.bytes ++ rest = (m.target ++ [chr ' ']) ++ (m.text ++ ([0] ++ rest)) := by
      simp only [Message.bytes, List.append_assoc, List.cons_append, List.nil_append]
    rw [← hrest, hsplit, List.drop_left' (by rw [List.length_append, List.length_singleton]),
      List.take_left]

/-- One round of the loop, by where the reading stops. -/
theorem msgLoop_step (hsize : 0 < lim.bufferSize) (henv : env.handler = true)
    (hdeliver : env.deliver = true) {c : Conn} (halloc : lim.bufferSize < c.buf.alloc)
    {m : Message} (hpre : m.bytes <+: c.sock.stream) (n : ℕ) :
    match readUntil (lim.bufferSize - 1) m.bytes.length lim.bufferSize 0 c.sock with
    | none => msgLoop lim env ping (n + 1) c = c
    | some (k, s) => ∃ (c' : Conn) (body : List Byte),
        msgLoop lim env ping (n + 1) c = msgLoop lim env ping n c' ∧ c'.sock = s ∧
        s.stream = c.sock.stream.drop k ∧ c'.buf.alloc = c.buf.alloc ∧
        c'.payloads = c.payloads ++ (if ping m.bytes then [] else [body]) ∧
        body.length + m.target.length + 2 = k ∧ (k = m.bytes.length → body = m.text) := by
  have hparse := parse_until hsize halloc (isHeader_message c.req m) hpre
  rcases hu : readUntil (lim.bufferSize - 1) m.bytes.length lim.bufferSize 0 c.sock with _ | ⟨k, s⟩
  · rw [hu] at hparse
    have hparse : c.parse lim = none := hparse
    show msgLoop lim env ping (n + 1) c = c
    rw [msgLoop, hparse]
  · rw [hu] at hparse
    obtain ⟨c', hc', hread, hk, hs⟩ := hparse
    obtain ⟨hsent, body, hcall, hlen, htext⟩ :=
      @msgToHandler_spec lim env ping henv hdeliver { c with nread := 0 } c' m k hread hpre hk
    have hstream : s.stream = c.sock.stream.drop k := by
      rw [← hs]
      exact hread.stream
    have hpay : c'.payloads = c.payloads := hread.frame.2.2
    refine ⟨if ping m.bytes then c' else c'.payload body, body, ?_, ?_, hstream, ?_, ?_, hlen,
      htext⟩
    · rw [msgLoop, hc']
      dsimp only
      rw [if_pos hsent, hcall]
    · rw [← hs]
      split <;> rfl
    · rw [← show c'.buf.alloc = c.buf.alloc from hread.alloc]
      split <;> rfl
    · rw [← hpay]
      split
      · exact (List.append_nil _).symm
      · rfl

/-- With nothing to come the loop ends. -/
theorem msgLoop_of_nil (hsize : 0 < lim.bufferSize) {c : Conn}
    (halloc : lim.bufferSize < c.buf.alloc) (hnil : c.sock.stream = []) (n : ℕ) :
    msgLoop lim env ping n c = c := by
  cases n with
  | zero => rfl
  | succ n =>
    rw [msgLoop, parse_of_nil hsize halloc hnil]

/-- What has been delivered stays delivered. -/
theorem msgLoop_keeps (hsize : 0 < lim.bufferSize) (henv : env.handler = true)
    (hdeliver : env.deliver = true) {c : Conn} (halloc : lim.bufferSize < c.buf.alloc) (n : ℕ) :
    c.payloads <+: (msgLoop lim env ping n c).payloads := by
  induction n generalizing c with
  | zero => exact List.prefix_rfl
  | succ n ih =>
    rw [msgLoop]
    rcases hc' : c.parse lim with _ | c'
    · exact List.prefix_rfl
    · have hread := headerRead_of_parse hsize halloc hc'
      have hpay : c'.payloads = c.payloads := hread.frame.2.2
      have halloc' : c'.buf.alloc = c.buf.alloc := hread.alloc
      dsimp only
      split
      case isFalse => rw [hpay]
      case isTrue =>
        -- every answer of the handler's action keeps what was there
        have hkeep : (c'.msgToHandler env ping).2.buf.alloc = c.buf.alloc ∧
            c.payloads <+: (c'.msgToHandler env ping).2.payloads := by
          rw [← hpay, ← halloc', Conn.msgToHandler, henv, hdeliver]
          simp only [Bool.not_true, Bool.false_eq_true, if_false, if_true]
          split_ifs
          · exact ⟨rfl, List.prefix_rfl⟩
          · exact ⟨rfl, List.prefix_rfl⟩
          · exact ⟨rfl, List.prefix_append ..⟩
        rcases hcall : c'.msgToHandler env ping with ⟨event, c''⟩
        rw [hcall] at hkeep
        split
        case h_1 heq =>
          obtain ⟨-, rfl⟩ := Prod.mk.inj heq
          exact hkeep.2.trans (ih (hkeep.1 ▸ halloc))
        case h_2 heq =>
          obtain ⟨-, rfl⟩ := Prod.mk.inj heq
          exact hkeep.2

/-- A connection with messages to come: the reads that stop at the end of each
message deliver what is no ping. -/
theorem msgLoop_of_aligned (hsize : 0 < lim.bufferSize) (henv : env.handler = true)
    (hdeliver : env.deliver = true) {c : Conn} (halloc : lim.bufferSize < c.buf.alloc)
    {msgs : List Message} (hstream : c.sock.stream = (msgs.map Message.bytes).flatten) {n : ℕ}
    (hn : msgs.length ≤ n) (h : Aligned lim (msgs.map fun m => m.bytes.length) c.sock) :
    (msgLoop lim env ping n c).payloads =
      c.payloads ++ (msgs.filter fun m => !ping m.bytes).map Message.text := by
  induction msgs generalizing n c with
  | nil =>
    rw [msgLoop_of_nil hsize halloc hstream]
    exact (List.append_nil _).symm
  | cons m msgs ih =>
    obtain ⟨n, rfl⟩ : ∃ k, n = k + 1 := ⟨n - 1, by rw [List.length_cons] at hn; omega⟩
    rw [List.map_cons, List.flatten_cons] at hstream
    obtain ⟨s, hread, hrest⟩ := h
    have hstep := @msgLoop_step lim env ping hsize henv hdeliver c halloc m
      (hstream ▸ List.prefix_append ..) n
    rw [hread] at hstep
    obtain ⟨c', body, hloop, hs, hdrop, halloc', hpay, -, htext⟩ := hstep
    rw [← hs] at hrest hdrop
    have hnext : c'.sock.stream = (msgs.map Message.bytes).flatten := by
      rw [hdrop, hstream, List.drop_left]
    have hlen : msgs.length ≤ n := by
      rw [List.length_cons] at hn
      omega
    rw [hloop, ih (halloc' ▸ halloc) hnext hlen hrest, hpay, htext rfl, List.append_assoc,
      List.filter_cons]
    cases ping m.bytes <;> rfl

/-- Reads that stop elsewhere do not. -/
theorem aligned_of_msgLoop (hsize : 0 < lim.bufferSize) (henv : env.handler = true)
    (hdeliver : env.deliver = true) {c : Conn} (halloc : lim.bufferSize < c.buf.alloc)
    {msgs : List Message} (hstream : c.sock.stream = (msgs.map Message.bytes).flatten) {n : ℕ}
    (hn : msgs.length ≤ n) (hping : ∀ m ∈ msgs, ping m.bytes = false)
    (h : (msgLoop lim env ping n c).payloads = c.payloads ++ msgs.map Message.text) :
    Aligned lim (msgs.map fun m => m.bytes.length) c.sock := by
  induction msgs generalizing n c with
  | nil => trivial
  | cons m msgs ih =>
    obtain ⟨n, rfl⟩ : ∃ k, n = k + 1 := ⟨n - 1, by rw [List.length_cons] at hn; omega⟩
    rw [List.map_cons, List.flatten_cons] at hstream
    rw [List.map_cons] at h
    have hstep := @msgLoop_step lim env ping hsize henv hdeliver c halloc m
      (hstream ▸ List.prefix_append ..) n
    rcases hu : readUntil (lim.bufferSize - 1) m.bytes.length lim.bufferSize 0 c.sock with
      _ | ⟨k, s⟩
    · -- the message does not fit, and nothing is delivered
      rw [hu] at hstep
      have hstep : msgLoop lim env ping (n + 1) c = c := hstep
      rw [hstep] at h
      have hlen := congrArg List.length h
      rw [List.length_append, List.length_cons] at hlen
      omega
    · rw [hu] at hstep
      obtain ⟨c', body, hloop, hs, hdrop, halloc', hpay, hlen, -⟩ := hstep
      rw [hping m (List.mem_cons_self ..), if_neg (by simp)] at hpay
      -- the first delivery is `body`, which is as long as what was read
      obtain ⟨later, hlater⟩ := @msgLoop_keeps lim env ping hsize henv hdeliver c'
        (halloc' ▸ halloc) n
      have hbody : body :: later = m.text :: msgs.map Message.text := by
        rw [hloop, ← hlater, hpay, List.append_assoc, List.singleton_append] at h
        exact List.append_cancel_left h
      obtain ⟨rfl, hlater'⟩ := List.cons.inj hbody
      have hk : k = m.bytes.length := by
        simp only [Message.bytes, List.length_append, List.length_cons, List.length_nil]
        omega
      subst hk
      have hnext : c'.sock.stream = (msgs.map Message.bytes).flatten := by
        rw [hs, hdrop, hstream, List.drop_left]
      have hn : msgs.length ≤ n := by
        rw [List.length_cons] at hn
        omega
      refine ⟨s, hu, ?_⟩
      rw [← hs]
      refine ih (halloc' ▸ halloc) hnext hn (fun m' hm' => hping m' (List.mem_cons_of_mem _ hm')) ?_
      rw [← hlater, hlater']

/-- **One delivery for each message, of its text**, if no `recv` returns bytes
behind the message it completes; without pings, only if.  The first `n` rounds of
the loop are enough for `n` messages. -/
theorem msgLoop_exact (hsize : 0 < lim.bufferSize) (henv : env.handler = true)
    (hdeliver : env.deliver = true) {c : Conn} (halloc : lim.bufferSize < c.buf.alloc)
    {msgs : List Message} (hstream : c.sock.stream = (msgs.map Message.bytes).flatten) {n : ℕ}
    (hn : msgs.length ≤ n) :
    (Aligned lim (msgs.map fun m => m.bytes.length) c.sock →
      (msgLoop lim env ping n c).payloads =
        c.payloads ++ (msgs.filter fun m => !ping m.bytes).map Message.text) ∧
    ((∀ m ∈ msgs, ping m.bytes = false) →
      ((msgLoop lim env ping n c).payloads =
          c.payloads ++ (msgs.filter fun m => !ping m.bytes).map Message.text ↔
        Aligned lim (msgs.map fun m => m.bytes.length) c.sock)) := by
  have hif := @msgLoop_of_aligned lim env ping hsize henv hdeliver c halloc msgs hstream n hn
  refine ⟨hif, fun hping => ⟨fun h => ?_, hif⟩⟩
  have hall : msgs.filter (fun m => !ping m.bytes) = msgs :=
    List.filter_eq_self.mpr fun m hm => by rw [hping m hm, Bool.not_false]
  rw [hall] at h
  exact aligned_of_msgLoop hsize henv hdeliver halloc hstream hn hping h

end

/-! ### Two messages -/

/-- A message whose text is `{n}`, for a digit `n`. -/
def digitMessage (n : Byte) (hn : n ≠ 0) : Message where
  path := bytes "chat"
  text := [chr '{', n, chr '}']
  path_ok := by decide
  text_brace := rfl
  text_nul := by
    have hopen : (0 : Byte) ≠ chr '{' := by decide
    have hclose : (0 : Byte) ≠ chr '}' := by decide
    simp [hopen, hclose, hn.symm]

/-- A connection on which the messages `{1}` and `{2}` come; the first `recv` may
return `n + 1` bytes. -/
def twoMessages (n : ℕ) : Conn :=
  .create defaultLimits (bytes "127.0.0.1")
    ⟨(digitMessage (chr '1') (by decide)).bytes ++ (digitMessage (chr '2') (by decide)).bytes, [n]⟩

/-- In two pieces each is delivered. -/
theorem msgLoop_exact_two_pieces :
    (msgLoop defaultLimits goodEnv (fun _ => false) 2 (twoMessages 9)).payloads =
      [bytes "\x7b1\x7d", bytes "\x7b2\x7d"] := by
  have h := @msgLoop_exact defaultLimits goodEnv (fun _ => false) (by decide) rfl rfl (twoMessages 9)
    (by decide) [digitMessage (chr '1') (by decide), digitMessage (chr '2') (by decide)] (by decide)
    2 (by decide)
  have hal : Aligned defaultLimits ([digitMessage (chr '1') (by decide),
      digitMessage (chr '2') (by decide)].map fun m => m.bytes.length) (twoMessages 9).sock :=
    ⟨_, rfl, _, rfl, trivial⟩
  rw [h.1 hal]
  decide

/-- In one piece the second goes to the handler behind the first, and is not
delivered itself. -/
theorem not_msgLoop_exact_joined :
    (msgLoop defaultLimits goodEnv (fun _ => false) 2 (twoMessages 19)).payloads ≠
      [bytes "\x7b1\x7d", bytes "\x7b2\x7d"] := by
  decide

end Mongrel2

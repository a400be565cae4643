/-
The control port (`control.rl`), and the ids that come from outside.

* `Control.execute` — `Control_execute`;
* `handed_iff` — which id a command hands to `Register_fd_for_id`;
* `Input.handed` — the ids that a message of a handler or a command hands to it;
* `handed_iff_inRange` — they are indices of the table exactly if the numerals of the
  message are, as an `int`, and the numeral of the command is not the size of the table.

Design notes: a command ends with the zero of its string, which no state of the machine
takes.  `Register_fd_for_id` is a parameter, since what lies beside the table is unknown.
-/
import Mongrel2.HandlerParser

namespace Mongrel2

open ByteStream HttpParser

/-- `MAX_REGISTERED_FDS`. -/
def maxRegisteredFds : ℤ := 64 * 1024

namespace Control

/-! ### The machine -/

inductive Word
  | stop | status | time | kill | tasks | net
  deriving DecidableEq, Repr

def Word.text : Word → List Byte
  | .stop => bytes "control stop"
  | .status => bytes "status"
  | .time => bytes "time"
  | .kill => bytes "kill"
  | .tasks => bytes "tasks"
  | .net => bytes "net"

inductive Cs
  /-- 0 -/
  | error
  /-- 1 -/
  | start
  /-- 2 to 12, 18 to 22, 31 to 33, 13 to 15, 27 to 30, 25 and 26: after `n` characters -/
  | word (w : Word) (n : ℕ)
  /-- 16 and 17: before the first of the spaces, and behind it -/
  | kill (spaced : Bool)
  /-- 23 and 24 -/
  | status (spaced : Bool)
  /-- 34 and 35 -/
  | done
  deriving DecidableEq, Repr

/-- The actions that end the machine. -/
inductive Act
  | statusTasks | statusNet | controlStop | time | kill
  deriving DecidableEq, Repr

/-- `space`. -/
def isSpace (c : Byte) : Bool := c == 32 || 9 ≤ c && c ≤ 13

/-- Behind the last character of a word. -/
def Word.finish : Word → Option Act × Cs
  | .stop => (some .controlStop, .done)
  | .status => (none, .status false)
  | .time => (some .time, .done)
  | .kill => (none, .kill false)
  | .tasks => (some .statusTasks, .done)
  | .net => (some .statusNet, .done)

/-- The first character of a word. -/
def Word.begins (w : Word) (c : Byte) : Bool := w.text.head? == some c

/-- The transitions; `none` is the one to the error state. -/
def Cs.next : Cs → Byte → Option (Option Act × Cs)
  | .start, c =>
    if Word.stop.begins c then some (none, .word .stop 1)
    else if Word.kill.begins c then some (none, .word .kill 1)
    else if Word.status.begins c then some (none, .word .status 1)
    else if Word.time.begins c then some (none, .word .time 1)
    else none
  | .word w n, c =>
    if w.text[n]? = some c then
      if n + 1 = w.text.length then some w.finish else some (none, .word w (n + 1))
    else none
  | .kill spaced, c =>
    if isSpace c then some (none, .kill true)
    else if spaced && Decimal.isDigit c then some (some .kill, .done)
    else none
  | .status spaced, c =>
    if isSpace c then some (none, .status true)
    else if spaced && Word.net.begins c then some (none, .word .net 1)
    else if spaced && Word.tasks.begins c then some (none, .word .tasks 1)
    else none
  | .error, _ | .done, _ => none

/-- What the commands ask for. -/
structure Env where
  taskgetinfo : List Byte
  registerInfo : List Byte
  time : ℤ
  fdForId : ℤ → ℤ

/-- What a command does: the reply, the id handed to `Register_fd_for_id`, the descriptor
that is closed, and whether the control port stops. -/
structure Effect where
  reply : List Byte
  handed : Option ℤ
  closed : Option ℤ
  stops : Bool
  deriving DecidableEq

def answer (reply : List Byte) : Effect := ⟨reply, none, none, false⟩

/-- The action `kill`, for the command from its first digit on. -/
def kill (env : Env) (text : List Byte) : Effect :=
  let id := atoi text
  if id < 0 ∨ maxRegisteredFds < id then
    answer (bytes "\x7b\"error\": \"invalid id: " ++ Decimal.writeInt id ++ bytes "\"\x7d")
  else
    let fd := env.fdForId id
    if 0 < fd then
      ⟨bytes "\x7b\"result\": \"killed " ++ Decimal.writeInt id ++ bytes "\"\x7d", some id, some fd,
        false⟩
    else
      ⟨bytes "\x7b\"error\": \"does not exist: " ++ Decimal.writeInt id ++ bytes "\"\x7d", some id,
        none, false⟩

/-- An action, with the command from `p` on. -/
def act (env : Env) (text : List Byte) : Act → Effect
  | .statusTasks => answer env.taskgetinfo
  | .statusNet => answer env.registerInfo
  | .controlStop => ⟨bytes "\x7b\"msg\": \"stopping control port\"\x7d", none, none, true⟩
  | .time => answer (bytes "\x7b\"time\": " ++ Decimal.writeInt env.time ++ bytes "\x7d")
  | .kill => kill env text

/-- `write exec noend`: the effect of the action that ends the machine, if it does not
stop with an error, and how much of the command is left then. -/
def exec (env : Env) : List Byte → Cs → Option Effect × ℕ
  | [], _ => (none, 0)
  | c :: rest, cs =>
    match cs.next c with
    | none => (none, rest.length + 1)
    | some (some a, _) => (some (act env (c :: rest) a), rest.length)
    | some (none, cs) => exec env rest cs

/-- `Control_execute`. -/
def execute (env : Env) (req : List Byte) : Effect :=
  match exec env req .start with
  | (some effect, _) => effect
  | (none, left) =>
    if left = 0 then answer (bytes "\x7b\"error\": \"fatal error\"\x7d")
    else
      answer (bytes "\x7b\"error\": \"parsing error at: ..." ++ cstr (req.drop left) ++
        bytes "\"\x7d")

/-- No state takes the zero at the end of the command. -/
theorem next_zero (cs : Cs) : cs.next 0 = none := by
  cases cs with
  | word w n =>
    have hw : (0 : Byte) ∉ w.text := by cases w <;> decide
    rw [Cs.next, if_neg fun h => hw (List.mem_of_getElem? h)]
  | kill spaced => cases spaced <;> rfl
  | status spaced => cases spaced <;> rfl
  | _ => rfl

/-! ### Which ids are looked up -/

/-- The states from which no id is looked up. -/
def Cs.aside : Cs → Bool
  | .start | .kill _ | .word .kill _ => false
  | _ => true

theorem next_aside {cs cs' : Cs} {c : Byte} {a : Option Act} (h : cs.aside = true)
    (hn : cs.next c = some (a, cs')) : a ≠ some .kill ∧ cs'.aside = true := by
  cases cs with
  | word w n =>
    simp only [Cs.next] at hn
    split_ifs at hn <;> cases w <;> simp_all [Cs.aside, Word.finish]
    all_goals obtain ⟨rfl, rfl⟩ := hn; simp
  | status spaced =>
    simp only [Cs.next] at hn
    split_ifs at hn <;> obtain ⟨rfl, rfl⟩ := Prod.mk.inj (Option.some.inj hn) <;> simp [Cs.aside]
  | done => exact absurd hn (by simp [Cs.next])
  | error => exact absurd hn (by simp [Cs.next])
  | start => exact absurd h (by simp [Cs.aside])
  | kill spaced => exact absurd h (by simp [Cs.aside])

section

variable {env : Env} {xs : List Byte}

/-- The id that a run of the machine looks up. -/
def looked (x : Option Effect × ℕ) : Option ℤ := x.1.bind Effect.handed

theorem looked_of_aside {cs : Cs} (h : cs.aside = true) : looked (exec env xs cs) = none := by
  induction xs generalizing cs with
  | nil => rfl
  | cons c xs ih =>
    rw [exec]
    cases hn : cs.next c with
    | none => rfl
    | some x =>
      obtain ⟨a, cs'⟩ := x
      obtain ⟨ha, haside⟩ := next_aside h hn
      cases a with
      | none => exact ih haside
      | some a => cases a <;> first | rfl | exact absurd rfl ha

theorem handed_execute (env : Env) (req : List Byte) :
    (execute env req).handed = looked (exec env req .start) := by
  unfold execute looked
  cases exec env req .start with
  | mk effect left =>
    cases effect with
    | some effect => rfl
    | none =>
      dsimp only
      split <;> rfl

/-- The rest of the word `kill`. -/
theorem looked_word {n : ℕ} {id : ℤ} (hn : n < 4)
    (h : looked (exec env xs (.word .kill n)) = some id) :
    ∃ rest, xs = Word.kill.text.drop n ++ rest ∧ looked (exec env rest (.kill false)) = some id := by
  induction xs generalizing n with
  | nil => exact absurd h nofun
  | cons c xs ih =>
    have hlen : Word.kill.text.length = 4 := rfl
    simp only [exec, Cs.next] at h
    by_cases hc : Word.kill.text[n]? = some c
    · have hdrop : Word.kill.text.drop n = c :: Word.kill.text.drop (n + 1) := by
        obtain ⟨hlt, rfl⟩ := List.getElem?_eq_some_iff.mp hc
        exact List.drop_eq_getElem_cons hlt
      rw [if_pos hc] at h
      by_cases hend : n + 1 = 4
      · rw [if_pos (hend.trans hlen.symm)] at h
        refine ⟨xs, ?_, h⟩
        rw [hdrop, List.drop_of_length_le (by omega)]
        rfl
      · rw [if_neg fun heq => hend (heq.trans hlen)] at h
        obtain ⟨rest, rfl, hrest⟩ := ih (by omega) h
        exact ⟨rest, by rw [hdrop]; rfl, hrest⟩
    · rw [if_neg hc] at h
      exact absurd h nofun

/-- Over the spaces behind `kill`. -/
theorem exec_spaces {w : List Byte} (hw : ∀ c ∈ w, isSpace c = true) (hne : w ≠ []) (spaced : Bool) :
    exec env (w ++ xs) (.kill spaced) = exec env xs (.kill true) := by
  induction w generalizing spaced with
  | nil => exact absurd rfl hne
  | cons c w ih =>
    obtain ⟨hc, hw⟩ := List.forall_mem_cons.mp hw
    rw [List.cons_append]
    simp only [exec, Cs.next, if_pos hc]
    by_cases hnil : w = []
    · rw [hnil]
      rfl
    · exact ih hw hnil true

theorem looked_kill {spaced : Bool} {id : ℤ}
    (h : looked (exec env xs (.kill spaced)) = some id) :
    ∃ spaces c rest, xs = spaces ++ c :: rest ∧ (∀ c ∈ spaces, isSpace c = true) ∧
      Decimal.isDigit c = true ∧ (spaced = true ∨ spaces ≠ []) ∧
      (kill env (c :: rest)).handed = some id := by
  induction xs generalizing spaced with
  | nil => exact absurd h nofun
  | cons c xs ih =>
    simp only [exec, Cs.next] at h
    split at h
    · exact absurd h nofun
    case h_2 a cs hx =>
      split_ifs at hx with hspace hdigit
      · exact absurd (Prod.mk.inj (Option.some.inj hx)).1 nofun
      · obtain ⟨ha, -⟩ := Prod.mk.inj (Option.some.inj hx)
        obtain rfl := Option.some.inj ha
        rw [Bool.and_eq_true] at hdigit
        exact ⟨[], c, xs, rfl, by simp, hdigit.2, .inl hdigit.1, h⟩
    case h_3 cs hx =>
      split_ifs at hx with hspace hdigit
      · obtain ⟨-, rfl⟩ := Prod.mk.inj (Option.some.inj hx)
        obtain ⟨spaces, d, rest, rfl, hspaces, hd, -, hid⟩ := ih h
        exact ⟨c :: spaces, d, rest, rfl, List.forall_mem_cons.mpr ⟨hspace, hspaces⟩, hd,
          .inr (by simp), hid⟩
      · exact absurd (Prod.mk.inj (Option.some.inj hx)).1 nofun

end

/-! ### Numerals as an `int` -/

theorem isDigit_eq (c : Byte) : HttpParser.isDigit c = Decimal.isDigit c := by
  simp only [HttpParser.isDigit, Decimal.isDigit, chr, UInt8.le_iff_toNat_le]
  rfl

theorem digitsValue_append {w rest : List Byte} (hw : ∀ c ∈ w, Decimal.isDigit c = true)
    (hrest : ∀ c ∈ rest.head?, Decimal.isDigit c = false) :
    digitsValue (w ++ rest) = Decimal.value w := by
  have htake : (w ++ rest).takeWhile HttpParser.isDigit = w := by
    have hw' : ∀ c ∈ w, HttpParser.isDigit c = true := fun c hc => (isDigit_eq c).trans (hw c hc)
    rw [List.takeWhile_append_of_pos hw']
    cases rest with
    | nil => simp
    | cons c rest =>
      rw [List.takeWhile_cons_of_neg (by rw [isDigit_eq, hrest c rfl]; simp), List.append_nil]
  have hfold : ∀ (xs : List Byte) (n : ℕ), (∀ c ∈ xs, Decimal.isDigit c = true) →
      xs.foldl (fun n c => 10 * n + (c.toNat - 48 : ℤ)) (n : ℤ) =
        ((xs.foldl (fun n c => 10 * n + (c.toNat - 48)) n : ℕ) : ℤ) := by
    intro xs
    induction xs with
    | nil => exact fun n _ => rfl
    | cons c xs ih =>
      intro n hxs
      obtain ⟨hc, hxs⟩ := List.forall_mem_cons.mp hxs
      have hle : 48 ≤ c.toNat := by
        simp only [Decimal.isDigit, Bool.and_eq_true, decide_eq_true_eq] at hc
        exact hc.1
      rw [List.foldl_cons, List.foldl_cons, ← ih _ hxs]
      congr 1
      push_cast [hle]
      rfl
  rw [digitsValue, htake]
  exact hfold w 0 hw

theorem atoi_append {w rest : List Byte} (hw : HandlerParser.IsNumeral w)
    (hrest : ∀ c ∈ rest.head?, Decimal.isDigit c = false) :
    atoi (w ++ rest) = intOf (min (Decimal.value w) (2 ^ 63 - 1)) := by
  obtain ⟨c, w', rfl⟩ := List.exists_cons_of_ne_nil hw.1
  have hc : 48 ≤ c.toNat ∧ c.toNat ≤ 57 := by
    have h := hw.2 c (List.mem_cons_self ..)
    simpa [Decimal.isDigit] using h
  have hspace : (c == 32 || 9 ≤ c && c ≤ 13) = false := by
    simp only [UInt8.le_iff_toNat_le, beq_eq_false_iff_ne, Bool.or_eq_false_iff, ne_eq,
      ← UInt8.toNat_inj, Bool.and_eq_false_iff, decide_eq_false_iff_not]
    simp
    omega
  have hminus : c ≠ chr '-' := by rintro rfl; exact absurd hc.1 (by decide)
  have hplus : c ≠ chr '+' := by rintro rfl; exact absurd hc.1 (by decide)
  have hvalue := digitsValue_append hw.2 hrest
  generalize Decimal.value (c :: w') = n at hvalue ⊢
  rw [List.cons_append] at hvalue
  have hdrop : ((c :: w') ++ rest).dropWhile (fun c => c == 32 || 9 ≤ c && c ≤ 13) =
      c :: (w' ++ rest) := by
    rw [List.cons_append, List.dropWhile_cons_of_neg (by simp [hspace])]
  have hclamp : max (-2 ^ 63) (min (2 ^ 63 - 1) (n : ℤ)) = ((min n (2 ^ 63 - 1) : ℕ) : ℤ) := by
    push_cast
    omega
  unfold atoi
  rw [hdrop]
  simp only [if_neg hminus, if_neg hplus, hvalue, hclamp]
  rfl

theorem bmod_eq_iff {n k m : ℕ} (hm : m < k) : Int.bmod n (2 * k) = m ↔ n % (2 * k) = m := by
  have hcast : (n : ℤ) % ((2 * k : ℕ) : ℤ) = ((n % (2 * k) : ℕ) : ℤ) := (Int.natCast_mod ..).symm
  have hlt : n % (2 * k) < 2 * k := Nat.mod_lt _ (by omega)
  rw [Int.bmod_def, hcast]
  generalize n % (2 * k) = r at hlt ⊢
  split <;> omega

/-- A number as an `int` is one that an `int` can say. -/
theorem intOf_eq_iff {n m : ℕ} (hm : m < 2 ^ 31) : intOf n = m ↔ n % 2 ^ 32 = m := by
  have hpow : (2 : ℕ) ^ 32 = 2 * 2 ^ 31 := by norm_num
  unfold intOf
  rw [hpow]
  exact bmod_eq_iff hm

theorem intOf_inRange_iff (n : ℕ) :
    0 ≤ intOf n ∧ intOf n < maxRegisteredFds ↔ n % 2 ^ 32 < 2 ^ 16 := by
  have hmax : maxRegisteredFds = 2 ^ 16 := rfl
  rw [hmax]
  constructor
  · rintro ⟨hpos, hlt⟩
    obtain ⟨m, hm⟩ := Int.eq_ofNat_of_zero_le hpos
    have hm' : m < 2 ^ 16 := by
      rw [hm] at hlt
      exact_mod_cast hlt
    exact (intOf_eq_iff (lt_trans hm' (by decide))).mp hm ▸ hm'
  · intro h
    have hm := (intOf_eq_iff (n := n) (lt_trans h (by decide))).mpr rfl
    rw [hm]
    exact ⟨Int.natCast_nonneg _, by exact_mod_cast h⟩

/-! ### The ids that come from outside -/

/-- A command that kills a connection. -/
structure Kills (req spaces digits rest : List Byte) : Prop where
  written : req = bytes "kill" ++ (spaces ++ (digits ++ rest))
  spaces : spaces ≠ [] ∧ ∀ c ∈ spaces, isSpace c = true
  digits : HandlerParser.IsNumeral digits
  rest : ∀ c ∈ rest.head?, Decimal.isDigit c = false

theorem handed_kill {env : Env} {text : List Byte} {id : ℤ} :
    (kill env text).handed = some id ↔ id = atoi text ∧ 0 ≤ id ∧ id ≤ maxRegisteredFds := by
  unfold kill
  dsimp only
  generalize atoi text = n
  by_cases hn : n < 0 ∨ maxRegisteredFds < n
  · rw [if_pos hn]
    refine iff_of_false nofun ?_
    rintro ⟨rfl, h₁, h₂⟩
    omega
  · rw [if_neg hn]
    have hhanded : ∀ {e : Effect}, e.handed = some n →
        (e.handed = some id ↔ id = n ∧ 0 ≤ id ∧ id ≤ maxRegisteredFds) := by
      intro e he
      rw [he, Option.some.injEq]
      constructor
      · rintro rfl
        exact ⟨rfl, by omega, by omega⟩
      · exact fun h => h.1.symm
    split <;> exact hhanded rfl

/-- **Which id a command hands over**: the numeral behind `kill`, unless it is refused. -/
theorem handed_iff {env : Env} {req : List Byte} {id : ℤ} :
    (execute env req).handed = some id ↔
      ∃ spaces digits rest, Kills req spaces digits rest ∧
        id = intOf (min (Decimal.value digits) (2 ^ 63 - 1)) ∧ 0 ≤ id ∧ id ≤ maxRegisteredFds := by
  rw [handed_execute]
  constructor
  · intro h
    have hstart : ∃ rest, req = bytes "kill" ++ rest ∧
        looked (exec env rest (.kill false)) = some id := by
      cases req with
      | nil => exact absurd h nofun
      | cons c xs =>
        simp only [exec, Cs.next] at h
        split_ifs at h with hstop hkill hstatus htime
        · exact absurd ((looked_of_aside rfl).symm.trans h) nofun
        · obtain ⟨rest, rfl, hrest⟩ := looked_word (by decide) h
          have hc : 107 = c := by simpa [Word.begins, Word.text, bytes] using hkill
          exact ⟨rest, by rw [← hc]; rfl, hrest⟩
        · exact absurd ((looked_of_aside rfl).symm.trans h) nofun
        · exact absurd ((looked_of_aside rfl).symm.trans h) nofun
        · exact absurd h nofun
    obtain ⟨rest, rfl, h⟩ := hstart
    obtain ⟨spaces, c, rest', rfl, hspaces, hc, hspaced, hid⟩ := looked_kill h
    obtain ⟨hid, hpos, hle⟩ := handed_kill.mp hid
    -- the digits are all that `atoi` reads
    have hsplit := List.takeWhile_append_dropWhile (p := Decimal.isDigit) (l := c :: rest')
    have hrest : ∀ d ∈ ((c :: rest').dropWhile Decimal.isDigit).head?, Decimal.isDigit d = false := by
      intro d hd
      have hnot := List.head?_dropWhile_not Decimal.isDigit (c :: rest')
      rw [Option.mem_def.mp hd] at hnot
      simpa using hnot
    have hdigits : HandlerParser.IsNumeral ((c :: rest').takeWhile Decimal.isDigit) := by
      refine ⟨?_, fun d hd => List.mem_takeWhile_imp hd⟩
      rw [List.takeWhile_cons_of_pos hc]
      exact List.cons_ne_nil c _
    refine ⟨spaces, _, _, ⟨by rw [hsplit], ⟨hspaced.resolve_left (by simp), hspaces⟩, hdigits, hrest⟩,
      ?_, hpos, hle⟩
    rw [hid, ← atoi_append hdigits hrest, hsplit]
  · rintro ⟨spaces, digits, rest, hk, hid, hpos, hle⟩
    obtain ⟨hreq, ⟨hne, hspaces⟩, hdigits, hrest⟩ := hk
    obtain ⟨c, digits', rfl⟩ := List.exists_cons_of_ne_nil hdigits.1
    have hc : Decimal.isDigit c = true := hdigits.2 c (List.mem_cons_self ..)
    have hspace : isSpace c = false := by
      have h : 48 ≤ c.toNat ∧ c.toNat ≤ 57 := by simpa [Decimal.isDigit] using hc
      simp only [isSpace, UInt8.le_iff_toNat_le, beq_eq_false_iff_ne, Bool.or_eq_false_iff, ne_eq,
        ← UInt8.toNat_inj, Bool.and_eq_false_iff, decide_eq_false_iff_not]
      simp
      omega
    have hrun : exec env req .start = exec env (c :: (digits' ++ rest)) (.kill true) := by
      rw [hreq]
      exact exec_spaces hspaces hne false
    have hnext : Cs.next (.kill true) c = some (some .kill, .done) := by
      simp [Cs.next, hspace, hc]
    rw [hrun, exec, hnext]
    exact handed_kill.mpr ⟨by rw [hid, ← atoi_append hdigits hrest]; rfl, hpos, hle⟩

end Control

/-! ### The ids that come from outside -/

/-- A message that a handler publishes, with what is readable behind it, or a command. -/
inductive Input
  | published (parser : HandlerParser) (msg behind : List Byte)
  | command (env : Control.Env) (req : List Byte)

/-- The ids that `Handler_task` looks up for what the parser returns. -/
def targetIds : Option (ℤ × HandlerParser) → List ℤ
  | some (1, parser) => parser.targets.map fun id => intOf id
  | _ => []

/-- The ids that are handed to `Register_fd_for_id`. -/
def Input.handed : Input → List ℤ
  | .published parser msg behind => targetIds (parser.execute msg behind)
  | .command env req => (Control.execute env req).handed.toList

/-- The numerals of a message that is accepted are ids as an `int`, and that of a command is
not the size of the table. -/
def Input.InRange : Input → Prop
  | .published parser msg _ =>
    ∀ m, HandlerParser.Reads msg m → m.runs.length ≤ parser.targetMax →
      (m.list.length : ℤ) = intOf (HandlerParser.strtoul m.size) →
      ∀ run ∈ m.runs, Decimal.value run < 2 ^ 64 ∧ Decimal.value run % 2 ^ 32 < 2 ^ 16
  | .command _ req =>
    ∀ spaces digits rest, Control.Kills req spaces digits rest →
      ¬(Decimal.value digits < 2 ^ 63 ∧ Decimal.value digits % 2 ^ 32 = 2 ^ 16)

theorem mem_targetIds {x : Option (ℤ × HandlerParser)} {id : ℤ} :
    id ∈ targetIds x ↔ ∃ r, x = some (1, r) ∧ ∃ target ∈ r.targets, id = intOf target := by
  unfold targetIds
  split
  case h_1 r =>
    rw [List.mem_map]
    constructor
    · rintro ⟨target, htarget, hid⟩
      exact ⟨r, rfl, target, htarget, hid.symm⟩
    · rintro ⟨r', hr, target, htarget, hid⟩
      obtain ⟨-, rfl⟩ := Prod.mk.inj (Option.some.inj hr)
      exact ⟨target, htarget, hid.symm⟩
  case h_2 x hx =>
    refine iff_of_false List.not_mem_nil ?_
    rintro ⟨r, hr, -⟩
    exact hx r hr

theorem handed_published {parser : HandlerParser} {msg behind : List Byte} {id : ℤ} :
    id ∈ (Input.published parser msg behind).handed ↔
      ∃ m, HandlerParser.Reads msg m ∧ m.runs.length ≤ parser.targetMax ∧
        (m.list.length : ℤ) = intOf (HandlerParser.strtoul m.size) ∧
        ∃ run ∈ m.runs, id = intOf (min (Decimal.value run) (2 ^ 64 - 1)) := by
  refine mem_targetIds.trans ?_
  constructor
  · rintro ⟨r, hr, target, htarget, hid⟩
    obtain ⟨m, hm, hroom, hint, hparsed⟩ := HandlerParser.execute_iff.mp hr
    rw [hparsed, HandlerParser.targets_parsed] at htarget
    obtain ⟨run, hrun, hrun'⟩ := List.mem_map.mp htarget
    refine ⟨m, hm, hroom, hint, run, hrun, ?_⟩
    rw [hid, ← hrun', HandlerParser.strtoul_eq (hm.list.numerals run hrun)]
  · rintro ⟨m, hm, hroom, hint, run, hrun, hid⟩
    refine ⟨_, HandlerParser.execute_iff.mpr ⟨m, hm, hroom, hint, rfl⟩, HandlerParser.strtoul run, ?_, ?_⟩
    · rw [HandlerParser.targets_parsed]
      exact List.mem_map_of_mem hrun
    · rw [hid, HandlerParser.strtoul_eq (hm.list.numerals run hrun)]

/-- **The ids that come from outside** are indices of the table exactly if the numerals of
the message are in range, and the numeral of the command is not the size of the table. -/
theorem handed_iff_inRange (input : Input) :
    (∀ id ∈ input.handed, 0 ≤ id ∧ id < maxRegisteredFds) ↔ input.InRange := by
  cases input with
  | published parser msg behind =>
    have hmin : ∀ n : ℕ, min n (2 ^ 64 - 1) % 2 ^ 32 < 2 ^ 16 ↔ n < 2 ^ 64 ∧ n % 2 ^ 32 < 2 ^ 16 := by
      intro n
      omega
    constructor
    · intro h m hm hroom hint run hrun
      have hid := h _ (handed_published.mpr ⟨m, hm, hroom, hint, run, hrun, rfl⟩)
      exact (hmin _).mp ((Control.intOf_inRange_iff _).mp hid)
    · intro h id hid
      obtain ⟨m, hm, hroom, hint, run, hrun, hid⟩ := handed_published.mp hid
      rw [hid]
      exact (Control.intOf_inRange_iff _).mpr ((hmin _).mpr (h m hm hroom hint run hrun))
  | command env req =>
    have hmin : ∀ n : ℕ, intOf (min n (2 ^ 63 - 1)) = maxRegisteredFds ↔
        n < 2 ^ 63 ∧ n % 2 ^ 32 = 2 ^ 16 := by
      intro n
      have hmax : maxRegisteredFds = ((2 ^ 16 : ℕ) : ℤ) := rfl
      rw [hmax, Control.intOf_eq_iff (by decide)]
      omega
    have hmem : ∀ {id}, id ∈ (Input.command env req).handed ↔
        (Control.execute env req).handed = some id := by
      intro id
      exact Option.mem_toList
    constructor
    · rintro h spaces digits rest hk hnum
      have hid := (hmin _).mpr hnum
      have hhanded : (Control.execute env req).handed = some maxRegisteredFds :=
        Control.handed_iff.mpr ⟨spaces, digits, rest, hk, hid.symm, by decide, le_rfl⟩
      exact absurd (h _ (hmem.mpr hhanded)).2 (lt_irrefl _)
    · intro h id hid
      obtain ⟨spaces, digits, rest, hk, hid, hpos, hle⟩ := Control.handed_iff.mp (hmem.mp hid)
      refine ⟨hpos, lt_of_le_of_ne hle fun heq => h spaces digits rest hk ?_⟩
      exact (hmin _).mp (hid.symm.trans heq)

/-- An id of 65536 from a handler, and the same from the control port. -/
theorem handed_beyond :
    (¬∀ id ∈ (Input.published ⟨0, 0, none, [], 128⟩ (bytes "a 5:65536, x") []).handed,
        0 ≤ id ∧ id < maxRegisteredFds) ∧
      ¬∀ id ∈ (Input.command ⟨[], [], 0, fun _ => 0⟩ (bytes "kill 65536")).handed,
        0 ≤ id ∧ id < maxRegisteredFds := by
  decide

end Mongrel2

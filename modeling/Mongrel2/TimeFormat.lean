/-
Dates as text.

* `strftime`, `strptime` — a date is written and read as a format has it;
* **`strptime_strftime`** — what is written with a format whose directives can be told apart
  is read again with the same fields.

Design notes: a format is the list of its directives.  The names are those of the C locale.
Of the conversions there are those for a date with a time of day.
-/
import Mathlib.Data.List.TakeWhile
import Mathlib.Data.UInt
import Mongrel2.Calendar

namespace TimeFormat

open Calendar

/-! ### Formats -/

def text (s : String) : List UInt8 := s.toList.map Char.toUInt8

inductive Directive
  | weekday
  | day
  | month
  | year
  | hour
  | minute
  | second
  /-- white space -/
  | space
  | byte (c : UInt8)
  deriving DecidableEq

/-- The conversion that a letter stands for. -/
def conversion (c : UInt8) : Option Directive :=
  match Char.ofNat c.toNat with
  | 'a' => some .weekday
  | 'd' => some .day
  | 'b' => some .month
  | 'Y' => some .year
  | 'H' => some .hour
  | 'M' => some .minute
  | 'S' => some .second
  | _ => none

def isSpace (c : UInt8) : Bool := c = 32 ∨ 9 ≤ c ∧ c ≤ 13

def isLetter (c : UInt8) : Bool := 65 ≤ c ∧ c ≤ 90 ∨ 97 ≤ c ∧ c ≤ 122

def isDigit (c : UInt8) : Bool := 48 ≤ c ∧ c ≤ 57

def lower (c : UInt8) : UInt8 := if 65 ≤ c ∧ c ≤ 90 then c + 32 else c

def ordinary (c : UInt8) : Directive := if isSpace c then .space else .byte c

/-- The directives of a format. -/
def directives : List UInt8 → Option (List Directive)
  | [] => some []
  | [c] => if c = '%'.toUInt8 then none else some [ordinary c]
  | c :: d :: fmt =>
    if c = '%'.toUInt8 then (conversion d).bind fun x => (directives fmt).map (x :: ·)
    else (directives (d :: fmt)).map (ordinary c :: ·)

def dayNames : List (List UInt8) :=
  ["Sunday", "Monday", "Tuesday", "Wednesday", "Thursday", "Friday", "Saturday"].map text

def monthNames : List (List UInt8) :=
  ["January", "February", "March", "April", "May", "June", "July", "August", "September",
    "October", "November", "December"].map text

/-! ### Writing -/

def digit (n : ℕ) : UInt8 := n.digitChar.toUInt8

/-- `%02d`. -/
def twoDigits (n : ℕ) : List UInt8 := [digit (n / 10), digit (n % 10)]

def decimal (n : ℤ) : List UInt8 :=
  if 0 ≤ n then (Nat.toDigits 10 n.toNat).map Char.toUInt8
  else '-'.toUInt8 :: (Nat.toDigits 10 (-n).toNat).map Char.toUInt8

/-- The abbreviation of a name. -/
def abbreviation (names : List (List UInt8)) (i : ℕ) : List UInt8 := (names.getD i []).take 3

def Directive.print (tm : Tm) : Directive → List UInt8
  | .weekday => abbreviation dayNames tm.wday
  | .day => twoDigits tm.mday
  | .month => abbreviation monthNames tm.mon
  | .year => decimal (tm.year + 1900)
  | .hour => twoDigits tm.hour
  | .minute => twoDigits tm.min
  | .second => twoDigits tm.sec
  | .space => [32]
  | .byte c => [c]

/-- `strftime`. -/
def strftime (fmt : List Directive) (tm : Tm) : List UInt8 := fmt.flatMap (·.print tm)

/-! ### Reading -/

/-- A name in full or abbreviated, in any case. -/
def readName : List (List UInt8) → List UInt8 → Option (ℕ × List UInt8)
  | [], _ => none
  | name :: names, s =>
    if (name.map lower).isPrefixOf (s.map lower) then some (0, s.drop name.length)
    else if ((name.take 3).map lower).isPrefixOf (s.map lower) then some (0, s.drop 3)
    else (readName names s).map fun (i, s) => (i + 1, s)

/-- A number of at most so many digits, within bounds. -/
def readNumber (digits lo hi : ℕ) (s : List UInt8) : Option (ℕ × List UInt8) :=
  let ds := (s.take digits).takeWhile isDigit
  let n := ds.foldl (fun n c => 10 * n + (c.toNat - 48)) 0
  if ds ≠ [] ∧ lo ≤ n ∧ n ≤ hi then some (n, s.drop ds.length) else none

def Directive.read (tm : Tm) (s : List UInt8) : Directive → Option (Tm × List UInt8)
  | .weekday => (readName dayNames s).map fun (n, s) => ({ tm with wday := n }, s)
  | .day => (readNumber 2 1 31 s).map fun (n, s) => ({ tm with mday := n }, s)
  | .month => (readName monthNames s).map fun (n, s) => ({ tm with mon := n }, s)
  | .year => (readNumber 4 0 9999 s).map fun (n, s) => ({ tm with year := n - 1900 }, s)
  | .hour => (readNumber 2 0 23 s).map fun (n, s) => ({ tm with hour := n }, s)
  | .minute => (readNumber 2 0 59 s).map fun (n, s) => ({ tm with min := n }, s)
  | .second => (readNumber 2 0 60 s).map fun (n, s) => ({ tm with sec := n }, s)
  | .space => some (tm, s.dropWhile isSpace)
  | .byte c => if s.head? = some c then some (tm, s.tail) else none

/-- `strptime`: the fields it sets and the rest of the text. -/
def strptime : List Directive → List UInt8 → Tm → Option (Tm × List UInt8)
  | [], s, tm => some (tm, s)
  | d :: fmt, s, tm => (d.read tm s).bind fun (tm, s) => strptime fmt s tm

/-! ### Reading what was written -/

/-- The field of a directive is taken over. -/
def Directive.copy (src dst : Tm) : Directive → Tm
  | .weekday => { dst with wday := src.wday }
  | .day => { dst with mday := src.mday }
  | .month => { dst with mon := src.mon }
  | .year => { dst with year := src.year }
  | .hour => { dst with hour := src.hour }
  | .minute => { dst with min := src.min }
  | .second => { dst with sec := src.sec }
  | .space | .byte _ => dst

/-- What comes behind is not taken for a part of it. -/
def Directive.Ends (rest : List UInt8) : Directive → Prop
  | .weekday | .month => ∀ c ∈ rest.head?, isLetter c = false
  | .space => ∀ c ∈ rest.head?, isSpace c = false
  | _ => True

/-- The directives of which the one ends where the other begins. -/
def Directive.Apart : Directive → Directive → Prop
  | .weekday, d | .month, d => d ≠ .weekday ∧ d ≠ .month ∧ ∀ c, d = .byte c → isLetter c = false
  | .space, d => d ≠ .space ∧ ∀ c, d = .byte c → isSpace c = false
  | _, _ => True

section

variable {rest : List UInt8} {src dst : Tm}

theorem isLetter_lower (c : UInt8) : isLetter (lower c) = isLetter c := by
  unfold lower isLetter
  split
  · next h =>
    simp only [UInt8.le_iff_toNat_le, UInt8.reduceToNat] at h
    have hadd : (c + 32).toNat = c.toNat + 32 := by
      have h32 : (32 : UInt8).toNat = 32 := rfl
      rw [UInt8.toNat_add, h32]
      omega
    simp only [UInt8.le_iff_toNat_le, hadd, UInt8.reduceToNat, decide_eq_decide]
    omega
  · rfl

theorem take_map_lower {name s : List UInt8} (hlen : 3 ≤ name.length)
    (h : name.map lower <+: s.map lower) : (name.take 3).map lower = (s.take 3).map lower := by
  rw [List.map_take, List.map_take, List.prefix_iff_eq_take.mp h, List.take_take, List.length_map,
    Nat.min_eq_left hlen]

/-- A name that begins as its abbreviation with what follows is no longer than it. -/
theorem length_of_begins {name : List UInt8} (hlen : 3 ≤ name.length)
    (hletter : ∀ c ∈ name, isLetter c = true) (hrest : ∀ c ∈ rest.head?, isLetter c = false)
    (h : name.map lower <+: (name.take 3 ++ rest).map lower) : name.length = 3 := by
  by_contra hne
  have hthree : (name.take 3).length = 3 := by
    rw [List.length_take]
    omega
  -- the fourth letter of the name is the first byte behind the abbreviation
  have hget := List.prefix_iff_getElem?.mp h 3 (by rw [List.length_map]; omega)
  rw [List.map_append, List.getElem?_append_right (by simp), List.length_map, hthree,
    Nat.sub_self, List.getElem_map] at hget
  cases rest with
  | nil => exact absurd hget (by simp)
  | cons c rest =>
    have hfour : 3 < name.length := by omega
    have hlower : lower c = lower name[3] := by simpa using hget
    have hc := hrest c rfl
    rw [← isLetter_lower, hlower, isLetter_lower, hletter _ (List.getElem_mem _)] at hc
    exact absurd hc (by simp)

theorem readName_abbreviation {names : List (List UInt8)} {i : ℕ} (hi : i < names.length)
    (hnames : ∀ name ∈ names, 3 ≤ name.length ∧ ∀ c ∈ name, isLetter c = true)
    (hdiff : (names.map fun name => (name.take 3).map lower).Nodup)
    (hrest : ∀ c ∈ rest.head?, isLetter c = false) :
    readName names (abbreviation names i ++ rest) = some (i, rest) := by
  induction names generalizing i with
  | nil => exact absurd hi (by simp)
  | cons name names ih =>
    obtain ⟨hlen, hletter⟩ := hnames name (by simp)
    cases i with
    | zero =>
      have hdrop : (name.take 3 ++ rest).drop 3 = rest :=
        List.drop_left' (by rw [List.length_take]; omega)
      show readName (name :: names) (name.take 3 ++ rest) = _
      rw [readName]
      split
      · next hfull =>
        have hthree := length_of_begins hlen hletter hrest (List.isPrefixOf_iff_prefix.mp hfull)
        rw [hthree, hdrop]
      · have hshort : ((name.take 3).map lower).isPrefixOf ((name.take 3 ++ rest).map lower) := by
          rw [List.isPrefixOf_iff_prefix, List.map_append]
          exact List.prefix_append _ _
        rw [if_pos hshort, hdrop]
    | succ i =>
      have hi' : i < names.length := Nat.lt_of_succ_lt_succ hi
      have habbr : abbreviation (name :: names) (i + 1) = names[i].take 3 := by
        simp [abbreviation, hi']
      have hlen' : 3 ≤ names[i].length := (hnames _ (List.mem_cons_of_mem _ (List.getElem_mem _))).1
      rw [List.map_cons, List.nodup_cons] at hdiff
      -- no other name begins with these three letters
      have hother : ∀ word : List UInt8, 3 ≤ word.length → word.take 3 = name.take 3 →
          ¬ (word.map lower).isPrefixOf ((names[i].take 3 ++ rest).map lower) := by
        intro word hword htake hpre
        have heq := take_map_lower hword (List.isPrefixOf_iff_prefix.mp hpre)
        rw [htake, List.take_append_of_le_length (by rw [List.length_take]; omega), List.take_take,
          Nat.min_self] at heq
        exact hdiff.1 (heq ▸ List.mem_map_of_mem (List.getElem_mem _))
      have hrec := ih hi' (fun n hn => hnames n (List.mem_cons_of_mem _ hn)) hdiff.2
      rw [show abbreviation names i = names[i].take 3 by simp [abbreviation, hi']] at hrec
      rw [habbr, readName, if_neg (hother name hlen rfl),
        if_neg (hother (name.take 3) (by rw [List.length_take]; omega) (by simp)), hrec]
      rfl

theorem isDigit_digit : ∀ n < 10, isDigit (digit n) = true := by
  decide

theorem toNat_digit : ∀ n < 10, (digit n).toNat - 48 = n := by
  decide

theorem readNumber_digits {ds : List ℕ} {lo hi : ℕ} (hds : ∀ n ∈ ds, n < 10) (hne : ds ≠ [])
    (hlo : lo ≤ ds.foldl (fun n d => 10 * n + d) 0) (hhi : ds.foldl (fun n d => 10 * n + d) 0 ≤ hi) :
    readNumber ds.length lo hi (ds.map digit ++ rest) =
      some (ds.foldl (fun n d => 10 * n + d) 0, rest) := by
  have hall : ∀ c ∈ ds.map digit, isDigit c = true := by
    intro c hc
    obtain ⟨n, hn, rfl⟩ := List.mem_map.mp hc
    exact isDigit_digit n (hds n hn)
  have htake : ((ds.map digit ++ rest).take ds.length).takeWhile isDigit = ds.map digit := by
    rw [List.take_left' (List.length_map _)]
    exact List.takeWhile_eq_self_iff.mpr hall
  have hvalue : (ds.map digit).foldl (fun n c => 10 * n + (c.toNat - 48)) 0 =
      ds.foldl (fun n d => 10 * n + d) 0 := by
    rw [List.foldl_map]
    refine List.foldl_ext _ _ _ fun n d hd => ?_
    rw [toNat_digit d (hds d hd)]
  rw [readNumber, htake, hvalue]
  rw [if_pos ⟨by simpa using hne, hlo, hhi⟩, List.drop_left' (by simp)]

theorem readNumber_twoDigits {n lo hi : ℕ} (hn : n < 100) (hlo : lo ≤ n) (hhi : n ≤ hi) :
    readNumber 2 lo hi (twoDigits n ++ rest) = some (n, rest) := by
  have hvalue : [n / 10, n % 10].foldl (fun n d => 10 * n + d) 0 = n := by
    show 10 * (10 * 0 + n / 10) + n % 10 = n
    omega
  have hds : ∀ d ∈ [n / 10, n % 10], d < 10 := by
    intro d hd
    rw [List.mem_cons, List.mem_singleton] at hd
    omega
  have hread := @readNumber_digits rest _ lo hi hds (by simp)
    (by rw [hvalue]; exact hlo) (by rw [hvalue]; exact hhi)
  rw [hvalue] at hread
  exact hread

theorem decimal_eq {n : ℕ} (hlo : 1000 ≤ n) (hhi : n ≤ 9999) :
    decimal n = [n / 1000, n / 100 % 10, n / 10 % 10, n % 10].map digit := by
  have hthousands : n / 10 / 10 / 10 = n / 1000 := by omega
  have hhundreds : n / 10 / 10 = n / 100 := by omega
  rw [decimal, if_pos (Int.natCast_nonneg n), Int.toNat_natCast,
    Nat.toDigits_of_base_le (by decide) (by omega), Nat.toDigits_of_base_le (by decide) (by omega),
    Nat.toDigits_of_base_le (by decide) (by omega), Nat.toDigits_of_lt_base (by omega),
    hthousands, hhundreds]
  rfl

theorem readNumber_decimal {n : ℕ} (hlo : 1000 ≤ n) (hhi : n ≤ 9999) :
    readNumber 4 0 9999 (decimal n ++ rest) = some (n, rest) := by
  have hvalue : [n / 1000, n / 100 % 10, n / 10 % 10, n % 10].foldl (fun n d => 10 * n + d) 0 =
      n := by
    show 10 * (10 * (10 * (10 * 0 + n / 1000) + n / 100 % 10) + n / 10 % 10) + n % 10 = n
    omega
  have hds : ∀ d ∈ [n / 1000, n / 100 % 10, n / 10 % 10, n % 10], d < 10 := by
    intro d hd
    simp only [List.mem_cons, List.not_mem_nil, or_false] at hd
    omega
  have hread := @readNumber_digits rest _ 0 9999 hds (by simp) (Nat.zero_le _)
    (by rw [hvalue]; exact hhi)
  rw [hvalue] at hread
  rw [decimal_eq hlo hhi]
  exact hread

/-- Letters only, and enough of them to abbreviate: a check of a table of names. -/
theorem letters_of_all {names : List (List UInt8)}
    (h : (names.all fun name => decide (3 ≤ name.length) && name.all isLetter) = true) :
    ∀ name ∈ names, 3 ≤ name.length ∧ ∀ c ∈ name, isLetter c = true := by
  intro name hname
  have hboth := List.all_eq_true.mp h name hname
  rw [Bool.and_eq_true, decide_eq_true_eq, List.all_eq_true] at hboth
  exact hboth

theorem letters_dayNames : ∀ name ∈ dayNames, 3 ≤ name.length ∧ ∀ c ∈ name, isLetter c = true :=
  letters_of_all (by decide +kernel)

theorem letters_monthNames :
    ∀ name ∈ monthNames, 3 ≤ name.length ∧ ∀ c ∈ name, isLetter c = true :=
  letters_of_all (by decide +kernel)

/-- What a directive wrote it reads again, up to where it ends. -/
theorem read_print (hin : InRange src) (hyear : 1000 ≤ src.year + 1900 ∧ src.year + 1900 ≤ 9999)
    (d : Directive) (hends : d.Ends rest) :
    d.read dst (d.print src ++ rest) = some (d.copy src dst, rest) := by
  cases d with
  | weekday =>
    show (readName dayNames (abbreviation dayNames src.wday ++ rest)).map _ = _
    rw [readName_abbreviation hin.wday letters_dayNames (by decide) hends]
    rfl
  | day =>
    have hmday := hin.mday
    show (readNumber 2 1 31 (twoDigits src.mday ++ rest)).map _ = _
    rw [readNumber_twoDigits (by omega) hmday.1 hmday.2]
    rfl
  | month =>
    show (readName monthNames (abbreviation monthNames src.mon ++ rest)).map _ = _
    rw [readName_abbreviation hin.mon letters_monthNames (by decide) hends]
    rfl
  | year =>
    obtain ⟨n, hn⟩ := Int.eq_ofNat_of_zero_le (show 0 ≤ src.year + 1900 by omega)
    show (readNumber 4 0 9999 (decimal (src.year + 1900) ++ rest)).map _ = _
    rw [hn, readNumber_decimal (by omega) (by omega)]
    have hback : (n : ℤ) - 1900 = src.year := by omega
    show some ({ dst with year := (n : ℤ) - 1900 }, rest) = _
    rw [hback]
    rfl
  | hour =>
    have hhour := hin.hour
    show (readNumber 2 0 23 (twoDigits src.hour ++ rest)).map _ = _
    rw [readNumber_twoDigits (by omega) (by omega) (by omega)]
    rfl
  | minute =>
    have hmin := hin.min
    show (readNumber 2 0 59 (twoDigits src.min ++ rest)).map _ = _
    rw [readNumber_twoDigits (by omega) (by omega) (by omega)]
    rfl
  | second =>
    have hsec := hin.sec
    show (readNumber 2 0 60 (twoDigits src.sec ++ rest)).map _ = _
    rw [readNumber_twoDigits (by omega) (by omega) (by omega)]
    rfl
  | space =>
    show some (dst, (32 :: rest).dropWhile isSpace) = some (dst, rest)
    rw [List.dropWhile_cons_of_pos (by decide)]
    cases rest with
    | nil => rfl
    | cons c rest => rw [List.dropWhile_cons_of_neg (by simpa using hends c rfl)]
  | byte c => simp [Directive.read, Directive.print, Directive.copy]

theorem isSpace_of_isLetter {c : UInt8} (h : isLetter c = true) : isSpace c = false := by
  simp only [isLetter, isSpace, UInt8.le_iff_toNat_le, ← UInt8.toNat_inj, UInt8.reduceToNat,
    decide_eq_true_eq, decide_eq_false_iff_not] at h ⊢
  omega

theorem of_isDigit {c : UInt8} (h : isDigit c = true) : isLetter c = false ∧ isSpace c = false := by
  simp only [isDigit, isLetter, isSpace, UInt8.le_iff_toNat_le, ← UInt8.toNat_inj,
    UInt8.reduceToNat, decide_eq_true_eq, decide_eq_false_iff_not] at h ⊢
  omega

/-- The byte a directive begins with tells which it may be. -/
def Directive.Begins (c : UInt8) : Directive → Prop
  | .weekday | .month => isLetter c = true
  | .space => c = 32
  | .byte b => c = b
  | _ => isDigit c = true

theorem begins_abbreviation {names : List (List UInt8)} {i : ℕ} (hi : i < names.length)
    (hnames : ∀ name ∈ names, 3 ≤ name.length ∧ ∀ c ∈ name, isLetter c = true) :
    ∃ c cs, abbreviation names i = c :: cs ∧ isLetter c = true := by
  obtain ⟨hlen, hletter⟩ := hnames _ (List.getElem_mem hi)
  have habbr : abbreviation names i = names[i].take 3 := by simp [abbreviation, hi]
  obtain ⟨c, cs, hname⟩ : ∃ c cs, names[i] = c :: cs :=
    List.exists_cons_of_length_pos (Nat.lt_of_lt_of_le (by decide) hlen)
  refine ⟨c, cs.take 2, by rw [habbr, hname]; rfl, hletter c ?_⟩
  rw [hname]
  exact List.mem_cons_self

theorem begins_print (hin : InRange src)
    (hyear : 1000 ≤ src.year + 1900 ∧ src.year + 1900 ≤ 9999) (d : Directive) :
    ∃ c cs, d.print src = c :: cs ∧ d.Begins c := by
  have hdigits : ∀ n < 100, ∃ c cs, twoDigits n = c :: cs ∧ isDigit c = true := fun n hn =>
    ⟨_, _, rfl, isDigit_digit _ (by omega)⟩
  cases d with
  | weekday => exact begins_abbreviation hin.wday letters_dayNames
  | month => exact begins_abbreviation hin.mon letters_monthNames
  | year =>
    obtain ⟨n, hn⟩ := Int.eq_ofNat_of_zero_le (show 0 ≤ src.year + 1900 by omega)
    show ∃ c cs, decimal (src.year + 1900) = c :: cs ∧ isDigit c = true
    rw [hn, decimal_eq (by omega) (by omega)]
    exact ⟨_, _, rfl, isDigit_digit _ (by omega)⟩
  | day => exact hdigits _ (by have hmday := hin.mday; omega)
  | hour => exact hdigits _ (by have hhour := hin.hour; omega)
  | minute => exact hdigits _ (by have hmin := hin.min; omega)
  | second => exact hdigits _ (by have hsec := hin.sec; omega)
  | space => exact ⟨_, _, rfl, rfl⟩
  | byte b => exact ⟨_, _, rfl, rfl⟩

/-- A directive ends where one begins that can be told from it. -/
theorem ends_of_apart {d d' : Directive} {c : UInt8} {cs : List UInt8} (hapart : d.Apart d')
    (hbegins : d'.Begins c) : d.Ends (c :: cs) := by
  have hletter : d' ≠ .weekday → d' ≠ .month → (∀ b, d' = .byte b → isLetter b = false) →
      isLetter c = false := by
    intro hweekday hmonth hbyte
    cases d' with
    | weekday => exact absurd rfl hweekday
    | month => exact absurd rfl hmonth
    | space => exact hbegins ▸ rfl
    | byte b => exact hbegins ▸ hbyte b rfl
    | _ => exact (of_isDigit hbegins).1
  have hspace : d' ≠ .space → (∀ b, d' = .byte b → isSpace b = false) → isSpace c = false := by
    intro hne hbyte
    cases d' with
    | weekday | month => exact isSpace_of_isLetter hbegins
    | space => exact absurd rfl hne
    | byte b => exact hbegins ▸ hbyte b rfl
    | _ => exact (of_isDigit hbegins).2
  have hhead : ∀ x ∈ (c :: cs).head?, x = c := fun x hx => (Option.some.inj hx).symm
  cases d with
  | weekday | month => exact fun x hx => hhead x hx ▸ hletter hapart.1 hapart.2.1 hapart.2.2
  | space => exact fun x hx => hhead x hx ▸ hspace hapart.1 hapart.2
  | _ => trivial

/-- **What was written is read again**, field by field. -/
theorem strptime_strftime (hin : InRange src)
    (hyear : 1000 ≤ src.year + 1900 ∧ src.year + 1900 ≤ 9999) {fmt : List Directive}
    (hapart : fmt.IsChain Directive.Apart) (dst : Tm) :
    strptime fmt (strftime fmt src) dst = some (fmt.foldl (fun tm d => d.copy src tm) dst, []) := by
  induction fmt generalizing dst with
  | nil => rfl
  | cons d fmt ih =>
    have hends : d.Ends (strftime fmt src) := by
      cases fmt with
      | nil => cases d <;> first | trivial | exact fun c hc => absurd hc (by simp [strftime])
      | cons d' fmt =>
        obtain ⟨c, cs, hprint, hbegins⟩ := begins_print hin hyear d'
        show d.Ends (d'.print src ++ strftime fmt src)
        rw [hprint]
        exact ends_of_apart (List.isChain_cons_cons.mp hapart).1 hbegins
    show strptime (d :: fmt) (d.print src ++ strftime fmt src) dst = _
    rw [strptime, read_print hin hyear d hends]
    exact ih (List.isChain_of_isChain_cons hapart) _

theorem zero_notMem_abbreviation {names : List (List UInt8)} {i : ℕ} (hi : i < names.length)
    (hnames : ∀ name ∈ names, 3 ≤ name.length ∧ ∀ c ∈ name, isLetter c = true) :
    0 ∉ abbreviation names i := by
  intro hzero
  have habbr : abbreviation names i = names[i].take 3 := by simp [abbreviation, hi]
  rw [habbr] at hzero
  exact absurd ((hnames _ (List.getElem_mem hi)).2 0 (List.mem_of_mem_take hzero)) (by decide)

theorem zero_notMem_digits {ds : List ℕ} (hds : ∀ n ∈ ds, n < 10) : 0 ∉ ds.map digit := by
  intro hzero
  obtain ⟨n, hn, heq⟩ := List.mem_map.mp hzero
  have hdigit := isDigit_digit n (hds n hn)
  rw [heq] at hdigit
  exact absurd hdigit (by decide)

theorem zero_notMem_print (hin : InRange src)
    (hyear : 1000 ≤ src.year + 1900 ∧ src.year + 1900 ≤ 9999) {d : Directive} (hd : d ≠ .byte 0) :
    0 ∉ d.print src := by
  have hdigits : ∀ n < 100, 0 ∉ twoDigits n := by
    intro n hn
    refine @zero_notMem_digits [n / 10, n % 10] fun d hd => ?_
    rw [List.mem_cons, List.mem_singleton] at hd
    omega
  cases d with
  | weekday => exact zero_notMem_abbreviation hin.wday letters_dayNames
  | month => exact zero_notMem_abbreviation hin.mon letters_monthNames
  | year =>
    obtain ⟨n, hn⟩ := Int.eq_ofNat_of_zero_le (show 0 ≤ src.year + 1900 by omega)
    show 0 ∉ decimal (src.year + 1900)
    rw [hn, decimal_eq (by omega) (by omega)]
    refine zero_notMem_digits fun d hd => ?_
    simp only [List.mem_cons, List.not_mem_nil, or_false] at hd
    omega
  | day => exact hdigits _ (by have hmday := hin.mday; omega)
  | hour => exact hdigits _ (by have hhour := hin.hour; omega)
  | minute => exact hdigits _ (by have hmin := hin.min; omega)
  | second => exact hdigits _ (by have hsec := hin.sec; omega)
  | space => exact show (0 : UInt8) ∉ [32] by decide
  | byte b => exact fun hzero => hd (by rw [List.mem_singleton.mp hzero])

theorem zero_notMem_strftime (hin : InRange src)
    (hyear : 1000 ≤ src.year + 1900 ∧ src.year + 1900 ≤ 9999) {fmt : List Directive}
    (hfmt : .byte 0 ∉ fmt) : 0 ∉ strftime fmt src := by
  intro hzero
  obtain ⟨d, hd, hmem⟩ := List.mem_flatMap.mp hzero
  exact zero_notMem_print hin hyear (fun heq => hfmt (heq ▸ hd)) hmem

end

end TimeFormat

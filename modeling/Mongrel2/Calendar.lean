/-
The Gregorian calendar and the times of day, for seconds counted from an epoch.

* `gmtime`, `timegm` — a time as a date and a time of day, and back;
* **`timegm_gmtime`** — the one undoes the other;
* `inRange_gmtime`, `year_gmtime` — the fields are in their ranges.

Design notes: days are counted from the first of January of the year 1, and the calendar
is extended to all years.  `tm_yday` is left out.
-/
import Mathlib.Algebra.Order.Ring.Int
import Mathlib.Data.List.Basic
import Mathlib.Tactic.Common

namespace Calendar

/-! ### Years -/

def isLeap (y : ℤ) : Bool := y % 4 = 0 ∧ (y % 100 ≠ 0 ∨ y % 400 = 0)

def yearLength (y : ℤ) : ℤ := if isLeap y then 366 else 365

/-- The days before the first of January. -/
def daysBeforeYear (y : ℤ) : ℤ := 365 * (y - 1) + (y - 1) / 4 - (y - 1) / 100 + (y - 1) / 400

theorem isLeap_iff {y : ℤ} : isLeap y = true ↔ y % 4 = 0 ∧ (y % 100 ≠ 0 ∨ y % 400 = 0) := by
  simp [isLeap]

theorem daysBeforeYear_succ (y : ℤ) : daysBeforeYear (y + 1) = daysBeforeYear y + yearLength y := by
  unfold daysBeforeYear yearLength
  by_cases h : isLeap y = true
  · rw [if_pos h]
    rw [isLeap_iff] at h
    omega
  · rw [if_neg h]
    rw [isLeap_iff] at h
    omega

/-- The year a day is in: whole periods of 400, 100 and 4 years and whole years before it.  The
last of four periods of 100 years has a day more, and so has the last of four years. -/
def yearOf (d : ℤ) : ℤ :=
  let centuries := min 3 (d % 146097 / 36524)
  let r := d % 146097 - 36524 * centuries
  400 * (d / 146097) + 100 * centuries + 4 * (r / 1461) + min 3 (r % 1461 / 365) + 1

section

variable {a b c e : ℤ}

theorem daysBeforeYear_periods (hb : 0 ≤ b ∧ b ≤ 3) (hc : 0 ≤ c ∧ c ≤ 24) (he : 0 ≤ e ∧ e ≤ 3) :
    daysBeforeYear (400 * a + 100 * b + 4 * c + e + 1) =
      146097 * a + 36524 * b + 1461 * c + 365 * e := by
  have h4 : (400 * a + 100 * b + 4 * c + e + 1 - 1) / 4 = 100 * a + 25 * b + c := by omega
  have h100 : (400 * a + 100 * b + 4 * c + e + 1 - 1) / 100 = 4 * a + b := by omega
  have h400 : (400 * a + 100 * b + 4 * c + e + 1 - 1) / 400 = a := by omega
  rw [daysBeforeYear, h4, h100, h400]
  omega

theorem isLeap_periods (hb : 0 ≤ b ∧ b ≤ 3) (hc : 0 ≤ c ∧ c ≤ 24) (he : 0 ≤ e ∧ e ≤ 3) :
    isLeap (400 * a + 100 * b + 4 * c + e + 1) = true ↔ e = 3 ∧ (c = 24 → b = 3) := by
  rw [isLeap_iff]
  omega

end

theorem yearOf_spec (d : ℤ) :
    daysBeforeYear (yearOf d) ≤ d ∧ d < daysBeforeYear (yearOf d + 1) := by
  obtain ⟨a, ha⟩ : ∃ a, a = d / 146097 := ⟨_, rfl⟩
  obtain ⟨b, hb⟩ : ∃ b, b = min 3 (d % 146097 / 36524) := ⟨_, rfl⟩
  obtain ⟨r, hr⟩ : ∃ r, r = d % 146097 - 36524 * b := ⟨_, rfl⟩
  obtain ⟨c, hc⟩ : ∃ c, c = r / 1461 := ⟨_, rfl⟩
  obtain ⟨e, he⟩ : ∃ e, e = min 3 (r % 1461 / 365) := ⟨_, rfl⟩
  have hyear : yearOf d = 400 * a + 100 * b + 4 * c + e + 1 := by
    rw [yearOf, ha, he, hc, hr, hb]
  -- what is left in each period is within its length
  have hd : d = 146097 * a + 36524 * b + r := by omega
  have hb' : 0 ≤ b ∧ b ≤ 3 := by omega
  have hr' : 0 ≤ r ∧ r ≤ 36524 ∧ (b < 3 → r < 36524) := by omega
  clear ha hb hr
  have hc' : 0 ≤ c ∧ c ≤ 24 := by omega
  have he' : 0 ≤ e ∧ e ≤ 3 := by omega
  have hleft : 365 * e ≤ r % 1461 ∧ (e < 3 → r % 1461 < 365 * e + 365) := by omega
  have hmod : r = 1461 * c + r % 1461 ∧ r % 1461 < 1461 := by omega
  clear he hc
  rw [daysBeforeYear_succ, yearLength, hyear, daysBeforeYear_periods hb' hc' he']
  refine ⟨by omega, ?_⟩
  by_cases hleap : isLeap (400 * a + 100 * b + 4 * c + e + 1) = true
  · rw [if_pos hleap]
    rw [isLeap_periods hb' hc' he'] at hleap
    omega
  · rw [if_neg hleap]
    rw [isLeap_periods hb' hc' he'] at hleap
    omega

/-! ### Months -/

def monthLengths (leap : Bool) : List ℕ :=
  [31, if leap then 29 else 28, 31, 30, 31, 30, 31, 31, 30, 31, 30, 31]

def daysBeforeMonth (leap : Bool) (mon : ℕ) : ℕ := ((monthLengths leap).take mon).sum

/-- Which of the pieces a position is in, and where in it. -/
def locate : List ℕ → ℕ → ℕ × ℕ
  | [], d => (0, d)
  | n :: ns, d =>
    if d < n then (0, d)
    else
      let (i, r) := locate ns (d - n)
      (i + 1, r)

theorem locate_spec {ns : List ℕ} {d : ℕ} (h : d < ns.sum) :
    (locate ns d).1 < ns.length ∧ (ns.take (locate ns d).1).sum + (locate ns d).2 = d ∧
      ∀ n, (∀ m ∈ ns, m ≤ n) → (locate ns d).2 < n := by
  induction ns generalizing d with
  | nil => exact absurd h (by simp)
  | cons m ns ih =>
    rw [locate]
    split
    · next hlt => exact ⟨by simp, by simp, fun n hn => Nat.lt_of_lt_of_le hlt (hn m (by simp))⟩
    · next hge =>
      rw [List.sum_cons] at h
      obtain ⟨hlen, hsum, hbound⟩ := ih (d := d - m) (by omega)
      refine ⟨?_, ?_, fun n hn => hbound n fun k hk => hn k (List.mem_cons_of_mem _ hk)⟩
      · rw [List.length_cons]
        exact Nat.succ_lt_succ hlen
      · show ((m :: ns).take ((locate ns (d - m)).1 + 1)).sum + (locate ns (d - m)).2 = d
        rw [List.take_succ_cons, List.sum_cons]
        omega

theorem sum_monthLengths (leap : Bool) :
    (monthLengths leap).sum = if leap then 366 else 365 := by
  cases leap <;> rfl

theorem le_of_mem_monthLengths {leap : Bool} : ∀ m ∈ monthLengths leap, m ≤ 31 := by
  cases leap <;> decide

/-! ### Times -/

/-- A `struct tm`. -/
structure Tm where
  sec : ℕ
  min : ℕ
  hour : ℕ
  mday : ℕ
  mon : ℕ
  /-- since 1900 -/
  year : ℤ
  wday : ℕ
  /-- positive in daylight saving time, negative if it is not known -/
  isdst : ℤ
  deriving DecidableEq

/-- The day of the epoch, 1 January 1970, which was a Thursday. -/
def epoch : ℤ := 719162

/-- `gmtime`. -/
def gmtime (t : ℤ) : Tm :=
  let days := t / 86400 + epoch
  let rem := (t % 86400).toNat
  let year := yearOf days
  let (mon, day) := locate (monthLengths (isLeap year)) (days - daysBeforeYear year).toNat
  { sec := rem % 60, min := rem / 60 % 60, hour := rem / 3600, mday := day + 1, mon,
    year := year - 1900, wday := ((t / 86400 + 4) % 7).toNat, isdst := 0 }

/-- The seconds since the epoch for a date and a time of day, in Greenwich. -/
def timegm (tm : Tm) : ℤ :=
  let year := tm.year + 1900
  let days := daysBeforeYear year + daysBeforeMonth (isLeap year) tm.mon + tm.mday - 1
  (days - epoch) * 86400 + tm.hour * 3600 + tm.min * 60 + tm.sec

/-- The fields are within the ranges that the standard has for them. -/
structure InRange (tm : Tm) : Prop where
  sec : tm.sec < 60
  min : tm.min < 60
  hour : tm.hour < 24
  mday : 1 ≤ tm.mday ∧ tm.mday ≤ 31
  mon : tm.mon < 12
  wday : tm.wday < 7

/-- The day of the year is one of the days of the year. -/
theorem dayOfYear_lt (d : ℤ) :
    (d - daysBeforeYear (yearOf d)).toNat < (monthLengths (isLeap (yearOf d))).sum := by
  obtain ⟨hle, hlt⟩ := yearOf_spec d
  rw [daysBeforeYear_succ, yearLength] at hlt
  rw [sum_monthLengths]
  by_cases hleap : isLeap (yearOf d) = true
  · rw [if_pos hleap] at hlt ⊢
    omega
  · rw [if_neg hleap] at hlt ⊢
    omega

theorem inRange_gmtime (t : ℤ) : InRange (gmtime t) := by
  obtain ⟨hmon, -, hday⟩ := locate_spec (dayOfYear_lt (t / 86400 + epoch))
  have hmday := hday 31 le_of_mem_monthLengths
  have hrem : (t % 86400).toNat < 86400 := by omega
  exact
    { sec := Nat.mod_lt _ (by decide)
      min := Nat.mod_lt _ (by decide)
      hour := Nat.div_lt_of_lt_mul hrem
      mday := ⟨Nat.le_add_left _ _, hmday⟩
      mon := hmon
      wday := show ((t / 86400 + 4) % 7).toNat < 7 by omega }

/-- **`timegm` undoes `gmtime`.** -/
theorem timegm_gmtime (t : ℤ) : timegm (gmtime t) = t := by
  obtain ⟨days, hdays⟩ : ∃ d, d = t / 86400 + epoch := ⟨_, rfl⟩
  obtain ⟨hle, -⟩ := yearOf_spec days
  obtain ⟨-, hsum, -⟩ := locate_spec (dayOfYear_lt days)
  have hyear : (gmtime t).year + 1900 = yearOf days := by
    rw [hdays]
    exact Int.sub_add_cancel _ _
  have hmon : daysBeforeMonth (isLeap (yearOf days)) (gmtime t).mon + (gmtime t).mday =
      (days - daysBeforeYear (yearOf days)).toNat + 1 := by
    rw [← hsum, hdays]
    rfl
  have hrem : (gmtime t).hour * 3600 + (gmtime t).min * 60 + (gmtime t).sec = (t % 86400).toNat := by
    show (t % 86400).toNat / 3600 * 3600 + (t % 86400).toNat / 60 % 60 * 60 +
      (t % 86400).toNat % 60 = _
    omega
  rw [timegm, hyear]
  omega

/-- The year of a time within 2 ^ 31 seconds of the epoch has four digits. -/
theorem year_gmtime {t : ℤ} (h : -2 ^ 31 ≤ t ∧ t < 2 ^ 31) :
    1000 ≤ (gmtime t).year + 1900 ∧ (gmtime t).year + 1900 ≤ 9999 := by
  have hyear : (gmtime t).year + 1900 = yearOf (t / 86400 + epoch) := Int.sub_add_cancel _ _
  obtain ⟨hle, hlt⟩ := yearOf_spec (t / 86400 + epoch)
  rw [hyear]
  unfold daysBeforeYear epoch at *
  omega

end Calendar

/-
The dates of conditional requests (`dir.c`, `request.c`).

* `lastMod` — the `Last-Modified` of a file, as `Dir_find_file` formats it;
* `requestGetDate` — `Request_get_date`, in a time zone;
* **`requestGetDate_lastMod`** — the date is read as it was written, less the offset of the
  zone;
* **`echoesDate_iff`** — a client that sends `Last-Modified` back has what it asked for
  exactly if the zone's standard time is that of Greenwich, the date is not the epoch itself,
  and it is not to come.

Design notes: a time zone is the offset of its standard time, that of its daylight saving
time, and when this is in effect.
-/
import Mongrel2.DirResponse
import Mongrel2.HttpClientParser
import Mongrel2.Pattern
import Mongrel2.TimeFormat

namespace Mongrel2

open ByteStream HttpParser Calendar TimeFormat

/-- A time zone; the offsets are in seconds east of Greenwich. -/
structure Zone where
  std : ℤ
  dst : ℤ
  isDst : ℤ → Bool
  std_lt : -90000 < std ∧ std < 90000

/-- `mktime`: `tm_isdst` says which of the offsets to presume. -/
def mktime (zone : Zone) (tm : Tm) : ℤ :=
  if tm.isdst = 0 then timegm tm - zone.std
  else if 0 < tm.isdst then timegm tm - zone.dst
  else if zone.isDst (timegm tm - zone.dst) then timegm tm - zone.dst
  else timegm tm - zone.std

/-- `RFC_822_TIME`. -/
def rfc822Time : List Byte := bytes "%a, %d %b %Y %H:%M:%S GMT"

/-- The `struct tm` that `memset` leaves. -/
def zeroTm : Tm := ⟨0, 0, 0, 0, 0, 0, 0, 0⟩

/-- `Request_get_date`. -/
def requestGetDate (zone : Zone) (value : Option (List Byte)) (format : List Byte) : ℤ :=
  match value with
  | none => 0
  | some value =>
    match (directives format).bind fun fmt => strptime fmt (cstr value) zeroTm with
    | none => 0
    | some (tm, _) => toInt (mktime zone tm)

/-- The `last_mod` of a file. -/
def lastMod (mtime : ℤ) : List Byte :=
  (directives rfc822Time).elim [] fun fmt => strftime fmt (gmtime mtime)

/-- `ETAG_PATTERN`. -/
def etagPattern : List Byte := bytes "[a-e0-9]+-[a-e0-9]+"

/-- How the conditional headers are read in a time zone. -/
def conditions (zone : Zone) : Conditions where
  isEtag m := (Pattern.bstringMatch m etagPattern).isSome
  date value := requestGetDate zone (some value) rfc822Time

example : lastMod 784111777 = bytes "Sun, 06 Nov 1994 08:49:37 GMT" := by decide

/-! ### The round trip -/

theorem directives_rfc822Time : directives rfc822Time = some
    [.weekday, .byte 44, .space, .day, .space, .month, .space, .year, .space, .hour, .byte 58,
      .minute, .byte 58, .second, .space, .byte 71, .byte 77, .byte 84] := by
  decide

/-- An `int` keeps what is in its range. -/
theorem toInt_eq_self {n : ℤ} (h : -2 ^ 31 ≤ n ∧ n < 2 ^ 31) : toInt n = n :=
  Int.bmod_eq_of_le_mul_two (by omega) (by omega)

section

variable {zone : Zone} {t now : ℤ}

/-- Of the fields none is left out. -/
theorem strptime_lastMod (ht : -2 ^ 31 ≤ t ∧ t < 2 ^ 31) :
    ((directives rfc822Time).bind fun fmt => strptime fmt (cstr (lastMod t)) zeroTm) =
      some (gmtime t, []) := by
  have hin := inRange_gmtime t
  have hyear := year_gmtime ht
  rw [lastMod, directives_rfc822Time, Option.bind_some, Option.elim_some]
  rw [cstr_of_notMem (zero_notMem_strftime hin hyear (by decide)),
    strptime_strftime hin hyear (by simp [Directive.Apart]; decide)]
  rfl

/-- **What is written in Greenwich is read in the zone's standard time.** -/
theorem requestGetDate_lastMod (zone : Zone) (ht : -2 ^ 31 ≤ t ∧ t < 2 ^ 31) :
    requestGetDate zone (some (lastMod t)) rfc822Time = toInt (t - zone.std) := by
  have hread := strptime_lastMod ht
  unfold requestGetDate
  dsimp only
  rw [hread]
  show toInt (mktime zone (gmtime t)) = _
  rw [mktime, if_pos (show (gmtime t).isdst = 0 from rfl), timegm_gmtime]

/-- The offset of a zone is too small to be a multiple of 2 ^ 32. -/
theorem toInt_sub_std_eq_iff (zone : Zone) (ht : -2 ^ 31 ≤ t ∧ t < 2 ^ 31) :
    toInt (t - zone.std) = t ↔ zone.std = 0 := by
  obtain ⟨hlo, hhi⟩ := zone.std_lt
  refine ⟨fun h => ?_, fun h => by rw [h, Int.sub_zero, toInt_eq_self ht]⟩
  have hdvd : (2 ^ 32 : ℤ) ∣ t - zone.std - t := by
    have hsub := Int.dvd_self_sub_bmod (x := t - zone.std) (m := 2 ^ 32)
    rw [show Int.bmod (t - zone.std) (2 ^ 32) = t from h] at hsub
    exact hsub
  omega

/-! ### A client that sends the date back -/

/-- `If-Modified-Since` is the only condition. -/
structure OnlyModifiedSince (req : Request) (value : List Byte) : Prop where
  modifiedSince : req.get (bytes "If-Modified-Since") = some value
  «match» : req.get (bytes "If-Match") = none
  noneMatch : req.get (bytes "If-None-Match") = none
  unmodifiedSince : req.get (bytes "If-Unmodified-Since") = none

theorem calculateResponse_onlyModifiedSince {cond : Conditions} {req : Request}
    {value : List Byte} {file : FileRecord} (hreq : OnlyModifiedSince req value)
    (hfile : file.isDir = false) :
    calculateResponse cond now req (some file) =
      if cond.date value ≠ 0 then dirIfModifiedSince now file (cond.date value) else none := by
  simp [calculateResponse, hfile, hreq.match, hreq.noneMatch, hreq.unmodifiedSince,
    hreq.modifiedSince]

/-- A date sent back as it was received is the time of the file; the file is sent again only
when it has changed. -/
structure EchoesDate (zone : Zone) (now t : ℤ) : Prop where
  roundTrip : requestGetDate zone (some (lastMod t)) rfc822Time = t
  notModified : ∀ (file : FileRecord) (req : Request), file.isDir = false → file.sb.mtime = t →
    OnlyModifiedSince req (lastMod t) →
      calculateResponse (conditions zone) (toInt now) req (some file) = some (.status 304)
  modified : ∀ (file : FileRecord) (req : Request), file.isDir = false → t < file.sb.mtime →
    OnlyModifiedSince req (lastMod t) →
      calculateResponse (conditions zone) (toInt now) req (some file) = none

/-- A request that sends a date back. -/
def echo (value : List Byte) : Request :=
  { Request.create with headers := [(bytes "If-Modified-Since", value)] }

theorem onlyModifiedSince_echo (value : List Byte) : OnlyModifiedSince (echo value) value :=
  ⟨rfl, rfl, rfl, rfl⟩

/-- **Echoing the date works** exactly in Greenwich standard time, for a date that is neither
the epoch, which is the answer for no date, nor to come. -/
theorem echoesDate_iff (zone : Zone) (now : ℤ) (ht : -2 ^ 31 ≤ t ∧ t < 2 ^ 31) :
    EchoesDate zone now t ↔ zone.std = 0 ∧ t ≠ 0 ∧ t ≤ toInt now := by
  have hread := requestGetDate_lastMod zone ht
  constructor
  · intro h
    have hstd : zone.std = 0 := (toInt_sub_std_eq_iff zone ht).mp (hread.symm.trans h.roundTrip)
    have hsame := h.notModified ⟨false, 1, 0, none, [], ⟨false, t, 0⟩⟩ (echo (lastMod t)) rfl rfl
      (onlyModifiedSince_echo _)
    rw [calculateResponse_onlyModifiedSince (onlyModifiedSince_echo _) rfl] at hsame
    rw [show (conditions zone).date (lastMod t) = t from h.roundTrip] at hsame
    refine ⟨hstd, fun hzero => ?_, ?_⟩
    · rw [if_neg (not_not_intro hzero)] at hsame
      exact absurd hsame (by simp)
    · by_contra hlater
      have hnone : dirIfModifiedSince (toInt now) ⟨false, 1, 0, none, [], ⟨false, t, 0⟩⟩ t = none :=
        if_neg fun hle => hlater hle.1
      rw [hnone, ite_self] at hsame
      exact absurd hsame (by simp)
  · rintro ⟨hstd, hzero, hnow⟩
    have hdate : (conditions zone).date (lastMod t) = t :=
      hread.trans ((toInt_sub_std_eq_iff zone ht).mpr hstd)
    refine ⟨hdate, fun file req hfile hmtime hreq => ?_, fun file req hfile hmtime hreq => ?_⟩
    · rw [calculateResponse_onlyModifiedSince hreq hfile, hdate, if_pos hzero, dirIfModifiedSince,
        if_pos ⟨hnow, hmtime.le⟩]
    · rw [calculateResponse_onlyModifiedSince hreq hfile, hdate, if_pos hzero, dirIfModifiedSince,
        if_neg fun hle => absurd hle.2 (not_le.mpr hmtime)]

end

/-- A zone without daylight saving time. -/
def fixedZone (std : ℤ) (h : -90000 < std ∧ std < 90000) : Zone := ⟨std, std, fun _ => false, h⟩

theorem echoesDate_iff_greenwich :
    EchoesDate (fixedZone 0 (by decide)) 1300000000 784111777 ↔
      (0 : ℤ) = 0 ∧ (784111777 : ℤ) ≠ 0 ∧ 784111777 ≤ toInt 1300000000 :=
  echoesDate_iff (fixedZone 0 (by decide)) 1300000000 (by decide)

/-- One hour east of Greenwich a file is sent again although it has not changed. -/
theorem not_echoesDate_east :
    ¬ EchoesDate (fixedZone 3600 (by decide)) 1300000000 784111777 := by
  intro h
  have hread := requestGetDate_lastMod (t := 784111777) (fixedZone 3600 (by decide)) (by decide)
  exact absurd (hread.symm.trans h.roundTrip) (by decide)

end Mongrel2

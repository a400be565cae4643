/-
A large body that goes to a temporary file (`connection.c`, `task/fd.c`).

* `TempFile.fdwrite` — `fdwrite`, write for write;
* `Conn.uploadTempFile` — `connection_upload_file` with such a file;
* `uploadFile_eq` — with writes that take all or fail it is the function of
  `HandlerBody`;
* `uploadTempFile_exact` — a body that is stored is the one the client sent.

Design notes: the outcomes are those of `write`, in the order of the calls; behind the
last of them every write takes all it is given.
-/
import Mongrel2.HandlerBody

namespace Mongrel2

open ByteStream

/-! ### Writing to a file -/

/-- What `write` answers. -/
inductive WriteOutcome
  /-- at most that many bytes are taken -/
  | takes (m : ℕ)
  /-- `EAGAIN`, and what the `fdwait` answers that follows -/
  | again (waits : Bool)
  /-- any other error -/
  | fails
  deriving DecidableEq

/-- A temporary file, and what becomes of the writes to it. -/
structure TempFile where
  contents : List Byte
  outcomes : List WriteOutcome

namespace TempFile

/-- The loop of `fdwrite`: its answer, what has been written and the outcomes left. -/
def fdwriteLoop : ℕ → List Byte → List WriteOutcome → ℤ × List Byte × List WriteOutcome
  | tot, xs, [] => (tot + xs.length, xs, [])
  | tot, xs, o :: outcomes =>
    if xs = [] then (tot, [], o :: outcomes)
    else
      match o with
      | .takes m =>
        if m = 0 then (tot, [], outcomes)
        else
          let (rc, out, outcomes) := fdwriteLoop (tot + (xs.take m).length) (xs.drop m) outcomes
          (rc, xs.take m ++ out, outcomes)
      | .again true => fdwriteLoop tot xs outcomes
      | .again false => (-1, [], outcomes)
      | .fails => (-1, [], outcomes)

/-- `fdwrite`. -/
def fdwrite (f : TempFile) (xs : List Byte) : ℤ × TempFile :=
  let (rc, out, outcomes) := fdwriteLoop 0 xs f.outcomes
  (rc, ⟨f.contents ++ out, outcomes⟩)

/-- No `write` answers 0. -/
def NeverZero (f : TempFile) : Prop := .takes 0 ∉ f.outcomes

theorem fdwriteLoop_spec {tot : ℕ} {xs : List Byte} {outcomes : List WriteOutcome}
    (hzero : .takes 0 ∉ outcomes) :
    .takes 0 ∉ (fdwriteLoop tot xs outcomes).2.2 ∧
      ((fdwriteLoop tot xs outcomes).1 = -1 ∨
        (fdwriteLoop tot xs outcomes).1 = tot + xs.length ∧
          (fdwriteLoop tot xs outcomes).2.1 = xs) := by
  induction outcomes generalizing tot xs with
  | nil => exact ⟨hzero, .inr ⟨rfl, rfl⟩⟩
  | cons o outcomes ih =>
    obtain ⟨hne, hzero'⟩ := not_or.mp (List.mem_cons.not.mp hzero)
    by_cases hxs : xs = []
    · subst hxs
      rw [fdwriteLoop.eq_def]
      exact ⟨hzero, .inr ⟨by simp, rfl⟩⟩
    · rw [fdwriteLoop.eq_def]
      dsimp only
      rw [if_neg hxs]
      cases o with
      | takes m =>
        have hm : m ≠ 0 := by
          rintro rfl
          exact hne rfl
        obtain ⟨hrest, hrc⟩ := @ih (tot + (xs.take m).length) (xs.drop m) hzero'
        dsimp only
        rw [if_neg hm]
        refine ⟨hrest, hrc.imp id fun h => ⟨?_, ?_⟩⟩
        · -- what was taken and what is left are all of it
          have hlen : (xs.take m).length + (xs.drop m).length = xs.length := by
            rw [← List.length_append, List.take_append_drop]
          rw [h.1]
          push_cast
          omega
        · show xs.take m ++ _ = xs
          rw [h.2, List.take_append_drop]
      | again waits =>
        cases waits with
        | false => exact ⟨hzero', .inl rfl⟩
        | true => exact ih hzero'
      | fails => exact ⟨hzero', .inl rfl⟩

/-- **A write that does not fail takes all.** -/
theorem fdwrite_spec {f : TempFile} (hzero : f.NeverZero) (xs : List Byte) :
    (f.fdwrite xs).2.NeverZero ∧ ((f.fdwrite xs).1 = -1 ∨
      (f.fdwrite xs).1 = xs.length ∧ (f.fdwrite xs).2.contents = f.contents ++ xs) := by
  obtain ⟨hrest, hrc⟩ := @fdwriteLoop_spec 0 xs f.outcomes hzero
  refine ⟨hrest, hrc.imp id fun h => ⟨?_, ?_⟩⟩
  · rw [Nat.cast_zero, Int.zero_add] at h
    exact h.1
  · show f.contents ++ (fdwriteLoop 0 xs f.outcomes).2.1 = _
    rw [h.2]

end TempFile

/-! ### The upload -/

namespace Conn

variable (lim : Limits) (env : HandlerEnv) (c : Conn)

/-- The loop of `connection_upload_file`; the answer is that `content_len` came down
to 0. -/
def uploadTempLoop : ℕ → ℤ → TempFile → Conn → Bool × TempFile × Conn
  | 0, contentLen, file, c => (contentLen == 0, file, c)
  | n + 1, contentLen, file, c =>
    if contentLen ≤ 0 then (contentLen == 0, file, c)
    else
      let (got, c) := c.recv 0 (min contentLen.toNat lim.bufferSize)
      if got = [] then (false, file, c)
      else
        let (rc, file) := file.fdwrite got
        if rc ≤ 0 then (false, file, c) else uploadTempLoop n (contentLen - rc) file c

/-- `connection_upload_file`: what the file holds, `none` for NULL.  `rc` is 0 after
`Handler_deliver`. -/
def uploadTempFile (outcomes : List WriteOutcome) (headerLen : ℕ) (contentLen : ℤ) :
    Option (List Byte) × Conn :=
  match env.tempStore with
  | none => (none, c.reply 413)
  | some store =>
    if !env.mkstemp then (none, c)
    else
      let c := (c.insertHeader (bytes "X-Mongrel2-Upload-Start") store).payload []
      if !env.deliverNotice then (none, c)
      else
        let (rc, file) :=
          if headerLen < c.nread then
            TempFile.fdwrite ⟨[], outcomes⟩ (c.buf.slice headerLen (c.nread - headerLen))
          else (0, ⟨[], outcomes⟩)
        if headerLen < c.nread ∧ rc ≠ (c.nread - headerLen : ℕ) then (none, c)
        else
          match uploadTempLoop lim contentLen.toNat (contentLen - rc) file { c with nread := 0 } with
          | (true, file, c) => (some file.contents, c.insertHeader (bytes "X-Mongrel2-Upload-Done") store)
          | (false, _, c) => (none, c)

end Conn

/-! ### What is stored -/

section

variable {lim : Limits} {env : HandlerEnv} {c₀ c c' : Conn} {file file' : TempFile}

/-- **The loop stores what the client sends**: as much as was missing, and in order. -/
theorem uploadTempLoop_spec {n : ℕ} {len : ℤ} (hzero : file.NeverZero)
    (h : Conn.uploadTempLoop lim n len file c = (true, file', c')) :
    0 ≤ len ∧ len.toNat ≤ c.sock.stream.length ∧
      file'.contents = file.contents ++ c.sock.stream.take len.toNat := by
  have hend : ∀ {len : ℤ} {file : TempFile} {c : Conn}, (len == 0, file, c) = (true, file', c') →
      0 ≤ len ∧ len.toNat ≤ c.sock.stream.length ∧
        file'.contents = file.contents ++ c.sock.stream.take len.toNat := by
    intro len file c heq
    obtain ⟨hlen, hrest⟩ := Prod.mk.inj heq
    obtain ⟨rfl, -⟩ := Prod.mk.inj hrest
    obtain rfl := eq_of_beq hlen
    exact ⟨le_rfl, Nat.zero_le _, by simp⟩
  induction n generalizing len file c with
  | zero => exact hend h
  | succ n ih =>
    rw [Conn.uploadTempLoop] at h
    split at h
    · exact hend h
    case isFalse hlen =>
      rcases hrecv : c.recv 0 (min len.toNat lim.bufferSize) with ⟨got, c₁⟩
      have hgot : (c.sock.recv (min len.toNat lim.bufferSize)).1 = got := congrArg Prod.fst hrecv
      have hsock : (c.sock.recv (min len.toNat lim.bufferSize)).2 = c₁.sock :=
        congrArg (fun p => p.2.sock) hrecv
      rw [hrecv] at h
      dsimp only at h
      split at h
      · exact absurd (Prod.mk.inj h).1 (by simp)
      · obtain ⟨hzero₁, hrc⟩ := TempFile.fdwrite_spec hzero got
        rcases hwrite : file.fdwrite got with ⟨rc, file₁⟩
        rw [hwrite] at h hzero₁ hrc
        dsimp only at h hrc
        split at h
        · exact absurd (Prod.mk.inj h).1 (by simp)
        case isFalse hpos =>
          obtain ⟨rfl, hcontents⟩ := hrc.resolve_left (by omega)
          obtain ⟨hle, hroom, hrest⟩ := ih hzero₁ h
          -- the stream as what was read now and what is still to come
          have hstream : got ++ c₁.sock.stream = c.sock.stream := by
            rw [← hgot, ← hsock]
            exact c.sock.recv_append _
          have hlen' : len.toNat = got.length + (len - got.length).toNat := by omega
          refine ⟨by omega, ?_, ?_⟩
          · rw [← hstream, List.length_append]
            omega
          · rw [hrest, hcontents, ← hstream, hlen', List.take_length_add_append, List.append_assoc]

/-- What comes behind the first write. -/
theorem uploadTempLoop_some {n : ℕ} {len : ℤ} {store out : List Byte} (hzero : file.NeverZero)
    (h : (match Conn.uploadTempLoop lim n len file { c with nread := 0 } with
      | (true, file, c) => (some file.contents, c.insertHeader (bytes "X-Mongrel2-Upload-Done") store)
      | (false, _, c) => (none, c)).1 = some out) :
    ∃ more, more ≤ c.sock.stream.length ∧ (more : ℤ) = len ∧
      out = file.contents ++ c.sock.stream.take more := by
  rcases hloop : Conn.uploadTempLoop lim n len file { c with nread := 0 } with ⟨b, file', c'⟩
  rw [hloop] at h
  cases b with
  | false => exact absurd h (by simp)
  | true =>
    obtain ⟨hle, hroom, hcontents⟩ := uploadTempLoop_spec hzero hloop
    refine ⟨len.toNat, hroom, Int.toNat_of_nonneg hle, ?_⟩
    rw [← hcontents]
    exact (Option.some.inj h).symm

/-- The first write, of what came with the header. -/
theorem firstWrite_spec {outcomes : List WriteOutcome} {headerLen : ℕ} {rc : ℤ}
    (hzero : .takes 0 ∉ outcomes)
    (hwrite : (if headerLen < c.nread then
        TempFile.fdwrite ⟨[], outcomes⟩ (c.buf.slice headerLen (c.nread - headerLen))
      else (0, ⟨[], outcomes⟩)) = (rc, file)) :
    file.NeverZero ∧ (¬(headerLen < c.nread ∧ rc ≠ (c.nread - headerLen : ℕ)) →
      rc = (c.nread - headerLen : ℕ) ∧
        file.contents = c.buf.slice headerLen (c.nread - headerLen)) := by
  have hfile : TempFile.NeverZero ⟨[], outcomes⟩ := hzero
  split at hwrite
  case isTrue hbody =>
    obtain ⟨hzero₁, hrc⟩ := TempFile.fdwrite_spec hfile (c.buf.slice headerLen (c.nread - headerLen))
    rw [hwrite] at hzero₁ hrc
    refine ⟨hzero₁, fun hok => ?_⟩
    have hall : rc = (c.nread - headerLen : ℕ) := by
      by_contra hne
      exact hok ⟨hbody, hne⟩
    refine ⟨hall, ?_⟩
    rcases hrc with hfail | ⟨-, hcontents⟩
    · dsimp only at hfail
      omega
    · exact hcontents
  case isFalse hbody =>
    obtain ⟨rfl, rfl⟩ := Prod.mk.inj hwrite
    have hnone : c.nread - headerLen = 0 := by omega
    refine ⟨hfile, fun _ => ?_⟩
    rw [hnone]
    exact ⟨rfl, rfl⟩

/-- **A body that is stored** is what stands in the buffer behind the header and then
what is still to come, as long as the request says. -/
theorem uploadTempFile_spec {outcomes : List WriteOutcome} {headerLen : ℕ} {len : ℤ} {out : List Byte}
    (hzero : .takes 0 ∉ outcomes) (h : (c.uploadTempFile lim env outcomes headerLen len).1 = some out) :
    ∃ more, more ≤ c.sock.stream.length ∧ (c.nread - headerLen : ℕ) + (more : ℤ) = len ∧
      out = c.buf.slice headerLen (c.nread - headerLen) ++ c.sock.stream.take more := by
  rw [Conn.uploadTempFile] at h
  cases hstore : env.tempStore with
  | none =>
    rw [hstore] at h
    exact absurd h (by simp)
  | some store =>
    rw [hstore] at h
    dsimp only at h
    -- neither the new header nor the notice touches what is read
    have hbuf : ((c.insertHeader (bytes "X-Mongrel2-Upload-Start") store).payload []).buf = c.buf := rfl
    have hnread : ((c.insertHeader (bytes "X-Mongrel2-Upload-Start") store).payload []).nread =
      c.nread := rfl
    have hsock : ((c.insertHeader (bytes "X-Mongrel2-Upload-Start") store).payload []).sock =
      c.sock := rfl
    generalize (c.insertHeader (bytes "X-Mongrel2-Upload-Start") store).payload [] = c₁ at *
    rw [← hbuf, ← hnread, ← hsock]
    split at h
    · exact absurd h (by simp)
    · split at h
      · exact absurd h (by simp)
      · rcases hwrite : (if headerLen < c₁.nread then
            TempFile.fdwrite ⟨[], outcomes⟩ (c₁.buf.slice headerLen (c₁.nread - headerLen))
          else (0, ⟨[], outcomes⟩)) with ⟨rc, file⟩
        obtain ⟨hzero₁, hfirst⟩ := firstWrite_spec hzero hwrite
        rw [hwrite] at h
        dsimp only at h
        split at h
        · exact absurd h (by simp)
        case isFalse hok =>
          obtain ⟨rfl, hcontents⟩ := hfirst hok
          obtain ⟨more, hroom, hmore, hout⟩ := uploadTempLoop_some hzero₁ h
          refine ⟨more, hroom, by omega, ?_⟩
          rw [hout, hcontents]

/-- **A large body is stored right**: whenever the upload of a request that was read from
the client answers a file, the file holds as many bytes of the client's stream behind the
header as the request says, and in order, however the stream is split and the writes go. -/
theorem uploadTempFile_exact {outcomes : List WriteOutcome} {out : List Byte}
    (hsize : 0 < lim.bufferSize) (halloc : lim.bufferSize < c₀.buf.alloc)
    (hparse : c₀.parse lim = some c) (hzero : .takes 0 ∉ outcomes)
    (h : (c.uploadTempFile lim env outcomes c.req.parser.bodyStart c.req.parser.contentLen).1 =
      some out) :
    out = (c₀.sock.stream.drop c.req.parser.bodyStart).take c.req.parser.contentLen.toNat ∧
      (out.length : ℤ) = c.req.parser.contentLen := by
  have hread := headerRead_of_parse hsize halloc hparse
  have hbody := hread.bodyStart_le
  have hle : c.nread ≤ c₀.sock.stream.length := hread.le
  have hsock : c.sock.stream = c₀.sock.stream.drop c.nread := hread.stream
  obtain ⟨more, hroom, hlen, hout⟩ := uploadTempFile_spec hzero h
  have hslice : c.buf.slice c.req.parser.bodyStart (c.nread - c.req.parser.bodyStart) =
      (c₀.sock.stream.drop c.req.parser.bodyStart).take (c.nread - c.req.parser.bodyStart) :=
    hread.slice_eq (by omega)
  have hdrop : c₀.sock.stream.drop c.nread =
      (c₀.sock.stream.drop c.req.parser.bodyStart).drop (c.nread - c.req.parser.bodyStart) := by
    rw [List.drop_drop, Nat.add_sub_cancel' hbody]
  have hall : c.req.parser.contentLen.toNat = c.nread - c.req.parser.bodyStart + more := by omega
  have heq : out = (c₀.sock.stream.drop c.req.parser.bodyStart).take c.req.parser.contentLen.toNat := by
    rw [hout, hslice, hsock, hdrop, hall, List.take_add]
  refine ⟨heq, ?_⟩
  rw [hsock, List.length_drop] at hroom
  rw [heq, List.length_take, List.length_drop]
  omega

end

/-- A body of five bytes where two are the most that is kept in memory; two of them come
with the header. -/
def uploadConn : Conn :=
  .create ⟨64, 2⟩ [] ⟨bytes "POST /h HTTP/1.1\nContent-Length: 5\n\nabcde", [37, 0]⟩

theorem uploadTempFile_exact_three_pieces :
    ∃ c out, uploadConn.parse ⟨64, 2⟩ = some c ∧ c.nread = c.req.parser.bodyStart + 2 ∧
      out = (uploadConn.sock.stream.drop c.req.parser.bodyStart).take c.req.parser.contentLen.toNat ∧
        (out.length : ℤ) = c.req.parser.contentLen := by
  have hrun : ((uploadConn.parse ⟨64, 2⟩).bind fun c =>
      if c.nread = c.req.parser.bodyStart + 2 then
        (c.uploadTempFile ⟨64, 2⟩ goodEnv [.takes 1, .again true] c.req.parser.bodyStart
          c.req.parser.contentLen).1
      else none) = some (bytes "abcde") := by decide
  obtain ⟨c, hc, hout⟩ := Option.bind_eq_some_iff.mp hrun
  obtain ⟨hnread, hout⟩ := Option.ite_none_right_eq_some.mp hout
  exact ⟨c, _, hc, hnread,
    uploadTempFile_exact (by decide) (by decide) hc (by decide) hout⟩

/-! ### Writes that take all -/

section

variable {lim : Limits} {env : HandlerEnv}

theorem fdwrite_of_nil (contents xs : List Byte) :
    TempFile.fdwrite ⟨contents, []⟩ xs = ((xs.length : ℤ), (⟨contents ++ xs, []⟩ : TempFile)) := by
  simp [TempFile.fdwrite, TempFile.fdwriteLoop]

theorem fdwrite_of_fails (contents : List Byte) {xs : List Byte} (hxs : xs ≠ []) :
    TempFile.fdwrite ⟨contents, [.fails]⟩ xs = (-1, (⟨contents, []⟩ : TempFile)) := by
  simp [TempFile.fdwrite, TempFile.fdwriteLoop, hxs]

/-- The outcomes that a single answer of the file stands for. -/
def HandlerEnv.outcomes (env : HandlerEnv) : List WriteOutcome :=
  if env.fdwrite then [] else [.fails]

theorem uploadLoop_eq (n : ℕ) (len : ℤ) (contents : List Byte) (c : Conn) :
    ∃ outcomes, Conn.uploadTempLoop lim n len ⟨contents, env.outcomes⟩ c =
      ((Conn.uploadLoop lim env n len contents c).1,
        ⟨(Conn.uploadLoop lim env n len contents c).2.1, outcomes⟩,
        (Conn.uploadLoop lim env n len contents c).2.2) := by
  induction n generalizing len contents c with
  | zero => exact ⟨env.outcomes, rfl⟩
  | succ n ih =>
    rw [Conn.uploadTempLoop, Conn.uploadLoop]
    split
    · exact ⟨env.outcomes, rfl⟩
    · rcases c.recv 0 (min len.toNat lim.bufferSize) with ⟨got, c₁⟩
      dsimp only
      by_cases hgot : got = []
      · rw [if_pos hgot, if_pos (.inl hgot)]
        exact ⟨env.outcomes, rfl⟩
      · rw [if_neg hgot]
        cases hfd : env.fdwrite with
        | true =>
          have hout : env.outcomes = [] := if_pos hfd
          have hpos : ¬(got.length : ℤ) ≤ 0 := by
            have hlen := List.length_pos_iff.mpr hgot
            omega
          have hgo : ¬(got = [] ∨ (!true) = true) := by simp [hgot]
          rw [hout, fdwrite_of_nil, if_neg hgo]
          dsimp only
          rw [if_neg hpos, ← hout]
          exact ih ..
        | false =>
          have hout : env.outcomes = [.fails] := if_neg (by simp [hfd])
          have hstop : got = [] ∨ (!false) = true := .inr rfl
          rw [hout, fdwrite_of_fails contents hgot, if_pos hstop]
          exact ⟨[], rfl⟩

/-- **With writes that take all or fail** it is the upload of `connection_http_to_handler`. -/
theorem uploadFile_eq (c : Conn) (headerLen : ℕ) (len : ℤ) :
    c.uploadTempFile lim env env.outcomes headerLen len = c.uploadFile lim env headerLen len := by
  rw [Conn.uploadTempFile, Conn.uploadFile]
  cases env.tempStore with
  | none => rfl
  | some store =>
    dsimp only
    generalize (c.insertHeader (bytes "X-Mongrel2-Upload-Start") store).payload [] = c₁
    generalize len.toNat = n
    by_cases hmk : (!env.mkstemp) = true
    · rw [if_pos hmk, if_pos hmk]
    · rw [if_neg hmk, if_neg hmk]
      by_cases hnotice : (!env.deliverNotice) = true
      · rw [if_pos hnotice, if_pos (.inl hnotice)]
      · rw [if_neg hnotice]
        by_cases hbody : headerLen < c₁.nread
        · have hne : c₁.buf.slice headerLen (c₁.nread - headerLen) ≠ [] := by
            intro hnil
            have hlen := congrArg List.length hnil
            rw [Buffer.length_slice, List.length_nil] at hlen
            omega
          simp only [if_pos hbody]
          cases hfd : env.fdwrite with
          | true =>
            have hout : env.outcomes = [] := if_pos hfd
            rw [hout, fdwrite_of_nil, ← hout]
            obtain ⟨outcomes, heq⟩ := @uploadLoop_eq lim env n (len - (c₁.nread - headerLen : ℕ))
              (c₁.buf.slice headerLen (c₁.nread - headerLen)) { c₁ with nread := 0 }
            simp only [Buffer.length_slice, ne_eq, not_true_eq_false, and_false, if_false,
              List.nil_append, heq]
            refine Eq.trans ?_ (Eq.symm (if_neg (by simp [hnotice])))
            rcases Conn.uploadLoop lim env n (len - (c₁.nread - headerLen : ℕ))
              (c₁.buf.slice headerLen (c₁.nread - headerLen)) { c₁ with nread := 0 } with ⟨b, file, c⟩
            cases b <;> rfl
          | false =>
            have hout : env.outcomes = [.fails] := if_neg (by simp [hfd])
            have hfail : (-1 : ℤ) ≠ (c₁.nread - headerLen : ℕ) := by omega
            rw [hout, fdwrite_of_fails _ hne]
            simp [hbody, hfail]
        · -- nothing came with the header
          have hnone : c₁.nread - headerLen = 0 := by omega
          have hslice : c₁.buf.slice headerLen 0 = [] := rfl
          obtain ⟨outcomes, heq⟩ := @uploadLoop_eq lim env n (len - 0) [] { c₁ with nread := 0 }
          simp only [hbody, false_and, if_false, hnone, hslice, List.length_nil, Nat.cast_zero, heq]
          refine Eq.trans ?_ (Eq.symm (if_neg (by simp [hnotice])))
          rcases Conn.uploadLoop lim env n (len - 0) [] { c₁ with nread := 0 } with ⟨b, file, c⟩
          cases b <;> rfl

end

end Mongrel2

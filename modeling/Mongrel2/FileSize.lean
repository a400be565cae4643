/-
How much of a file is sent (`dir.c`).

* `FileInfo.header` — the header of a record, as `Dir_find_file` formats it;
* `streamFile` — `Dir_stream_file`, for what the socket and the file answer;
* **`sizesAgree_iff`** — when the length that is announced, the bytes that are sent and the
  size of the file are the same.

Design notes: of the bytes of a file only the number is kept.  A call that fails answers 0,
like one at the end of the file.  Nothing is said of the size that a file has while it is
sent: `sendfile` and `read` answer what there is.
-/
import Mongrel2.DateHeader

namespace Mongrel2.FileSize

open ByteStream HttpParser TimeFormat

/-- What the header of a record is formatted from; the size is `st_size`. -/
structure FileInfo where
  date : List Byte
  contentType : List Byte
  mtime : ℤ
  size : ℕ

namespace FileInfo

variable (f : FileInfo)

/-- `%d` takes the low 32 bits of the size. -/
def contentLength : ℤ := toInt f.size

def etag : List Byte := hexDigits f.mtime ++ chr '-' :: hexDigits f.size

/-- `RESPONSE_FORMAT`. -/
def header : List Byte :=
  bytes "HTTP/1.1 200 OK\r\nDate: " ++ f.date ++ bytes "\r\nContent-Type: " ++ f.contentType ++
    bytes "\r\nContent-Length: " ++ decimal f.contentLength ++
    bytes "\r\nLast-Modified: " ++ lastMod f.mtime ++ bytes "\r\nETag: " ++ f.etag ++
    bytes "\r\nServer: Mongrel2/1.2-d5224c71cb\r\n\r\n"

end FileInfo

/-! ### Sending -/

/-- Whether the socket can be written to, and what `sendfile` answers then. -/
structure PlainCall where
  writable : Bool
  answer : ℕ

/-- What `fdread` answers, and then `conn->send`, until the block is sent. -/
structure Block where
  length : ℕ
  sends : List ℕ

inductive Body
  | plain (calls : List PlainCall)
  /-- with `ssl` the file is opened again -/
  | ssl (opens : Bool) (blocks : List Block)

/-- What is answered to the calls of one transfer. -/
structure Transfer where
  header : ℤ
  body : Body

/-- How many bytes of the file were sent, how many were counted, and whether no call failed. -/
structure Sent where
  sent : ℕ
  total : ℕ
  ok : Bool
  deriving DecidableEq

/-- The loop over `sendfile`, which is asked for whole blocks.  When there is no call left the
wait for the socket fails. -/
def sendfileLoop (blockSize size : ℕ) : List PlainCall → ℕ → Sent
  | [], total => ⟨total, total, true⟩
  | c :: calls, total =>
    if c.writable ∧ total < size then
      let sent := min c.answer blockSize
      if 0 < sent then sendfileLoop blockSize size calls (total + sent) else ⟨total, total, false⟩
    else ⟨total, total, true⟩

/-- The loop over `conn->send`: how much of `nread` bytes was sent, and whether all of it. -/
def sendBlock : List ℕ → ℕ → ℕ × Bool
  | _, 0 => (0, true)
  | [], _ + 1 => (0, false)
  | amt :: sends, nread + 1 =>
    if 0 < amt then
      let (sent, ok) := sendBlock sends (nread + 1 - amt)
      (min amt (nread + 1) + sent, ok)
    else (0, false)

/-- The loop over `fdread`. -/
def fdreadLoop (blockSize : ℕ) : List Block → Sent
  | [] => ⟨0, 0, true⟩
  | b :: blocks =>
    let nread := min b.length blockSize
    if 0 < nread then
      match sendBlock b.sends nread with
      | (sent, true) =>
        let r := fdreadLoop blockSize blocks
        ⟨sent + r.sent, nread + r.total, r.ok⟩
      | (sent, false) => ⟨sent, 0, false⟩
    else ⟨0, 0, true⟩

/-- `Dir_stream_file`: the bytes of the file that were sent, and what is returned. -/
def streamFile (blockSize : ℕ) (f : FileInfo) (t : Transfer) : ℕ × ℤ :=
  -- `Dir_send_header`
  if t.header = f.header.length then
    let r :=
      match t.body with
      | .plain calls => sendfileLoop blockSize f.size calls 0
      | .ssl true blocks => fdreadLoop blockSize blocks
      | .ssl false _ => ⟨0, 0, false⟩
    (r.sent, if r.ok ∧ r.total = f.size then toInt r.total else -1)
  else (0, -1)

/-- `Dir_serve_file` takes the response to be sent. -/
def served (blockSize : ℕ) (f : FileInfo) (t : Transfer) : Bool :=
  (streamFile blockSize f t).2 = f.size

/-- The length that is announced is the size, no more is sent, and the response counts as sent
exactly if that much was sent. -/
structure SizesAgree (blockSize : ℕ) (f : FileInfo) (t : Transfer) : Prop where
  announced : f.contentLength = f.size
  bounded : (streamFile blockSize f t).1 ≤ f.size
  success : served blockSize f t = true ↔ (streamFile blockSize f t).1 = f.size

/-! ### What is answered -/

/-- What `sendfile` sends, call by call, while nothing fails. -/
def amounts (blockSize : ℕ) (calls : List PlainCall) : List ℕ :=
  ((calls.takeWhile (·.writable)).map fun c => min c.answer blockSize).takeWhile (0 < ·)

/-- What `conn->send` takes before it fails. -/
def Block.taken (b : Block) : ℕ := (b.sends.takeWhile (0 < ·)).sum

/-- A block that is read, and sent as a whole. -/
def Block.delivered (blockSize : ℕ) (b : Block) : Bool :=
  0 < min b.length blockSize ∧ min b.length blockSize ≤ b.taken

/-- The block at which sending ends, if there is one. -/
def lastBlock (blockSize : ℕ) (blocks : List Block) : Option Block :=
  (blocks.dropWhile (·.delivered blockSize)).head?

/-- The bytes of the delivered blocks, and of the last one. -/
def delivery (blockSize : ℕ) (blocks : List Block) : ℕ :=
  ((blocks.takeWhile (·.delivered blockSize)).map fun b => min b.length blockSize).sum +
    (lastBlock blockSize blocks).elim 0 fun b => min (min b.length blockSize) b.taken

/-- The answers end at the size of the file: none goes beyond it, and if there is a failure it
comes before. -/
def Fits (blockSize : ℕ) (f : FileInfo) (t : Transfer) : Prop :=
  if t.header = f.header.length then
    match t.body with
    | .plain calls =>
      (amounts blockSize calls).sum ≤ f.size ∨
        ∃ n, ((amounts blockSize calls).take n).sum = f.size
    | .ssl true blocks =>
      if (lastBlock blockSize blocks).all fun b => min b.length blockSize = 0 then
        delivery blockSize blocks ≤ f.size
      else delivery blockSize blocks < f.size
    | .ssl false _ => 0 < f.size
  else 0 < f.size

section

variable {blockSize size total : ℕ} {f : FileInfo} {t : Transfer}

theorem amounts_cons (c : PlainCall) (calls : List PlainCall) :
    amounts blockSize (c :: calls) =
      if c.writable ∧ 0 < min c.answer blockSize then
        min c.answer blockSize :: amounts blockSize calls
      else [] := by
  unfold amounts
  cases hw : c.writable
  · rw [List.takeWhile_cons_of_neg (by simp [hw])]
    rfl
  · rw [List.takeWhile_cons_of_pos hw, List.map_cons]
    by_cases ha : 0 < min c.answer blockSize
    · rw [List.takeWhile_cons_of_pos (by simpa using ha), if_pos ⟨rfl, ha⟩]
    · rw [List.takeWhile_cons_of_neg (by simpa using ha), if_neg fun h => ha h.2]

theorem sendfileLoop_of_le (calls : List PlainCall) (h : size ≤ total) :
    sendfileLoop blockSize size calls total = ⟨total, total, true⟩ := by
  cases calls with
  | nil => rfl
  | cons c calls => rw [sendfileLoop, if_neg fun hlt => absurd hlt.2 (Nat.not_lt.mpr h)]

/-- What the loop over `sendfile` comes to: it ends once the size is reached or passed. -/
theorem sendfileLoop_spec (calls : List PlainCall) (htotal : total ≤ size) :
    let r := sendfileLoop blockSize size calls total
    r.total = r.sent ∧ (r.ok = false → r.sent ≠ size) ∧
      (r.sent ≤ size ↔ total + (amounts blockSize calls).sum ≤ size ∨
        ∃ n, total + ((amounts blockSize calls).take n).sum = size) := by
  induction calls generalizing total with
  | nil => exact ⟨rfl, by simp [sendfileLoop], iff_of_true htotal (.inl htotal)⟩
  | cons c calls ih =>
    obtain hreached | hlt := htotal.eq_or_lt
    · rw [sendfileLoop_of_le _ hreached.ge]
      exact ⟨rfl, by simp, iff_of_true htotal (.inr ⟨0, hreached⟩)⟩
    rw [sendfileLoop, amounts_cons]
    by_cases hw : c.writable = true
    · rw [if_pos ⟨hw, hlt⟩]
      dsimp only
      by_cases ha : 0 < min c.answer blockSize
      · rw [if_pos ha, if_pos ⟨hw, ha⟩, List.sum_cons]
        by_cases hle : total + min c.answer blockSize ≤ size
        · obtain ⟨hsame, hfail, hiff⟩ := ih hle
          refine ⟨hsame, hfail, hiff.trans (or_congr (by omega) ?_)⟩
          -- no sum of nothing at all is the size yet
          constructor
          · rintro ⟨n, hn⟩
            exact ⟨n + 1, by rw [List.take_succ_cons, List.sum_cons]; omega⟩
          · rintro ⟨n, hn⟩
            cases n with
            | zero => exact absurd hn hlt.ne
            | succ n =>
              rw [List.take_succ_cons, List.sum_cons] at hn
              exact ⟨n, by omega⟩
        · rw [sendfileLoop_of_le _ (Nat.not_le.mp hle).le]
          refine ⟨rfl, by simp, iff_of_false hle ?_⟩
          rintro (hle | ⟨n, hn⟩)
          · omega
          · cases n with
            | zero => exact absurd hn hlt.ne
            | succ n =>
              rw [List.take_succ_cons, List.sum_cons] at hn
              omega
      · rw [if_neg ha, if_neg fun h => ha h.2]
        exact ⟨rfl, fun _ => hlt.ne, iff_of_true htotal (.inl htotal)⟩
    · rw [if_neg fun h => hw h.1, if_neg fun h => hw h.1]
      exact ⟨rfl, by simp, iff_of_true htotal (.inl htotal)⟩

theorem sendBlock_eq (sends : List ℕ) (nread : ℕ) :
    sendBlock sends nread =
      (min nread (sends.takeWhile (0 < ·)).sum, decide (nread ≤ (sends.takeWhile (0 < ·)).sum)) := by
  induction sends, nread using sendBlock.induct with
  | case1 sends => simp [sendBlock]
  | case2 nread => simp [sendBlock]
  | case3 amt sends nread hpos sent ok hrec ih =>
    rw [sendBlock, if_pos hpos, ih, List.takeWhile_cons_of_pos (by simpa using hpos), List.sum_cons]
    refine Prod.ext ?_ ?_
    · dsimp only
      omega
    · dsimp only
      rw [decide_eq_decide]
      omega
  | case4 amt sends nread hpos =>
    rw [sendBlock, if_neg hpos, List.takeWhile_cons_of_neg (by simpa using hpos)]
    simp

theorem delivered_iff {b : Block} :
    b.delivered blockSize = true ↔
      0 < min b.length blockSize ∧ min b.length blockSize ≤ b.taken :=
  decide_eq_true_iff

theorem delivery_cons_of_delivered {b : Block} (blocks : List Block)
    (h : b.delivered blockSize = true) :
    delivery blockSize (b :: blocks) = min b.length blockSize + delivery blockSize blocks ∧
      lastBlock blockSize (b :: blocks) = lastBlock blockSize blocks := by
  have hlast : lastBlock blockSize (b :: blocks) = lastBlock blockSize blocks := by
    rw [lastBlock, List.dropWhile_cons_of_pos h, lastBlock]
  refine ⟨?_, hlast⟩
  rw [delivery, hlast, List.takeWhile_cons_of_pos h, List.map_cons, List.sum_cons, delivery,
    Nat.add_assoc]

theorem delivery_cons_of_not_delivered {b : Block} (blocks : List Block)
    (h : ¬ b.delivered blockSize = true) :
    delivery blockSize (b :: blocks) = min (min b.length blockSize) b.taken ∧
      lastBlock blockSize (b :: blocks) = some b := by
  have hlast : lastBlock blockSize (b :: blocks) = some b := by
    rw [lastBlock, List.dropWhile_cons_of_neg h]
    rfl
  refine ⟨?_, hlast⟩
  rw [delivery, hlast, List.takeWhile_cons_of_neg h]
  exact Nat.zero_add _

/-- What the loop over `fdread` comes to: the delivered blocks and what was sent of the last. -/
theorem fdreadLoop_spec (blocks : List Block) :
    let r := fdreadLoop blockSize blocks
    r.sent = delivery blockSize blocks ∧
      r.ok = (lastBlock blockSize blocks).all (fun b => min b.length blockSize = 0) ∧
        (r.ok = true → r.total = r.sent) := by
  induction blocks with
  | nil => exact ⟨rfl, rfl, fun _ => rfl⟩
  | cons b blocks ih =>
    obtain ⟨hsent, hok, htotal⟩ := ih
    rw [fdreadLoop]
    dsimp only
    by_cases hdel : b.delivered blockSize = true
    · obtain ⟨hdelivery, hlast⟩ := delivery_cons_of_delivered blocks hdel
      have hdel' := delivered_iff.mp hdel
      have hsend : sendBlock b.sends (min b.length blockSize) = (min b.length blockSize, true) := by
        rw [sendBlock_eq, Prod.mk.injEq, decide_eq_true_eq]
        exact ⟨Nat.min_eq_left hdel'.2, hdel'.2⟩
      rw [if_pos hdel'.1, hsend, hdelivery, hlast]
      exact ⟨by rw [hsent], hok, fun h => by rw [htotal h]⟩
    · obtain ⟨hdelivery, hlast⟩ := delivery_cons_of_not_delivered blocks hdel
      rw [hdelivery, hlast]
      by_cases hpos : 0 < min b.length blockSize
      · have hshort : ¬ min b.length blockSize ≤ b.taken := fun hle =>
          hdel (delivered_iff.mpr ⟨hpos, hle⟩)
        have hsend : sendBlock b.sends (min b.length blockSize) =
            (min (min b.length blockSize) b.taken, false) := by
          rw [sendBlock_eq, Prod.mk.injEq, decide_eq_false_iff_not]
          exact ⟨rfl, hshort⟩
        rw [if_pos hpos, hsend]
        refine ⟨rfl, ?_, fun h => absurd h (by simp)⟩
        exact (decide_eq_false hpos.ne').symm
      · have hzero : min b.length blockSize = 0 := Nat.eq_zero_of_not_pos hpos
        rw [if_neg hpos, hzero]
        exact ⟨(Nat.zero_min _).symm, (decide_eq_true hzero).symm, fun _ => rfl⟩

theorem toInt_natCast_eq_iff {n : ℕ} : toInt n = n ↔ n < 2 ^ 31 := by
  refine ⟨fun h => ?_, fun h => toInt_eq_self ⟨by omega, by omega⟩⟩
  have hlt : toInt n < 2 ^ 31 := by
    have hbound := Int.bmod_lt (x := (n : ℤ)) (m := 2 ^ 32) (by decide)
    unfold toInt
    omega
  omega

/-- What is returned is the size exactly if that much was counted and no call failed. -/
theorem streamFile_of_header (h : t.header = f.header.length) {r : Sent}
    (hr : r = match t.body with
      | .plain calls => sendfileLoop blockSize f.size calls 0
      | .ssl true blocks => fdreadLoop blockSize blocks
      | .ssl false _ => ⟨0, 0, false⟩)
    (hsize : f.size < 2 ^ 31) :
    (streamFile blockSize f t).1 = r.sent ∧
      (served blockSize f t = true ↔ r.ok = true ∧ r.total = f.size) := by
  have heq : streamFile blockSize f t =
      (r.sent, if r.ok ∧ r.total = f.size then toInt r.total else -1) := by
    rw [streamFile, if_pos h, hr]
  rw [served, heq]
  refine ⟨rfl, ?_⟩
  dsimp only
  rw [decide_eq_true_eq]
  split
  · next hcond =>
    rw [hcond.2]
    exact iff_of_true (toInt_natCast_eq_iff.mpr hsize) ⟨hcond.1, rfl⟩
  · next hcond => exact iff_of_false (by omega) hcond

/-- **The sizes agree** exactly if the size is an `int`, and what is answered ends at it. -/
theorem sizesAgree_iff (blockSize : ℕ) (f : FileInfo) (t : Transfer) :
    SizesAgree blockSize f t ↔ f.size < 2 ^ 31 ∧ Fits blockSize f t := by
  by_cases hsize : f.size < 2 ^ 31
  · have hannounced : f.contentLength = f.size := toInt_natCast_eq_iff.mpr hsize
    rw [and_iff_right hsize]
    suffices h : (streamFile blockSize f t).1 ≤ f.size ∧
        (served blockSize f t = true ↔ (streamFile blockSize f t).1 = f.size) ↔
          Fits blockSize f t from
      ⟨fun ha => h.mp ⟨ha.bounded, ha.success⟩, fun hf =>
        ⟨hannounced, (h.mpr hf).1, (h.mpr hf).2⟩⟩
    by_cases hheader : t.header = f.header.length
    · have hstream := @streamFile_of_header blockSize f t hheader _ rfl hsize
      rw [hstream.1, hstream.2, Fits, if_pos hheader]
      obtain ⟨answer, body⟩ := t
      cases body with
      | plain calls =>
        obtain ⟨htotal, hfail, hiff⟩ := @sendfileLoop_spec blockSize _ _ calls
          (Nat.zero_le f.size)
        dsimp only at htotal hfail hiff ⊢
        simp only [Nat.zero_add] at hiff
        rw [htotal, hiff, and_iff_left_iff_imp]
        refine fun _ => and_iff_right_of_imp fun hsent => ?_
        by_contra hok
        exact hfail (Bool.eq_false_iff.mpr hok) hsent
      | ssl opens blocks =>
        cases opens with
        | false =>
          show 0 ≤ f.size ∧ (false = true ∧ 0 = f.size ↔ 0 = f.size) ↔ 0 < f.size
          rw [and_iff_right (Nat.zero_le _), Nat.pos_iff_ne_zero]
          simp [eq_comm]
        | true =>
          obtain ⟨hsent, hok, htotal⟩ := @fdreadLoop_spec blockSize blocks
          dsimp only at hsent hok htotal ⊢
          rw [hsent] at htotal ⊢
          rw [← hok]
          cases h : (fdreadLoop blockSize blocks).ok with
          | false => simp; omega
          | true => simp [htotal h]
    · have hstream : streamFile blockSize f t = (0, -1) := if_neg hheader
      rw [served, hstream, Fits, if_neg hheader]
      dsimp only
      rw [decide_eq_true_eq]
      omega
  · exact iff_of_false (fun h => hsize (toInt_natCast_eq_iff.mp h.announced)) fun h => hsize h.1

end

/-- A file of five bytes. -/
def fiveBytes : FileInfo := ⟨[], bytes "text/plain", 784111777, 5⟩

/-- When it has grown to eight bytes they are all sent. -/
theorem not_sizesAgree_grown :
    ¬ SizesAgree 16384 fiveBytes ⟨fiveBytes.header.length, .plain [⟨true, 8⟩, ⟨true, 0⟩]⟩ := by
  intro h
  have hsent : (streamFile 16384 fiveBytes
      ⟨fiveBytes.header.length, .plain [⟨true, 8⟩, ⟨true, 0⟩]⟩).1 = 8 := by
    rw [streamFile, if_pos rfl]
    rfl
  exact absurd (hsent ▸ h.bounded) (by decide)

end Mongrel2.FileSize

/-
Byte streams: a socket that delivers its bytes in pieces, and a buffer they are
read into.

* `Socket.recv` — one `recv` call; the `cuts` decide how much it returns, so a
  statement for all `cuts` is one for every way the bytes are split;
* `Buffer` — an allocation, with a flag that records a write outside it;
* `fill`, `fill_spec` — the loop that reads a known number of bytes: however the
  bytes are split, it writes them once, in order, and takes no more.
-/
import Mathlib.Data.List.Basic
import Mathlib.Data.UInt
import Mathlib.Tactic.Common

namespace ByteStream

abbrev Byte := UInt8

/-! ### The socket -/

/-- The bytes to come, and how many of them (less one) each `recv` may find.
Once the cuts run out, a `recv` finds all it asks for. -/
structure Socket where
  stream : List Byte
  cuts : List ℕ
  deriving DecidableEq, Repr

/-- `recv` of at most `len` bytes; the empty list is a return value of 0. -/
def Socket.recv (s : Socket) (len : ℕ) : List Byte × Socket :=
  match s.cuts with
  | [] => (s.stream.take len, ⟨s.stream.drop len, []⟩)
  | c :: cs => (s.stream.take (min len (c + 1)), ⟨s.stream.drop (min len (c + 1)), cs⟩)

theorem Socket.recv_spec (s : Socket) (len : ℕ) :
    ∃ k ≤ len, (s.recv len).1 = s.stream.take k ∧ (s.recv len).2.stream = s.stream.drop k ∧
      (0 < len → 0 < k) := by
  unfold Socket.recv
  split
  · exact ⟨len, le_rfl, rfl, rfl, id⟩
  · exact ⟨_, Nat.min_le_left .., rfl, rfl, fun h => by omega⟩

theorem Socket.recv_append (s : Socket) (len : ℕ) :
    (s.recv len).1 ++ (s.recv len).2.stream = s.stream := by
  obtain ⟨k, -, h₁, h₂, -⟩ := s.recv_spec len
  rw [h₁, h₂, List.take_append_drop]

theorem Socket.length_recv_le (s : Socket) (len : ℕ) : (s.recv len).1.length ≤ len := by
  obtain ⟨k, hk, h₁, -, -⟩ := s.recv_spec len
  rw [h₁, List.length_take]
  omega

theorem Socket.recv_eq_nil {s : Socket} {len : ℕ} (hlen : 0 < len) :
    (s.recv len).1 = [] ↔ s.stream = [] := by
  obtain ⟨k, -, h₁, -, hk⟩ := s.recv_spec len
  have hk : k ≠ 0 := (hk hlen).ne'
  rw [h₁, List.take_eq_nil_iff]
  simp [hk]

/-! ### The buffer -/

/-- An allocation of `alloc` bytes.  A write outside it stores the bytes in what
follows and sets `overrun`. -/
structure Buffer where
  mem : ℕ → Byte
  alloc : ℕ
  overrun : Bool

namespace Buffer

/-- `calloc`. -/
def zeroed (n : ℕ) : Buffer := ⟨fun _ => 0, n, false⟩

/-- Store `xs` from position `pos` on. -/
def write (b : Buffer) (pos : ℕ) (xs : List Byte) : Buffer where
  mem i := if pos ≤ i then (xs[i - pos]?).getD (b.mem i) else b.mem i
  alloc := b.alloc
  overrun := b.overrun || decide (xs ≠ [] ∧ b.alloc < pos + xs.length)

/-- The `n` bytes from position `pos` on. -/
def slice (b : Buffer) (pos n : ℕ) : List Byte := (List.range n).map fun i => b.mem (pos + i)

/-- `realloc`, which keeps the contents. -/
def realloc (b : Buffer) (n : ℕ) : Buffer := { b with alloc := n }

variable (b : Buffer) (pos n : ℕ) (xs ys : List Byte)

@[simp] theorem length_slice : (b.slice pos n).length = n := by simp [slice]

theorem slice_add (m : ℕ) : b.slice pos (m + n) = b.slice pos m ++ b.slice (pos + m) n := by
  simp only [slice, List.range_add, List.map_append, List.map_map]
  congr 1
  exact List.map_congr_left fun i _ => congrArg b.mem (add_assoc ..).symm

theorem take_slice {m : ℕ} (h : m ≤ n) : (b.slice pos n).take m = b.slice pos m := by
  obtain ⟨k, rfl⟩ := Nat.exists_eq_add_of_le h
  rw [slice_add]
  exact List.take_left' (length_slice ..)

theorem drop_slice {m : ℕ} (h : m ≤ n) : (b.slice pos n).drop m = b.slice (pos + m) (n - m) := by
  obtain ⟨k, rfl⟩ := Nat.exists_eq_add_of_le h
  rw [slice_add, Nat.add_sub_cancel_left]
  exact List.drop_left' (length_slice ..)

theorem slice_write : (b.write pos xs).slice pos xs.length = xs := by
  refine List.ext_getElem (length_slice ..) fun i h₁ h₂ => ?_
  simp [slice, write, List.getElem?_eq_getElem h₂]

theorem slice_write_of_le {p : ℕ} (h : p + n ≤ pos) :
    (b.write pos xs).slice p n = b.slice p n := by
  refine List.map_congr_left fun i hi => ?_
  have hi : i < n := List.mem_range.mp hi
  have hlt : ¬ pos ≤ p + i := by omega
  simp [write, hlt]

theorem write_nil : b.write pos [] = b := by
  simp [write]

theorem write_write :
    (b.write pos xs).write (pos + xs.length) ys = b.write pos (xs ++ ys) := by
  have hmem : ((b.write pos xs).write (pos + xs.length) ys).mem = (b.write pos (xs ++ ys)).mem := by
    funext i
    simp only [write, List.getElem?_append]
    by_cases h₁ : pos + xs.length ≤ i
    · have h₂ : pos ≤ i := by omega
      have h₃ : ¬ i - pos < xs.length := by omega
      have h₄ : i - (pos + xs.length) = i - pos - xs.length := by omega
      simp [h₁, h₂, h₃, h₄]
    · by_cases h₂ : pos ≤ i
      · have h₃ : i - pos < xs.length := by omega
        simp [h₁, h₂, h₃]
      · simp [h₁, h₂]
  have hover : ((b.write pos xs).write (pos + xs.length) ys).overrun =
      (b.write pos (xs ++ ys)).overrun := by
    refine Bool.eq_iff_iff.mpr ?_
    simp only [write, Bool.or_eq_true, decide_eq_true_eq, List.length_append, or_assoc]
    refine or_congr_right ?_
    rcases xs with _ | ⟨x, xs⟩ <;> rcases ys with _ | ⟨y, ys⟩ <;> simp
    omega
  exact (Buffer.mk.injEq ..).mpr ⟨hmem, rfl, hover⟩

theorem mem_write_of_le {i : ℕ} (h : pos + xs.length ≤ i) : (b.write pos xs).mem i = b.mem i := by
  have hle : xs.length ≤ i - pos := by omega
  simp [write, List.getElem?_eq_none hle]

/-- Bytes stored right after a slice extend it. -/
theorem slice_write_append :
    (b.write n xs).slice 0 (n + xs.length) = b.slice 0 n ++ xs := by
  rw [slice_add, zero_add, slice_write, slice_write_of_le _ _ _ _ (by omega)]

theorem overrun_write :
    (b.write pos xs).overrun = true ↔ b.overrun = true ∨ xs ≠ [] ∧ b.alloc < pos + xs.length := by
  simp [write]

end Buffer

/-! ### Reading a known number of bytes -/

/-- The state a read loop ends in, and whether it got all it wanted. -/
structure Filled where
  buf : Buffer
  sock : Socket
  complete : Bool

/-- `recv` into `pos` until `remaining` bytes have come, in at most `n` calls. -/
def fillLoop : ℕ → Buffer → Socket → ℕ → ℕ → Filled
  | 0, b, s, _, remaining => ⟨b, s, remaining == 0⟩
  | n + 1, b, s, pos, remaining =>
    if remaining = 0 then ⟨b, s, true⟩
    else
      let (got, s') := s.recv remaining
      if got = [] then ⟨b, s', false⟩
      else fillLoop n (b.write pos got) s' (pos + got.length) (remaining - got.length)

/-- Each `recv` brings a byte, so `remaining` calls are enough. -/
def fill (b : Buffer) (s : Socket) (pos remaining : ℕ) : Filled :=
  fillLoop remaining b s pos remaining

theorem fillLoop_spec (n : ℕ) (b : Buffer) (s : Socket) (pos remaining : ℕ) (h : remaining ≤ n) :
    (fillLoop n b s pos remaining).buf = b.write pos (s.stream.take remaining) ∧
      (fillLoop n b s pos remaining).sock.stream = s.stream.drop remaining ∧
      ((fillLoop n b s pos remaining).complete = true ↔ remaining ≤ s.stream.length) := by
  induction n generalizing b s pos remaining with
  | zero =>
    obtain rfl : remaining = 0 := by omega
    simp [fillLoop, Buffer.write_nil]
  | succ n ih =>
    by_cases hr : remaining = 0
    · subst hr
      simp [fillLoop, Buffer.write_nil]
    · obtain ⟨k, hk, hgot, hrest, hpos⟩ := s.recv_spec remaining
      have hkpos : 0 < k := hpos (by omega)
      by_cases hnil : (s.recv remaining).1 = []
      · have hs : s.stream = [] := (Socket.recv_eq_nil (by omega)).mp hnil
        have hr' : ¬ remaining ≤ 0 := by omega
        simp [fillLoop, hr, hnil, hrest, hs, Buffer.write_nil, hr']
      · have hlen : (s.recv remaining).1.length ≤ remaining := s.length_recv_le remaining
        have hne : 0 < (s.recv remaining).1.length := List.length_pos_iff.mpr hnil
        obtain ⟨hbuf, hsock, hcomplete⟩ := ih (b.write pos (s.recv remaining).1) (s.recv remaining).2
          (pos + (s.recv remaining).1.length) (remaining - (s.recv remaining).1.length) (by omega)
        have hstream := s.recv_append remaining
        simp only [fillLoop, hr, hnil, if_false]
        refine ⟨?_, ?_, ?_⟩
        · rw [hbuf, Buffer.write_write]
          congr 1
          conv_rhs => rw [← hstream, List.take_append, List.take_of_length_le hlen]
        · rw [hsock]
          conv_rhs => rw [← hstream, List.drop_append, List.drop_eq_nil_of_le hlen, List.nil_append]
        · rw [hcomplete]
          conv_rhs => rw [← hstream, List.length_append]
          omega

/-- **The read loop is exact**, however the stream is split. -/
theorem fill_spec (b : Buffer) (s : Socket) (pos remaining : ℕ) :
    (fill b s pos remaining).buf = b.write pos (s.stream.take remaining) ∧
      (fill b s pos remaining).sock.stream = s.stream.drop remaining ∧
      ((fill b s pos remaining).complete = true ↔ remaining ≤ s.stream.length) :=
  fillLoop_spec remaining b s pos remaining le_rfl

end ByteStream

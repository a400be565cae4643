/-
Numerals and netstrings over bytes.

* `Decimal.write`, `Decimal.read` — a number as its decimal digits;
* `Decimal.writeInt`, `Decimal.readInt` — the same with a sign;
* `Bytes.cut` — what stands before and behind the first separator;
* `Netstring.write`, `Netstring.read` — `SIZE:DATA,`, from the start of a text.
-/
import Mathlib.Data.Nat.Digits.Lemmas

/-! ### Decimal numerals -/

namespace Decimal

/-- The byte of a digit. -/
def digit (d : ℕ) : UInt8 := UInt8.ofNat (48 + d)

def isDigit (c : UInt8) : Bool := 48 ≤ c.toNat && c.toNat ≤ 57

/-- The digits of a number. -/
def write (n : ℕ) : List UInt8 :=
  if n = 0 then [digit 0] else ((Nat.digits 10 n).map digit).reverse

/-- The number that digits denote. -/
def value (xs : List UInt8) : ℕ := xs.foldl (fun n c => 10 * n + (c.toNat - 48)) 0

/-- Read a number that is all of the text. -/
def read (xs : List UInt8) : Option ℕ :=
  if xs ≠ [] ∧ xs.all isDigit then some (value xs) else none

def writeInt : ℤ → List UInt8
  | .ofNat n => write n
  | .negSucc n => 45 :: write (n + 1)

def readInt : List UInt8 → Option ℤ
  | 45 :: xs => (read xs).map fun n => -(n : ℤ)
  | xs => (read xs).map fun n => (n : ℤ)

theorem toNat_digit {d : ℕ} (h : d < 10) : (digit d).toNat = 48 + d := by
  rw [digit, UInt8.toNat_ofNat']
  omega

theorem isDigit_digit {d : ℕ} (h : d < 10) : isDigit (digit d) = true := by
  rw [isDigit, toNat_digit h]
  simp
  omega

theorem write_ne_nil (n : ℕ) : write n ≠ [] := by
  unfold write
  split
  · simp
  · simpa using Nat.digits_ne_nil_iff_ne_zero.mpr ‹_›

theorem isDigit_of_mem_write {n : ℕ} {c : UInt8} (h : c ∈ write n) : isDigit c = true := by
  unfold write at h
  split at h
  · rw [List.mem_singleton] at h
    exact h ▸ isDigit_digit (by omega)
  · obtain ⟨d, hd, rfl⟩ := List.mem_map.mp (List.mem_reverse.mp h)
    exact isDigit_digit (Nat.digits_lt_base (by omega) hd)

theorem value_reverse_map {ds : List ℕ} (h : ∀ d ∈ ds, d < 10) :
    value (ds.map digit).reverse = Nat.ofDigits 10 ds := by
  rw [value, List.foldl_reverse]
  induction ds with
  | nil => rfl
  | cons d ds ih =>
    rw [List.map_cons, List.foldr_cons, ih fun e he => h e (List.mem_cons_of_mem d he),
      toNat_digit (h d (List.mem_cons_self ..)), Nat.ofDigits_cons]
    simp
    omega

theorem value_write (n : ℕ) : value (write n) = n := by
  unfold write
  split
  · subst ‹n = 0›
    rfl
  · rw [value_reverse_map fun d hd => Nat.digits_lt_base (by omega) hd, Nat.ofDigits_digits]

@[simp] theorem read_write (n : ℕ) : read (write n) = some n := by
  have hall : (write n).all isDigit = true :=
    List.all_eq_true.mpr fun c hc => isDigit_of_mem_write hc
  rw [read, if_pos ⟨write_ne_nil n, hall⟩, value_write]

theorem not_mem_write {n : ℕ} {c : UInt8} (hc : isDigit c = false) : c ∉ write n := by
  intro h
  rw [isDigit_of_mem_write h] at hc
  exact absurd hc (by simp)

theorem not_mem_writeInt {n : ℤ} {c : UInt8} (hc : isDigit c = false) (hminus : c ≠ 45) :
    c ∉ writeInt n := by
  cases n with
  | ofNat n => exact not_mem_write hc
  | negSucc n => exact List.not_mem_cons_of_ne_of_not_mem hminus (not_mem_write hc)

theorem readInt_of_head_ne {xs : List UInt8} (h : xs.head? ≠ some 45) :
    readInt xs = (read xs).map fun n => (n : ℤ) := by
  unfold readInt
  split
  · exact absurd rfl h
  · rfl

@[simp] theorem readInt_writeInt (n : ℤ) : readInt (writeInt n) = some n := by
  cases n with
  | ofNat n =>
    have hhead : (write n).head? ≠ some 45 := fun h =>
      not_mem_write (by decide) (List.mem_of_mem_head? h)
    rw [writeInt, readInt_of_head_ne hhead, read_write]
    rfl
  | negSucc n =>
    rw [writeInt, readInt, read_write]
    rfl

/-- A negative number is no plain numeral. -/
theorem read_writeInt_of_neg {n : ℤ} (h : n < 0) : read (writeInt n) = none := by
  cases n with
  | ofNat n => exact absurd h (by simp)
  | negSucc n => simp [read, writeInt, isDigit]

end Decimal

/-! ### Separators -/

namespace Bytes

variable {sep : UInt8} {xs ys : List UInt8}

/-- What stands before and behind the first separator. -/
def cut (sep : UInt8) (xs : List UInt8) : Option (List UInt8 × List UInt8) :=
  match xs.dropWhile (· ≠ sep) with
  | [] => none
  | _ :: rest => some (xs.takeWhile (· ≠ sep), rest)

theorem cut_append (h : sep ∉ xs) : cut sep (xs ++ sep :: ys) = some (xs, ys) := by
  have hall : ∀ c ∈ xs, decide (c ≠ sep) = true := fun c hc =>
    decide_eq_true fun heq => h (heq ▸ hc)
  rw [cut, List.dropWhile_append_of_pos hall, List.takeWhile_append_of_pos hall,
    List.dropWhile_cons_of_neg (by simp), List.takeWhile_cons_of_neg (by simp), List.append_nil]

end Bytes

/-! ### Netstrings -/

namespace Netstring

/-- `SIZE:DATA,`. -/
def write (data : List UInt8) : List UInt8 :=
  Decimal.write data.length ++ 58 :: (data ++ [44])

/-- The data of a netstring at the start of a text, and what stands behind it. -/
def read (text : List UInt8) : Option (List UInt8 × List UInt8) := do
  let (size, rest) ← Bytes.cut 58 text
  let n ← Decimal.read size
  if rest[n]? = some 44 then some (rest.take n, rest.drop (n + 1)) else none

theorem read_cons {n : ℕ} {size rest : List UInt8} (hsize : 58 ∉ size)
    (hn : Decimal.read size = some n) :
    read (size ++ 58 :: rest) =
      if rest[n]? = some 44 then some (rest.take n, rest.drop (n + 1)) else none := by
  simp only [read, Bytes.cut_append hsize, Option.bind_eq_bind, Option.bind_some, hn]

theorem read_of_not_size {size rest : List UInt8} (hsize : 58 ∉ size)
    (hn : Decimal.read size = none) : read (size ++ 58 :: rest) = none := by
  simp only [read, Bytes.cut_append hsize, Option.bind_eq_bind, Option.bind_some, hn,
    Option.bind_none]

/-- **Round trip**: a netstring is read back, and what stands behind it is left. -/
@[simp] theorem read_write_append (data rest : List UInt8) :
    read (write data ++ rest) = some (data, rest) := by
  have hshape : write data ++ rest = Decimal.write data.length ++ 58 :: (data ++ 44 :: rest) := by
    simp [write]
  have hcomma : (data ++ 44 :: rest)[data.length]? = some 44 := by simp
  rw [hshape, read_cons (Decimal.not_mem_write (by decide)) (Decimal.read_write _), if_pos hcomma,
    List.take_left, ← List.drop_drop, List.drop_left]
  rfl

/-- What was read with nothing left behind it is as long as its size says. -/
theorem length_of_read {n : ℕ} {size rest data : List UInt8} (hsize : 58 ∉ size)
    (hn : Decimal.read size = some n) (h : read (size ++ 58 :: rest) = some (data, [])) :
    data.length = n ∧ rest.length = n + 1 := by
  rw [read_cons hsize hn] at h
  split at h
  case isTrue hcomma =>
    obtain ⟨rfl, hdrop⟩ := Prod.mk.inj (Option.some.inj h)
    have hlt : n < rest.length := (List.getElem?_eq_some_iff.mp hcomma).1
    have hle : rest.length ≤ n + 1 := List.drop_eq_nil_iff.mp hdrop
    rw [List.length_take]
    omega
  case isFalse => exact absurd h (by simp)

end Netstring

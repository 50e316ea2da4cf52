import Mathlib.Data.List.Basic
import Mathlib.Algebra.Ring.Nat

/-!
# Memories and numbers in bytes

A memory is a function from addresses. `write` replaces the cells from an address on, `slice` reads
a range; a range that is disjoint from what was written reads as before.

`encodeLE width n` are the lowest `width` bytes of a number, the lowest first.
-/

namespace RTsql.Library

open List

universe u

variable {α : Type u} {m m' : ℕ → α} {start start' len i k width n : ℕ} {bs : List α}

/-- The memory with `bs` from `start` on. -/
def write (m : ℕ → α) (start : ℕ) (bs : List α) : ℕ → α := fun i =>
  if start ≤ i then bs[i - start]?.getD (m i) else m i

/-- The `len` cells from `start` on. -/
def slice (m : ℕ → α) (start len : ℕ) : List α := (List.range len).map fun k => m (start + k)

@[simp] theorem length_slice (m : ℕ → α) (start len : ℕ) : (slice m start len).length = len := by
  simp [slice]

theorem write_of_lt (h : i < start) : write m start bs i = m i := if_neg h.not_ge

theorem write_of_le (h : start + bs.length ≤ i) : write m start bs i = m i := by
  have hnone : bs[i - start]? = none := getElem?_eq_none (by omega)
  simp [write, hnone]

theorem write_add (h : k < bs.length) : write m start bs (start + k) = bs[k] := by
  simp [write, getElem?_eq_getElem h]

theorem slice_congr (h : ∀ k < len, m (start + k) = m' (start + k)) :
    slice m start len = slice m' start len :=
  map_congr_left fun k hk => h k (mem_range.mp hk)

/-- **Frame.** A range beside what is written. -/
theorem slice_write_of_disjoint (h : start' + len ≤ start ∨ start + bs.length ≤ start') :
    slice (write m start bs) start' len = slice m start' len := by
  refine slice_congr fun k hk => ?_
  obtain h | h := h
  · exact write_of_lt (by omega)
  · exact write_of_le (by omega)

/-- A part of what was written. -/
theorem slice_write_part (m : ℕ → α) (start : ℕ) (h : i + len ≤ bs.length) :
    slice (write m start bs) (start + i) len = (bs.drop i).take len := by
  refine ext_getElem (by simp; omega) fun k hk _ => ?_
  rw [length_slice] at hk
  have hread : write m start bs (start + (i + k)) = bs[i + k] := write_add (by omega)
  simp [slice, Nat.add_assoc, hread]

theorem slice_write (m : ℕ → α) (start : ℕ) (bs : List α) :
    slice (write m start bs) start bs.length = bs := by
  simpa using slice_write_part m start (i := 0) (Nat.le_of_eq (Nat.zero_add bs.length))

/-! ### Numbers -/

/-- The lowest `width` bytes, the lowest first. -/
def encodeLE : ℕ → ℕ → List UInt8
  | 0, _ => []
  | width + 1, n => UInt8.ofNat (n % 256) :: encodeLE width (n / 256)

def decodeLE : List UInt8 → ℕ
  | [] => 0
  | b :: bs => b.toNat + 256 * decodeLE bs

@[simp] theorem length_encodeLE (width n : ℕ) : (encodeLE width n).length = width := by
  induction width generalizing n with
  | zero => rfl
  | succ width ih => simp [encodeLE, ih]

/-- **Round trip** of a number that has room. -/
theorem decodeLE_encodeLE (h : n < 256 ^ width) : decodeLE (encodeLE width n) = n := by
  induction width generalizing n with
  | zero =>
    have hzero : n = 0 := by simpa using h
    simp [encodeLE, decodeLE, hzero]
  | succ width ih =>
    have hdiv : n / 256 < 256 ^ width := Nat.div_lt_of_lt_mul (by rwa [Nat.pow_succ, Nat.mul_comm] at h)
    have hmod : (UInt8.ofNat (n % 256)).toNat = n % 256 := by
      rw [UInt8.toNat_ofNat']
      omega
    rw [encodeLE, decodeLE, ih hdiv]
    omega

theorem encodeLE_decodeLE {width : ℕ} {bs : List UInt8} (h : bs.length = width) :
    encodeLE width (decodeLE bs) = bs := by
  subst h
  induction bs with
  | nil => rfl
  | cons b bs ih =>
    have hb := b.toNat_lt
    have hmod : (b.toNat + 256 * decodeLE bs) % 256 = b.toNat := by omega
    have hdiv : (b.toNat + 256 * decodeLE bs) / 256 = decodeLE bs := by omega
    simp only [length_cons, encodeLE, decodeLE, hmod, hdiv, ih, UInt8.ofNat_toNat]

end RTsql.Library

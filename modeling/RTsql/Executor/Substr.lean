import Mathlib.Data.List.Basic
import Mathlib.Algebra.Order.Ring.Int

/-!
# SUBSTR

`substr_chars` of `function.rs` on `i64` arguments. Positions count from one, and a negative start
counts from the end. A start behind the string is moved to its end before a negative length is taken
from it, which moves the window; and two operations leave the range of an `i64` at its lowest
value. -/

namespace RTsql.Executor

/-- The result of an operation, if it is an `i64`. -/
def i64? (n : ℤ) : Option ℤ := if -2 ^ 63 ≤ n ∧ n < 2 ^ 63 then some n else none

/-- `substr_chars`, of a string of fewer than `2 ^ 63` characters: nothing if an operation
overflows. -/
def substrChars (s : List Char) (start : Int64) (len : Option Int64) : Option (List Char) := do
  let n : ℤ := s.length
  let pos ← (if start.toInt < 0 then (i64? (n + start.toInt)).bind fun m =>
    i64? (m + 1) else some start.toInt)
  let before ← i64? (pos - 1)
  match len with
  | none => if max before 0 ≥ n then some [] else some (s.drop (max before 0).toNat)
  | some len =>
    if 0 ≤ len.toInt then
      -- positions before the first are taken from the length
      let phantom ← (if pos < 1 then i64? (1 - pos) else some 0)
      let take ← i64? (len.toInt - phantom)
      some ((s.drop (max before 0).toNat).take (max take 0).toNat)
    else
      let count ← i64? (-len.toInt)
      let last := (min (max before 0) n).toNat
      some ((s.take last).drop (last - count.toNat))

/-- The characters at the positions from `lo` on and before `hi`. -/
def window (s : List Char) (lo hi : ℤ) : List Char :=
  ((s.zipIdx 1).filter fun p => lo ≤ p.2 ∧ p.2 < hi).map Prod.fst

/-- The position of a start. -/
def startPos (s : List Char) (start : ℤ) : ℤ := if start < 0 then s.length + start + 1 else start

/-- The window that the arguments stand for. -/
def substrWindow (s : List Char) (start : ℤ) : Option ℤ → List Char
  | none => window s (max (startPos s start) 1) (s.length + 1)
  | some len =>
    if 0 ≤ len then window s (startPos s start) (startPos s start + len)
    else window s (startPos s start - len.natAbs) (startPos s start)

theorem window_eq (s : List Char) (lo hi : ℤ) :
    window s lo hi = (s.drop (lo - 1).toNat).take ((hi - 1).toNat - (lo - 1).toNat) := by
  suffices h : ∀ k : ℕ, ((s.zipIdx k).filter fun p => lo ≤ p.2 ∧ p.2 < hi).map Prod.fst =
      (s.take (hi - k).toNat).drop (lo - k).toNat by
    rw [← List.drop_take]
    exact h 1
  induction s with
  | nil => simp
  | cons c s ih =>
    intro k
    have ih := ih (k + 1)
    have hlo : (lo - ↑(k + 1)).toNat = (lo - k).toNat - 1 := by omega
    have hhi : (hi - ↑(k + 1)).toNat = (hi - k).toNat - 1 := by omega
    rw [hlo, hhi] at ih
    simp only [List.zipIdx_cons, List.filter_cons, decide_eq_true_eq]
    split_ifs with h
    · obtain ⟨m, hm⟩ : ∃ m, (hi - k).toNat = m + 1 := ⟨(hi - k).toNat - 1, by omega⟩
      have hzero : (lo - k).toNat = 0 := by omega
      simpa [hzero, hm] using ih
    · rw [ih]
      cases hlo : (lo - k).toNat with
      | zero => simp [show (hi - k).toNat = 0 by omega]
      | succ l => cases (hi - k).toNat <;> simp

theorem i64?_eq {n : ℤ} (h : -2 ^ 63 ≤ n ∧ n < 2 ^ 63) : i64? n = some n := if_pos h

theorem i64?_eq_none {n : ℤ} (h : ¬ (-2 ^ 63 ≤ n ∧ n < 2 ^ 63)) : i64? n = none := if_neg h

/-- The suffixes that two numbers of dropped characters leave are the same only if the numbers are,
or nothing is left. -/
theorem drop_eq_drop_iff {s : List Char} {i j : ℕ} : s.drop i = s.drop j ↔
    min i s.length = min j s.length := by
  constructor
  · intro h
    have := congrArg List.length h
    simp only [List.length_drop] at this
    omega
  · intro h
    rw [List.drop_eq_drop_min, h, ← List.drop_eq_drop_min]

/-- **Windows.** No operation overflows and the characters are those of the window, unless the
lowest start is used with a length in the empty string, the length is the lowest, or it is negative,
the start is behind the end of a string and the window begins behind its first character. -/
theorem substr_windows {s : List Char} {start : Int64} {len : Option Int64} (hn : s.length < 2 ^ 63) :
    substrChars s start len = some (substrWindow s start.toInt (len.map Int64.toInt)) ↔
      ∀ l ∈ len, if 0 ≤ l.toInt then s ≠ [] ∨ -2 ^ 63 < start.toInt
        else -2 ^ 63 < l.toInt ∧
          (s = [] ∨ startPos s start.toInt ≤ s.length + 1 ∨ startPos s start.toInt + l.toInt ≤ 1) := by
  have hlo := start.le_toInt
  have hhi := start.toInt_lt
  have hpos : (if start.toInt < 0 then (i64? (s.length + start.toInt)).bind fun m =>
    i64? (m + 1) else some start.toInt) =
      some (startPos s start.toInt) := by
    rw [startPos]
    split_ifs with h
    · rw [i64?_eq (by omega)]
      exact i64?_eq (by omega)
    · rfl
  -- the position has room below, but for the lowest start in the empty string
  have hroom : -2 ^ 63 < startPos s start.toInt ∧ startPos s start.toInt < 2 ^ 63 ∧
      (s ≠ [] ∨ -2 ^ 63 < start.toInt ↔ -2 ^ 63 + 1 < startPos s start.toInt) := by
    rw [startPos, ← List.length_pos_iff]
    split_ifs <;> omega
  simp only [substrChars, hpos, Option.bind_eq_bind, Option.bind_some]
  cases len with
  | none =>
    simp only [Option.map_none, substrWindow, window_eq, Option.not_mem_none, false_imp_iff, implies_true, iff_true]
    generalize startPos s start.toInt = pos at hroom ⊢
    rw [i64?_eq (by omega), Option.bind_some]
    split_ifs with h
    · rw [List.drop_eq_nil_of_le (by omega), List.take_nil]
    · rw [List.take_of_length_le (by rw [List.length_drop]; omega)]
      congr 2
      omega
  | some len =>
    have hlen := len.le_toInt
    have hlen' := len.toInt_lt
    simp only [Option.map_some, substrWindow, window_eq, Option.mem_some_iff, forall_eq']
    rw [hroom.2.2]
    generalize startPos s start.toInt = pos at hroom ⊢
    rw [i64?_eq (by omega), Option.bind_some]
    by_cases hnonneg : 0 ≤ len.toInt
    · simp only [if_pos hnonneg]
      by_cases hok : -2 ^ 63 + 1 < pos
      · have hphantom : (if pos < 1 then i64? (1 - pos) else some 0) = some (max (1 - pos) 0) := by
          split_ifs
          · rw [i64?_eq (by omega), Int.max_eq_left (by omega)]
          · rw [Int.max_eq_right (by omega)]
        rw [hphantom, Option.bind_some, i64?_eq (by omega), Option.bind_some]
        refine iff_of_true ?_ hok
        congr 3 <;> omega
      · rw [if_pos (by omega), i64?_eq_none (by omega)]
        exact iff_of_false (by simp) hok
    · simp only [if_neg hnonneg]
      by_cases hcount : -2 ^ 63 < len.toInt
      · -- both are suffixes of what is before the last character, so they are equal when their lengths are
        rw [i64?_eq (by omega), Option.bind_some, and_iff_right hcount, Option.some_inj, ← List.drop_take]
        have htake : s.take (min (max (pos - 1) 0) s.length).toNat = s.take (pos - 1).toNat := by
          rw [List.take_eq_take_iff]
          omega
        rw [htake, drop_eq_drop_iff, List.length_take, ← List.length_eq_zero_iff]
        omega
      · rw [i64?_eq_none (by omega)]
        exact iff_of_false (by simp) fun h => hcount h.1

/-- The last three of the first five letters. -/
theorem substr_windows_before :
    substrChars "abcdefg".toList 6 (some (-3)) = some (substrWindow "abcdefg".toList 6 (some (-3))) :=
  (substr_windows (by decide)).mpr (by rintro _ ⟨⟩; decide)

theorem substr_window_moves :
    substrChars "abc".toList 5 (some (-2)) = some "bc".toList ∧
    substrWindow "abc".toList 5 (some (-2)) = "c".toList ∧
      substrChars [] Int64.minValue (some 1) = none ∧
      substrChars "abc".toList 2 (some Int64.minValue) = none := by
  decide +kernel

end RTsql.Executor

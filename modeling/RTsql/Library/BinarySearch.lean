import Mathlib.Data.Nat.Notation
import Mathlib.Order.Compare

/-!
# Binary search

`binarySearch cmp n lo hi` looks for an index between `lo` and `hi` at which `cmp` is `eq`,
where `cmp` says how the element at an index compares with what is looked for. It halves the
interval at most `n` times and returns whether it has met the element, and the index, or
else the place where the element would be.

`partitionPoint` looks for the place up to which a test holds; where it looks in the interval is
left open.

* `binarySearch_spec` — if no element before one that is not greater is greater, then the place
  found divides the smaller from the greater elements.
-/

namespace RTsql.Library

open List

/-- The loop, with `lo` and `hi` as its variables. -/
def binarySearch (cmp : ℕ → Ordering) : ℕ → ℕ → ℕ → Bool × ℕ
  | 0, lo, _ => (false, lo)
  | n + 1, lo, hi =>
    if lo < hi then
      match cmp (lo + (hi - lo) / 2) with
      | .lt => binarySearch cmp n (lo + (hi - lo) / 2 + 1) hi
      | .gt => binarySearch cmp n lo (lo + (hi - lo) / 2)
      | .eq => (true, lo + (hi - lo) / 2)
    else (false, lo)

/-- Elements smaller, equal, greater: in this order. -/
structure Ascending (cmp : ℕ → Ordering) (count : ℕ) : Prop where
  lt : ∀ i j, i ≤ j → j < count → cmp j = .lt → cmp i = .lt
  gt : ∀ i j, i ≤ j → j < count → cmp i = .gt → cmp j = .gt

/-- **What a binary search finds.** The element, if it says so; else the smaller elements are those
before the index, and the greater ones those from it on. -/
theorem binarySearch_spec {cmp : ℕ → Ordering} {count : ℕ} (hasc : Ascending cmp count) {n lo hi : ℕ}
    (hn : hi - lo ≤ n) (hle : lo ≤ hi) (hhi : hi ≤ count) (hlow : ∀ i < lo, cmp i = .lt)
    (hhigh : ∀ i, hi ≤ i → i < count → cmp i = .gt) :
    match binarySearch cmp n lo hi with
    | (true, p) => p < count ∧ cmp p = .eq
    | (false, p) => p ≤ count ∧ (∀ i < p, cmp i = .lt) ∧ ∀ i, p ≤ i → i < count → cmp i = .gt := by
  induction n generalizing lo hi with
  | zero =>
    obtain rfl : lo = hi := by omega
    exact ⟨hhi, hlow, hhigh⟩
  | succ n ih =>
    simp only [binarySearch]
    by_cases hlt : lo < hi
    · rw [if_pos hlt]
      have hmid : lo ≤ lo + (hi - lo) / 2 ∧ lo + (hi - lo) / 2 < hi := by omega
      have hsize : lo + (hi - lo) / 2 - lo ≤ n ∧ hi - (lo + (hi - lo) / 2 + 1) ≤ n := by omega
      generalize lo + (hi - lo) / 2 = mid at hmid hsize ⊢
      cases hcmp : cmp mid with
      | lt =>
        refine ih hsize.2 (by omega) hhi (fun i hi' => ?_) hhigh
        exact hasc.lt i mid (by omega) (by omega) hcmp
      | gt =>
        refine ih hsize.1 hmid.1 (by omega) hlow fun i hi' hcount => ?_
        exact hasc.gt mid i hi' hcount hcmp
      | eq => exact ⟨by omega, hcmp⟩
    · rw [if_neg hlt]
      obtain rfl : lo = hi := by omega
      exact ⟨hhi, hlow, hhigh⟩

/-! ### The place up to which a test holds -/

/-- The loop that looks at `middle lo hi` and keeps the half in which the test ends to hold. -/
def partitionPoint (test : ℕ → Bool) (middle : ℕ → ℕ → ℕ) : ℕ → ℕ → ℕ → ℕ
  | 0, lo, _ => lo
  | n + 1, lo, hi =>
    if lo < hi then
      if test (middle lo hi) then partitionPoint test middle n (middle lo hi + 1) hi
      else partitionPoint test middle n lo (middle lo hi)
    else lo

/-- **It finds the place**, wherever it looks. -/
theorem partitionPoint_eq {test : ℕ → Bool} {middle : ℕ → ℕ → ℕ} {n lo hi p : ℕ}
    (hmiddle : ∀ lo hi, lo < hi → lo ≤ middle lo hi ∧ middle lo hi < hi) (hn : hi - lo ≤ n)
    (hlo : lo ≤ p)
    (hhi : p ≤ hi) (htrue : ∀ i < p, test i = true) (hfalse : ∀ i, p ≤ i → i < hi → test i = false) :
    partitionPoint test middle n lo hi = p := by
  induction n generalizing lo hi with
  | zero => exact show lo = p by omega
  | succ n ih =>
    rw [partitionPoint]
    by_cases hlt : lo < hi
    · rw [if_pos hlt]
      obtain ⟨hlow, hhigh⟩ := hmiddle lo hi hlt
      by_cases hside : middle lo hi < p
      · rw [if_pos (htrue _ hside)]
        exact ih (by omega) (by omega) hhi hfalse
      · rw [if_neg (by rw [hfalse _ (by omega) hhigh]; exact Bool.false_ne_true)]
        exact ih (by omega) hlo (by omega) fun i hi' hi'' => hfalse i hi' (by omega)
    · rw [if_neg hlt]
      omega

/-- In a list whose front passes the test, and whose back does not, the place is between them. -/
theorem partitionPoint_append {α : Type*} {test : ℕ → Bool} {middle : ℕ → ℕ → ℕ} {q : α → Bool}
    {l front back : List α} (hmiddle : ∀ lo hi, lo < hi → lo ≤ middle lo hi ∧ middle lo hi < hi)
    (hl : l = front ++ back) (htest : ∀ i a, l[i]? = some a → test i = q a)
    (hfront : ∀ a ∈ front, q a = true) (hback : ∀ a ∈ back, q a = false) :
    partitionPoint test middle l.length 0 l.length = front.length := by
  have hlen : l.length = front.length + back.length := by rw [hl, length_append]
  refine partitionPoint_eq hmiddle (by omega) (Nat.zero_le _) (by omega)
    (fun i hi => ?_) fun i hi hi' => ?_
  · rw [htest i front[i] (by rw [hl, getElem?_append_left hi]; exact getElem?_eq_getElem hi)]
    exact hfront _ (getElem_mem hi)
  · have hlt : i - front.length < back.length := by omega
    rw [htest i back[i - front.length]
      (by rw [hl, getElem?_append_right hi]; exact getElem?_eq_getElem hlt)]
    exact hback _ (getElem_mem hlt)

end RTsql.Library

import RTsql.Library.Run

/-!
# Growing the file

`FileStorage::allocate_page`, without a free page and without encryption: a page number is taken
from an atomic counter, and then the length of the file is set, on another thread, so that the page
is the last one. The length is absolute; calls that set it in another order than that of their
numbers make the file shorter again. The pages are values of any type; `zero` is the page of zeros.

* `allocated_pages_readable` — if the calls set the length in the order of their numbers, no page is
lost.
* `allocated_page_lost` — otherwise one can be.
-/

namespace RTsql.Storage.FileGrowth

open List RTsql.Library

variable {α : Type} (zero : α)

/-- The file, and the calls of `allocate_page`. -/
structure State (α : Type) where
  counter : ℕ
  file : List α
  /-- Numbers taken by calls that have not set the length yet. -/
  pending : List ℕ
  /-- Numbers that were returned. -/
  returned : List ℕ
  /-- What was written last. -/
  written : ℕ → Option α

/-- A file that has been opened. -/
def start (file : List α) : State α := ⟨file.length, file, [], List.range file.length, fun p => file[p]?⟩

/-- A step of one of the calls. -/
inductive Label (α : Type) where
  /-- `fetch_add`. -/
  | take
  /-- `set_len`, and the call returns. -/
  | setLen (p : ℕ)
  | writePage (p : ℕ) (content : α)

/-- `set_len`, to a number of pages: what is behind them is cut off, what is missing is zero. -/
def resize (file : List α) (n : ℕ) : List α := file.take n ++ List.replicate (n - file.length) zero

/-- `write_all_at`, of a page: what is missing before it is zero. -/
def writeAt (file : List α) (p : ℕ) (content : α) : List α :=
  (if p < file.length then file else resize zero file (p + 1)).set p content

/-- `read_page`; `none` if the file ends before it. -/
def State.readPage (s : State α) (p : ℕ) : Option α := s.file[p]?

/-- The steps. -/
def step (s : State α) : Label α → Option (State α)
  | .take => some { s with counter := s.counter + 1, pending := s.counter :: s.pending }
  | .setLen p =>
    if p ∈ s.pending then
      some { s with
        file := resize zero s.file (p + 1)
        pending := s.pending.erase p
        returned := p :: s.returned }
    else none
  | .writePage p content =>
    if p ∈ s.returned then
      some { s with
        file := writeAt zero s.file p content
        written := Function.update s.written p (some content) }
    else none

/-- The length is set for a page behind all that were returned. -/
def InOrder (s : State α) : Label α → Prop
  | .setLen p => ∀ q ∈ s.returned, q < p
  | _ => True

instance (s : State α) : ∀ label, Decidable (InOrder s label)
  | .setLen _ => inferInstanceAs (Decidable (∀ _ ∈ _, _))
  | .take | .writePage _ _ => isTrue trivial

/-- The file ends with the last page that was returned, and these have what was written. -/
structure Inv (s : State α) : Prop where
  covered : ∀ i < s.file.length, ∃ q ∈ s.returned, i ≤ q
  content : ∀ p ∈ s.returned, s.file[p]? = some ((s.written p).getD zero)
  unwritten : ∀ p, p ∉ s.returned → s.written p = none

variable {zero} {s s' : State α}

theorem getElem?_resize {file : List α} {n p : ℕ} :
    (resize zero file n)[p]? = if p < n then some (file[p]?.getD zero) else none := by
  have hlen : (file.take n).length = min n file.length := length_take
  rcases Nat.lt_or_ge p (min n file.length) with hlt | hge
  · rw [resize, getElem?_append_left (by omega), getElem?_take_of_lt (by omega), if_pos (by omega),
      getElem?_eq_getElem (by omega)]
    rfl
  · rw [resize, getElem?_append_right (by omega), getElem?_replicate]
    by_cases hp : p < n
    · rw [if_pos hp, if_pos (by omega), getElem?_eq_none (by omega)]
      rfl
    · rw [if_neg hp, if_neg (by omega)]

theorem inv_step {label : Label α} (h : Inv zero s) (hok : InOrder s label)
    (hstep : step zero s label = some s') : Inv zero s' := by
  cases label with
  | take =>
    cases hstep
    exact { h with }
  | setLen p =>
    obtain ⟨-, rfl⟩ := of_guard hstep
    -- the page is behind the end of the file
    have hend : s.file.length ≤ p := by
      by_contra hlt
      obtain ⟨q, hq, hle⟩ := h.covered p (Nat.lt_of_not_le hlt)
      exact absurd (hok q hq) (Nat.not_lt.mpr hle)
    have hnew : p ∉ s.returned := fun hp => absurd (hok p hp) (Nat.lt_irrefl p)
    refine ⟨fun i hi => ?_, fun q hq => ?_, fun q hq => h.unwritten q fun hmem =>
      hq (mem_cons_of_mem _ hmem)⟩
    · have hlen : i < p + 1 := by
        simp only [resize, length_append, length_take, length_replicate] at hi
        omega
      exact ⟨p, mem_cons_self, Nat.le_of_lt_succ hlen⟩
    · rw [getElem?_resize]
      rcases mem_cons.mp hq with rfl | hq
      · rw [if_pos (Nat.lt_succ_self q), getElem?_eq_none hend, h.unwritten q hnew]
      · rw [if_pos (Nat.lt_succ_of_lt (hok q hq)), h.content q hq]
        rfl
  | writePage p content =>
    obtain ⟨hp, rfl⟩ := of_guard hstep
    have hlt : p < s.file.length := (List.getElem?_eq_some_iff.mp (h.content p hp)).1
    have hwrite : writeAt zero s.file p content = s.file.set p content := by rw [writeAt, if_pos hlt]
    refine ⟨fun i hi => h.covered i (by simpa [hwrite] using hi), fun q hq => ?_, fun q hq => ?_⟩
    · show (writeAt zero s.file p content)[q]? =
        some ((Function.update s.written p (some content) q).getD zero)
      rw [hwrite]
      by_cases hpq : q = p
      · rw [hpq, getElem?_set_self hlt, Function.update_self]
        rfl
      · rw [getElem?_set_ne (Ne.symm hpq), Function.update_of_ne hpq]
        exact h.content q hq
    · have hpq : q ≠ p := fun hc => hq (hc ▸ hp)
      exact (Function.update_of_ne hpq ..).trans (h.unwritten q hq)

/-- **No page is lost**, in every run of calls and writes in which the length is set in the order of
the page numbers: every page that was returned is read as it was written last, or as zeros. -/
theorem allocated_pages_readable {file : List α} {labels : List (Label α)}
    (hok : Guarded InOrder (step zero) (start file) labels)
    (hrun : run (step zero) (start file) labels = some s) :
    ∀ p ∈ s.returned, s.readPage p = some ((s.written p).getD zero) := by
  have hstart : Inv zero (start file) := by
    refine ⟨fun i hi => ⟨i, mem_range.mpr hi, Nat.le_refl i⟩, fun p hp => ?_, fun p hp => ?_⟩
    · show file[p]? = some (file[p]?.getD zero)
      rw [getElem?_eq_getElem (mem_range.mp hp)]
      rfl
    · exact getElem?_eq_none (Nat.le_of_not_lt fun hlt => hp (mem_range.mpr hlt))
  exact (run_invariant (fun _ _ _ h hok hstep => inv_step h hok hstep) hstart hok hrun).content

theorem allocated_pages_readable_two :
    ∃ s, run (step 0) (start [7]) [.take, .take, .setLen 1, .setLen 2, .writePage 1 5] = some s ∧
      s.readPage 1 = some 5 ∧ s.readPage 2 = some 0 := by
  obtain ⟨s, hs, hone, htwo, hw, hw'⟩ :
      ∃ s, runChecked InOrder (step 0) (start [7])
        [.take, .take, .setLen 1, .setLen 2, .writePage 1 5] = some s ∧
        1 ∈ s.returned ∧ 2 ∈ s.returned ∧ s.written 1 = some 5 ∧ s.written 2 = none := by
    decide
  obtain ⟨hok, hrun⟩ := of_runChecked hs
  refine ⟨s, hrun, ?_, ?_⟩
  · rw [allocated_pages_readable hok hrun 1 hone, hw]
    rfl
  · rw [allocated_pages_readable hok hrun 2 htwo, hw']
    rfl

/-- **A page is lost.** The second of two calls returns page 1, which is written; then the first one
makes the file one page long. -/
theorem allocated_page_lost :
    ∃ s, run (step 0) (start []) [.take, .take, .setLen 1, .writePage 1 5, .setLen 0] = some s ∧
    1 ∈ s.returned ∧
      s.written 1 = some 5 ∧ s.readPage 1 = none := by
  refine ⟨_, rfl, by decide, by decide, by decide⟩

end RTsql.Storage.FileGrowth

import RTsql.Executor.Joins

/-!
# Set operations

`set_operation.rs` and `distinct.rs`. Both branches are read to their end; a row passes if no equal
row has passed before it and, for `INTERSECT` and `EXCEPT`, if the set of the right rows has it or
has not. `NULL` is equal to `NULL`. The budget has no limit, as `new` sets it. -/

namespace RTsql.Executor

open List RTsql.Storage

/-- `SetOpKind`. -/
inductive SetOpKind where
  | union
  | intersect
  | except
  deriving DecidableEq, Repr

/-- `HashSet::contains`. -/
def hasRow (set : List Row) (row : Row) : Bool := set.any (keyEq row)

/-- The loop of both executors, over rows that `keep` lets pass. `seen` has the rows of the
output. -/
def firstRows (keep : Row → Bool) (rows : List Row) : List Row :=
  rows.foldl (fun seen row => if keep row && !hasRow seen row then seen ++ [row] else seen) []

/-- `SetOperationExecutor::consume_input`. A right row goes into the set unless it has it. -/
def setOperation (op : SetOpKind) (all : Bool) (left right : List Row) : List Row :=
  match op with
  | .union => if all then left ++ right else firstRows (fun _ => true) (left ++ right)
  | .intersect | .except =>
    firstRows (fun row => hasRow (firstRows (fun _ => true) right) row == decide (op = .intersect)) left

/-- `DistinctExecutor::consume_input`. -/
def distinctRows (input : List Row) : List Row := firstRows (fun _ => true) input

/-- `out` has the rows of `R`, each once, in the order in which they come in `rows` for the first
time. -/
structure FirstOccurrences (rows : List Row) (R : Row → Prop) (out : List Row) : Prop where
  mem : ∀ row, row ∈ out ↔ R row
  ordered : out.Pairwise fun a b => rows.idxOf a < rows.idxOf b

theorem FirstOccurrences.of_iff {rows out : List Row} {R R' : Row → Prop}
    (h : FirstOccurrences rows R out) (hR : ∀ row, R row ↔ R' row) : FirstOccurrences rows R' out :=
  ⟨fun row => (h.mem row).trans (hR row), h.ordered⟩

theorem hasRow_iff {set : List Row} {row : Row} (hset : ∀ r ∈ set, ∀ v ∈ r, NotFloat v)
    (hrow : ∀ v ∈ row, NotFloat v) : hasRow set row = true ↔ row ∈ set := by
  rw [hasRow, any_eq_true]
  constructor
  · rintro ⟨r, hr, heq⟩
    exact (keyEq_iff hrow (hset r hr)).mp heq ▸ hr
  · exact fun h => ⟨row, h, (keyEq_iff hrow hrow).mpr rfl⟩

/-- What has passed after any rows. -/
theorem firstRows_spec (keep : Row → Bool) {rows : List Row}
    (hrows : ∀ row ∈ rows, ∀ v ∈ row, NotFloat v) :
    FirstOccurrences rows (fun row => row ∈ rows ∧ keep row = true) (firstRows keep rows) := by
  induction rows using reverseRecOn with
  | nil => exact ⟨by simp [firstRows], .nil⟩
  | append_singleton rows a ih =>
    obtain ⟨hrows, ha⟩ := forall_mem_append.mp hrows
    obtain ⟨hmem, hord⟩ := ih hrows
    have hfirst : ∀ r ∈ firstRows keep rows, r ∈ rows := fun r hr => ((hmem r).mp hr).1
    have hhas := hasRow_iff (fun r hr => hrows r (hfirst r hr)) (ha a (mem_singleton_self a))
    -- the rows that were there first come where they came
    have hold : (firstRows keep rows).Pairwise fun x y => (rows ++ [a]).idxOf x <
      (rows ++ [a]).idxOf y := hord.imp_of_mem fun hx hy hlt => by
        rwa [idxOf_append_of_mem (hfirst _ hx), idxOf_append_of_mem (hfirst _ hy)]
    have hstep : firstRows keep (rows ++ [a]) =
        if keep a && !hasRow (firstRows keep rows) a then firstRows keep rows ++ [a]
          else firstRows keep rows := by
      rw [firstRows, foldl_append]
      rfl
    rw [hstep]
    split
    case isTrue hpass =>
      obtain ⟨hkeep, hnew⟩ := Bool.and_eq_true_iff.mp hpass
      have hnew : a ∉ rows := fun h => by simp [hhas.mpr ((hmem a).mpr ⟨h, hkeep⟩)] at hnew
      refine ⟨fun r => ?_, pairwise_append.mpr ⟨hold, pairwise_singleton .., fun x hx y hy => ?_⟩⟩
      · simp only [mem_append, mem_singleton, hmem, or_and_right]
        exact or_congr_right (iff_self_and.mpr fun h => h ▸ hkeep)
      · rw [mem_singleton.mp hy, idxOf_append_of_mem (hfirst x hx), idxOf_append_of_notMem hnew]
        exact Nat.lt_add_right _ (idxOf_lt_length_of_mem (hfirst x hx))
    case isFalse hpass =>
      refine ⟨fun r => (hmem r).trans ?_, hold⟩
      simp only [mem_append, mem_singleton, or_and_right]
      refine (or_iff_left_of_imp ?_).symm
      rintro ⟨rfl, hkeep⟩
      rw [hkeep, Bool.true_and, Bool.not_eq_true, Bool.not_eq_false'] at hpass
      exact (hmem r).mp (hhas.mp hpass)

/-- **Set operations.** `UNION ALL` yields the rows of both branches; `UNION`, `INTERSECT` and
`EXCEPT` yield the union, the intersection and the difference of the branches, and `DISTINCT` the
rows of its input, each row once and in the order of first occurrence. -/
theorem setOperation_exact (left right : List Row) (all : Bool) (h : ∀ row ∈ left ++ right,
    ∀ v ∈ row, NotFloat v) : setOperation .union true left right = left ++ right ∧
      FirstOccurrences (left ++ right) (fun row => row ∈ left ∨ row ∈ right)
        (setOperation .union false left right) ∧
      FirstOccurrences left (fun row => row ∈ left ∧ row ∈ right)
        (setOperation .intersect all left right) ∧
      FirstOccurrences left (fun row => row ∈ left ∧ row ∉ right) (setOperation .except all left right) ∧
      FirstOccurrences left (· ∈ left) (distinctRows left) := by
  obtain ⟨hl, hr⟩ := forall_mem_append.mp h
  have hset := (firstRows_spec (fun _ => true) hr).mem
  have hright : ∀ row ∈ left, hasRow (firstRows (fun _ => true) right) row = true ↔ row ∈ right :=
    fun row hrow => by
    rw [hasRow_iff (fun r hm => hr r ((hset r).mp hm).1) (hl row hrow), hset]
    exact and_iff_left rfl
  refine ⟨rfl, ?_, ?_, ?_, ?_⟩
  · exact (firstRows_spec _ h).of_iff fun row => by simp
  · exact (firstRows_spec _ hl).of_iff fun row => and_congr_right fun hrow => by simp [hright row hrow]
  · exact (firstRows_spec _ hl).of_iff fun row => and_congr_right fun hrow => by simp [← hright row hrow]
  · exact (firstRows_spec _ hl).of_iff fun row => and_iff_left rfl

theorem setOperation_exact_null : let left : List Row := [[.null], [.int 1], [.null]]
    FirstOccurrences left (fun row => row ∈ left ∧ row ∈ [[.null]])
      (setOperation .intersect false left [[.null]]) :=
  (setOperation_exact [[.null], [.int 1], [.null]] [[.null]] false (by simp [NotFloat])).2.2.1

end RTsql.Executor

import RTsql.Executor.Joins

/-!
# Outer joins, row by row

`NestedLoopJoinExecutor::next` returns one row and keeps its place. A turn of its loops takes the
next left row, compares it with one right row, pads a left row that has found no partner, or, after
the last left row of a full join, looks at one right row. `RIGHT` comes to it as `LEFT`, with the
inputs and the sides of the output exchanged. -/

namespace RTsql.Executor

open List RTsql.Library RTsql.Storage

/-- `NestedLoopJoinExecutor`, when it has read its right input. -/
structure NestedLoopJoinExecutor where
  predicate : Row → Except ExecError Ternary
  output : Output
  joinType : NestedLoopJoinType
  rightRows : List Row

/-- Its place. `lefts` are the rows that the left input has still to give. -/
structure LoopState where
  lefts : List Row
  currentLeft : Option Row
  currentRightIndex : ℕ
  leftMatched : Bool
  rightMatched : List Bool
  drainIndex : ℕ

namespace NestedLoopJoinExecutor

variable (j : NestedLoopJoinExecutor)

/-- Before the first left row. -/
def start (lefts : List Row) : LoopState :=
  ⟨lefts, none, 0, false, if j.joinType = .full then j.rightRows.map fun _ => false else [], 0⟩

/-- One turn: a row that is returned, or none, and the new place; or the end. -/
def turn (s : LoopState) : Except ExecError (Option (Option Row × LoopState)) :=
  match s.currentLeft with
  | none =>
    match s.lefts with
    | left :: lefts =>
      .ok (some (none, { s with lefts, currentLeft := some left, currentRightIndex := 0, leftMatched := false }))
    | [] =>
      -- `next_unmatched_right_row`
      if j.joinType = .full then
        .ok (j.rightRows[s.drainIndex]?.map fun right =>
          (if s.rightMatched.getD s.drainIndex false then none
            else some (paddedRow j.output none (some right)), { s with drainIndex := s.drainIndex + 1 }))
      else .ok none
  | some left =>
    match j.rightRows[s.currentRightIndex]? with
    | some right => do
      if ← selected j.predicate (left ++ right) then
        pure (some (some (outputRow j.output left right), { s with
          currentRightIndex := s.currentRightIndex + 1, leftMatched := true
          rightMatched := if j.joinType = .full then s.rightMatched.set s.currentRightIndex true else s.rightMatched }))
      else pure (some (none, { s with currentRightIndex := s.currentRightIndex + 1 }))
    | none =>
      if j.joinType ≠ .inner ∧ s.leftMatched = false then
        .ok (some (some (paddedRow j.output (some left) none), { s with leftMatched := true }))
      else .ok (some (none, { s with currentLeft := none }))

/-- The rows that the calls return until the end. -/
inductive Yields : LoopState → List Row → Prop
  | ends {s : LoopState} : j.turn s = .ok none → Yields s []
  | goes {s s' : LoopState} (row : Option Row) {rest out : List Row} :
      j.turn s = .ok (some (row, s')) → Yields s' rest → row.toList ++ rest = out → Yields s out

variable {j} {lefts out rest : List Row} {holds : Row → Row → Bool} {left : Row} {i : ℕ} {matched : Bool}
  {flags : List Bool}

/-- After the last left row. -/
theorem yields_drain (g : Row → Bool) (pre : List Row) (hj : j.rightRows = pre ++ rest)
    (hflags : j.joinType = .full → flags = j.rightRows.map g) :
    j.Yields ⟨[], none, i, matched, flags, pre.length⟩
      (if j.joinType = .full then (rest.filter fun r => !g r).map fun r => paddedRow j.output none (some r) else []) := by
  by_cases hfull : j.joinType = .full
  · rw [if_pos hfull]
    induction rest generalizing pre with
    | nil => exact .ends (by simp [turn, hfull, hj])
    | cons r rest ih =>
      have hrest := ih (pre ++ [r]) (by simp [hj])
      rw [length_append] at hrest
      exact .goes (if g r then none else some (paddedRow j.output none (some r)))
        (by simp [turn, hfull, hj, hflags]) hrest
        (by cases hg : g r <;> simp [hg])
  · exact if_neg hfull ▸ .ends (by simp [turn, hfull])

/-- One left row, from some right row on. -/
theorem yields_scan (g : Row → Bool) (pre : List Row) (matched : Bool) (flags : List Bool)
    (hj : j.rightRows = pre ++ rest)
    (h : ∀ r ∈ rest, selected j.predicate (left ++ r) = .ok (holds left r))
    (hflags : j.joinType = .full → flags = pre.map (fun r => g r || holds left r) ++ rest.map g)
    (hout : ∀ i matched flags, (j.joinType = .full → flags = j.rightRows.map fun r => g r || holds left r) →
      j.Yields ⟨lefts, none, i, matched, flags, 0⟩ out) :
    j.Yields ⟨lefts, some left, pre.length, matched, flags, 0⟩
      ((rest.filter (holds left)).map (outputRow j.output left) ++
      (if j.joinType ≠ .inner ∧ (matched || rest.any (holds left)) = false then [paddedRow j.output (some left) none]
        else []) ++ out) := by
  induction rest generalizing pre matched flags with
  | nil =>
    have hleave (matched : Bool) (hpad : ¬ (j.joinType ≠ .inner ∧ matched = false)) :
        j.Yields ⟨lefts, some left, pre.length, matched, flags, 0⟩ out :=
      .goes none (by simp only [turn, hj, append_nil, getElem?_eq_none (le_refl _), if_neg hpad])
        (hout pre.length matched flags (by simpa [hj] using hflags)) rfl
    by_cases hpad : j.joinType ≠ .inner ∧ matched = false
    · exact .goes (some (paddedRow j.output (some left) none)) (by simp [turn, hj, hpad])
        (hleave true (by simp))
        (by simp [hpad])
    · simpa [hpad] using hleave matched hpad
  | cons r rest ih =>
    obtain ⟨hr, h⟩ := forall_mem_cons.mp h
    have hrest (matched : Bool) (flags : List Bool) := ih (pre ++ [r]) matched flags (by simp [hj]) h
    simp only [length_append, length_singleton] at hrest
    cases hh : holds left r with
    | true =>
      refine .goes (some (outputRow j.output left r)) ?_
        (hrest true (if j.joinType = .full then flags.set pre.length true else flags) fun hf => ?_)
          (by simp [hh])
      · simp [turn, hj, hr, hh, bind, Except.bind, pure, Except.pure]
      · simp [hf, hflags hf, hh]
    | false =>
      refine .goes none ?_ (hrest matched flags fun hf => ?_) (by simp [hh])
      · simp [turn, hj, hr, hh, bind, Except.bind, pure, Except.pure]
      · simpa [hh] using hflags hf

theorem yields_loopRows (g : Row → Bool)
    (h : ∀ l ∈ lefts, ∀ r ∈ j.rightRows, selected j.predicate (l ++ r) = .ok (holds l r))
    (hflags : j.joinType = .full → flags = j.rightRows.map g) :
    j.Yields ⟨lefts, none, i, matched, flags, 0⟩ (loopRows j.output j.joinType holds g lefts j.rightRows) := by
  induction lefts generalizing g i matched flags with
  | nil => simpa [loopRows] using yields_drain g [] rfl hflags
  | cons l ls ih =>
    obtain ⟨hl, hls⟩ := forall_mem_cons.mp h
    exact .goes none rfl (yields_scan g [] false flags rfl hl hflags fun _ _ _ hflags => ih _ hls hflags)
      (by simp [loopRows, Bool.or_assoc])

/-- **Outer joins.** If the predicate has a value on all pairs, the calls return, in some order, the
pairs that match and, each once and padded with `NULL`s, the rows without a match: for `LEFT` and
`FULL` the left ones, for `FULL` the right ones. For `RIGHT`, whose inputs and sides come exchanged,
they return the right ones. -/
theorem outerJoin_exact (j : NestedLoopJoinExecutor) (lefts : List Row) (holds : Row → Row → Bool)
    (h : ∀ l ∈ lefts, ∀ r ∈ j.rightRows, selected j.predicate (l ++ r) = .ok (holds l r)) :
    ∃ out, j.Yields (j.start lefts) out ∧
      out.Perm (joinRows j.output (j.joinType ≠ .inner) (j.joinType = .full) holds lefts j.rightRows) ∧
      ∀ output : Output, j.joinType = .left → j.output = output.map (fun o => (o.1, o.2.flip)) →
        out.Perm (joinRows output false true (fun l r => holds r l) j.rightRows lefts) := by
  have hperm := loopRows_perm j.output j.joinType holds lefts j.rightRows
  refine ⟨_, yields_loopRows (fun _ => false) h fun hf => if_pos hf, hperm, fun output htype hflip => hperm.trans ?_⟩
  rw [hflip, htype]
  exact joinRows_flip ..

/-- Rows with a match, and without one, on both sides. -/
theorem outerJoin_exact_full :
    let j : NestedLoopJoinExecutor := ⟨fun row => .ok (if row = [.int 1, .int 1] then .true else .unknown),
      [(⟨"a", "x", 0⟩, .left), (⟨"b", "x", 0⟩, .right)], .full, [[.int 1], [.int 3]]⟩
    ∃ out, j.Yields (j.start [[.int 1], [.int 2]]) out ∧
      out.Perm [[.int 1, .int 1], [.int 2, .null], [.null, .int 3]] := by
  intro j
  obtain ⟨out, hout, hperm, -⟩ := outerJoin_exact j [[.int 1], [.int 2]]
    (fun l r => l == [.int 1] && r == [.int 1]) (by decide +kernel)
  exact ⟨out, hout, hperm.trans (.of_eq (by decide +kernel))⟩

end NestedLoopJoinExecutor

end RTsql.Executor

import RTsql.Executor.Invariants

/-!
# Statement views

A Read Committed statement reads the set of active transactions, then the
allocator's current id, and from then on decides with the two which versions it
sees. Meanwhile transactions begin, write, commit and abort.

## The model

The transactions and the statements are those of `RTsql.Executor.Interleaving`.
Added is that a statement reads slots, one by one, and keeps what
`Snapshot::is_visible` answered for every version it read.

## What is proved

* `statement_view_atomic` — if, at the moment a statement reads the allocator, every
  id up to it that is missing from the active set it read belongs to a finished
  transaction, then the statement gets one answer for all versions of a transaction.
* `statement_view_splits` — otherwise it may see one version and not another.
-/

namespace RTsql.Executor.StatementView

open Function List RTsql.Library RTsql.Storage RTsql.Transaction

/-- What a statement found in a slot. -/
structure Read where
  rowId : RowId
  /-- The creator in its header. -/
  createTxId : ℕ
  /-- The answer of `is_visible`. -/
  visible : Bool
  deriving DecidableEq

structure State where
  base : Executor.State
  /-- What the statement of each session has found. -/
  reads : Session → List Read

/-- What a session starts from: no version that recovery leaves is without a commit mark. -/
structure Start extends Executor.Start where
  settled : ∀ rid v, heap.header? rid = some v → v.mark ≠ .unset

/-- No transaction and no statement is running. -/
def Start.init (st : Start) : State := ⟨st.toStart.init, fun _ => []⟩

inductive Label where
  | base (label : Executor.Label)
  /-- The statement of a session reads a slot. -/
  | read (q : Session) (rid : RowId)

/-- A statement that gets its view has read nothing. -/
def State.readsAfter (s : State) : Executor.Label → Session → List Read
  | .readCurrent q => update s.reads q []
  | _ => s.reads

/-- A step of the system. -/
def step (s : State) : Label → Option State
  | .base label => (Executor.step s.base label).map fun base => ⟨base, s.readsAfter label⟩
  | .read q rid =>
    match s.base.reader q, s.base.heap.header? rid with
    | .reading view _, some v =>
      some { s with
        reads := update s.reads q
          (⟨rid, v.createTxId, view.isVisible v.createTxId v.commitTxId⟩ :: s.reads q) }
    | _, _ => none

/-- A view is settled when every transaction it does not exclude has finished. -/
def Settled (s : Executor.State) (highWater : ℕ) (active : List ℕ) : Prop :=
  ∀ tx ≤ highWater, tx ∉ active → ∃ committed, s.phase tx = .finished committed

/-- **The condition under which a statement sees transactions whole**: when it reads the
allocator, every id up to the current one that is missing from the active set it has
read belongs to a finished transaction. -/
def ReadsSettled (s : State) : Label → Prop
  | .base (.readCurrent q) =>
    match s.base.reader q with
    | .opened active => Settled s.base s.base.counter active
    | _ => True
  | _ => True

/-! ### What holds between any two steps -/

structure Inv (s : State) : Prop where
  base : Executor.Inv s.base
  /-- A version without a commit mark is one its transaction has yet to mark. -/
  unmarked : ∀ rid v, s.base.heap.header? rid = some v → v.mark = .unset →
    rid ∈ (s.base.phase v.createTxId).versions
  view : ∀ q view checked, s.base.reader q = .reading view checked →
    Settled s.base view.highWater view.activeTxIds
  /-- A statement's answers depend on the creator only. -/
  reads : ∀ q view checked, s.base.reader q = .reading view checked → ∀ r ∈ s.reads q,
    r.visible = decide (r.createTxId ≤ view.highWater ∧ r.createTxId ∉ view.activeTxIds)

theorem inv_init (st : Start) : Inv st.init where
  base := Executor.inv_init st.toStart
  unmarked rid v hv hm := absurd hm (st.settled rid v hv)
  view := nofun
  reads := nofun

section Step

variable {s s' : Executor.State} {a : Executor.Label} {rid : RowId} {tx : ℕ} {v : VersionHeader}

/-- A transaction loses a version from its list only when the version is marked. -/
theorem versions_kept (hi : Executor.Inv s) (h : Move s a s') (hr : rid ∈ (s.phase tx).versions) :
    rid ∈ (s'.phase tx).versions ∨ ∃ v, s'.heap.header? rid = some v ∧ v.mark ≠ .unset := by
  have key (t : ℕ) (p : Phase) (hp : ∀ r ∈ (s.phase t).versions, r ∈ p.versions) :
      rid ∈ (update s.phase t p tx).versions :=
    update_keeps (P := (rid ∈ Phase.versions ·)) hr (hp rid)
  -- All versions but the one that is marked stay on the list.
  have mark (t : ℕ) (r : RowId) (rest : List RowId) (p : Phase) (v v₀ : VersionHeader)
    (hv : s.heap.header? r = some v₀)
      (hold : (s.phase t).versions = rest) (hnew : p.versions = rest.filter (· ≠ r))
        (hm : v.mark ≠ .unset) :
      rid ∈ (update s.phase t p tx).versions ∨ ∃ v', (s.heap.setHeader r v).header? rid = some v' ∧
      v'.mark ≠ .unset := by
    by_cases heq : rid = r
    · exact .inr ⟨v, (Heap.header?_setHeader _ hv _ _).trans (if_pos heq), hm⟩
    · refine .inl (update_keeps (P := (rid ∈ Phase.versions ·)) hr fun hmem => ?_)
      rw [hnew]
      exact mem_filter.mpr ⟨hold ▸ hmem, by simpa using heq⟩
  cases h with
  | allocate => exact .inl (key _ _ (by simp [hi.unborn _ (Nat.lt_succ_self _), Phase.versions]))
  | enter hp | leaveCommitted hp | leaveAborted hp => exact .inl (key _ _ (by simp [hp, Phase.versions]))
  | write hp =>
    refine .inl (key _ _ fun r hmem => ?_)
    rw [hp] at hmem
    exact mem_append_left _ (by simpa [Phase.versions] using hmem)
  | @work t td versions todo hp =>
    refine .inl (key _ _ fun r hmem => ?_)
    rw [hp] at hmem
    cases td with
    | record r' => simpa [Phase.versions, Todo.onVersions, Todo.recorded, or_left_comm] using hmem
    | _ => exact hmem
  | workCommit hp => exact .inl (key _ _ (by rw [hp]; exact fun _ => id))
  | commit hp => exact .inl (key _ _ fun r hmem => by simpa [hp, Phase.versions] using hmem)
  | abort hp =>
    -- What it has written and not recorded is found on the pages.
    refine .inl (key _ _ fun r hmem => mem_union_iff.mpr (.inr ?_))
    exact (Heap.mem_versionsCreatedBy hi.wf).mpr (hi.recorded _ r hmem)
  | @markCommitted t r rest v hp hv =>
    exact mark t r rest _ _ v hv (by rw [hp]; rfl) rfl (v.mark_commit_ne_unset t)
  | @markAborted t r rest todo v hp hv =>
    exact mark t r rest _ _ v hv (by rw [hp]; rfl) rfl (by simp [VersionHeader.markAborted])
  | _ => exact .inl hr

theorem unmarked_move (hi : Executor.Inv s) (h : Move s a s')
    (hu : ∀ rid v, s.heap.header? rid = some v → v.mark = .unset → rid ∈ (s.phase v.createTxId).versions)
    (hv : s'.heap.header? rid = some v) (hm : v.mark = .unset) : rid ∈ (s'.phase v.createTxId).versions := by
  have keep (tx : ℕ) (hr : rid ∈ (s.phase tx).versions) : rid ∈ (s'.phase tx).versions := by
    obtain hr | ⟨v', hv', hm'⟩ := versions_kept hi h hr
    · exact hr
    · exact absurd (Option.mem_unique hv hv' ▸ hm) hm'
  rcases header_move hi h rid with heq | ⟨v', hv', hw⟩
  · exact keep _ (hu rid v (heq ▸ hv) hm)
  · obtain rfl := Option.mem_unique hv hv'
    cases hw with
    | @slot tx page w versions hp =>
      cases h with
      | write =>
        rw [Write.createTxId_header, setPhase_phase, update_self]
        exact mem_append_right _ (by rw [Write.recorded_todo]; exact mem_singleton_self _)
    | link | aborted => nomatch hm
    | committed => exact absurd hm (VersionHeader.mark_commit_ne_unset _ _)

theorem settled_move (hi : Executor.Inv s) (h : Move s a s') {highWater : ℕ} {active : List ℕ}
    (hs : Settled s highWater active) : Settled s' highWater active := by
  intro tx htx hactive
  obtain ⟨committed, hp⟩ := hs tx htx hactive
  exact ⟨committed, finished_move hi h hp⟩

end Step

/-- A version of a transaction that a settled view does not exclude carries its mark. -/
theorem isVisible_of_settled {s : State} {view : Snapshot} {rid : RowId} {v : VersionHeader} (hi : Inv s)
    (hs : Settled s.base view.highWater view.activeTxIds) (hv : s.base.heap.header? rid = some v) :
    view.isVisible v.createTxId v.commitTxId =
      decide (v.createTxId ≤ view.highWater ∧ v.createTxId ∉ view.activeTxIds) := by
  rw [Bool.eq_iff_iff, Snapshot.isVisible_iff, decide_eq_true_iff]
  refine ⟨And.right, fun hvisible => ⟨fun hm => ?_, hvisible⟩⟩
  have hopen := hi.unmarked rid v hv (VersionHeader.commitTxId_eq_none.mp hm)
  obtain ⟨committed, hp⟩ := hs _ hvisible.1 hvisible.2
  rw [hp] at hopen
  cases hopen

theorem inv_step (s : State) (a : Label) (s' : State) (hi : Inv s) (hok : ReadsSettled s a)
    (hs : step s a = some s') : Inv s' := by
  cases a with
  | base label =>
    obtain ⟨base, hbase, rfl⟩ := Option.map_eq_some_iff.mp hs
    have h := move_of_step hbase
    refine ⟨Executor.inv_step hi.base hbase, fun _ _ => unmarked_move hi.base h hi.unmarked, ?_, ?_⟩
    · intro q view checked hr
      rcases reading_move h hr with ⟨checked', hold⟩ | ⟨active, rfl, hopen, rfl⟩
      · exact settled_move hi.base h (hi.view q view checked' hold)
      · simp only [ReadsSettled, hopen] at hok
        exact settled_move hi.base h hok
    · intro q view checked hr r hmem
      rcases reading_move h hr with ⟨checked', hold⟩ | ⟨active, rfl, -, rfl⟩
      · refine hi.reads q view checked' hold r ?_
        cases label with
        | readCurrent q' =>
          obtain ⟨-, hmem⟩ | ⟨-, hmem⟩ := update_cases (P := (r ∈ ·)) hmem
          · cases hmem
          · exact hmem
        | _ => exact hmem
      · have hmem : r ∈ update s.reads q [] q := hmem
        rw [update_self] at hmem
        cases hmem
  | read q rid =>
    simp only [step] at hs
    split at hs
    case h_2 => nomatch hs
    case h_1 view checked v hr hv =>
      cases hs
      refine { hi with reads := fun q' view' checked' hr' r hmem => ?_ }
      obtain ⟨rfl, hmem⟩ | ⟨-, hmem⟩ := update_cases (P := (r ∈ ·)) hmem
      · obtain rfl | hmem := mem_cons.mp hmem
        · cases hr.symm.trans hr'
          exact isVisible_of_settled hi (hi.view q' _ _ hr) hv
        · exact hi.reads q' view' checked' hr' r hmem
      · exact hi.reads q' view' checked' hr' r hmem

/-! ### Statements and transactions -/

/-- **A statement sees a transaction whole or not at all** in every interleaving in which
the views are read settled: any two versions of one transaction that a statement reads,
at any two moments, get the same answer. -/
theorem statement_view_atomic (st : Start) (as : List Label) (s : State)
    (hrun : run step st.init as = some s) (hok : Guarded ReadsSettled step st.init as)
    (q : Session) (view : Snapshot) (checked : Option ℕ) (hq : s.base.reader q = .reading view checked)
    (r r' : Read) (hr : r ∈ s.reads q) (hr' : r' ∈ s.reads q) (htx : r.createTxId = r'.createTxId) :
    r.visible = r'.visible := by
  have hi := run_invariant inv_step (inv_init st) hok hrun
  rw [hi.reads q view checked hq r hr, hi.reads q view checked hq r' hr', htx]

/-- A new table. -/
def emptyTable : Start where
  toStart := newTable
  settled rid v hv := by cases (Heap.header?_onePage_nil rid).symm.trans hv

/-- Transaction 1, once in the active set, writes two versions and commits; statement 0
reads each version after the first has been marked and the second has not. -/
def readWhileMarking : List Label :=
  [.write 1 0 (.insert []), .work 1, .work 1, .work 1, .write 1 0 (.insert []), .work 1, .work 1,
    .work 1, .commit 1,
      .mark 1 ⟨0, 0⟩].map .base ++
    [.read (.auto 0) ⟨0, 0⟩, .read (.auto 0) ⟨0, 1⟩] ++
      [.work 1, .mark 1 ⟨0, 1⟩, .work 1, .leave 1].map .base

/-- The transaction is in the active set before the statement reads it. -/
def enteredBefore : List Label :=
  [.allocate, .enter 1, .readActive (.auto 0), .readCurrent (.auto 0)].map .base ++ readWhileMarking

theorem statement_view_atomic_marking :
    ∃ s view, run step emptyTable.init enteredBefore = some s ∧
    s.base.reader (.auto 0) = .reading view none ∧
      (s.reads (.auto 0)).length = 2 ∧
      ∀ r ∈ s.reads (.auto 0), ∀ r' ∈ s.reads (.auto 0), r.createTxId = r'.createTxId →
      r.visible = r'.visible := by
  obtain ⟨s, hs, hq, hlen⟩ : ∃ s, run step emptyTable.init enteredBefore = some s ∧
      s.base.reader (.auto 0) = .reading ⟨0, 1, [1]⟩ none ∧ (s.reads (.auto 0)).length = 2 :=
      ⟨_, rfl, rfl, rfl⟩
  refine ⟨s, _, hs, hq, hlen, fun r hr r' hr' htx =>
    statement_view_atomic emptyTable _ s hs ?_ _ _ _ hq r r' hr hr' htx⟩
  iterate 3 refine ⟨trivial, ?_⟩; rintro _ ⟨⟩
  refine ⟨?_, ?_⟩
  · intro tx htx hactive
    obtain rfl | rfl : tx = 0 ∨ tx = 1 := by
      have : tx ≤ 1 := htx
      omega
    · exact ⟨true, rfl⟩
    · exact absurd (mem_singleton.mpr rfl) hactive
  rintro _ ⟨⟩
  iterate 16 refine ⟨trivial, ?_⟩; rintro _ ⟨⟩
  trivial

/-- What statement 0 has found: one version of transaction 1 and not the other. -/
def Splits (s : State) : Prop := s.reads (.auto 0) = [⟨⟨0, 1⟩, 1, false⟩, ⟨⟨0, 0⟩, 1, true⟩]

/-- A statement sees one version of a committing transaction and not another: when the
transaction had its id and was not yet in the active set, and when it began between the
two reads of the view. -/
theorem statement_view_splits :
    (∃ s, run step emptyTable.init
        ([.allocate, .readActive (.auto 0), .readCurrent (.auto 0), .enter 1].map .base ++
          readWhileMarking) = some s ∧
      Splits s) ∧
    ∃ s, run step emptyTable.init
        ([.readActive (.auto 0), .allocate, .enter 1, .readCurrent (.auto 0)].map .base ++
          readWhileMarking) = some s ∧
      Splits s :=
  ⟨⟨_, rfl, rfl⟩, ⟨_, rfl, rfl⟩⟩

end RTsql.Executor.StatementView

import RTsql.Executor.DataScan
import RTsql.Library.Run

/-!
# Writers and scans, interleaved

Transactions that insert, update, delete, commit and abort, and Read Committed
statements that take their view and scan, on one table.

## The model

A write of a row is several steps: the slot is written, then the summaries of the
pages are updated, the version is recorded and, for a delete, the tombstone gets
its chain pointer. A commit marks the recorded versions one by one and clears the
summary of the page after each; an abort marks the versions of the transaction one
by one. A scan that comes to the end of a page checks whether all of it is visible
and sets the summary in a later step. Every such step is a label.

A session starts from the pages that recovery leaves and from the summaries that
its redo has built (`Start`); a history with restarts is a sequence of such
sessions, and nothing but the pages goes from one to the next.

## Honest scope

One table: the pages of different tables are disjoint, and so are their summaries.
A transaction runs one write at a time, and its own statements have ended when it
commits or aborts. The choice of the row to update or delete is the label's; the
index that makes it is not part of the model.
-/

namespace RTsql.Executor

open RTsql.Library RTsql.Storage RTsql.Transaction

/-- A write of one row. -/
inductive Write where
  /-- `InsertExecutor::next`. -/
  | insert (tuple : List UInt8)
  /-- `update_row`, of the version `target`. -/
  | update (target : RowId) (tuple : List UInt8)
  /-- `delete_row`, of the version `target`. -/
  | delete (target : RowId)
  deriving DecidableEq

/-- What a write does after it has written its slot. -/
inductive Todo where
  /-- `clear_all_visible`. -/
  | clear (page : ℕ)
  /-- `update_visibility_on_insert`. -/
  | onInsert (page : ℕ)
  /-- `record_version`. -/
  | record (rid : RowId)
  /-- The tombstone `rid` gets its chain pointer. -/
  | link (rid target : RowId)
  deriving DecidableEq

namespace Write

/-- The version header with which the slot is written. -/
def header (tx : ℕ) : Write → VersionHeader
  | insert _ => .new tx
  | update target _ => (VersionHeader.new tx).withNextVersion target
  | delete _ => (VersionHeader.new tx).markDeleted

/-- The tuple; that of a tombstone is empty. -/
def tuple : Write → List UInt8
  | insert tuple | update _ tuple => tuple
  | delete _ => []

/-- The steps that follow the slot `rid`. -/
def todo (rid : RowId) : Write → List Todo
  | insert _ => [.clear rid.pageId, .onInsert rid.pageId, .record rid]
  | update target _ => [.clear rid.pageId, .clear target.pageId, .record rid]
  | delete target => [.clear rid.pageId, .clear target.pageId, .record rid, .link rid target]

/-- The version to be replaced is there. -/
def found (h : Heap (List UInt8)) : Write → Bool
  | insert _ => true
  | update target _ | delete target => (h.header? target).isSome

@[simp] theorem createTxId_header (tx : ℕ) (w : Write) : (w.header tx).createTxId = tx := by
  cases w <;> rfl

end Write

namespace Todo

/-- What the step does to the summaries. -/
def onVis (tx : ℕ) : Todo → VisMap → VisMap
  | clear page, m => m.clearAllVisible page
  | onInsert page, m => m.updateVisibilityOnInsert page tx
  | _, m => m

/-- What the step does to the pages. -/
def onHeap (tx : ℕ) : Todo → Heap (List UInt8) → Heap (List UInt8)
  | link rid target, h => h.setHeader rid ((VersionHeader.new tx).withNextVersion target).markDeleted
  | _, h => h

/-- The version that the step records. -/
def recorded : Todo → Option RowId
  | record rid => some rid
  | _ => none

/-- What the step does to the versions recorded. -/
def onVersions : Todo → List RowId → List RowId
  | record rid, versions => rid :: versions
  | _, versions => versions

end Todo

/-- Every write records the version it has written. -/
theorem Write.recorded_todo (w : Write) (rid : RowId) :
    (w.todo rid).filterMap Todo.recorded = [rid] := by
  cases w <;> rfl

/-- Where a transaction is. -/
inductive Phase where
  | unborn
  /-- `begin`: its id is allocated, and it is not in the active set. -/
  | allocated
  /-- Begun, with the versions it has recorded and what its write has yet to do. -/
  | running (versions : List RowId) (todo : List Todo)
  /-- `commit_mark_versions`, with the versions still to be marked, and the page of the last one
  marked if its summary is still to be cleared. -/
  | committing (rest : List RowId) (page : Option ℕ)
  /-- `abort_cleanup_versions`, with the versions still to be marked; `todo` is what an
  abandoned write has left undone. -/
  | aborting (rest : List RowId) (todo : List Todo)
  /-- It has left the active set. -/
  | finished (committed : Bool)
  deriving DecidableEq

/-- The steps a transaction has before it, or has left undone. -/
def Phase.todo : Phase → List Todo
  | running _ todo | aborting _ todo => todo
  | committing _ (some page) => [.clear page]
  | _ => []

/-- The versions a transaction has written and not yet marked, as far as it knows of them. -/
def Phase.versions : Phase → List RowId
  | running versions todo => versions ++ todo.filterMap Todo.recorded
  | committing rest _ | aborting rest _ => rest
  | _ => []

/-- In the active set. -/
def Phase.Active : Phase → Prop
  | running .. | committing .. | aborting .. => True
  | _ => False

/-- A session that runs statements: outside of any transaction, or within one. -/
inductive Session where
  /-- Auto-commit. -/
  | auto (n : ℕ)
  /-- In the transaction `tx`. -/
  | own (tx : ℕ)
  deriving DecidableEq

/-- The reader's own id in `statement_snapshot`. -/
def Session.selfTxId : Session → ℕ
  | auto _ => 0
  | own tx => tx

/-- Where a statement is. -/
inductive Reader where
  | idle
  /-- It has read the active set. -/
  | opened (active : List ℕ)
  /-- It has its view, and may have found a page all visible. -/
  | reading (view : Snapshot) (checked : Option ℕ)
  deriving DecidableEq

/-- The allocator, the active set, the pages and their summaries, the transactions and the
statements. -/
structure State where
  counter : ℕ
  /-- `active_tx_ids`. -/
  active : List ℕ
  heap : Heap (List UInt8)
  /-- Their summaries. -/
  vis : VisMap
  phase : ℕ → Phase
  reader : Session → Reader

/-- What a session of the database starts from. -/
structure Start where
  counter : ℕ
  heap : Heap (List UInt8)
  /-- The slots that redo has written: the page and the creator. -/
  redone : List (ℕ × ℕ)
  wf : heap.WF
  /-- Every version was created by a transaction whose id is used up. -/
  created : ∀ rid v, heap.header? rid = some v → v.createTxId ≤ counter
  /-- So was every version that redo has written. -/
  redoneBy : ∀ e ∈ redone, e.2 ≤ counter

/-- The summaries that redo leaves: `redo_tuple_at_row_id`, for each slot it writes. -/
def Start.vis (st : Start) : VisMap :=
  st.redone.foldl (fun m e => (m.clearAllVisible e.1).updateVisibilityOnInsert e.1 e.2) noSummaries

/-- No transaction and no statement is running. -/
def Start.init (st : Start) : State :=
  { counter := st.counter, active := [], heap := st.heap, vis := st.vis
    phase := fun tx => if tx ≤ st.counter then .finished true else .unborn
    reader := fun _ => .idle }

/-- A step. -/
inductive Label where
  /-- `begin`: allocate an id. -/
  | allocate
  /-- `begin`: enter the active set. -/
  | enter (tx : ℕ)
  /-- A statement of `tx` writes a slot, on page `page`. -/
  | write (tx page : ℕ) (w : Write)
  /-- The next step of a write, or of a commit. -/
  | work (tx : ℕ)
  /-- `commit` reaches `commit_mark_versions`. -/
  | commit (tx : ℕ)
  /-- `abort` reaches `abort_cleanup_versions`. -/
  | abort (tx : ℕ)
  /-- A version of a commit or an abort is marked. -/
  | mark (tx : ℕ) (rid : RowId)
  /-- Leave the active set. -/
  | leave (tx : ℕ)
  /-- `statement_snapshot`: read the active set. -/
  | readActive (q : Session)
  /-- `statement_snapshot`: read the allocator. -/
  | readCurrent (q : Session)
  /-- A scan at the end of a page finds all of it visible. -/
  | checkPage (q : Session) (page : ℕ)
  /-- It sets the summary. -/
  | setPage (q : Session)
  | close (q : Session)
  deriving DecidableEq

/-! ### Steps -/

namespace State

/-- Transaction `tx` moves on to `p`. -/
def setPhase (s : State) (tx : ℕ) (p : Phase) : State :=
  { s with phase := Function.update s.phase tx p }

/-- The statement of session `q` moves on to `r`. -/
def setReader (s : State) (q : Session) (r : Reader) : State :=
  { s with reader := Function.update s.reader q r }

/-- The slot of a write. -/
def writeSlot (s : State) (tx page : ℕ) (w : Write) : State :=
  { s with heap := s.heap.append page ⟨w.header tx, w.tuple⟩ }

/-- A header is written. -/
def setHeader (s : State) (rid : RowId) (v : VersionHeader) : State :=
  { s with heap := s.heap.setHeader rid v }

/-- One step of a write. -/
def perform (s : State) (tx : ℕ) (t : Todo) : State :=
  { s with heap := t.onHeap tx s.heap, vis := t.onVis tx s.vis }

end State

/-- A step of the system. -/
def step (s : State) : Label → Option State
  | .allocate =>
    some ({ s with counter := s.counter + 1 }.setPhase (s.counter + 1) .allocated)
  | .enter tx =>
    match s.phase tx with
    | .allocated => some ({ s with active := tx :: s.active }.setPhase tx (.running [] []))
    | _ => none
  | .write tx page w =>
    match s.phase tx with
    | .running versions [] =>
      if s.heap.Writable page ∧ w.found s.heap then
        some ((s.writeSlot tx page w).setPhase tx (.running versions (w.todo (s.heap.nextRid page))))
      else none
    | _ => none
  | .work tx =>
    match s.phase tx with
    | .running versions (t :: todo) =>
      some ((s.perform tx t).setPhase tx (.running (t.onVersions versions) todo))
    | .committing rest (some page) =>
      some ((s.perform tx (.clear page)).setPhase tx (.committing rest none))
    | _ => none
  | .commit tx =>
    match s.phase tx, s.reader (.own tx) with
    | .running versions [], .idle => some (s.setPhase tx (.committing versions none))
    | _, _ => none
  | .abort tx =>
    match s.phase tx, s.reader (.own tx) with
    | .running versions todo, .idle =>
      some (s.setPhase tx (.aborting (versions ∪ s.heap.versionsCreatedBy tx) todo))
    | _, _ => none
  | .mark tx rid =>
    match s.phase tx, s.heap.header? rid with
    | .committing rest none, some v =>
      if rid ∈ rest then
        some ((s.setHeader rid (v.commit tx)).setPhase tx
          (.committing (rest.filter (· ≠ rid)) (some rid.pageId)))
      else none
    | .aborting rest todo, some v =>
      if rid ∈ rest then
        some ((s.setHeader rid v.markAborted).setPhase tx (.aborting (rest.filter (· ≠ rid)) todo))
      else none
    | _, _ => none
  | .leave tx =>
    match s.phase tx with
    | .committing [] none =>
      some ({ s with active := s.active.filter (· ≠ tx) }.setPhase tx (.finished true))
    | .aborting [] _ =>
      some ({ s with active := s.active.filter (· ≠ tx) }.setPhase tx (.finished false))
    | _ => none
  | .readActive q =>
    match s.reader q, q, s.phase q.selfTxId with
    | .idle, .auto _, _ => some (s.setReader q (.opened s.active))
    | .idle, .own _, .running _ _ => some (s.setReader q (.opened s.active))
    | _, _, _ => none
  | .readCurrent q =>
    match s.reader q with
    | .opened active => some (s.setReader q (.reading (.statementView s.counter q.selfTxId active) none))
    | _ => none
  | .checkPage q page =>
    match s.reader q with
    | .reading view _ =>
      if checkPageAllVisible s.heap page view then some (s.setReader q (.reading view (some page)))
      else none
    | _ => none
  | .setPage q =>
    match s.reader q with
    | .reading view (some page) =>
      some ({ s with vis := s.vis.setAllVisible page }.setReader q (.reading view none))
    | _ => none
  | .close q => some (s.setReader q .idle)

end RTsql.Executor

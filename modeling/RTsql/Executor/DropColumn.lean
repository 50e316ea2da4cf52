import RTsql.Executor.Consistency
import RTsql.Storage.Narrowing
import RTsql.Wal.IndexRebuild

/-!
# Scans beside an `ALTER TABLE DROP COLUMN`

`alter_drop_column` and `apply_column_drop`, cut into the steps between which other tasks run,
beside any number of `DataScanExecutor`s on the same table.

The statement acquires the table's `NarrowingState` and publishes it, writes a tombstone and a
narrow tuple for every row, commits, changes the catalog, installs the new layout and clears the
state. A scan is planned with the layout installed at that time. At the beginning of every `next`,
and only there, it fails if the state is published.

Nobody else writes to the table here. Only one statement runs, so that `published` is a function of
how far it has come. Its index entries are left out, since these scans do not read them, and so are
the predicate, the projection and the cap of a scan: a row that does not match is passed over. -/

namespace RTsql.Executor.DropColumn

open RTsql.Library RTsql.Storage RTsql.Transaction

/-! ### Tuples -/

/-- A tuple, and the row whose version it is: its values in the columns that the table has before
the statement. -/
structure Tuple where
  data : Row
  row : Row

/-- The data pages before the statement. -/
def withRows (m : TableMeta) (h : Heap Row) : Heap Tuple := h.map fun data => ⟨data, m.readRow data⟩

/-- Not deleted, and not replaced by a version that is not rolled back. -/
def isLive {α : Type} (h : Heap α) (rid : RowId) : Bool :=
  !Wal.pointed h rid && (h.header? rid).any fun v => !v.isDeleted

/-- `live_rows`. -/
def liveRows {α : Type} (h : Heap α) : List RowId := h.rids.filter (isLive h)

theorem isLive_eq_true {α : Type} {h : Heap α} (hwf : h.WF) {rid : RowId} : isLive h rid = true ↔
    Current h rid := by
  have hpointed : Wal.pointed h rid = true ↔ Replaced h rid := by
    rw [Wal.pointed_eq_true hwf]
    constructor
    · rintro ⟨x, ⟨v, hv, hcreate⟩, w, hw, hnext⟩
      cases hv.symm.trans hw
      exact ⟨x, v, hv, hcreate, hnext⟩
    · rintro ⟨x, v, hv, hcreate, hnext⟩
      exact ⟨x, ⟨v, hv, hcreate⟩, v, hv, hnext⟩
  rw [isLive, Bool.and_eq_true, Bool.not_eq_true', Option.any_eq_true, ← Bool.not_eq_true, hpointed,
    Current, and_comm]
  simp only [Bool.not_eq_true']

/-- The rows that are rewritten are the current versions. -/
theorem mem_liveRows {α : Type} {h : Heap α} (hwf : h.WF) {rid : RowId} : rid ∈ liveRows h ↔
    Current h rid := by
  rw [liveRows, List.mem_filter, isLive_eq_true hwf, and_iff_right_of_imp]
  intro hc
  exact (Heap.mem_rids hwf).mpr (Option.ne_none_iff_exists'.mp hc.slot?)

/-! ### The statement -/

/-- How far the statement has come. -/
inductive Alter where
  | ready
  /-- Its transaction has an id, and is not active yet. -/
  | allocated
  | begun
  | acquired
  | published
  /-- These rows are still to be rewritten. -/
  | rewriting (rest : List RowId)
  /-- The tombstone of a row is written, the summaries of the pages are not cleared yet. -/
  | written (tombstone rid : RowId) (rest : List RowId)
  /-- The tombstone is recorded, and does not refer to the row yet. -/
  | tombstoned (tombstone rid : RowId) (rest : List RowId)
  /-- It refers to it; the narrow tuple is not written yet. -/
  | linked (rid : RowId) (rest : List RowId)
  | inserted (rid : RowId) (rest : List RowId)
  | committing (unmarked : List RowId)
  | committed
  /-- The catalog has the new layout. -/
  | narrowed
  | installed
  | done
  /-- The catalog could not be changed. -/
  | kept
  /-- A checkpoint has installed the layout afterwards. -/
  | keptInstalled
  /-- The statement was abandoned after the commit. -/
  | abandoned (narrowed : Bool)
  /-- It has failed, or was abandoned before the commit; its versions are still there. -/
  | failed
  | undoing (unmarked : List RowId)
  | rolledBack

/-- `published`, of the `NarrowingState`. -/
def Alter.isPublished : Alter → Bool
  | published | rewriting _ | written _ _ _ | tombstoned _ _ _ | linked _ _ | inserted _ _ | committing _ | committed
  | narrowed | installed | kept | keptInstalled => true
  | ready | allocated | begun | acquired | done | abandoned _ | failed | undoing _ | rolledBack => false

/-- The table is mapped to the new layout. -/
def Alter.isInstalled : Alter → Bool
  | installed | done | keptInstalled => true
  | _ => false

/-- It can still fail. -/
def Alter.canFail : Alter → Bool
  | acquired | published | rewriting _ | written _ _ _ | tombstoned _ _ _ | linked _ _ | inserted _ _ | committing _ =>
    true
  | _ => false

/-! ### The scans -/

/-- What a scan does next. -/
inductive ScanPhase where
  /-- `statement_snapshot` has read the active transactions. -/
  | viewing (self : ℕ) (active : List ℕ)
  /-- The table is to be looked up. -/
  | opening
  /-- Between two calls of `next`. -/
  | idle
  /-- `build_superseded_map` comes to page `k` of the chain. -/
  | mapping (k : ℕ) (m : RowId → Option (RowId × ℕ))
  /-- The active transactions are to be read. -/
  | capturing
  /-- Whether the slot is superseded is to be decided. -/
  | testing
  /-- `slot_is_superseded` comes to this version. -/
  | walking (rid : RowId) (depth : ℕ)
  /-- The summary of the page is to be read. -/
  | looking
  /-- The slot is to be read. -/
  | fetching (info : Option PageVisibilityInfo)
  /-- The page is read; there is another one. -/
  | leaving (more : Bool)
  /-- All of the page is visible. -/
  | summarising (more : Bool)
  | ended

/-- The scan is in a call of `next`. -/
def ScanPhase.inside : ScanPhase → Bool
  | viewing _ _ | opening | idle | ended => false
  | mapping _ _ | capturing | testing | walking _ _ | looking | fetching _ | leaving _ | summarising _ => true

/-- `DataScanExecutor`. -/
structure Scan where
  phase : ScanPhase
  snapshot : Option Snapshot
  /-- It was planned with the new layout. -/
  narrow : Bool
  /-- `superseded_map` -/
  map : Option (RowId → Option (RowId × ℕ))
  /-- `active_tx_ids` -/
  active : Option (List ℕ)
  /-- The position of the page in the chain, and the slot. -/
  page : ℕ
  slot : ℕ
  /-- The rows it has returned, each with the row whose version was read. -/
  out : List (Row × Row)

structure State where
  heap : Heap Tuple
  vis : VisMap
  lastTx : ℕ
  /-- Transactions that have an id and are not active yet. -/
  starting : List ℕ
  active : List ℕ
  /-- The transaction of the statement, and the versions recorded for it. -/
  tx : ℕ
  recorded : List RowId
  alter : Alter
  scans : List Scan

/-! ### The steps of the statement -/

inductive AlterStep where
  /-- `begin`: the transaction gets its id, and becomes active. -/
  | begin
  | enter
  | acquire
  | publish
  /-- The rows to be rewritten are collected. -/
  | collect
  | tombstone (page : ℕ)
  /-- The summaries of the pages are cleared, and the version is recorded. -/
  | record
  | link
  | insert (page : ℕ)
  | commit
  /-- A version gets its commit mark. -/
  | mark (rid : RowId)
  /-- All have theirs: the transaction is no longer active. -/
  | leave
  | narrow
  | keep
  | install
  | clear
  /-- An error ends the statement, or it is abandoned, and its guard clears the state. -/
  | fail
  | abandon
  /-- A checkpoint publishes what a statement has committed and not installed. -/
  | checkpoint
  /-- The transaction is aborted, or reclaimed as an abandoned one. -/
  | rollback
  /-- A version is marked as aborted. -/
  | undo (rid : RowId)
  | ended

def tombstoneHeader (tx : ℕ) : VersionHeader := (VersionHeader.new tx).markDeleted

def linkedHeader (tx : ℕ) (rid : RowId) : VersionHeader :=
    ((VersionHeader.new tx).withNextVersion rid).markDeleted

/-- What an abort takes back: nothing if no version is recorded, and else also those that are not
recorded. -/
def State.toUndo (s : State) : List RowId :=
  if s.recorded.isEmpty then [] else s.recorded ++ s.heap.versionsCreatedBy s.tx

/-- A step of the statement. -/
def State.alterStep (m : TableMeta) (removed : ℕ) (s : State) (l : AlterStep) : Option State :=
  match l, s.alter with
  | .begin, .ready => some { s with alter := .allocated, lastTx := s.lastTx + 1, tx := s.lastTx + 1 }
  | .enter, .allocated => some { s with alter := .begun, active := s.tx :: s.active }
  | .acquire, .begun => some { s with alter := .acquired }
  | .publish, .acquired => some { s with alter := .published }
  | .collect, .published => some { s with alter := .rewriting (liveRows s.heap) }
  | .tombstone page, .rewriting (rid :: rest) =>
    if s.heap.Writable page then
      some { s with
        alter := .written (s.heap.nextRid page) rid rest
        heap := s.heap.append page ⟨tombstoneHeader s.tx, ⟨[], []⟩⟩ }
    else none
  | .record, .written tombstone rid rest =>
    some { s with
      alter := .tombstoned tombstone rid rest
      recorded := tombstone :: s.recorded
      vis := (s.vis.clearAllVisible tombstone.pageId).clearAllVisible rid.pageId }
  | .link, .tombstoned tombstone rid rest =>
    some { s with alter := .linked rid rest, heap := s.heap.setHeader tombstone (linkedHeader s.tx rid) }
  | .insert page, .linked rid rest =>
    match s.heap.slot? rid with
    | some slot =>
      if s.heap.Writable page then
        some { s with
          alter := .inserted (s.heap.nextRid page) rest
          heap := s.heap.append page
            ⟨VersionHeader.new s.tx, ⟨(m.readRow slot.tuple.data).eraseIdx removed, slot.tuple.row⟩⟩ }
      else none
    | none => none
  | .record, .inserted rid rest =>
    some { s with
      alter := .rewriting rest
      recorded := rid :: s.recorded
      vis := s.vis.clearAllVisible rid.pageId }
  | .commit, .rewriting [] => some { s with alter := .committing s.recorded }
  | .mark rid, .committing unmarked =>
    match s.heap.header? rid with
    | some v =>
      if rid ∈ unmarked then
        some { s with
          alter := .committing (unmarked.erase rid)
          heap := s.heap.setHeader rid (v.commit s.tx)
          vis := s.vis.clearAllVisible rid.pageId }
      else none
    | none => none
  | .leave, .committing [] => some { s with alter := .committed, active := s.active.filter (· ≠ s.tx) }
  | .narrow, .committed => some { s with alter := .narrowed }
  | .keep, .committed => some { s with alter := .kept }
  | .install, .narrowed => some { s with alter := .installed }
  | .clear, .installed => some { s with alter := .done }
  | .fail, a => if a.canFail then some { s with alter := .failed } else none
  | .abandon, .committed => some { s with alter := .abandoned false }
  | .abandon, .narrowed => some { s with alter := .abandoned true }
  | .checkpoint, .kept => some { s with alter := .keptInstalled }
  | .checkpoint, .abandoned false => some { s with alter := .done }
  | .rollback, .failed => some { s with alter := .undoing s.toUndo }
  | .undo rid, .undoing unmarked =>
    match s.heap.header? rid with
    | some v =>
      if rid ∈ unmarked then
        some { s with alter := .undoing (unmarked.erase rid)
                      heap := s.heap.setHeader rid v.markAborted }
      else none
    | none => none
  | .ended, .undoing [] => some { s with alter := .rolledBack, active := s.active.filter (· ≠ s.tx) }
  | _, _ => none

/-! ### The steps of a scan -/

inductive ScanStep where
  /-- `statement_snapshot` reads the last transaction id. -/
  | view
  | open
  /-- `next` is called, and looks at the `NarrowingState`. -/
  | call
  | map
  | capture
  | test
  | walk
  | look
  /-- The slot is read; its row matches the predicate or not. -/
  | fetch (matched : Bool)
  | leave
  | summarise

/-- The links of a page. -/
def pageLinks (h : Heap Tuple) (page : ℕ) : List VersionLink :=
  (h.pageRids page).filterMap fun rid => do
    let v ← h.header? rid
    let target ← v.nextVersion
    some ⟨rid, v.createTxId, target⟩

/-- The scan goes on with the next slot. -/
def Scan.skip (c : Scan) : Scan := { c with slot := c.slot + 1, phase := .testing }

/-- The scan goes on with the next page, if there is one. -/
def Scan.nextPage (c : Scan) (more : Bool) : Scan :=
  if more then { c with page := c.page + 1, slot := 0, phase := .testing }
    else { c with phase := .ended }

/-- What the next call of `next` begins with. -/
def Scan.afterMap (c : Scan) : Scan :=
    { c with phase := if c.active.isSome then .testing else .capturing }

/-- The page is read to its end. -/
def Scan.atEnd (c : Scan) (s : State) (info : Option PageVisibilityInfo) : Scan :=
  let more := decide (c.page + 1 < s.heap.chain.length)
  if c.snapshot.isSome && !pageAllVisible info && !pageAllInvisible info c.snapshot then
    { c with phase := .leaving more }
  else c.nextPage more

/-- The slot is read, by its position on the page. -/
def Scan.fetch (m m' : TableMeta) (s : State) (c : Scan) (page : ℕ) (info : Option PageVisibilityInfo)
    (matched : Bool) : Scan :=
  if pageAllInvisible info c.snapshot then c.nextPage (decide (c.page + 1 < s.heap.chain.length))
  else
    match (s.heap.slots page)[c.slot]? with
    | none => c.atEnd s info
    | some (_, slot) =>
      if slot.header.isDeleted then c.skip
      else if !pageAllVisible info && !visible c.snapshot slot.header then c.skip
      else if matched then
        let values := if c.narrow then m'.readRow slot.tuple.data else m.readRow slot.tuple.data
        { c with slot := c.slot + 1, phase := .idle, out := c.out ++ [(values, slot.tuple.row)] }
      else c.skip

/-- A step of a scan. -/
def Scan.step (m m' : TableMeta) (s : State) (c : Scan) (l : ScanStep) : Option Scan :=
  match l, c.phase with
  | .view, .viewing self active =>
    some { c with phase := .opening, snapshot := some (.statementView s.lastTx self active) }
  | .open, .opening => some { c with phase := .idle, narrow := s.alter.isInstalled }
  | .call, .idle =>
    some (if s.alter.isPublished then { c with phase := .ended }
      else if c.map.isSome then c.afterMap
      else { c with phase := .mapping 0 fun _ => none })
  | .map, .mapping k links =>
    some (match s.heap.chain[k]? with
      | some page => { c with phase := .mapping (k + 1) ((pageLinks s.heap page).foldl addLink links) }
      | none => { c with map := some links }.afterMap)
  | .capture, .capturing => some { c with phase := .testing, active := some s.active }
  | .test, .testing =>
    c.map.map fun links =>
      match s.heap.chain[c.page]? with
      | none => { c with phase := .ended }
      | some page =>
        match links ⟨page, c.slot⟩ with
        | some (rid, _) => { c with phase := .walking rid 0 }
        | none => { c with phase := .looking }
  | .walk, .walking rid depth =>
    match c.map, c.active with
    | some links, some active =>
      some (match s.heap.header? rid with
        | none => { c with phase := .ended }
        | some v =>
          if suppresses c.snapshot active v then c.skip
          else
            match links rid with
            | none => { c with phase := .looking }
            | some (next, _) =>
              if maxChainDepth ≤ depth + 1 then { c with phase := .ended }
              else { c with phase := .walking next (depth + 1) })
    | _, _ => none
  | .look, .looking => (s.heap.chain[c.page]?).map fun page => { c with phase := .fetching (s.vis page) }
  | .fetch matched, .fetching info =>
    (s.heap.chain[c.page]?).map fun page => c.fetch m m' s page info matched
  | .leave, .leaving more =>
    match c.snapshot, s.heap.chain[c.page]? with
    | some view, some page =>
      some (if checkPageAllVisible s.heap page view then
        { c with phase := .summarising more } else c.nextPage more)
    | _, _ => none
  | .summarise, .summarising more => some (c.nextPage more)
  | _, _ => none

/-- What a step of a scan does to the summaries. -/
def Scan.summaries (s : State) (c : Scan) : ScanStep → VisMap
  | .summarise =>
    match s.heap.chain[c.page]? with
    | some page => s.vis.setAllVisible page
    | none => s.vis
  | _ => s.vis

/-! ### The system -/

inductive Label where
  /-- Another transaction gets its id, becomes active, or ends. -/
  | allocate
  | enter (tx : ℕ)
  | leave (tx : ℕ)
  | alter (l : AlterStep)
  /-- A statement without a snapshot. -/
  | start
  /-- A statement with a snapshot, in transaction `self`. -/
  | startView (self : ℕ)
  | scan (n : ℕ) (l : ScanStep)

/-- A scan of a statement that has just begun. -/
def Scan.new (phase : ScanPhase) : Scan := ⟨phase, none, false, none, none, 0, 0, []⟩

/-- The next step. -/
def step (m : TableMeta) (removed : ℕ) (hpk : removed ≠ m.pkIndex) (s : State) : Label → Option State
  | .allocate => some { s with lastTx := s.lastTx + 1, starting := (s.lastTx + 1) :: s.starting }
  | .enter tx =>
    if tx ∈ s.starting then
      some { s with starting := s.starting.filter (· ≠ tx), active := tx :: s.active }
    else none
  | .leave tx => if tx = s.tx then none else some { s with active := s.active.filter (· ≠ tx) }
  | .alter l => s.alterStep m removed l
  | .start => some { s with scans := s.scans ++ [.new .opening] }
  | .startView self => some { s with scans := s.scans ++ [.new (.viewing self s.active)] }
  | .scan n l =>
    s.scans[n]?.bind fun c => (c.step m (m.narrowed removed hpk) s l).map fun c' =>
      { s with scans := s.scans.set n c', vis := c.summaries s l }

/-- The table before the statement; `lastTx` is the last transaction id. -/
def init (m : TableMeta) (h : Heap Row) (vis : VisMap) (lastTx : ℕ) (active : List ℕ) : State :=
  ⟨withRows m h, vis, lastTx, [], active, 0, [], .ready, []⟩

/-- Every row that was returned has in each column the value that the column had in that row. -/
def RightValues (removed : ℕ) (s : State) : Prop :=
  ∀ c ∈ s.scans, ∀ r ∈ c.out, r.1 = if c.narrow then r.2.eraseIdx removed else r.2

/-! ### When it is right -/

/-- The transactions that have written to the table have ended. -/
structure Ended (h : Heap Row) (lastTx : ℕ) (active : List ℕ) : Prop where
  wf : h.WF
  /-- A version is rolled back, or its transaction is committed. -/
  committed : ∀ rid ∈ h.rids, ∀ v ∈ h.header? rid, v.createTxId = 0 ∧ v.isDeleted = true ∨
    v.createTxId ≠ 0 ∧ v.mark ≠ .unset ∧ v.createTxId ≤ lastTx ∧ v.createTxId ∉ active

/-- There is no narrow tuple, or all are rolled back. -/
def Clean (s : State) : Prop :=
  ∀ rid ∈ s.heap.rids, ∀ v ∈ s.heap.header? rid, v.createTxId = s.tx → v.isDeleted = true

/-- The logical ids of the slots are their positions. -/
def Positional (h : Heap Tuple) : Prop :=
  ∀ page ∈ h.chain, (h.slots page).map Prod.fst = List.range (h.slots page).length

/-- A scan with the old layout is not inside `next` when the statement publishes its state, and does
not begin another `next` when the state is not published and there are narrow tuples. A scan with
the new layout begins where logical ids are positions, and has no snapshot in which the statement's
transaction was active. -/
def Ok (s : State) : Label → Prop
  | .alter .publish => ∀ c ∈ s.scans, c.narrow = true ∨ c.phase.inside = false
  | .scan n .call => ∀ c ∈ s.scans[n]?, c.narrow = true ∨ s.alter.isPublished = true ∨ Clean s
  | .scan n .open => ∀ c ∈ s.scans[n]?, s.alter.isInstalled = true →
    Positional s.heap ∧ ∀ view ∈ c.snapshot, s.tx ∉ view.activeTxIds
  | _ => True

instance (s : State) : Decidable (Clean s) :=
    inferInstanceAs (Decidable (∀ rid ∈ _, ∀ v ∈ s.heap.header? rid, _))

instance (h : Heap Tuple) : Decidable (Positional h) := inferInstanceAs (Decidable (∀ page ∈ h.chain, _))

instance (s : State) (label : Label) : Decidable (Ok s label) := by
  unfold Ok
  split <;> infer_instance

instance (removed : ℕ) (s : State) : Decidable (RightValues removed s) :=
  inferInstanceAs (Decidable (∀ c ∈ _, ∀ r ∈ _, _))

end RTsql.Executor.DropColumn

import RTsql.Executor.DropColumn
import RTsql.Transaction.IndexConsistency

/-!
# ALTER TABLE DROP COLUMN, and what other transactions have written

`alter_drop_column` as a function of the table, with its indexes, between other transactions that
are open: the statement runs from its beginning to its commit, and then the others commit or roll
back. (`DropColumn` has it step by step beside scans.)

The rows that are rewritten are those that are not deleted and that no version replaces, whoever has
written them. A statement that fails leaves its transaction open, if it has written anything: the
executor aborts it without saying which tables it has written to, and that is an error.

After the commit the catalog is changed and the new layout installed. If the catalog cannot be
changed the statement succeeds all the same, the layout stays, and the table cannot be read. Whether
it can be changed is an input here. `serialize_tuple` is left out: it takes any row that was
decoded. -/

namespace RTsql.Executor.AlterTable

open RTsql.Storage RTsql.Transaction RTsql.Transaction.History DropColumn

/-- Why the statement fails. -/
inductive AlterError where
  | internal (message : String)
  | execution (message : String)
  | storage (e : StorageError)
  deriving DecidableEq

/-! ### The checks -/

/-- What is checked of the column, and its number. -/
def checkDrop (m : TableMeta) (table column : String) :
    Except AlterError { removed // m.Droppable removed } :=
  match hpos : m.position column with
  | none =>
    .error (.internal ("alter_drop_column: column '" ++ column ++ "' not found on table '" ++
      table ++ "'"))
  | some removed =>
    if m.columns.length = 1 then .error (.internal "cannot drop the last column of a table")
    else if hpk : m.pkIndex = removed then
      .error (.internal ("column '" ++ column ++ "' is the PRIMARY KEY and cannot be dropped"))
    else if hunique : removed ∈ m.uniqueCols then
      .error (.internal ("column '" ++ column ++ "' is UNIQUE-declared and cannot be dropped"))
    else if hsecondary : ∃ s ∈ m.secondaryIndexes, removed ∈ s.columnIndex :: s.extraColumnIndexes then
      .error (.internal ("column '" ++ column ++
        "' is referenced by a secondary index and cannot be dropped (drop the index first)"))
    else
      .ok ⟨removed, (List.findIdx?_eq_some_iff_getElem.mp hpos).1, fun hc => hpk hc.symm, hunique,
        fun s hs hc => hsecondary ⟨s, hs, hc⟩⟩

/-! ### The rewrite -/

/-- The entries of the old row leave the indexes. -/
def dropOps (m : TableMeta) (rid : RowId) (row : Row) : IndexId → List IndexOp
  | .secondary n => ((m.rawKey row (.secondary n)).map (.deleteExact · rid)).toList
  | ix => ((m.rawKey row ix).map .delete).toList

/-- The tombstone of a row is written, on the page `page`, and the row's entries leave the
indexes. -/
def dropRow (m : TableMeta) (tx : ℕ) (page : Option ℕ) (rid : RowId) (row : Row) (t : Table) :
    Table × Except StorageError Unit :=
  match write t page ⟨tombstoneHeader tx, []⟩ with
  | none => (t, .error .io)
  | some (t, tombstone) =>
    ({ t with heap := t.heap.setHeader tombstone (linkedHeader tx rid) } : Table).maintain m
      fun ix _ => dropOps m rid row ix

/-- A row is rewritten; its tombstone and its narrow tuple land on the two pages. -/
def rewriteRow (m m' : TableMeta) (removed tx : ℕ) (pages : Option ℕ × Option ℕ) (rid : RowId)
    (t : Table) : Table × Except StorageError Unit :=
  match t.heap.slot? rid with
  | none => (t, .error (.slotNotFound rid))
  | some s =>
    let row := m.readRow s.tuple
    match dropRow m tx pages.1 rid row t with
    | (t, .error e) => (t, .error e)
    | (t, .ok ()) =>
      match pages.2 with
      | none => (t, .error .io)
      | some page =>
        if t.heap.Writable page then
          let new := t.heap.nextRid page
          match ({ t with heap := t.heap.append page ⟨.new tx, row.eraseIdx removed⟩ } :
            Table).maintain m'
              fun ix _ => insertOps m' new (row.eraseIdx removed) ix with
          | (t, .error e) => (t, .error e)
          | (t, .ok ()) => ({ t with recorded := new :: t.recorded }, .ok ())
        else (t, .error .io)

/-- `alter_drop_column`, and the new layout. `narrowing`: another narrowing of the table is in
flight. -/
def alterDropColumn (m : TableMeta) (table column : String) (tx : ℕ) (pages : RowId →
    Option ℕ × Option ℕ) (narrowing : Bool) (t : Table) : Table × Except AlterError TableMeta :=
  match checkDrop m table column with
  | .error e => (t, .error e)
  | .ok ⟨removed, hd⟩ =>
    if narrowing then
      (t, .error (.execution ("table '" ++ table ++
        "' already has an in-flight ALTER TABLE DROP COLUMN; concurrent narrowing DDL refused")))
    else
      let m' := m.narrowed removed hd.pk
      match forEachVersion (fun rid => rewriteRow m m' removed tx (pages rid) rid)
        (liveRows t.heap) t with
      | (t, .error e) => (t, .error (.storage e))
      | (t, .ok ()) => (t, .ok m')

/-- The indexes admit the entries of the narrow tuple of a row. -/
def RewriteAdmitted (m m' : TableMeta) (removed tx : ℕ) (pages : Option ℕ × Option ℕ) (rid : RowId)
    (t : Table) : Prop :=
  ∀ s ∈ t.heap.slot? rid, ∀ page ∈ pages.2,
    (dropRow m tx pages.1 rid (m.readRow s.tuple) t).1.Admits m' fun ix _ =>
      insertOps m' ((dropRow m tx pages.1 rid (m.readRow s.tuple) t).1.heap.nextRid page)
        ((m.readRow s.tuple).eraseIdx removed) ix

instance (m m' : TableMeta) (removed tx : ℕ) (pages : Option ℕ × Option ℕ) (rid : RowId) :
    DecidablePred (RewriteAdmitted m m' removed tx pages rid) := fun t =>
  inferInstanceAs (Decidable (∀ s ∈ t.heap.slot? rid, _))

/-- **The condition on the rewrite**: the indexes admit the entries of the narrow tuples. -/
def AlterAdmitted (m : TableMeta) (column : String) (tx : ℕ) (pages : RowId → Option ℕ × Option ℕ)
    (t : Table) : Prop :=
  ∀ removed ∈ m.position column, ∀ hpk : removed ≠ m.pkIndex,
    AlongVersions (fun rid => RewriteAdmitted m (m.narrowed removed hpk) removed tx (pages rid) rid)
      (fun rid => rewriteRow m (m.narrowed removed hpk) removed tx (pages rid) rid) (liveRows t.heap) t

instance (m : TableMeta) (column : String) (tx : ℕ) (pages : RowId → Option ℕ × Option ℕ) (t : Table) :
    Decidable (AlterAdmitted m column tx pages t) :=
  inferInstanceAs (Decidable (∀ removed ∈ m.position column, _))

/-! ### Open transactions -/

/-- A table, and the transactions that are open. -/
structure State where
  table : Table
  /-- `tx_versions`, of this table. -/
  versions : ℕ → List RowId
  /-- `active_tx_ids` -/
  active : List ℕ
  lastTx : ℕ
  /-- The `NarrowingState` is published. -/
  narrowing : Bool

/-- `apply_column_drop`, and the layout that is installed then. `catalog`: the catalog can be
changed. -/
def State.applyColumnDrop (m m' : TableMeta) (catalog : Bool) (s : State) : State × TableMeta :=
  if catalog then ({ s with narrowing := false }, m') else ({ s with narrowing := true }, m)

/-- `ALTER TABLE DROP COLUMN`: the rewrite in a transaction of its own, its commit, and the new
layout. -/
def State.alter (m : TableMeta) (table column : String) (pages : RowId → Option ℕ × Option ℕ)
    (catalog : Bool) (s : State) : State × Except AlterError TableMeta :=
  let tx := s.lastTx + 1
  match alterDropColumn m table column tx pages s.narrowing s.table with
  | (t, .ok m') =>
    let t := { t with heap := commitMarkVersions tx t.recorded t.heap, recorded := [] }
    let (s, layout) := { s with table := t, lastTx := tx }.applyColumnDrop m m' catalog
    (s, .ok layout)
  | (t, .error e) =>
    ({ s with
       table := { t with recorded := [] }
       versions := Function.update s.versions tx t.recorded
       active := if t.recorded.isEmpty then s.active else tx :: s.active
       lastTx := tx }, .error e)

/-- How an open transaction ends. -/
inductive End where
  | commit (tx : ℕ)
  /-- The versions are visited in this order. -/
  | rollback (tx : ℕ) (order : List RowId)

/-- What a rollback visits: the versions recorded, and then those found in the data pages; a table
for which none is recorded is not looked at. -/
def State.toUndo (s : State) (tx : ℕ) : List RowId :=
  if (s.versions tx).isEmpty then [] else s.versions tx ++ s.table.heap.versionsCreatedBy tx

/-- An open transaction ends; `none` if that fails. -/
def State.finish (m : TableMeta) (s : State) : End → Option State
  | .commit tx =>
    if tx ∈ s.active then
      some { s with
        table := { s.table with heap := commitMarkVersions tx (s.versions tx) s.table.heap }
        versions := Function.update s.versions tx []
        active := s.active.filter (· ≠ tx) }
    else none
  | .rollback tx order =>
    if tx ∈ s.active ∧ order.Nodup ∧ order ⊆ s.toUndo tx ∧ s.toUndo tx ⊆ order then
      match abortTable m tx order s.table with
      | (t, .ok ()) =>
        some { s with
          table := t
          versions := Function.update s.versions tx []
          active := s.active.filter (· ≠ tx) }
      | (_, .error _) => none
    else none

/-- One after the other. -/
def State.finishAll (m : TableMeta) (s : State) : List End → Option State
  | [] => some s
  | e :: rest => (s.finish m e).bind fun s' => s'.finishAll m rest

/-! ### Committed rows -/

/-- The version is the newest one of its row, apart from those of active transactions, and is not
deleted. -/
def isCommitted (h : Heap Row) (active : List ℕ) (rid : RowId) : Bool :=
  ((h.header? rid).any fun v => !v.isDeleted && decide (v.createTxId ∉ active)) &&
    !h.rids.any fun x => (h.header? x).any fun v =>
      decide (v.createTxId ≠ 0 ∧ v.createTxId ∉ active ∧ v.nextVersion = some rid)

/-- **The committed rows** of a table, in the order of a scan. -/
def State.committedRows (m : TableMeta) (s : State) : List Row :=
  (s.table.heap.rids.filter (isCommitted s.table.heap s.active)).filterMap fun rid =>
    (s.table.heap.slot? rid).map fun slot => m.readRow slot.tuple

/-- What a scan returns: the committed rows, unless the table is being modified. -/
def State.rows (m : TableMeta) (table : String) (s : State) : Except AlterError (List Row) :=
  if s.narrowing then
    .error (.execution ("table '" ++ table ++
      "' is being modified by an in-flight ALTER TABLE DROP COLUMN; read refused"))
  else .ok (s.committedRows m)

/-- **A projection**: the rows are those before without the column, the indexes hold their entries,
and it makes no difference whether the open transactions end before or afterwards. -/
def Projects (m m' : TableMeta) (table column : String) (s s' : State) : Prop :=
  ∃ removed, m.position column = some removed ∧
    s'.rows m' table = .ok ((s.committedRows m).map (·.eraseIdx removed)) ∧ Consistent m' s'.table ∧
    ∀ ends s₁, s.finishAll m ends = some s₁ →
      ∃ s₂, s'.finishAll m' ends = some s₂ ∧
      s₂.rows m' table = .ok ((s₁.committedRows m).map (·.eraseIdx removed))

/-! ### What open transactions have written -/

/-- What an open transaction has replaced or deleted is its own. -/
def State.Inside (s : State) : Prop :=
  ∀ tx ∈ s.active, ∀ x ∈ s.table.heap.versionsCreatedBy tx, ∀ v ∈ s.table.heap.header? x,
  ∀ r ∈ v.nextVersion,
    r ∈ s.table.heap.versionsCreatedBy tx

/-- An open transaction has an id in use, and has recorded versions of its own; and the reverse map
of the primary key has none of its versions that it has replaced or deleted. -/
structure State.Orderly (s : State) : Prop where
  begun : ∀ tx ∈ s.active, tx ≠ 0 ∧ tx ≤ s.lastTx
  recorded : ∀ tx ∈ s.active, ∀ r ∈ s.versions tx, r ∈ s.table.heap.versionsCreatedBy tx
  inside : s.Inside
  forgotten : ∀ tx ∈ s.active, ∀ r ∈ s.table.heap.versionsCreatedBy tx, isLive s.table.heap r = false →
    (s.table.index .pk).rowToKey r = none

/-- **The condition on the open transactions**: no version of theirs is the current one of a row. -/
def State.Quiet (s : State) : Prop :=
  ∀ tx ∈ s.active, ∀ r ∈ s.table.heap.versionsCreatedBy tx, isLive s.table.heap r = false

instance (s : State) : Decidable s.Inside :=
    inferInstanceAs (Decidable (∀ tx ∈ s.active, ∀ x ∈ _, ∀ v ∈ _, ∀ r ∈ _, _))

instance (s : State) : Decidable s.Quiet := inferInstanceAs (Decidable (∀ tx ∈ s.active, ∀ r ∈ _, _))

end RTsql.Executor.AlterTable

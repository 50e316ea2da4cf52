import RTsql.Executor.Statements

/-!
# Rolling back a transaction

`TransactionManager::abort_by_id`. A rollback visits the versions that the transaction
has written, table by table, in whatever order they come out of a hash set. First
come the versions that the reverse map of the primary-key index still has: in every
index the entry of such a version goes back to the version before it. Then come the
others, which are taken for tombstones: the entries of the first version below that is
not the transaction's own are put back. Every version visited is marked aborted.
-/

namespace RTsql.Transaction

open RTsql.Storage RTsql.Executor

/-- `MAX_TOMBSTONE_CHAIN_WALK`. -/
def maxTombstoneChainWalk : ℕ := 64

/-- `read_prev_index_keys`: the keys of the version before. -/
def readPrevIndexKeys (h : Heap Row) (m : TableMeta) (prev : RowId) : Option (IndexId → Option Bytes) :=
  (h.slot? prev).map fun s => m.rawKey (m.readRow s.tuple)

/-! ### The first pass -/

/-- The entry under `key`, in a unique index, goes back to the version before, which has the key
`derived`. -/
def undoUniqueOps (prev : Option RowId) (derived : Option (Option Bytes)) (key : Bytes) : List IndexOp :=
  match prev, derived with
  | some p, some (some dk) => if dk = key then [.update key p] else [.delete key, .insert dk p]
  | some _, some none => [.delete key]
  | some p, none => [.update key p]
  | none, _ => [.delete key]

/-- The same in a secondary index, where the entry is named by key and row id. -/
def undoSecondaryOps (rid : RowId) (prev : Option RowId) (derived : Option (Option Bytes))
    (key : Bytes) : List IndexOp :=
  match prev, derived with
  | some p, some (some dk) => [.deleteExact key rid, .insert dk p]
  | some _, some none => [.deleteExact key rid]
  | some p, none => [.deleteExact key rid, .insert key p]
  | none, _ => [.deleteExact key rid]

/-- The version has no entry; that of the version before is put back. -/
def undoNullOps (prev : Option RowId) (derived : Option (Option Bytes)) : List IndexOp :=
  match prev, derived with
  | some p, some (some dk) => [.insert dk p]
  | _, _ => []

/-- What the first pass does to an index for the version at `rid`. -/
def undoOps (rid : RowId) (prev : Option RowId) (derived : Option (IndexId → Option Bytes))
    (ix : IndexId) (im : IndexManager) : List IndexOp :=
  match ix, im.findKeyByRowId rid with
  | .pk, some key => undoUniqueOps prev (derived.map (· .pk)) key
  | .pk, none => []
  | .unique n, some key => undoUniqueOps prev (derived.map (· (.unique n))) key
  | .unique n, none => undoNullOps prev (derived.map (· (.unique n)))
  | .secondary n, some key => undoSecondaryOps rid prev (derived.map (· (.secondary n))) key
  | .secondary n, none => undoNullOps prev (derived.map (· (.secondary n)))

/-- The same in every index, for the version with the header `v`. -/
def undoIndexes (m : TableMeta) (t : Table) (rid : RowId) (v : VersionHeader) : IndexOps :=
  undoOps rid v.nextVersion (v.nextVersion.bind (readPrevIndexKeys t.heap m))

/-- The first pass, for one version. -/
def undoVersion (m : TableMeta) (rid : RowId) (t : Table) : Table × Except StorageError Unit :=
  match t.heap.header? rid with
  | none => (t, .error (.slotNotFound rid))
  | some v =>
    match t.maintain m (undoIndexes m t rid v) with
    | (t', .error e) => (t', .error e)
    | (t', .ok ()) => ({ t' with heap := t'.heap.setHeader rid v.markAborted }, .ok ())

/-! ### The second pass -/

/-- The walk of `restore_tombstone_index_entries`, at most `n` versions down: the first version that
is not the transaction's, unless it is deleted. -/
def restoreTarget (h : Heap Row) (tx : ℕ) : ℕ → Option RowId → Option RowId
  | 0, _ => none
  | _ + 1, none => none
  | n + 1, some rid =>
    match h.header? rid with
    | none => none
    | some v =>
      if v.createTxId = tx then restoreTarget h tx n v.nextVersion
      else if v.isDeleted then none
      else some rid

/-- `restore_tombstone_index_entries`. -/
def restoreTombstoneIndexEntries (m : TableMeta) (tx : ℕ) (next : Option RowId) (t : Table) :
    Table × Except StorageError Unit :=
  match restoreTarget t.heap tx maxTombstoneChainWalk next with
  | none => (t, .ok ())
  | some rid =>
    match t.heap.slot? rid with
    | none => (t, .ok ())
    | some s => t.maintain m fun ix _ => insertOps m rid (m.readRow s.tuple) ix

/-- The second pass, for one version. -/
def undoTombstone (m : TableMeta) (tx : ℕ) (rid : RowId) (t : Table) :
    Table × Except StorageError Unit :=
  match t.heap.header? rid with
  | none => (t, .error (.slotNotFound rid))
  | some v =>
    match restoreTombstoneIndexEntries m tx v.nextVersion t with
    | (t', .error e) => (t', .error e)
    | (t', .ok ()) => ({ t' with heap := t'.heap.setHeader rid v.markAborted }, .ok ())

/-! ### The rollback -/

/-- One version after the other, until one fails. -/
def forEachVersion (f : RowId → Table → Table × Except StorageError Unit) :
    List RowId → Table → Table × Except StorageError Unit
  | [], t => (t, .ok ())
  | rid :: rest, t =>
    match f rid t with
    | (t', .error e) => (t', .error e)
    | (t', .ok ()) => forEachVersion f rest t'

/-- The reverse map of the primary-key index has the version. -/
def indexed (t : Table) (rid : RowId) : Bool := ((t.index .pk).findKeyByRowId rid).isSome

/-- `abort_cleanup_versions` for one table. The versions, in the order in which they come, are
divided before any is visited. -/
def abortTable (m : TableMeta) (tx : ℕ) (order : List RowId) (t : Table) :
    Table × Except StorageError Unit :=
  match forEachVersion (undoVersion m) (order.filter (indexed t)) t with
  | (t', .error e) => (t', .error e)
  | (t', .ok ()) => forEachVersion (undoTombstone m tx) (order.filter fun rid => !indexed t rid) t'

/-! ### What a rollback enters in the indexes -/

/-- The indexes admit what the first pass enters for a version. -/
def UndoAdmitted (m : TableMeta) (rid : RowId) (t : Table) : Prop :=
  ∀ v ∈ t.heap.header? rid, t.Admits m (undoIndexes m t rid v)

/-- The indexes admit what the second pass enters for a version. -/
def RestoreAdmitted (m : TableMeta) (tx : ℕ) (rid : RowId) (t : Table) : Prop :=
  ∀ v ∈ t.heap.header? rid, ∀ p ∈ restoreTarget t.heap tx maxTombstoneChainWalk v.nextVersion,
    ∀ s ∈ t.heap.slot? p, t.Admits m fun ix _ => insertOps m p (m.readRow s.tuple) ix

/-- What holds of every version when its turn comes. -/
def AlongVersions (ok : RowId → Table → Prop) (f : RowId → Table → Table × Except StorageError Unit) :
    List RowId → Table → Prop
  | [], _ => True
  | rid :: rest, t => ok rid t ∧ AlongVersions ok f rest (f rid t).1

/-- **The condition on the rollback of a table**: the indexes admit the entries it puts back. -/
def AbortAdmitted (m : TableMeta) (tx : ℕ) (order : List RowId) (t : Table) : Prop :=
  AlongVersions (UndoAdmitted m) (undoVersion m) (order.filter (indexed t)) t ∧
    AlongVersions (RestoreAdmitted m tx) (undoTombstone m tx) (order.filter fun rid => !indexed t rid)
      (forEachVersion (undoVersion m) (order.filter (indexed t)) t).1

instance (m : TableMeta) (rid : RowId) : DecidablePred (UndoAdmitted m rid) := fun t =>
  inferInstanceAs (Decidable (∀ v ∈ t.heap.header? rid, _))

instance (m : TableMeta) (tx : ℕ) (rid : RowId) : DecidablePred (RestoreAdmitted m tx rid) := fun t =>
  inferInstanceAs (Decidable (∀ v ∈ t.heap.header? rid, _))

instance decidableAlongVersions {ok : RowId → Table → Prop} [∀ rid, DecidablePred (ok rid)]
    {f : RowId → Table → Table × Except StorageError Unit} :
    (rids : List RowId) → (t : Table) → Decidable (AlongVersions ok f rids t)
  | [], _ => instDecidableTrue
  | rid :: rest, t => @instDecidableAnd _ _ _ (decidableAlongVersions rest (f rid t).1)

instance (m : TableMeta) (tx : ℕ) (order : List RowId) (t : Table) :
    Decidable (AbortAdmitted m tx order t) :=
  inferInstanceAs (Decidable (_ ∧ _))

section Tables

variable {τ : Type} [DecidableEq τ] (metas : τ → TableMeta)

/-- `abort_cleanup_versions`: table after table. -/
def abortCleanupVersions (tx : ℕ) : List (τ × List RowId) → (τ → Table) →
    (τ → Table) × Except StorageError Unit
  | [], tables => (tables, .ok ())
  | (name, order) :: rest, tables =>
    match abortTable (metas name) tx order (tables name) with
    | (t, .error e) => (Function.update tables name t, .error e)
    | (t, .ok ()) => abortCleanupVersions tx rest (Function.update tables name t)

/-- The tables, and the active transactions. -/
structure Database (τ : Type) where
  tables : τ → Table
  /-- `active_tx_ids`. -/
  active : List ℕ

/-- `TransactionManager::abort_by_id`. -/
def abortById (tx : ℕ) (order : List (τ × List RowId)) (db : Database τ) :
    Database τ × Except StorageError Unit :=
  match abortCleanupVersions metas tx order db.tables with
  | (tables, .error e) => ({ db with tables }, .error e)
  | (tables, .ok ()) =>
    if tx ∈ db.active then
      ({ tables := fun name => { tables name with recorded := [] }
         active := db.active.filter (· ≠ tx) }, .ok ())
    else ({ db with tables }, .error (.alreadyAborted tx))

/-- An order in which a rollback may visit the versions: every table that has recorded versions, and
in it every version recorded, or created by the transaction, once. -/
structure Visits (tx : ℕ) (tables : τ → Table) (order : List (τ × List RowId)) : Prop where
  tables_nodup : (order.map Prod.fst).Nodup
  tables_mem : ∀ name, name ∈ order.map Prod.fst ↔ (tables name).recorded ≠ []
  nodup : ∀ p ∈ order, p.2.Nodup
  mem : ∀ p ∈ order, ∀ r,
    r ∈ p.2 ↔ r ∈ (tables p.1).recorded ∨ r ∈ (tables p.1).heap.versionsCreatedBy tx

end Tables

end RTsql.Transaction

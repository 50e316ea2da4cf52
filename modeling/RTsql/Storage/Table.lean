import RTsql.Storage.Heap
import RTsql.Storage.IndexManager
import Mathlib.Tactic.Choose

/-!
# Tables

`TableMeta`, and the state of a table: its data pages, its indexes, and the versions
that the running transaction has recorded. `maintain` is how statements and
rollbacks write to the indexes: one index after the other, and every write may fail.
-/

namespace RTsql.Storage

open List RTsql.Transaction

/-- `StorageError`, as far as the statements on rows return it. -/
inductive StorageError where
  /-- The error shows the value. -/
  | invalidDateTime (value : Value) (expected : String)
  | nullConstraintViolation (column : String)
  | keyTypeMismatch (column expected actual : String)
  | columnTypeMismatch (column expected actual : String)
  | columnNotFound (column : String)
  | executionError (message : String)
  | duplicateKey
  | keyNotFound
  | slotNotFound (rid : RowId)
  /-- `assert_eq!(values.len(), schema.len())` of `serialize_tuple`. -/
  | widthMismatch
  /-- A page could not be read, allocated or written. -/
  | io
  /-- `TransactionError::AlreadyAborted`. -/
  | alreadyAborted (tx : ℕ)
  deriving DecidableEq

/-- `SecondaryIndexMeta`: the columns of the index, and how its keys are encoded. -/
structure SecondaryIndexMeta where
  columnIndex : ℕ
  extraColumnIndexes : List ℕ
  generation : ℕ
  deriving DecidableEq

/-- `TableMeta`. -/
structure TableMeta where
  columns : List (String × ColumnType)
  pkColumn : String
  pkIndex : ℕ
  notNull : List Bool
  defaults : List (Option Value)
  /-- The columns of `unique_indexes`. -/
  uniqueCols : List ℕ
  secondaryIndexes : List SecondaryIndexMeta
  /-- The primary-key column is found by its name and by its number. -/
  pk_position : columns.findIdx? (·.1 = pkColumn) = some pkIndex

namespace TableMeta

/-- The column types. -/
def schema (m : TableMeta) : List ColumnType := m.columns.map Prod.snd

/-- The name of a column. -/
def columnName (m : TableMeta) (i : ℕ) : String := (m.columns[i]?.map Prod.fst).getD ""

/-- The number of a column. -/
def position (m : TableMeta) (column : String) : Option ℕ := m.columns.findIdx? (·.1 = column)

/-- The indexes, in the order in which they are maintained. -/
def indexes (m : TableMeta) : List IndexId :=
  .pk :: ((List.range m.uniqueCols.length).map .unique ++
    (List.range m.secondaryIndexes.length).map .secondary)

/-- `SecondaryIndexMeta::derive_key`. -/
def deriveKey (m : TableMeta) (s : SecondaryIndexMeta) (row : Row) : Option Bytes := do
  let picked ← (s.columnIndex :: s.extraColumnIndexes).mapM fun i => do
    let column ← m.schema[i]?
    let value ← row[i]?
    pure (column, value)
  deriveSecondaryIndexKey (picked.map Prod.fst) (picked.map Prod.snd) s.generation

/-- The key of a row in an index, `extract_index_keys`. -/
def rawKey (m : TableMeta) (row : Row) : IndexId → Option Bytes
  | .pk => (row.getD m.pkIndex .null).toKey
  | .unique n => m.uniqueCols[n]?.bind fun col => (row.getD col .null).toKey
  | .secondary n => m.secondaryIndexes[n]?.bind fun s => m.deriveKey s row

/-- `deserialize_row`: a row written before a column was added reads with the column's default. -/
def readRow (m : TableMeta) (stored : Row) : Row :=
  (List.range m.columns.length).map fun i =>
    match stored[i]? with
    | some v => v
    | none => (m.defaults.getD i none).getD .null

theorem nodup_indexes (m : TableMeta) : m.indexes.Nodup := by
  refine nodup_cons.mpr ⟨by simp, nodup_append.mpr ⟨?_, ?_, ?_⟩⟩
  · exact nodup_range.map fun _ _ h => by cases h; rfl
  · exact nodup_range.map fun _ _ h => by cases h; rfl
  · intro a ha b hb
    obtain ⟨i, -, rfl⟩ := mem_map.mp ha
    obtain ⟨j, -, rfl⟩ := mem_map.mp hb
    nofun

theorem pk_mem_indexes (m : TableMeta) : IndexId.pk ∈ m.indexes := mem_cons_self

/-- A row as wide as the table reads as it was written. -/
theorem readRow_of_length {m : TableMeta} {row : Row} (h : row.length = m.columns.length) :
    m.readRow row = row := by
  refine ext_getElem (by simp [readRow, h]) fun i h₁ h₂ => ?_
  simp [readRow, getElem?_eq_getElem h₂]

end TableMeta

/-- The state of a table. -/
structure Table where
  heap : Heap Row
  index : IndexId → IndexManager
  /-- `tx_versions` of the running transaction, for this table. -/
  recorded : List RowId

/-- The key bytes of the version at a row id. -/
def Heap.rawKey (h : Heap Row) (m : TableMeta) (ix : IndexId) (rid : RowId) : Option Bytes :=
  (h.slot? rid).bind fun s => m.rawKey (m.readRow s.tuple) ix

/-- The key of the version at a row id. -/
def Heap.keyOf (h : Heap Row) (m : TableMeta) (ix : IndexId) (rid : RowId) : Option Key :=
  (h.rawKey m ix rid).map Key.new

/-! ### Writing to the indexes -/

/-- What is written to each index, which may depend on the index. -/
abbrev IndexOps := IndexId → IndexManager → List IndexOp

/-- One index after the other is written to, until a write fails. -/
def maintainAll (ops : IndexOps) :
    List IndexId → (IndexId → IndexManager) → (IndexId → IndexManager) × Except BTree.TreeError Unit
  | [], s => (s, .ok ())
  | ix :: rest, s =>
    match (s ix).applyAll (ops ix (s ix)) with
    | (im, .error e) => (Function.update s ix im, .error e)
    | (im, .ok ()) => maintainAll ops rest (Function.update s ix im)

/-- Writes that all succeed leave every index as its own writes leave it. -/
theorem maintainAll_of_forall {ops : IndexOps} {ixs : List IndexId}
    (hnd : ixs.Nodup) {s s' : IndexId → IndexManager}
    (h : ∀ ix ∈ ixs, (s ix).applyAll (ops ix (s ix)) = (s' ix, .ok ()))
    (h' : ∀ ix, ix ∉ ixs → s' ix = s ix) : maintainAll ops ixs s = (s', .ok ()) := by
  induction ixs generalizing s with
  | nil =>
    rw [maintainAll, funext fun ix => h' ix not_mem_nil]
  | cons ix ixs ih =>
    obtain ⟨hout, hnd⟩ := nodup_cons.mp hnd
    rw [maintainAll, h ix mem_cons_self]
    refine ih hnd ?_ ?_
    · intro i hi
      have hne : i ≠ ix := fun hc => hout (hc ▸ hi)
      rw [Function.update_of_ne hne]
      exact h i (mem_cons_of_mem _ hi)
    · intro i hi
      by_cases hix : i = ix
      · rw [hix, Function.update_self]
      · rw [Function.update_of_ne hix]
        exact h' i (by simp [hix, hi])

/-- The indexes of a table are written to. -/
def Table.maintain (t : Table) (m : TableMeta) (ops : IndexOps) : Table × Except StorageError Unit :=
  match maintainAll ops m.indexes t.index with
  | (index, .ok ()) => ({ t with index }, .ok ())
  | (index, .error .keyNotFound) => ({ t with index }, .error .keyNotFound)
  | (index, .error _) => ({ t with index }, .error .io)

/-- No insertion among the writes comes to a full page with too few entries to be divided. -/
def Table.Admits (t : Table) (m : TableMeta) (ops : IndexOps) : Prop :=
  ∀ ix ∈ m.indexes, (t.index ix).Admits ix.isUnique (ops ix (t.index ix))

instance (t : Table) (m : TableMeta) (ops : IndexOps) : Decidable (t.Admits m ops) :=
  inferInstanceAs (Decidable (∀ ix ∈ m.indexes, _))

/-- Writes that succeed in every index succeed in the table, with their effects. -/
theorem Table.exists_maintain (t : Table) {m : TableMeta} (ops : IndexOps)
    (P : IndexId → IndexManager → Prop)
    (h : ∀ ix ∈ m.indexes, ∃ im, (t.index ix).applyAll (ops ix (t.index ix)) = (im, .ok ()) ∧ P ix im) :
    ∃ index, t.maintain m ops = ({ t with index }, .ok ()) ∧ ∀ ix ∈ m.indexes, P ix (index ix) := by
  choose f hf hP using h
  refine ⟨fun ix => if hix : ix ∈ m.indexes then f ix hix else t.index ix, ?_, fun ix hix => ?_⟩
  · rw [Table.maintain, maintainAll_of_forall m.nodup_indexes]
    · intro ix hix
      rw [dif_pos hix]
      exact hf ix hix
    · intro ix hix
      rw [dif_neg hix]
  · simp only [dif_pos hix]
    exact hP ix hix

end RTsql.Storage

import RTsql.Storage.Catalog

/-!
# The layout of a table without a column

`narrowed_meta` on a `TableMeta`. A row read with the old layout and written without the value of
the column is read back as it was written, and has the keys it had in every index
(`rawKey_narrowed`): the numbers of the indexed columns move with the columns. -/

namespace RTsql.Storage

open Catalog List

/-- The first element of a kind, after another element is gone. -/
theorem findIdx?_eraseIdx {α : Type} {l : List α} {q : α → Bool} {i j : ℕ}
    (h : l.findIdx? q = some i) (hne : j ≠ i) : (l.eraseIdx j).findIdx? q = some (shift j i) := by
  obtain ⟨hi, hq, hbefore⟩ := findIdx?_eq_some_iff_getElem.mp h
  by_cases hj : j < l.length
  · refine findIdx?_eq_some_iff_getElem.mpr ?_
    have hlen := length_eraseIdx_of_lt hj
    have hshift : shift j i < (l.eraseIdx j).length := by
      unfold shift
      split <;> omega
    refine ⟨hshift, ?_, fun k hk => ?_⟩
    · unfold shift
      split
      case isTrue hlt =>
        rw [getElem_eraseIdx_of_ge _ (by omega)]
        simpa [show i - 1 + 1 = i by omega] using hq
      case isFalse hge =>
        rwa [getElem_eraseIdx_of_lt _ (by omega)]
    · unfold shift at hk
      by_cases hkj : k < j
      · rw [getElem_eraseIdx_of_lt _ hkj]
        refine hbefore k ?_
        split at hk <;> omega
      · rw [getElem_eraseIdx_of_ge _ (by omega)]
        refine hbefore (k + 1) ?_
        split at hk <;> omega
  · rw [eraseIdx_of_length_le (by omega), h]
    unfold shift
    rw [if_neg (by omega)]

namespace TableMeta

variable {m : TableMeta} {removed j i : ℕ} {hpk : removed ≠ m.pkIndex}

/-- `narrowed_meta`. -/
def narrowed (m : TableMeta) (removed : ℕ) (hpk : removed ≠ m.pkIndex) : TableMeta where
  columns := m.columns.eraseIdx removed
  pkColumn := m.pkColumn
  pkIndex := shift removed m.pkIndex
  notNull := m.notNull.eraseIdx removed
  defaults := m.defaults.eraseIdx removed
  uniqueCols := (m.uniqueCols.filter (· ≠ removed)).map (shift removed)
  secondaryIndexes :=
    (m.secondaryIndexes.filter fun s => s.columnIndex ≠ removed ∧
      removed ∉ s.extraColumnIndexes).map (shiftIndex removed)
  pk_position := findIdx?_eraseIdx m.pk_position hpk

@[simp] theorem length_readRow (m : TableMeta) (stored : Row) :
    (m.readRow stored).length = m.columns.length := by
  simp [readRow]

/-- A row without the column is read as it was written. -/
theorem readRow_narrowed (hremoved : removed < m.columns.length) {row : Row}
    (hrow : row.length = m.columns.length) :
    (m.narrowed removed hpk).readRow (row.eraseIdx removed) = row.eraseIdx removed := by
  refine readRow_of_length ?_
  rw [length_eraseIdx_of_lt (hrow ▸ hremoved), hrow]
  exact (length_eraseIdx_of_lt hremoved).symm

/-- The column can be dropped: no index has it. -/
structure Droppable (m : TableMeta) (removed : ℕ) : Prop where
  lt : removed < m.columns.length
  pk : removed ≠ m.pkIndex
  unique : removed ∉ m.uniqueCols
  secondary : ∀ s ∈ m.secondaryIndexes, removed ∉ s.columnIndex :: s.extraColumnIndexes

theorem Droppable.uniqueCols_narrowed (hd : m.Droppable removed) :
    (m.narrowed removed hpk).uniqueCols = m.uniqueCols.map (shift removed) := by
  show (m.uniqueCols.filter (· ≠ removed)).map _ = _
  rw [filter_eq_self.mpr]
  intro col hcol
  exact decide_eq_true fun hc => hd.unique (hc ▸ hcol)

theorem Droppable.secondaryIndexes_narrowed (hd : m.Droppable removed) :
    (m.narrowed removed hpk).secondaryIndexes = m.secondaryIndexes.map (shiftIndex removed) := by
  show (m.secondaryIndexes.filter _).map _ = _
  rw [filter_eq_self.mpr]
  intro s hs
  obtain ⟨hne, hnot⟩ := not_or.mp (mem_cons.not.mp (hd.secondary s hs))
  exact decide_eq_true ⟨fun hc => hne hc.symm, hnot⟩

theorem Droppable.indexes_narrowed (hd : m.Droppable removed) :
    (m.narrowed removed hpk).indexes = m.indexes := by
  simp [indexes, hd.uniqueCols_narrowed, hd.secondaryIndexes_narrowed]

/-- The value of another column. -/
theorem getElem?_eraseIdx_shift {α : Type} (l : List α) (hne : j ≠ i) :
    (l.eraseIdx j)[shift j i]? = l[i]? := by
  rw [getElem?_eraseIdx, shift]
  by_cases hlt : j < i
  · rw [if_pos hlt, if_neg (by omega), show i - 1 + 1 = i by omega]
  · rw [if_neg hlt, if_pos (by omega)]

theorem getD_eraseIdx_shift (row : Row) (hne : j ≠ i) :
    (row.eraseIdx j).getD (shift j i) .null = row.getD i .null := by
  rw [getD_eq_getElem?_getD, getElem?_eraseIdx_shift row hne, ← getD_eq_getElem?_getD]

theorem schema_narrowed : (m.narrowed removed hpk).schema = m.schema.eraseIdx removed :=
  (eraseIdx_map ..).symm

/-- The key in a secondary index that does not have the column. -/
theorem deriveKey_narrowed (s : SecondaryIndexMeta)
    (hs : removed ∉ s.columnIndex :: s.extraColumnIndexes) (row : Row) :
    (m.narrowed removed hpk).deriveKey (shiftIndex removed s)
      (row.eraseIdx removed) = m.deriveKey s row := by
  have hpick : ∀ cols : List ℕ, removed ∉ cols →
      (cols.map (shift removed)).mapM (fun i => do
        let column ← (m.narrowed removed hpk).schema[i]?
        let value ← (row.eraseIdx removed)[i]?
        pure (column, value)) =
      cols.mapM (fun i => do
        let column ← m.schema[i]?
        let value ← row[i]?
        pure (column, value)) := by
    intro cols hcols
    induction cols with
    | nil => rfl
    | cons col cols ih =>
      obtain ⟨hne, hnot⟩ := not_or.mp (mem_cons.not.mp hcols)
      rw [map_cons, mapM_cons, mapM_cons, ih hnot, schema_narrowed, getElem?_eraseIdx_shift _ hne,
        getElem?_eraseIdx_shift _ hne]
  exact congrArg (fun picked => picked >>= fun p =>
    deriveSecondaryIndexKey (p.map Prod.fst) (p.map Prod.snd) s.generation)
    (hpick _ hs)

/-- **The keys of a row** are the same without the column. -/
theorem Droppable.rawKey_narrowed (hd : m.Droppable removed) (row : Row) (ix : IndexId) :
    (m.narrowed removed hpk).rawKey (row.eraseIdx removed) ix = m.rawKey row ix := by
  cases ix with
  | pk => exact congrArg Value.toKey (getD_eraseIdx_shift row hd.pk)
  | unique n =>
    rw [rawKey, rawKey, hd.uniqueCols_narrowed, getElem?_map]
    cases hcol : m.uniqueCols[n]? with
    | none => rfl
    | some col =>
      have hne : removed ≠ col := fun hc => hd.unique (hc ▸ mem_of_getElem? hcol)
      exact congrArg Value.toKey (getD_eraseIdx_shift row hne)
  | secondary n =>
    rw [rawKey, rawKey, hd.secondaryIndexes_narrowed, getElem?_map]
    cases hs : m.secondaryIndexes[n]? with
    | none => rfl
    | some s => exact deriveKey_narrowed s (hd.secondary s (mem_of_getElem? hs)) row

end TableMeta

/-- `CREATE TABLE t (id INT PRIMARY KEY, a INT, b INT)` -/
def threeColumns : TableMeta where
  columns := [("id", .int), ("a", .int), ("b", .int)]
  pkColumn := "id"
  pkIndex := 0
  notNull := [true, false, false]
  defaults := [none, none, none]
  uniqueCols := []
  secondaryIndexes := []
  pk_position := by decide

end RTsql.Storage

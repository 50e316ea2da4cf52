import RTsql.Library.Run
import RTsql.Storage.SlottedPage
import RTsql.Storage.Table

/-!
# The catalog of a table

`catalog.rs` and the part of `table_manager.rs` that creates, alters and opens tables. The layout of
a table is kept twice: in memory as a `TableMeta`, and in the catalog as one row of `__tables`, with
the number of columns and the numbers of the indexed columns, and one row of `__columns` for each
column. `open_or_init` builds the layout anew from these rows.

`DROP COLUMN` computes the new layout from the old one (`narrowed_meta`), and changes the rows by
other code (`rewrite_column_rows_drop`, `publish_narrowed_table_row`). Rows of `__columns` that
change are appended to their page before the old ones are deleted, and a page does not give back the
bytes of deleted rows, so this may fail. The statement then succeeds nevertheless, and a checkpoint
tries again.

The rows that the statement writes to the data pages are not part of this model, and neither are the
trees of the indexes: a unique index is the number of its column here, and a root is not looked at.
-/

namespace RTsql.Storage.Catalog

open RTsql.Library

/-! ### Layouts -/

/-- The part of `TableMeta` that describes the rows. -/
structure Layout where
  columns : List (String × ColumnType)
  notNull : List Bool
  defaults : List (Option Value)
  pkColumn : String
  pkIndex : ℕ
  /-- The columns of `unique_indexes`. -/
  uniqueCols : List ℕ
  secondaryIndexes : List SecondaryIndexMeta
  deriving DecidableEq

/-- A column number after column `removed` is gone. -/
def shift (removed i : ℕ) : ℕ := if removed < i then i - 1 else i

/-- The columns of a secondary index after column `removed` is gone. -/
def shiftIndex (removed : ℕ) (s : SecondaryIndexMeta) : SecondaryIndexMeta :=
  ⟨shift removed s.columnIndex, s.extraColumnIndexes.map (shift removed), s.generation⟩

/-- `narrowed_meta`. -/
def Layout.narrowed (m : Layout) (removed : ℕ) : Layout where
  columns := m.columns.eraseIdx removed
  notNull := m.notNull.eraseIdx removed
  defaults := m.defaults.eraseIdx removed
  pkColumn := m.pkColumn
  pkIndex := shift removed m.pkIndex
  uniqueCols := (m.uniqueCols.filter (· ≠ removed)).map (shift removed)
  secondaryIndexes :=
    (m.secondaryIndexes.filter fun s => s.columnIndex ≠ removed ∧
      removed ∉ s.extraColumnIndexes).map (shiftIndex removed)

/-- A column, as it is declared. -/
structure Column where
  name : String
  type : ColumnType
  notNull : Bool
  unique : Bool
  default : Option Value
  deriving DecidableEq

/-- The columns that have a unique index of their own. -/
def qualifying (cols : List Column) (pkIndex : ℕ) : List ℕ :=
  (cols.zipIdx.filter fun c => c.1.unique && c.1.type = .int && c.2 ≠ pkIndex).map Prod.snd

/-! ### The rows of the catalog -/

/-- `CatalogRow`, of the table. -/
structure CatalogRow where
  pkIndex : ℕ
  pkColumn : String
  columnCount : ℕ
  /-- The number of `unique_roots`. -/
  uniqueRoots : ℕ
  secondaryIndexes : List SecondaryIndexMeta

/-- `CatalogColumnRow`. -/
structure CatalogColumnRow where
  tableName : String
  columnIndex : ℕ
  column : Column
  deriving DecidableEq

/-- The order of `sort_by_key`, a stable sort. -/
def CatalogColumnRow.le (r r' : CatalogColumnRow) : Prop := r.columnIndex ≤ r'.columnIndex

instance : DecidableRel CatalogColumnRow.le := fun _ _ => inferInstanceAs (Decidable (_ ≤ _))

/-- The bytes of a default, with its tag. -/
def defaultLen : Value → ℕ
  | .int _ | .float _ | .timestamp _ => 9
  | .string s => if s.utf8ByteSize > 65535 then 5 + s.utf8ByteSize else 3 + s.utf8ByteSize
  | .null => 1
  | .bool _ => 2
  | .date _ => 5

/-- The length of `serialize_catalog_column_row`. -/
def CatalogColumnRow.size (r : CatalogColumnRow) : ℕ :=
  2 + r.tableName.utf8ByteSize + 4 + 2 + r.column.name.utf8ByteSize +
    (match r.column.type with
      | .string _ => 3
      | _ => 1) +
    2 + (match r.column.default with
      | some v => 1 + defaultLen v
      | none => 0)

/-- A page of `__columns`. -/
structure CatalogPage where
  rows : List CatalogColumnRow
  /-- `free_space_offset` -/
  offset : ℕ

/-- `SlottedPage::init`. -/
def CatalogPage.init : CatalogPage := ⟨[], headerSize⟩

/-- `free_space`. -/
def CatalogPage.freeSpace (p : CatalogPage) : ℕ := pageSize - slotSize * p.rows.length - p.offset

/-- `add_slot`; `none` if the page is full. -/
def CatalogPage.addSlot (p : CatalogPage) (r : CatalogColumnRow) : Option CatalogPage :=
  if slotSize + r.size ≤ p.freeSpace then some ⟨p.rows ++ [r], p.offset + r.size⟩ else none

/-- Rows are added until the page is full; all of them, or only some. -/
def CatalogPage.addSlots (p : CatalogPage) : List CatalogColumnRow → CatalogPage × Bool
  | [] => (p, true)
  | r :: rest =>
    match p.addSlot r with
    | some p' => p'.addSlots rest
    | none => (p, false)

/-- `append_to_chain`: to the last page or, if it is full, to a new one. -/
def appendToChain (chain : List CatalogPage) (r : CatalogColumnRow) : Option (List CatalogPage) :=
  match chain.getLast?.bind (·.addSlot r) with
  | some p => some (chain.dropLast ++ [p])
  | none => (CatalogPage.init.addSlot r).map fun p => chain ++ [p]

/-- `scan_columns`. -/
def scanColumns (table : String) (chain : List CatalogPage) : List CatalogColumnRow :=
  (chain.flatMap CatalogPage.rows).filter (·.tableName = table)

/-- `delete_from_chain`, on a page: the bytes of the rows are not given back, their slots are. -/
def CatalogPage.delete (matches? : CatalogColumnRow → Bool) (p : CatalogPage) : CatalogPage :=
  { p with rows := p.rows.filter fun r => !matches? r }

/-- `delete_from_chain`. -/
def deleteFromChain (matches? : CatalogColumnRow → Bool) (chain : List CatalogPage) : List CatalogPage :=
  chain.map (·.delete matches?)

/-- The row of a column. -/
def isRowOf (table : String) (removed : ℕ) (r : CatalogColumnRow) : Bool :=
  r.tableName = table && r.columnIndex = removed

/-- The row has to be rewritten when column `removed` goes. -/
def isBehind (table : String) (removed : ℕ) (r : CatalogColumnRow) : Bool :=
  r.tableName = table && removed < r.columnIndex

/-- The rows of a page with their new numbers, in the order of the numbers. -/
def renumbered (table : String) (removed : ℕ) (p : CatalogPage) : List CatalogColumnRow :=
  ((p.rows.filter (isBehind table removed)).map fun r =>
    { r with columnIndex := r.columnIndex - 1 }).insertionSort
    CatalogColumnRow.le

/-- The second pass of `rewrite_column_rows_drop` on a page: the new rows are added, then the old
ones deleted. If the page is full the new rows stay beside the old ones. -/
def rewritePage (table : String) (removed : ℕ) (p : CatalogPage) : CatalogPage × Bool :=
  match p.addSlots (renumbered table removed p) with
  | (p', true) =>
    ({ p' with rows := (p.rows.filter fun r => !isBehind table removed r) ++
      renumbered table removed p }, true)
  | (p', false) => (p', false)

/-- The second pass of `rewrite_column_rows_drop`. -/
def rewritePages (table : String) (removed : ℕ) : List CatalogPage → List CatalogPage × Bool
  | [] => ([], true)
  | p :: rest =>
    match rewritePage table removed p with
    | (p', true) => ((rewritePages table removed rest).map (p' :: ·) id)
    | (p', false) => (p' :: rest, false)

/-- `rewrite_column_rows_drop`. -/
def rewriteColumnRowsDrop (table : String) (removed : ℕ) (chain : List CatalogPage) :
    List CatalogPage × Bool :=
  rewritePages table removed (deleteFromChain (isRowOf table removed) chain)

/-- `publish_narrowed_table_row`. -/
def CatalogRow.narrowed (row : CatalogRow) (removed newCount : ℕ) : CatalogRow :=
  { row with columnCount := newCount, secondaryIndexes := row.secondaryIndexes.map (shiftIndex removed) }

/-! ### Opening a table -/

/-- `open_or_init`, for the table; it fails if the unique indexes cannot be told apart. -/
def openOrInit (table : String) (row : CatalogRow) (chain : List CatalogPage) : Option Layout :=
  let cols := (((scanColumns table chain).insertionSort CatalogColumnRow.le).take row.columnCount).map
    CatalogColumnRow.column
  if row.uniqueRoots ≠ 0 ∧ (qualifying cols row.pkIndex).length ≠ row.uniqueRoots then none
  else some
    { columns := cols.map fun c => (c.name, c.type)
      notNull := cols.map Column.notNull
      defaults := cols.map Column.default
      pkColumn := row.pkColumn
      pkIndex := row.pkIndex
      uniqueCols := if row.uniqueRoots = 0 then [] else qualifying cols row.pkIndex
      secondaryIndexes := row.secondaryIndexes }

/-! ### Statements -/

/-- A table and its rows in the catalog. -/
structure State where
  name : String
  /-- The `TableMeta` in use. -/
  live : Layout
  row : CatalogRow
  /-- The pages of `__columns`. -/
  chain : List CatalogPage
  /-- A `DROP COLUMN` whose rows could not be changed: `committed_narrowings`. -/
  unpublished : Option (ℕ × ℕ)

/-- Column rows are appended one after the other. -/
def appendRows (table : String) : List (Column × ℕ) → List CatalogPage → Option (List CatalogPage)
  | [], chain => some chain
  | (c, i) :: rest, chain => (appendToChain chain ⟨table, i, c⟩).bind (appendRows table rest)

/-- `create_table_with_constraints`. -/
def create (name : String) (cols : List Column) (pk : String) (chain : List CatalogPage) :
    Option State := do
  let pkIndex ← cols.findIdx? (·.name = pk)
  let chain' ← appendRows name cols.zipIdx chain
  some
    { name
      live :=
        { columns := cols.map fun c => (c.name, c.type)
          notNull := cols.map Column.notNull
          defaults := cols.map Column.default
          pkColumn := pk
          pkIndex
          uniqueCols := qualifying cols pkIndex
          secondaryIndexes := [] }
      row := ⟨pkIndex, pk, cols.length, (qualifying cols pkIndex).length, []⟩
      chain := chain'
      unpublished := none }

/-- A statement on the table. -/
inductive Statement where
  | addColumn (name : String) (type : ColumnType) (notNull : Bool) (default : Option Value)
  | dropColumn (name : String)
  | createIndex (index : SecondaryIndexMeta)

/-- The checks of `alter_drop_column`. -/
def Layout.canDrop (m : Layout) (removed : ℕ) : Bool :=
  m.columns.length ≠ 1 && m.pkIndex ≠ removed && removed ∉ m.uniqueCols &&
    m.secondaryIndexes.all fun s => s.columnIndex ≠ removed ∧ removed ∉ s.extraColumnIndexes

/-- `apply_column_drop`: it installs the layout that the statement has prepared. An error is not
returned, and leaves the drop to a checkpoint. -/
def State.applyColumnDrop (s : State) (prepared : Layout) (removed newCount : ℕ) : State :=
  if s.row.columnCount = newCount then { s with unpublished := none }
  else
    match rewriteColumnRowsDrop s.name removed s.chain with
    | (chain, true) =>
      { s with live := prepared, row := s.row.narrowed removed newCount, chain, unpublished := none }
    | (chain, false) => { s with chain, unpublished := some (removed, newCount) }

/-- `publish_column_narrowing`, of a checkpoint and of recovery: the new layout is derived from the
one in use, and an error is returned. -/
def State.publishColumnNarrowing (s : State) (removed newCount : ℕ) : State × Bool :=
  if s.row.columnCount = newCount then (s, true)
  else
    match rewriteColumnRowsDrop s.name removed s.chain with
    | (chain, true) =>
      ({ s with live := s.live.narrowed removed, row := s.row.narrowed removed newCount, chain }, true)
    | (chain, false) => ({ s with chain }, false)

/-- A statement that succeeds. While a `DROP COLUMN` is unpublished, `ADD COLUMN` waits and another
one is refused. -/
def step (s : State) : Statement → Option State
  | .addColumn name type notNull default =>
    if s.unpublished.isSome then none
    else do
      let chain ← appendToChain s.chain
        ⟨s.name, s.live.columns.length, ⟨name, type, notNull, false, default⟩⟩
      some { s with
        live := { s.live with
          columns := s.live.columns ++ [(name, type)]
          notNull := s.live.notNull ++ [notNull]
          defaults := s.live.defaults ++ [default] }
        row := { s.row with columnCount := s.live.columns.length + 1 }
        chain }
  | .dropColumn name => do
    let removed ← s.live.columns.findIdx? (·.1 = name)
    if s.live.canDrop removed ∧ s.unpublished = none ∧
        ∃ r ∈ scanColumns s.name s.chain, r.columnIndex = removed then
      some (s.applyColumnDrop (s.live.narrowed removed) removed (s.live.columns.length - 1))
    else none
  | .createIndex index =>
    some { s with
      live := { s.live with secondaryIndexes := s.live.secondaryIndexes ++ [index] }
      row := { s.row with secondaryIndexes := s.row.secondaryIndexes ++ [index] } }

/-- A clean close: its checkpoint publishes what is unpublished, or fails. -/
def State.close (s : State) : Option State :=
  match s.unpublished with
  | none => some s
  | some (removed, newCount) =>
    match s.publishColumnNarrowing removed newCount with
    | (s', true) => some { s' with unpublished := none }
    | (_, false) => none

/-- The layout of the table when it is opened again. -/
def State.reopen (s : State) : Option Layout := openOrInit s.name s.row s.chain

end RTsql.Storage.Catalog

import RTsql.Storage.Catalog

/-!
# The layout of a table after it is opened again

`open_or_init` reads the number of the primary-key column from the row of `__tables`, and `DROP
COLUMN` does not change it there. So if a column before the primary key is dropped, the table is
opened with another column as its key (`layout_changes_on_reopen`).

If only columns behind the primary key are dropped, and the pages of `__columns` have room for the
rows that get a new number, any sequence of statements leaves a catalog from which the layout is
read as it is in use (`layout_survives_reopen`). The invariant is that the rows of `__columns` are,
in some order, those of a list of columns (`Stored`). -/

namespace RTsql.Storage.Catalog

open List RTsql.Library CatalogColumnRow

/-! ### The numbers of the columns -/

variable {cols all : List Column} {c : Column} {removed pk i count : ℕ} {table : String} {α : Type}

/-- A list in two parts, with the numbers of the elements. -/
theorem zipIdx_append_shift (A B : List α) :
    (A ++ B).zipIdx = A.zipIdx ++ B.zipIdx.map fun b => (b.1, A.length + b.2) := by
  rw [zipIdx_append, Nat.zero_add, zipIdx_eq_map_add (l := B)]

theorem zipIdx_append_cons (A B : List α) (a : α) :
    (A ++ a :: B).zipIdx = A.zipIdx ++ (a, A.length) :: B.zipIdx.map fun b =>
    (b.1, A.length + 1 + b.2) := by
  rw [zipIdx_append, zipIdx_cons, Nat.zero_add, zipIdx_eq_map_add (l := B)]

/-- **Renumbering.** The numbered columns without column `removed`, each with its new number, are
those of the list without it. -/
theorem map_shift_zipIdx {l : List α} (h : removed < l.length) :
    (l.zipIdx.filter (·.2 ≠ removed)).map
      (fun x => (x.1, shift removed x.2)) = (l.eraseIdx removed).zipIdx := by
  obtain ⟨A, a, B, rfl, rfl⟩ : ∃ A a B, l = A ++ a :: B ∧ A.length = removed :=
    ⟨l.take removed, l[removed], l.drop (removed + 1), by simp, by simp [h.le]⟩
  have hA : ∀ x ∈ A.zipIdx, x.2 < A.length := fun x hx => by
    have := snd_lt_of_mem_zipIdx hx
    omega
  rw [zipIdx_append_cons, filter_append, filter_cons_of_neg (by simp), map_append]
  rw [eraseIdx_append_of_length_le le_rfl, Nat.sub_self, zipIdx_append_shift]
  congr 1
  · -- the columns before keep their numbers
    rw [filter_eq_self.mpr fun x hx => by simpa using (hA x hx).ne]
    conv_rhs => rw [← map_id A.zipIdx]
    refine map_congr_left fun x hx => ?_
    rw [shift, if_neg (hA x hx).le.not_gt]
    rfl
  · -- those behind move by one
    rw [filter_eq_self.mpr, map_map]
    · refine map_congr_left fun x _ => ?_
      simp only [Function.comp_apply, shift, Prod.mk.injEq, true_and]
      rw [if_pos (by omega)]
      omega
    · intro x hx
      obtain ⟨y, -, rfl⟩ := mem_map.mp hx
      simp only [ne_eq, decide_not, Bool.not_eq_eq_eq_not, Bool.not_true, decide_eq_false_iff_not]
      omega

theorem qualifying_append (h : c.unique = false) : qualifying (cols ++ [c]) pk = qualifying cols pk := by
  rw [qualifying, qualifying, zipIdx_append_shift]
  simp [h]

theorem shift_of_lt (h : i < removed) : shift removed i = i := if_neg (by omega)

/-- The unique indexes of the columns that stay. -/
theorem qualifying_eraseIdx (h : removed < cols.length) (hpk : pk < removed) :
    qualifying (cols.eraseIdx removed) pk = ((qualifying cols pk).filter (· ≠ removed)).map
      (shift removed) := by
  rw [qualifying, qualifying, ← map_shift_zipIdx h, filter_map, filter_map, map_map, map_map,
    filter_filter, filter_filter]
  congr 1
  refine filter_congr fun x _ => ?_
  have hiff : shift removed x.2 = pk ∧ x.2 ≠ removed ↔ x.2 = pk ∧ x.2 ≠ removed := by
    unfold shift
    split <;> omega
  simp only [Function.comp_apply]
  by_cases hx : x.2 = removed
  · simp [hx]
  · have : (shift removed x.2 = pk) = (x.2 = pk) := by simpa [hx] using hiff
    simp only [ne_eq, this, hx]
    simp

/-! ### The rows of `__columns` -/

/-- The rows of these columns. -/
def columnRows (table : String) (cols : List Column) : List CatalogColumnRow :=
  cols.zipIdx.map fun c => ⟨table, c.2, c.1⟩

/-- The row with its new number. -/
def CatalogColumnRow.shifted (removed : ℕ) (r : CatalogColumnRow) : CatalogColumnRow :=
  { r with columnIndex := shift removed r.columnIndex }

theorem columnRows_eraseIdx (h : removed < cols.length) :
    ((columnRows table cols).filter (·.columnIndex ≠ removed)).map (shifted removed) =
      columnRows table (cols.eraseIdx removed) := by
  rw [columnRows, columnRows, ← map_shift_zipIdx h, filter_map, map_map, map_map]
  rfl

theorem columnRows_append : columnRows table
    (cols ++ [c]) = columnRows table cols ++ [⟨table, cols.length, c⟩] := by
  rw [columnRows, zipIdx_append_shift]
  simp [columnRows]

theorem map_columnIndex_columnRows :
    (columnRows table cols).map columnIndex = List.range cols.length := by
  rw [columnRows, map_map, range_eq_range', ← zipIdx_map_snd 0 cols]
  rfl

theorem pairwise_columnRows : (columnRows table cols).Pairwise fun r r' =>
    r.columnIndex < r'.columnIndex := by
  refine pairwise_map.mp ?_
  rw [map_columnIndex_columnRows]
  exact pairwise_lt_range

instance : Std.Total le := ⟨fun _ _ => Nat.le_total ..⟩

instance : IsTrans CatalogColumnRow le := ⟨fun _ _ _ => Nat.le_trans⟩

/-- Sorted by their numbers, the rows stand in the order of the columns. -/
theorem insertionSort_eq_columnRows {rows : List CatalogColumnRow}
    (h : rows.Perm (columnRows table cols)) : rows.insertionSort le = columnRows table cols := by
  have hperm := (perm_insertionSort le rows).trans h
  refine hperm.eq_of_pairwise (fun a b ha hb hab hba => ?_) (pairwise_insertionSort _ rows)
    (pairwise_columnRows.imp Nat.le_of_lt)
  -- two rows of one number are the same row
  have hnodup : ((columnRows table cols).map columnIndex).Nodup := by
    rw [map_columnIndex_columnRows]
    exact nodup_range
  exact inj_on_of_nodup_map hnodup (hperm.mem_iff.mp ha) hb (Nat.le_antisymm hab hba)

/-! ### The pages -/

variable {chain chain' : List CatalogPage} {p p' : CatalogPage} {r : CatalogColumnRow}

theorem rows_addSlot (h : p.addSlot r = some p') : p'.rows = p.rows ++ [r] := by
  obtain ⟨-, h⟩ := Option.ite_none_right_eq_some.mp h
  rw [← Option.some.inj h]

theorem rows_appendToChain (h : appendToChain chain r = some chain') :
    chain'.flatMap CatalogPage.rows = chain.flatMap CatalogPage.rows ++ [r] := by
  unfold appendToChain at h
  split at h
  case h_1 p' hp' =>
    obtain ⟨p, hp, hadd⟩ := Option.bind_eq_some_iff.mp hp'
    obtain ⟨ys, rfl⟩ := getLast?_eq_some_iff.mp hp
    cases h
    simp [rows_addSlot hadd]
  case h_2 =>
    obtain ⟨p', hadd, rfl⟩ := Option.map_eq_some_iff.mp h
    simp [rows_addSlot hadd, CatalogPage.init]

theorem scanColumns_appendToChain (h : appendToChain chain r = some chain') (hr : r.tableName = table) :
    scanColumns table chain' = scanColumns table chain ++ [r] := by
  simp [scanColumns, rows_appendToChain h, hr]

/-- The bytes that a row takes with its slot. -/
def CatalogColumnRow.room (r : CatalogColumnRow) : ℕ := slotSize + r.size

/-- The page has room for another copy of each row that gets a new number. -/
def CatalogPage.Fits (table : String) (removed : ℕ) (p : CatalogPage) : Prop :=
  ((p.rows.filter (isBehind table removed)).map room).sum ≤ p.freeSpace

/-- It has that room once the row of the column is deleted. -/
def HasRoom (table : String) (removed : ℕ) (p : CatalogPage) : Prop :=
    (p.delete (isRowOf table removed)).Fits table removed

instance (table : String) (removed : ℕ) (p : CatalogPage) : Decidable (HasRoom table removed p) :=
  inferInstanceAs (Decidable (_ ≤ _))

theorem addSlots_snd {l : List CatalogColumnRow} : (p.addSlots l).2 = true ↔
    (l.map room).sum ≤ p.freeSpace := by
  induction l generalizing p with
  | nil => simp [CatalogPage.addSlots]
  | cons r l ih =>
    rw [CatalogPage.addSlots, CatalogPage.addSlot, map_cons, sum_cons, room]
    by_cases hr : slotSize + r.size ≤ p.freeSpace
    · simp only [if_pos hr, ih]
      simp only [CatalogPage.freeSpace, length_append, length_singleton, Nat.mul_add] at hr ⊢
      omega
    · simp only [if_neg hr, Bool.false_eq_true, false_iff]
      omega

/-- What `rewrite_column_rows_drop` makes of a row of the table. -/
theorem renumbered_perm : (renumbered table removed p).Perm
    ((p.rows.filter (isBehind table removed)).map (shifted removed)) := by
  refine (perm_insertionSort _ _).trans (List.Perm.of_eq (map_congr_left fun r hr => ?_))
  have hbehind : removed < r.columnIndex := by
    have := (mem_filter.mp hr).2
    simp only [isBehind, Bool.and_eq_true, decide_eq_true_eq] at this
    exact this.2
  rw [shifted, shift, if_pos hbehind]

theorem room_renumbered : ((renumbered table removed p).map room).sum =
    ((p.rows.filter (isBehind table removed)).map room).sum := by
  rw [((renumbered_perm (p := p)).map room).sum_nat, map_map]
  rfl

theorem rewritePage_snd : (rewritePage table removed p).2 = true ↔ p.Fits table removed := by
  rw [CatalogPage.Fits, ← room_renumbered, ← addSlots_snd, rewritePage]
  split
  case h_1 heq => simp [heq]
  case h_2 heq => simp [heq]

/-- The rows of the table on a page that is rewritten. -/
theorem rewritePage_of_fits (h : p.Fits table removed) : ∃ p', rewritePage table removed p = (p', true) ∧
    (scanColumns table [p']).Perm ((scanColumns table [p]).map (shifted removed)) := by
  have hadd := addSlots_snd.mpr (room_renumbered.trans_le h)
  refine ⟨_, by rw [rewritePage, ← Prod.mk.eta (p := p.addSlots _), hadd], ?_⟩
  simp only [scanColumns, flatMap_cons, flatMap_nil, append_nil, filter_append, filter_filter]
  -- the rows that stay are not changed by the renumbering either
  have hstay : (p.rows.filter fun r => decide (r.tableName = table) && !isBehind table removed r) =
      ((p.rows.filter (·.tableName = table)).filter fun r => !isBehind table removed r).map
        (shifted removed) := by
    rw [filter_filter]
    have hid : ∀ r ∈ p.rows.filter fun r => !isBehind table removed r && decide (r.tableName = table),
        r.shifted removed = id r := by
      intro r hr
      have hr := (mem_filter.mp hr).2
      simp only [isBehind, Bool.and_eq_true, decide_eq_true_eq, Bool.not_eq_true', Bool.and_eq_false_iff,
        decide_eq_false_iff_not] at hr
      rw [shifted, shift, if_neg (hr.1.resolve_left (not_not.mpr hr.2))]
      rfl
    rw [map_congr_left hid, map_id]
    exact filter_congr fun r _ => Bool.and_comm ..
  have hmove : ((renumbered table removed p).filter (·.tableName = table)).Perm
      (((p.rows.filter (·.tableName = table)).filter (isBehind table removed)).map
        (shifted removed)) := by
    refine (renumbered_perm.filter _).trans (List.Perm.of_eq ?_)
    rw [filter_map, filter_filter, filter_filter]
    congr 1
    refine filter_congr fun r _ => ?_
    by_cases hr : r.tableName = table <;> simp [isBehind, shifted, hr]
  rw [hstay]
  refine (hmove.append_left _).trans ?_
  rw [← map_append]
  exact (perm_append_comm.trans (filter_append_perm _ _)).map _

theorem scanColumns_cons (table : String) (p : CatalogPage) (chain : List CatalogPage) :
    scanColumns table (p :: chain) = scanColumns table [p] ++ scanColumns table chain := by
  simp [scanColumns]

theorem rewritePages_snd : (rewritePages table removed chain).2 = true ↔ ∀ p ∈ chain,
    p.Fits table removed := by
  induction chain with
  | nil => simp [rewritePages]
  | cons p chain ih =>
    rw [forall_mem_cons, ← ih, ← rewritePage_snd, rewritePages]
    split
    case h_1 heq => simp [heq]
    case h_2 heq => simp [heq]

theorem rewritePages_of_fits (h : ∀ p ∈ chain, p.Fits table removed) :
    ∃ chain', rewritePages table removed chain = (chain', true) ∧
      (scanColumns table chain').Perm ((scanColumns table chain).map (shifted removed)) := by
  induction chain with
  | nil => exact ⟨[], rfl, .refl _⟩
  | cons p chain ih =>
    obtain ⟨p', hp', hpage⟩ := rewritePage_of_fits (h p mem_cons_self)
    obtain ⟨chain', hchain', hrest⟩ := ih fun q hq => h q (mem_cons_of_mem _ hq)
    refine ⟨p' :: chain', by rw [rewritePages, hp', hchain']; rfl, ?_⟩
    rw [scanColumns_cons table p', scanColumns_cons table p, map_append]
    exact hpage.append hrest

/-- The row of a column is deleted, and no row of another table. -/
theorem scanColumns_deleteFromChain (other : String) :
    scanColumns other (deleteFromChain (isRowOf table removed) chain) =
      (scanColumns other chain).filter fun r => !(other = table && r.columnIndex = removed) := by
  simp only [scanColumns, deleteFromChain, flatMap_map, filter_flatMap, CatalogPage.delete,
    filter_filter, isRowOf]
  congr 1
  funext q
  refine filter_congr fun r _ => ?_
  by_cases hr : r.tableName = other
  · simp [hr]
  · simp [hr]

/-- `rewrite_column_rows_drop` succeeds exactly if every page has room. -/
theorem rewriteColumnRowsDrop_snd :
    (rewriteColumnRowsDrop table removed chain).2 = true ↔ ∀ p ∈ chain, HasRoom table removed p :=
  rewritePages_snd.trans forall_mem_map

/-- **`rewrite_column_rows_drop`**, if every page has room: the other columns stay, with their new
numbers. -/
theorem rewriteColumnRowsDrop_rows (h : ∀ p ∈ chain, HasRoom table removed p) :
    ∃ chain', rewriteColumnRowsDrop table removed chain = (chain', true) ∧
    (scanColumns table chain').Perm
      (((scanColumns table chain).filter (·.columnIndex ≠ removed)).map (shifted removed)) := by
  obtain ⟨chain', hchain', hperm⟩ := rewritePages_of_fits (forall_mem_map.mpr h)
  refine ⟨chain', hchain', hperm.trans (List.Perm.of_eq ?_)⟩
  rw [← deleteFromChain, scanColumns_deleteFromChain]
  simp

theorem rewriteColumnRowsDrop_of_hasRoom (h : ∀ p ∈ chain, HasRoom table removed p)
    (hrows : (scanColumns table chain).Perm (columnRows table cols)) (hremoved : removed < cols.length) :
    ∃ chain', rewriteColumnRowsDrop table removed chain = (chain', true) ∧
      (scanColumns table chain').Perm (columnRows table (cols.eraseIdx removed)) := by
  obtain ⟨chain', hchain', hperm⟩ := rewriteColumnRowsDrop_rows h
  refine ⟨chain', hchain', hperm.trans ?_⟩
  rw [← columnRows_eraseIdx hremoved]
  exact (hrows.filter _).map _

/-! ### The invariant -/

variable {s s' : State} {name pkName : String} {m : Layout}

/-- The layout in use and the catalog are those of a table with these columns. -/
structure Stored (cols : List Column) (s : State) : Prop where
  columns : s.live.columns = cols.map fun c => (c.name, c.type)
  notNull : s.live.notNull = cols.map Column.notNull
  defaults : s.live.defaults = cols.map Column.default
  uniqueCols : s.live.uniqueCols = qualifying cols s.live.pkIndex
  pkColumn : s.row.pkColumn = s.live.pkColumn
  pkIndex : s.row.pkIndex = s.live.pkIndex
  columnCount : s.row.columnCount = cols.length
  uniqueRoots : s.row.uniqueRoots = s.live.uniqueCols.length
  secondaryIndexes : s.row.secondaryIndexes = s.live.secondaryIndexes
  rows : (scanColumns s.name s.chain).Perm (columnRows s.name cols)
  published : s.unpublished = none

theorem Stored.length (h : Stored cols s) : s.live.columns.length = cols.length := by
  rw [h.columns, length_map]

/-- The rows may be in any order, and there may be rows behind the columns that are counted. -/
theorem Stored.opens (h : Stored cols s)
    (hrows : (scanColumns s.name chain).Perm (columnRows s.name all)) (htake : all.take count = cols) :
    openOrInit s.name { s.row with columnCount := count } chain = some s.live := by
  have hcols : (((scanColumns s.name chain).insertionSort le).take count).map
      column = cols := by
    rw [insertionSort_eq_columnRows hrows, map_take, columnRows, map_map, ← htake]
    exact congrArg _ (zipIdx_map_fst 0 all)
  have huniq : qualifying cols s.row.pkIndex = s.live.uniqueCols := by rw [h.pkIndex, h.uniqueCols]
  simp only [openOrInit, hcols, huniq, h.uniqueRoots]
  rw [if_neg fun hne => hne.2 rfl, ← h.columns, ← h.notNull, ← h.defaults, h.pkColumn, h.pkIndex,
    h.secondaryIndexes]
  by_cases hnil : s.live.uniqueCols.length = 0
  · rw [if_pos hnil, ← length_eq_zero_iff.mp hnil]
  · rw [if_neg hnil]

theorem pkIndex_of_openOrInit {row : CatalogRow} (h : openOrInit table row chain = some m) :
    row.pkIndex = m.pkIndex := by
  obtain ⟨-, hm⟩ := Option.ite_none_left_eq_some.mp h
  exact congrArg Layout.pkIndex (Option.some.inj hm)

/-- What is stored is read as it is in use. -/
theorem Stored.reopen (h : Stored cols s) : s.reopen = some s.live :=
  h.opens h.rows (by rw [h.columnCount, take_length])

theorem scanColumns_appendRows {l : List (Column × ℕ)} (h : appendRows table l chain = some chain') :
    scanColumns table chain' = scanColumns table chain ++ l.map fun c => ⟨table, c.2, c.1⟩ := by
  induction l generalizing chain with
  | nil =>
    cases h
    simp
  | cons c l ih =>
    obtain ⟨chain₁, hc, h⟩ := Option.bind_eq_some_iff.mp h
    rw [ih h, scanColumns_appendToChain hc rfl]
    simp

theorem stored_create (hnew : ∀ p ∈ chain, ∀ r ∈ p.rows, r.tableName ≠ table)
    (h : create table cols pkName chain = some s) : Stored cols s := by
  simp only [create, Option.bind_eq_bind, Option.bind_eq_some_iff, Option.some.injEq] at h
  obtain ⟨pkIndex, -, chain', hrows, rfl⟩ := h
  refine ⟨rfl, rfl, rfl, rfl, rfl, rfl, rfl, rfl, rfl, ?_, rfl⟩
  have hnone : scanColumns table chain = [] := by
    simp only [scanColumns, filter_eq_nil_iff, mem_flatMap, decide_eq_true_eq]
    rintro r ⟨p, hp, hr⟩
    exact hnew p hp r hr
  rw [scanColumns_appendRows hrows, hnone]
  rfl

/-! ### The statements -/

/-- Only columns behind the primary key are dropped, and when the pages have room. -/
def Ok (s : State) : Statement → Prop
  | .dropColumn name => ∀ removed ∈ s.live.columns.findIdx? (·.1 = name),
      s.live.pkIndex < removed ∧ ∀ p ∈ s.chain, HasRoom s.name removed p
  | _ => True

instance (s : State) : ∀ statement, Decidable (Ok s statement)
  | .dropColumn _ => inferInstanceAs (Decidable (∀ removed ∈ _, _))
  | .addColumn _ _ _ _ | .createIndex _ => isTrue trivial

/-- The layout with another column, which is not unique. -/
def Layout.added (m : Layout) (c : Column) : Layout :=
  { m with
    columns := m.columns ++ [(c.name, c.type)]
    notNull := m.notNull ++ [c.notNull]
    defaults := m.defaults ++ [c.default] }

theorem Stored.added (h : Stored cols s) (hc : c.unique = false)
    (hrows : (scanColumns s.name chain).Perm (columnRows s.name (cols ++ [c]))) :
    Stored (cols ++ [c])
      { s with live := s.live.added c
               row := { s.row with columnCount := s.live.columns.length + 1 }, chain } := by
  refine ⟨?_, ?_, ?_, ?_, h.pkColumn, h.pkIndex, ?_, h.uniqueRoots, h.secondaryIndexes, hrows,
    h.published⟩
  · simp [Layout.added, h.columns]
  · simp [Layout.added, h.notNull]
  · simp [Layout.added, h.defaults]
  · exact h.uniqueCols.trans (qualifying_append hc).symm
  · simp [h.length]

/-- The rows with that of another column. -/
theorem Stored.rows_append (h : Stored cols s)
    (hchain : appendToChain s.chain ⟨s.name, s.live.columns.length, c⟩ = some chain) :
    (scanColumns s.name chain).Perm (columnRows s.name (cols ++ [c])) := by
  rw [scanColumns_appendToChain hchain rfl, columnRows_append, h.length]
  exact h.rows.append_right _

theorem Stored.addColumn {type : ColumnType} {notNull : Bool} {default : Option Value}
    (h : Stored cols s) (hstep : step s (.addColumn name type notNull default) = some s') :
    ∃ cols, Stored cols s' := by
  simp only [step, h.published, Option.isSome_none, Bool.false_eq_true, if_false, Option.bind_eq_bind,
    Option.bind_eq_some_iff, Option.some.injEq] at hstep
  obtain ⟨chain, hchain, rfl⟩ := hstep
  have hadded := h.added rfl (h.rows_append hchain)
  rw [h.published] at hadded
  exact ⟨_, hadded⟩

/-- The numbers of a secondary index that does not use the column. -/
theorem narrowed_secondaryIndexes (h : m.canDrop removed = true) :
    (m.narrowed removed).secondaryIndexes = m.secondaryIndexes.map (shiftIndex removed) := by
  simp only [Layout.canDrop, Bool.and_eq_true] at h
  rw [Layout.narrowed, filter_eq_self.mpr fun s hs => all_eq_true.mp h.2 s hs]

theorem length_uniqueCols_narrowed (h : m.canDrop removed = true) :
    (m.narrowed removed).uniqueCols.length = m.uniqueCols.length := by
  simp only [Layout.canDrop, Bool.and_eq_true, decide_eq_true_eq] at h
  rw [Layout.narrowed, length_map, filter_eq_self.mpr]
  intro i hi
  simp only [ne_eq, decide_not, Bool.not_eq_eq_eq_not, Bool.not_true, decide_eq_false_iff_not]
  rintro rfl
  exact h.1.2 hi

/-- A column behind the primary key is gone, in the layout and in the catalog. -/
theorem Stored.narrowed (h : Stored cols s) (hdrop : s.live.canDrop removed = true)
    (hlt : removed < cols.length) (hpk : s.live.pkIndex < removed)
    (hrows : (scanColumns s.name chain).Perm (columnRows s.name (cols.eraseIdx removed))) :
    Stored (cols.eraseIdx removed)
      { s with live := s.live.narrowed removed
               row := s.row.narrowed removed (cols.length - 1), chain } := by
  have hshift : shift removed s.live.pkIndex = s.live.pkIndex := shift_of_lt hpk
  refine ⟨?_, ?_, ?_, ?_, h.pkColumn, ?_, ?_, ?_, ?_, hrows, h.published⟩
  · simp [Layout.narrowed, h.columns, eraseIdx_map]
  · simp [Layout.narrowed, h.notNull, eraseIdx_map]
  · simp [Layout.narrowed, h.defaults, eraseIdx_map]
  · show ((s.live.uniqueCols.filter (· ≠ removed)).map (shift removed)) = qualifying _
      (shift removed s.live.pkIndex)
    rw [hshift, h.uniqueCols, qualifying_eraseIdx hlt hpk]
  · exact h.pkIndex.trans hshift.symm
  · exact (length_eraseIdx_of_lt hlt).symm
  · exact h.uniqueRoots.trans (length_uniqueCols_narrowed hdrop).symm
  · show s.row.secondaryIndexes.map (shiftIndex removed) = _
    rw [narrowed_secondaryIndexes hdrop, h.secondaryIndexes]

theorem Stored.dropColumn (h : Stored cols s) (hok : Ok s (.dropColumn name))
    (hstep : step s (.dropColumn name) = some s') : ∃ cols, Stored cols s' := by
  simp only [step, Option.bind_eq_bind, Option.bind_eq_some_iff] at hstep
  obtain ⟨removed, hfind, hstep⟩ := hstep
  obtain ⟨⟨hdrop, -, -⟩, rfl⟩ := of_guard hstep
  obtain ⟨hpk, hroom⟩ := hok removed hfind
  have hlt : removed < cols.length := by
    rw [← h.length]
    exact (findIdx?_eq_some_iff_getElem.mp hfind).1
  obtain ⟨chain, hchain, hrows⟩ := rewriteColumnRowsDrop_of_hasRoom hroom h.rows hlt
  refine ⟨cols.eraseIdx removed, ?_⟩
  rw [h.length, State.applyColumnDrop, if_neg (by rw [h.columnCount]; omega), hchain, ← h.published]
  exact h.narrowed hdrop hlt hpk hrows

theorem stored_step {statement : Statement} (h : ∃ cols, Stored cols s) (hok : Ok s statement)
    (hstep : step s statement = some s') : ∃ cols, Stored cols s' := by
  obtain ⟨cols, h⟩ := h
  cases statement with
  | addColumn name type notNull default => exact h.addColumn hstep
  | dropColumn name => exact h.dropColumn hok hstep
  | createIndex index =>
    cases hstep
    exact ⟨cols, h.columns, h.notNull, h.defaults, h.uniqueCols, h.pkColumn, h.pkIndex,
      h.columnCount, h.uniqueRoots, congrArg (· ++ [index]) h.secondaryIndexes, h.rows, h.published⟩

/-! ### Clean close and reopen -/

/-- **The layout survives.** A table is created, altered and indexed by any sequence of statements,
of which those that drop a column drop one behind the primary key and find room on the pages of
`__columns`. After a clean close it is opened with the layout it had, in every part of it. -/
theorem layout_survives_reopen {name pk : String} {cols : List Column} {chain : List CatalogPage}
    {s₀ s s' : State}
    {statements : List Statement} (hnew : ∀ p ∈ chain, ∀ r ∈ p.rows, r.tableName ≠ name)
    (hcreate : create name cols pk chain = some s₀) (hok : Guarded Ok step s₀ statements)
    (hrun : run step s₀ statements = some s) (hclose : s.close = some s') : s'.reopen = some s.live := by
  obtain ⟨cols', h⟩ : ∃ cols, Stored cols s :=
    run_invariant (fun _ _ _ h hok hstep => stored_step h hok hstep)
      ⟨cols, stored_create hnew hcreate⟩ hok hrun
  rw [State.close, h.published, Option.some.injEq] at hclose
  exact hclose ▸ h.reopen

/-- Three columns, the first of which is the primary key. -/
def people : List Column :=
  [⟨"id", .int, true, false, none⟩, ⟨"age", .int, false, false, some (.int 0)⟩,
    ⟨"code", .int, false, true, none⟩]

/-- A column is added, an index is made on the last two, and the second column is dropped. -/
def peopleStatements : List Statement :=
  [.addColumn "city" (.string 255) false none, .createIndex ⟨2, [3], 1⟩, .dropColumn "age"]

theorem layout_survives_reopen_people :
    ∃ s₀ s, create "people" people "id" [.init] = some s₀ ∧ run step s₀ peopleStatements = some s ∧
      s.live.uniqueCols = [1] ∧ s.live.secondaryIndexes = [⟨1, [2], 1⟩] ∧ s.reopen = some s.live := by
  obtain ⟨s₀, hcreate, s, hs, huniq, hsec, hpub⟩ : ∃ s₀, create "people" people "id" [.init] = some s₀ ∧
      ∃ s, runChecked Ok step s₀ peopleStatements = some s ∧
        s.live.uniqueCols = [1] ∧ s.live.secondaryIndexes = [⟨1, [2], 1⟩] ∧ s.unpublished = none := by
    decide +kernel
  obtain ⟨hok, hrun⟩ := of_runChecked hs
  refine ⟨s₀, s, hcreate, hrun, huniq, hsec, ?_⟩
  exact layout_survives_reopen (by simp [CatalogPage.init]) hcreate hok hrun (by rw [State.close, hpub])

/-- The primary key is the second column. -/
def items : List Column := [⟨"tag", .int, false, false, none⟩, ⟨"id", .int, true, false, none⟩,
    ⟨"n", .int, false, false, none⟩]

/-- **The primary key moves on reopen**: a column before it is dropped, and after a clean close the
table is opened with the column behind it as its key. -/
theorem layout_changes_on_reopen :
    ∃ s₀ s s', create "items" items "id" [.init] = some s₀ ∧ run step s₀ [.dropColumn "tag"] = some s ∧
      s.close = some s' ∧ s.live.pkIndex = 0 ∧ s'.reopen.map Layout.pkIndex = some 1 ∧
      s'.reopen ≠ some s.live := by
  simp only [exists_and_left]
  decide +kernel

end RTsql.Storage.Catalog

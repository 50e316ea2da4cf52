import RTsql.Storage.SchemaReopen

/-!
# Publishing the columns that were dropped

`DROP COLUMN` changes the catalog after its transaction has committed: `rewrite_column_rows_drop`
deletes a row of `__columns` and gives the rows behind it new numbers, `publish_narrowed_table_row`
then lowers the column count, and last the layout in use is replaced. The count is also how
`publish_column_narrowing` tells that a drop has been published already, when recovery replays the
log and when a checkpoint publishes what is still to be published.

* `column_drops_are_whole` — a drop is whole exactly if the pages have room; there statements keep
succeeding.
* `narrowings_replayed` — the replay, if the count is that of every drop published before.
* `narrowing_published_once` — the statement and a checkpoint, if neither reads the count while the
other is at work. -/

namespace RTsql.Storage.Catalog

open List RTsql.Library

variable {table other : String} {removed : ℕ} {chain : List CatalogPage} {cols : List Column}
  {s s' : State}

/-! ### One column -/

theorem rows_addSlots (p : CatalogPage) (l : List CatalogColumnRow) :
    ∃ l', l'.Sublist l ∧ (p.addSlots l).1.rows = p.rows ++ l' := by
  induction l generalizing p with
  | nil => exact ⟨[], .slnil, (append_nil _).symm⟩
  | cons r l ih =>
    rw [CatalogPage.addSlots]
    split
    case h_1 p' hp' =>
      obtain ⟨l', hl', hrows⟩ := ih p'
      exact ⟨r :: l', hl'.cons_cons r, by rw [hrows, rows_addSlot hp', append_assoc, singleton_append]⟩
    case h_2 => exact ⟨[], nil_sublist _, (append_nil _).symm⟩

/-- The page of another table's rows, whether or not there is room. -/
theorem scanColumns_rewritePage (hother : other ≠ table) (p : CatalogPage) :
    scanColumns other [(rewritePage table removed p).1] = scanColumns other [p] := by
  have hmoved : ∀ r ∈ renumbered table removed p, r.tableName ≠ other := by
    intro r hr
    obtain ⟨q, hq, rfl⟩ := mem_map.mp (renumbered_perm.mem_iff.mp hr)
    have hq := (mem_filter.mp hq).2
    simp only [isBehind, Bool.and_eq_true, decide_eq_true_eq] at hq
    exact fun hname => hother (hname.symm.trans hq.1)
  have hnone : ∀ l : List CatalogColumnRow, l ⊆ renumbered table removed p →
      l.filter (fun r => decide (r.tableName = other)) = [] := fun l hl =>
    filter_eq_nil_iff.mpr fun r hr hname => hmoved r (hl hr) (of_decide_eq_true hname)
  obtain ⟨l', hl', hrows⟩ := rows_addSlots p (renumbered table removed p)
  unfold rewritePage
  split
  case h_1 =>
    simp only [scanColumns, flatMap_cons, flatMap_nil, append_nil, filter_append,
      hnone _ (List.Subset.refl _), filter_filter]
    refine filter_congr fun r _ => ?_
    by_cases hr : r.tableName = other
    · simp [isBehind, hr, hother]
    · simp [hr]
  case h_2 p' hp' =>
    have hrows' : p'.rows = p.rows ++ l' := by rwa [hp'] at hrows
    simp only [scanColumns, flatMap_cons, flatMap_nil, append_nil, hrows', filter_append,
      hnone _ hl'.subset]

/-- The rows of other tables stay. -/
theorem scanColumns_rewriteColumnRowsDrop (hother : other ≠ table) :
    scanColumns other (rewriteColumnRowsDrop table removed chain).1 = scanColumns other chain := by
  have hpages : ∀ chain : List CatalogPage,
      scanColumns other (rewritePages table removed chain).1 = scanColumns other chain := by
    intro chain
    induction chain with
    | nil => rfl
    | cons p chain ih =>
      have hpage : scanColumns other [(rewritePage table removed p).1] = _ :=
        scanColumns_rewritePage hother p
      rw [rewritePages]
      split
      case h_1 p' hp' =>
        rw [hp'] at hpage
        rw [Prod.map_fst, scanColumns_cons, hpage, ih, ← scanColumns_cons]
      case h_2 p' hp' =>
        rw [hp'] at hpage
        rw [scanColumns_cons, hpage, ← scanColumns_cons]
  rw [rewriteColumnRowsDrop, hpages, scanColumns_deleteFromChain]
  simp [hother]

/-- Rewriting makes no row of a column that had none, whether or not there is room. -/
theorem exists_of_mem_rewritePages {r : CatalogColumnRow}
    (hr : r ∈ scanColumns table (rewritePages table removed chain).1) :
    ∃ q ∈ scanColumns table chain, q.column = r.column := by
  have hpage : ∀ p : CatalogPage, ∀ r ∈ (rewritePage table removed p).1.rows, ∃ q ∈ p.rows,
      q.tableName = r.tableName ∧ q.column = r.column := by
    intro p r hr
    obtain ⟨l, hl, hrows⟩ := rows_addSlots p (renumbered table removed p)
    have hnew : ∀ r ∈ renumbered table removed p, ∃ q ∈ p.rows, q.tableName = r.tableName ∧
      q.column = r.column := by
      intro r hr
      obtain ⟨q, hq, rfl⟩ := mem_map.mp (renumbered_perm.mem_iff.mp hr)
      exact ⟨q, (mem_filter.mp hq).1, rfl, rfl⟩
    unfold rewritePage at hr
    split at hr
    case h_1 =>
      rcases mem_append.mp hr with hr | hr
      · exact ⟨r, (mem_filter.mp hr).1, rfl, rfl⟩
      · exact hnew r hr
    case h_2 heq =>
      rw [heq] at hrows
      rw [hrows] at hr
      exact (mem_append.mp hr).elim (fun hr => ⟨r, hr, rfl, rfl⟩) fun hr => hnew r (hl.subset hr)
  have hpages : ∀ r ∈ (rewritePages table removed chain).1.flatMap CatalogPage.rows,
      ∃ q ∈ chain.flatMap CatalogPage.rows, q.tableName = r.tableName ∧ q.column = r.column := by
    clear hr r
    induction chain with
    | nil => simp [rewritePages]
    | cons p chain ih =>
      have hp := hpage p
      intro r hr
      rw [rewritePages] at hr
      simp only [flatMap_cons, mem_append]
      split at hr
      all_goals
        rename_i heq
        rw [heq] at hp
        rcases mem_append.mp hr with hr | hr
      · exact (hp r hr).imp fun q hq => ⟨.inl hq.1, hq.2⟩
      · exact (ih r hr).imp fun q hq => ⟨.inr hq.1, hq.2⟩
      · exact (hp r hr).imp fun q hq => ⟨.inl hq.1, hq.2⟩
      · exact ⟨r, .inr hr, rfl, rfl⟩
  obtain ⟨hr, htable⟩ := mem_filter.mp hr
  obtain ⟨q, hq, hname, hcol⟩ := hpages r hr
  exact ⟨q, mem_filter.mpr ⟨hq, by rwa [hname]⟩, hcol⟩

/-- Dropping the column is all or nothing. On success the rows of the other columns of its table
stay, those behind it with their numbers lowered by one, and an error leaves the rows of the table;
those of other tables stay in any case. -/
def DropsWhole (table : String) (removed : ℕ) (chain : List CatalogPage) : Prop :=
  let result := rewriteColumnRowsDrop table removed chain
  (scanColumns table result.1).Perm (if result.2 then
    ((scanColumns table chain).filter (·.columnIndex ≠ removed)).map (CatalogColumnRow.shifted removed)
    else scanColumns table chain) ∧
  ∀ other, other ≠ table → scanColumns other result.1 = scanColumns other chain

/-- An error comes when the row of the column is gone. -/
theorem dropsWhole_iff {r : CatalogColumnRow} (hr : r ∈ scanColumns table chain)
    (honly : ∀ q ∈ scanColumns table chain, q.column = r.column → q.columnIndex = removed) :
    DropsWhole table removed chain ↔ ∀ p ∈ chain, HasRoom table removed p := by
  constructor
  · rintro ⟨hperm, -⟩
    rw [← rewriteColumnRowsDrop_snd]
    by_contra herror
    rw [if_neg herror] at hperm
    obtain ⟨q, hq, hcol⟩ := exists_of_mem_rewritePages (hperm.mem_iff.mpr hr)
    rw [scanColumns_deleteFromChain, mem_filter] at hq
    simpa [honly q hq.1 hcol] using hq.2
  · intro hroom
    obtain ⟨chain', hchain', hrows⟩ := rewriteColumnRowsDrop_rows hroom
    refine ⟨?_, fun other hother => scanColumns_rewriteColumnRowsDrop hother⟩
    rw [hchain']
    exact hrows

/-! ### Statement after statement -/

/-- The catalog has these columns, and the layout in use as many. -/
structure Kept (cols : List Column) (s : State) : Prop where
  columns : s.live.columns.length = cols.length
  columnCount : s.row.columnCount = cols.length
  rows : (scanColumns s.name s.chain).Perm (columnRows s.name cols)
  published : s.unpublished = none

/-- A drop that was not published is published, by a checkpoint or by the statement. -/
theorem Kept.publish (h : Kept cols s) (hroom : ∀ p ∈ s.chain, HasRoom s.name removed p)
    (hlt : removed < cols.length) :
    ∃ s', s.publishColumnNarrowing removed (cols.length - 1) = (s', true) ∧
      s.applyColumnDrop (s.live.narrowed removed) removed (cols.length - 1) = s' ∧
      Kept (cols.eraseIdx removed) s' := by
  obtain ⟨chain, hchain, hrows⟩ := rewriteColumnRowsDrop_of_hasRoom hroom h.rows hlt
  have hlen := length_eraseIdx_of_lt hlt
  have hcount : s.row.columnCount ≠ cols.length - 1 := by rw [h.columnCount]; omega
  refine ⟨{ s with live := s.live.narrowed removed, row := s.row.narrowed removed (cols.length - 1), chain }, ?_, ?_, ?_,
    hlen.symm, hrows, h.published⟩
  · rw [State.publishColumnNarrowing, if_neg hcount, hchain]
  · rw [State.applyColumnDrop, if_neg hcount, hchain, ← h.published]
  · rw [hlen, ← h.columns]
    exact length_eraseIdx_of_lt (h.columns ▸ hlt)

/-- The statements that are tried: the row of a new column fits on a page, a column that is dropped
may be dropped, and its rows find room. -/
def Possible (s : State) : Statement → Prop
  | .addColumn name type notNull default =>
    (CatalogPage.init.addSlot
      ⟨s.name, s.live.columns.length, ⟨name, type, notNull, false, default⟩⟩).isSome = true
  | .dropColumn name => ∃ removed ∈ s.live.columns.findIdx? (·.1 = name),
      s.live.canDrop removed = true ∧ ∀ p ∈ s.chain, HasRoom s.name removed p
  | .createIndex _ => True

instance (s : State) : ∀ statement, Decidable (Possible s statement)
  | .addColumn _ _ _ _ => inferInstanceAs (Decidable (_ = _))
  | .dropColumn _ => inferInstanceAs (Decidable (∃ removed ∈ _, _))
  | .createIndex _ => isTrue trivial

theorem exists_appendToChain {r : CatalogColumnRow} (h : (CatalogPage.init.addSlot r).isSome = true) :
    ∃ chain', appendToChain chain r = some chain' := by
  obtain ⟨page, hpage⟩ := Option.isSome_iff_exists.mp h
  unfold appendToChain
  split
  · exact ⟨_, rfl⟩
  · exact ⟨_, by rw [hpage]; rfl⟩

theorem kept_step {statement : Statement} (h : Kept cols s) (hok : Possible s statement) :
    ∃ s' cols', step s statement = some s' ∧ Kept cols' s' := by
  cases statement with
  | addColumn name type notNull default =>
    obtain ⟨chain, hchain⟩ : ∃ chain, appendToChain s.chain _ = some chain := exists_appendToChain hok
    refine ⟨{ s with
      live := s.live.added ⟨name, type, notNull, false, default⟩
      row := { s.row with columnCount := s.live.columns.length + 1 }
      chain }, cols ++ [⟨name, type, notNull, false, default⟩], ?_, ?_, ?_, ?_, h.published⟩
    · rw [step, if_neg (by simp [h.published]), hchain]
      rfl
    · simp [Layout.added, h.columns]
    · simp [h.columns]
    · rw [scanColumns_appendToChain hchain rfl, columnRows_append, h.columns]
      exact h.rows.append_right _
  | dropColumn name =>
    obtain ⟨removed, hfind, hdrop, hroom⟩ := hok
    have hlt : removed < cols.length := h.columns ▸ (findIdx?_eq_some_iff_getElem.mp hfind).1
    obtain ⟨s', -, happly, hs'⟩ := h.publish hroom hlt
    have hrow : (⟨s.name, removed, cols[removed]⟩ : CatalogColumnRow) ∈ scanColumns s.name s.chain := by
      rw [h.rows.mem_iff, columnRows, mem_map]
      exact ⟨(cols[removed], removed), mem_zipIdx_iff_getElem?.mpr (getElem?_eq_getElem hlt), rfl⟩
    refine ⟨s', _, ?_, hs'⟩
    rw [step, hfind, h.columns]
    exact (if_pos ⟨hdrop, h.published, _, hrow, rfl⟩).trans (by rw [happly])
  | createIndex index => exact ⟨_, cols, rfl, h.columns, h.columnCount, h.rows, h.published⟩

/-- **A column is dropped as a whole** exactly if every page has room for the copies it is to get,
once the row of the column is gone from it. And statements that add and drop columns keep
succeeding, as long as each finds room for what it writes. -/
theorem column_drops_are_whole (table : String) (removed : ℕ) (chain : List CatalogPage)
    (cols : List Column) (s : State) (statements : List Statement) :
    (∀ r ∈ scanColumns table chain,
      (∀ q ∈ scanColumns table chain, q.column = r.column → q.columnIndex = removed) →
      (DropsWhole table removed chain ↔ ∀ p ∈ chain, HasRoom table removed p)) ∧
    (Kept cols s → Guarded Possible step s statements →
      ∃ s' cols', run step s statements = some s' ∧ Kept cols' s') := by
  refine ⟨fun r hr honly => dropsWhole_iff hr honly, ?_⟩
  induction statements generalizing cols s with
  | nil => exact fun h _ => ⟨s, cols, rfl, h⟩
  | cons statement statements ih =>
    rintro h ⟨hok, hrest⟩
    obtain ⟨s₁, cols₁, hstep, h₁⟩ := kept_step h hok
    obtain ⟨s', cols', hrun, h'⟩ := ih cols₁ s₁ h₁ (hrest s₁ hstep)
    exact ⟨s', cols', run_cons_eq_some.mpr ⟨s₁, hstep, hrun⟩, h'⟩

theorem kept_create {pk : String} (hnew : ∀ p ∈ chain, ∀ r ∈ p.rows, r.tableName ≠ table)
    (h : create table cols pk chain = some s) : Kept cols s :=
  have hstored := stored_create hnew h
  ⟨hstored.length, hstored.columnCount, hstored.rows, hstored.published⟩

theorem column_drops_are_whole_people :
    ∃ s s' cols', create "people" people "id" [.init] = some s ∧ DropsWhole "people" 1 s.chain ∧
      run step s [.addColumn "city" (.string 255) false none, .dropColumn "age"] = some s' ∧
      Kept cols' s' := by
  obtain ⟨s, hs, hroom, hage, hcheck⟩ : ∃ s, create "people" people "id" [.init] = some s ∧
      (∀ p ∈ s.chain, HasRoom "people" 1 p) ∧
      (∃ r ∈ scanColumns "people" s.chain, ∀ q ∈ scanColumns "people" s.chain, q.column = r.column →
        q.columnIndex = 1) ∧
      (runChecked Possible step s
        [.addColumn "city" (.string 255) false none, .dropColumn "age"]).isSome := by
    decide +kernel
  obtain ⟨s₁, hs₁⟩ := Option.isSome_iff_exists.mp hcheck
  obtain ⟨r, hr, honly⟩ := hage
  obtain ⟨hdrop, hrun⟩ := column_drops_are_whole "people" 1 s.chain people s
    [.addColumn "city" (.string 255) false none, .dropColumn "age"]
  obtain ⟨s', cols', hrun, hkept⟩ :=
    hrun (kept_create (by simp [CatalogPage.init]) hs) (of_runChecked hs₁).1
  exact ⟨s, s', cols', hs, (hdrop r hr honly).mpr hroom, hrun, hkept⟩

/-- A column whose default takes more than a third of a page, behind two others. -/
def wide : List Column :=
  [⟨"id", .int, true, false, none⟩, ⟨"a", .int, false, false, none⟩, ⟨"b", .int, false, false, none⟩,
    ⟨"c", .string 255, false, false, some (.string (.ofList (List.replicate 1500 'x')))⟩]

/-- **A drop stops half way.** When a second column before the wide one is dropped, the page has no
room for another copy of it: an error is returned, and the row of the column is gone. -/
theorem column_drop_stops_half_way :
    ∃ s s' chain', create "t" wide "id" [.init] = some s ∧ run step s [.dropColumn "a"] = some s' ∧
      rewriteColumnRowsDrop "t" 1 s'.chain = (chain', false) ∧
      (scanColumns "t" chain').length + 1 = (scanColumns "t" s'.chain).length := by
  simp only [exists_and_left, Prod.ext_iff, and_assoc, exists_eq_left']
  decide +kernel

/-! ### Replaying the log -/

/-- A statement that changed the columns. -/
inductive Change where
  | add (c : Column)
  | drop (removed : ℕ)

/-- The columns after a statement. -/
def Change.apply (cols : List Column) : Change → List Column
  | .add c => cols ++ [c]
  | .drop removed => cols.eraseIdx removed

/-- The columns after several statements. -/
def columnsAfter (cols : List Column) (changes : List Change) : List Column :=
    changes.foldl Change.apply cols

/-- The `ColumnNarrowing` records of the statements: the column, and the new column count. -/
def narrowings (cols : List Column) : List Change → List (ℕ × ℕ)
  | [] => []
  | .add c :: rest => narrowings (cols ++ [c]) rest
  | .drop removed :: rest => (removed, cols.length - 1) :: narrowings (cols.eraseIdx removed) rest

/-- `publish_column_narrowing` of a record, as recovery calls it. -/
def replayStep (s : State) (record : ℕ × ℕ) : Option State :=
  match s.publishColumnNarrowing record.1 record.2 with
  | (s', true) => some s'
  | (_, false) => none

/-- A record that is not skipped finds room. -/
def Replayable (s : State) (record : ℕ × ℕ) : Prop :=
  s.row.columnCount = record.2 ∨ ∀ p ∈ s.chain, HasRoom s.name record.1 p

instance (s : State) (record : ℕ × ℕ) : Decidable (Replayable s record) :=
    inferInstanceAs (Decidable (_ ∨ _))

theorem narrowings_append (cols : List Column) (as bs : List Change) :
    narrowings cols (as ++ bs) = narrowings cols as ++ narrowings (columnsAfter cols as) bs := by
  induction as generalizing cols with
  | nil => rfl
  | cons a as ih =>
    cases a with
    | add c => exact ih _
    | drop removed => exact congrArg (_ :: ·) (ih _)

/-- Records that have the count of the catalog are skipped. -/
theorem replay_skips (h : Kept cols s) {records : List (ℕ × ℕ)}
    (hcount : ∀ r ∈ records, r.2 = cols.length) : run replayStep s records = some s := by
  induction records with
  | nil => rfl
  | cons r records ih =>
    have hsame : s.row.columnCount = r.2 := h.columnCount.trans (hcount r mem_cons_self).symm
    refine run_cons_eq_some.mpr ⟨s, ?_, ih fun r' hr' => hcount r' (mem_cons_of_mem _ hr')⟩
    rw [replayStep, State.publishColumnNarrowing, if_pos hsame]

/-- Drops that were not published are published one after the other. -/
theorem replay_drops {drops : List ℕ} (h : Kept cols s)
    (hvalid : ∀ i (hi : i < drops.length), drops[i] < cols.length - i)
    (hroom : Guarded Replayable replayStep s (narrowings cols (drops.map .drop))) :
    ∃ s', run replayStep s (narrowings cols (drops.map .drop)) = some s' ∧
      Kept (columnsAfter cols (drops.map .drop)) s' := by
  induction drops generalizing cols s with
  | nil => exact ⟨s, rfl, h⟩
  | cons removed drops ih =>
    have hlt : removed < cols.length := hvalid 0 (Nat.succ_pos _)
    have hlen := length_eraseIdx_of_lt hlt
    have hroom' : ∀ p ∈ s.chain, HasRoom s.name removed p :=
      hroom.1.resolve_left (by rw [h.columnCount]; omega)
    obtain ⟨s₁, hpublish, -, h₁⟩ := h.publish hroom' hlt
    have hstep : replayStep s (removed, cols.length - 1) = some s₁ := by rw [replayStep, hpublish]
    obtain ⟨s', hrun, hs'⟩ := ih h₁ (fun i hi => by
      have := hvalid (i + 1) (Nat.succ_lt_succ hi)
      rw [getElem_cons_succ] at this
      omega) (hroom.2 s₁ hstep)
    exact ⟨s', run_cons_eq_some.mpr ⟨s₁, hstep, hrun⟩, hs'⟩

/-- **The log is replayed**, after any statements of which a first part has been published: if the
count of the catalog is the one that every published drop lowered it to, the statements that were
not published are drops, and these find room, then the catalog has the columns and the column count
of all statements. -/
theorem narrowings_replayed {published : List Change} {drops : List ℕ}
    (h : Kept (columnsAfter cols published) s)
    (hcount : ∀ r ∈ narrowings cols published, r.2 = (columnsAfter cols published).length)
    (hvalid : ∀ i (hi : i < drops.length), drops[i] < (columnsAfter cols published).length - i)
    (hroom : Guarded Replayable replayStep s (narrowings cols (published ++ drops.map .drop))) :
    ∃ s', run replayStep s (narrowings cols (published ++ drops.map .drop)) = some s' ∧
      s'.row.columnCount = (columnsAfter cols (published ++ drops.map .drop)).length ∧
      (scanColumns s'.name s'.chain).Perm
        (columnRows s'.name (columnsAfter cols (published ++ drops.map .drop))) := by
  rw [narrowings_append] at hroom ⊢
  have hskip := replay_skips h hcount
  obtain ⟨s', hrun, hs'⟩ := replay_drops h hvalid ((guarded_append.mp hroom).2 s hskip)
  refine ⟨s', ?_, ?_⟩
  · rw [run_append, hskip, Option.bind_some, hrun]
  · rw [columnsAfter, foldl_append]
    exact ⟨hs'.columnCount, hs'.rows⟩

/-- Four columns. -/
def letters : List Column :=
  [⟨"id", .int, true, false, none⟩, ⟨"a", .int, false, false, none⟩, ⟨"b", .int, false, false, none⟩,
    ⟨"c", .int, false, false, none⟩]

/-- One drop has been published, and another one has not: the first record is skipped, the second is
not. -/
theorem narrowings_replayed_letters :
    ∃ s s₁ s', create "t" letters "id" [.init] = some s ∧ run step s [.dropColumn "a"] = some s₁ ∧
      run replayStep s₁ (narrowings letters [.drop 1, .drop 1]) = some s' ∧ s'.row.columnCount = 2 ∧
      (scanColumns s'.name s'.chain).Perm
        (columnRows s'.name (columnsAfter letters [.drop 1, .drop 1])) := by
  obtain ⟨s, hs, s₁, hs₁, hcheck, hcolumns, hcount, hrows, hpublished⟩ :
      ∃ s, create "t" letters "id" [.init] = some s ∧ ∃ s₁, run step s [.dropColumn "a"] = some s₁ ∧
        (runChecked Replayable replayStep s₁ (narrowings letters [.drop 1, .drop 1])).isSome ∧
        s₁.live.columns.length = 3 ∧ s₁.row.columnCount = 3 ∧
        (scanColumns s₁.name s₁.chain).Perm (columnRows s₁.name (columnsAfter letters [.drop 1])) ∧
        s₁.unpublished = none := by
    decide +kernel
  obtain ⟨s₂, hs₂⟩ := Option.isSome_iff_exists.mp hcheck
  have hkept : Kept (columnsAfter letters [.drop 1]) s₁ := ⟨hcolumns, hcount, hrows, hpublished⟩
  have hvalid : ∀ i (hi : i < [1].length), [1][i] < (columnsAfter letters [.drop 1]).length - i :=
    by decide
  have hsame : ∀ r ∈ narrowings letters [.drop 1], r.2 = (columnsAfter letters [.drop 1]).length :=
    by decide
  obtain ⟨s', hrun, hcount, hrows⟩ := narrowings_replayed hkept hsame hvalid (of_runChecked hs₂).1
  exact ⟨s, s₁, s', hs, hs₁, hrun, hcount, hrows⟩

/-- **A replay drops another column.** Two drops have been published. The record of the first one
has another count, so that the column that now has its number is dropped. -/
theorem narrowings_replayed_twice :
    ∃ s s₁ s', create "t" letters "id" [.init] = some s ∧
    run step s [.dropColumn "a", .dropColumn "b"] = some s₁ ∧
      (scanColumns "t" s₁.chain).map (·.column.name) = ["id", "c"] ∧
      run replayStep s₁ (narrowings letters [.drop 1, .drop 1]) = some s' ∧ s'.row.columnCount = 2 ∧
      (scanColumns "t" s'.chain).map (·.column.name) = ["id"] := by
  simp only [exists_and_left]
  decide +kernel

/-! ### The statement and a checkpoint -/

/-- Where a party is: before it reads the column count, before each of the three changes that
follow, or at its end. -/
inductive Phase where
  | reading
  | rewriting
  | lowering
  | installing
  | done
  | failed
  deriving DecidableEq

/-- `apply_column_drop` (`true`) and `publish_column_narrowing`, called by a checkpoint (`false`),
at work on one drop. -/
structure Race where
  catalog : State
  phase : Bool → Phase

/-- The next step of a party. The statement installs the layout that it has prepared, a checkpoint
derives one from the layout in use. -/
def Race.step (prepared : Layout) (removed newCount : ℕ) (r : Race) (party : Bool) : Option Race :=
  let goto (catalog : State) (phase : Phase) : Race := ⟨catalog, Function.update r.phase party phase⟩
  match r.phase party with
  | .reading => some (goto r.catalog (if r.catalog.row.columnCount = newCount then .done else .rewriting))
  | .rewriting =>
    match rewriteColumnRowsDrop r.catalog.name removed r.catalog.chain with
    | (chain, true) => some (goto { r.catalog with chain } .lowering)
    | (chain, false) => some (goto { r.catalog with chain } .failed)
  | .lowering => some (goto { r.catalog with row := r.catalog.row.narrowed removed newCount } .installing)
  | .installing =>
    some (goto { r.catalog with
      live := if party then prepared else r.catalog.live.narrowed removed } .done)
  | .done | .failed => none

/-- The count is read while the other party is not at work on the catalog, and the rewriting finds
room. -/
def Race.Alone (removed : ℕ) (r : Race) (party : Bool) : Prop :=
  match r.phase party with
  | .reading => r.phase (!party) ≠ .rewriting ∧ r.phase (!party) ≠ .lowering
  | .rewriting => ∀ p ∈ r.catalog.chain, HasRoom r.catalog.name removed p
  | _ => True

/-- What holds while the column `removed` of `cols` is dropped, from the state `s` on. -/
inductive Race.Inv (cols : List Column) (removed : ℕ) (s : State) (r : Race) : Prop where
  /-- Nothing is published. -/
  | before (hphase : ∃ p, (r.phase p = .reading ∨ r.phase p = .rewriting) ∧ r.phase (!p) = .reading)
      (hcatalog : r.catalog = s)
  /-- The column rows are. -/
  | between (hphase : ∃ p, r.phase p = .lowering ∧ r.phase (!p) = .reading) (chain : List CatalogPage)
      (hcatalog : r.catalog = { s with chain })
      (hrows : (scanColumns s.name chain).Perm (columnRows s.name (cols.eraseIdx removed)))
  /-- The row of the table is, too. -/
  | after (live : Layout) (hphase : ∃ p, (r.phase p = .installing ∧ live = s.live ∨
        r.phase p = .done ∧ live = s.live.narrowed removed) ∧
        (r.phase (!p) = .reading ∨ r.phase (!p) = .done))
      (chain : List CatalogPage)
      (hcatalog : r.catalog = { s with live, row := s.row.narrowed removed (cols.length - 1), chain })
      (hrows : (scanColumns s.name chain).Perm (columnRows s.name (cols.eraseIdx removed)))

/-- A party is the one at work, or the other one. -/
theorem Race.inv_step {r r' : Race} {party : Bool} (hs : Stored cols s) (hlt : removed < cols.length)
    (h : r.Inv cols removed s) (hok : r.Alone removed party)
    (hstep : r.step (s.live.narrowed removed) removed (cols.length - 1) party = some r') :
    r'.Inv cols removed s := by
  have hself : ∀ x, Function.update r.phase party x party = x := fun x => Function.update_self ..
  have hother : ∀ x, Function.update r.phase party x (!party) = r.phase (!party) := fun x =>
    Function.update_of_ne (Bool.not_ne_self party) ..
  unfold Race.step at hstep
  unfold Race.Alone at hok
  cases h with
  | before hphase hcatalog =>
    obtain ⟨p, hp, hq⟩ := hphase
    -- the party that moves is the first one at work
    have hfirst : (r.phase party = .reading ∨ r.phase party = .rewriting) ∧
      r.phase (!party) = .reading := by
      rcases Bool.eq_or_eq_not party p with rfl | rfl
      · exact ⟨hp, hq⟩
      · rw [hq, Bool.not_not] at hok
        rw [Bool.not_not]
        exact ⟨.inl hq, hp.resolve_right hok.1⟩
    rw [hcatalog] at hstep hok
    rcases hfirst with ⟨hread | hwrite, hreading⟩
    · have hne : s.row.columnCount ≠ cols.length - 1 := by rw [hs.columnCount]; omega
      rw [hread] at hstep
      simp only [if_neg hne, Option.some.injEq] at hstep
      subst hstep
      exact .before ⟨party, .inr (hself _), (hother _).trans hreading⟩ rfl
    · rw [hwrite] at hstep hok
      obtain ⟨chain, hchain, hrows⟩ := rewriteColumnRowsDrop_of_hasRoom hok hs.rows hlt
      simp only [hchain, Option.some.injEq] at hstep
      subst hstep
      exact .between ⟨party, hself _, (hother _).trans hreading⟩ chain rfl hrows
  | between hphase chain hcatalog hrows =>
    obtain ⟨p, hp, hq⟩ := hphase
    rcases Bool.eq_or_eq_not party p with rfl | rfl
    · rw [hp, hcatalog] at hstep
      cases hstep
      exact .after s.live ⟨party, .inl ⟨hself _, rfl⟩, .inl ((hother _).trans hq)⟩ chain rfl hrows
    · rw [hq, Bool.not_not] at hok
      exact absurd hp hok.2
  | after live hphase chain hcatalog hrows =>
    obtain ⟨p, hp, hq⟩ := hphase
    rw [hcatalog] at hstep
    rcases Bool.eq_or_eq_not party p with rfl | rfl
    · rcases hp with ⟨hp, rfl⟩ | ⟨hp, -⟩
      · rw [hp] at hstep
        cases hstep
        refine .after (s.live.narrowed removed)
          ⟨party, .inr ⟨hself _, rfl⟩, hq.imp (hother _).trans (hother _).trans⟩
          chain ?_ hrows
        rw [ite_self]
      · rw [hp] at hstep
        cases hstep
    · rcases hq with hq | hq
      · rw [hq] at hstep
        simp only [CatalogRow.narrowed, if_true, Option.some.injEq] at hstep
        subst hstep
        rw [Bool.not_not] at hother
        have hp' := hp.imp (And.imp_left (hother .done).trans) (And.imp_left (hother .done).trans)
        exact .after live ⟨p, hp', .inr (hself _)⟩ chain rfl hrows
      · rw [hq] at hstep
        cases hstep

/-- **A drop is published once**, by the statement or by a checkpoint that runs beside it, in every
run in which neither reads the column count while the other has read it and has not lowered it, and
in which the rewriting finds room: when both have ended, the catalog has the columns, the count and
the index columns of one drop, and so has the layout in use. The two agree in the number of the
primary key, too, exactly if that stands before the column. -/
theorem narrowing_published_once {r' : Race} {parties : List Bool} (h : Stored cols s)
    (hlt : removed < cols.length) (hdrop : s.live.canDrop removed = true)
    (hok : Guarded (Race.Alone removed) (Race.step (s.live.narrowed removed) removed (cols.length - 1))
      ⟨s, fun _ => .reading⟩ parties)
    (hrun : run (Race.step (s.live.narrowed removed) removed (cols.length - 1))
      ⟨s, fun _ => .reading⟩ parties = some r')
    (hend : ∀ party, r'.phase party = .done ∨ r'.phase party = .failed) :
    (∀ party, r'.phase party = .done) ∧ r'.catalog.row = s.row.narrowed removed (cols.length - 1) ∧
      (scanColumns r'.catalog.name r'.catalog.chain).Perm
        (columnRows r'.catalog.name (cols.eraseIdx removed)) ∧
      r'.catalog.live = s.live.narrowed removed ∧
      (r'.catalog.reopen = some r'.catalog.live ↔ s.live.pkIndex < removed) := by
  have hinv : r'.Inv cols removed s :=
    run_invariant (fun r p r' hinv hok hstep => Race.inv_step h hlt hinv hok hstep)
    (.before ⟨true, .inl rfl, rfl⟩ rfl) hok hrun
  cases hinv with
  | before hphase | between hphase =>
    obtain ⟨p, -, hq⟩ := hphase
    have := hend (!p)
    simp [hq] at this
  | after live hphase chain hcatalog hrows =>
    obtain ⟨p, hp, hq⟩ := hphase
    have hp' := hend p
    have hq' := hend (!p)
    rcases hp with ⟨hp, -⟩ | ⟨hp, rfl⟩
    · simp [hp] at hp'
    have hq : r'.phase (!p) = .done := hq.resolve_left fun hr => by simp [hr] at hq'
    rw [hcatalog]
    refine ⟨fun party => ?_, rfl, hrows, rfl, fun hopens => ?_, fun hpk =>
      (h.narrowed hdrop hlt hpk hrows).reopen⟩
    · rcases Bool.eq_or_eq_not party p with rfl | rfl
      · exact hp
      · exact hq
    · -- the number of the key is read from the row, where it is not lowered
      have hne : s.live.pkIndex ≠ removed := by
        simp only [Layout.canDrop, Bool.and_eq_true, decide_eq_true_eq] at hdrop
        exact hdrop.1.1.2
      have hkey := pkIndex_of_openOrInit hopens
      simp only [CatalogRow.narrowed, h.pkIndex, Layout.narrowed, shift] at hkey
      split at hkey <;> omega

instance (removed : ℕ) (r : Race) (party : Bool) : Decidable (r.Alone removed party) := by
  unfold Race.Alone
  split <;> infer_instance

/-- The statement publishes, then the checkpoint finds the count lowered. -/
theorem narrowing_published_once_letters :
    ∃ s r', create "t" letters "id" [.init] = some s ∧
      run (Race.step (s.live.narrowed 1) 1 3) ⟨s, fun _ => .reading⟩
        [true, true, true, false, true] = some r' ∧
      r'.catalog.row = s.row.narrowed 1 3 ∧ r'.catalog.reopen = some r'.catalog.live := by
  obtain ⟨s, hs, hdrop, hpk, r', hr', hdone⟩ : ∃ s, create "t" letters "id" [.init] = some s ∧
      s.live.canDrop 1 = true ∧ s.live.pkIndex < 1 ∧
      ∃ r', runChecked (Race.Alone 1) (Race.step (s.live.narrowed 1) 1 3) ⟨s, fun _ => .reading⟩
        [true, true, true, false, true] = some r' ∧ ∀ party, r'.phase party = .done := by
    decide +kernel
  obtain ⟨hok, hrun⟩ := of_runChecked hr'
  have hstored : Stored letters s := stored_create (by simp [CatalogPage.init]) hs
  obtain ⟨-, hrow, -, -, hopens⟩ :=
    narrowing_published_once hstored (by decide) hdrop hok hrun (.inl <| hdone ·)
  exact ⟨s, r', hs, hrun, hrow, hopens.mpr hpk⟩

/-- **A drop is published twice.** Both parties read the count before it is lowered, and the second
one drops the column that has taken the number of the first. -/
theorem narrowing_published_twice :
    ∃ s r', create "t" letters "id" [.init] = some s ∧
      run (Race.step (s.live.narrowed 1) 1 3) ⟨s, fun _ => .reading⟩ [true, false, true, true, true,
        false, false, false] = some r' ∧
      (∀ party, r'.phase party = .done) ∧ r'.catalog.row.columnCount = 3 ∧
      (scanColumns "t" r'.catalog.chain).map (·.column.name) = ["id", "c"] := by
  simp only [exists_and_left]
  decide +kernel

end RTsql.Storage.Catalog

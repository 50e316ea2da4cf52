import RTsql.Storage.SchemaReopen

/-!
# ADD COLUMN when writes fail

`alter_add_column` writes the row of the column, raises the column count of the table, flushes both,
and then replaces the layout in use. A failure before that is compensated on the pages in memory. A
caller that has gone away when the count is on the disk is noticed, and the count and the row are
taken back, on the disk too. A flush passes over a page that is being written at that moment, and
reports success.

* `add_column_all_or_nothing` — when the column is there everywhere or nowhere.
* `abandoned_column_returns` — a flush that fails there is ignored, and the column comes back after
a crash. -/

namespace RTsql.Storage.Catalog

open List

/-- A table, with its pages in memory, and the catalog on the disk. -/
structure Pool where
  mem : State
  diskRow : CatalogRow
  /-- The pages of `__columns`. -/
  diskChain : List CatalogPage

/-- The layout after a crash. -/
def Pool.reopen (p : Pool) : Option Layout := openOrInit p.mem.name p.diskRow p.diskChain

/-- How the reads and writes of the statement end. Whether a flush succeeds is one thing, and
whether the page is on the disk another: a page whose write is in flight is passed over, and a page
may be on the disk though an error is reported. -/
structure Outcomes where
  /-- The row of the column gets on its page. -/
  rowAdded : Bool
  /-- `insert_column_row` succeeds; it may fail when the row is on its page. -/
  insertOk : Bool
  /-- The count is raised on its page. -/
  raised : Bool
  /-- `flush_all_except`, which is to write the pages of `__columns`. -/
  othersOk : Bool
  rowWritten : Bool
  /-- The flush of the page of the count. -/
  countOk : Bool
  countWritten : Bool
  /-- The caller is gone when the count is flushed, or when it is answered. -/
  closed : Bool
  unheard : Bool
  /-- Going back: the count is restored on its page, the row removed, and the pages of both are
  flushed. -/
  restoreOk : Bool
  removeOk : Bool
  backCountOk : Bool
  backCountWritten : Bool
  backRowsWritten : Bool

/-- The column count, on its page. -/
def Pool.setCount (p : Pool) (count : ℕ) : Pool :=
  { p with mem := { p.mem with row := { p.mem.row with columnCount := count } } }

/-- `restore_table_column_count_no_flush` and `remove_column_row_at`. -/
def Pool.takeBack (p : Pool) (o : Outcomes) (count : ℕ) : Pool :=
  if o.restoreOk then
    let p := p.setCount count
    if o.removeOk then
      { p with mem := { p.mem with chain := deleteFromChain (isRowOf p.mem.name count) p.mem.chain } }
    else p
  else p

/-- `rollback_abandoned_add_column`: the first error ends it. -/
def Pool.rollback (p : Pool) (o : Outcomes) (count : ℕ) : Pool :=
  let p := p.takeBack o count
  if o.restoreOk && o.removeOk then
    { p with
      diskRow := if o.backCountWritten then p.mem.row else p.diskRow
      diskChain := if o.backCountOk && o.backRowsWritten then p.mem.chain else p.diskChain }
  else p

/-- `flush_commit_point`, with the page of the count as the last. -/
def Pool.flush (p : Pool) (o : Outcomes) : Pool :=
  { p with
    diskChain := if o.rowWritten then p.mem.chain else p.diskChain
    diskRow := if o.countWritten then p.mem.row else p.diskRow }

/-- The pages of `__columns` with the row of the column. -/
def Pool.withRow (p : Pool) (c : Column) (o : Outcomes) : Option (List CatalogPage) :=
  if o.rowAdded then appendToChain p.mem.chain ⟨p.mem.name, p.mem.live.columns.length, c⟩ else none

/-- `alter_add_column`, and what the caller is told. -/
def Pool.addColumn (p : Pool) (c : Column) (o : Outcomes) : Pool × Option Bool :=
  let count := p.mem.live.columns.length
  let failed := if o.closed then none else some false
  match p.withRow c o with
  | none => (p.takeBack o count, failed)
  | some chain =>
    let p := { p with mem := { p.mem with chain } }
    if !(o.insertOk && o.raised) then (p.takeBack o count, failed)
    else
      let p := (p.setCount (count + 1)).flush o
      if !(o.othersOk && o.countOk) then (p.takeBack o count, failed)
      else if o.closed then (p.rollback o count, none)
      else ({ p with mem := { p.mem with live := p.mem.live.added c } },
        if o.unheard then none else some true)

/-- A page is written later: that of the count, or those of `__columns`. -/
def Pool.write (p : Pool) (count : Bool) : Pool :=
  if count then { p with diskRow := p.mem.row } else { p with diskChain := p.mem.chain }

/-- What is asked of a statement that has raised the count. If both flushes succeed and the caller
is there, the row and the count are on the disk. Otherwise the count is restored in memory; and if
the raised count is on the disk, the row is removed in memory, and is not on the disk or goes from
there, unless the restored count is written. -/
def Undoes (o : Outcomes) : Prop :=
  if o.othersOk && o.countOk && !o.closed then o.rowWritten = true ∧ o.countWritten = true
  else o.restoreOk = true ∧ (o.countWritten = true → o.removeOk = true ∧ (o.rowWritten = false ∨
    o.othersOk = true ∧ o.countOk = true ∧
    (o.backCountWritten = true ∨ o.backCountOk = true ∧ o.backRowsWritten = true)))

instance (o : Outcomes) : Decidable (Undoes o) := inferInstanceAs (Decidable (ite ..))

/-! ### What is read -/

variable {cols : List Column} {c : Column} {p : Pool} {o : Outcomes} {s : State}
  {chain : List CatalogPage} {row : CatalogRow} {raised there mr mt dr dt : Bool}

/-- The count is raised or not, and the row of the column is there or not. -/
structure Looks (s : State) (cols : List Column) (c : Column) (row : CatalogRow)
    (chain : List CatalogPage) (raised there : Bool) : Prop where
  row : row = { s.row with columnCount := cols.length + raised.toNat }
  rows : (scanColumns s.name chain).Perm (columnRows s.name (if there then cols ++ [c] else cols))

/-- The column is read if the count is raised and the row is there. -/
theorem Looks.opens (h : Stored cols s) (hc : c.unique = false)
    (l : Looks s cols c row chain raised there) :
    openOrInit s.name row chain = some (if raised && there then s.live.added c else s.live) := by
  rw [l.row]
  cases there with
  | false =>
    rw [Bool.and_false, if_neg Bool.false_ne_true]
    exact h.opens l.rows (take_of_length_le (Nat.le_add_right ..))
  | true =>
    cases raised with
    | false => exact h.opens l.rows (take_left ..)
    | true =>
      have hadded := (h.added hc l.rows).reopen
      rwa [h.length] at hadded

/-- How the catalog looks in memory and on the disk. -/
structure Pool.Looks (s : State) (cols : List Column) (c : Column) (p : Pool) (mr mt dr dt : Bool) :
    Prop where
  name : p.mem.name = s.name
  live : p.mem.live = s.live
  mem : Catalog.Looks s cols c p.mem.row p.mem.chain mr mt
  disk : Catalog.Looks s cols c p.diskRow p.diskChain dr dt

/-- The row of the new column is removed, if it is there. -/
theorem rows_deleteFromChain (h : (scanColumns s.name chain).Perm
    (columnRows s.name (if there then cols ++ [c] else cols))) :
    (scanColumns s.name (deleteFromChain (isRowOf s.name cols.length) chain)).Perm
      (columnRows s.name cols) := by
  have hold : (columnRows s.name cols).filter
    (fun r => !(s.name = s.name && r.columnIndex = cols.length)) =
      columnRows s.name cols := by
    refine filter_eq_self.mpr fun r hr => ?_
    have hlt := mem_map_of_mem (f := CatalogColumnRow.columnIndex) hr
    rw [map_columnIndex_columnRows, mem_range] at hlt
    simpa using Nat.ne_of_lt hlt
  rw [scanColumns_deleteFromChain]
  refine (h.filter _).trans (.of_eq ?_)
  cases there with
  | false => exact hold
  | true =>
    rw [if_pos rfl, columnRows_append, filter_append, hold]
    simp

theorem Pool.Looks.setCount (l : p.Looks s cols c mr mt dr dt) (raised : Bool) :
    (p.setCount (cols.length + raised.toNat)).Looks s cols c raised mt dr dt := by
  refine ⟨l.name, l.live, ⟨?_, l.mem.rows⟩, l.disk⟩
  show { p.mem.row with columnCount := cols.length + raised.toNat } = _
  rw [l.mem.row]

theorem Pool.Looks.flush (l : p.Looks s cols c mr mt dr dt) (o : Outcomes) :
    (p.flush o).Looks s cols c mr mt (if o.countWritten then mr else dr)
      (if o.rowWritten then mt else dt) := by
  refine ⟨l.name, l.live, l.mem, ?_, ?_⟩ <;> dsimp only [Pool.flush] <;> split
  exacts [l.mem.row, l.disk.row, l.mem.rows, l.disk.rows]

theorem Pool.Looks.takeBack (l : p.Looks s cols c mr mt dr dt) (o : Outcomes) :
    (p.takeBack o cols.length).Looks s cols c (mr && !o.restoreOk)
      (mt && !(o.restoreOk && o.removeOk)) dr dt := by
  have hcount : (p.setCount cols.length).Looks s cols c false mt dr dt := l.setCount false
  unfold Pool.takeBack
  cases o.restoreOk with
  | false => simpa using l
  | true =>
    cases o.removeOk with
    | false => simpa using hcount
    | true =>
      refine ⟨hcount.name, hcount.live, ⟨by simpa using hcount.mem.row, ?_⟩, hcount.disk⟩
      dsimp only
      rw [if_pos rfl, hcount.name]
      simpa using rows_deleteFromChain hcount.mem.rows

theorem Pool.Looks.rollback (l : p.Looks s cols c mr mt dr dt) (o : Outcomes) :
    (p.rollback o cols.length).Looks s cols c (mr && !o.restoreOk) (mt && !(o.restoreOk && o.removeOk))
      (dr && !(o.restoreOk && o.removeOk && o.backCountWritten))
      (dt && !(o.restoreOk && o.removeOk && (o.backCountOk && o.backRowsWritten))) := by
  have lb := l.takeBack o
  unfold Pool.rollback
  cases hback : o.restoreOk && o.removeOk with
  | false => simpa [hback] using lb
  | true =>
    rw [hback] at lb
    have hrestore := (Bool.and_eq_true_iff.mp hback).1
    refine ⟨lb.name, lb.live, lb.mem, ?_, ?_⟩
    · cases o.backCountWritten with
      | false => simpa using lb.disk.row
      | true => simpa [hrestore] using lb.mem.row
    · cases o.backCountOk && o.backRowsWritten with
      | false => simpa using lb.disk.rows
      | true => simpa using lb.mem.rows

/-! ### The statement -/

/-- The column is there everywhere, or nowhere; and the caller is not told otherwise. -/
def Whole (before : Layout) (c : Column) (o : Outcomes) (counts : List Bool)
    (result : Pool × Option Bool) : Prop :=
  result.1.mem.reopen = some result.1.mem.live ∧
  (counts.foldl Pool.write result.1).reopen = some result.1.mem.live ∧
    (result.1.mem.live = before ∧ result.2 ≠ some true ∨
      result.1.mem.live = before.added c ∧ result.2 ≠ some false ∧ o.closed = false)

theorem added_ne (m : Layout) (c : Column) : m.added c ≠ m := fun h => by
  have := congrArg (fun m => m.columns.length) h
  simp [Layout.added] at this

/-- After any writes, the count and the rows on the disk are those of before or those in memory. -/
theorem reopen_writes (p : Pool) (counts : List Bool) : ∃ row ∈ [p.diskRow, p.mem.row],
    ∃ chain ∈ [p.diskChain, p.mem.chain],
    (counts.foldl Pool.write p).reopen = openOrInit p.mem.name row chain := by
  suffices h : ∀ q : Pool, q.mem = p.mem → q.diskRow ∈ [p.diskRow, p.mem.row] →
    q.diskChain ∈ [p.diskChain, p.mem.chain] →
      ∃ row ∈ [p.diskRow, p.mem.row], ∃ chain ∈ [p.diskChain, p.mem.chain],
        (counts.foldl Pool.write q).reopen = openOrInit p.mem.name row chain from h p rfl (by simp)
          (by simp)
  induction counts with
  | nil => exact fun q hmem hrow hchain => ⟨_, hrow, _, hchain, by rw [foldl_nil, Pool.reopen, hmem]⟩
  | cons count counts ih =>
    intro q hmem hrow hchain
    cases count with
    | true => exact ih _ hmem (by simp [Pool.write, hmem]) hchain
    | false => exact ih _ hmem hrow (by simp [Pool.write, hmem])

/-- The statement is whole exactly if the column is read everywhere or nowhere, whichever pages are
written. -/
theorem Pool.Looks.whole_iff {q : Pool} {told : Option Bool} (installed : Bool) (h : Stored cols s)
    (hc : c.unique = false) (l : q.Looks s cols c mr mt dr dt)
    (htold : if installed then told ≠ some false ∧ o.closed = false else told ≠ some true) :
    (∀ counts, Whole s.live c o counts
        ({ q with mem := { q.mem with
          live := if installed then q.mem.live.added c else q.mem.live } }, told)) ↔
      (mr && mt) = installed ∧ (dr && dt) = installed ∧ (dr && mt) = installed ∧
      (mr && dt) = installed := by
  have hiff (b : Bool) : some (if b then s.live.added c else s.live) =
      some (if installed then s.live.added c else s.live) ↔ b = installed := by
    cases b <;> cases installed <;> simp [added_ne, (added_ne s.live c).symm]
  have hopens {row : CatalogRow} {chain : List CatalogPage} {r t : Bool}
    (lk : Catalog.Looks s cols c row chain r t) :
      openOrInit q.mem.name row chain = some (if installed then s.live.added c else s.live) ↔
      (r && t) = installed := by
    rw [l.name, lk.opens h hc, hiff]
  have hmm := hopens l.mem
  have hdd := hopens l.disk
  have hdm := hopens ⟨l.disk.row, l.mem.rows⟩
  have hmd := hopens ⟨l.mem.row, l.disk.rows⟩
  simp only [Whole, l.live]
  constructor
  · intro hall
    exact ⟨hmm.mp (hall []).1, hdd.mp (hall []).2.1, hdm.mp (hall [false]).2.1, hmd.mp (hall [true]).2.1⟩
  · rintro ⟨h₁, h₂, h₃, h₄⟩ counts
    refine ⟨hmm.mpr h₁, ?_, ?_⟩
    · obtain ⟨row, hrow, chain, hchain, heq⟩ := reopen_writes
        { q with mem := { q.mem with live := if installed then s.live.added c else s.live } } counts
      rw [heq]
      rcases mem_pair.mp hrow with rfl | rfl <;> rcases mem_pair.mp hchain with rfl | rfl
      exacts [hdd.mpr h₂, hdm.mpr h₃, hmd.mpr h₄, hmm.mpr h₁]
    · cases installed with
      | false => exact .inl ⟨rfl, htold⟩
      | true => exact .inr ⟨rfl, htold⟩

/-- **All or nothing**: for every way in which the reads and writes of the statement end and every
moment at which its caller goes away, the layout in use and the catalog agree, and so do the layout
and the disk after any further writes and a crash, exactly if a statement that has raised the count
is finished or undone on the disk. -/
theorem add_column_all_or_nothing {cols : List Column} {p : Pool} {c : Column} {o : Outcomes}
    (h : Stored cols p.mem) (hdisk : p.diskRow = p.mem.row)
    (hrows : (scanColumns p.mem.name p.diskChain).Perm (columnRows p.mem.name cols))
    (hc : c.unique = false) : (∀ counts, Whole p.mem.live c o counts (p.addColumn c o)) ↔
      ((p.withRow c o).isSome = true → o.insertOk = true → o.raised = true → Undoes o) := by
  have hfailed : (if o.closed then none else some false) ≠ some true := by
    cases o.closed <;> simp
  have hrow : p.mem.row = { p.mem.row with columnCount := cols.length + false.toNat } := by
    simp [← h.columnCount]
  -- nothing has been written to the disk
  have hold : Looks p.mem cols c p.diskRow p.diskChain false false := ⟨hdisk.trans hrow, hrows⟩
  unfold Pool.addColumn
  rw [h.length]
  dsimp only
  cases hchain : p.withRow c o with
  | none =>
    have l : p.Looks p.mem cols c false false false false := ⟨rfl, rfl, ⟨hrow, h.rows⟩, hold⟩
    refine iff_of_true (((l.takeBack o).whole_iff false h hc hfailed).mpr ?_) (by simp)
    simp
  | some chain =>
    have hnew := h.rows_append (Option.ite_none_right_eq_some.mp hchain).2
    have l : Pool.Looks p.mem cols c { p with mem := { p.mem with chain } } false true false false :=
      ⟨rfl, rfl, ⟨hrow, hnew⟩, hold⟩
    have lf := (l.setCount true).flush o
    simp only [Bool.if_false_right, Bool.and_true] at lf
    simp only [Option.isSome_some, true_imp_iff]
    split
    case isTrue hno =>
      refine iff_of_true (((l.takeBack o).whole_iff false h hc hfailed).mpr (by simp)) ?_
      intro hins hraised
      simp [hins, hraised] at hno
    case isFalse hraised =>
    obtain ⟨hins, hraised⟩ : o.insertOk = true ∧ o.raised = true := by simpa using hraised
    rw [imp_iff_right hins, imp_iff_right hraised, Undoes]
    split
    case isTrue hfail =>
      have hflush : (o.othersOk && o.countOk) = false := (Bool.not_eq_true' _).mp hfail
      have hnot : ¬ (o.othersOk = true ∧ o.countOk = true ∧ (o.backCountWritten = true ∨
          o.backCountOk = true ∧ o.backRowsWritten = true)) := fun hboth => by
          simp [hboth.1, hboth.2.1] at hflush
      refine ((lf.takeBack o).whole_iff false h hc hfailed).trans ?_
      rw [hflush, Bool.false_and, if_neg Bool.false_ne_true, or_iff_left hnot]
      cases o.restoreOk <;> cases o.removeOk <;> cases o.countWritten <;> cases o.rowWritten <;> decide
    case isFalse hflushed =>
    obtain ⟨hothers, hcount⟩ : o.othersOk = true ∧ o.countOk = true := by simpa using hflushed
    split
    case isTrue hclosed =>
      refine ((lf.rollback o).whole_iff false h hc (by simp)).trans ?_
      rw [hclosed, Bool.not_true, Bool.and_false, if_neg Bool.false_ne_true, eq_true hothers,
        eq_true hcount, true_and, true_and]
      cases o.restoreOk <;> cases o.removeOk <;> cases o.countWritten <;> cases o.rowWritten <;>
        cases o.backCountWritten <;> cases o.backCountOk <;> cases o.backRowsWritten <;> decide
    case isFalse hopen =>
      have htold : (if o.unheard then none else some true) ≠ some false ∧ o.closed = false := by
        cases o.unheard <;> simpa using hopen
      refine (lf.whole_iff true h hc htold).trans ?_
      rw [hothers, hcount, htold.2, if_pos (by decide)]
      cases o.countWritten <;> cases o.rowWritten <;> decide

/-- The column that is added. -/
def city : Column := ⟨"city", .string 255, false, false, none⟩

/-- All goes well until the caller is found to be gone; then the flush of the count succeeds or
fails. -/
def goneCaller (backCountOk : Bool) : Outcomes :=
  ⟨true, true, true, true, true, true, true, true, true, true, true, backCountOk, backCountOk, true⟩

theorem add_column_all_or_nothing_gone :
    ∃ s, create "people" people "id" [.init] = some s ∧
      Whole s.live city (goneCaller true) [false]
        ((Pool.mk s s.row s.chain).addColumn city (goneCaller true)) := by
  have hsome : (create "people" people "id" [.init]).isSome = true := by decide +kernel
  obtain ⟨s, hs⟩ := Option.isSome_iff_exists.mp hsome
  have h : Stored people s := stored_create (by simp [CatalogPage.init]) hs
  exact ⟨s, hs, (add_column_all_or_nothing h rfl h.rows rfl).mpr (fun _ _ _ => by decide) [false]⟩

/-- **The column comes back**: the caller is gone, and the flush of the restored count fails. The
error is ignored, and the column that is in no layout and in no page in memory is in the table after
a crash. -/
theorem abandoned_column_returns :
    ∃ s, create "people" people "id" [.init] = some s ∧
      let result := (Pool.mk s s.row s.chain).addColumn city (goneCaller false)
      result.2 = none ∧ result.1.mem.live = s.live ∧ result.1.mem.reopen = some s.live ∧
        result.1.reopen = some (s.live.added city) := by
  decide +kernel

end RTsql.Storage.Catalog

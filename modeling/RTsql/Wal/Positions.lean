import RTsql.Wal.Writers

/-!
# Redo puts every row back

After a recovery, does every committed Insert and Update record of the tail have its tuple at its
row id? Redo writes a row where the record says, unless a slot is there already, and takes a slot
that is there for the row itself. In the file that is so: the image of a page is an older state of
it. But the tombstones that redo writes take row ids of their own, the next one of the tail page,
and the image of the tail page may be younger than the deletion and older than a row written after
it.

## What is proved

* `redo_restores_rows` — in every run, recovery restores every row if no tombstone that it writes
  takes the row id of a row still to be redone (`tombstonesApart`), and the rows fit into their
  slots.
* `redo_loses_row` — a second tombstone is in place of a row.
-/

namespace RTsql.Wal

open List RTsql.Library RTsql.Storage RTsql.Transaction

/-- Every row of the records is at its row id. -/
def Restored (s : DataStore) (rs : List WalRecord) : Prop :=
  ∀ r ∈ rs, ∀ name rid tuple, r.row = some (name, rid, tuple) →
    ∃ slot, s.slotAt rid = some slot ∧ s.resolve slot.tuple = some tuple

/-- The row ids of the records. -/
def rowIds (rs : List WalRecord) : List RowId := rs.filterMap fun r => r.row.map fun row => row.2.1

/-- If the record is a deletion, the next slot of the tail page is not the row id of a row still to
be redone. -/
def tombstoneApart (s : DataStore) (rest : List WalRecord) : WalRecord → Bool
  | .delete _ name _ => (nextSlot s name).all (· ∉ rowIds rest)
  | _ => true

/-- Whenever a deletion is redone, that is so. -/
def tombstonesApart (r : RedoState) (rs : List WalRecord) : Bool :=
  alongRedo (fun r rec rest => tombstoneApart r.store rest rec) r rs

/-- The rows of the records are stored in their slots. -/
def RowsInline (rs : List WalRecord) : Prop :=
    ∀ r ∈ rs, ∀ name rid tuple, r.row = some (name, rid, tuple) → Inline tuple

/-- The records are about pages in use, and a slot at the row id of one holds its row. -/
def Agrees (s : DataStore) (rs : List WalRecord) : Prop :=
  ∀ r ∈ rs, ∀ name rid tuple, r.row = some (name, rid, tuple) →
    s.Used rid.pageId ∧ ∀ slot, s.slotAt rid = some slot → slot.tuple = .inline tuple

/-- Two records with the same row id have the same tuple. -/
def Functional (rs : List WalRecord) : Prop :=
  ∀ r ∈ rs, ∀ r' ∈ rs, ∀ name name' rid tuple tuple',
    r.row = some (name, rid, tuple) → r'.row = some (name', rid, tuple') → tuple = tuple'

/-- The rows of the records are there. -/
def Present (s : DataStore) (rs : List WalRecord) : Prop :=
  ∀ r ∈ rs, ∀ name rid tuple, r.row = some (name, rid, tuple) → ∃ slot, s.slotAt rid = some slot

theorem present_nil {s : DataStore} : Present s [] := fun _ hr => (not_mem_nil hr).elim

variable {done rest rs : List WalRecord} {rec : WalRecord} {r' : RedoState}

/-- One record: it adds its row, and the rows of the others are not in its way. -/
theorem redoRecord_agrees {r : RedoState}
    (hagrees : Agrees r.store (done ++ rec :: rest)) (hpresent : Present r.store done)
    (hfun : Functional (done ++ rec :: rest)) (hinline : RowsInline [rec])
    (hapart : ∀ tx name rid, rec = .delete tx name rid → ∀ x ∈ nextSlot r.store name, x ∉ rowIds rest)
    (h : redoRecord r rec = .ok r') :
    Agrees r'.store (done ++ rec :: rest) ∧ Present r'.store (done ++ [rec]) := by
  obtain ⟨name, rid, tuple, slot, hrow, hadds, htuple⟩ | ⟨tx, name, rid, x, slot, rfl, hadds,
    hx⟩ | ⟨hrow, hstore⟩ := redoRecord_adds h
  · have hrec : rec ∈ done ++ rec :: rest := by simp
    refine ⟨fun r₁ hr₁ n y t hrow₁ => ?_, fun r₁ hr₁ n y t hrow₁ => ?_⟩
    · obtain ⟨hused, hslot⟩ := hagrees r₁ hr₁ n y t hrow₁
      refine ⟨hadds.used _ hused, fun new hnew => ?_⟩
      obtain hold | ⟨-, rfl, rfl⟩ := hadds.eq_or hused hnew
      · exact hslot new hold
      · rw [hfun r₁ hr₁ rec hrec n name y t tuple hrow₁ hrow]
        exact htuple (hinline rec (by simp) name y tuple hrow)
    · obtain hr₁ | rfl := mem_append.mp hr₁ |>.imp_right mem_singleton.mp
      · obtain ⟨old, hold⟩ := hpresent r₁ hr₁ n y t hrow₁
        exact ⟨old, hadds.of_some (hagrees r₁ (by simp [hr₁]) n y t hrow₁).1 hold⟩
      · have hused := (hagrees r₁ hrec n y t hrow₁).1
        obtain rfl : y = rid := by
          have := hrow₁.symm.trans hrow
          simp only [Option.some.injEq, Prod.mk.injEq] at this
          exact this.2.1
        rw [hadds.slotAt y hused]
        cases r.store.slotAt y <;> simp
  · refine ⟨fun r₁ hr₁ n y t hrow₁ => ?_, fun r₁ hr₁ n y t hrow₁ => ?_⟩
    · obtain ⟨hused, hslot⟩ := hagrees r₁ hr₁ n y t hrow₁
      refine ⟨hadds.used _ hused, fun new hnew => ?_⟩
      obtain hold | ⟨hnone, rfl, rfl⟩ := hadds.eq_or hused hnew
      · exact hslot new hold
      · -- The tombstone: it is not in place of a row that is done or is still to be redone.
        exfalso
        obtain hr₁ | hr₁ := mem_append.mp hr₁
        · obtain ⟨old, hold⟩ := hpresent r₁ hr₁ n y t hrow₁
          cases hnone.symm.trans hold
        · obtain rfl | hr₁ := mem_cons.mp hr₁
          · cases hrow₁
          · exact hapart tx name rid rfl y (hx hused) (mem_filterMap.mpr ⟨r₁, hr₁, by rw [hrow₁]; rfl⟩)
    · obtain hr₁ | rfl := mem_append.mp hr₁ |>.imp_right mem_singleton.mp
      · obtain ⟨old, hold⟩ := hpresent r₁ hr₁ n y t hrow₁
        exact ⟨old, hadds.of_some (hagrees r₁ (by simp [hr₁]) n y t hrow₁).1 hold⟩
      · cases hrow₁
  · rw [hstore]
    refine ⟨hagrees, fun r₁ hr₁ n y t hrow₁ => ?_⟩
    obtain hr₁ | rfl := mem_append.mp hr₁ |>.imp_right mem_singleton.mp
    · exact hpresent r₁ hr₁ n y t hrow₁
    · cases hrow.symm.trans hrow₁

theorem tombstoneApart_eq_true {store : DataStore} (h : tombstoneApart store rest rec = true) :
    ∀ tx name rid, rec = .delete tx name rid → ∀ x ∈ nextSlot store name, x ∉ rowIds rest := by
  rintro tx name rid rfl x hx
  simpa [tombstoneApart, Option.mem_def.mp hx] using h

/-- The loop: the rows of the records that are done are there, and no slot is in the way of the
others. -/
theorem redoAll_agrees {r : RedoState} (hagrees : Agrees r.store (done ++ rs))
    (hpresent : Present r.store done) (hfun : Functional (done ++ rs)) (hinline : RowsInline rs)
    (hapart : tombstonesApart r rs = true) (h : redoAll r rs = .ok r') :
    Agrees r'.store (done ++ rs) ∧ Present r'.store (done ++ rs) := by
  induction rs generalizing r done with
  | nil =>
    cases h
    exact ⟨hagrees, by simpa using hpresent⟩
  | cons rec rest ih =>
    obtain ⟨u, hu, h⟩ := redoAll_cons.mp h
    obtain ⟨hrec, hrest⟩ := alongRedo_cons.mp hapart
    obtain ⟨hagrees, hpresent⟩ := redoRecord_agrees hagrees hpresent hfun
      (fun r hr => hinline r (by simp [mem_singleton.mp hr])) (tombstoneApart_eq_true hrec) hu
    have happend : done ++ rec :: rest = (done ++ [rec]) ++ rest := by simp
    rw [happend] at hagrees hfun ⊢
    exact ih hagrees hpresent hfun (fun r hr => hinline r (mem_cons_of_mem _ hr)) (hrest u hu) h

open Writers

variable {s₀ s : State} {ls : List Label} {store store' : DataStore} {redoFrom : ℕ} {r : WalRecord}

theorem mem_records_of_mem_redone (h : r ∈ redone s.log redoFrom) : r ∈ s.records := by
  obtain ⟨e, he, rfl⟩ := mem_map.mp h
  exact mem_append_left _ (mem_map_of_mem (mem_of_mem_filter he))

/-- The tuple of a record's row, in the run. -/
theorem Writers.Inv.inline_of_row (hs : Inv s) (hinline : RowsInline (redone s.log redoFrom))
    (hr : r ∈ redone s.log redoFrom) {name : String} {rid : RowId} {tuple : Bytes}
    (hrow : r.row = some (name, rid, tuple)) :
    s.store.Used rid.pageId ∧ ∃ slot, s.store.slotAt rid = some slot ∧ slot.tuple = .inline tuple := by
  obtain ⟨hused, slot, hslot, htuple⟩ :=
    (hs.kept r (mem_records_of_mem_redone hr)).row name rid tuple hrow
  exact ⟨hused, slot, hslot, htuple (hinline r hr name rid tuple hrow)⟩

theorem functional_redone (hs : Inv s) (hinline : RowsInline (redone s.log redoFrom)) :
    Functional (redone s.log redoFrom) := by
  intro r hr r' hr' name name' rid tuple tuple' hrow hrow'
  obtain ⟨-, slot, hslot, htuple⟩ := hs.inline_of_row hinline hr hrow
  obtain ⟨-, slot', hslot', htuple'⟩ := hs.inline_of_row hinline hr' hrow'
  obtain rfl := Option.mem_unique hslot hslot'
  rw [htuple] at htuple'
  exact TupleRef.inline.inj htuple'

/-- The file agrees with the log: a page image is an older state of the page. -/
theorem agrees_of_crashed (hs : Inv s) (hcrash : Crashed s store)
    (hinline : RowsInline (redone s.log redoFrom)) : Agrees store (redone s.log redoFrom) := by
  intro r hr name rid tuple hrow
  obtain ⟨hused, slot, hslot, htuple⟩ := hs.inline_of_row hinline hr hrow
  refine ⟨hcrash.used hused, fun image himage => ?_⟩
  rw [DataStore.slotAt, hcrash.pages] at himage
  obtain ⟨slot', hslot', htuple'⟩ := hs.sound.older rid.pageId rid.slotId image himage
  cases hslot.symm.trans hslot'
  rw [← htuple', htuple]

theorem redo_restores_rows (hstart : Start s₀) (hrun : run step s₀ ls = some s)
    (hcrash : Crashed s store) (hinline : RowsInline (redone s.log redoFrom))
    (hapart : ∀ r₀, redoStart store = .ok r₀ → tombstonesApart r₀ (redone s.log redoFrom) = true)
    (hrecover : fullRecover store redoFrom s.log = .ok store') :
    Restored store' (redone s.log redoFrom) := by
  intro r hr name rid tuple hrow
  have hs := run_inv hstart hrun
  obtain ⟨r₀, u, hr₀, hu, hmark⟩ := fullRecover_eq_ok hrecover (ne_nil_of_mem hr)
  have hagrees : Agrees r₀.store ([] ++ redone s.log redoFrom) :=
    (redoStart_eq_ok hr₀).1 ▸ agrees_of_crashed hs hcrash hinline
  obtain ⟨hagrees, hpresent⟩ := redoAll_agrees hagrees present_nil (functional_redone hs hinline)
    hinline (hapart r₀ hr₀) hu
  obtain ⟨slot, hslot⟩ := hpresent r hr name rid tuple hrow
  have htuple := (hagrees r hr name rid tuple hrow).2 slot hslot
  obtain ⟨slot', hslot', htuple'⟩ := slotAt_markUncommittedAborted hmark hslot
  exact ⟨slot', hslot', by rw [htuple', htuple]; rfl⟩

/-- The rows are stored in their slots, and the tombstones are apart from them. -/
def meets (s : State) : Bool :=
  ((redone s.log 0).all fun r => r.row.all fun row => Inline row.2.2) &&
    match redoStart s.reopen with
    | .ok r₀ => tombstonesApart r₀ (redone s.log 0)
    | .error _ => true

theorem rowsInline_of_all (h : (rs.all fun r => r.row.all fun row => Inline row.2.2) = true) :
    RowsInline rs := by
  intro r hr name rid tuple hrow
  simpa [hrow] using all_eq_true.mp h r hr

def deletedAndInserted : List Label :=
  inserts 1 ⟨1, 0⟩ (pair 1 1) ++ deletes 2 ⟨1, 0⟩ ++ inserts 3 ⟨1, 2⟩ (pair 2 2)

theorem redo_restores_rows_deleted :
    ∃ s store', run step emptyTable deletedAndInserted = some s ∧
    fullRecover s.reopen 0 s.log = .ok store' ∧
      (redone s.log 0).length = 3 ∧ Restored store' (redone s.log 0) := by
  obtain ⟨s, hrun, hmeets, hlen, store', hrecover, -⟩ : ∃ s,
    run step emptyTable deletedAndInserted = some s ∧
      meets s ∧ (redone s.log 0).length = 3 ∧ ∃ store', fullRecover s.reopen 0 s.log = .ok store' ∧
      True := by
    decide +kernel
  obtain ⟨hinline, hapart⟩ := Bool.and_eq_true_iff.mp hmeets
  exact ⟨s, store', hrun, hrecover, hlen, redo_restores_rows start_emptyTable hrun (crashed_reopen s)
    (rowsInline_of_all hinline) (fun r₀ hr₀ => by simpa [hr₀] using hapart) hrecover⟩

/-- The page is written between the deletion and the insertion. -/
def writtenBetween : List Label :=
  inserts 1 ⟨1, 0⟩ (pair 1 1) ++ deletes 2 ⟨1, 0⟩ ++ [.flush 1] ++ inserts 3 ⟨1, 2⟩ (pair 2 2)

theorem redo_loses_row :
    ∃ s store', Start emptyTable ∧ run step emptyTable writtenBetween = some s ∧ Crashed s s.reopen ∧
      RowsInline (redone s.log 0) ∧ fullRecover s.reopen 0 s.log = .ok store' ∧
      .insert 3 "t" ⟨1, 2⟩ (pair 2 2) ∈ redone s.log 0 ∧
      store'.slotAt ⟨1, 2⟩ = some ⟨2, tombstoneOf 2 ⟨1, 0⟩, .inline []⟩ ∧
      ¬ Restored store' (redone s.log 0) := by
  obtain ⟨s, hrun, hinline, hmem, store', hrecover, hslot⟩ : ∃ s,
    run step emptyTable writtenBetween = some s ∧
      ((redone s.log 0).all fun r => r.row.all fun row => Inline row.2.2) = true ∧
      .insert 3 "t" ⟨1, 2⟩ (pair 2 2) ∈ redone s.log 0 ∧ ∃ store',
      fullRecover s.reopen 0 s.log = .ok store' ∧
        store'.slotAt ⟨1, 2⟩ = some ⟨2, tombstoneOf 2 ⟨1, 0⟩, .inline []⟩ := by decide +kernel
  refine ⟨s, store', start_emptyTable, hrun, crashed_reopen s, rowsInline_of_all hinline, hrecover,
    hmem, hslot, fun hrestored => ?_⟩
  obtain ⟨slot, hslot', hresolve⟩ := hrestored _ hmem "t" ⟨1, 2⟩ (pair 2 2) rfl
  cases hslot.symm.trans hslot'
  exact absurd (Option.some.inj hresolve) (by decide)

end RTsql.Wal

import RTsql.Executor.AlterTable

/-!
# DROP COLUMN is a projection

`ALTER TABLE DROP COLUMN` leaves the committed rows without the column, in the order they had, with
consistent indexes, and how the open transactions end makes no difference, exactly if the catalog
can be changed and no version of an open transaction is the current one of a row
(`drop_column_projects_iff`).

While the rows are rewritten the table has rows of both widths. The proof reads every version as the
row it had before the statement (`Tuple.row`): in these terms a row is deleted and inserted again,
with the same keys. -/

namespace RTsql.Executor.AlterTable

open DropColumn List RTsql.Library RTsql.Storage RTsql.Transaction RTsql.Transaction.History

variable {m : TableMeta} {removed tx : ℕ} {hpk : removed ≠ m.pkIndex} {t t' : Table}
  {H : Heap Tuple} {r : RowId}

/-! ### Heaps with other tuples -/

section Map

universe u v

variable {α : Type u} {β : Type v} {f : α → β} {h : Heap α}

theorem current_map : Current (h.map f) r ↔ Current h r := by
  simp [Current, Replaced]

theorem unbroken_map (hu : Unbroken h) : Unbroken (h.map f) where
  live r v hv := hu.live r v (by simpa using hv)
  down x v r hv hlive hnext := by simpa using hu.down x v r (by simpa using hv) hlive hnext
  unique x y r v w hv hw := hu.unique x y r v w (by simpa using hv) (by simpa using hw)

end Map

theorem map_data_withRows (m : TableMeta) (h : Heap Row) : (withRows m h).map Tuple.data = h := by
  simp [withRows, Heap.map, Function.comp_def]

/-! ### The table while it is rewritten -/

/-- `H` has the versions of the table, each with the row it had before. Read as these rows they are
in step with the indexes. -/
structure Rewriting (m : TableMeta) (removed tx : ℕ) (H : Heap Tuple) (t : Table) : Prop where
  heap : t.heap = H.map Tuple.data
  wf : H.WF
  linked : Unbroken H
  indexed : Indexed m (H.map Tuple.row) t.index (Current H) fun _ _ => False
  /-- What others have written is as wide as the table was. -/
  wide : ∀ r slot, H.slot? r = some slot → slot.header.createTxId ≠ tx →
    slot.tuple.row = m.readRow slot.tuple.data
  /-- What the statement has written is narrow. -/
  narrow : ∀ r slot, H.slot? r = some slot → slot.header.createTxId = tx →
    slot.header.isDeleted = false →
    slot.tuple.row.length = m.columns.length ∧ slot.tuple.data = slot.tuple.row.eraseIdx removed

theorem keyOf_withRows (m : TableMeta) (h : Heap Row) (ix : IndexId) (r : RowId) :
    ((withRows m h).map Tuple.row).keyOf m ix r = h.keyOf m ix r := by
  rw [Heap.keyOf, Heap.keyOf, Heap.rawKey, Heap.rawKey, Heap.slot?_map, withRows, Heap.slot?_map]
  cases h.slot? r with
  | none => rfl
  | some s =>
    simp only [Option.map_some, Option.bind_some]
    rw [TableMeta.readRow_of_length (TableMeta.length_readRow m s.tuple)]

/-- The keys of a version are those of the row it had. -/
theorem rawKey_map_row {slot : Slot Tuple} (hslot : H.slot? r = some slot)
    (hrow : slot.tuple.row.length = m.columns.length) (ix : IndexId) :
    (H.map Tuple.row).rawKey m ix r = m.rawKey slot.tuple.row ix := by
  rw [rawKey_of_slot (by rw [Heap.slot?_map, hslot]; rfl)]
  exact congrArg (m.rawKey · ix) (TableMeta.readRow_of_length hrow)

/-- Before the first row. -/
theorem rewriting_withRows {last : ℕ} (hs : History.Settled m last t) (removed : ℕ) :
    Rewriting m removed (last + 1) (withRows m t.heap) t where
  heap := (map_data_withRows m t.heap).symm
  wf := Heap.wf_map.mpr hs.wf
  linked := unbroken_map hs.linked
  indexed :=
    { nodup := hs.indexed.nodup
      mem := fun ix hix e => by
        rw [hs.indexed.mem ix hix, keyOf_withRows, withRows, current_map]
      sound := hs.indexed.sound }
  wide r slot hslot _ := by
    rw [withRows, Heap.slot?_map] at hslot
    obtain ⟨s, -, rfl⟩ := Option.map_eq_some_iff.mp hslot
    rfl
  narrow r slot hslot htx _ := by
    have hv := Heap.header?_eq_some.mpr ⟨slot, hslot, rfl⟩
    rw [withRows, Heap.header?_map] at hv
    have := hs.bound r _ hv
    omega

/-! ### One row -/

/-- The heap with the tombstone of a row. -/
def withTombstone (tx : ℕ) (rid : RowId) (page : ℕ) (H : Heap Tuple) : Heap Tuple :=
  (H.append page ⟨tombstoneHeader tx, ⟨[], []⟩⟩).setHeader (H.nextRid page) (linkedHeader tx rid)

theorem extends_withTombstone (tx : ℕ) (rid : RowId) (page : ℕ) (H : Heap Tuple) :
    Extends H (withTombstone tx rid page H) (H.nextRid page) ⟨linkedHeader tx rid, ⟨[], []⟩⟩ := by
  refine ⟨H.slot?_nextRid page, fun r => ?_⟩
  rw [withTombstone, Heap.slot?_setHeader, Heap.slot?_append, if_pos rfl, Heap.slot?_append]
  by_cases hr : r = H.nextRid page
  · rw [if_pos hr, if_pos hr, Option.map_some]
  · rw [if_neg hr, if_neg hr, if_neg hr]

theorem extends_append (page : ℕ) (slot : Slot Tuple) (H : Heap Tuple) :
    Extends H (H.append page slot) (H.nextRid page) slot :=
  ⟨H.slot?_nextRid page, H.slot?_append page slot⟩

/-- The narrow version of a row. -/
def narrowSlot (removed tx : ℕ) (row : Row) : Slot Tuple := ⟨.new tx, ⟨row.eraseIdx removed, row⟩⟩

/-- The heap after a row was rewritten; its versions land on the two pages. -/
def rewritten (removed tx : ℕ) (rid : RowId) (row : Row) (page page' : ℕ) (H : Heap Tuple) :
    Heap Tuple :=
  (withTombstone tx rid page H).append page' (narrowSlot removed tx row)

section Row

variable {rid : RowId} {slot : Slot Tuple} {page page' : ℕ}

/-- The versions that are current after a row was rewritten. -/
theorem current_rewritten (hu : Unbroken H) (htx : tx ≠ 0) (hcur : Current H rid) (row : Row)
    (r : RowId) : Current (rewritten removed tx rid row page page' H) r ↔
      (Current H r ∧ rid ≠ r) ∨ (withTombstone tx rid page H).nextRid page' = r := by
  have hx := extends_withTombstone tx rid page H
  have hcur' : ∀ r', (linkedHeader tx rid).nextVersion = some r' → Current H r' := by
    intro r' hr'
    cases hr'
    exact hcur
  have hnew : ∀ r', (narrowSlot removed tx row).header.nextVersion = some r' →
    Current (withTombstone tx rid page H) r' := nofun
  rw [rewritten, (extends_append ..).current (hx.linked hu htx hcur') htx hnew, hx.current hu htx hcur']
  simp [narrowSlot, VersionHeader.new, linkedHeader, VersionHeader.withNextVersion,
    VersionHeader.markDeleted, VersionHeader.isDeleted]

theorem unbroken_rewritten (hu : Unbroken H) (htx : tx ≠ 0) (hcur : Current H rid) (row : Row) :
    Unbroken (rewritten removed tx rid row page page' H) := by
  have hx := extends_withTombstone tx rid page H
  refine (extends_append ..).linked (hx.linked hu htx ?_) htx nofun
  intro r' hr'
  cases hr'
  exact hcur

theorem slot?_nextRid_withTombstone (tx : ℕ) (rid : RowId) (page page' : ℕ) (H : Heap Tuple) :
    H.slot? ((withTombstone tx rid page H).nextRid page') = none ∧
      (withTombstone tx rid page H).nextRid page' ≠ H.nextRid page := by
  have hnone := (withTombstone tx rid page H).slot?_nextRid page'
  rw [(extends_withTombstone ..).slot] at hnone
  split at hnone
  case isTrue => cases hnone
  case isFalse hne => exact ⟨hnone, hne⟩

theorem slot?_rewritten_of_ne {row : Row} (hr : r ≠ H.nextRid page)
    (hr' : r ≠ (withTombstone tx rid page H).nextRid page') :
    (rewritten removed tx rid row page page' H).slot? r = H.slot? r := by
  rw [rewritten, (extends_append ..).slot, if_neg hr', (extends_withTombstone ..).slot, if_neg hr]

theorem slot?_rewritten_new {row : Row} : (rewritten removed tx rid row page page' H).slot?
    ((withTombstone tx rid page H).nextRid page') = some (narrowSlot removed tx row) := by
  rw [rewritten, (extends_append ..).slot, if_pos rfl]

/-- A version is one of the two that were written, or was there. -/
theorem slot?_rewritten_cases {row : Row}
    (h : (rewritten removed tx rid row page page' H).slot? r = some slot) :
    slot = narrowSlot removed tx row ∨ slot = ⟨linkedHeader tx rid, ⟨[], []⟩⟩ ∨
    H.slot? r = some slot := by
  rw [rewritten, (extends_append ..).slot, (extends_withTombstone ..).slot] at h
  split at h
  case isTrue => exact .inl (Option.some.inj h).symm
  case isFalse =>
    split at h
    case isTrue => exact .inr (.inl (Option.some.inj h).symm)
    case isFalse => exact .inr (.inr h)

theorem slot?_rewritten_of_some {row : Row} (hs : H.slot? r ≠ none) :
    (rewritten removed tx rid row page page' H).slot? r = H.slot? r := by
  have hr : r ≠ H.nextRid page := by
    rintro rfl
    exact hs (H.slot?_nextRid page)
  refine slot?_rewritten_of_ne hr ?_
  rintro rfl
  exact hs (slot?_nextRid_withTombstone ..).1

theorem rids_rewritten (hwf : H.WF) (hpage : H.Writable page)
    (hpage' : (withTombstone tx rid page H).Writable page')
    (row : Row) : (rewritten removed tx rid row page page' H).rids =
      H.rids ++ [H.nextRid page, (withTombstone tx rid page H).nextRid page'] := by
  have hwf' : (withTombstone tx rid page H).WF := (hwf.append ..).setHeader ..
  rw [rewritten, Heap.rids_append hwf' hpage', withTombstone, Heap.rids_setHeader,
    Heap.rids_append hwf hpage, append_assoc]
  rfl

/-- The entry of a version in an index is dropped. -/
theorem exists_dropOps (hr : Rewriting m removed tx H t) (hcur : Current H rid)
    (hslot : H.slot? rid = some slot)
    (hrow : slot.tuple.row.length = m.columns.length) {ix : IndexId} (hix : ix ∈ m.indexes) :
    ∃ im, (t.index ix).applyAll (dropOps m rid slot.tuple.row ix) = (im, .ok ()) ∧
      (t.index ix).Moves ix.isUnique im (entryOf (H.map Tuple.row) m ix rid) none := by
  have hkey := rawKey_map_row hslot hrow ix
  have hmem : ∀ b, m.rawKey slot.tuple.row ix = some b → (Key.new b, rid) ∈ (t.index ix).entries := by
    intro b hb
    refine (hr.indexed.mem ix hix _).mpr (.inl ⟨hcur, ?_⟩)
    rw [Heap.keyOf, hkey, hb]
    rfl
  rw [entryOf, Heap.keyOf, hkey, Option.map_map]
  cases ix with
  | pk | unique n => exact IndexManager.exists_delete? (hr.indexed.sound _ hix) (hr.indexed.nodup _ hix) hmem
  | secondary n => exact IndexManager.exists_deleteExact? (hr.indexed.sound _ hix) (hr.indexed.nodup _ hix) hmem

/-- The entry of the narrow version, at a row id that is free, comes when that of the row has
left. -/
theorem exists_insertOps_narrowed (hd : m.Droppable removed) (hr : Rewriting m removed tx H t)
    (hcur : Current H rid)
    (hslot : H.slot? rid = some slot) (hrow : slot.tuple.row.length = m.columns.length) {new : RowId}
    (hnew : H.slot? new = none) {ix : IndexId} (hix : ix ∈ m.indexes) {im : IndexManager}
    (hout : (t.index ix).Moves ix.isUnique im (entryOf (H.map Tuple.row) m ix rid) none)
    (ha : im.Admits ix.isUnique
      (insertOps (m.narrowed removed hd.pk) new (slot.tuple.row.eraseIdx removed) ix)) :
    ∃ im', im.applyAll (insertOps (m.narrowed removed hd.pk) new
      (slot.tuple.row.eraseIdx removed) ix) = (im', .ok ()) ∧
      (t.index ix).Moves ix.isUnique im' (entryOf (H.map Tuple.row) m ix rid)
        ((m.rawKey slot.tuple.row ix).map (·, new)) := by
  rw [insertOps, hd.rawKey_narrowed] at ha ⊢
  obtain ⟨im', him, hins⟩ :=
    IndexManager.exists_insert? hout.sound hout.nodup (m.rawKey slot.tuple.row ix) new (by
    intro b hb r hr' hmem
    obtain ⟨hold, hleft⟩ := ((hout.mem _).mp hmem).resolve_right nofun
    rcases hr' with hu | rfl
    · -- the row itself had the only entry with its key
      have hk : (H.map Tuple.row).keyOf m ix rid = some (Key.new b) := by
        rw [Heap.keyOf, rawKey_map_row hslot hrow, hb]
        rfl
      have hentry := (hr.indexed.mem ix hix (Key.new b, rid)).mpr (.inl ⟨hcur, hk⟩)
      obtain ⟨-, rfl⟩ := Prod.mk.inj (hr.indexed.unique hix hu _ hentry _ hold rfl)
      exact hleft (entryOf_eq_some.mpr ⟨rfl, hk⟩)
    · -- an entry is that of a version that is there
      obtain ⟨hc, -⟩ := ((hr.indexed.mem ix hix _).mp hold).resolve_right id
      exact hc.slot? hnew) ha
  exact ⟨im', him, hout.trans hins⟩

/-- The entry of the row moves to its narrow version. -/
theorem Rewriting.next (hr : Rewriting m removed tx H t) (htx : tx ≠ 0)
    (hcur : Current H rid) (hrow : slot.tuple.row.length = m.columns.length)
    (hheap : t'.heap = (rewritten removed tx rid slot.tuple.row page page' H).map Tuple.data)
    (hmoves : ∀ ix ∈ m.indexes, (t.index ix).Moves ix.isUnique (t'.index ix)
      ((some rid).bind (entryOf (H.map Tuple.row) m ix))
      ((m.rawKey slot.tuple.row ix).map (·, (withTombstone tx rid page H).nextRid page'))) :
    Rewriting m removed tx (rewritten removed tx rid slot.tuple.row page page' H) t' := by
  -- a version that was there is as it was
  have hkept : ∀ r, H.slot? r ≠ none →
    (rewritten removed tx rid slot.tuple.row page page' H).slot? r = H.slot? r :=
    fun r => slot?_rewritten_of_some
  have hkey : ∀ ix, ((rewritten removed tx rid slot.tuple.row page page' H).map Tuple.row).rawKey m ix
      ((withTombstone tx rid page H).nextRid page') = m.rawKey slot.tuple.row ix :=
    fun ix => (rawKey_map_row slot?_rewritten_new hrow ix :)
  have hcur' : ∀ r, Current (rewritten removed tx rid slot.tuple.row page page' H) r ↔
      (Current H r ∧ some rid ≠ some r) ∨
      some ((withTombstone tx rid page H).nextRid page') = some r := by
    intro r
    rw [current_rewritten hr.linked htx hcur]
    simp only [ne_eq, Option.some.injEq]
  refine ⟨hheap, ((hr.wf.append ..).setHeader ..).append ..,
    unbroken_rewritten hr.linked htx hcur _, ?_, ?_, ?_⟩
  · refine hr.indexed.move hmoves ?_ hcur' ?_ fun _ _ _ _ _ _ => not_false
    · intro ix _
      rw [Option.bind_some, entryOf, Heap.keyOf, hkey, Option.map_map, Option.map_map]
      rfl
    · intro ix r hc
      refine keyOf_of_slot ?_
      rw [Heap.slot?_map, Heap.slot?_map, hkept r hc.slot?]
  · intro r sl hsl hne
    obtain rfl | rfl | hsl := slot?_rewritten_cases hsl
    · exact absurd rfl hne
    · exact absurd rfl hne
    · exact hr.wide r sl hsl hne
  · intro r sl hsl heq hlive
    obtain rfl | rfl | hsl := slot?_rewritten_cases hsl
    · exact ⟨hrow, rfl⟩
    · cases hlive
    · exact hr.narrow r sl hsl heq hlive

/-- What the statement leaves of the table that it found. -/
structure Kept (tx : ℕ) (H H' : Heap Tuple) (t t' : Table) : Prop where
  slot : ∀ r, H.slot? r ≠ none → H'.slot? r = H.slot? r
  header : ∀ r v, H'.header? r = some v → v.createTxId = tx ∨ H.header? r = some v
  rowToKey : ∀ r, H.slot? r ≠ none → (t.index .pk).rowToKey r = none → (t'.index .pk).rowToKey r = none

theorem Kept.trans {H' H'' : Heap Tuple} {t'' : Table} (h : Kept tx H H' t t')
    (h' : Kept tx H' H'' t' t'') : Kept tx H H'' t t'' := by
  have hslot : ∀ r, H.slot? r ≠ none → H'.slot? r ≠ none := fun r hr => by rwa [h.slot r hr]
  refine ⟨fun r hr => (h'.slot r (hslot r hr)).trans (h.slot r hr), fun r v hv => ?_,
    fun r hr hkey => ?_⟩
  · exact (h'.header r v hv).elim .inl (h.header r v)
  · exact h'.rowToKey r (hslot r hr) (h.rowToKey r hr hkey)

/-- The tombstone of a row, and its entries. -/
theorem exists_dropRow (hr : Rewriting m removed tx H t) (hcur : Current H rid)
    (hslot : H.slot? rid = some slot) (hrow : slot.tuple.row.length = m.columns.length)
    {p : Option ℕ} {t₁ : Table} {result : Except StorageError Unit}
    (h : dropRow m tx p rid slot.tuple.row t = (t₁, result)) (hok : result = .ok ()) :
    ∃ page, H.Writable page ∧ t₁.heap = (withTombstone tx rid page H).map Tuple.data ∧
      ∀ ix ∈ m.indexes, (t.index ix).Moves ix.isUnique (t₁.index ix)
        (entryOf (H.map Tuple.row) m ix rid) none := by
  subst hok
  unfold dropRow at h
  split at h
  case h_1 => cases h
  case h_2 t₂ tombstone hwrite =>
    unfold write at hwrite
    split at hwrite
    case h_1 => cases hwrite
    case h_2 page =>
      obtain ⟨hpage, hwrite⟩ := Option.ite_none_right_eq_some.mp hwrite
      obtain ⟨rfl, rfl⟩ := Prod.mk.inj (Option.some.inj hwrite)
      rw [hr.heap] at hpage
      have htomb : (t.heap.append page ⟨tombstoneHeader tx, []⟩).setHeader (t.heap.nextRid page)
        (linkedHeader tx rid) =
          (withTombstone tx rid page H).map Tuple.data := by
        rw [withTombstone, Heap.setHeader_map, Heap.append_map, hr.heap, Heap.nextRid_map]
      rw [htomb] at h
      obtain ⟨index₁, hmaintain, hout⟩ := Table.exists_maintain
        ⟨(withTombstone tx rid page H).map Tuple.data, t.index, t.heap.nextRid page :: t.recorded⟩
        (fun ix _ => dropOps m rid slot.tuple.row ix)
        (fun ix im => (t.index ix).Moves ix.isUnique im (entryOf (H.map Tuple.row) m ix rid) none)
        (fun ix hix => exists_dropOps hr hcur hslot hrow hix)
      rw [hmaintain] at h
      obtain ⟨rfl, -⟩ := Prod.mk.inj h
      exact ⟨page, hpage, rfl, hout⟩

/-- **A row is rewritten**, if no error ends the statement. -/
theorem Rewriting.rewriteRow (hd : m.Droppable removed) (hr : Rewriting m removed tx H t) (htx : tx ≠ 0)
    (hcur : Current H rid) (hslot : H.slot? rid = some slot) (hother : slot.header.createTxId ≠ tx)
    {pages : Option ℕ × Option ℕ}
    (ha : RewriteAdmitted m (m.narrowed removed hd.pk) removed tx pages rid t)
    (h : rewriteRow m (m.narrowed removed hd.pk) removed tx pages rid t = (t', .ok ())) :
    ∃ page page', H.Writable page ∧ (withTombstone tx rid page H).Writable page' ∧
      Rewriting m removed tx (rewritten removed tx rid slot.tuple.row page page' H) t' ∧
      Kept tx H (rewritten removed tx rid slot.tuple.row page page' H) t t' := by
  have hrow := hr.wide rid slot hslot hother
  have hlength : slot.tuple.row.length = m.columns.length := by rw [hrow, TableMeta.length_readRow]
  have hdata : t.heap.slot? rid = some ⟨slot.header, slot.tuple.data⟩ := by
    rw [hr.heap, Heap.slot?_map, hslot]
    rfl
  have ha := ha _ hdata
  unfold AlterTable.rewriteRow at h
  rw [hdata] at h
  dsimp only at h ha
  rw [← hrow] at h ha
  split at h
  case h_1 => cases h
  case h_2 t₁ hdrop =>
    obtain ⟨page, hpage, hheap, hout⟩ := exists_dropRow hr hcur hslot hlength hdrop rfl
    rw [hdrop] at ha
    dsimp only at ha
    rw [hheap] at h ha
    split at h
    case h_1 => cases h
    case h_2 page' hpages =>
      have ha := ha page' hpages
      split at h
      case isFalse => cases h
      case isTrue hpage' =>
        -- the narrow tuple
        have hnone := (slot?_nextRid_withTombstone tx rid page page' H).1
        rw [Heap.nextRid_map] at h ha
        obtain ⟨index₂, hmaintain, hin⟩ := Table.exists_maintain
          { t₁ with
            heap := ((withTombstone tx rid page H).map Tuple.data).append page'
              ⟨.new tx, slot.tuple.row.eraseIdx removed⟩ }
          (fun ix _ => insertOps (m.narrowed removed hd.pk) ((withTombstone tx rid page H).nextRid page')
            (slot.tuple.row.eraseIdx removed) ix)
          (fun ix im => (t.index ix).Moves ix.isUnique im (entryOf (H.map Tuple.row) m ix rid)
            ((m.rawKey slot.tuple.row ix).map (·, (withTombstone tx rid page H).nextRid page')))
          (m := m.narrowed removed hd.pk) (fun ix hix =>
            exists_insertOps_narrowed hd hr hcur hslot hlength hnone (hd.indexes_narrowed ▸ hix)
              (hout ix (hd.indexes_narrowed ▸ hix)) (ha ix hix))
        rw [hmaintain] at h
        obtain ⟨rfl, -⟩ := Prod.mk.inj h
        rw [hd.indexes_narrowed] at hin
        refine ⟨page, page', hpage, hpage', hr.next htx hcur hlength ?_ hin,
          fun r => slot?_rewritten_of_some, fun r v hv => ?_, fun r hr' hkey => ?_⟩
        · rw [rewritten, Heap.append_map]
          rfl
        · obtain ⟨sl, hsl, rfl⟩ := Heap.header?_eq_some.mp hv
          obtain rfl | rfl | hsl := slot?_rewritten_cases hsl
          · exact .inl rfl
          · exact .inl rfl
          · exact .inr (Heap.header?_eq_some.mpr ⟨sl, hsl, rfl⟩)
        · refine ((hin .pk m.pk_mem_indexes).other r fun b hb => ?_).elim
            (fun hsame => hsame.trans hkey) And.left
          obtain ⟨b', -, hb'⟩ := Option.map_eq_some_iff.mp hb
          exact hr' ((Prod.mk.inj hb').2 ▸ hnone)

end Row

/-! ### All rows -/

/-- The rows of some versions, as they were before the statement. -/
def rowsOf (H : Heap Tuple) (rids : List RowId) : List Row :=
    rids.filterMap fun r => (H.slot? r).map (·.tuple.row)

theorem rowsOf_congr {H' : Heap Tuple} {rids : List RowId} (h : ∀ r ∈ rids, H'.slot? r = H.slot? r) :
    rowsOf H' rids = rowsOf H rids :=
  filterMap_congr fun r hr => by rw [h r hr]

/-- The first row becomes the last one. -/
theorem liveRows_rewritten (removed : ℕ) {rid : RowId} {rest : List RowId} {page page' : ℕ}
    (hwf : H.WF) (hu : Unbroken H) (htx : tx ≠ 0) (hlive : liveRows H = rid :: rest)
    (hpage : H.Writable page) (hpage' : (withTombstone tx rid page H).Writable page') (row : Row) :
    liveRows (rewritten removed tx rid row page page' H) =
      rest ++ [(withTombstone tx rid page H).nextRid page'] := by
  have hcur : Current H rid := (mem_liveRows hwf).mp (hlive ▸ mem_cons_self)
  have hwf' : (rewritten removed tx rid row page page' H).WF := ((hwf.append ..).setHeader ..).append ..
  obtain ⟨hnone, hne⟩ := slot?_nextRid_withTombstone tx rid page page' H
  -- the versions that were there, and are live
  have hold : H.rids.filter (isLive (rewritten removed tx rid row page page' H)) = rest := by
    have hnd : (rid :: rest).Nodup := hlive ▸ (Heap.nodup_rids hwf).filter _
    have hfilter : (rid :: rest).filter (fun r => decide (rid ≠ r)) = rest := by
      rw [filter_cons_of_neg (by simp), filter_eq_self.mpr]
      intro r hr
      exact decide_eq_true fun hc => (nodup_cons.mp hnd).1 (hc ▸ hr)
    rw [← hfilter, ← hlive, liveRows, filter_filter]
    refine filter_congr fun r hr => ?_
    have hr' : (withTombstone tx rid page H).nextRid page' ≠ r := by
      rintro rfl
      obtain ⟨slot, hslot⟩ := (Heap.mem_rids hwf).mp hr
      cases hnone.symm.trans hslot
    rw [Bool.eq_iff_iff, isLive_eq_true hwf', current_rewritten hu htx hcur, Bool.and_eq_true,
      isLive_eq_true hwf, decide_eq_true_eq, or_iff_left hr', and_comm]
  have htomb : ¬ Current (rewritten removed tx rid row page page' H) (H.nextRid page) := by
    rw [current_rewritten hu htx hcur, not_or]
    exact ⟨fun hc => hc.1.slot? (H.slot?_nextRid page), hne⟩
  have hnew : Current (rewritten removed tx rid row page page' H)
    ((withTombstone tx rid page H).nextRid page') := by
    rw [current_rewritten hu htx hcur]
    exact .inr rfl
  rw [liveRows, rids_rewritten hwf hpage hpage', filter_append, hold,
    filter_cons_of_neg (mt (isLive_eq_true hwf').mp htomb),
    filter_cons_of_pos ((isLive_eq_true hwf').mpr hnew), filter_nil]

/-- A version of the statement. -/
def Owned (tx : ℕ) (H : Heap Tuple) (r : RowId) : Prop :=
    ∃ slot, H.slot? r = some slot ∧ slot.header.createTxId = tx

/-- **All rows are rewritten**, those of `rest` after those of `done`. -/
theorem Rewriting.forEachVersion (hd : m.Droppable removed) (htx : tx ≠ 0)
    {pages : RowId → Option ℕ × Option ℕ}
    {rest done : List RowId} (hr : Rewriting m removed tx H t) (hlive : liveRows H = rest ++ done)
    (hrest : ∀ r ∈ rest, ¬ Owned tx H r) (hdone : ∀ r ∈ done, Owned tx H r)
    (ha : AlongVersions (fun rid =>
      RewriteAdmitted m (m.narrowed removed hd.pk) removed tx (pages rid) rid)
      (fun rid => AlterTable.rewriteRow m (m.narrowed removed hd.pk) removed tx (pages rid) rid) rest t)
    (h : forEachVersion (fun rid => AlterTable.rewriteRow m (m.narrowed removed hd.pk) removed tx
      (pages rid) rid) rest t = (t', .ok ())) :
    ∃ H', Rewriting m removed tx H' t' ∧ (∀ r ∈ liveRows H', Owned tx H' r) ∧
      rowsOf H' (liveRows H') = rowsOf H done ++ rowsOf H rest ∧ Kept tx H H' t t' := by
  induction rest generalizing H t done with
  | nil =>
    obtain ⟨rfl, -⟩ := Prod.mk.inj h
    exact ⟨H, hr, hlive ▸ hdone, by
      rw [hlive]; simp [rowsOf], fun _ _ => rfl, fun _ _ => .inr, fun _ _ => id⟩
  | cons rid rest ih =>
    have hcur : Current H rid := (mem_liveRows hr.wf).mp (hlive ▸ mem_cons_self)
    obtain ⟨slot, hslot⟩ := Option.ne_none_iff_exists'.mp hcur.slot?
    obtain ⟨ha, harest⟩ := ha
    unfold Transaction.forEachVersion at h
    split at h
    case h_1 => cases h
    case h_2 t₁ hrow =>
      dsimp only at harest
      rw [hrow] at harest
      have hother : slot.header.createTxId ≠ tx := fun hc => hrest rid mem_cons_self ⟨slot, hslot, hc⟩
      obtain ⟨page, page', hpage, hpage', hr₁, hk⟩ := hr.rewriteRow hd htx hcur hslot hother ha hrow
      rw [cons_append] at hlive
      have hlive₁ := liveRows_rewritten removed hr.wf hr.linked htx hlive hpage hpage' slot.tuple.row
      rw [append_assoc] at hlive₁
      -- the other live versions are as they were
      have hkept : ∀ r ∈ rest ++ done,
        (rewritten removed tx rid slot.tuple.row page page' H).slot? r = H.slot? r :=
        fun r hmem => hk.slot r ((mem_liveRows hr.wf).mp (hlive ▸ mem_cons_of_mem rid hmem)).slot?
      have hrest₁ : ∀ r ∈ rest, ¬ Owned tx (rewritten removed tx rid slot.tuple.row page page' H) r := by
        rintro r hmem ⟨sl, hsl, hown⟩
        rw [hkept r (mem_append_left done hmem)] at hsl
        exact hrest r (mem_cons_of_mem rid hmem) ⟨sl, hsl, hown⟩
      have hdone₁ : ∀ r ∈ done ++ [(withTombstone tx rid page H).nextRid page'],
          Owned tx (rewritten removed tx rid slot.tuple.row page page' H) r := by
        refine forall_mem_append.mpr
          ⟨fun r hmem => ?_, forall_mem_singleton.mpr ⟨_, slot?_rewritten_new, rfl⟩⟩
        obtain ⟨sl, hsl, hown⟩ := hdone r hmem
        exact ⟨sl, (hkept r (mem_append_right rest hmem)).trans hsl, hown⟩
      obtain ⟨H', hr', howned, hrows, hk'⟩ := ih hr₁ hlive₁ hrest₁ hdone₁ harest h
      refine ⟨H', hr', howned, ?_, hk.trans hk'⟩
      · rw [hrows, rowsOf, filterMap_append, ← rowsOf,
          rowsOf_congr fun r hmem => hkept r (mem_append_right rest hmem),
          rowsOf_congr fun r hmem => hkept r (mem_append_left done hmem)]
        simp [rowsOf, slot?_rewritten_new, hslot, narrowSlot]

/-! ### Committed rows -/

section Committed

variable {s : State} (hwf : s.table.heap.WF)

include hwf

theorem isCommitted_eq_true : isCommitted s.table.heap s.active r = true ↔
    (∃ v, s.table.heap.header? r = some v ∧ v.isDeleted = false ∧ v.createTxId ∉ s.active) ∧
      ∀ x v, s.table.heap.header? x = some v → v.nextVersion = some r → v.createTxId = 0 ∨
      v.createTxId ∈ s.active := by
  rw [isCommitted, Bool.and_eq_true, Option.any_eq_true, Bool.not_eq_true', any_eq_false]
  simp only [Bool.and_eq_true, Bool.not_eq_true', decide_eq_true_eq]
  refine and_congr_right fun _ => ⟨fun h x v hv hnext => ?_, fun h x _ hx => ?_⟩
  · by_contra hno
    rw [not_or] at hno
    exact h x (Heap.mem_rids_of_header hwf hv)
      ((Option.any_eq_true _ _).mpr ⟨v, hv, decide_eq_true ⟨hno.1, hno.2, hnext⟩⟩)
  · obtain ⟨v, hv, hlinks⟩ := (Option.any_eq_true _ _).mp hx
    obtain ⟨hcreate, hactive, hnext⟩ := of_decide_eq_true hlinks
    exact (h x v hv hnext).elim hcreate hactive

/-- What an open transaction has replaced is not committed. So a committed version is current. -/
theorem current_of_isCommitted (hi : s.Inside) (hc : isCommitted s.table.heap s.active r = true) :
    Current s.table.heap r := by
  obtain ⟨⟨v, hv, hdel, hactive⟩, hno⟩ := (isCommitted_eq_true hwf).mp hc
  refine ⟨⟨v, hv, hdel⟩, ?_⟩
  rintro ⟨x, w, hw, hcreate, hnext⟩
  have hx := (hno x w hw hnext).resolve_left hcreate
  obtain ⟨v', hv', htx⟩ := (Heap.mem_versionsCreatedBy hwf).mp
    (hi _ hx x ((Heap.mem_versionsCreatedBy hwf).mpr ⟨w, hw, rfl⟩) w hw r hnext)
  cases hv.symm.trans hv'
  exact hactive (htx ▸ hx)

/-- A current version that is not an open transaction's is committed. -/
theorem isCommitted_of_current {v : VersionHeader} (hc : Current s.table.heap r)
    (hv : s.table.heap.header? r = some v)
    (hactive : v.createTxId ∉ s.active) : isCommitted s.table.heap s.active r = true := by
  obtain ⟨⟨w, hw, hdel⟩, hrep⟩ := hc
  cases hv.symm.trans hw
  refine (isCommitted_eq_true hwf).mpr ⟨⟨v, hv, hdel, hactive⟩, fun x u hu hnext => .inl ?_⟩
  by_contra hcreate
  exact hrep ⟨x, u, hu, hcreate, hnext⟩

/-- The rows of the current versions. -/
def liveTuples (m : TableMeta) (h : Heap Row) : List Row :=
  (liveRows h).filterMap fun r => (h.slot? r).map fun slot => m.readRow slot.tuple

/-- No version of an open transaction is current: the rows are those of the current versions. -/
theorem committedRows_eq (hi : s.Inside) (hq : s.Quiet) :
    s.committedRows m = liveTuples m s.table.heap := by
  refine congrArg _ (filter_congr fun r _ => ?_)
  rw [Bool.eq_iff_iff, isLive_eq_true hwf]
  refine ⟨current_of_isCommitted hwf hi, fun hc => ?_⟩
  obtain ⟨⟨v, hv, -⟩, -⟩ := id hc
  refine isCommitted_of_current hwf hc hv fun htx => ?_
  have hlive := hq _ htx r ((Heap.mem_versionsCreatedBy hwf).mpr ⟨v, hv, rfl⟩)
  rw [(isLive_eq_true hwf).mpr hc] at hlive
  cases hlive

/-- If there are as many rows as current versions, none of them is an open transaction's. -/
theorem quiet_of_length (hi : s.Inside)
    (h : (s.committedRows m).length = (liveTuples m s.table.heap).length) : s.Quiet := by
  -- every version has a row
  have hlength : ∀ p : RowId → Bool, ((s.table.heap.rids.filter p).filterMap fun r =>
      (s.table.heap.slot? r).map fun slot =>
        m.readRow slot.tuple).length = (s.table.heap.rids.filter p).length := by
    intro p
    refine filterMap_length_eq_length.mpr fun r hr => ?_
    obtain ⟨slot, hslot⟩ := (Heap.mem_rids hwf).mp (mem_filter.mp hr).1
    rw [hslot]
    rfl
  rw [State.committedRows, hlength, liveTuples, liveRows, hlength] at h
  have hcommitted : s.table.heap.rids.filter (isCommitted s.table.heap s.active) =
      (liveRows s.table.heap).filter (isCommitted s.table.heap s.active) := by
    rw [liveRows, filter_filter]
    refine filter_congr fun r _ => ?_
    rw [Bool.eq_iff_iff, Bool.and_eq_true, isLive_eq_true hwf]
    exact ⟨fun hc => ⟨hc, current_of_isCommitted hwf hi hc⟩, And.left⟩
  rw [hcommitted, ← liveRows, length_filter_eq_length_iff] at h
  intro tx htx r hr
  by_contra hlive
  rw [Bool.not_eq_false] at hlive
  obtain ⟨v, hv, rfl⟩ := (Heap.mem_versionsCreatedBy hwf).mp hr
  have hmem : r ∈ liveRows s.table.heap := mem_filter.mpr ⟨Heap.mem_rids_of_header hwf hv, hlive⟩
  obtain ⟨⟨w, hw, -, hactive⟩, -⟩ := (isCommitted_eq_true hwf).mp (h r hmem)
  cases hv.symm.trans hw
  exact hactive htx

end Committed

theorem liveRows_withRows (m : TableMeta) {h : Heap Row} (hwf : h.WF) :
    liveRows (withRows m h) = liveRows h := by
  rw [liveRows, withRows, Heap.rids_map]
  refine filter_congr fun r _ => ?_
  rw [Bool.eq_iff_iff, isLive_eq_true (Heap.wf_map.mpr hwf), isLive_eq_true hwf, current_map]

theorem rowsOf_withRows (m : TableMeta) (h : Heap Row) (rids : List RowId) :
    rowsOf (withRows m h) rids = rids.filterMap fun r => (h.slot? r).map fun slot =>
    m.readRow slot.tuple := by
  refine filterMap_congr fun r _ => ?_
  rw [withRows, Heap.slot?_map, Option.map_map]
  rfl

theorem rids_commitMarkVersions (tx : ℕ) (rids : List RowId) (h : Heap Row) :
    (commitMarkVersions tx rids h).rids = h.rids := by
  induction rids generalizing h with
  | nil => rfl
  | cons r rids ih =>
    rw [commitMarkVersions, foldl_cons, ← commitMarkVersions, ih]
    split
    case h_1 => exact h.rids_setHeader ..
    case h_2 => rfl

/-! ### After the commit -/

section Commit

variable {heap : Heap Row} {slot : Slot Tuple}

/-- All live versions are narrow, and the heap has other commit marks. -/
structure Narrowed (m : TableMeta) (removed : ℕ) (H : Heap Tuple) (heap : Heap Row) : Prop where
  wf : H.WF
  wf' : heap.WF
  links : SameLinks (H.map Tuple.data) heap
  rids : heap.rids = H.rids
  narrow : ∀ r slot, Current H r → H.slot? r = some slot →
    slot.tuple.row.length = m.columns.length ∧ slot.tuple.data = slot.tuple.row.eraseIdx removed

theorem Narrowed.current_iff (hn : Narrowed m removed H heap) : Current heap r ↔ Current H r :=
  ⟨fun hc => current_map.mp (hn.links.symm.current hc), fun hc => hn.links.current (current_map.mpr hc)⟩

/-- The tuple of a live version. -/
theorem Narrowed.tuple (hn : Narrowed m removed H heap) (hslot : H.slot? r = some slot) :
    (heap.slot? r).map Slot.tuple = some slot.tuple.data := by
  have hlinks := congrArg (Option.map Prod.fst) (hn.links r)
  rwa [Option.map_map, Heap.slot?_map, hslot] at hlinks

section

variable (hd : m.Droppable removed) (hn : Narrowed m removed H heap)

include hd hn

theorem Narrowed.readRow (hc : Current H r) (hslot : H.slot? r = some slot) :
    (heap.slot? r).map (fun s => (m.narrowed removed hd.pk).readRow s.tuple) =
      some (slot.tuple.row.eraseIdx removed) := by
  obtain ⟨hlength, hdata⟩ := hn.narrow r slot hc hslot
  have htuple := hn.tuple hslot
  rw [show (fun s : Slot Row => (m.narrowed removed hd.pk).readRow s.tuple) =
    (m.narrowed removed hd.pk).readRow ∘ Slot.tuple from rfl, ← Option.map_map, htuple,
    Option.map_some, hdata, TableMeta.readRow_narrowed hd.lt hlength]

/-- The rows are those of the statement's beginning, without the column. -/
theorem Narrowed.rows :
    (liveRows heap).filterMap
      (fun r => (heap.slot? r).map fun slot => (m.narrowed removed hd.pk).readRow slot.tuple) =
      (rowsOf H (liveRows H)).map (·.eraseIdx removed) := by
  have hlive : liveRows heap = liveRows H := by
    rw [liveRows, hn.rids]
    refine filter_congr fun r _ => ?_
    rw [Bool.eq_iff_iff, isLive_eq_true hn.wf', isLive_eq_true hn.wf, hn.current_iff]
  rw [hlive, rowsOf, map_filterMap]
  refine filterMap_congr fun r hr => ?_
  have hc := (mem_liveRows hn.wf).mp hr
  obtain ⟨slot, hslot⟩ := Option.ne_none_iff_exists'.mp hc.slot?
  rw [hn.readRow hd hc hslot, hslot]
  rfl

theorem Narrowed.keyOf (hc : Current H r)
    (ix : IndexId) : heap.keyOf (m.narrowed removed hd.pk) ix r = (H.map Tuple.row).keyOf m ix r := by
  obtain ⟨slot, hslot⟩ := Option.ne_none_iff_exists'.mp hc.slot?
  obtain ⟨s, hs, hread⟩ := Option.map_eq_some_iff.mp (hn.readRow hd hc hslot)
  rw [Heap.keyOf, rawKey_of_slot hs, hread, hd.rawKey_narrowed, Heap.keyOf,
    rawKey_map_row hslot (hn.narrow r slot hc hslot).1]

/-- **The indexes** hold the entries of the live rows. -/
theorem Narrowed.consistent {index : IndexId → IndexManager} {recorded : List RowId}
    (hi : Indexed m (H.map Tuple.row) index (Current H) fun _ _ => False) :
    Consistent (m.narrowed removed hd.pk) ⟨heap, index, recorded⟩ := by
  refine ⟨?_, ?_, ?_⟩
  · rw [hd.indexes_narrowed]
    intro ix hix k r
    rw [hi.mem ix hix, or_false, hn.current_iff]
    exact and_congr_right fun hc => by rw [hn.keyOf hd hc]
  · rw [hd.indexes_narrowed]
    exact hi.nodup
  · rw [hd.indexes_narrowed]
    intro ix hix hu k r r' hr hr'
    exact (Prod.mk.inj (hi.unique hix hu _ hr _ hr' rfl)).2

end

end Commit

/-! ### The statement -/

theorem position_of_checkDrop {table column : String} {r : { removed // m.Droppable removed }}
    (h : checkDrop m table column = .ok r) : m.position column = some r.1 := by
  unfold checkDrop at h
  split at h
  case h_1 => cases h
  case h_2 removed hpos =>
    repeat' split at h
    all_goals cases h
    exact hpos

section Statement

variable {s s' : State} {table column : String} {pages : RowId → Option ℕ × Option ℕ}
  {m' : TableMeta} {catalog : Bool}

/-- The versions are linked and deleted in the same way. -/
def Linked (v w : VersionHeader) : Prop :=
  v.createTxId = w.createTxId ∧ v.nextVersion = w.nextVersion ∧ v.isDeleted = w.isDeleted

/-- What the statement leaves: narrow rows in step with the indexes, with the rows that were
there. -/
structure Altered (m : TableMeta) (removed : ℕ) (s s' : State) (H : Heap Tuple) : Prop where
  narrowed : Narrowed m removed H s'.table.heap
  indexed : Indexed m (H.map Tuple.row) s'.table.index (Current H) fun _ _ => False
  rows : rowsOf H (liveRows H) = liveTuples m s.table.heap
  /-- What is current is the statement's. -/
  owned : ∀ r, Current s'.table.heap r → Own s'.table.heap (s.lastTx + 1) r
  /-- Every version is the statement's, or was there. -/
  headers : ∀ r v, s'.table.heap.header? r = some v → v.createTxId = s.lastTx + 1 ∨
    ∃ w, s.table.heap.header? r = some w ∧ Linked v w
  kept : ∀ r w, s.table.heap.header? r = some w → ∃ v, s'.table.heap.header? r = some v ∧ Linked v w
  rowToKey : ∀ r, s.table.heap.slot? r ≠ none → (s.table.index .pk).rowToKey r = none →
    (s'.table.index .pk).rowToKey r = none
  versions : s'.versions = s.versions
  active : s'.active = s.active
  lastTx : s'.lastTx = s.lastTx + 1

theorem altered_of_forEachVersion (hd : m.Droppable removed) (hs : History.Settled m s.lastTx s.table)
    (hpos : m.position column = some removed) (ha : AlterAdmitted m column (s.lastTx + 1) pages s.table)
    (h : forEachVersion (fun rid => rewriteRow m (m.narrowed removed hd.pk) removed (s.lastTx + 1)
      (pages rid) rid) (liveRows s.table.heap) s.table = (t, .ok ())) (narrowing : Bool) :
    ∃ H, Altered m removed s
      { s with
        table := { t with heap := commitMarkVersions (s.lastTx + 1) t.recorded t.heap, recorded := [] }
        lastTx := s.lastTx + 1
        narrowing } H := by
  have hlive : liveRows (withRows m s.table.heap) = liveRows s.table.heap ++ [] := by
    rw [liveRows_withRows m hs.wf, append_nil]
  have hrest : ∀ r ∈ liveRows s.table.heap, ¬ Owned (s.lastTx + 1) (withRows m s.table.heap) r := by
    rintro r - ⟨slot, hslot, hown⟩
    have hv := Heap.header?_eq_some.mpr ⟨slot, hslot, rfl⟩
    rw [withRows, Heap.header?_map] at hv
    have := hs.bound r _ hv
    omega
  obtain ⟨H, hr, howned, hrows, hk⟩ :=
    (rewriting_withRows hs removed).forEachVersion hd (Nat.succ_ne_zero _) hlive hrest nofun
      (ha removed hpos hd.pk) h
  have hlinks : SameLinks (H.map Tuple.data) (commitMarkVersions (s.lastTx + 1) t.recorded t.heap) := by
    rw [← hr.heap]
    exact sameLinks_commitMarkVersions _ _ _
  have hwf : t.heap.WF := hr.heap ▸ Heap.wf_map.mpr hr.wf
  have hwith : ∀ r, (withRows m s.table.heap).slot? r ≠ none ↔ s.table.heap.slot? r ≠ none := by
    simp [withRows, Heap.slot?_map]
  refine ⟨H, ⟨hr.wf, commitMarkVersions_keeps (fun _ _ _ h => h.setHeader _ _) _ _ hwf, hlinks, ?_,
    fun r slot hc hslot => ?_⟩,
    hr.indexed, ?_, fun r hc => ?_, fun r v hv => ?_, fun r w hw => ?_,
    fun r hslot => hk.rowToKey r ((hwith r).mpr hslot), rfl, rfl, rfl⟩
  · rw [rids_commitMarkVersions, hr.heap, Heap.rids_map]
  · obtain ⟨slot', hslot', hown⟩ := howned r ((mem_liveRows hr.wf).mpr hc)
    cases hslot.symm.trans hslot'
    obtain ⟨⟨v, hv, hdel⟩, -⟩ := hc
    cases (Heap.header?_eq_some.mpr ⟨slot, hslot, rfl⟩).symm.trans hv
    exact hr.narrow r slot hslot hown hdel
  · rw [hrows, rowsOf_withRows, rowsOf_withRows]
    rfl
  · have hc := current_map.mp (hlinks.symm.current hc)
    obtain ⟨slot, hslot, hown⟩ := howned r ((mem_liveRows hr.wf).mpr hc)
    obtain ⟨v, hv, hcreate, -⟩ := hlinks.header (v := slot.header) (r := r) (by
      rw [Heap.header?_map]
      exact Heap.header?_eq_some.mpr ⟨slot, hslot, rfl⟩)
    exact ⟨v, hv, hcreate.trans hown⟩
  · obtain ⟨w, hw, hcreate, hnext, hdel⟩ := hlinks.symm.header hv
    rw [Heap.header?_map] at hw
    rcases hk.header r w hw with hown | hold
    · exact .inl (hcreate.symm.trans hown)
    · exact .inr ⟨w, by simpa [withRows] using hold, hcreate.symm, hnext.symm, hdel.symm⟩
  · have hslot : (withRows m s.table.heap).slot? r ≠ none := (hwith r).mpr (slot?_ne_none_of_header hw)
    have hold : (H.map Tuple.data).header? r = some w := by
      rw [Heap.header?_map, Heap.header?, hk.slot r hslot, ← Heap.header?, withRows,
        Heap.header?_map, hw]
    exact hlinks.header hold

/-- A statement that succeeds. -/
theorem altered_of_alter (hs : History.Settled m s.lastTx s.table)
    (ha : AlterAdmitted m column (s.lastTx + 1) pages s.table)
    (halter : s.alter m table column pages catalog = (s', .ok m')) :
    ∃ removed, ∃ hd : m.Droppable removed, ∃ H, m.position column = some removed ∧ s.narrowing = false ∧
      s'.narrowing = !catalog ∧ m' = (if catalog then m.narrowed removed hd.pk else m) ∧
      Altered m removed s s' H := by
  unfold State.alter at halter
  dsimp only at halter
  split at halter
  case h_2 => cases (Prod.mk.inj halter).2
  case h_1 t₁ m₁ halter₁ =>
    unfold alterDropColumn at halter₁
    split at halter₁
    case h_1 => cases (Prod.mk.inj halter₁).2
    case h_2 removed hd hcheck =>
      split at halter₁
      case isTrue => cases (Prod.mk.inj halter₁).2
      case isFalse hflight =>
        dsimp only at halter₁
        split at halter₁
        case h_1 => cases (Prod.mk.inj halter₁).2
        case h_2 t₂ hrewrite =>
          obtain ⟨rfl, hm⟩ := Prod.mk.inj halter₁
          obtain rfl := Except.ok.inj hm
          have hpos := position_of_checkDrop hcheck
          obtain ⟨H, haltered⟩ := altered_of_forEachVersion hd hs hpos ha hrewrite !catalog
          refine ⟨removed, hd, H, hpos, Bool.eq_false_iff.mpr hflight, ?_⟩
          cases catalog <;>
          · obtain ⟨rfl, hm⟩ := Prod.mk.inj halter
            exact ⟨rfl, (Except.ok.inj hm).symm, haltered⟩

section Altered

variable (ha : Altered m removed s s' H) (hwf : s.table.heap.WF)

include ha hwf

/-- An open transaction has the versions that it had. -/
theorem Altered.mem_versionsCreatedBy (hle : tx ≤ s.lastTx) :
    r ∈ s'.table.heap.versionsCreatedBy tx ↔ r ∈ s.table.heap.versionsCreatedBy tx := by
  rw [Heap.mem_versionsCreatedBy ha.narrowed.wf', Heap.mem_versionsCreatedBy hwf]
  constructor
  · rintro ⟨v, hv, rfl⟩
    rcases ha.headers r v hv with hown | ⟨w, hw, hlink⟩
    · omega
    · exact ⟨w, hw, hlink.1.symm⟩
  · rintro ⟨w, hw, rfl⟩
    obtain ⟨v, hv, hlink⟩ := ha.kept r w hw
    exact ⟨v, hv, hlink.1⟩

theorem Altered.inside (ho : s.Orderly) : s'.Inside := by
  intro tx htx x hx v hv r hr
  rw [ha.active] at htx
  have hmem := fun {r : RowId} => ha.mem_versionsCreatedBy hwf (r := r) (ho.begun tx htx).2
  have hx := hmem.mp hx
  obtain ⟨w, hw, -⟩ := (Heap.mem_versionsCreatedBy hwf).mp hx
  obtain ⟨v', hv', hlink⟩ := ha.kept x w hw
  cases hv.symm.trans hv'
  exact hmem.mpr (ho.inside tx htx x hx w hw r (hlink.2.1 ▸ hr))

omit hwf

/-- None of them is current. -/
theorem Altered.quiet (ho : s.Orderly) : s'.Quiet := by
  intro tx htx r hr
  rw [ha.active] at htx
  by_contra hlive
  have hc := (isLive_eq_true ha.narrowed.wf').mp (Bool.not_eq_false _ ▸ hlive)
  obtain ⟨v, hv, hown⟩ := ha.owned r hc
  obtain ⟨w, hw, rfl⟩ := (Heap.mem_versionsCreatedBy ha.narrowed.wf').mp hr
  cases hv.symm.trans hw
  have := (ho.begun _ htx).2
  omega

include hwf

theorem Altered.orderly (ho : s.Orderly)
    (hkey : ∀ tx ∈ s.active, ∀ r ∈ s.table.heap.versionsCreatedBy tx,
      (s.table.index .pk).rowToKey r = none) :
    s'.Orderly := by
  refine ⟨fun tx htx => ?_, fun tx htx r hr => ?_, ha.inside hwf ho, fun tx htx r hr _ => ?_⟩ <;>
    rw [ha.active] at htx
  · rw [ha.lastTx]
    exact ⟨(ho.begun tx htx).1, Nat.le_succ_of_le (ho.begun tx htx).2⟩
  all_goals have hmem := fun {r : RowId} => ha.mem_versionsCreatedBy hwf (r := r) (ho.begun tx htx).2
  · rw [ha.versions] at hr
    exact hmem.mpr (ho.recorded tx htx r hr)
  · have hr := hmem.mp hr
    obtain ⟨w, hw, -⟩ := (Heap.mem_versionsCreatedBy hwf).mp hr
    exact ha.rowToKey r (slot?_ne_none_of_header hw) (hkey tx htx r hr)

end Altered

end Statement

/-! ### The open transactions end -/

section Finish

variable {s s₁ s' : State} {m' : TableMeta} {h h' : Heap Row}

/-- The versions of the transaction `tx` are as they were, or aborted, and the same versions are
current. -/
structure Leaves (tx : ℕ) (h h' : Heap Row) : Prop where
  wf : h'.WF
  rids : h'.rids = h.rids
  tuple : ∀ r, (h'.slot? r).map Slot.tuple = (h.slot? r).map Slot.tuple
  header : ∀ r v, h'.header? r = some v → v.createTxId = 0 ∨ ∃ w, h.header? r = some w ∧ Linked v w
  kept : ∀ r w, h.header? r = some w → w.createTxId ≠ tx → ∃ v, h'.header? r = some v ∧ Linked v w
  current : ∀ r, Current h' r ↔ Current h r

theorem leaves_commit (tx : ℕ) (hwf : h.WF) (rids : List RowId) :
    Leaves tx h (commitMarkVersions tx rids h) := by
  have hl := sameLinks_commitMarkVersions tx rids h
  refine ⟨commitMarkVersions_keeps (fun _ _ _ h => h.setHeader _ _) _ _ hwf,
    rids_commitMarkVersions .., fun r => ?_,
    fun r v hv => ?_, fun r w hw _ => hl.header hw, fun r => ⟨hl.symm.current, hl.current⟩⟩
  · have htuple := congrArg (Option.map Prod.fst) (hl r)
    rwa [Option.map_map, Option.map_map] at htuple
  · obtain ⟨w, hw, hcreate, hnext, hdel⟩ := hl.symm.header hv
    exact .inr ⟨w, hw, hcreate.symm, hnext.symm, hdel.symm⟩

/-- Some versions are marked as aborted. -/
structure Aborts (order : List RowId) (h h' : Heap Row) : Prop where
  wf : h'.WF
  rids : h'.rids = h.rids
  slot : ∀ r, h'.slot? r = (h.slot? r).map fun s =>
    if r ∈ order then { s with header := s.header.markAborted } else s

theorem Aborts.header (ha : Aborts order h h') (r : RowId) :
    h'.header? r = (h.header? r).map fun v => if r ∈ order then v.markAborted else v := by
  rw [Heap.header?, ha.slot, Heap.header?, Option.map_map, Option.map_map]
  refine Option.map_congr fun s _ => ?_
  simp only [Function.comp_apply]
  split <;> rfl

/-- The versions of a transaction are aborted, all of them; none was current, and what they have
replaced is among them. -/
theorem Aborts.leaves (ha : Aborts order h h') (hown : ∀ r, r ∈ order ↔ Own h tx r)
    (hnext : ∀ x v r, h.header? x = some v → v.createTxId = tx → v.nextVersion = some r → Own h tx r)
    (hquiet : ∀ r, Own h tx r → ¬ Current h r) : Leaves tx h h' := by
  have hsame : ∀ r, r ∉ order → h'.header? r = h.header? r := fun r hr => by simp [ha.header, hr]
  -- a version that is not aborted is not one of these
  have hnot : ∀ r v, h'.header? r = some v → v.createTxId ≠ 0 ∨ v.isDeleted = false → r ∉ order := by
    intro r v hv hlive hr
    rw [ha.header] at hv
    obtain ⟨w, -, rfl⟩ := Option.map_eq_some_iff.mp hv
    rw [if_pos hr] at hlive
    exact hlive.elim (fun hc => hc rfl) nofun
  refine ⟨ha.wf, ha.rids, fun r => ?_, fun r v hv => ?_, fun r w hw htx => ?_, fun r => ⟨?_, ?_⟩⟩
  · rw [ha.slot, Option.map_map]
    refine Option.map_congr fun s _ => ?_
    simp only [Function.comp_apply]
    split <;> rfl
  · by_cases hcreate : v.createTxId = 0
    · exact .inl hcreate
    · exact .inr ⟨v, (hsame r (hnot r v hv (.inl hcreate))).symm.trans hv, rfl, rfl, rfl⟩
  · refine ⟨w, (hsame r fun hr => htx ?_).trans hw, rfl, rfl, rfl⟩
    exact ((hown r).mp hr).createTxId_eq hw
  · rintro ⟨⟨v, hv, hdel⟩, hrep⟩
    have hr := hnot r v hv (.inr hdel)
    refine ⟨⟨v, (hsame r hr).symm.trans hv, hdel⟩, ?_⟩
    rintro ⟨x, w, hw, hcreate, hlink⟩
    by_cases hx : x ∈ order
    · exact hr ((hown r).mpr (hnext x w r hw (((hown x).mp hx).createTxId_eq hw) hlink))
    · exact hrep ⟨x, w, (hsame x hx).trans hw, hcreate, hlink⟩
  · intro hc
    have hr : r ∉ order := fun hr => hquiet r ((hown r).mp hr) hc
    obtain ⟨⟨v, hv, hdel⟩, hrep⟩ := hc
    refine ⟨⟨v, (hsame r hr).trans hv, hdel⟩, ?_⟩
    rintro ⟨x, w, hw, hcreate, hlink⟩
    exact hrep ⟨x, w, (hsame x (hnot x w hw (.inl hcreate))).symm.trans hw, hcreate, hlink⟩

/-- Below a version of the transaction there are only others of it, or versions that are deleted. -/
def Below (tx : ℕ) (h : Heap Row) (next : Option RowId) : Prop :=
  ∀ r ∈ next, ∀ w ∈ h.header? r, w.createTxId = tx ∨ w.isDeleted = true

theorem restoreTarget_eq_none
    (hbelow : ∀ x v, h.header? x = some v → v.createTxId = tx → Below tx h v.nextVersion)
    (n : ℕ) {next : Option RowId} (hnext : Below tx h next) : restoreTarget h tx n next = none := by
  induction n generalizing next with
  | zero => rfl
  | succ n ih =>
    cases next with
    | none => rfl
    | some r =>
      rw [restoreTarget]
      cases hv : h.header? r with
      | none => rfl
      | some v =>
        dsimp only
        split
        case isTrue htx => exact ih (hbelow r v hv htx)
        case isFalse htx => rw [if_pos ((hnext r rfl v hv).resolve_left htx)]

/-- **A rollback** of a transaction that has replaced and deleted only what it has written: its
versions are aborted, and no entry is put back. -/
theorem exists_undoTombstones (m : TableMeta) (htx : tx ≠ 0) {order : List RowId}
    (hnd : order.Nodup) (hwf : t.heap.WF) (hown : ∀ r ∈ order, Own t.heap tx r)
    (hbelow : ∀ x v, t.heap.header? x = some v → v.createTxId = tx → Below tx t.heap v.nextVersion) :
    ∃ h', forEachVersion (undoTombstone m tx) order t = ({ t with heap := h' }, .ok ()) ∧
    Aborts order t.heap h' := by
  induction order generalizing t with
  | nil => exact ⟨t.heap, rfl, hwf, rfl, fun r => by simp⟩
  | cons rid rest ih =>
    obtain ⟨hrid, hnd⟩ := nodup_cons.mp hnd
    obtain ⟨v, hv, hcreate⟩ := hown rid mem_cons_self
    have hset := t.heap.header?_setHeader hv v.markAborted
    have hundo : undoTombstone m tx rid t =
      ({ t with heap := t.heap.setHeader rid v.markAborted }, .ok ()) := by
      rw [undoTombstone, hv]
      dsimp only
      rw [restoreTombstoneIndexEntries, restoreTarget_eq_none hbelow _ (hbelow rid v hv hcreate)]
    obtain ⟨h', hrest, ha⟩ :=
      ih (t := { t with heap := t.heap.setHeader rid v.markAborted }) hnd (hwf.setHeader ..)
      (fun r hr => by
        obtain ⟨w, hw, hw'⟩ := hown r (mem_cons_of_mem _ hr)
        have hne : r ≠ rid := fun hc => hrid (hc ▸ hr)
        exact ⟨w, by rw [hset, if_neg hne, hw], hw'⟩)
      (fun x w hw hw' r hr u hu => by
        dsimp only at hw hu
        rw [hset] at hw hu
        split at hw
        case isTrue =>
          rw [← Option.some.inj hw] at hw'
          exact absurd hw'.symm htx
        case isFalse =>
          split at hu
          case isTrue => exact .inr (Option.some.inj hu ▸ rfl)
          case isFalse => exact hbelow x w hw hw' r hr u hu)
    refine ⟨h', by rw [forEachVersion, hundo]; exact hrest, ha.wf,
      ha.rids.trans (t.heap.rids_setHeader ..), fun r => ?_⟩
    rw [ha.slot, Heap.slot?_setHeader]
    by_cases hr : r = rid
    · rw [if_pos hr, hr, Option.map_map]
      refine Option.map_congr fun s hs => ?_
      obtain rfl : s.header = v :=
        Option.some.inj ((Heap.header?_eq_some.mpr ⟨s, hs, rfl⟩).symm.trans hv)
      simp [hrid]
    · rw [if_neg hr]
      simp [hr]

/-- The transaction that ends. -/
def End.who : End → ℕ
  | .commit tx => tx
  | .rollback tx _ => tx

/-- The transaction is open, and its versions are visited. -/
def End.Allowed (s : State) : End → Prop
  | .commit tx => tx ∈ s.active
  | .rollback tx order => tx ∈ s.active ∧ order.Nodup ∧ order ⊆ s.toUndo tx ∧ s.toUndo tx ⊆ order

/-- A transaction has ended. -/
structure Finished (tx : ℕ) (s s₁ : State) : Prop where
  leaves : Leaves tx s.table.heap s₁.table.heap
  index : s₁.table.index = s.table.index
  versions : s₁.versions = Function.update s.versions tx []
  active : s₁.active = s.active.filter (· ≠ tx)
  lastTx : s₁.lastTx = s.lastTx
  narrowing : s₁.narrowing = s.narrowing

theorem allowed_of_finish {e : End} (h : s.finish m e = some s₁) : e.Allowed s := by
  cases e with
  | commit tx => exact (Option.ite_none_right_eq_some.mp h).1
  | rollback tx order => exact (Option.ite_none_right_eq_some.mp h).1

section Quiet

variable (hwf : s.table.heap.WF) (ho : s.Orderly) (hq : s.Quiet)

include hwf ho hq

/-- **A transaction ends**, and the same versions are current. -/
theorem exists_finish (m : TableMeta) {e : End} (h : e.Allowed s) : ∃ s₁, s.finish m e = some s₁ ∧
    Finished e.who s s₁ := by
  have hmem {tx : ℕ} {r : RowId} : r ∈ s.table.heap.versionsCreatedBy tx ↔ Own s.table.heap tx r :=
    Heap.mem_versionsCreatedBy hwf
  cases e with
  | commit tx => exact ⟨_, if_pos h, leaves_commit tx hwf _, rfl, rfl, rfl, rfl, rfl⟩
  | rollback tx order =>
    obtain ⟨htx, hnd, hsub, hsup⟩ := id h
    have hown : ∀ r ∈ order, Own s.table.heap tx r := by
      intro r hr
      have hr := hsub hr
      rw [State.toUndo] at hr
      split at hr
      case isTrue => cases hr
      case isFalse => exact hmem.mp ((mem_append.mp hr).elim (ho.recorded tx htx r) id)
    have hnext : ∀ x v r, s.table.heap.header? x = some v → v.createTxId = tx → v.nextVersion = some r →
        Own s.table.heap tx r :=
      fun x v r hv hcreate hr => hmem.mp (ho.inside tx htx x (hmem.mpr ⟨v, hv, hcreate⟩) v hv r hr)
    have hkey : ∀ r ∈ order, indexed s.table r = false := by
      intro r hr
      have hr := hmem.mpr (hown r hr)
      rw [indexed, IndexManager.findKeyByRowId, ho.forgotten tx htx r hr (hq tx htx r hr)]
      rfl
    obtain ⟨h', hundo, ha⟩ :=
      exists_undoTombstones m (ho.begun tx htx).1 hnd hwf hown fun x v hv hcreate r hr w hw =>
      .inl ((hnext x v r hv hcreate hr).createTxId_eq hw)
    have habort : abortTable m tx order s.table = ({ s.table with heap := h' }, .ok ()) := by
      rw [abortTable, filter_eq_nil_iff.mpr fun r hr => by
        simp [hkey r hr], filter_eq_self.mpr fun r hr => by simp [hkey r hr]]
      exact hundo
    refine ⟨{ s with table := { s.table with heap := h' }, versions := Function.update s.versions tx []
                     active := s.active.filter (· ≠ tx) }, (if_pos h).trans (by rw [habort]), ?_,
                       rfl, rfl, rfl, rfl, rfl⟩
    by_cases hrec : (s.versions tx).isEmpty
    · -- nothing is recorded, and nothing is visited
      rw [State.toUndo, if_pos hrec] at hsub
      obtain rfl := eq_nil_of_subset_nil hsub
      obtain rfl : s.table.heap = h' := (congrArg (Table.heap ∘ Prod.fst) hundo :)
      exact leaves_commit tx hwf []
    · refine ha.leaves (fun r => ⟨hown r, fun hr => hsup ?_⟩) hnext fun r hr hc => ?_
      · rw [State.toUndo, if_neg hrec]
        exact mem_append_right _ (hmem.mpr hr)
      · have hlive := hq tx htx r (hmem.mpr hr)
        rw [(isLive_eq_true hwf).mpr hc] at hlive
        cases hlive

omit hq

/-- The others have the versions that they had. -/
theorem Finished.mem_versionsCreatedBy (hf : Finished tx s s₁) {y : ℕ} (hy : y ∈ s₁.active) :
    r ∈ s₁.table.heap.versionsCreatedBy y ↔ r ∈ s.table.heap.versionsCreatedBy y := by
  rw [hf.active, mem_filter, decide_eq_true_eq] at hy
  rw [Heap.mem_versionsCreatedBy hf.leaves.wf, Heap.mem_versionsCreatedBy hwf]
  constructor
  · rintro ⟨v, hv, rfl⟩
    obtain ⟨w, hw, hlink⟩ := (hf.leaves.header r v hv).resolve_left (ho.begun _ hy.1).1
    exact ⟨w, hw, hlink.1.symm⟩
  · rintro ⟨w, hw, rfl⟩
    obtain ⟨v, hv, hlink⟩ := hf.leaves.kept r w hw hy.2
    exact ⟨v, hv, hlink.1⟩

include hq

theorem Finished.quiet (hf : Finished tx s s₁) : s₁.Orderly ∧ s₁.Quiet ∧
    s₁.committedRows m = s.committedRows m := by
  have hmem := fun {y : ℕ} {r : RowId} => hf.mem_versionsCreatedBy hwf ho (y := y) (r := r)
  have hactive : ∀ y ∈ s₁.active, y ∈ s.active ∧ y ≠ tx := by
    intro y hy
    rwa [hf.active, mem_filter, decide_eq_true_eq] at hy
  have hlive : ∀ r, isLive s₁.table.heap r = isLive s.table.heap r := by
    intro r
    rw [Bool.eq_iff_iff, isLive_eq_true hf.leaves.wf, isLive_eq_true hwf, hf.leaves.current]
  have ho₁ : s₁.Orderly := by
    refine ⟨fun y hy => ?_, fun y hy r hr => ?_, fun y hy x hx v hv r hr => ?_,
      fun y hy r hr hdead => ?_⟩
    · rw [hf.lastTx]
      exact ho.begun y (hactive y hy).1
    · rw [hf.versions, Function.update_of_ne (hactive y hy).2] at hr
      exact (hmem hy).mpr (ho.recorded y (hactive y hy).1 r hr)
    · obtain ⟨w, hw, hcreate⟩ := (Heap.mem_versionsCreatedBy hwf).mp ((hmem hy).mp hx)
      obtain ⟨v', hv', hlink⟩ := hf.leaves.kept x w hw (hcreate ▸ (hactive y hy).2)
      cases hv.symm.trans hv'
      exact (hmem hy).mpr (ho.inside y (hactive y hy).1 x ((hmem hy).mp hx) w hw r (hlink.2.1 ▸ hr))
    · rw [hf.index]
      exact ho.forgotten y (hactive y hy).1 r ((hmem hy).mp hr) ((hlive r).symm.trans hdead)
  have hq₁ : s₁.Quiet := fun y hy r hr => (hlive r).trans (hq y (hactive y hy).1 r ((hmem hy).mp hr))
  refine ⟨ho₁, hq₁, ?_⟩
  rw [committedRows_eq hf.leaves.wf ho₁.inside hq₁, committedRows_eq hwf ho.inside hq, liveTuples,
    liveTuples, liveRows, liveRows, hf.leaves.rids, filter_congr fun r _ => hlive r]
  refine filterMap_congr fun r _ => ?_
  have htuple := congrArg (Option.map m.readRow) (hf.leaves.tuple r)
  rwa [Option.map_map, Option.map_map] at htuple

end Quiet

/-- The same transactions are open, and have written the same versions. -/
structure Alike (s s' : State) : Prop where
  active : s'.active = s.active
  versions : s'.versions = s.versions
  created : ∀ tx ∈ s.active, ∀ r, r ∈ s'.table.heap.versionsCreatedBy tx ↔
    r ∈ s.table.heap.versionsCreatedBy tx

theorem Alike.mem_toUndo (ha : Alike s s') (htx : tx ∈ s.active) : r ∈ s'.toUndo tx ↔
    r ∈ s.toUndo tx := by
  rw [State.toUndo, State.toUndo, ha.versions]
  split
  case isTrue => rfl
  case isFalse => rw [mem_append, mem_append, ha.created tx htx]

theorem Alike.allowed (ha : Alike s s') {e : End} (h : e.Allowed s) : e.Allowed s' := by
  cases e with
  | commit tx => exact Eq.mpr (congrArg (tx ∈ ·) ha.active) h
  | rollback tx order =>
    obtain ⟨htx, hnd, hsub, hsup⟩ := h
    exact ⟨ha.active ▸ htx, hnd, fun r hr => (ha.mem_toUndo htx).mpr (hsub hr), fun r hr =>
      hsup ((ha.mem_toUndo htx).mp hr)⟩

/-- Open transactions end in the same way on two tables on which none of their versions is current,
and change nothing. -/
theorem exists_finishAll {ends : List End} (hwf : s.table.heap.WF) (ho : s.Orderly) (hq : s.Quiet)
    (hwf' : s'.table.heap.WF)
    (ho' : s'.Orderly) (hq' : s'.Quiet) (ha : Alike s s') (h : s.finishAll m ends = some s₁) :
    ∃ s₂, s'.finishAll m' ends = some s₂ ∧ s₂.narrowing = s'.narrowing ∧
    s₁.committedRows m = s.committedRows m ∧
      s₂.committedRows m' = s'.committedRows m' := by
  induction ends generalizing s s' with
  | nil =>
    cases h
    exact ⟨s', rfl, rfl, rfl, rfl⟩
  | cons e ends ih =>
    obtain ⟨u, hfinish, h⟩ := Option.bind_eq_some_iff.mp h
    have hallowed := allowed_of_finish hfinish
    obtain ⟨u₀, hu₀, hf⟩ := exists_finish hwf ho hq m hallowed
    cases hu₀.symm.trans hfinish
    obtain ⟨u', hu', hf'⟩ := exists_finish hwf' ho' hq' m' (ha.allowed hallowed)
    obtain ⟨ho₁, hq₁, hrows⟩ := hf.quiet hwf ho hq (m := m)
    obtain ⟨ho₁', hq₁', hrows'⟩ := hf'.quiet hwf' ho' hq' (m := m')
    have hactive : u'.active = u.active := by rw [hf'.active, hf.active, ha.active]
    have ha₁ : Alike u u' := by
      refine ⟨hactive, by rw [hf'.versions, hf.versions, ha.versions], fun y hy r => ?_⟩
      rw [hf'.mem_versionsCreatedBy hwf' ho' (hactive ▸ hy), hf.mem_versionsCreatedBy hwf ho hy]
      rw [hf.active] at hy
      exact ha.created y (mem_filter.mp hy).1 r
    obtain ⟨s₂, hs₂, hnarrow, hr₁, hr₂⟩ := ih hf.leaves.wf ho₁ hq₁ hf'.leaves.wf ho₁' hq₁' ha₁ h
    exact ⟨s₂, Option.bind_eq_some_iff.mpr ⟨u', hu', hs₂⟩, hnarrow.trans hf'.narrowing,
      hr₁.trans hrows, hr₂.trans hrows'⟩

end Finish

/-! ### The projection -/

/-- The rows after the statement are those of the versions that were current, without the column. -/
theorem Altered.committedRows {s s' : State} (hd : m.Droppable removed) (ha : Altered m removed s s' H)
    (hi : s'.Inside) (hq : s'.Quiet) :
    s'.committedRows (m.narrowed removed hd.pk) = (liveTuples m s.table.heap).map
      (·.eraseIdx removed) := by
  rw [committedRows_eq ha.narrowed.wf' hi hq, liveTuples, ha.narrowed.rows hd, ha.rows]

/-- The state in which the transaction that runs is open. -/
def openState (u : History.State) : State :=
  ⟨{ u.table with recorded := [] }, fun tx => if u.running = some tx then u.table.recorded else [],
    u.running.toList, u.lastTx, false⟩

theorem settled_openState {dense : Prop} {u : History.State} (hinv : History.Inv m dense u) :
    History.Settled m (openState u).lastTx (openState u).table := by
  cases hinv with
  | idle hs => exact { hs with recorded := rfl }
  | running hs _ hi => exact hs.running hi

/-- A row is inserted and committed. The next transaction inserts another one, and deletes it. -/
def rowInsertedAndDeleted : List History.Event :=
  [.begin, .row (.insert (some 0) [.int 2, .int 30, .int 40]), .commit, .begin,
    .row (.insert (some 0) [.int 1, .int 10, .int 20]), .row (.delete (some 0) (toBeBytes 1))]

/-- Transaction 1 has inserted a row, and is open. -/
def oneRowOpen : State :=
  openState ⟨(insertRow noDates threeColumns 1 (some 0)
    [.int 1, .int 10, .int 20] History.newTable).1, 1, some 1⟩

end RTsql.Executor.AlterTable

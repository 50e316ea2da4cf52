import RTsql.Storage.DataPage
import RTsql.Wal.Record
import Mathlib.Data.List.Sort
import Mathlib.Data.Prod.Lex
import Mathlib.Order.Basic

/-!
# Redo

`RecoveryManager::full_recover` on the data pages: the versions on disk are collected by key
(`build_pk_version_maps`), the data records of committed transactions from the checkpoint site on
are redone in the order of the log (`redo_record`), the tails that redo has moved are written back
(`persist_replayed_tails`), and the versions of transactions without an end are marked aborted
(`mark_uncommitted_aborted`).

An Insert or Update record is redone at its recorded row id, and a row id that is taken counts as
done. A Delete record writes a new tombstone at the tail. An Update record does not name the version
it replaces; redo derives it as the greatest row id below its own among the versions of the old key.

What is left out: the rebuild of the indexes at the end, which reads the data pages and does not
change them, and the column narrowings published at the beginning. Pages are read as they were
written: the errors for a page whose bytes are corrupt do not arise. A walk along a chain of pages
that does not end is a recovery that does not return; here it is the error `endless`. -/

namespace RTsql.Storage

/-- Row ids are ordered by page and slot. -/
instance : LinearOrder RowId :=
  LinearOrder.lift' (fun r => toLex (r.pageId, r.slotId)) fun a b h => by
    obtain ⟨p, i⟩ := a
    obtain ⟨q, j⟩ := b
    have h := toLex.injective h
    simp only [Prod.mk.injEq] at h
    simp [h.1, h.2]

end RTsql.Storage

namespace RTsql.Wal

open Option RTsql.Library RTsql.Storage RTsql.Transaction DataStore

/-- The table, the row id and the tuple that an Insert or Update record puts there. -/
def WalRecord.row : WalRecord → Option (String × RowId × Bytes)
  | .insert _ name rid tuple => some (name, rid, tuple)
  | .update _ name rid _ newTuple => some (name, rid, newTuple)
  | _ => none

/-- Why recovery fails. -/
inductive RedoError where
  /-- The table of a record is not in the catalog. -/
  | tableNotFound (name : String)
  /-- The pages of the table form a cycle. -/
  | endless (name : String)
  /-- The overflow chain of a row is not complete. -/
  | assembly (name : String) (rid : RowId)
  /-- `add_slot failed`. -/
  | pageFull (rid : RowId)
  /-- `old key has no version before row … on disk`. -/
  | noVersionBefore (name : String) (rid : RowId)
  /-- `derived slot … read failed`. -/
  | derivedSlot (name : String) (rid : RowId)
  /-- `derived slot … tuple mismatch with WAL old_tuple`. -/
  | tupleMismatch (name : String) (rid : RowId)
  /-- The version header of the deleted row cannot be read, or its tombstone cannot be written. -/
  | tombstone (name : String) (rid : RowId)
  deriving DecidableEq

/-- `PrescanSlotKey`: the key of a version, or its whole tuple if it has none. -/
inductive PrescanSlotKey where
  | keyed (key : Bytes)
  | keyless (tuple : Bytes)
  deriving DecidableEq

/-- The bucket of a tuple. -/
def slotKey (t : DataTable) (tuple : Bytes) : PrescanSlotKey :=
  match t.extractPkKey tuple with
  | some key => .keyed key
  | none => .keyless tuple

/-- The pages, and `RedoContext`. -/
structure RedoState where
  store : DataStore
  /-- `table_last_page`. -/
  tableLastPage : String → Option ℕ
  /-- `pk_versions`, in ascending order. -/
  pkVersions : String → PrescanSlotKey → List RowId

/-! ### Collecting the versions -/

/-- The pages from `p` on, following `next_page_id`; `none` if there are more than `n`. -/
def chainFrom (pages : ℕ → DataPage) : ℕ → ℕ → Option (List ℕ)
  | 0, _ => none
  | n + 1, p =>
    if (pages p).nextPageId = 0 then some [p]
    else (chainFrom pages n (pages p).nextPageId).map (p :: ·)

def getTable (s : DataStore) (name : String) : Except RedoError DataTable :=
  match s.tables name with
  | some t => .ok t
  | none => .error (.tableNotFound name)

/-- The data pages of a table. -/
def dataPages (s : DataStore) (name : String) (t : DataTable) : Except RedoError (List ℕ) :=
  match chainFrom s.pages s.fileLen t.dataPageHead with
  | some ps => .ok ps
  | none => .error (.endless name)

/-- The slots of some pages, in order. -/
def slotsOf (s : DataStore) (ps : List ℕ) : List (RowId × DataSlot) :=
  ps.flatMap fun p => (s.pages p).slots.map fun slot => (⟨p, slot.logicalId⟩, slot)

/-- The bucket a slot goes to. -/
def prescanSlot (s : DataStore) (name : String) (t : DataTable) (e : RowId × DataSlot) :
    Except RedoError (PrescanSlotKey × RowId) :=
  match s.resolve e.2.tuple with
  | some tuple => .ok (slotKey t tuple, e.1)
  | none => .error (.assembly name e.1)

/-- The buckets of one table. -/
def prescanTable (s : DataStore) (name : String) : Except RedoError (PrescanSlotKey → List RowId) := do
  let t ← getTable s name
  let ps ← dataPages s name t
  let entries ← (slotsOf s ps).mapM (prescanSlot s name t)
  return fun key => ((entries.filter (·.1 = key)).map Prod.snd).insertionSort (· ≤ ·)

/-- `build_pk_version_maps`. -/
def buildPkVersionMaps (s : DataStore) : Except RedoError (String → PrescanSlotKey → List RowId) :=
  s.scanTables.foldlM (fun maps name =>
    do return Function.update maps name (← prescanTable s name)) fun _ _ => []

/-! ### One record -/

/-- `derive_old_row_id`. -/
def deriveOldRowId (s : DataStore) (name : String) (candidates : List RowId) (rid : RowId)
    (oldTuple : Bytes) : Except RedoError RowId :=
  match (candidates.takeWhile (· < rid)).getLast? with
  | none => .error (.noVersionBefore name rid)
  | some old =>
    match s.slotAt old with
    | none => .error (.derivedSlot name old)
    | some slot =>
      match s.resolve slot.tuple with
      | none => .error (.assembly name old)
      | some tuple => if tuple = oldTuple then .ok old else .error (.tupleMismatch name old)

/-- The first half of `redo_tuple_at_row_id`: the slot is written unless its logical id is taken. -/
def placeTuple (s : DataStore) (rid : RowId) (header : VersionHeader) (tuple : Bytes) :
    Except RedoError DataStore :=
  if (s.slotAt rid).isSome then .ok s
  else
    let (ref, s) := s.storeTuple tuple
    match (s.pages rid.pageId).addSlotWithLogicalId header ref rid.slotId with
    | some page => .ok (s.setPage rid.pageId page)
    | none => .error (.pageFull rid)

/-- `prev.next` is set if the page is another than the last one. -/
def linkPage (s : DataStore) (last : Option ℕ) (p : ℕ) : DataStore :=
  match last with
  | some prev => if prev = p then s else s.setNext prev p
  | none => s

/-- `redo_tuple_at_row_id`. -/
def redoTupleAtRowId (r : RedoState) (name : String) (t : DataTable) (rid : RowId)
    (header : VersionHeader) (tuple : Bytes) : Except RedoError RedoState := do
  let s ← placeTuple r.store rid header tuple
  return { r with
    store := (linkPage s (r.tableLastPage name) rid.pageId).setTail name t rid.pageId
    tableLastPage := Function.update r.tableLastPage name (some rid.pageId) }

/-- `insert_row_id_sorted`, into the bucket of a tuple. -/
def RedoState.addVersion (r : RedoState) (name : String) (t : DataTable) (tuple : Bytes)
    (rid : RowId) : RedoState :=
  { r with
    pkVersions := Function.update r.pkVersions name
      (Function.update (r.pkVersions name) (slotKey t tuple)
        ((r.pkVersions name (slotKey t tuple)).orderedInsert (· ≤ ·) rid)) }

/-- The tombstone of a redone deletion. -/
def tombstoneOf (tx : ℕ) (rid : RowId) : VersionHeader :=
    ((VersionHeader.new tx).withNextVersion rid).markDeleted

/-- The Delete arm of `redo_record`. -/
def redoDelete (s : DataStore) (name : String) (t : DataTable) (tx : ℕ) (rid : RowId) :
    Except RedoError DataStore :=
  match s.slotAt rid with
  | none => .ok s
  | some slot =>
    match s.resolve slot.tuple, s.writeTuple name t (tombstoneOf tx rid) [] with
    | some _, some (s', _) => .ok s'
    | _, _ => .error (.tombstone name rid)

/-- `redo_record`. -/
def redoRecord (r : RedoState) : WalRecord → Except RedoError RedoState
  | .insert tx name rid tuple => do
    let t ← getTable r.store name
    let r ← redoTupleAtRowId r name t rid ((VersionHeader.new tx).commit tx) tuple
    return r.addVersion name t tuple rid
  | .update tx name rid oldTuple newTuple => do
    let t ← getTable r.store name
    let old ← deriveOldRowId r.store name (r.pkVersions name (slotKey t oldTuple)) rid oldTuple
    let r ← redoTupleAtRowId r name t rid
      (((VersionHeader.new tx).commit tx).withNextVersion old) newTuple
    return r.addVersion name t newTuple rid
  | .delete tx name rid => do
    let t ← getTable r.store name
    return { r with store := ← redoDelete r.store name t tx rid }
  | _ => .ok r

/-! ### Recovery -/

/-- The log: every record with its LSN. -/
abbrev Log := List (ℕ × WalRecord)

def committed (log : Log) (tx : ℕ) : Bool := log.any fun e => e.2.commits tx

def aborted (log : Log) (tx : ℕ) : Bool :=
  log.any fun e =>
    match e.2 with
    | .abort t | .abortTxn t => t = tx
    | _ => false

/-- `uncommitted_tx_ids`. -/
def uncommittedTxIds (log : Log) : List ℕ :=
  log.filterMap fun e =>
    match e.2 with
    | .beginTxn tx => if committed log tx || aborted log tx then none else some tx
    | _ => none

/-- The records that are redone. -/
def redone (log : Log) (redoFrom : ℕ) : List WalRecord :=
  (log.filter fun e => e.2.isData && committed log e.2.txId && decide (redoFrom ≤ e.1)).map Prod.snd

/-- `persist_replayed_tails`. -/
def persistReplayedTails (s : DataStore) : DataStore :=
  { s with tables := fun name =>
      if name ∈ s.scanTables then (s.tables name).map fun t => { t with catalogTail := t.dataPageTail }
      else s.tables name }

/-- The fix of `mark_uncommitted_aborted` to a slot. -/
def markSlot (ids : List ℕ) (slot : DataSlot) : DataSlot :=
  if slot.header.createTxId ∈ ids ∧ (slot.header.commitTxId = none ∨ slot.header.isDeleted) then
    { slot with header := slot.header.markAborted }
  else slot

def markPages (ids : List ℕ) (s : DataStore) (ps : List ℕ) : DataStore :=
  { s with pages := fun p =>
      if p ∈ ps then { s.pages p with slots := (s.pages p).slots.map (markSlot ids) } else s.pages p }

def markTable (ids : List ℕ) (s : DataStore) (name : String) : Except RedoError DataStore := do
  let t ← getTable s name
  let ps ← dataPages s name t
  return markPages ids s ps

/-- `mark_uncommitted_aborted`. -/
def markUncommittedAborted (ids : List ℕ) (s : DataStore) : Except RedoError DataStore :=
  if ids = [] then .ok s else s.scanTables.foldlM (markTable ids) s

/-- The state in which redo begins. -/
def redoStart (s : DataStore) : Except RedoError RedoState := do
  return ⟨s, fun _ => none, ← buildPkVersionMaps s⟩

/-- The loop over the records. -/
def redoAll (r : RedoState) (rs : List WalRecord) : Except RedoError RedoState := rs.foldlM redoRecord r

/-- `full_recover`, as far as the data pages go. -/
def fullRecover (s : DataStore) (redoFrom : ℕ) (log : Log) : Except RedoError DataStore :=
  if redone log redoFrom = [] then markUncommittedAborted (uncommittedTxIds log) s
  else do
    let r ← redoStart s
    let r ← redoAll r (redone log redoFrom)
    markUncommittedAborted (uncommittedTxIds log) (persistReplayedTails r.store)

/-! ### What one record does to the slots -/

/-- The row id that the next slot on the tail page of a table gets. -/
def nextSlot (s : DataStore) (name : String) : Option RowId :=
  (s.tables name).map fun t => ⟨t.dataPageTail, (s.pages t.dataPageTail).nextLogicalId⟩

/-- At most one slot is added to the pages in use, at a row id that had none. -/
structure Adds (s s' : DataStore) (rid : RowId) (slot : DataSlot) : Prop where
  slotAt : ∀ x : RowId, s.Used x.pageId →
    s'.slotAt x = (s.slotAt x).or (if x = rid then some slot else none)
  used : ∀ p, s.Used p → s'.Used p

variable {s s' s'' : DataStore} {rid x : RowId} {slot old new : DataSlot} {header : VersionHeader}
  {tuple : Bytes} {name : String} {t : DataTable} {r r' : RedoState} {rec : WalRecord}
  {rs before after : List WalRecord} {p : ℕ}

theorem Adds.of_some (h : Adds s s' rid slot) (hx : s.Used x.pageId) (hold : s.slotAt x = some old) :
    s'.slotAt x = some old := by
  rw [h.slotAt x hx, hold, some_or]

/-- A slot was there, or it is the one that was added. -/
theorem Adds.eq_or (h : Adds s s' rid slot) (hx : s.Used x.pageId) (hnew : s'.slotAt x = some new) :
    s.slotAt x = some new ∨ s.slotAt x = none ∧ x = rid ∧ new = slot := by
  rw [h.slotAt x hx] at hnew
  cases hold : s.slotAt x with
  | some old => exact .inl (by rwa [hold] at hnew)
  | none =>
    rw [hold] at hnew
    obtain ⟨hx, hslot⟩ := ite_none_right_eq_some.mp hnew
    exact .inr ⟨rfl, hx, (Option.some.inj hslot).symm⟩

theorem Adds.congr (h : Adds s s' rid slot) (hslotAt : ∀ x, s''.slotAt x = s'.slotAt x)
    (hused : ∀ p, s'.Used p → s''.Used p) : Adds s s'' rid slot :=
  ⟨fun x hx => (hslotAt x).trans (h.slotAt x hx), fun p hp => hused p (h.used p hp)⟩

theorem slotAt_setNext (p next : ℕ) : (s.setNext p next).slotAt x = s.slotAt x := by
  simp only [slotAt, DataPage.getSlot, slots_setNext]

theorem slotAt_linkPage (last : Option ℕ) (p : ℕ) : (linkPage s last p).slotAt x = s.slotAt x := by
  unfold linkPage
  split
  · split
    · rfl
    · exact slotAt_setNext _ _
  · rfl

theorem used_linkPage {last : Option ℕ} {q : ℕ} (h : s.Used q) : (linkPage s last p).Used q := by
  unfold linkPage
  split
  · split <;> exact h
  · exact h

theorem placeTuple_adds (h : placeTuple s rid header tuple = .ok s') :
    ∃ slot, Adds s s' rid slot ∧ (Inline tuple → slot.tuple = .inline tuple) := by
  have hkeeps := keeps_storeTuple s tuple
  have hinline : Inline tuple → (s.storeTuple tuple).1 = .inline tuple := fun h => by
    rw [storeTuple_of_inline h]
  unfold placeTuple at h
  split at h
  case isTrue hsome =>
    cases h
    refine ⟨⟨rid.slotId, header, .inline tuple⟩, ⟨fun x _ => ?_, fun _ h => h⟩, fun _ => rfl⟩
    obtain ⟨old, hold⟩ := isSome_iff_exists.mp hsome
    split
    case isTrue hx => rw [hx, hold, some_or]
    case isFalse => rw [or_none]
  case isFalse hnone =>
    dsimp only at h hkeeps hinline
    split at h
    case h_1 page hadd =>
      cases h
      obtain ⟨⟨page', id⟩, hinner, rfl⟩ := map_eq_some_iff.mp hadd
      obtain rfl : id = rid.slotId := (DataPage.addSlotInner_eq_some hinner).1
      have hplaced := hkeeps.placed hinner
      exact ⟨_, ⟨fun x hx => hplaced.slotAt hx, hplaced.used⟩, hinline⟩
    case h_2 => cases h

/-- Placing a row changes no pointer between pages in use, and no table. -/
structure KeepsChains (s s' : DataStore) : Prop where
  tables : s'.tables = s.tables
  scanTables : s'.scanTables = s.scanTables
  fileLen : s.fileLen ≤ s'.fileLen
  freePages : s.freePages = [] → s'.freePages = []
  next : ∀ p, s.Used p → (s'.pages p).nextPageId = (s.pages p).nextPageId

theorem KeepsChains.of_keeps {id : ℕ} {page : DataPage} {ref : TupleRef} {forced : Option ℕ}
    (h : s.Keeps s') (hadd : (s'.pages p).addSlotInner header ref forced = some (page, id)) :
    KeepsChains s (s'.setPage p page) := by
  refine ⟨h.tables, h.scanTables, h.fileLen, h.freePages, fun q hq => ?_⟩
  obtain rfl | hqp := eq_or_ne q p
  · rw [pages_setPage_self, (DataPage.addSlotInner_eq_some hadd).2.2.2, h.pages q hq]
  · rw [pages_setPage_of_ne hqp, h.pages q hq]

theorem placeTuple_keeps (h : placeTuple s rid header tuple = .ok s') : KeepsChains s s' := by
  have hkeeps := keeps_storeTuple s tuple
  unfold placeTuple at h
  split at h
  · cases h
    exact ⟨rfl, rfl, le_rfl, id, fun _ _ => rfl⟩
  · dsimp only at h
    split at h
    case h_1 page hadd =>
      cases h
      obtain ⟨⟨page', id⟩, hinner, rfl⟩ := map_eq_some_iff.mp hadd
      exact .of_keeps hkeeps hinner
    case h_2 => cases h

theorem tables_linkPage (s : DataStore) (last : Option ℕ) (p : ℕ) :
    (linkPage s last p).tables = s.tables := by
  unfold linkPage
  split
  · split <;> rfl
  · rfl

theorem redoTuple_adds (h : redoTupleAtRowId r name t rid header tuple = .ok r') :
    ∃ slot, Adds r.store r'.store rid slot ∧ (Inline tuple → slot.tuple = .inline tuple) := by
  obtain ⟨s, hplace, ⟨⟩⟩ := bind_eq_ok.mp h
  obtain ⟨slot, hadds, hinline⟩ := placeTuple_adds hplace
  exact ⟨slot, hadds.congr (fun x => slotAt_linkPage (s := s) (x := x) _ _) fun p hp =>
    used_linkPage hp, hinline⟩

/-- A redone deletion adds a tombstone with the next logical id of the tail page, if it adds one to
a page in use. -/
theorem redoDelete_adds {tx : ℕ} (h : redoDelete s name t tx rid = .ok s') :
    s' = s ∨ ∃ rid' slot, Adds s s' rid' slot ∧
      (s.Used rid'.pageId → rid' = ⟨t.dataPageTail, (s.pages t.dataPageTail).nextLogicalId⟩) := by
  unfold redoDelete at h
  split at h
  case h_1 => exact .inl (Except.ok.inj h).symm
  case h_2 slot hslot =>
    split at h
    case h_1 hwrite =>
      cases h
      obtain ⟨ref, hplaced, -, htail | hnew⟩ := writeTuple_placed hwrite
      · refine .inr ⟨_, _, ⟨fun x hx => hplaced.slotAt hx, hplaced.used⟩, fun hused => ?_⟩
        rename_i rid' _
        obtain ⟨p, i⟩ := rid'
        obtain ⟨rfl, -, hid⟩ := htail
        rw [show i = _ from hid hused]
      · exact .inr ⟨_, _, ⟨fun x hx => hplaced.slotAt hx, hplaced.used⟩, fun hused =>
          absurd hused hnew.1⟩
    case h_2 => cases h

theorem getTable_eq_ok (h : getTable s name = .ok t) : s.tables name = some t := by
  unfold getTable at h
  split at h
  case h_1 u hu => rw [hu, Except.ok.inj h]
  case h_2 => cases h

/-- A record with a row adds the row at its row id, a deletion adds a tombstone at the next slot of
the tail page. -/
theorem redoRecord_adds (h : redoRecord r rec = .ok r') :
    (∃ name rid tuple slot, rec.row = some (name, rid, tuple) ∧ Adds r.store r'.store rid slot ∧
        (Inline tuple → slot.tuple = .inline tuple)) ∨
      (∃ tx name rid x slot, rec = .delete tx name rid ∧ Adds r.store r'.store x slot ∧
        (r.store.Used x.pageId → nextSlot r.store name = some x)) ∨
      rec.row = none ∧ r'.store = r.store := by
  cases rec with
  | insert tx name rid tuple =>
    obtain ⟨t, -, u, hu, ⟨⟩⟩ := bind_bind_ok h
    obtain ⟨slot, hadds, hinline⟩ := redoTuple_adds hu
    exact .inl ⟨name, rid, tuple, slot, rfl, hadds, hinline⟩
  | update tx name rid oldTuple newTuple =>
    obtain ⟨t, -, old, -, h⟩ := bind_bind_ok h
    obtain ⟨u, hu, ⟨⟩⟩ := bind_eq_ok.mp h
    obtain ⟨slot, hadds, hinline⟩ := redoTuple_adds hu
    exact .inl ⟨name, rid, newTuple, slot, rfl, hadds, hinline⟩
  | delete tx name rid =>
    obtain ⟨t, ht, s, hs, ⟨⟩⟩ := bind_bind_ok h
    obtain rfl | ⟨x, slot, hadds, hx⟩ := redoDelete_adds hs
    · exact .inr (.inr ⟨rfl, rfl⟩)
    · refine .inr (.inl ⟨tx, name, rid, x, slot, rfl, hadds, fun hused => ?_⟩)
      rw [nextSlot, getTable_eq_ok ht, hx hused]
      rfl
  | _ =>
    cases h
    exact .inr (.inr ⟨rfl, rfl⟩)

/-! ### Marking the versions of open transactions -/

theorem tuple_markSlot (ids : List ℕ) (slot : DataSlot) : (markSlot ids slot).tuple = slot.tuple := by
  unfold markSlot
  split <;> rfl

theorem logicalId_markSlot (ids : List ℕ) (slot : DataSlot) :
    (markSlot ids slot).logicalId = slot.logicalId := by
  unfold markSlot
  split <;> rfl

theorem slotAt_markPages (ids ps : List ℕ) (h : s.slotAt x = some slot) :
    ∃ slot', (markPages ids s ps).slotAt x = some slot' ∧ slot'.tuple = slot.tuple := by
  by_cases hx : x.pageId ∈ ps
  · refine ⟨markSlot ids slot, ?_, tuple_markSlot ids slot⟩
    simp only [slotAt, markPages, if_pos hx]
    rw [DataPage.getSlot_map (logicalId_markSlot ids),
      show (s.pages x.pageId).getSlot x.slotId = _ from h]
    rfl
  · exact ⟨slot, by simpa [slotAt, markPages, hx] using h, rfl⟩

/-- Marking leaves the tuples alone. -/
theorem slotAt_markUncommittedAborted {ids : List ℕ} (h : markUncommittedAborted ids s = .ok s')
    (hslot : s.slotAt x = some slot) :
    ∃ slot', s'.slotAt x = some slot' ∧ slot'.tuple = slot.tuple := by
  unfold markUncommittedAborted at h
  split at h
  · cases h
    exact ⟨slot, hslot, rfl⟩
  · refine foldlM_invariant (P := fun u => ∃ slot', u.slotAt x = some slot' ∧ slot'.tuple = slot.tuple) h
      ⟨slot, hslot, rfl⟩ ?_
    rintro u name v - ⟨slot', hslot', htuple⟩ hmark
    obtain ⟨t, -, ps, -, ⟨⟩⟩ := bind_bind_ok hmark
    obtain ⟨slot'', hslot'', htuple'⟩ := slotAt_markPages ids ps hslot'
    exact ⟨slot'', hslot'', htuple'.trans htuple⟩

/-- A recovery that has something to redo. -/
theorem fullRecover_eq_ok {redoFrom : ℕ} {log : Log} (h : fullRecover s redoFrom log = .ok s')
    (hne : redone log redoFrom ≠ []) :
    ∃ r₀ r, redoStart s = .ok r₀ ∧ redoAll r₀ (redone log redoFrom) = .ok r ∧
      markUncommittedAborted (uncommittedTxIds log) (persistReplayedTails r.store) = .ok s' := by
  rw [fullRecover, if_neg hne] at h
  obtain ⟨r₀, hr₀, r, hr, h⟩ := bind_bind_ok h
  exact ⟨r₀, r, hr₀, hr, h⟩

theorem redoStart_eq_ok (h : redoStart s = .ok r) :
    r.store = s ∧ r.tableLastPage = (fun _ => none) ∧ buildPkVersionMaps s = .ok r.pkVersions := by
  obtain ⟨maps, hmaps, ⟨⟩⟩ := bind_eq_ok.mp h
  exact ⟨rfl, rfl, hmaps⟩

theorem redoAll_cons :
    redoAll r (rec :: rs) = .ok r' ↔ ∃ u, redoRecord r rec = .ok u ∧ redoAll u rs = .ok r' := by
  rw [redoAll, List.foldlM_cons, bind_eq_ok]
  rfl

/-! ### What holds whenever a record is redone -/

/-- A test of the state, the record and the records after it, whenever a record is redone. -/
def alongRedo (ok : RedoState → WalRecord → List WalRecord → Bool) (r : RedoState) :
    List WalRecord → Bool
  | [] => true
  | rec :: rest =>
    ok r rec rest &&
      match redoRecord r rec with
      | .ok r' => alongRedo ok r' rest
      | .error _ => true

variable {ok : RedoState → WalRecord → List WalRecord → Bool}

theorem alongRedo_cons :
    alongRedo ok r (rec :: rs) = true ↔
      ok r rec rs = true ∧ ∀ r', redoRecord r rec = .ok r' → alongRedo ok r' rs = true := by
  rw [alongRedo]
  cases redoRecord r rec <;> simp

end RTsql.Wal

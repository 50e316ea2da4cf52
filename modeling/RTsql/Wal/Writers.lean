import RTsql.Library.Run
import RTsql.Wal.Redo

/-!
# Statements, the log and the file

The run that a recovery starts from. INSERT, UPDATE and DELETE write slots to data pages
(`write_tuple_to_data_page`) and then append their record to the log, with other statements in
between; commit and abort append their records and rewrite version headers in place; any page is
written to the file at any moment, and the file keeps what was written last. An UPDATE reads the
version that it replaces; the state remembers which one it was, since the log does not.

## What is proved

* `run_inv` — in every run, the row of a record in the log stands at its row id with the tuple of
  the record, and every page image in the file is an older state of the page. -/

namespace RTsql.Wal

open List RTsql.Library RTsql.Storage RTsql.Transaction DataStore
open Option (bind_eq_some_iff)

namespace Writers

/-- The pages, the log, the records of rows that are written but not yet logged, and for every
version an UPDATE has written, the version it replaced. -/
structure State where
  store : DataStore
  log : Log
  pending : List WalRecord
  superseded : RowId → Option RowId

/-- What happens next. -/
inductive Label where
  /-- A row of an INSERT is written. -/
  | insert (tx : ℕ) (name : String) (tuple : Bytes)
  /-- An UPDATE reads the version at `old` and writes the next one. -/
  | update (tx : ℕ) (name : String) (old : RowId) (newTuple : Bytes)
  /-- A DELETE writes the tombstone of the row at `rid`. -/
  | delete (tx : ℕ) (name : String) (rid : RowId)
  /-- A statement appends its record to the log. -/
  | append (r : WalRecord)
  | begin (tx : ℕ)
  | commit (tx timestamp : ℕ)
  | abort (tx : ℕ)
  /-- `update_version_header_in_data_page`. -/
  | mark (rid : RowId) (header : VersionHeader)
  /-- A page is written to the file. -/
  | flush (p : ℕ)
  /-- A page is allocated for something else. -/
  | allocate
  /-- A page of something else can be allocated again. -/
  | release (p : ℕ)

/-- The next LSN. -/
def logLen (log : Log) : ℕ := (log.map fun e => e.2.serializeWithLsnLen).sum

def State.appendLog (s : State) (r : WalRecord) : State := { s with log := s.log ++ [(logLen s.log, r)] }

/-- The header of a slot is overwritten. -/
def setHeader (store : DataStore) (rid : RowId) (header : VersionHeader) : DataStore :=
  store.setPage rid.pageId
    { store.pages rid.pageId with
      slots := (store.pages rid.pageId).slots.map fun slot =>
        if slot.logicalId = rid.slotId then { slot with header := header } else slot }

/-- A slot is written, and its record is to be logged. -/
def State.write (s : State) (name : String) (header : VersionHeader) (tuple : Bytes)
    (record : RowId → WalRecord) : Option (State × RowId) := do
  let t ← s.store.tables name
  let (store, rid) ← s.store.writeTuple name t header tuple
  return ({ s with store := store, pending := s.pending ++ [record rid] }, rid)

/-- A page that is not a data page: it has no rows and is not the tail of a table. -/
def Releasable (store : DataStore) (p : ℕ) : Prop :=
  store.Used p ∧ (store.pages p).slots = [] ∧
    ∀ name ∈ store.scanTables, ∀ t ∈ store.tables name, t.dataPageTail ≠ p

instance (store : DataStore) (p : ℕ) : Decidable (store.Used p) := inferInstanceAs (Decidable (_ ∧ _))

instance (store : DataStore) (p : ℕ) : Decidable (Releasable store p) :=
    inferInstanceAs (Decidable (_ ∧ _ ∧ _))

def step (s : State) : Label → Option State
  | .insert tx name tuple =>
    (s.write name (.new tx) tuple fun rid => .insert tx name rid tuple).map Prod.fst
  | .update tx name old newTuple => do
    guard (s.store.Used old.pageId)
    let slot ← s.store.slotAt old
    let oldTuple ← s.store.resolve slot.tuple
    let (s, rid) ← s.write name ((VersionHeader.new tx).withNextVersion old) newTuple fun rid =>
      .update tx name rid oldTuple newTuple
    return { s with superseded := Function.update s.superseded rid (some old) }
  | .delete tx name rid =>
    match s.store.slotAt rid with
    -- A slot that is not there has no tombstone, and is logged all the same.
    | none => some { s with pending := s.pending ++ [.delete tx name rid] }
    | some slot => do
      let _ ← s.store.resolve slot.tuple
      let (s, _) ← s.write name (VersionHeader.new tx).markDeleted [] fun _ => .delete tx name rid
      return s
  | .append r => if r ∈ s.pending then some { s.appendLog r with pending := s.pending.erase r } else none
  | .begin tx => some (s.appendLog (.beginTxn tx))
  | .commit tx timestamp => some (s.appendLog (.commitTxn tx timestamp))
  | .abort tx => some (s.appendLog (.abortTxn tx))
  | .mark rid header => some { s with store := setHeader s.store rid header }
  | .flush p => some { s with store := s.store.flush p }
  | .allocate => some { s with store := s.store.allocatePage.2 }
  | .release p =>
    if Releasable s.store p then
      some { s with store := { s.store with freePages := p :: s.store.freePages } }
    else none

/-- The records of the run. -/
def State.records (s : State) : List WalRecord := s.log.map Prod.snd ++ s.pending

/-! ### The slots stay -/

/-- A slot stays where it is and keeps its tuple. -/
structure Advances (s s' : DataStore) : Prop where
  slots : ∀ (x : RowId) slot, s.Used x.pageId → s.slotAt x = some slot →
    s'.Used x.pageId ∧ ∃ slot', s'.slotAt x = some slot' ∧ slot'.tuple = slot.tuple
  freeList : s.FreeList → s'.FreeList
  sound : s.Sound → s'.Sound

variable {store store' : DataStore} {rid old : RowId} {tuple oldTuple newTuple : Bytes} {p : ℕ}

theorem advances_of_placed {slot : DataSlot} (h : store.Placed store' rid slot) :
    Advances store store' where
  slots _ old hx hold := ⟨h.used _ hx, old, by rw [h.slotAt hx, hold, Option.some_or], rfl⟩
  freeList := h.freeList
  sound := h.sound

theorem advances_allocatePage (store : DataStore) : Advances store store.allocatePage.2 where
  slots x old hx hold := by
    have hkeeps := store.keeps_allocatePage
    refine ⟨hkeeps.used _ hx, old, ?_, rfl⟩
    rwa [slotAt, hkeeps.pages _ hx]
  freeList := store.keeps_allocatePage.freeList
  sound := store.keeps_allocatePage.sound

theorem advances_flush (p : ℕ) : Advances store (store.flush p) where
  slots _ old hx hold := ⟨hx, old, hold, rfl⟩
  freeList h := ⟨h.nodup, h.inFile⟩
  sound h := by
    refine ⟨h.bounded, fun q => ?_⟩
    obtain rfl | hq := eq_or_ne q p
    · intro i slot hslot
      exact ⟨slot, by simpa [flush] using hslot, rfl⟩
    · simpa [flush, hq] using h.older q

/-- A page without rows is given back. -/
theorem advances_release (hp : Releasable store p) :
    Advances store { store with freePages := p :: store.freePages } where
  slots x old hx hold := by
    refine ⟨⟨hx.1, ?_⟩, old, hold, rfl⟩
    have hne : x.pageId ≠ p := by
      rintro rfl
      simp [slotAt, DataPage.getSlot, hp.2.1] at hold
    simpa [hne] using hx.2
  freeList h := ⟨nodup_cons.mpr ⟨hp.1.2, h.nodup⟩, forall_mem_cons.mpr ⟨hp.1.1, h.inFile⟩⟩
  sound h := ⟨h.bounded, h.older⟩

theorem advances_setHeader (rid : RowId) (header : VersionHeader) :
    Advances store (setHeader store rid header) := by
  set f : DataSlot → DataSlot := fun slot =>
    if slot.logicalId = rid.slotId then { slot with header := header } else slot with hf
  have hid : ∀ slot, (f slot).logicalId = slot.logicalId := by
    intro slot
    simp only [hf]
    split <;> rfl
  have htuple : ∀ slot, (f slot).tuple = slot.tuple := by
    intro slot
    simp only [hf]
    split <;> rfl
  have hset : setHeader store rid header =
      store.setPage rid.pageId
        { store.pages rid.pageId with slots := (store.pages rid.pageId).slots.map f } := rfl
  have hgrow : ∀ q i slot, (store.pages q).getSlot i = some slot →
      ∃ slot', ((setHeader store rid header).pages q).getSlot i = some slot' ∧
      slot'.tuple = slot.tuple := by
    intro q i slot hslot
    obtain rfl | hq := eq_or_ne q rid.pageId
    · refine ⟨f slot, ?_, htuple slot⟩
      rw [hset, pages_setPage_self, DataPage.getSlot_map hid, hslot]
      rfl
    · exact ⟨slot, by rw [hset, pages_setPage_of_ne hq, hslot], rfl⟩
  refine ⟨fun x old hx hold => ⟨hx, hgrow _ _ old hold⟩, fun h => ⟨h.nodup, h.inFile⟩, fun h =>
    ⟨fun q => ?_, ?_⟩⟩
  · obtain rfl | hq := eq_or_ne q rid.pageId
    · rw [hset, pages_setPage_self]
      intro slot hslot
      obtain ⟨old, hold, rfl⟩ := mem_map.mp hslot
      exact hid old ▸ h.bounded _ old hold
    · rw [hset, pages_setPage_of_ne hq]
      exact h.bounded q
  · intro q i slot hslot
    obtain ⟨slot', hslot', htuple'⟩ := h.older q i slot hslot
    obtain ⟨slot'', hslot'', htuple''⟩ := hgrow q i slot' hslot'
    exact ⟨slot'', hslot'', htuple''.trans htuple'⟩

/-! ### The invariant -/

/-- The slot of a row id is in use and holds a tuple, if the tuple fits into a slot. -/
def Holds (store : DataStore) (rid : RowId) (tuple : Bytes) : Prop :=
  store.Used rid.pageId ∧ ∃ slot, store.slotAt rid = some slot ∧
  (Inline tuple → slot.tuple = .inline tuple)

theorem Holds.advances (h : Holds store rid tuple) (hadv : Advances store store') :
    Holds store' rid tuple := by
  obtain ⟨hused, slot, hslot, hinline⟩ := h
  obtain ⟨hused', slot', hslot', htuple⟩ := hadv.slots rid slot hused hslot
  exact ⟨hused', slot', hslot', fun h => htuple.trans (hinline h)⟩

/-- What holds of a record: its row is in place, and so is the version it replaced. -/
structure Kept (s : State) (r : WalRecord) : Prop where
  row : ∀ name rid tuple, r.row = some (name, rid, tuple) → Holds s.store rid tuple
  old : ∀ tx name rid oldTuple newTuple, r = .update tx name rid oldTuple newTuple →
    ∃ old, s.superseded rid = some old ∧ Holds s.store old oldTuple

structure Inv (s : State) : Prop where
  freeList : s.store.FreeList
  sound : s.store.Sound
  tails : ∀ name t, s.store.tables name = some t → name ∈ s.store.scanTables ∧
    s.store.Used t.dataPageTail
  kept : ∀ r ∈ s.records, Kept s r

variable {s s' u : State} {r r' : WalRecord} {name : String}

theorem Kept.advances (h : Kept s r) (hadv : Advances s.store s'.store)
    (hsuperseded : ∀ rid tuple, Holds s.store rid tuple → s'.superseded rid = s.superseded rid) :
    Kept s' r where
  row name rid tuple hrow := (h.row name rid tuple hrow).advances hadv
  old tx name rid oldTuple newTuple hr := by
    obtain ⟨old, hold, hholds⟩ := h.old tx name rid oldTuple newTuple hr
    have hrow := h.row name rid newTuple (by rw [hr]; rfl)
    exact ⟨old, (hsuperseded rid newTuple hrow).trans hold, hholds.advances hadv⟩

/-- What a write leaves: the new row in place, at a row id that held nothing. -/
structure Wrote (s s' : State) (rid : RowId) (tuple : Bytes) (r : WalRecord) : Prop where
  advances : Advances s.store s'.store
  holds : Holds s'.store rid tuple
  fresh : ∀ tuple', ¬ Holds s.store rid tuple'
  log : s'.log = s.log
  pending : s'.pending = s.pending ++ [r]
  superseded : s'.superseded = s.superseded
  tails : ∀ name t, s'.store.tables name = some t → name ∈ s'.store.scanTables ∧
    s'.store.Used t.dataPageTail

theorem wrote_of_write {header : VersionHeader} {record : RowId → WalRecord}
    (hs : Inv s) (h : s.write name header tuple record = some (s', rid)) :
    Wrote s s' rid tuple (record rid) := by
  obtain ⟨t, ht, h⟩ := bind_eq_some_iff.mp h
  obtain ⟨⟨store, rid'⟩, hwrite, h⟩ := bind_eq_some_iff.mp h
  obtain ⟨rfl, rfl⟩ := Prod.mk.inj (Option.some.inj h)
  obtain ⟨htable, htail⟩ := hs.tails name t ht
  obtain ⟨ref, hplaced, hinline, hcases⟩ := writeTuple_placed hwrite
  obtain ⟨hpage, htables, hid⟩ | ⟨hnew, hused, hslots, htables⟩ := hcases
  · -- The slot is on the tail page, with a logical id that no slot there has.
    have hrid : s.store.Used rid'.pageId := hpage ▸ htail
    have hnone : s.store.slotAt rid' = none := by
      refine DataPage.getSlot_eq_none_of_bounded (hs.sound.bounded _) (Eq.ge ?_)
      rw [hid htail, hpage]
    have hself := hplaced.slotAt hrid
    rw [hnone, Option.none_or, if_pos rfl] at hself
    refine ⟨advances_of_placed hplaced, ⟨hplaced.used _ hrid, _, hself, hinline⟩, ?_, rfl, rfl, rfl,
      fun n u hu => ?_⟩
    · rintro tuple' ⟨-, slot, hslot, -⟩
      cases hnone.symm.trans hslot
    · obtain ⟨hn, hu⟩ := hs.tails n u (htables ▸ hu)
      exact ⟨hplaced.scanTables ▸ hn, hplaced.used _ hu⟩
  · -- The slot is the first one of a new page.
    refine ⟨advances_of_placed hplaced, ⟨hused hs.freeList, ⟨rid'.slotId, header, ref⟩, ?_,
      hinline⟩, fun tuple' hholds => hnew hholds.1, rfl, rfl, rfl, fun n u hu => ?_⟩
    · simp [slotAt, DataPage.getSlot, hslots]
    · rw [htables, Function.update_apply] at hu
      split at hu
      case isTrue hn =>
        cases hu
        exact ⟨hplaced.scanTables ▸ hn ▸ htable, hused hs.freeList⟩
      case isFalse =>
        obtain ⟨hn, hu⟩ := hs.tails n u hu
        exact ⟨hplaced.scanTables ▸ hn, hplaced.used _ hu⟩

theorem Wrote.inv (h : Wrote s s' rid tuple r) (hs : Inv s) (hr : Kept s' r) :
    Inv s' where
  freeList := h.advances.freeList hs.freeList
  sound := h.advances.sound hs.sound
  tails := h.tails
  kept r' hr' := by
    have hmem : r' ∈ s.records ∨ r' = r := by
      simpa [State.records, h.log, h.pending, or_assoc] using hr'
    obtain hr' | rfl := hmem
    · exact (hs.kept r' hr').advances h.advances fun _ _ _ => by rw [h.superseded]
    · exact hr

/-- A step that writes no row. -/
theorem inv_of_advances (hs : Inv s) (hadv : Advances s.store s'.store)
    (hsuperseded : s'.superseded = s.superseded)
    (htails : ∀ name t, s'.store.tables name = some t → name ∈ s'.store.scanTables ∧
      s'.store.Used t.dataPageTail)
    (hrecords : ∀ r ∈ s'.records, r ∈ s.records ∨ r.row = none) : Inv s' where
  freeList := hadv.freeList hs.freeList
  sound := hadv.sound hs.sound
  tails := htails
  kept r hr := by
    obtain hr | hr := hrecords r hr
    · exact (hs.kept r hr).advances hadv fun _ _ _ => by rw [hsuperseded]
    · refine ⟨fun _ _ _ h => by simp [hr] at h, ?_⟩
      rintro tx name rid oldTuple newTuple rfl
      simp [WalRecord.row] at hr

theorem mem_records_appendLog (h : r' ∈ (s.appendLog r).records) : r' ∈ s.records ∨ r' = r := by
  simp only [State.records, State.appendLog, map_append, map_cons, map_nil, mem_append,
    mem_singleton] at h ⊢
  tauto

/-- A record without a row is logged. -/
theorem inv_appendLog (hs : Inv s) (hr : r.row = none) : Inv (s.appendLog r) :=
  inv_of_advances hs ⟨fun _ _ hx hslot => ⟨hx, _, hslot, rfl⟩, id, id⟩ rfl hs.tails fun _ hr' =>
    (mem_records_appendLog hr').imp_right fun h => by rw [h, hr]

theorem Inv.update {tx : ℕ} (hs : Inv s) (hold : Holds s.store old oldTuple)
    (hwrote : Wrote s u rid newTuple (.update tx name rid oldTuple newTuple)) :
    Inv { u with superseded := Function.update u.superseded rid (some old) } where
  freeList := hwrote.advances.freeList hs.freeList
  sound := hwrote.advances.sound hs.sound
  tails := hwrote.tails
  kept r hr := by
    have hmem : r ∈ s.records ∨ r = .update tx name rid oldTuple newTuple := by
      simpa [State.records, hwrote.log, hwrote.pending, or_assoc] using hr
    obtain hr | rfl := hmem
    · -- A record written before is about another row id, since that one held a row.
      refine (hs.kept r hr).advances hwrote.advances fun x tuple hx => ?_
      have hne : x ≠ rid := fun h => hwrote.fresh tuple (h ▸ hx)
      simp [hne, hwrote.superseded]
    · refine ⟨fun n x tup hrow => ?_, fun tx' n x oldTup newTup hr => ?_⟩
      · cases hrow
        exact hwrote.holds
      · cases hr
        exact ⟨old, by simp, hold.advances hwrote.advances⟩

theorem step_inv {l : Label} (hs : Inv s) (h : step s l = some s') : Inv s' := by
  cases l with
  | insert tx name tuple =>
    obtain ⟨⟨u, rid⟩, hwrite, rfl⟩ := Option.map_eq_some_iff.mp h
    have hwrote := wrote_of_write hs hwrite
    refine hwrote.inv hs ⟨fun n x tup hrow => ?_, fun _ _ _ _ _ hr => nomatch hr⟩
    cases hrow
    exact hwrote.holds
  | update tx name old newTuple =>
    obtain ⟨_, hused, h⟩ := bind_eq_some_iff.mp h
    obtain ⟨slot, hslot, h⟩ := bind_eq_some_iff.mp h
    obtain ⟨oldTuple, hresolve, h⟩ := bind_eq_some_iff.mp h
    obtain ⟨⟨u, rid⟩, hwrite, ⟨⟩⟩ := bind_eq_some_iff.mp h
    have hold : Holds s.store old oldTuple :=
      ⟨by simpa using hused, slot, hslot, fun hinline => eq_inline_of_resolve hresolve hinline⟩
    exact hs.update hold (wrote_of_write hs hwrite)
  | delete tx name rid =>
    unfold step at h
    dsimp only at h
    split at h
    case h_1 =>
      cases h
      refine inv_of_advances hs
        ⟨fun _ _ hx hslot => ⟨hx, _, hslot, rfl⟩, id, id⟩ rfl hs.tails fun r hr => ?_
      have hmem : r ∈ s.records ∨ r = .delete tx name rid := by
        simpa [State.records, or_assoc] using hr
      exact hmem.imp_right fun h => by rw [h]; rfl
    case h_2 slot hslot =>
      obtain ⟨_, -, h⟩ := bind_eq_some_iff.mp h
      obtain ⟨⟨u, x⟩, hwrite, ⟨⟩⟩ := bind_eq_some_iff.mp h
      exact (wrote_of_write hs hwrite).inv hs
        ⟨fun _ _ _ hrow => (nomatch hrow), fun _ _ _ _ _ hr => nomatch hr⟩
  | append r =>
    obtain ⟨hr, rfl⟩ := of_guard h
    refine inv_of_advances hs
      ⟨fun _ _ hx hslot => ⟨hx, _, hslot, rfl⟩, id, id⟩ rfl hs.tails fun r' hr' => .inl ?_
    have hpending : r' ∈ (s.appendLog r).log.map Prod.snd ∨ r' ∈ s.pending :=
      (mem_append.mp hr').imp_right mem_of_mem_erase
    obtain h | rfl := mem_records_appendLog (mem_append.mpr hpending)
    · exact h
    · exact mem_append_right _ hr
  | begin tx | commit tx timestamp | abort tx => exact Option.some.inj h ▸ inv_appendLog hs rfl
  | mark rid header =>
    cases h
    exact inv_of_advances hs (advances_setHeader rid header) rfl hs.tails fun r hr => .inl hr
  | flush p =>
    cases h
    exact inv_of_advances hs (advances_flush p) rfl hs.tails fun r hr => .inl hr
  | allocate =>
    cases h
    have hkeeps := s.store.keeps_allocatePage
    refine inv_of_advances hs (advances_allocatePage s.store) rfl (fun name t ht => ?_) fun r hr =>
      .inl hr
    obtain ⟨hname, htail⟩ := hs.tails name t (hkeeps.tables ▸ ht)
    exact ⟨hkeeps.scanTables ▸ hname, hkeeps.used _ htail⟩
  | release p =>
    obtain ⟨hp, rfl⟩ := of_guard h
    refine inv_of_advances hs (advances_release hp) rfl (fun name t ht => ?_) fun r hr => .inl hr
    obtain ⟨hname, htail⟩ := hs.tails name t ht
    refine ⟨hname, htail.1, ?_⟩
    simpa [hp.2.2 name hname t ht] using htail.2

/-- The state from which a run starts: nothing is logged yet. -/
structure Start (s : State) : Prop where
  log : s.log = []
  pending : s.pending = []
  freeList : s.store.FreeList
  sound : s.store.Sound
  tails : ∀ name t, s.store.tables name = some t → name ∈ s.store.scanTables ∧
    s.store.Used t.dataPageTail

theorem run_inv {ls : List Label} (hs : Start s) (h : run step s ls = some s') : Inv s' := by
  have hok : Guarded (fun _ _ => True) step s ls := guarded_of_forall fun _ _ _ => trivial
  refine run_invariant (fun _ _ _ hinv _ hstep => step_inv hinv hstep) ?_ hok h
  exact ⟨hs.freeList, hs.sound, hs.tails, by simp [State.records, hs.log, hs.pending]⟩

/-- The store as an open finds it after a crash: the pages as they are in the file, and nothing to
be allocated but pages at its end. The catalog rows are as they happen to be in the file. -/
structure Crashed (s : State) (store : DataStore) : Prop where
  pages : store.pages = s.store.disk
  freePages : store.freePages = []
  fileLen : store.fileLen = s.store.fileLen

theorem Crashed.used (h : Crashed s store) (hp : s.store.Used p) : store.Used p := by
  simp [DataStore.Used, h.freePages, h.fileLen, hp.1]

/-- The store after a crash, with the catalog row that is in the file. -/
def State.reopen (s : State) : DataStore :=
  { s.store with
    pages := s.store.disk
    freePages := []
    tables := fun name => (s.store.tables name).map fun t => { t with dataPageTail := t.catalogTail } }

theorem crashed_reopen (s : State) : Crashed s s.reopen := ⟨rfl, rfl, rfl⟩

/-! ### A table with two integer columns -/

/-- The tuple `(k, v)`. -/
def pair (k v : UInt8) : Bytes := [1, k, 0, 0, 0, 0, 0, 0, 0, 1, v, 0, 0, 0, 0, 0, 0, 0]

/-- The key is the first column. -/
def firstColumn (tuple : Bytes) : Option Bytes :=
  match tuple with
  | 1 :: rest => some ((rest.take 8).reverse)
  | _ => none

/-- The table `t` with one empty page, page 1. -/
def emptyTable : State where
  store :=
    { pages := fun _ => .init
      disk := fun _ => .init
      freePages := []
      fileLen := 2
      tables := fun name => if name = "t" then some ⟨1, 1, 1, firstColumn⟩ else none
      scanTables := ["t"] }
  log := []
  pending := []
  superseded := fun _ => none

theorem start_emptyTable : Start emptyTable where
  log := rfl
  pending := rfl
  freeList := ⟨nodup_nil, by simp [emptyTable]⟩
  sound := ⟨fun p => by simp [emptyTable, DataPage.Bounded, DataPage.init],
    fun p => by simp [emptyTable, DataPage.Older, DataPage.init, DataPage.getSlot]⟩
  tails name t ht := by
    obtain ⟨rfl, rfl⟩ := of_guard ht
    exact ⟨by simp [emptyTable], by simp [emptyTable, DataStore.Used]⟩

/-- A row that takes up a page. -/
def longRow : Bytes := pair 1 1 ++ List.replicate 4012 0

/-- The page with that row. -/
def fullPage : DataPage := ⟨0, 1, [⟨0, (VersionHeader.new 1).commit 1, .inline longRow⟩], none⟩

/-- The table `t` with one full page, page 3. -/
def fullTable (freePages : List ℕ) : State where
  store :=
    { pages := Function.update (fun _ => .init) 3 fullPage
      disk := Function.update (fun _ => .init) 3 fullPage
      freePages := freePages
      fileLen := 4
      tables := fun name => if name = "t" then some ⟨3, 3, 3, firstColumn⟩ else none
      scanTables := ["t"] }
  log := []
  pending := []
  superseded := fun _ => none

theorem start_fullTable {freePages : List ℕ} (hnodup : freePages.Nodup)
    (hfree : ∀ p ∈ freePages, p < 3) : Start (fullTable freePages) where
  log := rfl
  pending := rfl
  freeList := ⟨hnodup, fun p hp => (hfree p hp).trans (by simp [fullTable])⟩
  sound := by
    refine ⟨fun p => ?_, fun p i slot h => ⟨slot, h, rfl⟩⟩
    obtain rfl | hp := eq_or_ne p 3
    · simp [fullTable, fullPage, DataPage.Bounded]
    · simp [fullTable, DataPage.Bounded, DataPage.init, hp]
  tails name t ht := by
    obtain ⟨rfl, rfl⟩ := of_guard ht
    exact ⟨by simp [fullTable], by simp [fullTable], fun h => absurd (hfree 3 h) (by decide)⟩

/-- A transaction inserts a row, which gets the row id `rid`, and commits. -/
def inserts (tx : ℕ) (rid : RowId) (tuple : Bytes) : List Label :=
  [.begin tx, .insert tx "t" tuple, .append (.insert tx "t" rid tuple), .commit tx 0]

/-- A transaction deletes the row at `rid` and commits. -/
def deletes (tx : ℕ) (rid : RowId) : List Label :=
  [.begin tx, .delete tx "t" rid, .append (.delete tx "t" rid), .commit tx 0]

end Writers

end RTsql.Wal

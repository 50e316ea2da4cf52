import RTsql.Library.Except
import RTsql.Storage.SlottedPage
import RTsql.Storage.Value
import RTsql.Transaction.VersionHeader
import Mathlib.Data.List.Nodup
import Mathlib.Logic.Function.Basic

/-!
# Data pages

The data pages of the tables as `data_page.rs`, `slotted_page.rs` and `overflow.rs` write them,
with the file beneath: the buffer pool's view of every page, the page's image in the file, the
free list and the length of the file.

A slot carries its logical id, its version header and either the tuple or the locator of a chain of
overflow pages that holds it. Slots are only ever added: `add_slot` takes the next logical id of the
page, `add_slot_with_logical_id` the id it is given. A page of zeros and a page just initialised
are the same here, since whoever writes to a page of zeros initialises it first.
-/

namespace RTsql.Storage

open Function List Option RTsql.Transaction

/-! ### Pages -/

/-- `VersionHeader::SIZE`. -/
def versionHeaderSize : ℕ := 22

/-- `LOCATOR_SIZE`. -/
def locatorSize : ℕ := 9

/-- `INLINE_SLOT_MAX`. -/
def inlineSlotMax : ℕ := pageSize - headerSize - slotSize

/-- `OVERFLOW_PAYLOAD_MAX`. -/
def overflowPayloadMax : ℕ := pageSize - headerSize

/-- A tuple that is stored in its slot. -/
def Inline (tuple : Bytes) : Prop := versionHeaderSize + tuple.length ≤ inlineSlotMax

instance (tuple : Bytes) : Decidable (Inline tuple) := inferInstanceAs (Decidable (_ ≤ _))

/-- `TupleRef`: the tuple segment of a slot. -/
inductive TupleRef where
  | inline (tuple : Bytes)
  /-- The locator: the length of the tuple, too long for a slot, and the first page of the chain
  that holds it. -/
  | overflow (totalLen firstPage : ℕ) (long : inlineSlotMax < versionHeaderSize + totalLen)
  deriving DecidableEq

def TupleRef.len : TupleRef → ℕ
  | .inline tuple => tuple.length
  | .overflow .. => locatorSize

structure DataSlot where
  logicalId : ℕ
  header : VersionHeader
  tuple : TupleRef
  deriving DecidableEq

/-- A page: a data page, or an overflow page with its payload. -/
structure DataPage where
  /-- `next_page_id`, `0` at the end of a chain. -/
  nextPageId : ℕ
  nextLogicalId : ℕ
  slots : List DataSlot
  payload : Option Bytes
  deriving DecidableEq

namespace DataPage

/-- The page that `SlottedPage::init` leaves. -/
def init : DataPage := ⟨0, 0, [], none⟩

/-- `free_space_offset`: the slots' data lie one behind the other. -/
def freeSpaceOffset (p : DataPage) : ℕ :=
  headerSize + (p.slots.map fun s => versionHeaderSize + s.tuple.len).sum

/-- `get_slot_by_logical_id`. -/
def getSlot (p : DataPage) (id : ℕ) : Option DataSlot := p.slots.find? (·.logicalId = id)

/-- Whether `add_slot_inner` finds room for a slot. -/
def HasRoom (p : DataPage) (ref : TupleRef) : Prop :=
  p.freeSpaceOffset + (slotSize + (versionHeaderSize + ref.len)) ≤ pageSize - p.slots.length * slotSize

instance (p : DataPage) (ref : TupleRef) : Decidable (p.HasRoom ref) :=
    inferInstanceAs (Decidable (_ ≤ _))

/-- The `next_logical_id` after `add_slot_inner`. -/
def nextAfter (p : DataPage) : Option ℕ → ℕ
  | none => p.nextLogicalId + 1
  | some id => max p.nextLogicalId (id + 1)

/-- `add_slot_inner`; `none` is `PageFull`. -/
def addSlotInner (p : DataPage) (header : VersionHeader) (ref : TupleRef) (forced : Option ℕ) :
    Option (DataPage × ℕ) :=
  if p.HasRoom ref then
    let id := forced.getD p.nextLogicalId
    some ({ p with slots := p.slots ++ [⟨id, header, ref⟩], nextLogicalId := p.nextAfter forced }, id)
  else none

/-- `add_slot`. -/
def addSlot (p : DataPage) (header : VersionHeader) (ref : TupleRef) : Option (DataPage × ℕ) :=
  p.addSlotInner header ref none

/-- `add_slot_with_logical_id`. -/
def addSlotWithLogicalId (p : DataPage) (header : VersionHeader) (ref : TupleRef) (id : ℕ) :
    Option DataPage :=
  (p.addSlotInner header ref (some id)).map Prod.fst

/-- The logical ids of a page are below its `next_logical_id`. -/
def Bounded (p : DataPage) : Prop := ∀ s ∈ p.slots, s.logicalId < p.nextLogicalId

/-- What is found on the one page is found on the other, with the same tuple. -/
def Older (p q : DataPage) : Prop :=
    ∀ i s, p.getSlot i = some s → ∃ s', q.getSlot i = some s' ∧ s'.tuple = s.tuple

variable {p q : DataPage} {header : VersionHeader} {ref : TupleRef} {forced : Option ℕ} {id i : ℕ}

theorem addSlotInner_eq_some (h : p.addSlotInner header ref forced = some (q, id)) :
    id = forced.getD p.nextLogicalId ∧ q.slots = p.slots ++ [⟨id, header, ref⟩] ∧
      q.nextLogicalId = p.nextAfter forced ∧ q.nextPageId = p.nextPageId := by
  unfold addSlotInner at h
  split at h
  · cases h
    exact ⟨rfl, rfl, rfl, rfl⟩
  · cases h

/-- What is found on a page to which slots were added. -/
theorem getSlot_of_slots_eq {new : List DataSlot} (h : q.slots = p.slots ++ new) :
    q.getSlot i = (p.getSlot i).or (new.find? (·.logicalId = i)) := by
  rw [getSlot, getSlot, h, find?_append]

/-- Slots may be rewritten in place. -/
theorem getSlot_map {f : DataSlot → DataSlot} (hid : ∀ s, (f s).logicalId = s.logicalId)
    (p : DataPage) (i : ℕ) :
    ({ p with slots := p.slots.map f } : DataPage).getSlot i = (p.getSlot i).map f := by
  simp only [getSlot, find?_map, comp_def, hid]

theorem getSlot_eq_none_of_bounded (h : p.Bounded) (hi : p.nextLogicalId ≤ i) : p.getSlot i = none := by
  refine find?_eq_none.mpr fun s hs hid => ?_
  have := h s hs
  simp only [decide_eq_true_eq] at hid
  omega

theorem bounded_addSlotInner (hp : p.Bounded)
    (h : p.addSlotInner header ref forced = some (q, id)) : q.Bounded := by
  obtain ⟨hid, hslots, hnext, -⟩ := addSlotInner_eq_some h
  intro s hs
  rw [hslots, mem_append, mem_singleton] at hs
  rw [hnext]
  obtain hs | rfl := hs
  · have := hp s hs
    cases forced <;> simp only [nextAfter] <;> omega
  · subst hid
    cases forced <;> simp only [nextAfter, getD_none, getD_some] <;> omega

end DataPage

/-! ### The store -/

/-- The part of `TableMeta` and of the catalog row that writing and recovery use. -/
structure DataTable where
  dataPageHead : ℕ
  /-- `TableMeta::data_page_tail`, in memory. -/
  dataPageTail : ℕ
  /-- The `data_page_tail` of the catalog row. -/
  catalogTail : ℕ
  /-- `extract_pk_key`, which reads the columns of the table. -/
  extractPkKey : Bytes → Option Bytes

/-- The pages as the buffer pool shows them, the file, and the tables. -/
structure DataStore where
  pages : ℕ → DataPage
  /-- The images in the file. -/
  disk : ℕ → DataPage
  /-- `FileStorage::free_pages`, the last one first. -/
  freePages : List ℕ
  /-- `FileStorage::file_len`. -/
  fileLen : ℕ
  tables : String → Option DataTable
  /-- The tables, in the order in which `scan_tables` lists them. -/
  scanTables : List String

namespace DataStore

def setPage (s : DataStore) (p : ℕ) (page : DataPage) : DataStore :=
  { s with pages := update s.pages p page }

/-- `page.data[5..9]` is overwritten. -/
def setNext (s : DataStore) (p next : ℕ) : DataStore := s.setPage p { s.pages p with nextPageId := next }

/-- `data_page_tail` is set in memory. -/
def setTail (s : DataStore) (name : String) (t : DataTable) (p : ℕ) : DataStore :=
  { s with tables := update s.tables name (some { t with dataPageTail := p }) }

/-- A page is written to the file. -/
def flush (s : DataStore) (p : ℕ) : DataStore := { s with disk := update s.disk p (s.pages p) }

/-- A page of zeros, in the file and for whoever loads it. -/
def zero (s : DataStore) (p : ℕ) : DataStore :=
  { s with pages := update s.pages p .init, disk := update s.disk p .init }

/-- `FileStorage::allocate_page`: the last free page, cleared, or a page at the end of the file. -/
def allocatePage (s : DataStore) : ℕ × DataStore :=
  match s.freePages with
  | p :: rest => (p, { s.zero p with freePages := rest })
  | [] => (s.fileLen, { s.zero s.fileLen with fileLen := s.fileLen + 1 })

def allocatePages (s : DataStore) : ℕ → List ℕ × DataStore
  | 0 => ([], s)
  | n + 1 => (s.allocatePage.1 :: (s.allocatePage.2.allocatePages n).1, (s.allocatePage.2.allocatePages n).2)

/-- The second loop of `write_chain_pages`. -/
def fillChain (s : DataStore) : List ℕ → List Bytes → DataStore
  | p :: ps, chunk :: chunks => (s.setPage p ⟨ps.headD 0, 0, [], some chunk⟩).fillChain ps chunks
  | _, _ => s

/-- `write_overflow_chain`. -/
def writeOverflowChain (s : DataStore) (tuple : Bytes) : ℕ × DataStore :=
  let chunks := tuple.toChunks overflowPayloadMax
  let (ps, s) := s.allocatePages chunks.length
  (ps.headD 0, s.fillChain ps chunks)

/-- The tuple segment for a tuple; a tuple too long for a slot goes to a chain. -/
def storeTuple (s : DataStore) (tuple : Bytes) : TupleRef × DataStore :=
  if h : Inline tuple then (.inline tuple, s)
  else
    let (first, s) := s.writeOverflowChain tuple
    (.overflow tuple.length first (Nat.lt_of_not_le h), s)

/-- The walk of `read_overflow_chain`, over at most `n` pages. -/
def readChain (pages : ℕ → DataPage) : ℕ → ℕ → Option Bytes
  | 0, _ => none
  | n + 1, p =>
    match (pages p).payload with
    | none => none
    | some chunk =>
      if (pages p).nextPageId = 0 then some chunk
      else (readChain pages n (pages p).nextPageId).map (chunk ++ ·)

/-- `TupleRef::resolve`. -/
def resolve (s : DataStore) : TupleRef → Option Bytes
  | .inline tuple => some tuple
  | .overflow totalLen firstPage _ =>
    if firstPage = 0 then if totalLen = 0 then some [] else none
    else (readChain s.pages (totalLen / overflowPayloadMax + 1) firstPage).filter (·.length = totalLen)

/-- A tuple short enough for a slot is read from the slot. -/
theorem eq_inline_of_resolve {s : DataStore} {ref : TupleRef} {tuple : Bytes}
    (h : s.resolve ref = some tuple) (hinline : Inline tuple) : ref = .inline tuple := by
  cases ref with
  | inline tuple' => rw [Option.some.inj h]
  | overflow totalLen firstPage long =>
    unfold Inline at hinline
    simp only [resolve] at h
    split at h
    · split at h
      case isTrue hzero =>
        subst hzero
        exact absurd long (by decide)
      case isFalse => cases h
    · have hlen := (filter_eq_some_iff.mp h).2
      simp only [decide_eq_true_eq] at hlen
      omega

/-- The slot of a row id. -/
def slotAt (s : DataStore) (rid : RowId) : Option DataSlot := (s.pages rid.pageId).getSlot rid.slotId

/-- `write_tuple_to_data_page`: a slot on the tail page or, if it is full, on a new page behind it;
`none` if the slot does not fit on a new page either. -/
def writeTuple (s : DataStore) (name : String) (t : DataTable) (header : VersionHeader) (tuple : Bytes) :
    Option (DataStore × RowId) :=
  let (ref, s) := s.storeTuple tuple
  match (s.pages t.dataPageTail).addSlot header ref with
  | some (page, id) => some (s.setPage t.dataPageTail page, ⟨t.dataPageTail, id⟩)
  | none =>
    let (new, s) := s.allocatePage
    let s := s.setNext t.dataPageTail new
    (DataPage.init.addSlot header ref).map fun (page, id) =>
      ((s.setPage new page).setTail name t new, ⟨new, id⟩)

/-! ### Pages in use -/

/-- A page in the file that is not free. -/
def Used (s : DataStore) (p : ℕ) : Prop := p < s.fileLen ∧ p ∉ s.freePages

/-- The free list has no page twice and none behind the end of the file. -/
structure FreeList (s : DataStore) : Prop where
  nodup : s.freePages.Nodup
  inFile : ∀ p ∈ s.freePages, p < s.fileLen

/-- The logical ids are below the next one, and the file holds older images of the pages. -/
structure Sound (s : DataStore) : Prop where
  bounded : ∀ p, (s.pages p).Bounded
  older : ∀ p, (s.disk p).Older (s.pages p)

/-- The pages in use stay in use, and stay as they are. -/
structure Keeps (s s' : DataStore) : Prop where
  used : ∀ p, s.Used p → s'.Used p
  pages : ∀ p, s.Used p → s'.pages p = s.pages p
  tables : s'.tables = s.tables
  scanTables : s'.scanTables = s.scanTables
  fileLen : s.fileLen ≤ s'.fileLen
  freePages : s.freePages = [] → s'.freePages = []
  freeList : s.FreeList → s'.FreeList
  sound : s.Sound → s'.Sound

variable {s s' s'' : DataStore} {p : ℕ} {page : DataPage} {tuple : Bytes}

theorem Keeps.refl (s : DataStore) : s.Keeps s :=
  ⟨fun _ h => h, fun _ _ => rfl, rfl, rfl, le_rfl, id, id, id⟩

theorem Keeps.trans (h : s.Keeps s') (h' : s'.Keeps s'') : s.Keeps s'' where
  used p hp := h'.used p (h.used p hp)
  pages p hp := (h'.pages p (h.used p hp)).trans (h.pages p hp)
  tables := h'.tables.trans h.tables
  scanTables := h'.scanTables.trans h.scanTables
  fileLen := h.fileLen.trans h'.fileLen
  freePages := h'.freePages ∘ h.freePages
  freeList := h'.freeList ∘ h.freeList
  sound := h'.sound ∘ h.sound

@[simp] theorem pages_setPage_self (page : DataPage) : (s.setPage p page).pages p = page :=
  update_self ..

theorem pages_setPage_of_ne {q : ℕ} (h : q ≠ p) : (s.setPage p page).pages q = s.pages q :=
  update_of_ne h ..

theorem slots_setNext (next q : ℕ) : ((s.setNext p next).pages q).slots = (s.pages q).slots := by
  obtain rfl | hq := eq_or_ne q p
  · rw [setNext, pages_setPage_self]
  · rw [setNext, pages_setPage_of_ne hq]

theorem ne_of_used {q : ℕ} (hp : ¬ s.Used p) (hq : s.Used q) : q ≠ p := fun h => hp (h ▸ hq)

theorem sound_setPage (h : s.Sound) (hbounded : page.Bounded) (holder : (s.disk p).Older page) :
    (s.setPage p page).Sound where
  bounded q := by
    obtain rfl | hq := eq_or_ne q p
    · simpa [setPage] using hbounded
    · simpa [setPage, hq] using h.bounded q
  older q := by
    obtain rfl | hq := eq_or_ne q p
    · simpa [setPage] using holder
    · simpa [setPage, hq] using h.older q

theorem sound_setNext (h : s.Sound) (p next : ℕ) : (s.setNext p next).Sound :=
  sound_setPage h (h.bounded p) (h.older p)

/-- A page that was not in use may become what it likes. -/
theorem Keeps.setPage (h : s.Keeps s') (hp : ¬ s.Used p) (hbounded : page.Bounded)
    (holder : (s'.disk p).Older page) : s.Keeps (s'.setPage p page) := { h with
  pages q hq := (update_of_ne (ne_of_used hp hq) _ _).trans (h.pages q hq)
  freeList hs := ⟨(h.freeList hs).nodup, (h.freeList hs).inFile⟩
  sound hs := sound_setPage (h.sound hs) hbounded holder }

theorem sound_zero (h : s.Sound) (p : ℕ) : (s.zero p).Sound where
  bounded q := by
    obtain rfl | hq := eq_or_ne q p
    · simp [zero, DataPage.Bounded, DataPage.init]
    · simpa [zero, hq] using h.bounded q
  older q := by
    obtain rfl | hq := eq_or_ne q p
    · simp [zero, DataPage.Older, DataPage.init, DataPage.getSlot]
    · simpa [zero, hq] using h.older q

theorem not_used_allocatePage (s : DataStore) : ¬ s.Used s.allocatePage.1 := by
  unfold allocatePage
  split
  case h_1 p rest hfree => simp [Used, hfree]
  case h_2 hfree => simp [Used]

theorem used_allocatePage (h : s.FreeList) : s.allocatePage.2.Used s.allocatePage.1 := by
  unfold allocatePage
  split
  case h_1 p rest hfree =>
    have hnodup := h.nodup
    rw [hfree, nodup_cons] at hnodup
    exact ⟨h.inFile p (by simp [hfree]), hnodup.1⟩
  case h_2 hfree => simp [Used, zero, hfree]

theorem disk_allocatePage (s : DataStore) (q : ℕ) :
    s.allocatePage.2.disk q = if q = s.allocatePage.1 then .init else s.disk q := by
  unfold allocatePage
  split <;> simp [zero, update_apply]

theorem keeps_allocatePage (s : DataStore) : s.Keeps s.allocatePage.2 := by
  have hzero : ∀ {p q : ℕ}, ¬ s.Used p → s.Used q → (s.zero p).pages q = s.pages q := fun hp hq =>
    update_of_ne (ne_of_used hp hq) _ _
  have hnot := not_used_allocatePage s
  unfold allocatePage at hnot ⊢
  split
  case h_1 p rest hfree =>
    simp only [hfree] at hnot
    refine ⟨fun q hq => ⟨hq.1, fun h => hq.2 (by simp [hfree, h])⟩, fun q hq => hzero hnot hq, rfl,
      rfl, le_rfl,
      fun h => by simp [hfree] at h, fun h => ?_, fun h => ⟨(sound_zero h p).bounded, (sound_zero h p).older⟩⟩
    have hnodup := h.nodup
    rw [hfree, nodup_cons] at hnodup
    exact ⟨hnodup.2, fun q hq => h.inFile q (by simp [hfree, hq])⟩
  case h_2 hfree =>
    simp only [hfree] at hnot
    refine ⟨fun q hq => ⟨Nat.lt_succ_of_lt hq.1, hq.2⟩, fun q hq => hzero hnot hq, rfl, rfl,
      Nat.le_succ _, fun h => h, fun h => ⟨h.nodup, fun q hq => Nat.lt_succ_of_lt (h.inFile q hq)⟩,
      fun h => ⟨(sound_zero h _).bounded, (sound_zero h _).older⟩⟩

/-- Many pages: none of them was in use, and none has an image with slots. -/
theorem keeps_allocatePages (s : DataStore) (n : ℕ) :
    s.Keeps (s.allocatePages n).2 ∧ (∀ q, s.disk q = .init → (s.allocatePages n).2.disk q = .init) ∧
      ∀ p ∈ (s.allocatePages n).1, ¬ s.Used p ∧ (s.allocatePages n).2.disk p = .init := by
  induction n generalizing s with
  | zero => exact ⟨Keeps.refl s, fun _ h => h, by simp [allocatePages]⟩
  | succ n ih =>
    obtain ⟨hkeeps, hinit, hpages⟩ := ih s.allocatePage.2
    have hstep : ∀ q, s.disk q = .init → s.allocatePage.2.disk q = .init := by
      intro q hq
      rw [disk_allocatePage]
      split
      · rfl
      · exact hq
    refine ⟨(keeps_allocatePage s).trans hkeeps, fun q hq => hinit q (hstep q hq),
      forall_mem_cons.mpr ⟨?_, fun p hp => ?_⟩⟩
    · exact ⟨not_used_allocatePage s, hinit _ (by rw [disk_allocatePage, if_pos rfl])⟩
    · exact ⟨fun hused => (hpages p hp).1 ((keeps_allocatePage s).used p hused), (hpages p hp).2⟩

theorem Keeps.fillChain {ps : List ℕ} (h : s.Keeps s') (hps : ∀ p ∈ ps, ¬ s.Used p ∧ s'.disk p = .init)
    (chunks : List Bytes) : s.Keeps (s'.fillChain ps chunks) := by
  induction ps generalizing s' chunks with
  | nil => exact h
  | cons p ps ih =>
    cases chunks with
    | nil => exact h
    | cons chunk chunks =>
      obtain ⟨hused, hdisk⟩ := hps p (by simp)
      refine ih (h.setPage hused ?_ ?_) (fun q hq => hps q (by simp [hq])) chunks
      · simp [DataPage.Bounded]
      · simp [hdisk, DataPage.Older, DataPage.init, DataPage.getSlot]

theorem keeps_storeTuple (s : DataStore) (tuple : Bytes) : s.Keeps (s.storeTuple tuple).2 := by
  unfold storeTuple
  split
  · exact Keeps.refl s
  · obtain ⟨hkeeps, -, hpages⟩ := keeps_allocatePages s (tuple.toChunks overflowPayloadMax).length
    exact hkeeps.fillChain hpages _

theorem storeTuple_of_inline (h : Inline tuple) : s.storeTuple tuple = (.inline tuple, s) := dif_pos h

/-! ### Adding a slot -/

/-- One slot is added, at a row id; the pages in use have no other slot that is new. -/
structure Placed (s s' : DataStore) (rid : RowId) (slot : DataSlot) : Prop where
  logicalId : slot.logicalId = rid.slotId
  slots : ∀ p, s.Used p → (s'.pages p).slots = (s.pages p).slots ++ if p = rid.pageId then [slot] else []
  used : ∀ p, s.Used p → s'.Used p
  scanTables : s'.scanTables = s.scanTables
  fileLen : s.fileLen ≤ s'.fileLen
  freePages : s.freePages = [] → s'.freePages = []
  freeList : s.FreeList → s'.FreeList
  sound : s.Sound → s'.Sound

variable {rid x : RowId} {slot : DataSlot} {header : VersionHeader}

theorem Placed.slotAt (h : s.Placed s' rid slot) (hx : s.Used x.pageId) :
    s'.slotAt x = (s.slotAt x).or (if x = rid then some slot else none) := by
  unfold DataStore.slotAt
  rw [DataPage.getSlot_of_slots_eq (h.slots x.pageId hx)]
  obtain ⟨p, i⟩ := x
  obtain ⟨q, j⟩ := rid
  have hid : slot.logicalId = j := h.logicalId
  obtain rfl | hp := eq_or_ne p q
  · by_cases hi : j = i <;> simp [hid, hi, Ne.symm, eq_comm]
  · simp [hp]

theorem Older.append {d q q' : DataPage} {new : List DataSlot} (h : d.Older q)
    (hq : q'.slots = q.slots ++ new) : d.Older q' := by
  intro i slot hslot
  obtain ⟨slot', hslot', htuple⟩ := h i slot hslot
  exact ⟨slot', by rw [DataPage.getSlot_of_slots_eq hq, hslot', some_or], htuple⟩

/-- A slot is added to a page, after the tuple has been stored. -/
theorem Keeps.placed {p id : ℕ} {ref : TupleRef} {forced : Option ℕ}
    (h : s.Keeps s') (hadd : (s'.pages p).addSlotInner header ref forced = some (page, id)) :
    s.Placed (s'.setPage p page) ⟨p, id⟩ ⟨id, header, ref⟩ := by
  obtain ⟨-, hslots, -, -⟩ := DataPage.addSlotInner_eq_some hadd
  refine ⟨rfl, fun q hq => ?_, h.used, h.scanTables, h.fileLen, h.freePages,
    fun hs => ⟨(h.freeList hs).nodup, (h.freeList hs).inFile⟩, fun hs => ?_⟩
  · obtain rfl | hqp := eq_or_ne q p
    · rw [pages_setPage_self, hslots, h.pages q hq, if_pos rfl]
    · rw [pages_setPage_of_ne hqp, h.pages q hq, if_neg hqp, append_nil]
  · exact sound_setPage (h.sound hs) (DataPage.bounded_addSlotInner ((h.sound hs).bounded p) hadd)
      (Older.append ((h.sound hs).older p) hslots)

/-- A write adds a slot with the next logical id to the tail page, or it adds the first slot to a
page that was not in use, which becomes the tail. -/
theorem writeTuple_placed {name : String} {t : DataTable}
    (h : s.writeTuple name t header tuple = some (s', rid)) :
    ∃ ref, s.Placed s' rid ⟨rid.slotId, header, ref⟩ ∧ (Inline tuple → ref = .inline tuple) ∧
      (rid.pageId = t.dataPageTail ∧ s'.tables = s.tables ∧
          (s.Used t.dataPageTail → rid.slotId = (s.pages t.dataPageTail).nextLogicalId) ∨
        ¬ s.Used rid.pageId ∧ (s.FreeList → s'.Used rid.pageId) ∧
        (s'.pages rid.pageId).slots = [⟨rid.slotId, header, ref⟩] ∧
          s'.tables = update s.tables name (some { t with dataPageTail := rid.pageId })) := by
  have hkeeps := keeps_storeTuple s tuple
  have hinline : Inline tuple → (s.storeTuple tuple).1 = .inline tuple := fun h => by
    rw [storeTuple_of_inline h]
  unfold writeTuple at h
  generalize s.storeTuple tuple = stored at h hkeeps hinline
  obtain ⟨ref, u⟩ := stored
  refine ⟨ref, ?_⟩
  dsimp only at h hkeeps hinline
  split at h
  case h_1 page id hadd =>
    obtain ⟨rfl, rfl⟩ := Prod.mk.inj (Option.some.inj h)
    refine ⟨hkeeps.placed hadd, hinline, .inl ⟨rfl, hkeeps.tables, fun hused => ?_⟩⟩
    rw [(DataPage.addSlotInner_eq_some hadd).1, hkeeps.pages _ hused]
    rfl
  case h_2 hfull =>
    obtain ⟨⟨page, id⟩, hadd, hmk⟩ := map_eq_some_iff.mp h
    obtain ⟨rfl, rfl⟩ := Prod.mk.inj hmk
    obtain ⟨-, hslots, -, -⟩ := DataPage.addSlotInner_eq_some hadd
    have hkeeps' := hkeeps.trans (keeps_allocatePage u)
    have hnew : ¬ s.Used u.allocatePage.1 := fun hused => not_used_allocatePage u (hkeeps.used _ hused)
    refine ⟨⟨rfl, fun q hq => ?_, hkeeps'.used, hkeeps'.scanTables, hkeeps'.fileLen, hkeeps'.freePages,
      fun hs => ⟨(hkeeps'.freeList hs).nodup, (hkeeps'.freeList hs).inFile⟩, fun hs => ?_⟩, hinline,
      .inr ⟨hnew, fun hs => used_allocatePage (hkeeps.freeList hs), ?_, ?_⟩⟩
    · have hne := ne_of_used hnew hq
      change (((u.allocatePage.2.setNext t.dataPageTail _).setPage _ page).pages q).slots = _
      rw [pages_setPage_of_ne hne, slots_setNext, hkeeps'.pages q hq, if_neg hne, append_nil]
    · have hsound := sound_setNext (hkeeps'.sound hs) t.dataPageTail u.allocatePage.1
      have hdisk : (u.allocatePage.2.setNext t.dataPageTail u.allocatePage.1).disk u.allocatePage.1 = .init := by
        change u.allocatePage.2.disk _ = _
        rw [disk_allocatePage, if_pos rfl]
      have hbounded : page.Bounded :=
        DataPage.bounded_addSlotInner (by simp [DataPage.Bounded, DataPage.init]) hadd
      have hplaced := sound_setPage hsound (p := u.allocatePage.1) hbounded
        (by simp [hdisk, DataPage.Older, DataPage.init, DataPage.getSlot])
      exact ⟨hplaced.bounded, hplaced.older⟩
    · change (((u.allocatePage.2.setNext t.dataPageTail _).setPage _ page).pages _).slots = _
      rw [pages_setPage_self, hslots]
      rfl
    · change update u.allocatePage.2.tables _ _ = _
      rw [hkeeps'.tables]

end DataStore

end RTsql.Storage

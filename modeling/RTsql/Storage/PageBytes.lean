import RTsql.Library.Bytes
import RTsql.Library.Run
import RTsql.Storage.SlottedPage

/-!
# Slotted pages in bytes

`SlottedPage`, `SlottedPageRef`, `SlottedPageHeader` and `Slot` of `slotted_page.rs`, for records of
any size. (The pages of the B-tree, whose records have one size, are modelled in
`Storage.SlottedPage` without bytes.)

A page is its bytes and the copy of its header that the writer keeps. The operations return the page
also when they fail, as the source changes it in place. Numbers are those of the source, modulo `2 ^
16` where they are added. -/

namespace RTsql.Storage.PageBytes

open RTsql.Library

/-- An entry of the slot directory. -/
structure Slot where
  logicalId : ℕ
  offset : ℕ
  length : ℕ
  deriving DecidableEq

def Slot.toBytes (slot : Slot) : List UInt8 :=
  encodeLE 2 slot.logicalId ++ encodeLE 2 slot.offset ++ encodeLE 2 slot.length

def Slot.ofBytes (bs : List UInt8) : Slot :=
  ⟨decodeLE (bs.take 2), decodeLE ((bs.drop 2).take 2), decodeLE (bs.drop 4)⟩

/-- `PageWriteError`. -/
inductive PageWriteError where
  | pageFull
  | slotCountExceedsCapacity (slotCount : ℕ)
  | slotPayloadOutOfBounds (slotIndex : ℕ) (slot : Slot)
  | lengthMismatch (slotIndex slotLength writeLength : ℕ)
  | slotIndexOutOfRange
  | logicalIdNotFound (logicalId : ℕ)
  deriving DecidableEq

/-- `MAX_PAGE_SLOTS`. -/
def maxPageSlots : ℕ := (pageSize - headerSize) / slotSize

/-- `slot_payload_in_bounds`. -/
def slotPayloadInBounds (slotCount start stop : ℕ) : Bool :=
  headerSize ≤ start && stop ≤ pageSize - slotCount * slotSize

/-! ### The header -/

/-- `SlottedPageHeader`. -/
structure Header where
  pageType : UInt8
  slotCount : ℕ
  freeSpaceOffset : ℕ
  nextPageId : ℕ
  nextLogicalId : ℕ
  padding : List UInt8

namespace Header

def new (pageType : UInt8) : Header := ⟨pageType, 0, headerSize, 0, 0, [0, 0, 0]⟩

def toBytes (h : Header) : List UInt8 :=
  [h.pageType] ++ encodeLE 2 h.slotCount ++ encodeLE 2 h.freeSpaceOffset ++ encodeLE 4 h.nextPageId ++
    encodeLE 2 h.nextLogicalId ++ h.padding

/-- It is written over the first bytes of the page. -/
def serialize (h : Header) (data : ℕ → UInt8) : ℕ → UInt8 := write data 0 h.toBytes

def deserialize (data : ℕ → UInt8) : Header where
  pageType := data 0
  slotCount := decodeLE (slice data 1 2)
  freeSpaceOffset := decodeLE (slice data 3 2)
  nextPageId := decodeLE (slice data 5 4)
  nextLogicalId := decodeLE (slice data 9 2)
  padding := slice data 11 3

def slotCountExceedsCapacity (h : Header) : Bool := maxPageSlots < h.slotCount

end Header

/-! ### Pages -/

/-- A page and its header. -/
structure Page where
  data : ℕ → UInt8
  header : Header

/-- Where the slot is. -/
def slotStart (index : ℕ) : ℕ := pageSize - (index + 1) * slotSize

namespace Page

/-- `SlottedPage::new` and `SlottedPageRef::new`. -/
def new (data : ℕ → UInt8) : Page := ⟨data, .deserialize data⟩

/-- `SlottedPage::init`. -/
def init (data : ℕ → UInt8) (pageType : UInt8) : Page :=
  ⟨(Header.new pageType).serialize data, .new pageType⟩

def slotCount (p : Page) : ℕ := p.header.slotCount

def getSlot (p : Page) (index : ℕ) : Option Slot :=
  if index < p.slotCount then some (.ofBytes (slice p.data (slotStart index) slotSize)) else none

/-- The first slot with the id, and its position. -/
def getSlotByLogicalId (p : Page) (logicalId : ℕ) : Option (Slot × ℕ) :=
  (List.range p.slotCount).findSome? fun i =>
    (p.getSlot i).bind fun slot => if slot.logicalId = logicalId then some (slot, i) else none

def getSlotData (p : Page) (slot : Slot) : List UInt8 := slice p.data slot.offset slot.length

/-- `add_slot_inner`. -/
def addSlotInner (p : Page) (data : List UInt8) (forced : Option ℕ) :
    Page × Except PageWriteError (ℕ × ℕ) :=
  if p.header.slotCountExceedsCapacity then (p, .error (.slotCountExceedsCapacity p.slotCount))
  else if pageSize - p.slotCount * slotSize < p.header.freeSpaceOffset + (slotSize + data.length) then
    (p, .error .pageFull)
  else
    let logicalId := forced.getD p.header.nextLogicalId
    let slot : Slot := ⟨logicalId, p.header.freeSpaceOffset % 2 ^ 16, data.length % 2 ^ 16⟩
    let bytes := write (write p.data p.header.freeSpaceOffset data) (slotStart p.slotCount) slot.toBytes
    let header := { p.header with
      slotCount := (p.header.slotCount + 1) % 2 ^ 16
      freeSpaceOffset := (p.header.freeSpaceOffset + data.length % 2 ^ 16) % 2 ^ 16
      nextLogicalId := match forced with
        | none => (p.header.nextLogicalId + 1) % 2 ^ 16
        | some id => max p.header.nextLogicalId (min (id + 1) (2 ^ 16 - 1)) }
    (⟨header.serialize bytes, header⟩, .ok (logicalId, p.slotCount))

def addSlot (p : Page) (data : List UInt8) : Page × Except PageWriteError (ℕ × ℕ) :=
    p.addSlotInner data none

def addSlotWithLogicalId (p : Page) (data : List UInt8) (logicalId : ℕ) :
    Page × Except PageWriteError ℕ :=
  let (p, result) := p.addSlotInner data (some logicalId)
  (p, result.map Prod.snd)

/-- One round of the loop of `delete_slot`: the next slot takes the place of slot `i`. -/
def moveSlot (data : ℕ → UInt8) (i : ℕ) : ℕ → UInt8 :=
  write data (slotStart i) (slice data (slotStart (i + 1)) slotSize)

def deleteSlot (p : Page) (index : ℕ) : Page × Except PageWriteError Unit :=
  if p.header.slotCountExceedsCapacity then (p, .error (.slotCountExceedsCapacity p.slotCount))
  else if p.slotCount ≤ index then (p, .error .slotIndexOutOfRange)
  else
    let moved := (List.range' index (p.slotCount - 1 - index)).foldl moveSlot p.data
    let bytes := write moved (pageSize - p.slotCount * slotSize) (List.replicate slotSize 0)
    let header := { p.header with slotCount := p.header.slotCount - 1 }
    (⟨header.serialize bytes, header⟩, .ok ())

def deleteSlotByLogicalId (p : Page) (logicalId : ℕ) : Page × Except PageWriteError Unit :=
  if p.header.slotCountExceedsCapacity then (p, .error (.slotCountExceedsCapacity p.slotCount))
  else
    match p.getSlotByLogicalId logicalId with
    | none => (p, .error (.logicalIdNotFound logicalId))
    | some (_, index) => p.deleteSlot index

def updateSlotInPlace (p : Page) (logicalId : ℕ) (data : List UInt8) :
    Page × Except PageWriteError Unit :=
  if p.header.slotCountExceedsCapacity then (p, .error (.slotCountExceedsCapacity p.slotCount))
  else
    match p.getSlotByLogicalId logicalId with
    | none => (p, .error (.logicalIdNotFound logicalId))
    | some (slot, index) =>
      if slot.length ≠ data.length then (p, .error (.lengthMismatch index slot.length data.length))
      else if ¬ slotPayloadInBounds p.slotCount slot.offset (slot.offset + slot.length) then
        (p, .error (.slotPayloadOutOfBounds index slot))
      else ({ p with data := write p.data slot.offset data }, .ok ())

/-- `free_space`. -/
def freeSpace (p : Page) : ℕ :=
  if p.header.slotCountExceedsCapacity then 0 else pageSize - p.slotCount * slotSize - p.header.freeSpaceOffset

end Page

/-! ### Runs -/

/-- An operation on the page. -/
inductive Op where
  | add (data : List UInt8)
  | addWithLogicalId (data : List UInt8) (logicalId : ℕ)
  | delete (index : ℕ)
  | deleteByLogicalId (logicalId : ℕ)
  | update (logicalId : ℕ) (data : List UInt8)

/-- A page, and for each id what was last written under it, if it was not deleted since. -/
structure State where
  page : Page
  contents : ℕ → Option (List UInt8)

/-- The page after an operation, with the id and what is now under it, or the error. -/
def Op.apply (p : Page) : Op → Page × Except PageWriteError (ℕ × Option (List UInt8))
  | add data =>
    let (p, result) := p.addSlot data
    (p, result.map fun r => (r.1, some data))
  | addWithLogicalId data id =>
    let (p, result) := p.addSlotWithLogicalId data id
    (p, result.map fun _ => (id, some data))
  | delete index =>
    let (p', result) := p.deleteSlot index
    (p', result.map fun _ => (((p.getSlot index).map Slot.logicalId).getD 0, none))
  | deleteByLogicalId id =>
    let (p, result) := p.deleteSlotByLogicalId id
    (p, result.map fun _ => (id, none))
  | update id data =>
    let (p, result) := p.updateSlotInPlace id data
    (p, result.map fun _ => (id, some data))

def State.record (s : State) (p : Page) : Except PageWriteError (ℕ × Option (List UInt8)) → State
  | .ok (id, bytes) => ⟨p, Function.update s.contents id bytes⟩
  | .error _ => { s with page := p }

def step (s : State) (op : Op) : Option State := some (s.record (op.apply s.page).1 (op.apply s.page).2)

def init (data : ℕ → UInt8) (pageType : UInt8) : State := ⟨.init data pageType, fun _ => none⟩

/-- An id that is given is a `u16` and not in use, and `add_slot` has an id left. -/
def Ok (s : State) : Op → Prop
  | .add _ => s.page.header.nextLogicalId < 2 ^ 16 - 1
  | .addWithLogicalId _ id => id < 2 ^ 16 ∧ s.contents id = none
  | _ => True

instance (s : State) (op : Op) : Decidable (Ok s op) := by
  unfold Ok
  split <;> infer_instance

end RTsql.Storage.PageBytes

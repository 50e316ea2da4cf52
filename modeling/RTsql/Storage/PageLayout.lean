import Mathlib.Data.List.Induction
import Mathlib.Data.List.Nodup
import Mathlib.Order.MinMax
import RTsql.Storage.PageBytes

/-!
# The layout of a slotted page

Every run of the operations leaves a page that represents a list of slots with their bytes
(`Valid`): the bytes of different slots do not overlap, and lie between the header and the free
space, which the slot directory does not reach. So each id gives what was last written under it
(`page_keeps_contents`). -/

namespace RTsql.Storage.PageBytes

open Function List RTsql.Library

variable {data : ℕ → UInt8} {i j start len : ℕ} {h header : Header} {slot a b : Slot} {bs : List UInt8}

/-! ### Headers and slots -/

/-- The numbers have room in their fields. -/
structure Header.Fits (h : Header) : Prop where
  slotCount : h.slotCount < 2 ^ 16
  freeSpaceOffset : h.freeSpaceOffset < 2 ^ 16
  nextPageId : h.nextPageId < 2 ^ 32
  nextLogicalId : h.nextLogicalId < 2 ^ 16
  padding : h.padding.length = 3

theorem Header.length_toBytes (hf : h.Fits) : h.toBytes.length = 14 := by
  simp [Header.toBytes, hf.padding]

theorem Header.deserialize_serialize (hf : h.Fits) (data : ℕ → UInt8) :
    Header.deserialize (h.serialize data) = h := by
  have hslice {i len : ℕ} (hi : i + len ≤ 14) : slice
    (h.serialize data) i len = (h.toBytes.drop i).take len := by
    simpa [Header.serialize] using slice_write_part data 0 (hi.trans_eq (Header.length_toBytes hf).symm)
  have htype : h.serialize data 0 = h.pageType := by simp [Header.serialize, Header.toBytes, write]
  have hcount : decodeLE (encodeLE 2 h.slotCount) = h.slotCount := decodeLE_encodeLE hf.slotCount
  have hfree : decodeLE (encodeLE 2 h.freeSpaceOffset) = h.freeSpaceOffset :=
    decodeLE_encodeLE hf.freeSpaceOffset
  have hnext : decodeLE (encodeLE 4 h.nextPageId) = h.nextPageId := decodeLE_encodeLE hf.nextPageId
  have hid : decodeLE (encodeLE 2 h.nextLogicalId) = h.nextLogicalId :=
    decodeLE_encodeLE hf.nextLogicalId
  simp [Header.deserialize, hslice, htype, Header.toBytes, drop_append, drop_eq_nil_of_le,
    take_of_length_le, hcount, hfree, hnext, hid, hf.padding]

/-- The header is written below everything else. -/
theorem slice_serialize (hf : h.Fits) (hstart : headerSize ≤ start) :
    slice (h.serialize data) start len = slice data start len := by
  refine slice_write_of_disjoint (.inr ?_)
  rw [Header.length_toBytes hf]
  exact Nat.le_trans (by decide) hstart

/-- What is written behind the header does not change it. -/
theorem deserialize_write (hstart : headerSize ≤ start) :
    Header.deserialize (write data start bs) = Header.deserialize data := by
  have hslice {k len : ℕ} (hk : k + len ≤ headerSize) : slice (write data start bs) k len =
    slice data k len := slice_write_of_disjoint (.inl (hk.trans hstart))
  have hzero : write data start bs 0 = data 0 := write_of_lt (lt_of_lt_of_le (by decide) hstart)
  simp only [Header.deserialize, hzero, hslice (show 1 + 2 ≤ headerSize by decide),
    hslice (show 3 + 2 ≤ headerSize by decide), hslice (show 5 + 4 ≤ headerSize by decide),
    hslice (show 9 + 2 ≤ headerSize by decide), hslice (show 11 + 3 ≤ headerSize by decide)]

theorem Slot.ofBytes_toBytes (hid : slot.logicalId < 2 ^ 16) (hoffset : slot.offset < 2 ^ 16)
    (hlength : slot.length < 2 ^ 16) : Slot.ofBytes slot.toBytes = slot := by
  have h₁ : slot.toBytes.take 2 = encodeLE 2 slot.logicalId := by simp [Slot.toBytes]
  have h₂ : (slot.toBytes.drop 2).take 2 = encodeLE 2 slot.offset := by simp [Slot.toBytes]
  have h₃ : slot.toBytes.drop 4 = encodeLE 2 slot.length := by simp [Slot.toBytes, drop_append]
  have hid' : decodeLE (encodeLE 2 slot.logicalId) = slot.logicalId := decodeLE_encodeLE hid
  have hoffset' : decodeLE (encodeLE 2 slot.offset) = slot.offset := decodeLE_encodeLE hoffset
  have hlength' : decodeLE (encodeLE 2 slot.length) = slot.length := decodeLE_encodeLE hlength
  simp only [Slot.ofBytes, h₁, h₂, h₃, hid', hoffset', hlength']

@[simp] theorem Slot.length_toBytes (slot : Slot) : slot.toBytes.length = slotSize := by
  simp [Slot.toBytes, slotSize]

/-- The slot in the directory. -/
def readSlot (data : ℕ → UInt8) (i : ℕ) : Slot := .ofBytes (slice data (slotStart i) slotSize)

/-- What is written beside the slot does not change it. -/
theorem readSlot_write (h : start + bs.length ≤ slotStart i ∨ slotStart i + slotSize ≤ start) :
    readSlot (write data start bs) i = readSlot data i := by
  rw [readSlot, slice_write_of_disjoint h.symm, readSlot]

theorem readSlot_write_self (hid : slot.logicalId < 2 ^ 16) (hoffset : slot.offset < 2 ^ 16)
    (hlength : slot.length < 2 ^ 16) : readSlot (write data (slotStart i) slot.toBytes) i = slot := by
  rw [readSlot, ← Slot.length_toBytes slot, slice_write, Slot.ofBytes_toBytes hid hoffset hlength]

/-! ### What a page represents -/

/-- A slot, and the bytes it points to. -/
structure Item where
  slot : Slot
  data : List UInt8

/-- The bytes of the two do not overlap. -/
def Slot.Apart (a b : Slot) : Prop := a.offset + a.length ≤ b.offset ∨ b.offset + b.length ≤ a.offset

/-- The page has these slots, in this order. -/
structure Valid (p : Page) (items : List Item) : Prop where
  header : Header.deserialize p.data = p.header
  fits : p.header.Fits
  count : p.header.slotCount = items.length
  slot : ∀ i (h : i < items.length), readSlot p.data i = items[i].slot
  data : ∀ item ∈ items, slice p.data item.slot.offset item.slot.length = item.data
  id_lt : ∀ item ∈ items, item.slot.logicalId < 2 ^ 16
  /-- The bytes lie between the header and the free space, -/
  low : ∀ item ∈ items, headerSize ≤ item.slot.offset
  high : ∀ item ∈ items, item.slot.offset + item.slot.length ≤ p.header.freeSpaceOffset
  base : headerSize ≤ p.header.freeSpaceOffset
  /-- and the directory behind it. -/
  room : p.header.freeSpaceOffset + items.length * slotSize ≤ pageSize
  apart : items.Pairwise fun a b => a.slot.Apart b.slot
  ids : (items.map fun item => item.slot.logicalId).Nodup
  /-- Ids that will be allocated are larger, unless they have run out. -/
  next : ∀ item ∈ items, item.slot.logicalId < p.header.nextLogicalId ∨
    p.header.nextLogicalId = 2 ^ 16 - 1

variable {p p' : Page} {items : List Item} {bytes : List UInt8} {e : PageWriteError}
  {id index k : ℕ} {s : State} {forced : Option ℕ} {α β : Type} {f : α → β}
  {x : Page × Except PageWriteError α} {op : Op}

theorem Valid.getSlot (h : Valid p items) (i : ℕ) : p.getSlot i = items[i]?.map Item.slot := by
  unfold Page.getSlot Page.slotCount
  rw [h.count]
  split
  case isTrue hi =>
    rw [getElem?_eq_getElem hi, Option.map_some, ← h.slot i hi]
    rfl
  case isFalse hi => simp [getElem?_eq_none (not_lt.mp hi)]

theorem Valid.not_exceeds (h : Valid p items) : p.header.slotCountExceedsCapacity = false := by
  have := h.room
  have := h.base
  simp only [Header.slotCountExceedsCapacity, maxPageSlots, h.count, pageSize, headerSize, slotSize,
    decide_eq_false_iff_not]
    at *
  omega

/-- A slot that is found has the id. -/
theorem Valid.of_getSlotByLogicalId (h : Valid p items)
    (hfind : p.getSlotByLogicalId id = some (slot, i)) :
    ∃ hi : i < items.length, items[i].slot = slot ∧ slot.logicalId = id := by
  obtain ⟨j, -, hj⟩ := exists_of_findSome?_eq_some hfind
  obtain ⟨slot', hslot', hj⟩ := Option.bind_eq_some_iff.mp hj
  obtain ⟨hid, hj⟩ := Option.ite_none_right_eq_some.mp hj
  obtain ⟨rfl, rfl⟩ : slot' = slot ∧ j = i := by simpa using hj
  rw [h.getSlot, Option.map_eq_some_iff] at hslot'
  obtain ⟨item, hitem, rfl⟩ := hslot'
  obtain ⟨hi, rfl⟩ := List.getElem?_eq_some_iff.mp hitem
  exact ⟨hi, rfl, hid⟩

/-- Items of other slots are elsewhere. -/
theorem Valid.logicalId_ne (hp : Valid p items) (hi : i < items.length) (hj : j < items.length)
    (hne : j ≠ i) : items[j].slot.logicalId ≠ items[i].slot.logicalId := by
  intro heq
  refine hne ((getElem?_inj (by simpa using hj) hp.ids).mp ?_)
  simp [hi, hj, heq]

theorem Valid.getSlotByLogicalId_of_lt (h : Valid p items) (hi : i < items.length) :
    p.getSlotByLogicalId items[i].slot.logicalId = some (items[i].slot, i) := by
  cases hfind : p.getSlotByLogicalId items[i].slot.logicalId with
  | none =>
    have hmem : i ∈ List.range p.slotCount := by rwa [mem_range, Page.slotCount, h.count]
    have hnone := findSome?_eq_none_iff.mp hfind i hmem
    simp [h.getSlot, getElem?_eq_getElem hi] at hnone
  | some found =>
    obtain ⟨slot, j⟩ := found
    obtain ⟨hj, rfl, hid⟩ := h.of_getSlotByLogicalId hfind
    obtain rfl : j = i := by_contra fun hne => h.logicalId_ne hi hj hne hid
    rfl

theorem Valid.getSlotByLogicalId_of_forall_ne (h : Valid p items)
    (hid : ∀ item ∈ items, item.slot.logicalId ≠ id) : p.getSlotByLogicalId id = none := by
  cases hfind : p.getSlotByLogicalId id with
  | none => rfl
  | some found =>
    obtain ⟨slot, j⟩ := found
    obtain ⟨hj, rfl, hid'⟩ := h.of_getSlotByLogicalId hfind
    exact absurd hid' (hid _ (getElem_mem hj))

/-! ### Adding a slot -/

/-- The header is written below the directory. -/
theorem readSlot_serialize (hf : h.Fits) (hi : headerSize ≤ slotStart i) :
    readSlot (h.serialize data) i = readSlot data i := by
  rw [readSlot, slice_serialize hf hi, readSlot]

/-- The page with one slot more. -/
theorem Valid.append (h : Valid p items) (hfits : header.Fits)
    (hcount : header.slotCount = items.length + 1)
    (hfree : header.freeSpaceOffset = p.header.freeSpaceOffset + bytes.length)
    (hroom : p.header.freeSpaceOffset + bytes.length + (items.length + 1) * slotSize ≤ pageSize)
    (hid : id < 2 ^ 16) (hfresh : ∀ item ∈ items, item.slot.logicalId ≠ id)
    (hnext : ∀ item ∈ items, item.slot.logicalId < header.nextLogicalId ∨
      header.nextLogicalId = 2 ^ 16 - 1)
    (hnext' : id < header.nextLogicalId ∨ header.nextLogicalId = 2 ^ 16 - 1) :
    Valid ⟨header.serialize (write (write p.data p.header.freeSpaceOffset bytes) (slotStart items.length)
        (Slot.mk id p.header.freeSpaceOffset bytes.length).toBytes), header⟩
      (items ++ [⟨⟨id, p.header.freeSpaceOffset, bytes.length⟩, bytes⟩]) where
  header := Header.deserialize_serialize hfits _
  fits := hfits
  count := by simp [hcount]
  slot i hi := by
    have hbase := h.base
    rw [length_append, length_singleton] at hi
    have hhigh : headerSize ≤ slotStart i := by
      simp only [slotStart, pageSize, slotSize, headerSize] at *
      omega
    rw [readSlot_serialize hfits hhigh]
    obtain hi | rfl := Nat.lt_succ_iff_lt_or_eq.mp hi
    · rw [getElem_append_left hi, ← h.slot i hi, readSlot_write, readSlot_write]
      · simp only [slotStart, pageSize, slotSize] at *
        omega
      · simp only [Slot.length_toBytes, slotStart, pageSize, slotSize] at *
        omega
    · simp only [getElem_concat_length]
      refine readSlot_write_self hid ?_ ?_
      · simp only [pageSize, slotSize] at *
        omega
      · simp only [pageSize, slotSize] at *
        omega
  data item hitem := by
    have hbase := h.base
    rw [mem_append, mem_singleton] at hitem
    obtain hitem | rfl := hitem
    · have hlow := h.low item hitem
      have hhigh := h.high item hitem
      rw [slice_serialize hfits hlow, slice_write_of_disjoint, slice_write_of_disjoint (.inl hhigh),
        h.data item hitem]
      simp only [slotStart, pageSize, slotSize] at *
      omega
    · rw [slice_serialize hfits hbase, slice_write_of_disjoint, slice_write]
      simp only [slotStart, pageSize, slotSize] at *
      omega
  id_lt := by simpa [or_imp, forall_and] using ⟨h.id_lt, hid⟩
  low := by simpa [or_imp, forall_and] using ⟨h.low, h.base⟩
  high := by
    have hhigh (item : Item) (hitem : item ∈ items) :=
      (h.high item hitem).trans (Nat.le_add_right _ bytes.length)
    simpa [or_imp, forall_and, hfree] using hhigh
  base := by
    rw [hfree]
    exact h.base.trans (Nat.le_add_right _ _)
  room := by simpa [hfree] using hroom
  apart := by
    refine pairwise_append.mpr ⟨h.apart, pairwise_singleton _ _, fun item hitem new hnew => ?_⟩
    obtain rfl := mem_singleton.mp hnew
    exact .inl (h.high item hitem)
  ids := by
    rw [map_append, map_singleton, nodup_append]
    refine ⟨h.ids, nodup_singleton _, ?_⟩
    simpa using hfresh
  next := by simpa [or_imp, forall_and] using ⟨hnext, hnext'⟩

theorem Valid.addSlotInner (h : Valid p items) (hid : forced.getD p.header.nextLogicalId < 2 ^ 16)
    (hfresh : ∀ item ∈ items, item.slot.logicalId ≠ forced.getD p.header.nextLogicalId)
    (hnext : forced = none → p.header.nextLogicalId < 2 ^ 16 - 1)
    (hadd : p.addSlotInner bytes forced = (p', .ok (id, index))) :
    id = forced.getD p.header.nextLogicalId ∧
      Valid p' (items ++ [⟨⟨id, p.header.freeSpaceOffset, bytes.length⟩, bytes⟩]) := by
  unfold Page.addSlotInner at hadd
  rw [if_neg (by simp [h.not_exceeds])] at hadd
  split_ifs at hadd with hfull
  · simp at hadd
  have hcount : p.slotCount = items.length := h.count
  have hfits := h.fits
  -- The new bytes lie before the new slot.
  have hroom : p.header.freeSpaceOffset + bytes.length + (items.length + 1) * slotSize ≤ pageSize := by
    simp only [hcount, pageSize, slotSize] at *
    omega
  obtain ⟨rfl, hresult⟩ := Prod.mk.inj hadd
  obtain ⟨rfl, rfl⟩ : forced.getD p.header.nextLogicalId = id ∧ p.slotCount = index := by
    simpa using hresult
  refine ⟨rfl, ?_⟩
  have hfree : p.header.freeSpaceOffset + bytes.length < 2 ^ 16 := by
    simp only [pageSize, slotSize] at hroom
    omega
  have hoffset : p.header.freeSpaceOffset % 2 ^ 16 = p.header.freeSpaceOffset :=
    Nat.mod_eq_of_lt hfits.freeSpaceOffset
  have hlength : bytes.length % 2 ^ 16 = bytes.length := Nat.mod_eq_of_lt (by omega)
  have hlt : items.length + 1 < 2 ^ 16 := by
    simp only [pageSize, slotSize] at hroom
    omega
  have hslots : (p.header.slotCount + 1) % 2 ^ 16 = items.length + 1 := by
    rw [h.count, Nat.mod_eq_of_lt hlt]
  simp only [hoffset, hlength, hcount, hslots, Nat.mod_eq_of_lt hfree]
  cases forced with
  | none =>
    have hnext := hnext rfl
    have hmod : (p.header.nextLogicalId + 1) % 2 ^ 16 = p.header.nextLogicalId + 1 :=
      Nat.mod_eq_of_lt (by omega)
    simp only [hmod]
    refine h.append ⟨hlt, hfree, hfits.nextPageId, Nat.succ_lt_of_lt_pred hnext,
      hfits.padding⟩ rfl rfl hroom hid hfresh
      (fun item hitem => ?_) (.inl (Nat.lt_succ_self _))
    have hitem := h.next item hitem
    dsimp only
    omega
  | some id =>
    have hnextLt := hfits.nextLogicalId
    have hmax : max p.header.nextLogicalId (min (id + 1) (2 ^ 16 - 1)) ≤ 2 ^ 16 - 1 :=
      max_le (Nat.le_pred_of_lt hnextLt) (min_le_right _ _)
    refine h.append ⟨hlt, hfree, hfits.nextPageId, Nat.lt_of_le_pred (by decide) hmax,
      hfits.padding⟩ rfl rfl hroom hid
      hfresh (fun item hitem => ?_) ?_
    · refine (h.next item hitem).imp (lt_max_of_lt_left ·) fun heq => hmax.antisymm ?_
      exact heq.ge.trans (le_max_left _ _)
    · obtain hlt | heq := Nat.lt_or_eq_of_le (Nat.le_pred_of_lt hid)
      · exact .inl (lt_max_of_lt_right (lt_min (Nat.lt_succ_self id) hlt))
      · refine .inr (hmax.antisymm (le_max_of_le_right (le_min (heq.ge.trans (Nat.le_succ id)) le_rfl)))

/-! ### Deleting a slot -/

theorem readSlot_moveSlot (hi : (i + 2) * slotSize ≤ pageSize) (hj : (j + 1) * slotSize ≤ pageSize) :
    readSlot (Page.moveSlot data i) j = if j = i then readSlot data (i + 1) else readSlot data j := by
  split_ifs with hij
  · subst hij
    have hread := slice_write data (slotStart j) (slice data (slotStart (j + 1)) slotSize)
    rw [length_slice] at hread
    rw [readSlot, Page.moveSlot, hread, readSlot]
  · refine readSlot_write ?_
    simp only [length_slice, slotStart, pageSize, slotSize] at *
    omega

/-- After `k` rounds, the slots from `index` on are those behind them. -/
theorem readSlot_foldl_moveSlot (hk : (index + k + 1) * slotSize ≤ pageSize)
    (hj : (j + 1) * slotSize ≤ pageSize) :
    readSlot ((List.range' index k).foldl Page.moveSlot data) j =
      if index ≤ j ∧ j < index + k then readSlot data (j + 1) else readSlot data j := by
  induction k generalizing j with
  | zero => rw [if_neg (by omega)]; rfl
  | succ k ih =>
    have hk' : (index + k + 1) * slotSize ≤ pageSize := by
      simp only [pageSize, slotSize] at *
      omega
    rw [range'_1_concat, foldl_append, foldl_cons, foldl_nil,
      readSlot_moveSlot (i := index + k) hk hj]
    -- The slot behind the last one moved is still in its place.
    split_ifs with hlast hmoved hmoved
    · rw [ih hk' (by simpa [Nat.add_assoc] using hk), if_neg (by omega), hlast]
    · omega
    · rw [ih hk' hj, if_pos (by omega)]
    · rw [ih hk' hj, if_neg (by omega)]

/-- The bytes below the directory stay. -/
theorem slice_foldl_moveSlot (hk : start + len + (index + k + 1) * slotSize ≤ pageSize) :
    slice ((List.range' index k).foldl Page.moveSlot data) start len = slice data start len := by
  induction k with
  | zero => rfl
  | succ k ih =>
    rw [range'_1_concat, foldl_append, foldl_cons, foldl_nil, Page.moveSlot,
      slice_write_of_disjoint, ih]
    · simp only [pageSize, slotSize] at *
      omega
    · simp only [slotStart, pageSize, slotSize] at *
      omega

theorem Valid.deleteSlot (h : Valid p items) (hdelete : p.deleteSlot index = (p', .ok ())) :
    index < items.length ∧ p'.header.nextLogicalId = p.header.nextLogicalId ∧
    Valid p' (items.eraseIdx index) := by
  unfold Page.deleteSlot at hdelete
  rw [if_neg (by simp [h.not_exceeds])] at hdelete
  split_ifs at hdelete with hrange
  · simp at hdelete
  have hcount : p.slotCount = items.length := h.count
  have hindex : index < items.length := by omega
  have hbase := h.base
  have hroom := h.room
  have hlen : (items.eraseIdx index).length = items.length - 1 := length_eraseIdx_of_lt hindex
  have hsub : (items.eraseIdx index).Sublist items := eraseIdx_sublist ..
  obtain ⟨rfl, -⟩ := Prod.mk.inj hdelete
  refine ⟨hindex, rfl, ?_⟩
  rw [hcount]
  have hfits : Header.Fits { p.header with slotCount := p.header.slotCount - 1 } :=
    ⟨lt_of_le_of_lt (Nat.sub_le _ _) h.fits.slotCount, h.fits.freeSpaceOffset, h.fits.nextPageId,
      h.fits.nextLogicalId, h.fits.padding⟩
  exact {
    header := Header.deserialize_serialize hfits _
    fits := hfits
    count := by rw [hlen, ← h.count]
    slot := fun i hi => by
      have hhigh : headerSize ≤ slotStart i := by
        simp only [slotStart, pageSize, slotSize, headerSize] at *
        omega
      rw [readSlot_serialize hfits hhigh, readSlot_write, readSlot_foldl_moveSlot, getElem_eraseIdx]
      · split_ifs with h₁ h₂ h₂
        · omega
        · exact h.slot (i + 1) (by omega)
        · exact h.slot i (by omega)
        · omega
      · simp only [pageSize, slotSize, headerSize] at *
        omega
      · simp only [pageSize, slotSize, headerSize] at *
        omega
      · simp only [length_replicate, slotStart, pageSize, slotSize] at *
        omega
    data := fun item hitem => by
      have hmem := hsub.subset hitem
      have hlow := h.low item hmem
      have hhigh := h.high item hmem
      rw [slice_serialize hfits hlow, slice_write_of_disjoint, slice_foldl_moveSlot, h.data item hmem]
      · simp only [pageSize, slotSize] at *
        omega
      · omega
    id_lt := fun item hitem => h.id_lt item (hsub.subset hitem)
    low := fun item hitem => h.low item (hsub.subset hitem)
    high := fun item hitem => h.high item (hsub.subset hitem)
    base := hbase
    room := by
      rw [hlen]
      exact (Nat.add_le_add_left (Nat.mul_le_mul_right _ (Nat.sub_le _ _)) _).trans hroom
    apart := h.apart.sublist hsub
    ids := h.ids.sublist (hsub.map _)
    next := fun item hitem => h.next item (hsub.subset hitem) }

/-! ### Writing in place -/

theorem Slot.Apart.symm (h : a.Apart b) : b.Apart a := Or.symm h

theorem Valid.apart_of_ne (h : Valid p items) (hi : i < items.length) (hj : j < items.length)
    (hne : i ≠ j) : items[i].slot.Apart items[j].slot := by
  obtain hlt | hlt := Nat.lt_or_gt_of_ne hne
  · exact pairwise_iff_getElem.mp h.apart i j hi hj hlt
  · exact (pairwise_iff_getElem.mp h.apart j i hj hi hlt).symm

/-- The page with other bytes under a slot. -/
theorem Valid.set (h : Valid p items) (hi : i < items.length)
    (hlength : items[i].slot.length = bytes.length) :
    Valid { p with data := write p.data items[i].slot.offset bytes }
      (items.set i ⟨items[i].slot, bytes⟩) := by
  have hlow := h.low _ (getElem_mem hi)
  have hhigh := h.high _ (getElem_mem hi)
  have hroom := h.room
  have hslots : (items.set i ⟨items[i].slot, bytes⟩).map Item.slot = items.map Item.slot := by
    refine ext_getElem (by simp) fun j _ _ => ?_
    simp only [getElem_map, getElem_set]
    split_ifs with hij
    · subst hij
      rfl
    · rfl
  have hmem {Q : Slot → Prop} (hQ : ∀ item ∈ items, Q item.slot) : ∀ item ∈ items.set i
    ⟨items[i].slot, bytes⟩, Q item.slot := by
    rwa [← forall_mem_map (P := Q), hslots, forall_mem_map]
  exact {
    header := (deserialize_write hlow).trans h.header
    fits := h.fits
    count := by rw [length_set, ← h.count]
    slot := fun j hj => by
      rw [length_set] at hj
      rw [readSlot_write, h.slot j hj, getElem_set]
      · split_ifs with hij
        · subst hij
          rfl
        · rfl
      · simp only [slotStart, pageSize, slotSize] at *
        omega
    data := fun item hitem => by
      obtain ⟨j, hj, rfl⟩ := mem_iff_getElem.mp hitem
      rw [length_set] at hj
      rw [getElem_set]
      split_ifs with hij
      · rw [hlength, slice_write]
      · rw [slice_write_of_disjoint, h.data _ (getElem_mem hj)]
        rw [← hlength]
        exact (h.apart_of_ne hi hj hij).symm
    id_lt := hmem (Q := fun s => s.logicalId < _) h.id_lt
    low := hmem (Q := fun s => headerSize ≤ s.offset) h.low
    high := hmem (Q := fun s => s.offset + s.length ≤ _) h.high
    base := h.base
    room := by rwa [length_set]
    apart := by
      have hapart : (items.map Item.slot).Pairwise Slot.Apart := pairwise_map.mpr h.apart
      rw [← hslots] at hapart
      exact pairwise_map.mp hapart
    ids := by
      have hids := congrArg (List.map Slot.logicalId) hslots
      simp only [map_map] at hids
      exact (congrArg List.Nodup hids).mpr h.ids
    next := hmem (Q := fun s => s.logicalId < _ ∨ _) h.next }

theorem Valid.updateSlotInPlace (h : Valid p items)
    (hupdate : p.updateSlotInPlace id bytes = (p', .ok ())) :
    ∃ i, ∃ hi : i < items.length, items[i].slot.logicalId = id ∧ p'.header = p.header ∧
      Valid p' (items.set i ⟨items[i].slot, bytes⟩) := by
  unfold Page.updateSlotInPlace at hupdate
  rw [if_neg (by simp [h.not_exceeds])] at hupdate
  split at hupdate
  · simp at hupdate
  case h_2 slot index hfind =>
    split_ifs at hupdate with hlength hbounds
    · simp at hupdate
    · obtain ⟨hi, rfl, hid⟩ := h.of_getSlotByLogicalId hfind
      obtain ⟨rfl, -⟩ := Prod.mk.inj hupdate
      exact ⟨index, hi, hid, rfl, h.set hi (not_not.mp hlength)⟩
    · simp at hupdate

/-! ### Runs -/

/-- What is under an id, read as `SlottedPageRef` does. -/
def Page.lookup (p : Page) (id : ℕ) : Option (List UInt8) :=
  (p.getSlotByLogicalId id).map fun found => p.getSlotData found.1

section

variable (hp : Valid p items) {items' : List Item}

include hp

theorem Valid.lookup_of_lt (hi : i < items.length) :
    p.lookup items[i].slot.logicalId = some items[i].data := by
  rw [Page.lookup, hp.getSlotByLogicalId_of_lt hi]
  exact congrArg some (hp.data _ (getElem_mem hi))

theorem Valid.lookup_of_mem {item : Item} (hitem : item ∈ items) :
    p.lookup item.slot.logicalId = some item.data := by
  obtain ⟨i, hi, rfl⟩ := mem_iff_getElem.mp hitem
  exact hp.lookup_of_lt hi

theorem Valid.lookup_of_forall_ne (hid : ∀ item ∈ items, item.slot.logicalId ≠ id) :
    p.lookup id = none := by
  rw [Page.lookup, hp.getSlotByLogicalId_of_forall_ne hid, Option.map_none]

/-- Under an id that has the same items, there are the same bytes. -/
theorem Valid.lookup_congr (h' : Valid p' items')
    (hitems : ∀ item : Item, item.slot.logicalId = id → (item ∈ items' ↔ item ∈ items)) :
    p'.lookup id = p.lookup id := by
  by_cases hex : ∃ item ∈ items, item.slot.logicalId = id
  · obtain ⟨item, hitem, rfl⟩ := hex
    rw [hp.lookup_of_mem hitem, h'.lookup_of_mem ((hitems item rfl).mpr hitem)]
  · rw [hp.lookup_of_forall_ne fun item hitem hid => hex ⟨item, hitem, hid⟩,
      h'.lookup_of_forall_ne fun item hitem hid => hex ⟨item, (hitems item hid).mp hitem, hid⟩]

/-- The items of one id have changed. -/
theorem Valid.lookup_eq_update (h' : Valid p' items') {value : Option (List UInt8)}
    (hself : p'.lookup id = value)
    (hitems : ∀ item : Item, item.slot.logicalId ≠ id → (item ∈ items' ↔ item ∈ items)) :
    p'.lookup = update p.lookup id value := by
  funext id'
  obtain rfl | hne := eq_or_ne id' id
  · rw [update_self, hself]
  · rw [update_of_ne hne]
    exact hp.lookup_congr h' fun item hid => hitems item (hid ▸ hne)

theorem Valid.lookup_addSlotInner {offset : ℕ}
    (h' : Valid p' (items ++ [⟨⟨id, offset, bytes.length⟩, bytes⟩])) :
    p'.lookup = update p.lookup id (some bytes) := by
  refine hp.lookup_eq_update h'
    (h'.lookup_of_mem (mem_append_right _ (mem_singleton_self _))) fun item hne => ?_
  rw [mem_append, mem_singleton, or_iff_left]
  rintro rfl
  exact hne rfl

theorem Valid.lookup_deleteSlot (hi : i < items.length) (h' : Valid p' (items.eraseIdx i)) :
    p'.lookup = update p.lookup items[i].slot.logicalId none := by
  refine hp.lookup_eq_update h' (h'.lookup_of_forall_ne fun item hitem => ?_) fun item hne =>
    ⟨fun hitem => mem_of_mem_eraseIdx hitem, fun hitem => ?_⟩
  · obtain ⟨j, hj, hne, rfl⟩ := mem_eraseIdx_iff_getElem.mp hitem
    exact hp.logicalId_ne hi hj hne
  · obtain ⟨j, hj, rfl⟩ := mem_iff_getElem.mp hitem
    refine mem_eraseIdx_iff_getElem.mpr ⟨j, hj, ?_, rfl⟩
    rintro rfl
    exact hne rfl

theorem Valid.lookup_set (hi : i < items.length) (h' : Valid p' (items.set i ⟨items[i].slot, bytes⟩)) :
    p'.lookup = update p.lookup items[i].slot.logicalId (some bytes) := by
  refine hp.lookup_eq_update h' (h'.lookup_of_mem (mem_set hi _)) fun item hne =>
    ⟨fun hitem => ?_, fun hitem => ?_⟩
  · obtain hitem | rfl := mem_or_eq_of_mem_set hitem
    · exact hitem
    · exact absurd rfl hne
  · obtain ⟨j, hj, rfl⟩ := mem_iff_getElem.mp hitem
    refine mem_iff_getElem.mpr ⟨j, by simpa using hj, getElem_set_ne ?_ _⟩
    rintro rfl
    exact hne rfl

end

/-! ### Errors -/

theorem addSlotInner_of_error (h : p.addSlotInner bytes forced = (p', .error e)) : p' = p := by
  unfold Page.addSlotInner at h
  split_ifs at h <;> first | exact (Prod.mk.inj h).1.symm | nomatch (Prod.mk.inj h).2

theorem deleteSlot_of_error (h : p.deleteSlot index = (p', .error e)) : p' = p := by
  unfold Page.deleteSlot at h
  split_ifs at h <;> first | exact (Prod.mk.inj h).1.symm | nomatch (Prod.mk.inj h).2

theorem deleteSlotByLogicalId_of_error (h : p.deleteSlotByLogicalId id = (p', .error e)) : p' = p := by
  unfold Page.deleteSlotByLogicalId at h
  split_ifs at h
  · exact (Prod.mk.inj h).1.symm
  · split at h
    · exact (Prod.mk.inj h).1.symm
    · exact deleteSlot_of_error h

theorem updateSlotInPlace_of_error (h : p.updateSlotInPlace id bytes = (p', .error e)) : p' = p := by
  unfold Page.updateSlotInPlace at h
  split_ifs at h
  · exact (Prod.mk.inj h).1.symm
  · split at h
    · exact (Prod.mk.inj h).1.symm
    · split_ifs at h <;> first | exact (Prod.mk.inj h).1.symm | nomatch (Prod.mk.inj h).2

/-- An operation that returns something else fails when it does. -/
theorem of_map_eq_error (h : (x.1, x.2.map f) = (p', .error e)) : x = (p', .error e) := by
  obtain ⟨q, result⟩ := x
  obtain ⟨rfl, herror⟩ := Prod.mk.inj h
  cases result with
  | error => exact congrArg _ (congrArg _ (Except.error.inj herror))
  | ok => nomatch herror

theorem of_map_eq_ok {b : β} (h : (x.1, x.2.map f) = (p', .ok b)) : ∃ a, x = (p', .ok a) ∧ f a = b := by
  obtain ⟨q, result⟩ := x
  obtain ⟨rfl, hok⟩ := Prod.mk.inj h
  cases result with
  | error => nomatch hok
  | ok a => exact ⟨a, rfl, Except.ok.inj hok⟩

/-- An operation that fails leaves the page as it was. -/
theorem apply_of_error (h : op.apply p = (p', .error e)) : p' = p := by
  cases op with
  | add bytes => exact addSlotInner_of_error (of_map_eq_error h)
  | addWithLogicalId bytes id =>
    have hadd := of_map_eq_error (x := p.addSlotWithLogicalId bytes id) h
    exact addSlotInner_of_error (of_map_eq_error hadd)
  | delete index => exact deleteSlot_of_error (of_map_eq_error h)
  | deleteByLogicalId id => exact deleteSlotByLogicalId_of_error (of_map_eq_error h)
  | update id bytes => exact updateSlotInPlace_of_error (of_map_eq_error h)

/-! ### The invariant -/

/-- The page is laid out well, and has what was written. -/
def Inv (s : State) : Prop := (∃ items, Valid s.page items) ∧ s.page.lookup = s.contents

theorem Inv.add (h : Inv s) (forced : Option ℕ) (hid : forced.getD s.page.header.nextLogicalId < 2 ^ 16)
    (hfresh : s.contents (forced.getD s.page.header.nextLogicalId) = none)
    (hnext : forced = none → s.page.header.nextLogicalId < 2 ^ 16 - 1)
    (hadd : s.page.addSlotInner bytes forced = (p', .ok (id, index))) :
    id = forced.getD s.page.header.nextLogicalId ∧ Inv ⟨p', update s.contents id (some bytes)⟩ := by
  obtain ⟨⟨items, hv⟩, hcontents⟩ := h
  have hne : ∀ item ∈ items, item.slot.logicalId ≠ forced.getD s.page.header.nextLogicalId := by
    intro item hitem heq
    rw [← heq, ← hcontents, hv.lookup_of_mem hitem] at hfresh
    simp at hfresh
  obtain ⟨heq, hv'⟩ := hv.addSlotInner hid hne hnext hadd
  exact ⟨heq, ⟨_, hv'⟩, by rw [hv.lookup_addSlotInner hv', hcontents]⟩

theorem Inv.delete (h : Inv s) (hdelete : s.page.deleteSlot index = (p', .ok ())) :
    ∃ slot, s.page.getSlot index = some slot ∧ Inv ⟨p', update s.contents slot.logicalId none⟩ := by
  obtain ⟨⟨items, hv⟩, hcontents⟩ := h
  obtain ⟨hi, -, hv'⟩ := hv.deleteSlot hdelete
  refine ⟨items[index].slot, by simp [hv.getSlot, hi], ⟨_, hv'⟩, ?_⟩
  rw [hv.lookup_deleteSlot hi hv', hcontents]

theorem Inv.deleteByLogicalId (h : Inv s)
    (hdelete : s.page.deleteSlotByLogicalId id = (p', .ok ())) :
    Inv ⟨p', update s.contents id none⟩ := by
  have ⟨⟨items, hv⟩, _⟩ := h
  unfold Page.deleteSlotByLogicalId at hdelete
  rw [if_neg (by simp [hv.not_exceeds])] at hdelete
  split at hdelete
  · simp at hdelete
  case h_2 slot index hfind =>
    obtain ⟨slot', hslot', hinv⟩ := h.delete hdelete
    obtain ⟨hi, hslot, rfl⟩ := hv.of_getSlotByLogicalId hfind
    obtain rfl : slot = slot' := by simpa [hv.getSlot, hi, hslot] using hslot'
    exact hinv

/-- An operation that succeeds. -/
theorem Inv.apply {bytes : Option (List UInt8)} (h : Inv s) (hok : Ok s op)
    (hop : op.apply s.page = (p', .ok (id, bytes))) : Inv ⟨p', update s.contents id bytes⟩ := by
  have ⟨⟨items, hv⟩, hcontents⟩ := h
  cases op with
  | add data =>
    obtain ⟨⟨id', index⟩, hadd, heq⟩ := of_map_eq_ok hop
    obtain ⟨rfl, rfl⟩ := Prod.mk.inj heq
    have hnext : s.page.header.nextLogicalId < 2 ^ 16 - 1 := hok
    refine (h.add none (Nat.lt_of_lt_pred hnext) ?_ (fun _ => hnext) hadd).2
    rw [← hcontents]
    refine hv.lookup_of_forall_ne fun item hitem => ?_
    obtain hlt | heq := hv.next item hitem
    · exact hlt.ne
    · exact absurd heq hnext.ne
  | addWithLogicalId data id' =>
    obtain ⟨index, hadd, heq⟩ := of_map_eq_ok (x := s.page.addSlotWithLogicalId data id') hop
    obtain ⟨rfl, rfl⟩ := Prod.mk.inj heq
    obtain ⟨⟨id'', index'⟩, hadd, -⟩ := of_map_eq_ok hadd
    obtain ⟨rfl, hinv⟩ := h.add (some id') hok.1 hok.2 nofun hadd
    exact hinv
  | delete index =>
    obtain ⟨_, hdelete, heq⟩ := of_map_eq_ok hop
    obtain ⟨rfl, rfl⟩ := Prod.mk.inj heq
    obtain ⟨slot, hslot, hinv⟩ := h.delete hdelete
    simpa [hslot] using hinv
  | deleteByLogicalId id' =>
    obtain ⟨_, hdelete, heq⟩ := of_map_eq_ok hop
    obtain ⟨rfl, rfl⟩ := Prod.mk.inj heq
    exact h.deleteByLogicalId hdelete
  | update id' data =>
    obtain ⟨_, hupdate, heq⟩ := of_map_eq_ok hop
    obtain ⟨rfl, rfl⟩ := Prod.mk.inj heq
    obtain ⟨i, hi, rfl, -, hv'⟩ := hv.updateSlotInPlace hupdate
    exact ⟨⟨_, hv'⟩, by rw [hv.lookup_set hi hv', hcontents]⟩

theorem inv_step (s : State) (op : Op) (s' : State) (h : Inv s) (hok : Ok s op)
    (hs : step s op = some s') : Inv s' := by
  rw [step, Option.some.injEq] at hs
  subst hs
  generalize hop : op.apply s.page = r
  obtain ⟨p', result⟩ := r
  cases result with
  | error e =>
    obtain rfl := apply_of_error hop
    exact h
  | ok r => exact h.apply hok hop

theorem Header.fits_new (pageType : UInt8) : (Header.new pageType).Fits :=
  ⟨Nat.two_pow_pos 16, show headerSize < 2 ^ 16 by decide, Nat.two_pow_pos 32, Nat.two_pow_pos 16, rfl⟩

/-- A new page has no slot. -/
theorem inv_init (data : ℕ → UInt8) (pageType : UInt8) : Inv (init data pageType) := by
  have hvalid : Valid (Page.init data pageType) [] :=
    { header := Header.deserialize_serialize (Header.fits_new pageType) data
      fits := Header.fits_new pageType
      count := rfl
      slot := nofun
      data := nofun
      id_lt := nofun
      low := nofun
      high := nofun
      base := le_rfl
      room := show headerSize ≤ pageSize by decide
      apart := .nil
      ids := .nil
      next := nofun }
  exact ⟨⟨[], hvalid⟩, funext fun id => hvalid.lookup_of_forall_ne nofun⟩

/-! ### The layout of the page -/

/-- The slots of the page, in the order of the directory. -/
def Page.slots (p : Page) : List Slot := (List.range p.slotCount).filterMap p.getSlot

theorem Valid.slots (h : Valid p items) : p.slots = items.map Item.slot := by
  have hget : p.getSlot = fun i => (items.map Item.slot)[i]? := funext fun i => by
    rw [h.getSlot, getElem?_map]
  rw [Page.slots, Page.slotCount, h.count, hget, ← length_map (f := Item.slot)]
  generalize items.map Item.slot = slots
  induction slots using List.reverseRecOn with
  | nil => rfl
  | append_singleton slots slot ih =>
    rw [length_append, length_singleton, range_succ, filterMap_append]
    have hsame : (List.range slots.length).filterMap (fun i => (slots ++ [slot])[i]?) =
        (List.range slots.length).filterMap fun i => slots[i]? :=
      filterMap_congr fun i hi => getElem?_append_left (mem_range.mp hi)
    rw [hsame, ih]
    simp

/-- Where the bytes of the slots may be: apart from each other, behind the header, and before the
free space, which ends where the directory begins. -/
structure Page.LaidOut (p : Page) : Prop where
  apart : p.slots.Pairwise Slot.Apart
  behind : ∀ slot ∈ p.slots, headerSize ≤ slot.offset
  before : ∀ slot ∈ p.slots, slot.offset + slot.length ≤ p.header.freeSpaceOffset
  directory : p.header.freeSpaceOffset ≤ pageSize - p.slotCount * slotSize

theorem Valid.laidOut (h : Valid p items) : p.LaidOut where
  apart := by
    rw [h.slots]
    exact pairwise_map.mpr h.apart
  behind := by
    rw [h.slots, forall_mem_map]
    exact h.low
  before := by
    rw [h.slots, forall_mem_map]
    exact h.high
  directory := by
    rw [Page.slotCount, h.count]
    exact Nat.le_sub_of_add_le h.room

/-- After every run on a new page in which `add_slot` always had an id left: the bytes of the slots
do not overlap each other, the header or the directory, no two slots have the same id, under each id
is what was last written under it, the bytes of the page alone say all of it, and an operation that
fails changes nothing. -/
theorem page_keeps_contents (data : ℕ → UInt8) (pageType : UInt8) {ops : List Op} {s : State}
    (hok : Guarded Ok step (init data pageType) ops) (hr : run step (init data pageType) ops = some s) :
    s.page.LaidOut ∧ (s.page.slots.map Slot.logicalId).Nodup ∧ (∀ id, s.page.lookup id = s.contents id) ∧
      Page.new s.page.data = s.page ∧
      ∀ (op : Op) (e : PageWriteError), (op.apply s.page).2 = .error e →
      (op.apply s.page).1 = s.page := by
  obtain ⟨⟨items, hv⟩, hcontents⟩ := run_invariant inv_step (inv_init data pageType) hok hr
  refine ⟨hv.laidOut, ?_, congrFun hcontents, ?_, fun op e herror =>
    apply_of_error (Prod.ext rfl herror)⟩
  · rw [hv.slots, map_map]
    exact hv.ids
  · rw [Page.new, hv.header]

/-- Two rows are added, the first one is deleted and the other one changed. -/
theorem page_keeps_contents_of_row : ∃ s,
    run step (init (fun _ => 0) 1)
      [.add [1, 2], .add [3], .deleteByLogicalId 0, .update 1 [4]] = some s ∧
      s.contents 0 = none ∧ s.contents 1 = some [4] ∧ s.page.slots.length = 1 ∧ s.page.LaidOut ∧
      s.page.lookup 0 = none ∧ s.page.lookup 1 = some [4] := by
  obtain ⟨s, hs, hzero, hone, hlength⟩ : ∃ s, runChecked Ok step (init (fun _ => 0) 1)
      [.add [1, 2], .add [3], .deleteByLogicalId 0, .update 1 [4]] = some s ∧
        s.contents 0 = none ∧ s.contents 1 = some [4] ∧ s.page.slots.length = 1 := by decide +kernel
  obtain ⟨hok, hr⟩ := of_runChecked hs
  obtain ⟨hlaid, -, hlookup, -⟩ := page_keeps_contents (fun _ => 0) 1 hok hr
  exact ⟨s, hr, hzero, hone, hlength, hlaid, (hlookup 0).trans hzero, (hlookup 1).trans hone⟩

/-- A row is restored under the last id, so that `next_logical_id` stays there: the next row gets
the same id and is not found. -/
theorem page_repeats_id : ∃ s,
    run step (init (fun _ => 0) 1) [.addWithLogicalId [1] 65535, .add [2]] = some s ∧
      s.page.slots.map Slot.logicalId = [65535, 65535] ∧ s.contents 65535 = some [2] ∧
      s.page.lookup 65535 = some [1] := by
  decide +kernel

end RTsql.Storage.PageBytes

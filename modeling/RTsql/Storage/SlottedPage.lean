import RTsql.Storage.RowId
import Mathlib.Data.List.Basic

/-!
# Slotted pages

`slotted_page.rs`, for pages whose records all have the same size. Records are written
one behind the other from the header on; the slots, which point to them, grow from the end
of the page towards them. A page is full when the two meet.

Removing a slot moves the slots behind it and leaves the record where it was: the bytes are
not given back until the page is written anew. So a page without slots can be full.

The model keeps the records in the order of their slots, and the offset at which the next
one will be written. What the source checks before it reads a page, that no record reaches into
the header or the slots, holds of every page of this type.
-/

namespace RTsql.Storage

open List

/-- `Page::PAGE_SIZE`. -/
def pageSize : ℕ := 4096

/-- `SlottedPageHeader::SIZE`. -/
def headerSize : ℕ := 16

/-- `Slot::SIZE`. -/
def slotSize : ℕ := 6

/-- A page with records of `size` bytes. -/
structure SlottedPage (α : Type) (size : ℕ) where
  /-- The records, in the order of the slots. -/
  slots : List α
  /-- `free_space_offset`. -/
  offset : ℕ
  /-- The records lie behind the header and before the offset. -/
  used : headerSize + size * slots.length ≤ offset
  /-- The slots lie behind the offset. -/
  fits : offset + slotSize * slots.length ≤ pageSize

namespace SlottedPage

variable {α : Type} {size : ℕ} {p : SlottedPage α size}

/-- `SlottedPage::init`. -/
def init : SlottedPage α size := ⟨[], headerSize, Nat.le_refl _, show 16 + 6 * 0 ≤ 4096 by decide⟩

/-- `free_space`. -/
def freeSpace (p : SlottedPage α size) : ℕ := pageSize - slotSize * p.slots.length - p.offset

/-- `add_slot`: behind the last slot; `none` if the page is full. -/
def addSlot (p : SlottedPage α size) (a : α) : Option (SlottedPage α size) :=
  if h : slotSize + size ≤ p.freeSpace then
    some
      { slots := p.slots ++ [a]
        offset := p.offset + size
        used := by
          have := p.used
          rw [length_append, length_singleton, Nat.mul_add]
          omega
        fits := by
          have := p.fits
          rw [freeSpace] at h
          rw [length_append, length_singleton, Nat.mul_add]
          omega }
  else none

/-- `delete_slot`; `none` if there is no such slot. -/
def deleteSlot (p : SlottedPage α size) (i : ℕ) : Option (SlottedPage α size) :=
  if i < p.slots.length then
    some
      { slots := p.slots.eraseIdx i
        offset := p.offset
        used := by
          have := p.used
          have : size * (p.slots.eraseIdx i).length ≤ size * p.slots.length :=
            Nat.mul_le_mul_left _ (length_eraseIdx_le ..)
          omega
        fits := by
          have := p.fits
          have : slotSize * (p.slots.eraseIdx i).length ≤ slotSize * p.slots.length :=
            Nat.mul_le_mul_left _ (length_eraseIdx_le ..)
          omega }
  else none

/-- `update_slot_in_place`. -/
def updateSlotInPlace (p : SlottedPage α size) (i : ℕ) (a : α) : SlottedPage α size where
  slots := p.slots.set i a
  offset := p.offset
  used := by rw [length_set]; exact p.used
  fits := by rw [length_set]; exact p.fits

/-- A page written anew; `none` if the records do not fit. -/
def fill (l : List α) : Option (SlottedPage α size) := l.foldlM addSlot init

/-! ### What the operations do -/

/-- The records and the slots have room on the page. -/
theorem length_le (p : SlottedPage α size) :
    headerSize + (size + slotSize) * p.slots.length ≤ pageSize := by
  have := p.used
  have := p.fits
  rw [Nat.add_mul]
  omega

theorem addSlot_of_le (a : α) (h : slotSize + size ≤ p.freeSpace) :
    ∃ p', p.addSlot a = some p' ∧ p'.slots = p.slots ++ [a] ∧ p'.offset = p.offset + size :=
  ⟨_, dif_pos h, rfl, rfl⟩

theorem addSlot_of_lt (a : α) (h : p.freeSpace < slotSize + size) : p.addSlot a = none :=
    dif_neg (by omega)

theorem deleteSlot_of_lt {i : ℕ} (h : i < p.slots.length) :
    ∃ p', p.deleteSlot i = some p' ∧ p'.slots = p.slots.eraseIdx i ∧ p'.offset = p.offset :=
  ⟨_, if_pos h, rfl, rfl⟩

/-- Records added one after the other. -/
theorem foldlM_addSlot {l : List α}
    (h : p.offset + slotSize * p.slots.length + (size + slotSize) * l.length ≤ pageSize) :
    ∃ p', l.foldlM addSlot p = some p' ∧ p'.slots = p.slots ++ l ∧
    p'.offset = p.offset + size * l.length := by
  induction l generalizing p with
  | nil => exact ⟨p, rfl, (append_nil _).symm, rfl⟩
  | cons a l ih =>
    rw [length_cons, Nat.mul_add] at h
    obtain ⟨p₁, hp₁, hslots, hoffset⟩ := addSlot_of_le (p := p) a (by rw [freeSpace]; omega)
    obtain ⟨p', hp', hslots', hoffset'⟩ := ih (p := p₁) (by
      rw [hslots, length_append, length_singleton, Nat.mul_add]
      omega)
    refine ⟨p', ?_, ?_, ?_⟩
    · rwa [foldlM_cons, hp₁]
    · rw [hslots', hslots, append_assoc, singleton_append]
    · rw [length_cons, Nat.mul_add]
      omega

end SlottedPage

end RTsql.Storage

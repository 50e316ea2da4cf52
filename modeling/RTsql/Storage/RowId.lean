import Mathlib.Algebra.Ring.Nat

/-!
# Row ids

A row id names a slot: the data page it lies on and the slot's logical id there.
The source keeps a `u32` and a `u16`; nothing here depends on the width.
-/

namespace RTsql.Storage

/-- `RowId`: the data page and the logical id of a slot. -/
structure RowId where
  pageId : ℕ
  /-- The slot's logical id on that page. -/
  slotId : ℕ
  deriving DecidableEq, Repr

end RTsql.Storage

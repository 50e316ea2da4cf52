import RTsql.Storage.RowId
import Mathlib.Data.List.Basic
import Mathlib.Data.List.Nodup

/-!
# The indexes of a table

A table has a primary-key index, an index for each unique column and an index for
each secondary index that was created. Each derives a key from a row, or none: a
value without a key, such as `NULL`, is not indexed.
-/

namespace RTsql.Storage

universe u v

/-- An index of a table. -/
inductive IndexId where
  /-- `index_manager`. -/
  | pk
  /-- One of `unique_indexes`. -/
  | unique (n : ℕ)
  /-- One of `secondary_indexes`. -/
  | secondary (n : ℕ)
  deriving DecidableEq

/-- The index has at most one entry for a key. -/
def IndexId.isUnique : IndexId → Bool
  | pk | unique _ => true
  | secondary _ => false

/-- The indexes of a table, and how each derives its key from a tuple. -/
structure IndexKeys (α : Type u) (κ : Type v) where
  /-- The indexes, in the order in which they are maintained. -/
  indexes : List IndexId
  /-- No index is maintained twice. -/
  nodup : indexes.Nodup
  /-- `to_key` of the indexed column, or `derive_key`. -/
  key : IndexId → α → Option κ

/-- The entries of each index. -/
abbrev Entries (κ : Type v) := IndexId → List (κ × RowId)

end RTsql.Storage

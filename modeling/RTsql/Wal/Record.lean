import RTsql.Storage.RowId

/-!
# WAL records

`WalRecord` and the two frame formats of `record.rs`, as far as their lengths:
`serialize` writes `type (1) ; len (4) ; data` and `serialize_with_lsn` writes
`lsn (8) ; type (1) ; len (4) ; data ; crc32 (4)`. The length of a frame decides
the byte offset at which the next one starts, and offsets are what log sequence
numbers are.
-/

namespace RTsql.Wal

open RTsql.Storage

/-- A tuple, serialized. -/
abbrev Bytes := List UInt8

/-- `WalRecord`. -/
inductive WalRecord where
  /-- A row inserted at `rowId`. -/
  | insert (txId : ℕ) (tableName : String) (rowId : RowId) (tupleData : Bytes)
  /-- A row updated: the new version is at `rowId`. -/
  | update (txId : ℕ) (tableName : String) (rowId : RowId) (oldTuple newTuple : Bytes)
  /-- The row at `rowId` deleted. -/
  | delete (txId : ℕ) (tableName : String) (rowId : RowId)
  /-- Commit, old format. -/
  | commit (txId timestamp : ℕ)
  /-- Abort, old format. -/
  | abort (txId : ℕ)
  | checkpoint (lsn timestamp : ℕ)
  | beginTxn (txId : ℕ)
  | commitTxn (txId timestamp : ℕ)
  | abortTxn (txId : ℕ)
  /-- The intent of `ALTER TABLE … DROP COLUMN`. -/
  | columnNarrowing (txId : ℕ) (tableName : String) (removedColumnIndex newColumnCount : ℕ)
  deriving DecidableEq, Repr

namespace WalRecord

/-- `WalRecord::tx_id`: the transaction of a record, `0` for a checkpoint. -/
def txId : WalRecord → ℕ
  | .insert tx .. | .update tx .. | .delete tx .. | .commit tx _ | .abort tx => tx
  | .checkpoint .. => 0
  | .beginTxn tx | .commitTxn tx _ | .abortTxn tx | .columnNarrowing tx .. => tx

/-- Whether a record is one of the data records that redo replays. -/
def isData : WalRecord → Bool
  | .insert .. | .update .. | .delete .. => true
  | _ => false

/-- Whether a record commits transaction `tx`. -/
def commits (tx : ℕ) : WalRecord → Bool
  | .commit t _ | .commitTxn t _ => t == tx
  | _ => false

/-- The bytes `serialize_string` writes: a two-byte length and the text. -/
def stringLen (s : String) : ℕ := 2 + s.utf8ByteSize

/-- The bytes `serialize_bytes` writes: a four-byte length and the data. -/
def bytesLen (b : Bytes) : ℕ := 4 + b.length

/-- The length of `serialize_data`. -/
def dataLen : WalRecord → ℕ
  | .insert _ name _ tuple => 8 + stringLen name + 6 + bytesLen tuple
  | .update _ name _ old new => 8 + stringLen name + 6 + bytesLen old + bytesLen new
  | .delete _ name _ => 8 + stringLen name + 6
  | .commit .. | .checkpoint .. | .commitTxn .. => 16
  | .abort _ | .beginTxn _ | .abortTxn _ => 8
  | .columnNarrowing _ name .. => 8 + stringLen name + 8

/-- The length of `serialize`: type, length, data. -/
def serializeLen (r : WalRecord) : ℕ := 1 + 4 + r.dataLen

/-- The length of `serialize_with_lsn`: LSN, type, length, data, checksum. -/
def serializeWithLsnLen (r : WalRecord) : ℕ := 8 + 1 + 4 + r.dataLen + 4

theorem serializeWithLsnLen_pos (r : WalRecord) : 0 < r.serializeWithLsnLen := by
  unfold serializeWithLsnLen; omega

end WalRecord

end RTsql.Wal

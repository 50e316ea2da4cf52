import RTsql.Storage.RowId
import Mathlib.Data.List.Basic

/-!
# Version headers and snapshots

`version_chain.rs` and `snapshot.rs`. Every slot of a data page starts with a
header: the transaction that created the version, a commit mark, and the row id
of the version it replaces. A snapshot decides from the first two which versions
a reader sees.

The source keeps the commit mark in a `u64` with two sentinels, `UNSET_TX_ID`
and `DELETED_TX_ID`; here the three cases are three constructors. (The allocator
would have to hand out 2⁶⁴ – 2 ids before an id met a sentinel.)
-/

namespace RTsql.Transaction

open RTsql.Storage

/-- The commit mark of a version. -/
inductive CommitMark where
  /-- `UNSET_TX_ID`: not committed. -/
  | unset
  /-- `DELETED_TX_ID`: a tombstone, or an aborted version. -/
  | deleted
  | committed (tx : ℕ)
  deriving DecidableEq, Repr

/-- `DELETED_TX_ID`. -/
def deletedTxId : ℕ := 0xFFFFFFFFFFFFFFFE

/-- `VersionHeader`. -/
structure VersionHeader where
  /-- The transaction that created the version, `0` for an aborted one. -/
  createTxId : ℕ
  mark : CommitMark
  /-- The version this one replaces. -/
  nextVersion : Option RowId
  deriving DecidableEq, Repr

namespace VersionHeader

/-- `VersionHeader::new(create_tx_id, None)`. -/
def new (createTxId : ℕ) : VersionHeader := ⟨createTxId, .unset, none⟩

/-- `VersionHeader::with_next_version`. -/
def withNextVersion (h : VersionHeader) (rid : RowId) : VersionHeader :=
  { h with nextVersion := some rid }

/-- `VersionHeader::commit_tx_id`: a deleted version reports the sentinel. -/
def commitTxId (h : VersionHeader) : Option ℕ :=
  match h.mark with
  | .unset => none
  | .deleted => some deletedTxId
  | .committed tx => some tx

/-- `VersionHeader::commit`: a tombstone stays one. -/
def commit (h : VersionHeader) (tx : ℕ) : VersionHeader :=
  match h.mark with
  | .deleted => h
  | _ => { h with mark := .committed tx }

/-- `VersionHeader::mark_deleted`. -/
def markDeleted (h : VersionHeader) : VersionHeader := { h with mark := .deleted }

/-- `VersionHeader::mark_aborted`: no transaction created it, it is deleted, and it
keeps its place in the chain. -/
def markAborted (h : VersionHeader) : VersionHeader := { h with createTxId := 0, mark := .deleted }

/-- `VersionHeader::is_deleted`. -/
def isDeleted (h : VersionHeader) : Bool := h.mark = .deleted

@[simp] theorem commitTxId_eq_none {h : VersionHeader} : h.commitTxId = none ↔ h.mark = .unset := by
  unfold commitTxId
  cases h.mark <;> simp

@[simp] theorem createTxId_commit (h : VersionHeader) (tx : ℕ) :
    (h.commit tx).createTxId = h.createTxId := by
  unfold commit
  split <;> rfl

@[simp] theorem nextVersion_commit (h : VersionHeader) (tx : ℕ) :
    (h.commit tx).nextVersion = h.nextVersion := by
  unfold commit
  split <;> rfl

theorem mark_commit_ne_unset (h : VersionHeader) (tx : ℕ) : (h.commit tx).mark ≠ .unset := by
  unfold commit
  split <;> simp_all

end VersionHeader

/-- `Snapshot`. -/
structure Snapshot where
  /-- The reader's own transaction, `0` if it has none. -/
  txId : ℕ
  /-- The visibility high-water mark. -/
  highWater : ℕ
  /-- The transactions active when the snapshot was taken. -/
  activeTxIds : List ℕ
  deriving DecidableEq, Repr

namespace Snapshot

/-- `Snapshot::statement_view`: the view a Read Committed statement takes. -/
def statementView (highWater selfTxId : ℕ) (activeTxIds : List ℕ) : Snapshot :=
  ⟨selfTxId, highWater, activeTxIds⟩

/-- `Snapshot::is_visible`. -/
def isVisible (s : Snapshot) (createTxId : ℕ) (commitTxId : Option ℕ) : Bool :=
  commitTxId.isSome && decide (createTxId ≤ s.highWater) && !decide (createTxId ∈ s.activeTxIds)

/-- `Snapshot::is_visible_self`: a transaction sees its own uncommitted versions. -/
def isVisibleSelf (s : Snapshot) (createTxId : ℕ) (commitTxId : Option ℕ) : Bool :=
  decide (createTxId = s.txId) && commitTxId.isNone

/-- `Snapshot::contains_active_tx`. -/
def containsActiveTx (s : Snapshot) (txId : ℕ) : Bool := decide (txId ∈ s.activeTxIds)

theorem isVisible_iff {s : Snapshot} {create : ℕ} {commit : Option ℕ} :
    s.isVisible create commit = true ↔ commit ≠ none ∧ create ≤ s.highWater ∧
    create ∉ s.activeTxIds := by
  simp [isVisible, and_assoc, Option.isSome_iff_ne_none]

end Snapshot

end RTsql.Transaction

import RTsql.Wal.Buffer

/-!
# Log sequence numbers as file offsets

The LSN in a frame is meant to be the offset of the frame in the WAL file. `do_flush`
reads the length of the file, numbers its records from there on, and calls
`write_batch`, which appends them wherever the file ends by then. The lock of the file
is held in each of the two calls and not between them; `write_record` and
`rewrite_truncate`, which a checkpoint calls, take the same lock.

`lsn_eq_offset` says when the numbers are right, `lsn_ne_offset` shows three runs in
which they are not. A `rewrite_truncate` that fails before `set_len` leaves the length
of the file as it is and is no step.
-/

namespace RTsql.Wal.FlushOffsets

open RTsql.Library RTsql.Wal.Buffer

/-- A frame that `write_batch` has appended. -/
structure Appended where
  /-- Where it begins in the file. -/
  offset : ℕ
  lsn : ℕ
  record : WalRecord
  deriving DecidableEq

/-- The WAL file and the flushes at work. -/
structure State where
  fileLen : ℕ
  /-- The batches of the flushes that have read the length and not yet written. -/
  based : List (List (ℕ × WalRecord))
  /-- The frames appended since the last truncation, in order. -/
  appended : List Appended
  /-- The frames appended before it. -/
  earlier : List Appended

/-- A file of some length, with no flush at work. -/
def init (fileLen : ℕ) : State := ⟨fileLen, [], [], []⟩

/-- A step. The bytes that reach the file are all of them unless the write fails. -/
inductive Label where
  /-- A flush reads the length for the records it took; the call may fail. -/
  | readLen (records : List (ℕ × WalRecord)) (ok : Bool)
  /-- A flush calls `write_batch`, of which `n` bytes reach the file. -/
  | writeBatch (batch : List (ℕ × WalRecord)) (n : ℕ)
  /-- A checkpoint calls `write_record`, of which `n` bytes reach the file. -/
  | writeRecord (r : WalRecord) (n : ℕ)
  /-- A checkpoint calls `rewrite_truncate(lsn)`. -/
  | rewriteTruncate (lsn : ℕ)

/-- The frames that are whole when `n` bytes of a batch are written from `offset` on. -/
def placed (offset n : ℕ) : List (ℕ × WalRecord) → List Appended
  | [] => []
  | (lsn, r) :: rs =>
    if r.serializeWithLsnLen ≤ n then
      ⟨offset, lsn, r⟩ :: placed (offset + r.serializeWithLsnLen) (n - r.serializeWithLsnLen) rs
    else []

/-- A step of the system. -/
def step (s : State) : Label → Option State
  | .readLen records ok =>
    -- `get_current_lsn().await.unwrap_or(0)`
    if records ≠ [] then some { s with based := frames (if ok then s.fileLen else 0) records :: s.based }
    else none
  | .writeBatch batch n =>
    if batch ∈ s.based ∧ n ≤ batchLen batch then
      some { s with based := s.based.erase batch, fileLen := s.fileLen + n
                    appended := s.appended ++ placed s.fileLen n batch }
    else none
  | .writeRecord r n => if n ≤ r.serializeLen then some { s with fileLen := s.fileLen + n } else none
  | .rewriteTruncate lsn =>
    some { s with fileLen := s.fileLen - lsn, earlier := s.earlier ++ s.appended, appended := [] }

/-- The length can be read, and nothing is written to the file and the file is not cut
between the two calls of a flush, other than by the flush itself. -/
def Alone (s : State) : Label → Prop
  | .readLen _ ok => ok = true
  | .writeBatch batch _ => s.based = [batch]
  | .writeRecord .. | .rewriteTruncate _ => s.based = []

instance (s : State) : ∀ label, Decidable (Alone s label)
  | .readLen .. | .writeBatch .. | .writeRecord .. | .rewriteTruncate _ =>
    inferInstanceAs (Decidable (_ = _))

/-- Frames that are placed where they were numbered from have their offset as LSN. -/
theorem lsn_of_mem_placed {offset n : ℕ} {rs : List (ℕ × WalRecord)} {p : Appended}
    (hp : p ∈ placed offset n (frames offset rs)) : p.lsn = p.offset ∧ offset ≤ p.lsn ∧
    p.lsn < offset + n := by
  induction rs generalizing offset n with
  | nil => cases hp
  | cons r rs ih =>
    simp only [frames, placed] at hp
    split at hp
    case isFalse => cases hp
    case isTrue hfits =>
      have hpos := r.2.serializeWithLsnLen_pos
      obtain rfl | hp := List.mem_cons.mp hp
      · exact ⟨rfl, Nat.le_refl _, by simp only; omega⟩
      · obtain ⟨heq, hle, hlt⟩ := ih hp
        exact ⟨heq, by omega, by omega⟩

theorem placed_ordered {offset n : ℕ} {rs : List (ℕ × WalRecord)} :
    (placed offset n (frames offset rs)).Pairwise (·.lsn < ·.lsn) := by
  induction rs generalizing offset n with
  | nil => exact .nil
  | cons r rs ih =>
    simp only [frames, placed]
    split
    case isFalse => exact .nil
    case isTrue =>
      refine .cons (fun p hp => ?_) ih
      have hpos := r.2.serializeWithLsnLen_pos
      have hle := (lsn_of_mem_placed hp).2.1
      simp only
      omega

/-- The LSNs are right, and the batches of the flushes at work begin where the file ends. -/
structure Inv (s : State) : Prop where
  exact : ∀ p ∈ s.earlier ++ s.appended, p.lsn = p.offset
  below : ∀ p ∈ s.appended, p.lsn < s.fileLen
  ordered : s.appended.Pairwise (·.lsn < ·.lsn)
  based : ∀ batch ∈ s.based, ∃ rs, batch = frames s.fileLen rs

theorem inv_step {s s' : State} {a : Label} (hi : Inv s) (hok : Alone s a)
    (h : step s a = some s') : Inv s' := by
  cases a with
  | readLen records ok =>
    obtain ⟨-, rfl⟩ := of_guard h
    obtain rfl : ok = true := hok
    exact { hi with based := List.forall_mem_cons.mpr ⟨⟨records, rfl⟩, hi.based⟩ }
  | writeBatch batch n =>
    obtain ⟨⟨hmem, -⟩, rfl⟩ := of_guard h
    obtain ⟨rs, rfl⟩ := hi.based batch hmem
    have hnew : ∀ p ∈ placed s.fileLen n (frames s.fileLen rs), _ := fun p => lsn_of_mem_placed
    refine ⟨?_, ?_, ?_, by simp [show s.based = _ from hok]⟩
    · simp only [← List.append_assoc]
      exact List.forall_mem_append.mpr ⟨hi.exact, fun p hp => (hnew p hp).1⟩
    · exact List.forall_mem_append.mpr
        ⟨fun p hp => Nat.lt_add_right n (hi.below p hp), fun p hp => (hnew p hp).2.2⟩
    -- what was there lies below the old end of the file, the batch above
    · exact List.pairwise_append.mpr ⟨hi.ordered, placed_ordered, fun p hp q hq =>
        Nat.lt_of_lt_of_le (hi.below p hp) (hnew q hq).2.1⟩
  | writeRecord r n =>
    obtain ⟨-, rfl⟩ := of_guard h
    exact { hi with
      below := fun p hp => Nat.lt_add_right n (hi.below p hp)
      based := by simp [show s.based = [] from hok] }
  | rewriteTruncate lsn =>
    cases h
    exact ⟨by simpa using hi.exact, by simp, .nil, by simp [show s.based = [] from hok]⟩

/-- In every run, from a file of any length, in which the length can be read and no
other flush writes, no record is written and the file is not cut between the two calls
of a flush, every frame `write_batch` has appended has its offset as LSN, and the LSNs
appended since the last truncation increase. -/
theorem lsn_eq_offset (fileLen : ℕ) (as : List Label) (s : State)
    (hrun : run step (init fileLen) as = some s) (hok : Guarded Alone step (init fileLen) as) :
    (∀ p ∈ s.earlier ++ s.appended, p.lsn = p.offset) ∧ s.appended.Pairwise (·.lsn < ·.lsn) := by
  have hi : Inv s := run_invariant (fun _ _ _ hi hok h => inv_step hi hok h)
    ⟨by simp [init], by simp [init], .nil, by simp [init]⟩ hok hrun
  exact ⟨hi.exact, hi.ordered⟩

/-- The batch of one `BeginTxn` record, numbered. -/
def beginAt (lsn tx : ℕ) : List (ℕ × WalRecord) := [(lsn, .beginTxn tx)]

/-- A flush, a checkpoint and another flush. -/
def inTurn : List Label :=
  [.readLen (beginAt 1 1) true, .writeBatch (beginAt 40 1) 25, .writeRecord (.checkpoint 65 0) 21,
    .rewriteTruncate 65, .readLen (beginAt 2 2) true, .writeBatch (beginAt 21 2) 25]

theorem lsn_eq_offset_checkpoint :
    ∃ s, run step (init 40) inTurn = some s ∧ s.appended = [⟨21, 21, .beginTxn 2⟩] ∧
      ∀ p ∈ s.earlier ++ s.appended, p.lsn = p.offset :=
  exists_run (by decide +kernel) fun s hok hrun _ => (lsn_eq_offset 40 _ s hrun hok).1

/-- Two flushes that read the same length, a checkpoint that writes its marker and cuts
the file between the two calls of a flush, and a length that cannot be read. -/
theorem lsn_ne_offset :
    (∃ s, run step (init 0) [.readLen (beginAt 1 1) true, .readLen (beginAt 2 2) true,
        .writeBatch (beginAt 0 1) 25, .writeBatch (beginAt 0 2) 25] = some s ∧
      s.appended = [⟨0, 0, .beginTxn 1⟩, ⟨25, 0, .beginTxn 2⟩]) ∧
    (∃ s, run step (init 40) [.readLen (beginAt 1 1) true, .writeRecord (.checkpoint 40 0) 21,
        .rewriteTruncate 40, .writeBatch (beginAt 40 1) 25] = some s ∧
        s.appended = [⟨21, 40, .beginTxn 1⟩]) ∧
    ∃ s, run step (init 40) [.readLen (beginAt 1 1) false, .writeBatch (beginAt 0 1) 25] = some s ∧
      s.appended = [⟨40, 0, .beginTxn 1⟩] := by
  decide +kernel

end RTsql.Wal.FlushOffsets

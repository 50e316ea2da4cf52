import RTsql.Library.Run
import RTsql.Wal.Record

/-!
# Group commit

`WALBuffer` collects records in memory and writes them in batches. A committing
task appends its `CommitTxn` record, registers a waiter, adds itself to the list
of pending commits and waits; whichever task runs `do_flush` next takes the
records and the pending list, writes the batch and notifies the transactions it
took.

## The model

Every task has a program counter, `Pc`, one value for each point at which
another task can run: a lock about to be taken, an atomic about to be read, a
system call about to be made. A label `begin t op` starts an operation of an idle
task and `step t o` lets task `t` take its next step, `o` being the outcome of
the system call if the step makes one.

* `do_flush` holds the lock of the buffer while it waits for the lock of the
  pending list (`bufferOwner`); every other critical section has no wait inside
  and is one step.
* `written` keeps the batches whose `write_batch` returned `Ok`.

## What is proved

* `acknowledged_commit_durable` — in every run in which no batch with a
  `CommitTxn` record fails to be written and no flush notifies a transaction
  whose record another flush has taken and not yet written, a commit that has
  been acknowledged is in a batch that was written.
* `acknowledged_commit_not_durable` — neither condition can be dropped.

## Honest scope

The wake-up of the flush loop (`flush_notify`) only decides when the loop runs,
and the timer wakes it at any time, so the loop may start a round at any point.
A transaction commits at most once: `commit` takes the `Transaction` by value.
-/

namespace RTsql.Wal.Buffer

open Function List RTsql.Library

/-! ### Tasks and states -/

/-- A task: one for the commit of each transaction, and any number of others. -/
inductive Task where
  /-- The task that commits transaction `tx`. -/
  | committer (tx : ℕ)
  /-- A task that appends other records, flushes or shuts the buffer down. -/
  | worker (n : ℕ)
  deriving DecidableEq

/-- Where a task is. -/
inductive Pc where
  /-- In no operation of the buffer. -/
  | idle
  /-- `append`: about to allocate an LSN. -/
  | fetch (r : WalRecord)
  /-- `append`: about to lock the buffer and push. -/
  | push (lsn : ℕ) (r : WalRecord)
  /-- `flush_loop`: woken, about to read the shutdown flag. -/
  | check
  /-- `shutdown`: about to set the shutdown flag. -/
  | store
  /-- `do_flush`: about to lock the buffer and take its records. -/
  | take
  /-- `do_flush`: holding the buffer, about to lock and take the pending commits. -/
  | takePending (records : List (ℕ × WalRecord))
  /-- `do_flush`: about to read the length of the file. -/
  | offset (records : List (ℕ × WalRecord)) (txs : List ℕ)
  /-- `do_flush`: about to call `write_batch`. -/
  | write (batch : List (ℕ × WalRecord)) (txs : List ℕ)
  /-- `do_flush`: about to lock the waiters and notify. -/
  | notify (txs : List ℕ)
  /-- `append_commit_and_wait`: about to register the waiter. -/
  | register
  /-- `append_commit_and_wait`: about to push to the pending list. -/
  | pend
  /-- `append_commit_and_wait`: waiting for its notification. -/
  | wait
  /-- `append_commit_and_wait` has returned `Ok`. -/
  | done
  deriving DecidableEq

/-- The shared state of the buffer, and the tasks. -/
structure State where
  /-- The queue of records with their logical LSNs. -/
  buffer : List (ℕ × WalRecord)
  /-- The task that holds the buffer's lock across a wait. -/
  bufferOwner : Option Task
  currentLsn : ℕ
  /-- Transactions waiting for a flush. -/
  pendingCommits : List ℕ
  /-- Transactions with a registered waiter. -/
  commitWaiters : List ℕ
  /-- Transactions whose waiter has been notified. -/
  notified : List ℕ
  shutdown : Bool
  /-- The length of the WAL file. -/
  fileLen : ℕ
  /-- The batches whose `write_batch` returned `Ok`. -/
  written : List (List (ℕ × WalRecord))
  pc : Task → Pc

/-- `WALBuffer::new`, with every task idle. -/
def init : State :=
  { buffer := [], bufferOwner := none, currentLsn := 1, pendingCommits := [], commitWaiters := [],
    notified := [], shutdown := false, fileLen := 0, written := [], pc := fun _ => .idle }

/-- Task `t` moves on to `p`. -/
def State.goto (s : State) (t : Task) (p : Pc) : State :=
  { s with pc := update s.pc t p }

/-- An operation a task can start. -/
inductive Op where
  /-- `append(record)`. -/
  | append (r : WalRecord)
  /-- `do_flush()`. -/
  | doFlush
  /-- A round of `flush_loop`. -/
  | flushLoop
  /-- `shutdown()`. -/
  | shutdown
  /-- `TransactionManager::commit` as far as the buffer is concerned. -/
  | commit (timestamp : ℕ)

/-- The outcome of a system call. -/
inductive Outcome where
  | ok
  /-- It fails, after `n` bytes reached the file. -/
  | failed (n : ℕ)
  deriving DecidableEq

/-- A step of the system. -/
inductive Label where
  /-- An idle task starts an operation. -/
  | begin (t : Task) (op : Op)
  /-- A task takes its next step. -/
  | step (t : Task) (o : Outcome)

/-! ### Steps -/

/-- The records of a batch with the file offsets `do_flush` computes for them. -/
def frames (base : ℕ) : List (ℕ × WalRecord) → List (ℕ × WalRecord)
  | [] => []
  | (_, r) :: rs => (base, r) :: frames (base + r.serializeWithLsnLen) rs

/-- The bytes of a batch. -/
def batchLen (batch : List (ℕ × WalRecord)) : ℕ :=
  (batch.map fun p => p.2.serializeWithLsnLen).sum

/-- The transactions whose `CommitTxn` record is among the records. -/
def commitsOf (records : List (ℕ × WalRecord)) : List ℕ :=
  records.filterMap fun
    | (_, .commitTxn tx _) => some tx
    | _ => none

/-- Where a task goes when `append`, or the `do_flush` at its end, returns: a
commit goes on to wait. -/
def resume : Task → Pc
  | .committer _ => .register
  | .worker _ => .idle

/-- A task starts an operation. Only `TransactionManager::commit` appends a
`CommitTxn` record. -/
def begin (s : State) (t : Task) (op : Op) : Option State :=
  match s.pc t, t, op with
  | .idle, .worker _, .append r => if commitsOf [(0, r)] = [] then some (s.goto t (.fetch r)) else none
  | .idle, .worker _, .doFlush => some (s.goto t .take)
  | .idle, .worker _, .flushLoop => some (s.goto t .check)
  | .idle, .worker _, .shutdown => some (s.goto t .store)
  | .idle, .committer tx, .commit ts => some (s.goto t (.fetch (.commitTxn tx ts)))
  | _, _, _ => none

/-- The next step of a task. -/
def next (capacity : ℕ) (s : State) (t : Task) (o : Outcome) : Option State :=
  match s.pc t with
  | .idle | .done => none
  | .fetch r => some ({ s with currentLsn := s.currentLsn + 1 }.goto t (.push s.currentLsn r))
  | .push lsn r =>
    if s.bufferOwner = none then
      some ({ s with buffer := s.buffer ++ [(lsn, r)] }.goto t
        (if capacity ≤ s.buffer.length + 1 then .take else resume t))
    else none
  | .check => some (s.goto t (if s.shutdown then .idle else .take))
  | .store => some ({ s with shutdown := true }.goto t .take)
  | .take =>
    if s.bufferOwner = none then
      some ({ s with buffer := [], bufferOwner := some t }.goto t (.takePending s.buffer))
    else none
  | .takePending records =>
    some ({ s with pendingCommits := [], bufferOwner := none }.goto t
      (if records = [] then .notify s.pendingCommits else .offset records s.pendingCommits))
  | .offset records txs =>
    -- `get_current_lsn().await.unwrap_or(0)`
    let base := match o with
      | .ok => s.fileLen
      | .failed _ => 0
    some (s.goto t (.write (frames base records) txs))
  | .write batch txs =>
    match o with
    | .ok =>
      some ({ s with fileLen := s.fileLen + batchLen batch, written := s.written ++ [batch] }.goto t
        (.notify txs))
    -- the error is dropped and the waiters are notified all the same
    | .failed n => some ({ s with fileLen := s.fileLen + n }.goto t (.notify txs))
  | .notify txs =>
    some ({ s with commitWaiters := s.commitWaiters.filter (· ∉ txs)
                   notified := s.notified ++ s.commitWaiters.filter (· ∈ txs) }.goto t (resume t))
  | .register =>
    match t with
    | .committer tx => some ({ s with commitWaiters := tx :: s.commitWaiters }.goto t .pend)
    | .worker _ => none
  | .pend =>
    match t with
    | .committer tx => some ({ s with pendingCommits := s.pendingCommits ++ [tx] }.goto t .wait)
    | .worker _ => none
  | .wait =>
    match t with
    | .committer tx => if tx ∈ s.notified then some (s.goto t .done) else none
    | .worker _ => none

/-- A step of the system. -/
def step (capacity : ℕ) (s : State) : Label → Option State
  | .begin t op => begin s t op
  | .step t o => next capacity s t o

/-! ### What a step can do -/

/-- What task `t` can do, case by case. -/
inductive Move (capacity : ℕ) (s : State) : Label → State → Prop
  | append {n r} : s.pc (.worker n) = .idle → commitsOf [(0, r)] = [] →
      Move capacity s (.begin (.worker n) (.append r)) (s.goto (.worker n) (.fetch r))
  | start {n op p} : s.pc (.worker n) = .idle → p ∈ [Pc.take, .check, .store] →
      Move capacity s (.begin (.worker n) op) (s.goto (.worker n) p)
  | commit {tx ts} : s.pc (.committer tx) = .idle →
      Move capacity s (.begin (.committer tx) (.commit ts))
        (s.goto (.committer tx) (.fetch (.commitTxn tx ts)))
  | fetch {t o r} : s.pc t = .fetch r →
      Move capacity s (.step t o)
      ({ s with currentLsn := s.currentLsn + 1 }.goto t (.push s.currentLsn r))
  /-- A record is pushed; a full buffer is flushed at once. -/
  | push {t o lsn r p} : s.pc t = .push lsn r → s.bufferOwner = none → p = .take ∨ p = resume t →
      Move capacity s (.step t o) ({ s with buffer := s.buffer ++ [(lsn, r)] }.goto t p)
  | check {t o p} : s.pc t = .check → p = .idle ∨ p = .take → Move capacity s (.step t o) (s.goto t p)
  | store {t o} : s.pc t = .store →
    Move capacity s (.step t o) ({ s with shutdown := true }.goto t .take)
  | take {t o} : s.pc t = .take → s.bufferOwner = none →
      Move capacity s (.step t o)
        ({ s with buffer := [], bufferOwner := some t }.goto t (.takePending s.buffer))
  | takePending {t o records p} : s.pc t = .takePending records →
      p = .notify s.pendingCommits ∧ records = [] ∨ p = .offset records s.pendingCommits →
      Move capacity s (.step t o) ({ s with pendingCommits := [], bufferOwner := none }.goto t p)
  | offset {t o records txs} (base) : s.pc t = .offset records txs →
      Move capacity s (.step t o) (s.goto t (.write (frames base records) txs))
  | writeOk {t batch txs} : s.pc t = .write batch txs →
      Move capacity s (.step t .ok)
        ({ s with fileLen := s.fileLen + batchLen batch, written := s.written ++ [batch] }.goto t
          (.notify txs))
  | writeFailed {t n batch txs} : s.pc t = .write batch txs →
      Move capacity s (.step t (.failed n)) ({ s with fileLen := s.fileLen + n }.goto t (.notify txs))
  | notify {t o txs} : s.pc t = .notify txs →
      Move capacity s (.step t o)
        ({ s with commitWaiters := s.commitWaiters.filter (· ∉ txs)
                  notified := s.notified ++ s.commitWaiters.filter (· ∈ txs) }.goto t (resume t))
  | register {tx o} : s.pc (.committer tx) = .register →
      Move capacity s (.step (.committer tx) o)
        ({ s with commitWaiters := tx :: s.commitWaiters }.goto (.committer tx) .pend)
  | pend {tx o} : s.pc (.committer tx) = .pend →
      Move capacity s (.step (.committer tx) o)
        ({ s with pendingCommits := s.pendingCommits ++ [tx] }.goto (.committer tx) .wait)
  | wait {tx o} : s.pc (.committer tx) = .wait → tx ∈ s.notified →
      Move capacity s (.step (.committer tx) o) (s.goto (.committer tx) .done)

theorem move_of_begin {capacity : ℕ} {s s' : State} {t : Task} {op : Op}
    (h : begin s t op = some s') : Move capacity s (.begin t op) s' := by
  unfold begin at h
  split at h
  case h_1 hpc =>
    obtain ⟨hr, rfl⟩ := of_guard h
    exact .append hpc hr
  case h_2 hpc | h_3 hpc | h_4 hpc => cases h; exact .start hpc (by simp)
  case h_5 hpc => cases h; exact .commit hpc
  case h_6 => cases h

theorem move_of_next {capacity : ℕ} {s s' : State} {t : Task} {o : Outcome}
    (h : next capacity s t o = some s') : Move capacity s (.step t o) s' := by
  unfold next at h
  split at h
  case h_1 | h_2 => cases h
  case h_3 hpc => cases h; exact .fetch hpc
  case h_4 hpc =>
    obtain ⟨ho, rfl⟩ := of_guard h
    exact .push hpc ho (by split <;> simp)
  case h_5 hpc => cases h; exact .check hpc (by split <;> simp)
  case h_6 hpc => cases h; exact .store hpc
  case h_7 hpc =>
    obtain ⟨ho, rfl⟩ := of_guard h
    exact .take hpc ho
  case h_8 hpc => cases h; exact .takePending hpc (by split <;> simp [*])
  case h_9 hpc => cases h; exact .offset _ hpc
  case h_10 hpc =>
    cases o with
    | ok => cases h; exact .writeOk hpc
    | failed n => cases h; exact .writeFailed hpc
  case h_11 hpc => cases h; exact .notify hpc
  case h_12 hpc =>
    cases t with
    | committer tx => cases h; exact .register hpc
    | worker n => cases h
  case h_13 hpc =>
    cases t with
    | committer tx => cases h; exact .pend hpc
    | worker n => cases h
  case h_14 hpc =>
    cases t with
    | committer tx =>
      simp only at h
      obtain ⟨hn, rfl⟩ := of_guard h
      exact .wait hpc hn
    | worker n => cases h

theorem move_of_step {capacity : ℕ} {s s' : State} {a : Label}
    (h : step capacity s a = some s') : Move capacity s a s' := by
  cases a with
  | begin t op => exact move_of_begin h
  | step t o => exact move_of_next h

/-! ### Where a commit record is -/

/-- The records a flush has taken and not yet written. -/
def Pc.unwritten : Pc → List (ℕ × WalRecord)
  | .takePending records => records
  | .offset records _ => records
  | .write batch _ => batch
  | _ => []

/-- The transactions a flush has taken and not yet notified. -/
def Pc.drained : Pc → List ℕ
  | .offset _ txs | .write _ txs | .notify txs => txs
  | _ => []

/-- Where a task of each kind can be: a commit appends the `CommitTxn` record of its
own transaction, no other task appends one, and a commit does not run the flush loop
or the shutdown. -/
def Pc.Fits (t : Task) : Pc → Prop
  | .fetch r | .push _ r => ∀ tx, tx ∈ commitsOf [(0, r)] ↔ t = .committer tx
  | .check | .store => ∃ n, t = .worker n
  | _ => True

/-- Whether a commit has pushed its record. -/
def Pc.appended : Pc → Bool
  | .idle | .fetch _ | .push .. | .check | .store => false
  | _ => true

/-- Transaction `tx` is durable: its `CommitTxn` record is in a batch whose
`write_batch` returned `Ok`. -/
def Durable (s : State) (tx : ℕ) : Prop :=
  ∃ batch ∈ s.written, ∃ lsn ts, (lsn, WalRecord.commitTxn tx ts) ∈ batch

/-- **The condition under which acknowledged commits are durable**: a batch that
fails to be written has no `CommitTxn` record in it, and a flush notifies a
transaction only when no other flush has taken the transaction's record without
having written it. -/
def FlushInOrder (s : State) : Label → Prop
  | .begin _ _ => True
  | .step t o =>
    match s.pc t with
    | .write batch _ => o = .ok ∨ commitsOf batch = []
    | .notify txs => ∀ tx ∈ txs, ∀ u, tx ∉ commitsOf (s.pc u).unwritten
    | _ => True

theorem mem_commitsOf {records : List (ℕ × WalRecord)} {tx : ℕ} :
    tx ∈ commitsOf records ↔ ∃ lsn ts, (lsn, WalRecord.commitTxn tx ts) ∈ records := by
  simp only [commitsOf, mem_filterMap]
  constructor
  · rintro ⟨⟨lsn, r⟩, hr, h⟩
    cases r <;> simp_all
    exact ⟨lsn, _, hr⟩
  · rintro ⟨lsn, ts, h⟩
    exact ⟨_, h, rfl⟩

@[simp] theorem commitsOf_nil : commitsOf [] = [] := rfl

@[simp] theorem commitsOf_append (rs rs' : List (ℕ × WalRecord)) :
    commitsOf (rs ++ rs') = commitsOf rs ++ commitsOf rs' := filterMap_append

theorem commitsOf_singleton (lsn lsn' : ℕ) (r : WalRecord) :
    commitsOf [(lsn, r)] = commitsOf [(lsn', r)] := by cases r <;> rfl

/-- The offsets do not change what a batch commits. -/
@[simp] theorem commitsOf_frames (base : ℕ) (rs : List (ℕ × WalRecord)) :
    commitsOf (frames base rs) = commitsOf rs := by
  induction rs generalizing base with
  | nil => rfl
  | cons p rs ih =>
    have h := ih (base + p.2.serializeWithLsnLen)
    rw [frames, ← singleton_append, ← singleton_append (l := rs), commitsOf_append,
      commitsOf_append, h, commitsOf_singleton base p.1]

theorem durable_iff {s : State} {tx : ℕ} : Durable s tx ↔ ∃ batch ∈ s.written, tx ∈ commitsOf batch := by
  simp only [Durable, mem_commitsOf]

/-- The `CommitTxn` record of `tx` is in the buffer, in a batch on its way to the
file, or durable. -/
def Located (s : State) (tx : ℕ) : Prop :=
  tx ∈ commitsOf s.buffer ∨ (∃ t, tx ∈ commitsOf (s.pc t).unwritten) ∨ Durable s tx

/-- What holds between any two steps. -/
structure Inv (s : State) : Prop where
  /-- A `CommitTxn` record is pushed by the commit of its transaction only. -/
  fits : ∀ t, (s.pc t).Fits t
  /-- A flush that holds the buffer has emptied it. -/
  locked : ∀ t records, s.pc t = .takePending records → s.bufferOwner = some t ∧ s.buffer = []
  /-- A record pushed and not lost is somewhere. -/
  located : ∀ tx, (s.pc (.committer tx)).appended → Located s tx
  /-- Only a transaction whose record is pushed is pending. -/
  pending : ∀ tx ∈ s.pendingCommits, (s.pc (.committer tx)).appended
  /-- A transaction that a flush has taken has left its record in the buffer no more. -/
  drained : ∀ t, ∀ tx ∈ (s.pc t).drained, (s.pc (.committer tx)).appended ∧ tx ∉ commitsOf s.buffer
  /-- A transaction that has been notified is durable. -/
  notified : ∀ tx ∈ s.notified, Durable s tx
  /-- A commit that has returned is durable. -/
  done : ∀ tx, s.pc (.committer tx) = .done → Durable s tx

theorem Inv.fitsAt {s : State} {t : Task} {p : Pc} (h : Inv s) (hp : s.pc t = p) : p.Fits t :=
    hp ▸ h.fits t

theorem inv_init : Inv init := by
  constructor <;> simp [init, Pc.Fits, Pc.appended, Pc.drained]

/-! ### Every step keeps the invariant -/

section Step

variable {capacity tx : ℕ} {s s' : State} {a : Label} {t : Task} {p : Pc}

@[simp] theorem goto_pc (s : State) (t : Task) (p : Pc) : (s.goto t p).pc = update s.pc t p := rfl

@[simp] theorem goto_buffer (s : State) (t : Task) (p : Pc) : (s.goto t p).buffer = s.buffer := rfl

@[simp] theorem goto_written (s : State) (t : Task) (p : Pc) : (s.goto t p).written = s.written := rfl

/-- Task `t` has moved to `p`. -/
structure Lands (s s' : State) (t : Task) (p : Pc) : Prop where
  pc : update s.pc t p = s'.pc
  fits : p.Fits t
  /-- Nobody else held the buffer if it has changed. -/
  buffer : s'.buffer = s.buffer ∧ s'.bufferOwner = s.bufferOwner ∨ ∀ u, s.bufferOwner = some u → u = t
  locked : ∀ records, p = .takePending records → s'.bufferOwner = some t ∧ s'.buffer = []
  drained : ∀ tx ∈ p.drained, tx ∈ (s.pc t).drained ∨ tx ∈ s.pendingCommits ∧ s'.buffer = []
  done : ∀ tx, t = .committer tx → p = .done → tx ∈ s.notified
  /-- A commit that has pushed its record does not take it back. -/
  keeps : ∀ tx, t = .committer tx → (s.pc t).appended = true → p.appended = true
  /-- A commit gets past its push by pushing. -/
  appends : ∀ tx, t = .committer tx → p.appended = true → (s.pc t).appended = true ∨
    tx ∈ commitsOf s'.buffer

variable (hi : Inv s) (h : Move capacity s a s')

include hi h

theorem lands : ∃ t p, Lands s s' t p := by
  -- the move changes nothing but the program counter, which comes from `q`
  have same : ∀ {t p q}, s.pc t = q → update s.pc t p = s'.pc → p.Fits t → s'.buffer = s.buffer →
      s'.bufferOwner = s.bufferOwner → p ≠ .done → (∀ records, p ≠ .takePending records) →
      p.drained ⊆ q.drained → (∀ tx, t = .committer tx → q.appended = p.appended) → ∃ t p,
      Lands s s' t p := by
    rintro t p _ rfl hs hfits hb ho hdone hpend hdrain happ
    exact ⟨t, p, hs, hfits, .inl ⟨hb, ho⟩, fun r h => absurd h (hpend r), fun tx h => .inl (hdrain h),
      fun _ _ h => absurd h hdone, fun tx h => (happ tx h ▸ ·), fun tx h => (.inl <| happ tx h ▸ ·)⟩
  cases h with
  | append hpc hr => exact same hpc rfl (by simp [Pc.Fits, hr]) rfl rfl nofun nofun nofun nofun
  | start hpc hp =>
    simp only [mem_cons, not_mem_nil, or_false] at hp
    rcases hp with rfl | rfl | rfl
    all_goals exact same hpc rfl (by simp [Pc.Fits]) rfl rfl nofun nofun nofun nofun
  | commit hpc =>
    exact same hpc rfl (by simp [Pc.Fits, commitsOf, eq_comm]) rfl rfl nofun nofun nofun fun _ _ => rfl
  | fetch hpc =>
    exact same hpc rfl (hi.fitsAt hpc :) rfl rfl nofun nofun nofun fun _ _ => rfl
  | @push t _ lsn r p hpc ho hp =>
    have hr := hi.fitsAt hpc
    have hp' : p.Fits t ∧ p.drained = [] ∧ p ≠ .done ∧ ∀ records, p ≠ .takePending records := by
      rcases hp with rfl | rfl
      · simp [Pc.Fits, Pc.drained]
      · cases t <;> simp [resume, Pc.Fits, Pc.drained]
    refine ⟨t, p, rfl, hp'.1, .inr (by simp [ho]), fun r h => absurd h (hp'.2.2.2 r), by simp [hp'.2.1],
      fun _ _ h => absurd h hp'.2.2.1, fun _ _ h => ?_, fun tx h _ => .inr ?_⟩
    · rw [hpc] at h
      cases h
    · simp [commitsOf_singleton lsn 0, (hr tx).mpr h]
  | check hpc hp =>
    -- a commit does not run the flush loop
    obtain ⟨n, rfl⟩ := hi.fitsAt hpc
    rcases hp with rfl | rfl
    all_goals exact same hpc rfl trivial rfl rfl nofun nofun nofun nofun
  | store hpc =>
    obtain ⟨n, rfl⟩ := hi.fitsAt hpc
    exact same hpc rfl trivial rfl rfl nofun nofun nofun nofun
  | take hpc ho =>
    exact ⟨_, _, rfl, trivial, .inr (by simp [ho]), fun _ _ => ⟨rfl, rfl⟩, nofun, nofun,
      fun _ _ _ => rfl, fun _ _ _ => .inl (by rw [hpc]; rfl)⟩
  | @takePending t _ _ p hpc hp =>
    obtain ⟨ho, hb⟩ := hi.locked t _ hpc
    rcases hp with ⟨rfl, -⟩ | rfl
    all_goals exact ⟨_, _, rfl, trivial, .inr (by simp [ho]), nofun, fun tx h => .inr ⟨h, hb⟩, nofun,
      fun _ _ _ => rfl, fun _ _ _ => .inl (by rw [hpc]; rfl)⟩
  | offset _ hpc | writeOk hpc | writeFailed hpc =>
    exact same hpc rfl trivial rfl rfl nofun nofun (fun _ h => h) fun _ _ => rfl
  | @notify t _ _ hpc =>
    cases t with
    | committer => exact same hpc rfl trivial rfl rfl nofun nofun nofun fun _ _ => rfl
    | worker => exact same hpc rfl trivial rfl rfl nofun nofun nofun nofun
  | register hpc | pend hpc => exact same hpc rfl trivial rfl rfl nofun nofun nofun fun _ _ => rfl
  | wait hpc hn =>
    refine ⟨_, _, rfl, trivial, .inl ⟨rfl, rfl⟩, nofun, nofun, fun tx h _ => ?_, fun _ _ _ => rfl,
      fun _ _ _ => .inl (by rw [hpc]; rfl)⟩
    cases h
    exact hn

theorem fits_move : ∀ t, (s'.pc t).Fits t := by
  obtain ⟨t, p, hl⟩ := lands hi h
  rw [← hl.pc]
  exact (Function.forall_update_iff s.pc fun u p => p.Fits u).mpr ⟨hl.fits, fun u _ => hi.fits u⟩

theorem appended_move (ha : (s.pc (.committer tx)).appended = true) :
    (s'.pc (.committer tx)).appended = true := by
  obtain ⟨t, p, hl⟩ := lands hi h
  rw [← hl.pc]
  obtain rfl | ht := eq_or_ne (Task.committer tx) t
  · rw [update_self]
    exact hl.keeps tx rfl ha
  · rwa [update_of_ne ht]

theorem appended_of_move (ha : (s'.pc (.committer tx)).appended = true) :
    (s.pc (.committer tx)).appended = true ∨ tx ∈ commitsOf s'.buffer := by
  obtain ⟨t, p, hl⟩ := lands hi h
  rw [← hl.pc] at ha
  obtain ⟨rfl, hp⟩ | ⟨-, ha⟩ := update_cases (P := fun p : Pc => p.appended = true) ha
  · exact hl.appends tx rfl hp
  · exact .inl ha

omit hi h

/-- What is durable stays durable. -/
theorem durable_move (h : Move capacity s a s') (hd : Durable s tx) : Durable s' tx := by
  obtain ⟨batch, hb, hr⟩ := hd
  cases h with
  | writeOk => exact ⟨batch, mem_append_left _ hb, hr⟩
  | _ => exact ⟨batch, hb, hr⟩

/-- A record that a flush takes moves with the flush; it is lost only when the flush
fails, and then it is no commit. -/
theorem located_move (hok : FlushInOrder s a) (h : Move capacity s a s') (hl : Located s tx) :
    Located s' tx := by
  have key : ∀ t p, update s.pc t p = s'.pc →
      (tx ∈ commitsOf s.buffer → Located s' tx) →
      (tx ∈ commitsOf (s.pc t).unwritten → Located s' tx) → Located s' tx := by
    intro t p hs hb ht
    rcases hl with hl | ⟨u, hu⟩ | hl
    · exact hb hl
    · by_cases hut : u = t
      · exact ht (hut ▸ hu)
      · exact .inr (.inl ⟨u, by rwa [← hs, update_of_ne hut]⟩)
    · exact .inr (.inr (durable_move h hl))
  -- the moving task carried nothing, and the buffer is as it was
  have idle : ∀ t p, update s.pc t p = s'.pc → s'.buffer = s.buffer →
      (s.pc t).unwritten = [] → Located s' tx := by
    intro t p hs hb ht
    refine key t p hs (fun h => .inl (by rwa [hb])) ?_
    rw [ht]
    nofun
  cases h with
  | append hpc | start hpc | commit hpc | fetch hpc | check hpc | store hpc | notify hpc
  | register hpc | pend hpc | wait hpc => exact idle _ _ rfl rfl (by rw [hpc]; rfl)
  | push hpc =>
    refine key _ _ rfl (fun h => .inl ?_) (by rw [hpc]; nofun)
    rw [goto_buffer, commitsOf_append]
    exact mem_append_left _ h
  | @take t _ hpc =>
    refine key _ _ rfl (fun h => .inr (.inl ⟨t, ?_⟩)) (by rw [hpc]; nofun)
    rwa [goto_pc, update_self]
  | @takePending t _ records p hpc hp =>
    refine key _ _ rfl .inl fun h => .inr (.inl ⟨t, ?_⟩)
    rw [hpc] at h
    rw [goto_pc, update_self]
    rcases hp with ⟨-, rfl⟩ | rfl
    · cases h
    · exact h
  | @offset t _ records txs base hpc =>
    refine key _ _ rfl .inl fun h => .inr (.inl ⟨t, ?_⟩)
    rw [hpc] at h
    rw [goto_pc, update_self]
    exact (commitsOf_frames base records).symm ▸ h
  | @writeOk t batch txs hpc =>
    refine key _ _ rfl .inl fun h => .inr (.inr (durable_iff.mpr ⟨batch, by simp, ?_⟩))
    rwa [hpc] at h
  | @writeFailed t n batch txs hpc =>
    simp only [FlushInOrder, hpc, reduceCtorEq, false_or] at hok
    refine key _ _ rfl .inl ?_
    simp [hpc, Pc.unwritten, hok]

include hi h

theorem locked_move : ∀ t records, s'.pc t = .takePending records → s'.bufferOwner = some t ∧
    s'.buffer = [] := by
  obtain ⟨t, p, hl⟩ := lands hi h
  intro u records hu
  rw [← hl.pc] at hu
  obtain ⟨rfl, hp⟩ | ⟨hut, hu⟩ := update_eq_cases hu
  · exact hl.locked records hp
  · obtain ⟨ho, hb⟩ := hi.locked u records hu
    rcases hl.buffer with ⟨hb', ho'⟩ | hother
    · exact ⟨ho'.trans ho, hb'.trans hb⟩
    · exact absurd (hother u ho) hut

theorem pending_move : ∀ tx ∈ s'.pendingCommits, (s'.pc (.committer tx)).appended = true := by
  have keep : ∀ tx ∈ s.pendingCommits, (s'.pc (.committer tx)).appended = true :=
    fun tx htx => appended_move hi h (hi.pending tx htx)
  cases h with
  | takePending => nofun
  | @pend tx _ hpc =>
    intro tx' htx'
    rcases mem_append.mp htx' with htx' | htx'
    · exact keep tx' htx'
    · rw [mem_singleton.mp htx', goto_pc, update_self]
      rfl
  | _ => exact keep

/-- A flush takes a pending commit when the buffer is empty, and no second record of
the transaction is ever pushed. -/
theorem drained_move :
    ∀ t, ∀ tx ∈ (s'.pc t).drained, (s'.pc (.committer tx)).appended = true ∧
    tx ∉ commitsOf s'.buffer := by
  have hbuf : ∀ t, ∀ tx ∈ (s.pc t).drained, tx ∉ commitsOf s'.buffer := by
    intro t tx htx
    obtain ⟨ha, hb⟩ := hi.drained t tx htx
    cases h with
    | @push _ _ lsn r _ hpc =>
      rw [goto_buffer, commitsOf_append, mem_append, not_or]
      refine ⟨hb, fun hr => ?_⟩
      rw [← (hi.fitsAt hpc tx).mp (commitsOf_singleton lsn 0 r ▸ hr), hpc] at ha
      cases ha
    | take => nofun
    | _ => exact hb
  obtain ⟨u, p, hl⟩ := lands hi h
  intro t tx htx
  have hold : tx ∈ (s.pc t).drained ∨ tx ∈ s.pendingCommits ∧ s'.buffer = [] := by
    rw [← hl.pc] at htx
    obtain ⟨rfl, hp⟩ | ⟨-, htx⟩ := update_cases (P := fun p : Pc => tx ∈ p.drained) htx
    · exact hl.drained tx hp
    · exact .inl htx
  rcases hold with hold | ⟨hp, hb⟩
  · exact ⟨appended_move hi h (hi.drained t tx hold).1, hbuf t tx hold⟩
  · exact ⟨appended_move hi h (hi.pending tx hp), by simp [hb]⟩

omit hi h

include hi

/-- What a flush notifies is durable: its record has left the buffer and is with no
flush any more. -/
theorem notified_move (hok : FlushInOrder s a) (h : Move capacity s a s') : ∀ tx ∈ s'.notified,
    Durable s' tx := by
  have keep : ∀ tx ∈ s.notified, Durable s' tx := fun tx htx => durable_move h (hi.notified tx htx)
  cases h with
  | @notify t _ txs hpc =>
    intro tx htx
    rcases mem_append.mp htx with htx | htx
    · exact keep tx htx
    · have htx : tx ∈ txs := by simpa using (mem_filter.mp htx).2
      simp only [FlushInOrder, hpc] at hok
      obtain ⟨ha, hb⟩ := hi.drained t tx (by rw [hpc]; exact htx)
      rcases hi.located tx ha with hl | ⟨u, hu⟩ | hl
      · exact absurd hl hb
      · exact absurd hu (hok tx htx u)
      · exact hl
  | _ => exact keep

theorem done_move (h : Move capacity s a s') : ∀ tx, s'.pc (.committer tx) = .done → Durable s' tx := by
  obtain ⟨t, p, hl⟩ := lands hi h
  intro tx htx
  refine durable_move h ?_
  rw [← hl.pc] at htx
  obtain ⟨ht, htx⟩ | ⟨-, htx⟩ := update_eq_cases htx
  · exact hi.notified tx (hl.done tx ht.symm htx)
  · exact hi.done tx htx

theorem inv_step (hok : FlushInOrder s a) (hstep : step capacity s a = some s') : Inv s' := by
  have h := move_of_step hstep
  refine ⟨fits_move hi h, locked_move hi h, fun tx ha => ?_, pending_move hi h, drained_move hi h,
    notified_move hi hok h, done_move hi h⟩
  rcases appended_of_move hi h ha with ha | hb
  · exact located_move hok h (hi.located tx ha)
  · exact .inl hb

end Step

/-! ### Acknowledged commits -/

/-- **An acknowledged commit is durable** in every interleaving that meets
`FlushInOrder`: when `append_commit_and_wait` has returned for `tx`, the `CommitTxn`
record of `tx` is in a batch whose `write_batch` has returned `Ok`. -/
theorem acknowledged_commit_durable (capacity : ℕ) (as : List Label) (s : State) (tx : ℕ)
    (hrun : run (step capacity) init as = some s) (hok : Guarded FlushInOrder (step capacity) init as)
    (hdone : s.pc (.committer tx) = .done) : Durable s tx :=
  (run_invariant (fun _ _ _ hi hok h => inv_step hi hok h) inv_init hok hrun).done tx hdone

/-- A commit and one round of the flush loop, the write having the outcome `o`. -/
def commitAndFlush (o : Outcome) : List Label :=
  [.begin (.committer 1) (.commit 0), .step (.committer 1) .ok, .step (.committer 1) .ok,
    .step (.committer 1) .ok, .step (.committer 1) .ok,
    .begin (.worker 0) .flushLoop, .step (.worker 0) .ok, .step (.worker 0) .ok,
    .step (.worker 0) .ok, .step (.worker 0) .ok, .step (.worker 0) o, .step (.worker 0) .ok,
    .step (.committer 1) .ok]

theorem acknowledged_commit_durable_flush :
    ∃ s, run (step 2) init (commitAndFlush .ok) = some s ∧ s.pc (.committer 1) = .done ∧
    Durable s 1 := by
  refine ⟨_, rfl, rfl, acknowledged_commit_durable 2 (commitAndFlush .ok) _ 1 rfl ?_ rfl⟩
  iterate 10 refine ⟨trivial, ?_⟩; rintro _ ⟨⟩
  refine ⟨.inl rfl, ?_⟩
  rintro _ ⟨⟩
  refine ⟨?_, ?_⟩
  · intro tx _ u
    cases u with
    | committer n => by_cases h : n = 1 <;> simp [h, State.goto, init, Pc.unwritten]
    | worker n => by_cases h : n = 0 <;> simp [h, State.goto, init, Pc.unwritten]
  rintro _ ⟨⟩
  exact ⟨trivial, fun _ _ => trivial⟩

/-- Transaction 1 pushes its record; the append of another task fills the buffer and
its flush takes both records, but has not written them when transaction 1 joins the
pending list; the flush loop finds an empty buffer, takes the pending list and
notifies. -/
def overlappingFlushes : List Label :=
  [.begin (.committer 1) (.commit 0), .step (.committer 1) .ok, .step (.committer 1) .ok,
    .begin (.worker 0) (.append (.beginTxn 2)), .step (.worker 0) .ok, .step (.worker 0) .ok,
    .step (.worker 0) .ok, .step (.worker 0) .ok,
    .step (.committer 1) .ok, .step (.committer 1) .ok,
    .begin (.worker 1) .flushLoop, .step (.worker 1) .ok, .step (.worker 1) .ok,
    .step (.worker 1) .ok, .step (.worker 1) .ok,
    .step (.committer 1) .ok]

/-- A commit is acknowledged although nothing was written: when the write of its batch
fails, and, with no failure at all, when two flushes overlap. -/
theorem acknowledged_commit_not_durable :
    (∃ s, run (step 2) init (commitAndFlush (.failed 0)) = some s ∧
      s.pc (.committer 1) = .done ∧ ¬ Durable s 1) ∧
    ∃ s, run (step 2) init overlappingFlushes = some s ∧ s.pc (.committer 1) = .done ∧
    ¬ Durable s 1 := by
  refine ⟨⟨_, rfl, rfl, ?_⟩, ⟨_, rfl, rfl, ?_⟩⟩
  all_goals
    rintro ⟨batch, ⟨⟩, -⟩

end RTsql.Wal.Buffer

import Mathlib.Data.List.MinMax
import RTsql.Wal.Checkpoint.Order

/-!
# Transaction ids across restarts

`TransactionManager::begin` allocates ids in order. After a restart the allocator goes on from the
largest id that `full_recover` finds in the WAL (in the records that begin and end transactions) or
in the site file, into which each checkpoint writes the allocator's value (the watermark).

The WAL, the pages and the checkpoints are those of `Wal.Checkpoint`. Added are the allocator, the
watermark, and that the site file is emptied before it is written.

* `ids_not_reused` — while pages and records reach the files after the records that begin their
  transactions, checkpoints do not overlap and none is cut short while the site file is empty, the
  next id is larger than every id in the files.
* `id_reused` — a page that is evicted before the WAL buffer is flushed, and an empty site file.
-/

namespace RTsql.Wal.TransactionIds

open List Option RTsql.Library RTsql.Storage Checkpoint
open Function (update update_of_ne)
open RTsql.Wal.Checkpoint (Frame Entry Chk entries bytes)

/-! ### The model -/

structure State where
  base : Checkpoint.State
  /-- `tx_id_allocator` -/
  counter : ℕ
  /-- The watermark in the site file. -/
  watermark : Option ℕ
  /-- The watermarks that the running checkpoints have read. -/
  marks : ℕ → Option ℕ
  /-- The checkpoint that has emptied the site file and has not yet written it. -/
  opened : Option ℕ
  /-- The transactions whose `BeginTxn` record was ever written. -/
  begun : List ℕ

def init (capacity : ℕ) : State :=
  { base := Checkpoint.init capacity, counter := 0, watermark := none,
    marks := fun _ => none, opened := none, begun := [] }

/-- The ids that `full_recover` collects. -/
def collectedId : WalRecord → Option ℕ
  | .beginTxn tx | .commit tx _ | .commitTxn tx _ | .abort tx | .abortTxn tx => some tx
  | _ => none

def collected (fs : List Frame) : List ℕ := (entries fs).filterMap fun e => collectedId e.record

/-- The transactions that the frames begin. -/
def begunBy (fs : List Frame) : List ℕ :=
  (entries fs).filterMap fun e =>
    match e.record with
    | .beginTxn tx => some tx
    | _ => none

/-- The end of `open_internal`: the argument of `advance_past`. -/
def State.recovered (s : State) : ℕ := max ((collected s.base.file).foldr max 0) (s.watermark.getD 0)

inductive Label where
  | begin
  /-- The checkpoint reads the allocator. -/
  | readWatermark (c : ℕ)
  /-- The checkpoint empties the site file. -/
  | openSite (c : ℕ)
  | flushAll (c : ℕ) (order : List ℕ)
  | checkpoint (c timestamp : ℕ)
  | checkpointFails (c : ℕ)
  /-- A batch is not written, and lost. -/
  | writeFails (fs : List Frame)
  | crash
  /-- Any other step of `Wal.Checkpoint`. -/
  | other (label : Checkpoint.Label)

/-- The steps in which neither ids nor checkpoints play a part. -/
def isOther : Checkpoint.Label → Bool
  | .begin _ | .flushAll _ _ | .checkpoint _ _ | .checkpointFails _ | .crash => false
  | _ => true

/-- What the step adds to `begun`. -/
def newlyBegun : Checkpoint.Label → List ℕ
  | .write fs => begunBy fs
  | _ => []

/-- `begin`. -/
def State.begin (s : State) : State :=
  { s with
    counter := s.counter + 1
    base := { s.base with
      live := (s.counter + 1) :: s.base.live
      used := (s.counter + 1) :: s.base.used }.push (.beginTxn (s.counter + 1)) }

/-- The next step of a checkpoint. It writes the site file, which it has emptied, in its fifth and
in its eighth step. -/
def State.checkpoint (s : State) (c timestamp : ℕ) : Option State :=
  (checkpointStep s.base c timestamp).bind fun base =>
    match s.base.chk c with
    | .idle => some { s with base := base, marks := update s.marks c none }
    | .synced _ | .truncated =>
      if s.opened = some c then
        some { s with base := base, watermark := s.marks c, opened := none } else none
    | _ => some { s with base := base }

def step (s : State) : Label → Option State
  | .begin => if s.base.redo = [] then some s.begin else none
  | .readWatermark c =>
    match s.base.chk c with
    | .captured _ => some { s with marks := update s.marks c (some s.counter) }
    | _ => none
  | .openSite c =>
    match s.base.chk c with
    | .synced _ | .truncated =>
      some { s with base := { s.base with site := none }, watermark := none, opened := some c }
    | _ => none
  -- The watermark is read before the pages are flushed.
  | .flushAll c order =>
    if (s.marks c).isSome then
      (Checkpoint.step s.base (.flushAll c order)).map fun base => { s with base := base }
    else none
  | .checkpoint c timestamp => s.checkpoint c timestamp
  | .checkpointFails c =>
    some { s with
      base := s.base.goto c .idle
      opened := if s.opened = some c then none else s.opened }
  | .writeFails fs =>
    if fs ∈ s.base.based then
      some { s with base := { s.base with based := s.base.based.erase fs } } else none
  | .crash =>
    (Checkpoint.step s.base .crash).map fun base =>
      { s with base := base, counter := s.recovered, marks := fun _ => none, opened := none }
  | .other label =>
    if isOther label then
      (Checkpoint.step s.base label).map fun base =>
        { s with base := base, begun := newlyBegun label ++ s.begun }
    else none

/-- The write-ahead rule for the records that begin transactions: what reaches a file belongs to
transactions whose `BeginTxn` record has reached the WAL. One checkpoint runs at a time, and no
crash or error comes while the site file is empty. -/
def Ok (s : State) : Label → Prop
  | .other (.pool label) => ∀ c ∈ s.base.pool.stored label, ∀ e ∈ c.data, e.record.txId ∈ s.begun
  | .other (.write fs) => ∀ e ∈ entries fs, e.record.txId ∈ begunBy fs ++ s.begun
  | .checkpoint c _ => s.base.chk c = .idle → ∀ c', s.base.chk c' = .idle
  | .checkpointFails c => s.opened ≠ some c
  | .crash => s.opened = none
  | _ => True

/-! ### What recovery will find -/

/-- The watermark in the site file, or the one that is about to be there. -/
def State.mark (s : State) : ℕ :=
  match s.opened with
  | some c => (s.marks c).getD 0
  | none => s.watermark.getD 0

/-- Recovery finds this id or a larger one. -/
def State.Known (s : State) (tx : ℕ) : Prop := tx ≤ s.mark ∨ ∃ id ∈ collected s.base.file, tx ≤ id

/-- The file begins with the part that the checkpoint is going to cut off, whose ids are below its
watermark. -/
def State.Cut (s : State) (c lsn : ℕ) : Prop :=
  ∃ pre rest, s.base.file = pre ++ rest ∧ bytes pre = lsn ∧ ∀ m ∈ s.marks c, ∀ id ∈ collected pre, id ≤ m

/-- What is known of a checkpoint. -/
def State.Phase (s : State) (c : ℕ) : Chk → Prop
  | .idle => True
  | .captured lsn => s.Cut c lsn ∧ ∀ m ∈ s.marks c, s.mark ≤ m ∧ m ≤ s.counter
  | .flushing lsn _ | .flushed lsn | .synced lsn =>
    s.Cut c lsn ∧ ∃ m ∈ s.marks c, s.mark ≤ m ∧ m ≤ s.counter
  | .sited lsn | .marked lsn => s.Cut c lsn ∧ s.marks c = some s.mark
  | .truncated => s.marks c = some s.mark

structure Inv (s : State) : Prop where
  mark_le : s.mark ≤ s.counter
  collected_le : ∀ id ∈ collected s.base.file, id ≤ s.counter
  known : ∀ tx ∈ s.begun, s.Known tx
  disk : ∀ e ∈ s.base.disk, e.record.txId ∈ s.begun
  file : ∀ e ∈ entries s.base.file, e.record.txId ∈ s.begun
  live : ∀ tx ∈ s.base.live, tx ≤ s.counter
  /-- Records on their way. -/
  flight : ∀ e ∈ s.base.unlogged ++ s.base.buffer ++ flight s.base, e.record.txId ≤ s.counter
  phase : ∀ c, s.Phase c (s.base.chk c)
  one : ∀ c c', s.base.chk c ≠ .idle → s.base.chk c' ≠ .idle → c = c'
  opened : ∀ c ∈ s.opened, (∃ lsn, s.base.chk c = .synced lsn) ∨ s.base.chk c = .truncated

variable {s s' : State} {fs gs : List Frame} {tx c lsn : ℕ} {b base : Checkpoint.State} {phase : Chk}

@[simp] theorem collected_append (fs gs : List Frame) :
    collected (fs ++ gs) = collected fs ++ collected gs := by
  simp [collected]

variable {id n timestamp : ℕ}

theorem mem_collected : id ∈ collected fs ↔ ∃ e ∈ entries fs, collectedId e.record = some id := by
  simp [collected]

theorem txId_of_collectedId {r : WalRecord} (h : collectedId r = some id) : r.txId = id := by
  cases r <;> simp_all [collectedId, WalRecord.txId]

theorem mem_collected_of_begunBy (h : tx ∈ begunBy fs) : tx ∈ collected fs := by
  obtain ⟨e, he, hrecord⟩ := mem_filterMap.mp h
  refine mem_collected.mpr ⟨e, he, ?_⟩
  cases hr : e.record <;> simp_all [collectedId]

theorem Inv.known_le (h : Inv s) (hknown : s.Known tx) : tx ≤ s.counter := by
  obtain hmark | ⟨id, hid, hle⟩ := hknown
  · exact hmark.trans h.mark_le
  · exact hle.trans (h.collected_le id hid)

theorem State.Cut.append (h : s.Cut c lsn) (hfile : s'.base.file = s.base.file ++ fs)
    (hmarks : s'.marks c = s.marks c) : s'.Cut c lsn := by
  obtain ⟨pre, rest, hpre, hlen, hids⟩ := h
  exact ⟨pre, rest ++ fs, by rw [hfile, hpre, append_assoc], hlen, by rwa [hmarks]⟩

/-- The file grows, the watermarks stay. -/
theorem State.Phase.append (h : s.Phase c phase) (hfile : s'.base.file = s.base.file ++ fs)
    (hmarks : s'.marks c = s.marks c) (hmark : s'.mark = s.mark) (hcounter : s.counter ≤ s'.counter) :
    s'.Phase c phase := by
  cases phase with
  | idle => trivial
  | captured lsn =>
    refine ⟨h.1.append hfile hmarks, ?_⟩
    rw [hmarks, hmark]
    exact fun m hm => ⟨(h.2 m hm).1, (h.2 m hm).2.trans hcounter⟩
  | flushing lsn _ | flushed lsn | synced lsn =>
    obtain ⟨hcut, m, hm, hle, hle'⟩ := h
    refine ⟨hcut.append hfile hmarks, m, ?_, ?_, hle'.trans hcounter⟩
    · rwa [hmarks]
    · rwa [hmark]
  | sited lsn | marked lsn =>
    refine ⟨h.1.append hfile hmarks, ?_⟩
    rw [hmarks, hmark]
    exact h.2
  | truncated =>
    change s'.marks c = some s'.mark
    rwa [hmarks, hmark]

/-! ### The steps -/

variable (h : Inv s)

include h

/-- The allocator goes on. -/
theorem Inv.counter (hn : s.counter ≤ n) : Inv { s with counter := n } := { h with
  mark_le := h.mark_le.trans hn
  collected_le id hid := (h.collected_le id hid).trans hn
  live tx htx := (h.live tx htx).trans hn
  flight e he := (h.flight e he).trans hn
  phase c := (h.phase c).append (append_nil _).symm rfl rfl hn }

/-- Frames are appended to the WAL, and the checkpoints stay where they are. -/
theorem Inv.append (hfile : b.file = s.base.file ++ fs) (hchk : b.chk = s.base.chk)
    (hfs : ∀ e ∈ entries fs, e.record.txId ≤ s.counter ∧ e.record.txId ∈ begunBy fs ++ s.begun)
    (hdisk : ∀ e ∈ b.disk, e.record.txId ∈ begunBy fs ++ s.begun) (hlive : ∀ tx ∈ b.live, tx ≤ s.counter)
    (hflight : ∀ e ∈ b.unlogged ++ b.buffer ++ Checkpoint.flight b, e.record.txId ≤ s.counter) :
    Inv { s with base := b, begun := begunBy fs ++ s.begun } where
  mark_le := h.mark_le
  collected_le id hid := by
    rw [hfile, collected_append, mem_append] at hid
    obtain hid | hid := hid
    · exact h.collected_le id hid
    · obtain ⟨e, he, hrecord⟩ := mem_collected.mp hid
      exact txId_of_collectedId hrecord ▸ (hfs e he).1
  known tx htx := by
    obtain htx | htx := mem_append.mp htx
    · refine .inr ⟨tx, ?_, le_rfl⟩
      rw [hfile, collected_append]
      exact mem_append_right _ (mem_collected_of_begunBy htx)
    · refine (h.known tx htx).imp_right ?_
      rintro ⟨id, hid, hle⟩
      refine ⟨id, ?_, hle⟩
      rw [hfile, collected_append]
      exact mem_append_left _ hid
  disk := hdisk
  file e he := by
    rw [hfile, entries_append, mem_append] at he
    obtain he | he := he
    · exact mem_append_right _ (h.file e he)
    · exact (hfs e he).2
  live := hlive
  flight := hflight
  phase c := by
    rw [hchk]
    exact (h.phase c).append hfile rfl rfl le_rfl
  one := by
    rw [hchk]
    exact h.one
  opened := by
    rw [hchk]
    exact h.opened

/-- Nothing is written to the WAL. -/
theorem Inv.with_base (hfile : b.file = s.base.file) (hchk : b.chk = s.base.chk)
    (hdisk : ∀ e ∈ b.disk, e.record.txId ∈ s.begun) (hlive : ∀ tx ∈ b.live, tx ≤ s.counter)
    (hflight : ∀ e ∈ b.unlogged ++ b.buffer ++ Checkpoint.flight b, e.record.txId ≤ s.counter) :
    Inv { s with base := b } := by
  have hfile' : b.file = s.base.file ++ [] := by rw [hfile, append_nil]
  exact h.append hfile' hchk nofun hdisk hlive hflight

theorem Inv.begin : Inv s.begin := by
  have h := h.counter (Nat.le_succ s.counter)
  refine h.with_base rfl rfl h.disk (forall_mem_cons.mpr ⟨le_rfl, h.live⟩) fun e he => ?_
  · simp only [Checkpoint.State.push, mem_append, mem_singleton] at he
    rcases he with (he | he | rfl) | he
    · exact h.flight e (by simp [he])
    · exact h.flight e (by simp [he])
    · exact le_rfl
    · exact h.flight e (mem_append_right _ he)

/-- Records on their way have come from where they were. -/
theorem Inv.flight_of (hb : ∀ e, e ∈ b.unlogged ∨ e ∈ b.buffer ∨ e ∈ Checkpoint.flight b →
      e.record.txId ≤ s.counter ∨ e ∈ s.base.unlogged ∨ e ∈ s.base.buffer ∨
      e ∈ Checkpoint.flight s.base) :
    ∀ e ∈ b.unlogged ++ b.buffer ++ Checkpoint.flight b, e.record.txId ≤ s.counter := by
  intro e he
  rw [append_assoc, mem_append, mem_append] at he
  obtain hle | he := hb e he
  · exact hle
  · refine h.flight e ?_
    rwa [append_assoc, mem_append, mem_append]

/-- A transaction of this session appends a record. -/
theorem Inv.push (r : WalRecord) (hlive : r.txId ∈ s.base.live)
    (hb : b = { s.base with live := b.live, closing := b.closing }.push r)
    (hsub : b.live ⊆ s.base.live) : Inv { s with base := b } := by
  have hbuffer : b.buffer = s.base.buffer ++ [⟨s.base.nextId, r, 0⟩] := by rw [hb]; rfl
  have hfile : b.file = s.base.file := by rw [hb]; rfl
  refine h.with_base hfile (by rw [hb]; rfl) (by rw [hb]; exact h.disk)
    (fun tx htx => h.live tx (hsub htx)) ?_
  refine h.flight_of fun e he => ?_
  rw [hbuffer, mem_append, mem_singleton] at he
  rcases he with he | (he | rfl) | he
  · exact .inr (.inl (by rw [hb] at he; exact he))
  · exact .inr (.inr (.inl he))
  · exact .inl (h.live _ hlive)
  · exact .inr (.inr (.inr (by rw [hb] at he; exact he)))

omit h in
/-- What is new in the data file was on the copy that was written. -/
theorem disk_of_move {s s' : Checkpoint.State} {a : Checkpoint.Label} {e : Entry} (h : Move s a s')
    (he : e ∈ s'.disk) :
    e ∈ s.disk ∨ ∃ label, a = .pool label ∧ ∃ c ∈ s.pool.stored label, e ∈ c.data := by
  cases h with
  | @pool label pool hwhole _ hpool =>
    have hsame (hstorage : pool.mem.storage = s.pool.mem.storage) : e ∈ s.disk := by
      simpa [Checkpoint.State.disk, hstorage] using he
    cases BufferPool.effect_of_step hwhole hpool with
    | quiet hstorage => exact .inl (hsame hstorage)
    | modified _ _ hstorage => exact .inl (hsame hstorage)
    | @stored c hc hstorage =>
      have he : e ∈ update s.pool.mem.storage c.page c.data e.page := hstorage ▸ he
      obtain ⟨-, he⟩ | ⟨-, he⟩ := update_cases (P := (e ∈ ·)) he
      · exact .inr ⟨label, rfl, c, hc, he⟩
      · exact .inl he
  | flushAll _ _ hpool => cases hpool; exact .inl he
  | _ => exact .inl he

theorem Inv.other {label : Checkpoint.Label} (hother : isOther label = true)
    (hok : Ok s (.other label)) (hstep : Checkpoint.step s.base label = some b) :
    Inv { s with base := b, begun := newlyBegun label ++ s.begun } := by
  have hmove := move_of_step hstep
  have hdisk : ∀ e ∈ b.disk, e.record.txId ∈ s.begun := fun e he => by
    obtain he | ⟨label, rfl, c, hc, he⟩ := disk_of_move hmove he
    · exact h.disk e he
    · exact hok c hc e he
  cases hmove with
  | begin | flushAll | capture | flushed | sync | writeSite | mark | truncate | reset | fail | crash => nomatch hother
  | modify hlive =>
    refine h.with_base rfl rfl hdisk h.live (h.flight_of fun e he => ?_)
    rcases he with he | he | he
    · obtain rfl | he := mem_cons.mp he
      · exact .inl (h.live _ hlive)
      · exact .inr (.inl he)
    · exact .inr (.inr (.inl he))
    · exact .inr (.inr (.inr he))
  | append he =>
    refine h.with_base rfl rfl h.disk h.live (h.flight_of fun x hx => .inr ?_)
    rcases hx with hx | hx | hx
    · exact .inl (mem_of_mem_erase hx)
    · obtain hx | hx := mem_append.mp hx
      · exact .inr (.inl hx)
      · exact .inl (mem_singleton.mp hx ▸ he)
    · exact .inr (.inr hx)
  | commit hlive => exact h.push (.commitTxn _ _) hlive rfl (filter_subset_self _)
  | abort hlive => exact h.push (.abortTxn _) hlive rfl (filter_subset_self _)
  | take =>
    refine h.with_base rfl rfl h.disk h.live (h.flight_of fun x hx => .inr ?_)
    simp only [mem_flight, not_mem_nil, false_or, mem_cons] at hx ⊢
    rcases hx with hx | ⟨es, rfl | hes, hx⟩ | hx
    · exact .inl hx
    · exact .inr (.inl hx)
    · exact .inr (.inr (.inl ⟨es, hes, hx⟩))
    · exact .inr (.inr (.inr hx))
  | readLen hes =>
    refine h.with_base rfl rfl h.disk h.live (h.flight_of fun x hx => .inr ?_)
    rwa [mem_flight_readLen hes] at hx
  | @write fs hfs =>
    have hflight (e : Entry) (he : e ∈ entries fs) : e.record.txId ≤ s.counter :=
      h.flight e (mem_append_right _ (mem_flight_of_mem_based hfs he))
    refine h.append rfl rfl (fun e he => ⟨hflight e he, hok e he⟩) (fun e he => ?_) h.live
      (h.flight_of fun x hx => .inr ?_)
    · exact mem_append_right _ (hdisk e he)
    · exact hx.imp_right (·.imp_right (flight_erase_subset (s := s.base)))
  | pool | redo => exact h.with_base rfl rfl hdisk h.live h.flight

omit h

/-- Checkpoint `c` is at `phase`, with these files. -/
def State.moved (s : State) (c : ℕ) (phase : Chk) (file : List Frame) (site watermark : Option ℕ)
    (marks : ℕ → Option ℕ) (opened : Option ℕ) : State :=
  { s with
    base := { s.base with file := file, site := site, chk := update s.base.chk c phase }
    watermark := watermark
    marks := marks
    opened := opened }

variable {marks : ℕ → Option ℕ} {site watermark opened : Option ℕ} {file : List Frame}

/-- The only checkpoint moves on. -/
theorem Inv.moved (h : Inv s) (halone : ∀ c', c' ≠ c → s.base.chk c' = .idle)
    (hfile : ∀ e ∈ entries file, e ∈ entries s.base.file)
    (hmark : (s.moved c phase file site watermark marks opened).mark ≤ s.counter)
    (hknown : ∀ tx, s.Known tx → (s.moved c phase file site watermark marks opened).Known tx)
    (hphase : (s.moved c phase file site watermark marks opened).Phase c phase)
    (hopened : ∀ c' ∈ opened, c' = c ∧ ((∃ lsn, phase = .synced lsn) ∨ phase = .truncated)) :
    Inv (s.moved c phase file site watermark marks opened) := { h with
  mark_le := hmark
  collected_le id hid := by
    obtain ⟨e, he, hrecord⟩ := mem_collected.mp hid
    exact h.collected_le id (mem_collected.mpr ⟨e, hfile e he, hrecord⟩)
  known tx htx := hknown tx (h.known tx htx)
  file e he := h.file e (hfile e he)
  phase c' := by
    change State.Phase _ c' (update s.base.chk c phase c')
    obtain rfl | hne := eq_or_ne c' c
    · rwa [Function.update_self]
    · rw [update_of_ne hne, halone c' hne]
      trivial
  one c₁ c₂ h₁ h₂ := by
    have heq (c' : ℕ) (hc' : update s.base.chk c phase c' ≠ .idle) : c' = c := by
      by_contra hne
      rw [update_of_ne hne] at hc'
      exact hc' (halone c' hne)
    rw [heq c₁ h₁, heq c₂ h₂]
  opened c' hc' := by
    obtain ⟨rfl, hwriting⟩ := hopened c' hc'
    simpa [State.moved] using hwriting }

/-- A running checkpoint is the only one. -/
theorem Inv.alone (h : Inv s) (hc : s.base.chk c ≠ .idle) : ∀ c', c' ≠ c → s.base.chk c' = .idle := by
  intro c' hne
  by_contra hc'
  exact hne (h.one c' c hc' hc)

/-- The site file is not empty while the only checkpoint is at another phase. -/
theorem Inv.closed (h : Inv s) (c : ℕ) (halone : ∀ c', c' ≠ c → s.base.chk c' = .idle)
    (hsynced : ∀ lsn, s.base.chk c ≠ .synced lsn) (htruncated : s.base.chk c ≠ .truncated) :
    s.opened = none := by
  by_contra hsome
  obtain ⟨c', hc'⟩ := ne_none_iff_exists'.mp hsome
  have hwriting := h.opened c' hc'
  obtain rfl | hne := eq_or_ne c' c
  · obtain ⟨lsn, hlsn⟩ | htrunc := hwriting
    · exact hsynced lsn hlsn
    · exact htruncated htrunc
  · simp [halone c' hne] at hwriting

theorem mark_moved (hnone : s.opened = none) (c : ℕ) (phase : Chk) (file : List Frame) (site : Option ℕ)
    (marks : ℕ → Option ℕ) : (s.moved c phase file site s.watermark marks s.opened).mark = s.mark := by
  simp [State.mark, State.moved, hnone]

variable (halone : ∀ c', c' ≠ c → s.base.chk c' = .idle)

include h halone

/-- The only checkpoint moves on while the site file is not empty: ids that leave the WAL are below
the watermark. -/
theorem Inv.moved_closed (hnone : s.opened = none) (hfile : ∀ e ∈ entries file, e ∈ entries s.base.file)
    (hkept : ∀ id ∈ collected s.base.file, id ≤ s.mark ∨ id ∈ collected file)
    (hphase : (s.moved c phase file site s.watermark marks s.opened).Phase c phase) :
    Inv (s.moved c phase file site s.watermark marks s.opened) := by
  have hmark := mark_moved hnone c phase file site marks
  refine h.moved halone hfile (hmark ▸ h.mark_le) (fun tx htx => ?_) hphase (by simp [hnone])
  rw [State.Known, hmark]
  obtain hle | ⟨id, hid, hle⟩ := htx
  · exact .inl hle
  · exact (hkept id hid).imp hle.trans fun hid => ⟨id, hid, hle⟩

/-- A checkpoint goes on and leaves the files alone. -/
theorem Inv.quiet (hnone : s.opened = none) (hphase : s.Phase c phase) : Inv
      (s.moved c phase s.base.file s.base.site s.watermark s.marks s.opened) :=
  h.moved_closed halone hnone (fun _ => id) (fun _ => .inr)
    (hphase.append (append_nil _).symm rfl rfl le_rfl)

/-- The site file is written with the watermark that was read. -/
theorem Inv.writeSite (hopened : s.opened = some c)
    (hphase : (s.moved c phase s.base.file site (s.marks c) s.marks none).Phase c phase) :
    Inv (s.moved c phase s.base.file site (s.marks c) s.marks none) := by
  have hmark : (s.moved c phase s.base.file site (s.marks c) s.marks none).mark = s.mark := by
    simp [State.mark, State.moved, hopened]
  refine h.moved halone (fun _ => id) (hmark ▸ h.mark_le) (fun tx htx => ?_) hphase nofun
  rwa [State.Known, hmark]

omit h halone

theorem Inv.checkpoint (h : Inv s) (hok : Ok s (.checkpoint c timestamp))
    (hs : s.checkpoint c timestamp = some s') : Inv s' := by
  have hphase := h.phase c
  have halone : ∀ c', c' ≠ c → s.base.chk c' = .idle := by
    by_cases hidle : s.base.chk c = .idle
    · exact fun c' _ => hok hidle c'
    · exact h.alone hidle
  have hclosed := h.closed c halone
  obtain ⟨base, hbase, hs⟩ := bind_eq_some_iff.mp hs
  cases move_of_checkpointStep hbase with
  | capture hc =>
    simp only [hc] at hs
    cases hs
    refine h.moved_closed halone (hclosed (by simp [hc]) (by simp [hc])) (fun _ => id) (fun _ => .inr) ?_
    exact ⟨⟨s.base.file, [], by simp [State.moved], rfl, by simp [State.moved]⟩, by simp [State.moved]⟩
  | flushed hc | sync hc =>
    simp only [hc] at hs hphase
    cases hs
    exact h.quiet halone (hclosed (by simp [hc]) (by simp [hc])) hphase
  | writeSite hc =>
    simp only [hc] at hs hphase
    obtain ⟨hopened, rfl⟩ := of_guard hs
    obtain ⟨hcut, m, hm, -⟩ := hphase
    refine h.writeSite halone hopened ⟨hcut.append (append_nil _).symm rfl, ?_⟩
    simp_all [State.mark, State.moved]
  | mark hc =>
    simp only [hc] at hs hphase
    cases hs
    exact h.moved_closed halone (hclosed (by simp [hc]) (by simp [hc])) (fun e he => by simpa using he)
      (fun id hid => .inr (by simp [hid])) ⟨hphase.1.append rfl rfl, hphase.2⟩
  | truncate hc hfs =>
    simp only [hc] at hs hphase
    cases hs
    obtain ⟨⟨pre, rest, hpre, hlen, hids⟩, hmarks⟩ := hphase
    rw [hpre, ← hlen, dropBytes_append] at hfs
    cases hfs
    refine h.moved_closed halone (hclosed (by simp [hc]) (by simp [hc])) (fun e he => ?_)
      (fun id hid => ?_) hmarks
    · rw [hpre, entries_append]
      exact mem_append_right _ he
    · -- An id that is cut off is below the watermark.
      rw [hpre, collected_append, mem_append] at hid
      exact hid.imp_left (hids s.mark hmarks id)
  | reset hc =>
    simp only [hc] at hs
    obtain ⟨hopened, rfl⟩ := of_guard hs
    exact h.writeSite halone hopened trivial

theorem Inv.flushAll {order : List ℕ} (h : Inv s) (hmarks : (s.marks c).isSome = true)
    (hbase : Checkpoint.step s.base (.flushAll c order) = some base) : Inv { s with base := base } := by
  cases move_of_step hbase with
  | @flushAll _ _ lsn pool hc _ hpool =>
    have hdisk : ∀ e ∈ { s.base with pool := pool }.disk, e.record.txId ∈ s.begun := by
      cases hpool
      exact h.disk
    have hphase := h.phase c
    rw [hc] at hphase
    obtain ⟨m, hm⟩ := isSome_iff_exists.mp hmarks
    have hflushing : State.Phase { s with base := { s.base with pool := pool } } c
        (.flushing lsn s.base.pool.flushes.length) :=
      ⟨hphase.1.append (append_nil _).symm rfl, m, hm, hphase.2 m hm⟩
    have halone := h.alone (c := c) (by simp [hc])
    have hpool := h.with_base (b := { s.base with pool := pool }) rfl rfl hdisk h.live h.flight
    exact hpool.quiet halone (h.closed c halone (by simp [hc]) (by simp [hc])) hflushing

/-- A checkpoint stays where it is. -/
theorem moved_self (s : State) (c : ℕ) (site watermark : Option ℕ) (marks : ℕ → Option ℕ)
    (opened : Option ℕ) : s.moved c (s.base.chk c) s.base.file site watermark marks opened =
      { s with base := { s.base with site := site }, watermark := watermark
               marks := marks, opened := opened } := by
  simp [State.moved]

include h

theorem Inv.readWatermark (hc : s.base.chk c = .captured lsn) :
    Inv { s with marks := update s.marks c (some s.counter) } := by
  have hrunning : s.base.chk c ≠ .idle := by simp [hc]
  have hnone := h.closed c (h.alone hrunning) (by simp [hc]) (by simp [hc])
  have hmoved : Inv (s.moved c (s.base.chk c) s.base.file s.base.site s.watermark
      (update s.marks c (some s.counter)) s.opened) := by
    refine h.moved_closed (h.alone hrunning) hnone (fun _ => id) (fun _ => .inr) ?_
    have hphase := h.phase c
    rw [hc] at hphase ⊢
    obtain ⟨⟨pre, rest, hpre, hlen, -⟩, -⟩ := hphase
    refine ⟨⟨pre, rest, hpre, hlen, fun m hm id hid => ?_⟩, fun m hm => ?_⟩
    · obtain rfl : s.counter = m := by simpa [State.moved] using hm
      exact h.collected_le id (by simp [hpre, hid])
    · obtain rfl : s.counter = m := by simpa [State.moved] using hm
      rw [mark_moved hnone]
      exact ⟨h.mark_le, le_rfl⟩
  rwa [moved_self] at hmoved

theorem Inv.openSite (hc : (∃ lsn, s.base.chk c = .synced lsn) ∨ s.base.chk c = .truncated) :
    Inv { s with base := { s.base with site := none }, watermark := none, opened := some c } := by
  have hrunning : s.base.chk c ≠ .idle := by
    rintro hidle
    simp [hidle] at hc
  have hphase := h.phase c
  -- The watermark that is going to be written is no smaller than the old one.
  obtain ⟨m, hm, hle, hle'⟩ : ∃ m ∈ s.marks c, s.mark ≤ m ∧ m ≤ s.counter := by
    obtain ⟨lsn, hlsn⟩ | htrunc := hc
    · rw [hlsn] at hphase
      exact hphase.2
    · rw [htrunc] at hphase
      exact ⟨s.mark, hphase, le_rfl, h.mark_le⟩
  have hmoved : Inv (s.moved c (s.base.chk c) s.base.file none none s.marks (some c)) := by
    have hmark : (s.moved c (s.base.chk c) s.base.file none none s.marks (some c)).mark = m := by
      simpa [State.mark, State.moved] using congrArg (Option.getD · 0) hm
    refine h.moved (h.alone hrunning) (fun _ => id) (hmark ▸ hle') (fun tx htx => ?_) ?_
      fun c' hc' => ⟨(Option.some.inj hc').symm, hc⟩
    · rw [State.Known, hmark]
      exact htx.imp_left fun htx => htx.trans hle
    · obtain ⟨lsn, hlsn⟩ | htrunc := hc
      · rw [hlsn] at hphase hmark ⊢
        exact ⟨hphase.1.append (append_nil _).symm rfl, m, hm, hmark.le, hle'⟩
      · rw [htrunc] at hphase hmark ⊢
        change s.marks c = some _
        rwa [hmark]
  rwa [moved_self] at hmoved

theorem Inv.fail (hok : s.opened ≠ some c) : Inv { s with base := s.base.goto c .idle } := by
  by_cases hc : s.base.chk c = .idle
  · have hsame : s.base.goto c .idle = s.base := by simp [Checkpoint.State.goto, ← hc]
    rwa [hsame]
  · refine h.quiet (h.alone hc) ?_ trivial
    by_contra hsome
    obtain ⟨c', hc'⟩ := ne_none_iff_exists'.mp hsome
    have hrunning : s.base.chk c' ≠ .idle := by
      intro hidle
      have hwriting := h.opened c' hc'
      simp [hidle] at hwriting
    exact hok (h.one c' c hrunning hc ▸ hc')

theorem Inv.crash (hopened : s.opened = none) (hbase : Checkpoint.step s.base .crash = some base) :
    Inv { s with base := base, counter := s.recovered, marks := fun _ => none, opened := none } := by
  cases hbase
  have hmark : s.mark = s.watermark.getD 0 := by simp [State.mark, hopened]
  exact {
    mark_le := le_max_right _ _
    collected_le := fun id hid => (le_max_of_le' 0 hid le_rfl).trans (le_max_left _ _)
    known := fun tx htx => (h.known tx htx).imp_left fun hle => hle.trans_eq hmark
    disk := h.disk
    file := h.file
    live := nofun
    flight := nofun
    phase := fun _ => trivial
    one := fun _ _ hc => absurd rfl hc
    opened := nofun }

omit h

theorem inv_step (s : State) (label : Label) (s' : State) (h : Inv s) (hok : Ok s label)
    (hs : step s label = some s') : Inv s' := by
  cases label with
  | begin =>
    obtain ⟨-, rfl⟩ := of_guard hs
    exact h.begin
  | readWatermark c =>
    simp only [step] at hs
    split at hs
    case h_1 lsn hc =>
      cases hs
      exact h.readWatermark hc
    case h_2 => nomatch hs
  | openSite c =>
    simp only [step] at hs
    split at hs
    case h_1 lsn hc =>
      cases hs
      exact h.openSite (.inl ⟨lsn, hc⟩)
    case h_2 hc =>
      cases hs
      exact h.openSite (.inr hc)
    case h_3 => nomatch hs
  | flushAll c order =>
    obtain ⟨hmarks, hs⟩ := ite_none_right_eq_some.mp hs
    obtain ⟨base, hbase, rfl⟩ := map_eq_some_iff.mp hs
    exact h.flushAll hmarks hbase
  | checkpoint c timestamp => exact h.checkpoint hok hs
  | checkpointFails c =>
    cases hs
    rw [if_neg hok]
    exact h.fail hok
  | writeFails fs =>
    obtain ⟨-, rfl⟩ := of_guard hs
    refine h.with_base rfl rfl h.disk h.live (h.flight_of fun e he => .inr ?_)
    exact he.imp_right (·.imp_right Checkpoint.flight_erase_subset)
  | crash =>
    cases hs
    exact h.crash hok rfl
  | other label =>
    obtain ⟨hother, hs⟩ := ite_none_right_eq_some.mp hs
    obtain ⟨base, hbase, rfl⟩ := map_eq_some_iff.mp hs
    exact h.other hother hok hbase

theorem inv_init (capacity : ℕ) : Inv (init capacity) where
  mark_le := le_rfl
  collected_le := nofun
  known := nofun
  disk := nofun
  file := nofun
  live := nofun
  flight := nofun
  phase _ := trivial
  one _ _ hc := absurd rfl hc
  opened := nofun

/-! ### The main result -/

/-- **Ids are not reused.** In every run that meets `Ok`, whatever the crashes, the id that the next
transaction gets is larger than that of every version in the data file and of every record in the
WAL. -/
theorem ids_not_reused (capacity : ℕ) (labels : List Label) (s : State)
    (hok : Guarded Ok step (init capacity) labels)
    (hrun : run step (init capacity) labels = some s) :
    (∀ e ∈ s.base.disk, e.record.txId < s.counter + 1) ∧ ∀ e ∈ entries s.base.file,
    e.record.txId < s.counter + 1 := by
  have h : Inv s := run_invariant inv_step (inv_init capacity) hok hrun
  have hlt (tx : ℕ) (htx : tx ∈ s.begun) : tx < s.counter + 1 :=
    Nat.lt_succ_of_le (h.known_le (h.known tx htx))
  exact ⟨fun e he => hlt _ (h.disk e he), fun e he => hlt _ (h.file e he)⟩

/-- The row of transaction 1. -/
def row : Entry := ⟨1, .insert 1 "t" ⟨1, 0⟩ [0], 1⟩

/-- Transaction 1 inserts a row on page 1, which is loaded. -/
def inserted : List Label :=
  (.get 1 :: BufferPool.loading 0).map (.other ∘ .pool) ++
    [.begin, .other (.modify 1 row.record 0), .other (.pool (.drop 0)), .other (.append row)]

/-- The WAL buffer is flushed. -/
def flushed : List Label :=
  [.other .take, .other (.readLen [⟨0, .beginTxn 1, 0⟩, row]),
    .other (.write (framesAt 0 [⟨0, .beginTxn 1, 0⟩, row]))]

/-- The page is written. -/
def written : List Label :=
  [.flushPages [1], .visit 0, .wrote 0 none, .visit 0].map (.other ∘ .pool)

/-- A checkpoint, up to the cut. -/
def cut : List Label :=
  [.checkpoint 0 0, .readWatermark 0, .flushAll 0 [1]] ++ replicate 3 (.other (.pool (.visit 1))) ++
    [.checkpoint 0 0, .checkpoint 0 0, .openSite 0, .checkpoint 0 0, .checkpoint 0 0, .checkpoint 0 0]

/-- The checkpoint ends, and then there is a crash. -/
def restarted : List Label :=
    inserted ++ flushed ++ written ++ cut ++ [.openSite 0, .checkpoint 0 0, .crash]

theorem ids_not_reused_restarted :
    ∃ s, run step (init 1) restarted = some s ∧ row ∈ s.base.disk ∧ row.record.txId < s.counter + 1 := by
  obtain ⟨s, hs, hrow⟩ : ∃ s, run step (init 1) restarted = some s ∧ row ∈ s.base.disk := by
    decide +kernel
  refine ⟨s, hs, hrow, (ids_not_reused 1 restarted s ?_ hs).1 row hrow⟩
  have hwal : ∀ e ∈ entries (framesAt 0 [⟨0, .beginTxn 1, 0⟩, row]), e.record.txId ∈ [1] := by decide
  have hpage : ∀ e ∈ [row], e.record.txId ∈ [1] := by decide
  iterate 8 refine ⟨nofun, ?_⟩; rintro _ ⟨⟩
  iterate 2 refine ⟨trivial, ?_⟩; rintro _ ⟨⟩
  refine ⟨nofun, ?_⟩
  rintro _ ⟨⟩
  iterate 3 refine ⟨trivial, ?_⟩; rintro _ ⟨⟩
  refine ⟨hwal, ?_⟩
  rintro _ ⟨⟩
  iterate 2 refine ⟨nofun, ?_⟩; rintro _ ⟨⟩
  refine ⟨?_, ?_⟩
  · rintro _ ⟨⟩
    exact hpage
  rintro _ ⟨⟩
  refine ⟨nofun, ?_⟩
  rintro _ ⟨⟩
  refine ⟨fun _ _ => rfl, ?_⟩
  rintro _ ⟨⟩
  iterate 2 refine ⟨trivial, ?_⟩; rintro _ ⟨⟩
  iterate 5 refine ⟨nofun, ?_⟩; rintro _ ⟨⟩
  refine ⟨trivial, ?_⟩
  rintro _ ⟨⟩
  iterate 3 refine ⟨nofun, ?_⟩; rintro _ ⟨⟩
  refine ⟨trivial, ?_⟩
  rintro _ ⟨⟩
  refine ⟨nofun, ?_⟩
  rintro _ ⟨⟩
  exact ⟨rfl, fun _ _ => trivial⟩

/-- **An id is reused**: the page is written while the record that begins its transaction is in
memory; or the site file is empty when the machine crashes. -/
theorem id_reused :
    (∃ s, run step (init 1) (inserted ++ written ++ [.crash]) = some s ∧ row ∈ s.base.disk ∧
      row.record.txId = s.counter + 1) ∧
      ∃ s, run step (init 1) (inserted ++ flushed ++ written ++ cut ++ [.openSite 0, .crash]) = some s ∧
        row ∈ s.base.disk ∧ row.record.txId = s.counter + 1 := by
  decide +kernel

end RTsql.Wal.TransactionIds

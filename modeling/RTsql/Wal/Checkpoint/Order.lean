import RTsql.Wal.Checkpoint.Model

/-!
# Transactions and their records

How the records of a transaction get into the WAL. Its data records are appended
before its `CommitTxn` record, a flush takes the whole buffer, and the file is cut
at its head only; so, as long as a commit record does not overtake a data record in
another flush, a data record in the WAL has its commit record in the WAL with it.
-/

namespace RTsql.Wal.Checkpoint

open List RTsql.Storage

/-! ### Transactions and their records -/

/-- A data record of `tx`. -/
def Entry.DataOf (e : Entry) (tx : ℕ) : Prop := e.record.isData = true ∧ e.record.txId = tx

instance (e : Entry) (tx : ℕ) : Decidable (e.DataOf tx) := inferInstanceAs (Decidable (_ ∧ _))

/-- A commit record of `tx`. -/
def Entry.CommitOf (e : Entry) (tx : ℕ) : Prop := e.record.commits tx = true

theorem Entry.DataOf.not_commitOf {e : Entry} {tx tx' : ℕ} (h : e.DataOf tx) : ¬ e.CommitOf tx' := by
  obtain ⟨id, r, page⟩ := e
  unfold DataOf CommitOf at *
  cases r <;> simp_all [WalRecord.isData, WalRecord.commits]

theorem mem_committedBy {fs : List Frame} {tx : ℕ} : tx ∈ committedBy fs ↔ ∃ e ∈ entries fs,
    e.CommitOf tx := by
  simp only [committedBy, mem_filterMap]
  refine exists_congr fun e => and_congr_right fun _ => ?_
  obtain ⟨id, r, page⟩ := e
  unfold Entry.CommitOf
  cases r <;> simp [WalRecord.commits]

/-- The records that flushes have taken and not yet written. -/
def flight (s : State) : List Entry := s.taken.flatten ++ (s.based.map entries).flatten

/-- The transactions whose work matters: at work in this session, or committed. -/
def Relevant (s : State) (tx : ℕ) : Prop := tx ∈ s.live ∨ tx ∈ s.closing ∨ tx ∈ s.committed

/-- `b` is not a data record of a transaction that `a` commits. -/
def NotAfter (a b : Entry) : Prop := ∀ tx, a.CommitOf tx → ¬ b.DataOf tx

/-- How the records of a transaction go through the buffer, the flushes and the file: the
data records before the commit record. -/
structure Order (s : State) : Prop where
  /-- A transaction at work has not committed. -/
  live_open : ∀ tx ∈ s.live, tx ∉ s.closing ∧ tx ∉ s.committed
  /-- Ids in use are used. -/
  used : ∀ tx, Relevant s tx → tx ∈ s.used
  /-- The log has data records. -/
  log_data : ∀ e ∈ s.log, e.record.isData = true ∧ e.record.txId ∈ s.used
  /-- Every data record is in the log. -/
  logged : ∀ e ∈ s.unlogged ++ s.buffer ++ flight s ++ entries s.file, e.record.isData = true → e ∈ s.log
  /-- A commit record on its way belongs to a closing transaction. -/
  commit_closing : ∀ e ∈ s.buffer ++ flight s, ∀ tx, e.CommitOf tx → tx ∈ s.closing
  /-- A commit record in the file belongs to a committed transaction. -/
  commit_file : ∀ e ∈ entries s.file, ∀ tx, e.CommitOf tx → tx ∈ s.committed
  /-- A data record not yet appended belongs to a transaction at work. -/
  unlogged_open : ∀ e ∈ s.unlogged,
    e.record.isData = true ∧ e.record.txId ∉ s.closing ∧ e.record.txId ∉ s.committed
  /-- A data record in the buffer has its commit record behind it. -/
  buffer_open : ∀ e ∈ s.buffer, ∀ tx, e.DataOf tx →
    tx ∉ s.committed ∧ ∀ c ∈ flight s, ¬ c.CommitOf tx
  /-- A data record on its way belongs to a transaction that is not committed. -/
  flight_open : ∀ e ∈ flight s, ∀ tx, e.DataOf tx → tx ∉ s.committed
  buffer_ordered : s.buffer.Pairwise NotAfter
  taken_ordered : ∀ es ∈ s.taken, es.Pairwise NotAfter
  based_ordered : ∀ fs ∈ s.based, (entries fs).Pairwise NotAfter
  file_ordered : (entries s.file).Pairwise NotAfter
  /-- A data record of a committed transaction has its commit record in the file with it. -/
  kept : ∀ e ∈ entries s.file, ∀ tx, e.DataOf tx → tx ∈ s.committed →
    ∃ c ∈ entries s.file, c.CommitOf tx

theorem order_init (capacity : ℕ) : Order (init capacity) := by
  constructor <;> simp [init, flight, Relevant]

/-- **The condition under which no committed work is lost.** While the LSN in the site file
is beyond the end of the WAL, no write brings the WAL up to it; a commit record is written
when no other flush holds a data record of the transaction; a checkpoint starts when no
other checkpoint is running, and comes to no page that somebody else is writing; and the
buffer pool removes a page when its frame is clean and nobody has a guard of it. -/
def InStep (s : State) : Label → Prop
  | .write fs =>
    (∀ lsn, s.site = some lsn → bytes s.file < lsn → bytes s.file + bytes fs < lsn) ∧
    ∀ e ∈ s.taken.flatten ++ ((s.based.erase fs).map entries).flatten, ∀ tx ∈ committedBy fs,
      ¬ e.DataOf tx
  | .checkpoint c _ => s.chk c = .idle → ∀ c', s.chk c' = .idle
  | .pool label =>
    BufferPool.Ok s.pool label ∧
      ∀ n, label = .visit n → (∃ c lsn, s.chk c = .flushing lsn n) → s.pool.Undisturbed n
  | _ => True

section Order

variable {s s' : State} {a : Label} {fs pre : List Frame} {e : Entry} {es : List Entry}
  {r : WalRecord} {tx : ℕ}

theorem mem_flight : e ∈ flight s ↔ (∃ es ∈ s.taken, e ∈ es) ∨ ∃ fs ∈ s.based, e ∈ entries fs := by
  simp [flight]

theorem mem_flight_of_mem_based (hfs : fs ∈ s.based)
    (he : e ∈ entries fs) : e ∈ flight s := mem_flight.mpr (.inr ⟨fs, hfs, he⟩)

/-- Computing the offsets of a batch does not change what is on its way. -/
theorem mem_flight_readLen (hes : es ∈ s.taken) {base : ℕ} :
    e ∈ flight { s with taken := s.taken.erase es, based := framesAt base es :: s.based } ↔
      e ∈ flight s := by
  simp only [mem_flight, mem_cons, exists_eq_or_imp, entries_framesAt]
  constructor
  · rintro (⟨es', hes', he⟩ | he | he)
    · exact .inl ⟨es', mem_of_mem_erase hes', he⟩
    · exact .inl ⟨es, hes, he⟩
    · exact .inr he
  · rintro (⟨es', hes', he⟩ | he)
    · by_cases heq : es' = es
      · exact .inr (.inl (heq ▸ he))
      · exact .inl ⟨es', (mem_erase_of_ne heq).mpr hes', he⟩
    · exact .inr (.inr he)

theorem flight_erase_subset (he : e ∈ flight { s with based := s.based.erase fs }) : e ∈ flight s := by
  rcases mem_flight.mp he with he | ⟨fs', hfs', he⟩
  · exact mem_flight.mpr (.inl he)
  · exact mem_flight_of_mem_based (mem_of_mem_erase hfs') he

variable (ho : Order s)

include ho

/-- A record is appended: a data record is in the log, and the commit record of its transaction
comes later. -/
theorem Order.pushEntry (hlog : e.record.isData = true → e ∈ s.log)
    (hclosing : ∀ tx, e.CommitOf tx → tx ∈ s.closing)
    (hopen : ∀ tx, e.DataOf tx → tx ∉ s.closing ∧ tx ∉ s.committed) :
    Order { s with buffer := s.buffer ++ [e] } :=
  { ho with
    logged := by
      intro x (hx : x ∈ s.unlogged ++ (s.buffer ++ [e]) ++ flight s ++ entries s.file) hdx
      have hx : x ∈ s.unlogged ++ s.buffer ++ flight s ++ entries s.file ∨ x = e := by
        simp only [mem_append, mem_singleton] at hx ⊢
        tauto
      rcases hx with hx | rfl
      · exact ho.logged x hx hdx
      · exact hlog hdx
    commit_closing := by
      intro x (hx : x ∈ s.buffer ++ [e] ++ flight s) tx htx
      have hx : x ∈ s.buffer ++ flight s ∨ x = e := by
        simp only [mem_append, mem_singleton] at hx ⊢
        tauto
      rcases hx with hx | rfl
      · exact ho.commit_closing x hx tx htx
      · exact hclosing tx htx
    buffer_open := forall_mem_append.mpr
      ⟨ho.buffer_open, forall_mem_singleton.mpr fun tx htx => ⟨(hopen tx htx).2,
      fun c hc hct => (hopen tx htx).1 (ho.commit_closing c (mem_append_right _ hc) tx hct)⟩⟩
    buffer_ordered := by
      refine pairwise_append.mpr ⟨ho.buffer_ordered, pairwise_singleton _ _, ?_⟩
      intro c hc y hy tx hct hy'
      rw [mem_singleton.mp hy] at hy'
      exact (hopen tx hy').1 (ho.commit_closing c (mem_append_left _ hc) tx hct) }

/-- Appending a record that is no data record. -/
theorem Order.push (hd : r.isData = false) (hc : ∀ tx, r.commits tx = true → tx ∈ s.closing) :
    Order (s.push r) := by
  have hdata : r.isData ≠ true := by simp [hd]
  exact { ho.pushEntry (e := ⟨_, r, _⟩) (absurd · hdata) hc fun tx htx => absurd htx.1 hdata with }

theorem Order.begin (htx : tx ∉ s.used) :
    Order { s with live := tx :: s.live, used := tx :: s.used } :=
  { ho with
    live_open := forall_mem_cons.mpr
      ⟨⟨fun h => htx (ho.used tx (.inr (.inl h))), fun h => htx (ho.used tx (.inr (.inr h)))⟩,
        ho.live_open⟩
    used := by
      rintro t (ht | ht)
      · rcases mem_cons.mp ht with rfl | ht
        · exact mem_cons_self
        · exact mem_cons_of_mem _ (ho.used t (.inl ht))
      · exact mem_cons_of_mem _ (ho.used t (.inr ht))
    log_data := fun e he => ⟨(ho.log_data e he).1, mem_cons_of_mem _ (ho.log_data e he).2⟩ }

/-- A transaction that leaves `live` frees nothing. -/
theorem Order.leave (tx : ℕ) : Order { s with live := s.live.filter (· ≠ tx) } :=
  { ho with
    live_open := fun t ht => ho.live_open t (mem_filter.mp ht).1
    used := by
      rintro t (ht | ht)
      · exact ho.used t (.inl (mem_filter.mp ht).1)
      · exact ho.used t (.inr ht) }

theorem Order.modify {page : ℕ} (pool : BufferPool.State (List Entry)) (hl : r.txId ∈ s.live)
    (hd : r.isData = true) :
    Order { s with pool := pool, unlogged := ⟨s.nextId, r, page⟩ :: s.unlogged
                   log := ⟨s.nextId, r, page⟩ :: s.log, nextId := s.nextId + 1 } :=
  { ho with
    log_data := forall_mem_cons.mpr ⟨⟨hd, ho.used _ (.inl hl)⟩, ho.log_data⟩
    logged := forall_mem_cons.mpr
      ⟨fun _ => mem_cons_self, fun e he hde => mem_cons_of_mem _ (ho.logged e he hde)⟩
    unlogged_open := forall_mem_cons.mpr ⟨⟨hd, ho.live_open _ hl⟩, ho.unlogged_open⟩ }

theorem Order.append (he : e ∈ s.unlogged) :
    Order { s with unlogged := s.unlogged.erase e, buffer := s.buffer ++ [e] } := by
  obtain ⟨hd, hopen⟩ := ho.unlogged_open e he
  have hpush : Order { s with buffer := s.buffer ++ [e] } :=
    ho.pushEntry (fun _ => ho.logged e (by simp [he]) hd)
      (fun _ htx => absurd htx (Entry.DataOf.not_commitOf ⟨hd, rfl⟩))
      fun _ htx => htx.2 ▸ hopen
  exact { hpush with
    logged := by
      intro x hx
      refine hpush.logged x ?_
      simp only [append_assoc, mem_append] at hx ⊢
      exact hx.imp_left mem_of_mem_erase
    unlogged_open := fun x hx => ho.unlogged_open x (mem_of_mem_erase hx) }

/-- A transaction commits that has no record left to append. -/
theorem Order.close (hl : tx ∈ s.live) (hu : ∀ e ∈ s.unlogged, e.record.txId ≠ tx) :
    Order { s with live := s.live.filter (· ≠ tx), closing := tx :: s.closing } :=
  { ho with
    live_open := by
      intro t ht
      obtain ⟨ht, hne⟩ := mem_filter.mp ht
      obtain ⟨hcl, hco⟩ := ho.live_open t ht
      exact ⟨fun h => (mem_cons.mp h).elim (by simpa using hne) hcl, hco⟩
    used := by
      rintro t (ht | ht | ht)
      · exact ho.used t (.inl (mem_filter.mp ht).1)
      · rcases mem_cons.mp ht with rfl | ht
        · exact ho.used t (.inl hl)
        · exact ho.used t (.inr (.inl ht))
      · exact ho.used t (.inr (.inr ht))
    commit_closing := fun e he t ht => mem_cons_of_mem _ (ho.commit_closing e he t ht)
    unlogged_open := by
      intro e he
      obtain ⟨hd, hcl, hco⟩ := ho.unlogged_open e he
      exact ⟨hd, fun h => (mem_cons.mp h).elim (hu e he) hcl, hco⟩ }

theorem Order.take : Order { s with buffer := [], taken := s.buffer :: s.taken } := by
  have hf : flight { s with buffer := [], taken := s.buffer :: s.taken } = s.buffer ++ flight s := by
    simp [flight]
  exact { ho with
    logged := by
      rw [hf]
      intro e he hde
      refine ho.logged e ?_ hde
      simpa only [append_nil, append_assoc] using he
    commit_closing := by
      rw [hf]
      exact ho.commit_closing
    buffer_open := nofun
    flight_open := by
      rw [hf]
      exact forall_mem_append.mpr ⟨fun e he tx htx => (ho.buffer_open e he tx htx).1, ho.flight_open⟩
    buffer_ordered := List.Pairwise.nil
    taken_ordered := forall_mem_cons.mpr ⟨ho.buffer_ordered, ho.taken_ordered⟩ }

theorem Order.readLen (hes : es ∈ s.taken) (base : ℕ) :
    Order { s with taken := s.taken.erase es, based := framesAt base es :: s.based } :=
  { ho with
    logged := by
      intro e he hde
      refine ho.logged e ?_ hde
      simp only [append_assoc, mem_append, mem_flight_readLen hes] at he ⊢
      exact he
    commit_closing := by
      intro e he
      refine ho.commit_closing e ?_
      simpa only [mem_append, mem_flight_readLen hes] using he
    buffer_open := fun e he tx htx => ⟨(ho.buffer_open e he tx htx).1, fun c hc =>
      (ho.buffer_open e he tx htx).2 c ((mem_flight_readLen hes).mp hc)⟩
    flight_open := fun e he => ho.flight_open e ((mem_flight_readLen hes).mp he)
    taken_ordered := fun es' hes' => ho.taken_ordered es' (mem_of_mem_erase hes')
    based_ordered := by
      refine forall_mem_cons.mpr ⟨?_, ho.based_ordered⟩
      rw [entries_framesAt]
      exact ho.taken_ordered es hes }

/-- A batch is written: by then no other flush holds a data record of a transaction that it
commits. -/
theorem Order.write (hfs : fs ∈ s.based)
    (hok : ∀ e ∈ flight { s with based := s.based.erase fs }, ∀ tx ∈ committedBy fs, ¬ e.DataOf tx) :
    Order { s with based := s.based.erase fs, file := s.file ++ fs
                   committed := committedBy fs ++ s.committed } := by
  have hclosing : ∀ tx ∈ committedBy fs, tx ∈ s.closing := by
    intro tx htx
    obtain ⟨c, hc, hct⟩ := mem_committedBy.mp htx
    exact ho.commit_closing c (mem_append_right _ (mem_flight_of_mem_based hfs hc)) tx hct
  exact { ho with
    live_open := by
      intro tx htx
      obtain ⟨hcl, hco⟩ := ho.live_open tx htx
      exact ⟨hcl, fun h => (mem_append.mp h).elim (fun h => hcl (hclosing tx h)) hco⟩
    used := by
      rintro tx (htx | htx | htx)
      · exact ho.used tx (.inl htx)
      · exact ho.used tx (.inr (.inl htx))
      · rcases mem_append.mp htx with htx | htx
        · exact ho.used tx (.inr (.inl (hclosing tx htx)))
        · exact ho.used tx (.inr (.inr htx))
    logged := by
      intro e he hde
      refine ho.logged e ?_ hde
      simp only [append_assoc, mem_append, entries_append] at he ⊢
      rcases he with he | he | he | he | he
      · exact .inl he
      · exact .inr (.inl he)
      · exact .inr (.inr (.inl (flight_erase_subset he)))
      · exact .inr (.inr (.inr he))
      · exact .inr (.inr (.inl (mem_flight_of_mem_based hfs he)))
    commit_closing := by
      intro e he
      exact ho.commit_closing e (mem_append.mpr ((mem_append.mp he).imp_right (flight_erase_subset ·)))
    commit_file := by
      rw [entries_append]
      exact forall_mem_append.mpr ⟨fun e he tx htx => mem_append_right _ (ho.commit_file e he tx htx),
        fun e he tx htx => mem_append_left _ (mem_committedBy.mpr ⟨e, he, htx⟩)⟩
    unlogged_open := by
      intro e he
      obtain ⟨hd, hcl, hco⟩ := ho.unlogged_open e he
      exact ⟨hd, hcl, fun h => (mem_append.mp h).elim (fun h => hcl (hclosing _ h)) hco⟩
    buffer_open := by
      intro e he tx htx
      obtain ⟨hco, hfl⟩ := ho.buffer_open e he tx htx
      refine ⟨fun h => (mem_append.mp h).elim (fun h => ?_) hco, fun c hc =>
        hfl c (flight_erase_subset hc)⟩
      obtain ⟨c, hc, hct⟩ := mem_committedBy.mp h
      exact hfl c (mem_flight_of_mem_based hfs hc) hct
    flight_open := fun e he tx htx h => (mem_append.mp h).elim (fun h => hok e he tx h htx)
      (ho.flight_open e (flight_erase_subset he) tx htx)
    based_ordered := fun fs' hfs' => ho.based_ordered fs' (mem_of_mem_erase hfs')
    file_ordered := by
      rw [entries_append]
      refine pairwise_append.mpr ⟨ho.file_ordered, ho.based_ordered fs hfs, ?_⟩
      intro c hc e he tx hct htx
      exact ho.flight_open e (mem_flight_of_mem_based hfs he) tx htx (ho.commit_file c hc tx hct)
    kept := by
      intro e he tx htx hco
      rw [entries_append] at he ⊢
      rcases mem_append.mp hco with hco | hco
      · obtain ⟨c, hc, hct⟩ := mem_committedBy.mp hco
        exact ⟨c, mem_append_right _ hc, hct⟩
      · rcases mem_append.mp he with he | he
        · obtain ⟨c, hc, hct⟩ := ho.kept e he tx htx hco
          exact ⟨c, mem_append_left _ hc, hct⟩
        · exact absurd hco (ho.flight_open e (mem_flight_of_mem_based hfs he) tx htx) }

/-- The file may change to one with the same entries. -/
theorem Order.file_congr (hfs : entries fs = entries s.file) : Order { s with file := fs } :=
  { ho with
    logged := by
      rw [hfs]
      exact ho.logged
    commit_file := by
      rw [hfs]
      exact ho.commit_file
    file_ordered := by
      rw [hfs]
      exact ho.file_ordered
    kept := by
      rw [hfs]
      exact ho.kept }

/-- A cut takes no commit record away from a data record that stays. -/
theorem Order.truncate (hfs : s.file = pre ++ fs) :
    Order { s with file := fs } := by
  have hent : entries s.file = entries pre ++ entries fs := by rw [hfs, entries_append]
  have hsub : ∀ {e}, e ∈ entries fs → e ∈ entries s.file := fun h => hent ▸ mem_append_right _ h
  have hord := ho.file_ordered
  rw [hent] at hord
  exact { ho with
    logged := by
      intro e he hde
      exact ho.logged e (mem_append.mpr ((mem_append.mp he).imp_right (hsub ·))) hde
    commit_file := fun e he => ho.commit_file e (hsub he)
    file_ordered := (pairwise_append.mp hord).2.1
    kept := by
      intro e he tx htx hco
      obtain ⟨c, hc, hct⟩ := ho.kept e (hsub he) tx htx hco
      rw [hent] at hc
      rcases mem_append.mp hc with hc | hc
      · exact absurd htx ((pairwise_append.mp hord).2.2 c hc e he tx hct)
      · exact ⟨c, hc, hct⟩ }

theorem Order.crash (pool : BufferPool.State (List Entry)) (redo : List Entry) :
    Order { s with pool := pool, redo := redo, unlogged := [], buffer := [], taken := [], based := []
                   chk := fun _ => .idle, live := [], closing := [] } :=
  { ho with
    live_open := nofun
    used := by
      rintro tx (htx | htx | htx)
      · cases htx
      · cases htx
      · exact ho.used tx (.inr (.inr htx))
    logged := fun e he => ho.logged e (mem_append_right _ he)
    commit_closing := nofun
    unlogged_open := nofun
    buffer_open := nofun
    flight_open := nofun
    buffer_ordered := List.Pairwise.nil
    taken_ordered := nofun
    based_ordered := nofun }

theorem order_move (hok : InStep s a) (h : Move s a s') : Order s' := by
  cases h with
  | begin hu => exact (ho.begin hu).push rfl nofun
  | modify hl hd => exact ho.modify _ hl hd
  | append he => exact ho.append he
  | commit hl hu =>
    refine (ho.close hl hu).push rfl fun t ht => mem_cons.mpr (.inl (Eq.symm ?_))
    simpa [WalRecord.commits] using ht
  | abort => exact (ho.leave _).push rfl nofun
  | take => exact ho.take
  | readLen hes => exact ho.readLen hes _
  | write hfs => exact ho.write hfs hok.2
  | mark => exact { ho.file_congr (by simp : entries (s.file ++ [Frame.plain (.checkpoint _ _)]) = _) with }
  | truncate _ hfs =>
    obtain ⟨pre, hpre⟩ := exists_append_of_dropBytes hfs
    exact { ho.truncate hpre with }
  | crash => exact ho.crash _ _
  | _ => exact { ho with }

end Order

end RTsql.Wal.Checkpoint

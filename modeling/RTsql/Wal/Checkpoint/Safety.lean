import RTsql.Wal.Checkpoint.Order

/-!
# Committed work is not lost

The invariant of the checkpoint: what is below the captured LSN, by position or by
the LSN in the frame, is in the buffer pool when the LSN is captured, and in the
data file when the site is written. A site beyond the end of the file is ignored,
so it is harmless as long as the file stays shorter.
-/

namespace RTsql.Wal.Checkpoint

open Function List RTsql.Library RTsql.Storage

/-! ### Effects and cuts -/

/-- A data record of a transaction that matters has its effect on its page, and is in
the data file, on its way to the WAL or in it. -/
structure Effects (s : State) : Prop where
  /-- The buffer pool loses no modification. -/
  pool : BufferPool.Inv s.pool
  growing : BufferPool.Growing s.pool
  /-- A record is made after its effect. After a crash it is replayed. -/
  effect : ∀ e ∈ s.log, Relevant s e.record.txId → e ∈ s.mem ∨ e ∈ s.redo
  /-- No record is lost before its effect is in the data file. -/
  placed : ∀ e ∈ s.log, Relevant s e.record.txId →
    e ∈ s.disk ∨ e ∈ s.unlogged ++ s.buffer ++ flight s ++ entries s.file

/-- Entry `e` has the LSN `lsn`, in the file or in a batch on its way there. -/
def Recorded (s : State) (lsn : ℕ) (e : Entry) : Prop :=
  .withLsn lsn e ∈ s.file ∨ ∃ fs ∈ s.based, .withLsn lsn e ∈ fs

/-- The entries below `lsn` are in `X`. -/
def Covered (s : State) (lsn : ℕ) (X : Set Entry) : Prop :=
  ∀ l e, Recorded s l e → e.record.isData = true → Relevant s e.record.txId → l < lsn → e ∈ X

/-- The file can be cut at `lsn` once `X` is in the data file. -/
def CutAt (s : State) (lsn : ℕ) (X : Set Entry) : Prop :=
  (∃ pre suf, s.file = pre ++ suf ∧ bytes pre = lsn ∧
    ∀ e ∈ entries pre, e.record.isData = true → Relevant s e.record.txId → e ∈ X) ∧
  Covered s lsn X

/-- What a running checkpoint may rely on. -/
def CutOk (s : State) : Chk → Prop
  | .idle | .truncated => True
  | .captured lsn => CutAt s lsn s.mem
  | .flushing lsn n => CutAt s lsn {e | s.pool.Covers n e.page e}
  | .flushed lsn | .synced lsn => CutAt s lsn s.disk
  | .sited lsn | .marked lsn => CutAt s lsn s.disk ∧ s.site = some lsn

/-- The site and the checkpoints. -/
structure Cuts (s : State) : Prop where
  /-- One checkpoint runs at a time. -/
  one : ∀ c c', s.chk c ≠ .idle → s.chk c' ≠ .idle → c = c'
  /-- A site that is within the file skips nothing that is not in the data file. -/
  site : ∀ lsn, s.site = some lsn → lsn ≤ bytes s.file → Covered s lsn s.disk
  cut : ∀ c, CutOk s (s.chk c)

theorem effects_init (capacity : ℕ) : Effects (init capacity) :=
  ⟨BufferPool.inv_init capacity _, BufferPool.growing_init capacity _, nofun, nofun⟩

theorem cuts_init (capacity : ℕ) : Cuts (init capacity) := by constructor <;> simp [init, CutOk]

section Cuts

variable {s s' : State} {a : Label} {e : Entry} {lsn : ℕ} {X Y : Set Entry}

/-- A transaction with a record matters after a step only if it did before. -/
theorem relevant_move (ho : Order s) (h : Move s a s') (he : e ∈ s.log)
    (hr : Relevant s' e.record.txId) : Relevant s e.record.txId := by
  cases h with
  | begin hu =>
    rcases hr with hr | hr
    · rcases mem_cons.mp hr with hr | hr
      · exact absurd (hr ▸ (ho.log_data e he).2) hu
      · exact .inl hr
    · exact .inr hr
  | commit hl =>
    rcases hr with hr | hr | hr
    · exact .inl (mem_filter.mp hr).1
    · rcases mem_cons.mp hr with hr | hr
      · exact .inl (hr ▸ hl)
      · exact .inr (.inl hr)
    · exact .inr (.inr hr)
  | abort =>
    rcases hr with hr | hr
    · exact .inl (mem_filter.mp hr).1
    · exact .inr hr
  | write hfs =>
    rcases hr with hr | hr | hr
    · exact .inl hr
    · exact .inr (.inl hr)
    · rcases mem_append.mp hr with hr | hr
      · obtain ⟨c, hc, hct⟩ := mem_committedBy.mp hr
        exact .inr (.inl (ho.commit_closing c
          (mem_append_right _ (mem_flight_of_mem_based hfs hc)) _ hct))
      · exact .inr (.inr hr)
  | crash =>
    rcases hr with hr | hr | hr
    · cases hr
    · cases hr
    · exact .inr (.inr hr)
  | _ => exact hr

/-- What a step does in the buffer pool. -/
theorem pool_move (h : Move s a s') (ha : a ≠ .crash) : s'.pool = s.pool ∨
    ∃ label, s.pool.Whole label ∧ s.pool.Adds label ∧ BufferPool.step s.pool label = some s'.pool ∧
      (InStep s a → BufferPool.Ok s.pool label ∧
        ∀ n, label = .visit n → (∃ c lsn, s.chk c = .flushing lsn n) → s.pool.Undisturbed n) := by
  have hadd {n p f : ℕ} (hn : s.pool.calls[n]? = some (.holds p f)) (e : Entry) :
      ∃ label, s.pool.Whole label ∧ s.pool.Adds label ∧
        BufferPool.step s.pool label = some (addEffect s.pool p f e) ∧
        (InStep s a → BufferPool.Ok s.pool label ∧
          ∀ n, label = .visit n → (∃ c lsn, s.chk c = .flushing lsn n) → s.pool.Undisturbed n) := by
    refine ⟨.modify n (e :: (s.pool.mem.frames f).data), trivial, fun q g hq => ?_, ?_, fun _ =>
      ⟨trivial, by simp⟩⟩
    · cases hn.symm.trans hq
      exact fun _ => mem_cons_of_mem _
    · simp only [BufferPool.step, hn, addEffect]
  cases h with
  | modify _ _ hn => exact .inr (hadd hn _)
  | redo _ hn => exact .inr (hadd hn _)
  | @pool label pool hwhole hmodify hpool =>
    refine .inr ⟨label, hwhole, ?_, hpool, id⟩
    cases label with
    | modify => cases hmodify
    | _ => trivial
  | @flushAll _ order _ _ _ _ hpool =>
    exact .inr ⟨.flush [] order, trivial, trivial, hpool, fun _ => ⟨trivial, by simp⟩⟩
  | crash => exact absurd rfl ha
  | _ => exact .inl rfl

/-- No effect is taken away from a page or from the data file. -/
theorem grows_move (he : Effects s) (h : Move s a s') (ha : a ≠ .crash) :
    BufferPool.Grows s.pool s'.pool := by
  obtain hpool | ⟨label, hwhole, hadds, hstep, -⟩ := pool_move h ha
  · rw [hpool]
    exact ⟨fun _ => Subset.refl _, fun _ => Subset.refl _⟩
  · exact (BufferPool.effect_of_step hwhole hstep).grows he.pool he.growing hadds

theorem disk_move (hf : Effects s) (h : Move s a s') (he : e ∈ s.disk) : e ∈ s'.disk := by
  by_cases ha : a = .crash
  · subst ha
    cases h
    exact he
  · exact (grows_move hf h ha).storage _ he

theorem mem_move (hf : Effects s) (h : Move s a s') (ha : a ≠ .crash) (he : e ∈ s.mem) : e ∈ s'.mem :=
  (grows_move hf h ha).last _ he

theorem mem_addEffect {pool : BufferPool.State (List Entry)} {f : ℕ} (e : Entry) :
    e ∈ (addEffect pool e.page f e).mem.last e.page := by
  simp [addEffect, BufferPool.Memory.modify]

theorem redo_move (h : Move s a s') (ha : a ≠ .crash) (he : e ∈ s.redo) : e ∈ s'.mem ∨ e ∈ s'.redo := by
  cases h with
  | redo hredo =>
    rw [hredo] at he
    obtain rfl | he := mem_cons.mp he
    · exact .inl (mem_addEffect e)
    · exact .inr he
  | crash => exact absurd rfl ha
  | _ => exact .inr he

theorem mem_log_of_recorded (ho : Order s) (hr : Recorded s lsn e) (hd : e.record.isData = true) :
    e ∈ s.log := by
  refine ho.logged e ?_ hd
  rcases hr with hr | ⟨fs, hfs, hr⟩
  · exact mem_append_right _ (mem_entries.mpr ⟨lsn, hr⟩)
  · exact mem_append_left _ (mem_append_right _
      (mem_flight_of_mem_based hfs (mem_entries.mpr ⟨lsn, hr⟩)))

/-- A step gives a record no LSN below the length of the file. -/
theorem recorded_move (h : Move s a s') (hr : Recorded s' lsn e) : Recorded s lsn e ∨
    bytes s.file ≤ lsn := by
  cases h with
  | readLen hes =>
    rcases hr with hr | ⟨fs, hfs, hr⟩
    · exact .inl (.inl hr)
    · rcases mem_cons.mp hfs with rfl | hfs
      · exact .inr (mem_framesAt hr).2
      · exact .inl (.inr ⟨fs, hfs, hr⟩)
  | @write fs hfs =>
    rcases hr with hr | ⟨fs', hfs', hr⟩
    · rcases mem_append.mp hr with hr | hr
      · exact .inl (.inl hr)
      · exact .inl (.inr ⟨fs, hfs, hr⟩)
    · exact .inl (.inr ⟨fs', mem_of_mem_erase hfs', hr⟩)
  | mark =>
    rcases hr with hr | hr
    · rcases mem_append.mp hr with hr | hr
      · exact .inl (.inl hr)
      · cases mem_singleton.mp hr
    · exact .inl (.inr hr)
  | truncate _ hfs =>
    obtain ⟨pre, hpre⟩ := exists_append_of_dropBytes hfs
    rcases hr with hr | hr
    · exact .inl (.inl (hpre ▸ mem_append_right _ hr))
    · exact .inl (.inr hr)
  | crash =>
    rcases hr with hr | ⟨fs, hfs, -⟩
    · exact .inl (.inl hr)
    · cases hfs
  | _ => exact .inl hr

theorem Covered.mono (hc : Covered s lsn X) (hXY : ∀ e ∈ X, e ∈ Y) :
    Covered s lsn Y := fun l e hr hd hrel hl => hXY e (hc l e hr hd hrel hl)

/-- What is covered stays covered, as long as the file does not get shorter than `lsn` before
new LSNs are computed. -/
theorem Covered.move (ho : Order s) (h : Move s a s')
    (hlen : lsn ≤ bytes s.file) (hc : Covered s lsn X) : Covered s' lsn X := by
  intro l e hr hd hrel hl
  rcases recorded_move h hr with hr | hr
  · exact hc l e hr hd (relevant_move ho h (mem_log_of_recorded ho hr hd) hrel) hl
  · omega

theorem CutAt.le (hc : CutAt s lsn X) : lsn ≤ bytes s.file := by
  obtain ⟨⟨pre, suf, hf, rfl, -⟩, -⟩ := hc
  rw [hf, bytes_append]
  exact Nat.le_add_right _ _

theorem CutAt.mono (hc : CutAt s lsn X) (hXY : ∀ e ∈ X, e ∈ Y) : CutAt s lsn Y := by
  obtain ⟨⟨pre, suf, hf, hp, hpre⟩, hcov⟩ := hc
  exact ⟨⟨pre, suf, hf, hp, fun e he hd hr => hXY e (hpre e he hd hr)⟩, hcov.mono hXY⟩

/-- A step that only lengthens the file keeps a cut. -/
theorem CutAt.move (ho : Order s) (h : Move s a s') (hfile : ∃ more, s'.file = s.file ++ more)
    (hc : CutAt s lsn X) : CutAt s' lsn X := by
  refine ⟨?_, hc.2.move ho h hc.le⟩
  obtain ⟨⟨pre, suf, hf, hp, hpre⟩, -⟩ := hc
  obtain ⟨more, hmore⟩ := hfile
  refine ⟨pre, suf ++ more, by rw [hmore, hf, append_assoc], hp, fun e he hd hr => ?_⟩
  refine hpre e he hd (relevant_move ho h (ho.logged e ?_ hd) hr)
  rw [hf, entries_append]
  exact mem_append_right _ (mem_append_left _ he)

/-- A new cut at the end of the file. -/
theorem cutAt_end (ho : Order s) (he : Effects s) (hredo : s.redo = []) :
    CutAt s (bytes s.file) s.mem := by
  have hmem (e : Entry) (hlog : e ∈ s.log) (hr : Relevant s e.record.txId) : e ∈ s.mem :=
    (he.effect e hlog hr).resolve_right (by simp [hredo])
  refine ⟨⟨s.file, [], (append_nil _).symm, rfl, fun e hfile hd hr => ?_⟩, ?_⟩
  · exact hmem e (ho.logged e (mem_append_right _ hfile) hd) hr
  · exact fun l e hr hd hrel _ => hmem e (mem_log_of_recorded ho hr hd) hrel

/-- What the flush of a checkpoint covers stays covered. -/
theorem covers_move (hf : Effects s) (hok : InStep s a) (h : Move s a s') (ha : a ≠ .crash)
    {c n page : ℕ}
    (hchk : s.chk c = .flushing lsn n) (he : s.pool.Covers n page e) : s'.pool.Covers n page e := by
  have hgrows := grows_move hf h ha
  obtain hpool | ⟨label, -, -, hstep, hpool⟩ := pool_move h ha
  · rwa [hpool]
  · exact he.step hf.pool hgrows hstep fun hvisit => (hpool hok).2 n hvisit ⟨c, lsn, hchk⟩

theorem CutOk.move (ho : Order s) (hf : Effects s) (hok : InStep s a) (h : Move s a s') (ha : a ≠ .crash)
    (hsite : s'.site = s.site) (hfile : ∃ more, s'.file = s.file ++ more) {c : ℕ} {p : Chk}
    (hchk : s.chk c = p) (hp : CutOk s p) : CutOk s' p := by
  have hdisk : ∀ e ∈ s.disk, e ∈ s'.disk := fun _ => disk_move hf h
  cases p with
  | idle | truncated => trivial
  | captured lsn => exact (CutAt.move ho h hfile hp).mono fun _ => mem_move hf h ha
  | flushing lsn n => exact (CutAt.move ho h hfile hp).mono fun _ => covers_move hf hok h ha hchk
  | flushed lsn | synced lsn => exact (CutAt.move ho h hfile hp).mono hdisk
  | sited lsn | marked lsn => exact ⟨(CutAt.move ho h hfile hp.1).mono hdisk, hsite.trans hp.2⟩

/-- A step outside the checkpoints. -/
theorem Cuts.outside (ho : Order s) (hf : Effects s) (hc : Cuts s) (hok : InStep s a)
    (h : Move s a s') (ha : a ≠ .crash)
    (hchk : s'.chk = s.chk) (hsite : s'.site = s.site) (hfile : ∃ more, s'.file = s.file ++ more)
    (hstale : ∀ lsn, s.site = some lsn → bytes s.file < lsn → bytes s'.file < lsn) : Cuts s' where
  one := by
    rw [hchk]
    exact hc.one
  site := by
    intro lsn hl hle
    rw [hsite] at hl
    by_cases hlen : lsn ≤ bytes s.file
    · exact ((hc.site lsn hl hlen).move ho h hlen).mono fun _ => disk_move hf h
    · exact absurd hle (Nat.not_le.mpr (hstale lsn hl (Nat.not_le.mp hlen)))
  cut := by
    rw [hchk]
    exact fun c => (hc.cut c).move ho hf hok h ha hsite hfile rfl

/-- A step of the only checkpoint that runs. -/
theorem Cuts.goto {s : State} {c : ℕ} {p : Chk} (hothers : ∀ c', c' ≠ c → s.chk c' = .idle)
    (hsite : ∀ lsn, s.site = some lsn → lsn ≤ bytes s.file → Covered s lsn s.disk)
    (hp : CutOk s p) : Cuts (s.goto c p) := by
  have hidle : ∀ c', c' ≠ c → (s.goto c p).chk c' = .idle := fun c' hne => by
    simpa only [State.goto, update_of_ne hne] using hothers c' hne
  refine ⟨fun c₁ c₂ h₁ h₂ => ?_, hsite, fun c' => ?_⟩
  · have h₁ : c₁ = c := by_contra fun hne => h₁ (hidle c₁ hne)
    have h₂ : c₂ = c := by_contra fun hne => h₂ (hidle c₂ hne)
    rw [h₁, h₂]
  · by_cases hne : c' = c
    · simp only [State.goto, hne, update_self]
      exact hp
    · rw [hidle c' hne]
      trivial

/-- A checkpoint that runs is the only one. -/
theorem Cuts.running (hc : Cuts s) {c : ℕ} {p : Chk} (hp : s.chk c = p) (hne : p ≠ .idle) :
    (∀ c', c' ≠ c → s.chk c' = .idle) ∧ CutOk s p :=
  ⟨fun c' hcc => by_contra fun h => hcc (hc.one c' c h (hp ▸ hne)), hp ▸ hc.cut c⟩

theorem cuts_move (ho : Order s) (he : Effects s) (hc : Cuts s) (hok : InStep s a)
    (h : Move s a s') : Cuts s' := by
  have hm := h
  cases h with
  | write =>
    refine hc.outside ho he hok hm nofun rfl rfl ⟨_, rfl⟩ fun lsn hl hlt => ?_
    rw [bytes_append]
    exact hok.1 lsn hl hlt
  | @capture c ts hi hredo => exact Cuts.goto (fun c' _ => hok hi c') hc.site (cutAt_end ho he hredo)
  | @flushAll c order lsn pool hp horder hpool =>
    obtain ⟨hothers, hcut⟩ := hc.running hp nofun
    refine Cuts.goto (s := { s with pool := pool }) hothers (fun l hl hle => ?_) ?_
    · have hsite := ((hc.site l hl hle).move ho hm hle).mono fun _ => disk_move he hm
      exact hsite
    · exact (CutAt.move ho hm ⟨[], (append_nil _).symm⟩ hcut).mono fun e =>
        BufferPool.covers_flush he.pool horder hpool
  | @flushed c ts lsn n hp hended =>
    obtain ⟨hothers, hcut⟩ := hc.running hp nofun
    exact Cuts.goto hothers hc.site (CutAt.mono hcut fun e hcovers => hcovers.stored hended)
  | @sync c ts lsn hp =>
    obtain ⟨hothers, hcut⟩ := hc.running hp nofun
    exact Cuts.goto hothers hc.site hcut
  | @writeSite c ts lsn hp =>
    obtain ⟨hothers, hcut⟩ := hc.running hp nofun
    refine Cuts.goto (s := { s with site := some lsn }) hothers ?_ ⟨hcut, rfl⟩
    rintro _ ⟨⟩ -
    exact hcut.2
  | @mark c ts lsn hp =>
    obtain ⟨hothers, hcut⟩ := hc.running hp nofun
    have hcut' := CutAt.move ho hm ⟨_, rfl⟩ hcut.1
    refine Cuts.goto (s := { s with file := s.file ++ [Frame.plain (.checkpoint lsn ts)] })
      hothers ?_ ⟨hcut', hcut.2⟩
    intro l hl _
    obtain rfl : lsn = l := Option.some.inj (hcut.2.symm.trans hl)
    exact hcut'.2
  | @truncate c ts lsn fs hp hfs =>
    obtain ⟨hothers, hcut⟩ := hc.running hp nofun
    refine Cuts.goto (s := { s with file := fs }) hothers ?_ trivial
    intro l hl _
    obtain rfl : lsn = l := Option.some.inj (hcut.2.symm.trans hl)
    have hcovered := hcut.1.2.move ho hm hcut.1.le
    exact hcovered
  | @reset c ts hp =>
    refine Cuts.goto (s := { s with site := some 0 }) (hc.running hp nofun).1 ?_ trivial
    rintro _ ⟨⟩ -
    exact fun l e _ _ _ hl => absurd hl (Nat.not_lt_zero l)
  | @fail c =>
    have hidle : ∀ c', s.chk c' = .idle → (s.goto c .idle).chk c' = .idle :=
      fun c' h => update_keeps (P := (· = Chk.idle)) h fun _ => rfl
    refine ⟨fun c₁ c₂ h₁ h₂ => hc.one c₁ c₂ (fun h => h₁ (hidle c₁ h)) fun h => h₂ (hidle c₂ h), hc.site,
      fun c' => ?_⟩
    by_cases hcc : c' = c
    · simp only [State.goto, hcc, update_self]
      trivial
    · simp only [State.goto, update_of_ne hcc]
      exact hc.cut c'
  | crash => exact ⟨fun _ _ h => absurd rfl h, fun lsn hl hle => (hc.site lsn hl hle).move ho hm hle,
      fun _ => trivial⟩
  | _ => exact hc.outside ho he hok hm nofun rfl rfl ⟨[], (append_nil _).symm⟩ fun _ _ h => h

/-- **What a crash would find**: a data record of a committed transaction is in the data file or
is replayed. -/
theorem mem_disk_or_replayed (ho : Order s) (he : Effects s) (hc : Cuts s) (hlog : e ∈ s.log)
    (hco : e.record.txId ∈ s.committed) : e ∈ s.disk ∨ e ∈ replayed s := by
  have hd := (ho.log_data e hlog).1
  have hdata : e.DataOf e.record.txId := ⟨hd, rfl⟩
  rcases he.placed e hlog (.inr (.inr hco)) with h | h
  · exact .inl h
  simp only [append_assoc, mem_append] at h
  rcases h with h | h | h | h
  · exact absurd hco (ho.unlogged_open e h).2.2
  · exact absurd hco (ho.buffer_open e h _ hdata).1
  · exact absurd hco (ho.flight_open e h _ hdata)
  · obtain ⟨lsn, hl⟩ := mem_entries.mp h
    obtain ⟨c, hcf, hct⟩ := ho.kept e h _ hdata hco
    obtain ⟨lsn', hl'⟩ := mem_entries.mp hcf
    by_cases hredo : redoFrom s ≤ lsn
    · refine .inr (mem_filterMap.mpr ⟨_, hl, if_pos ⟨hd, hredo, ?_⟩⟩)
      exact any_eq_true.mpr ⟨_, hl', hct⟩
    · -- below `redoFrom` only what a valid site covers is skipped
      refine .inl ?_
      unfold redoFrom at hredo
      cases hsite : s.site with
      | none => simp [hsite] at hredo
      | some L =>
        simp only [hsite] at hredo
        split at hredo
        case isTrue hle =>
          exact hc.site L hsite hle lsn e (.inl hl) hd (.inr (.inr hco)) (Nat.not_le.mp hredo)
        case isFalse => exact absurd (Nat.zero_le _) hredo

theorem mem_entries_of_mem_replayed (h : e ∈ replayed s) : e ∈ entries s.file := by
  obtain ⟨f, hf, h⟩ := mem_filterMap.mp h
  cases f with
  | withLsn lsn e' =>
    simp only at h
    obtain ⟨-, rfl⟩ := of_guard h
    exact mem_entries.mpr ⟨lsn, hf⟩
  | plain r => cases h

/-- A record goes from place to place; it leaves the file only when its effect is in the data
file. -/
theorem placed_move (hc : Cuts s) (h : Move s a s') (ha : a ≠ .crash)
    (hd : e.record.isData = true) (hrel : Relevant s e.record.txId)
    (he : e ∈ s.unlogged ++ s.buffer ++ flight s ++ entries s.file) :
    e ∈ s'.disk ∨ e ∈ s'.unlogged ++ s'.buffer ++ flight s' ++ entries s'.file := by
  simp only [append_assoc, mem_append] at he ⊢
  cases h with
  | begin | commit | abort =>
    right
    rcases he with he | he | he
    · exact .inl he
    · exact .inr (.inl (mem_append_left _ he))
    · exact .inr (.inr he)
  | modify =>
    right
    rcases he with he | he
    · exact .inl (mem_cons_of_mem _ he)
    · exact .inr he
  | @append e' hu =>
    right
    rcases he with he | he | he
    · by_cases heq : e = e'
      · exact .inr (.inl (mem_append_right _ (mem_singleton.mpr heq)))
      · exact .inl ((mem_erase_of_ne heq).mpr he)
    · exact .inr (.inl (mem_append_left _ he))
    · exact .inr (.inr he)
  | take =>
    right
    rcases he with he | he | he | he
    · exact .inl he
    · exact .inr (.inr (.inl (mem_flight.mpr (.inl ⟨_, mem_cons_self, he⟩))))
    · refine .inr (.inr (.inl (mem_flight.mpr ?_)))
      rcases mem_flight.mp he with ⟨es, hes, he⟩ | he
      · exact .inl ⟨es, mem_cons_of_mem _ hes, he⟩
      · exact .inr he
    · exact .inr (.inr (.inr he))
  | readLen hes =>
    right
    rwa [mem_flight_readLen hes]
  | @write fs hfs =>
    right
    simp only [entries_append, mem_append]
    rcases he with he | he | he | he
    · exact .inl he
    · exact .inr (.inl he)
    · rcases mem_flight.mp he with he | ⟨fs', hfs', he⟩
      · exact .inr (.inr (.inl (mem_flight.mpr (.inl he))))
      · by_cases heq : fs' = fs
        · exact .inr (.inr (.inr (.inr (heq ▸ he))))
        · exact .inr (.inr (.inl (mem_flight.mpr
            (.inr ⟨fs', (mem_erase_of_ne heq).mpr hfs', he⟩))))
    · exact .inr (.inr (.inr (.inl he)))
  | mark =>
    right
    change e ∈ s.unlogged ∨ e ∈ s.buffer ∨ e ∈ flight s ∨ e ∈ entries (s.file ++ [_])
    rwa [entries_append, entries_plain, entries_nil, append_nil]
  | @truncate c ts lsn fs hp hfs =>
    rcases he with he | he | he | he
    · exact .inr (.inl he)
    · exact .inr (.inr (.inl he))
    · exact .inr (.inr (.inr (.inl he)))
    · obtain ⟨-, ⟨⟨pre, suf, hf, hlen, hpre⟩, -⟩, -⟩ := hc.running hp nofun
      rw [← hlen, hf, dropBytes_append, Option.some.injEq] at hfs
      subst hfs
      rw [hf, entries_append] at he
      rcases mem_append.mp he with he | he
      · exact .inl (hpre e he hd hrel)
      · exact .inr (.inr (.inr (.inr he)))
  | crash => exact absurd rfl ha
  | _ => exact .inr he

/-- The log only grows, by records of transactions at work. -/
theorem log_move (h : Move s a s') (he : e ∈ s'.log) : e ∈ s.log ∨ e ∈ s'.mem ∧ e ∈ s'.unlogged := by
  cases h with
  | modify =>
    rcases mem_cons.mp he with rfl | he
    · exact .inr ⟨mem_addEffect _, mem_cons_self⟩
    · exact .inl he
  | _ => exact .inl he

theorem effects_crash (ho : Order s) (he : Effects s) (hc : Cuts s) (h : Move s .crash s') :
    Effects s' := by
  cases h
  refine ⟨BufferPool.inv_init _ _, BufferPool.growing_init _ _, fun e hlog hrel => ?_,
    fun e hlog hrel => ?_⟩
  all_goals
    -- only what is committed still matters
    have hco : e.record.txId ∈ s.committed := (hrel.resolve_left not_mem_nil).resolve_left not_mem_nil
    have hfound := mem_disk_or_replayed ho he hc hlog hco
  · exact hfound
  · exact hfound.imp_right fun h => mem_append_right _ (mem_entries_of_mem_replayed h)

theorem effects_move (ho : Order s) (he : Effects s) (hc : Cuts s) (hok : InStep s a) (h : Move s a s')
    (ha : a ≠ .crash) : Effects s' where
  pool := by
    obtain hpool | ⟨label, -, -, hstep, hpool⟩ := pool_move h ha
    · rw [hpool]
      exact he.pool
    · exact BufferPool.inv_step _ _ _ he.pool (hpool hok).1 hstep
  growing := by
    obtain hpool | ⟨label, hwhole, hadds, hstep, -⟩ := pool_move h ha
    · rw [hpool]
      exact he.growing
    · exact (BufferPool.effect_of_step hwhole hstep).growing he.pool he.growing hadds
  effect := by
    intro e hlog hrel
    rcases log_move h hlog with hlog | ⟨hmem, -⟩
    · rcases he.effect e hlog (relevant_move ho h hlog hrel) with hmem | hredo
      · exact .inl (mem_move he h ha hmem)
      · exact redo_move h ha hredo
    · exact .inl hmem
  placed := by
    intro e hlog hrel
    rcases log_move h hlog with hlog | ⟨-, hun⟩
    · have hrel := relevant_move ho h hlog hrel
      rcases he.placed e hlog hrel with hd | hp
      · exact .inl (disk_move he h hd)
      · exact placed_move hc h ha (ho.log_data e hlog).1 hrel hp
    · exact .inr (by simp [hun])

end Cuts

/-! ### Committed work -/

/-- What holds between any two steps. -/
structure Inv (s : State) : Prop where
  order : Order s
  effects : Effects s
  cuts : Cuts s

theorem inv_init (capacity : ℕ) : Inv (init capacity) :=
  ⟨order_init capacity, effects_init capacity, cuts_init capacity⟩

theorem inv_step {s s' : State} {a : Label} (hi : Inv s) (hok : InStep s a)
    (hstep : step s a = some s') : Inv s' := by
  have h := move_of_step hstep
  refine ⟨order_move hi.order hok h, ?_, cuts_move hi.order hi.effects hi.cuts hok h⟩
  by_cases ha : a = .crash
  · exact effects_crash hi.order hi.effects hi.cuts (ha ▸ h)
  · exact effects_move hi.order hi.effects hi.cuts hok h ha

theorem inv_run {capacity : ℕ} {as : List Label} {s : State}
    (hrun : run step (init capacity) as = some s)
    (hok : Guarded InStep step (init capacity) as) : Inv s :=
  run_invariant (fun _ _ _ hi hok h => inv_step hi hok h) (inv_init capacity) hok hrun

/-- Some committed work is neither in the data file nor replayed. -/
def Lost (s : State) : Prop :=
  ∃ e ∈ s.log, e.record.txId ∈ s.committed ∧ e ∉ s.disk ∧ e ∉ replayed s

instance (s : State) : Decidable (Lost s) := inferInstanceAs (Decidable (∃ e ∈ s.log, _))

/-- The three records of a transaction that inserts one row on page 1, the first with identity
`id`. -/
def records (tx id : ℕ) (row : Bytes) : List Entry :=
  [⟨id, .beginTxn tx, 0⟩, ⟨id + 1, .insert tx "t" ⟨1, id⟩ row, 1⟩, ⟨id + 2, .commitTxn tx 0, 0⟩]

/-- Page 1 is loaded. -/
def load : List Label := .pool (.get 1) :: (BufferPool.loading 0).map .pool

/-- The transaction runs, with the guard of page 1 that call `n` has, and its records are written
when the file has `base` bytes. -/
def work (tx id base n : ℕ) (row : Bytes) : List Label :=
  [.begin tx, .modify tx (.insert tx "t" ⟨1, id⟩ row) n, .pool (.drop n),
    .append ⟨id + 1, .insert tx "t" ⟨1, id⟩ row, 1⟩, .commit tx 0, .take, .readLen (records tx id row),
    .write (framesAt base (records tx id row))]

/-- The next `m` steps of checkpoint `c`. -/
def checkpoints (c m : ℕ) : List Label := List.replicate m (.checkpoint c 0)

/-- `flush_all`, called by checkpoint `c`, writes page 1. -/
def flushPage (c n : ℕ) : List Label :=
  [.flushAll c [1], .pool (.visit n), .pool (.visit n), .pool (.wrote n none), .pool (.visit n)]

/-- `flush_all`, called by checkpoint `c`, finds nothing to write on the pages `order`. -/
def flushNothing (c n : ℕ) (order : List ℕ) : List Label :=
  .flushAll c order :: List.replicate (order.length + 2) (.pool (.visit n))

/-- A checkpoint, up to the end of its second step. -/
def flushed : List Label := load ++ work 1 0 0 0 [0] ++ checkpoints 0 1 ++ flushPage 0 0

/-- A checkpoint completes, and the machine crashes before and after the next commit. -/
def completedCheckpoint : List Label :=
  flushed ++ checkpoints 0 6 ++ [.crash] ++ load ++ work 2 3 21 0 [0] ++ [.crash]

/-- A checkpoint reaches the cut and the machine crashes; the next session commits, and the WAL
grows past the LSN that is still in the site file. -/
def staleSite : List Label := flushed ++ checkpoints 0 5 ++ [.crash] ++ load ++ work 2 3 21 0 [0]

/-- The flush that takes the commit record overtakes the one that has the row. -/
def overtakenFlush : List Label :=
  load ++ [.begin 1, .modify 1 (.insert 1 "t" ⟨1, 0⟩ [0]) 0,
    .append ⟨1, .insert 1 "t" ⟨1, 0⟩ [0], 1⟩, .take,
    .commit 1 0, .take, .readLen [⟨2, .commitTxn 1 0, 0⟩], .write (framesAt 0 [⟨2, .commitTxn 1 0, 0⟩])]

/-- Two checkpoints capture the same LSN; the second cuts the file that the first has cut already
and that has grown since. -/
def twoCheckpoints : List Label :=
  load ++ work 1 0 0 0 [0] ++ checkpoints 0 1 ++ checkpoints 1 1 ++ flushPage 0 0 ++ checkpoints 0 6 ++
    flushNothing 1 1 [1] ++ checkpoints 1 1 ++ .pool (.get 1) :: work 2 3 21 1
      (List.replicate 13 0) ++ checkpoints 1 4

/-- The page is on its way to the data file when the checkpoint comes to it, and is
not there yet when the WAL is cut. -/
def pageInFlight : List Label :=
  load ++ work 1 0 0 0 [0] ++ [.pool (.flushPages [1]),
    .pool (.visit 0)] ++ checkpoints 0 1 ++ flushNothing 0 1 [1] ++ checkpoints 0 5

/-- The rows of a transaction that inserts two, the second through a guard that it gets while page 1
is being evicted and uses when the page was removed from the buffer pool. -/
def removedPage : List Label :=
  let first : WalRecord := .insert 1 "t" ⟨1, 0⟩ [0]
  let second : WalRecord := .insert 1 "t" ⟨1, 1⟩ [0]
  let entries : List Entry :=
    [⟨0, .beginTxn 1, 0⟩, ⟨1, first, 1⟩, ⟨2, second, 1⟩, ⟨3, .commitTxn 1 0, 0⟩]
  load ++ [.begin 1, .modify 1 first 0, .pool (.drop 0), .append ⟨1, first, 1⟩, .pool (.get 2)] ++
    List.replicate 5 (.pool (.advance 1)) ++
    [.pool (.get 1), .pool (.evicted 1 none), .pool (.advance 1), .modify 1 second 2,
      .append ⟨2, second, 1⟩, .commit 1 0, .take, .readLen entries, .write (framesAt 0 entries)] ++
    checkpoints 0 1 ++ flushNothing 0 0 [] ++ checkpoints 0 5

end RTsql.Wal.Checkpoint

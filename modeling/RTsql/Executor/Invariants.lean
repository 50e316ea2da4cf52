import RTsql.Executor.Interleaving

/-!
# What every interleaving keeps

`Move` says what each step of `RTsql.Executor.Interleaving` can do, and `header_move`
what it can do to the version headers. From the two follows `Inv`, which holds
between any two steps of any interleaving: a statement within a transaction runs only
while the transaction does, a view holds no id that is not allocated, and the versions
that a transaction marks are its own.
-/

namespace RTsql.Executor

open Function List RTsql.Library RTsql.Storage RTsql.Transaction VersionHeader

/-- What a step can do. -/
inductive Move (s : State) : Label → State → Prop
  | allocate : Move s .allocate ({ s with counter := s.counter + 1 }.setPhase (s.counter + 1) .allocated)
  | enter {tx} : s.phase tx = .allocated →
      Move s (.enter tx) ({ s with active := tx :: s.active }.setPhase tx (.running [] []))
  | write {tx page w versions} : s.phase tx = .running versions [] → w.found s.heap = true →
      Move s (.write tx page w)
        ((s.writeSlot tx page w).setPhase tx (.running versions (w.todo (s.heap.nextRid page))))
  | work {tx t versions todo} : s.phase tx = .running versions (t :: todo) →
      Move s (.work tx) ((s.perform tx t).setPhase tx (.running (t.onVersions versions) todo))
  | workCommit {tx page rest} : s.phase tx = .committing rest (some page) →
      Move s (.work tx) ((s.perform tx (.clear page)).setPhase tx (.committing rest none))
  | commit {tx versions} : s.phase tx = .running versions [] → s.reader (.own tx) = .idle →
      Move s (.commit tx) (s.setPhase tx (.committing versions none))
  | abort {tx versions todo} : s.phase tx = .running versions todo → s.reader (.own tx) = .idle →
      Move s (.abort tx) (s.setPhase tx (.aborting (versions ∪ s.heap.versionsCreatedBy tx) todo))
  | markCommitted {tx rid rest v} : s.phase tx = .committing rest none → s.heap.header? rid = some v →
      rid ∈ rest →
      Move s (.mark tx rid) ((s.setHeader rid (v.commit tx)).setPhase tx
        (.committing (rest.filter (· ≠ rid)) (some rid.pageId)))
  | markAborted {tx rid rest todo v} : s.phase tx = .aborting rest todo → s.heap.header? rid = some v →
      rid ∈ rest →
      Move s (.mark tx rid)
        ((s.setHeader rid v.markAborted).setPhase tx (.aborting (rest.filter (· ≠ rid)) todo))
  | leaveCommitted {tx} : s.phase tx = .committing [] none →
      Move s (.leave tx) ({ s with active := s.active.filter (· ≠ tx) }.setPhase tx (.finished true))
  | leaveAborted {tx todo} : s.phase tx = .aborting [] todo →
      Move s (.leave tx) ({ s with active := s.active.filter (· ≠ tx) }.setPhase tx (.finished false))
  | readActive {q} : s.reader q = .idle →
    (∀ tx, q = .own tx → ∃ vs todo, s.phase tx = .running vs todo) →
      Move s (.readActive q) (s.setReader q (.opened s.active))
  | readCurrent {q active} : s.reader q = .opened active →
      Move s (.readCurrent q) (s.setReader q
        (.reading (.statementView s.counter q.selfTxId active) none))
  | checkPage {q page view checked} : s.reader q = .reading view checked →
      Move s (.checkPage q page) (s.setReader q (.reading view (some page)))
  | setPage {q page view} : s.reader q = .reading view (some page) →
      Move s (.setPage q) ({ s with vis := s.vis.setAllVisible page }.setReader q (.reading view none))
  | close {q} : Move s (.close q) (s.setReader q .idle)

theorem move_of_step {s s' : State} {a : Label} (h : step s a = some s') : Move s a s' := by
  revert h
  fun_cases step s a <;> intro h
  case case22 hr =>
    rw [hr] at h
    cases h
    exact .readActive hr nofun
  case case23 hp hr =>
    rw [hr, hp] at h
    cases h
    refine .readActive hr ?_
    rintro _ ⟨⟩
    exact ⟨_, _, hp⟩
  case case24 hauto hown =>
    split at h <;> grind
  all_goals cases h
  case case1 => exact .allocate
  case case2 hp => exact .enter hp
  case case4 hp hw => exact .write hp hw.2
  case case7 hp => exact .work hp
  case case8 hp => exact .workCommit hp
  case case10 hr hp => exact .commit hp hr
  case case12 hr hp => exact .abort hp hr
  case case14 hv hp hr => exact .markCommitted hp hv hr
  case case16 hv hp hr => exact .markAborted hp hv hr
  case case19 hp => exact .leaveCommitted hp
  case case20 hp => exact .leaveAborted hp
  case case25 hr => exact .readCurrent hr
  case case27 hr _ => exact .checkPage hr
  case case30 hr => exact .setPage hr
  case case32 => exact .close

/-! ### What holds between any two steps -/

/-- What holds between any two steps, whatever the interleaving. -/
structure Inv (s : State) : Prop where
  /-- Ids beyond the allocator's are not in use. -/
  unborn : ∀ tx, s.counter < tx → s.phase tx = .unborn
  /-- No transaction has the id that marks an aborted version. -/
  zero : s.phase 0 = .finished true
  /-- The active set holds transactions that have begun and not finished. -/
  active : ∀ tx ∈ s.active, (s.phase tx).Active
  /-- A statement within a transaction runs while the transaction does. -/
  own : ∀ tx, s.reader (.own tx) ≠ .idle → ∃ versions todo, s.phase tx = .running versions todo
  /-- A view carries its session's own id, and no id beyond the allocator's. -/
  view : ∀ q view checked, s.reader q = .reading view checked →
    view.txId = q.selfTxId ∧ view.txId ≤ view.highWater ∧ view.highWater ≤ s.counter
  wf : s.heap.WF
  /-- Every version was created by a transaction that has an id. -/
  created : ∀ rid v, s.heap.header? rid = some v → v.createTxId ≤ s.counter
  /-- The versions that a transaction is about to record or has yet to mark are its own. -/
  recorded : ∀ tx, ∀ rid ∈ (s.phase tx).versions, ∃ v, s.heap.header? rid = some v ∧ v.createTxId = tx
  /-- The chain pointer of a tombstone is written last, and until then it has none. -/
  linked : ∀ tx versions before rid target after,
    s.phase tx = .running versions (before ++ .link rid target :: after) →
      after = [] ∧ s.heap.header? rid = some ((new tx).markDeleted)

theorem inv_init (st : Start) : Inv st.init where
  unborn tx htx := if_neg (Nat.not_le.mpr htx)
  zero := by simp [Start.init]
  active := nofun
  own tx h := absurd rfl h
  view := nofun
  wf := st.wf
  created := st.created
  recorded tx rid hr := by
    change rid ∈ (if tx ≤ st.counter then Phase.finished true else .unborn).versions at hr
    split at hr <;> cases hr
  linked tx versions before rid target after hp := by
    change (if tx ≤ st.counter then Phase.finished true else .unborn) = _ at hp
    split at hp <;> cases hp

/-- A header that a step writes. -/
inductive Written (s : State) : Label → RowId → VersionHeader → Prop
  | slot {tx page w versions} : s.phase tx = .running versions [] → w.found s.heap = true →
      s.heap.header? (s.heap.nextRid page) = none →
      Written s (.write tx page w) (s.heap.nextRid page) (w.header tx)
  | link {tx rid target versions todo} : s.phase tx = .running versions (.link rid target :: todo) →
      s.heap.header? rid = some ((new tx).markDeleted) →
      Written s (.work tx) rid ((new tx).withNextVersion target).markDeleted
  | committed {tx rid rest v} : s.phase tx = .committing rest none → s.heap.header? rid = some v →
      v.createTxId = tx → Written s (.mark tx rid) rid (v.commit tx)
  | aborted {tx rid rest todo v} : s.phase tx = .aborting rest todo → s.heap.header? rid = some v →
      v.createTxId = tx → Written s (.mark tx rid) rid v.markAborted

section Step

variable {s s' : State} {a : Label} {rid : RowId} {tx : ℕ} {v : VersionHeader}

@[simp] theorem setPhase_phase (s : State) (tx : ℕ) (p : Phase) :
    (s.setPhase tx p).phase = update s.phase tx p := rfl

/-- **The headers after a step**: each is as before, or is the one the step writes. -/
theorem header_move (hi : Inv s) (h : Move s a s') (rid : RowId) :
    s'.heap.header? rid = s.heap.header? rid ∨ ∃ v, s'.heap.header? rid = some v ∧
    Written s a rid v := by
  have set : ∀ {r v₀} v, s.heap.header? r = some v₀ → (r = rid → Written s a rid v) →
      (s.heap.setHeader r v).header? rid = s.heap.header? rid ∨
        ∃ v', (s.heap.setHeader r v).header? rid = some v' ∧ Written s a rid v' := by
    intro r v₀ v hv hw
    by_cases hr : rid = r
    · exact .inr ⟨v, (Heap.header?_setHeader _ hv _ _).trans (if_pos hr), hw hr.symm⟩
    · exact .inl ((Heap.header?_setHeader _ hv _ _).trans (if_neg hr))
  cases h with
  | @write tx page w versions hp hw =>
    by_cases hr : rid = s.heap.nextRid page
    · subst hr
      refine .inr ⟨_, ?_, .slot hp hw (s.heap.header?_nextRid page)⟩
      exact (s.heap.header?_append page _ _).trans (if_pos rfl)
    · exact .inl ((s.heap.header?_append page _ _).trans (if_neg hr))
  | @work tx t versions todo hp =>
    cases t with
    | link r target =>
      obtain ⟨-, hl⟩ := hi.linked tx _ [] r target todo hp
      exact set _ hl fun hr => hr ▸ .link hp hl
    | _ => exact .inl rfl
  | @markCommitted tx r rest v hp hv hmem =>
    obtain ⟨v', hv', hc⟩ := hi.recorded tx r (by rw [hp]; exact hmem)
    obtain rfl := Option.mem_unique hv hv'
    exact set _ hv fun hr => hr ▸ .committed hp hv hc
  | @markAborted tx r rest todo v hp hv hmem =>
    obtain ⟨v', hv', hc⟩ := hi.recorded tx r (by rw [hp]; exact hmem)
    obtain rfl := Option.mem_unique hv hv'
    exact set _ hv fun hr => hr ▸ .aborted hp hv hc
  | _ => exact .inl rfl

/-- Who writes a header: a transaction that runs or commits, unless the version is aborted. -/
theorem Written.writer (hw : Written s a rid v) :
    v.createTxId = 0 ∨ (∃ versions todo, s.phase v.createTxId = .running versions todo) ∨
      ∃ rest, s.phase v.createTxId = .committing rest none := by
  cases hw with
  | slot hp =>
    rw [Write.createTxId_header]
    exact .inr (.inl ⟨_, _, hp⟩)
  | link hp => exact .inr (.inl ⟨_, _, hp⟩)
  | committed hp hv hc =>
    rw [createTxId_commit, hc]
    exact .inr (.inr ⟨_, hp⟩)
  | aborted => exact .inl rfl

variable (hi : Inv s) (h : Move s a s')

include hi h

/-- A version keeps its creator unless it is marked aborted. -/
theorem createTxId_move (hv : s.heap.header? rid = some v) : ∃ v', s'.heap.header? rid = some v' ∧
      (v'.createTxId = v.createTxId ∨
        ∃ rest todo, a = .mark v.createTxId rid ∧ s.phase v.createTxId = .aborting rest todo ∧
        v' = v.markAborted) := by
  rcases header_move hi h rid with heq | ⟨v', hv', hw⟩
  · exact ⟨v, heq.trans hv, .inl rfl⟩
  · refine ⟨v', hv', ?_⟩
    cases hw with
    | slot hp hf hnone =>
      cases hv.symm.trans hnone
    | link hp hl =>
      rw [hv, Option.some.injEq] at hl
      exact .inl (hl ▸ rfl)
    | committed hp hv₀ hc =>
      rw [hv, Option.some.injEq] at hv₀
      exact .inl (hv₀ ▸ createTxId_commit _ _)
    | aborted hp hv₀ hc =>
      rw [hv, Option.some.injEq] at hv₀
      subst hv₀ hc
      exact .inr ⟨_, _, rfl, hp, rfl⟩

theorem unborn_move : ∀ tx, s'.counter < tx → s'.phase tx = .unborn := by
  have key : ∀ t p, s.phase t ≠ .unborn → ∀ tx, s.counter < tx →
      update s.phase t p tx = .unborn :=
    fun t p ht tx htx => update_keeps (P := (· = Phase.unborn)) (hi.unborn tx htx) (absurd · ht)
  cases h with
  | allocate =>
    intro tx (htx : s.counter + 1 < tx)
    rw [setPhase_phase, update_of_ne (by omega)]
    exact hi.unborn tx (by omega)
  | enter hp | write hp | work hp | workCommit hp | commit hp | abort hp | markCommitted hp
  | markAborted hp | leaveCommitted hp | leaveAborted hp =>
    exact key _ _ (by rw [hp]; nofun)
  | _ => exact hi.unborn

/-- A finished transaction stays finished. -/
theorem finished_move {b : Bool} (hf : s.phase tx = .finished b) : s'.phase tx = .finished b := by
  have key : ∀ t p, s.phase t ≠ .finished b → update s.phase t p tx = .finished b :=
    fun t p ht => update_keeps (P := (· = Phase.finished b)) hf (absurd · ht)
  cases h with
  | allocate => exact key _ _ (by rw [hi.unborn _ (Nat.lt_succ_self _)]; nofun)
  | enter hp | write hp | work hp | workCommit hp | commit hp | abort hp | markCommitted hp
  | markAborted hp | leaveCommitted hp | leaveAborted hp =>
    exact key _ _ (by rw [hp]; nofun)
  | _ => exact hf

theorem active_move : ∀ tx ∈ s'.active, (s'.phase tx).Active := by
  have key : ∀ t p, ((s.phase t).Active → p.Active) → ∀ tx ∈ s.active, (update s.phase t p tx).Active :=
    fun t p hp tx htx => update_keeps (P := Phase.Active) (hi.active tx htx) hp
  have leave : ∀ t p, ∀ tx ∈ s.active.filter (· ≠ t), (update s.phase t p tx).Active := by
    intro t p tx htx
    obtain ⟨hmem, hne⟩ := mem_filter.mp htx
    rw [update_of_ne (by simpa using hne)]
    exact hi.active tx hmem
  cases h with
  | allocate => exact key _ _ (by rw [hi.unborn _ (Nat.lt_succ_self _)]; nofun)
  | @enter t hp =>
    intro tx htx
    by_cases ht : tx = t
    · rw [setPhase_phase, ht, update_self]
      trivial
    · rw [setPhase_phase, update_of_ne ht]
      exact hi.active tx ((mem_cons.mp htx).resolve_left ht)
  | write hp | work hp | workCommit hp | commit hp | abort hp | markCommitted hp | markAborted hp =>
    exact key _ _ fun _ => trivial
  | leaveCommitted hp | leaveAborted hp => exact leave _ _
  | _ => exact hi.active

/-- A transaction that is running stays so as long as a statement runs within it. -/
theorem own_move : ∀ tx, s'.reader (.own tx) ≠ .idle → ∃ versions todo,
    s'.phase tx = .running versions todo := by
  have key : ∀ t p, (∀ vs td, s.phase t = .running vs td → s.reader (.own t) ≠ .idle → ∃ vs td,
    p = .running vs td) →
      ∀ tx, s.reader (.own tx) ≠ .idle → ∃ vs td, update s.phase t p tx = .running vs td := by
    intro t p hp tx hr
    obtain ⟨vs, td, hrun⟩ := hi.own tx hr
    obtain rfl | ht := eq_or_ne tx t
    · rw [update_self]
      exact hp vs td hrun hr
    · exact ⟨vs, td, by rw [update_of_ne ht, hrun]⟩
  have reader : ∀ q r, (∀ tx, q = .own tx → r ≠ .idle → ∃ vs td, s.phase tx = .running vs td) →
      ∀ tx, update s.reader q r (.own tx) ≠ .idle → ∃ vs td, s.phase tx = .running vs td := by
    intro q r hq tx hr
    obtain ⟨ht, hr⟩ | ⟨-, hr⟩ := update_cases (P := (· ≠ Reader.idle)) hr
    · exact hq tx ht.symm hr
    · exact hi.own tx hr
  cases h with
  | allocate => exact key _ _ (by rw [hi.unborn _ (Nat.lt_succ_self _)]; nofun)
  | enter hp | workCommit hp | markCommitted hp | markAborted hp | leaveCommitted hp | leaveAborted hp =>
    exact key _ _ (by rw [hp]; nofun)
  | write hp | work hp => exact key _ _ fun _ _ _ _ => ⟨_, _, rfl⟩
  | commit hp hr | abort hp hr => exact key _ _ fun _ _ _ h => absurd hr h
  | readActive hr hq => exact reader _ _ fun tx htx _ => hq tx htx
  | readCurrent hr | checkPage hr | setPage hr =>
    refine reader _ _ fun tx htx _ => hi.own tx ?_
    rw [← htx, hr]
    nofun
  | close => exact reader _ _ fun tx _ h => absurd rfl h

omit hi h

/-- A statement that has its view after a step: it had it before, or has just read the
allocator. -/
theorem reading_move (h : Move s a s') {q : Session} {view : Snapshot} {checked : Option ℕ}
    (hr : s'.reader q = .reading view checked) :
    (∃ checked', s.reader q = .reading view checked') ∨
      ∃ active, a = .readCurrent q ∧ s.reader q = .opened active ∧
        view = .statementView s.counter q.selfTxId active := by
  have key : ∀ q' r, update s.reader q' r q = .reading view checked →
      (∃ checked', s.reader q = .reading view checked') ∨ q' = q ∧ r = .reading view checked := by
    intro q' r hr
    obtain ⟨rfl, hnew⟩ | ⟨-, hold⟩ := update_eq_cases hr
    · exact .inr ⟨rfl, hnew⟩
    · exact .inl ⟨_, hold⟩
  cases h with
  | readActive | close =>
    rcases key _ _ hr with hold | ⟨-, hnew⟩
    · exact .inl hold
    · cases hnew
  | @readCurrent q' active hq =>
    rcases key _ _ hr with hold | ⟨rfl, hnew⟩
    · exact .inl hold
    · cases hnew
      exact .inr ⟨active, rfl, hq, rfl⟩
  | checkPage hq | setPage hq =>
    rcases key _ _ hr with hold | ⟨rfl, hnew⟩
    · exact .inl hold
    · cases hnew
      exact .inl ⟨_, hq⟩
  | _ => exact .inl ⟨_, hr⟩

/-- The allocator only grows. -/
theorem counter_move (h : Move s a s') : s.counter ≤ s'.counter := by
  cases h with
  | allocate => exact Nat.le_succ _
  | _ => exact Nat.le_refl _

/-- A transaction that has begun has an id that is used up. -/
theorem le_counter (hi : Inv s) (h : s.phase tx ≠ .unborn) : tx ≤ s.counter := by
  by_contra hlt
  exact h (hi.unborn tx (Nat.not_le.mp hlt))

include hi h

theorem view_move : ∀ q view checked, s'.reader q = .reading view checked →
      view.txId = q.selfTxId ∧ view.txId ≤ view.highWater ∧ view.highWater ≤ s'.counter := by
  intro q view checked hr
  rcases reading_move h hr with ⟨checked', hold⟩ | ⟨active, -, hopen, rfl⟩
  · obtain ⟨htx, hle, hhw⟩ := hi.view q view checked' hold
    exact ⟨htx, hle, Nat.le_trans hhw (counter_move h)⟩
  · refine ⟨rfl, ?_, counter_move h⟩
    cases q with
    | auto n => exact Nat.zero_le _
    | own tx =>
      obtain ⟨versions, todo, hp⟩ := hi.own tx (by rw [hopen]; nofun)
      have hborn : s.phase tx ≠ .unborn := by rw [hp]; nofun
      exact le_counter hi hborn

theorem wf_move : s'.heap.WF := by
  cases h with
  | write => exact hi.wf.append _ _
  | @work tx t =>
    cases t with
    | link => exact hi.wf.setHeader _ _
    | _ => exact hi.wf
  | markCommitted | markAborted => exact hi.wf.setHeader _ _
  | _ => exact hi.wf

theorem created_move : ∀ rid v, s'.heap.header? rid = some v → v.createTxId ≤ s'.counter := by
  intro rid v hv
  refine Nat.le_trans ?_ (counter_move h)
  rcases header_move hi h rid with heq | ⟨v', hv', hw⟩
  · exact hi.created rid v (heq ▸ hv)
  · obtain rfl := Option.mem_unique hv hv'
    cases hw with
    | slot hp =>
      rw [Write.createTxId_header]
      exact le_counter hi (by rw [hp]; nofun)
    | @link tx rid target versions todo hp =>
      have hborn : s.phase tx ≠ .unborn := by rw [hp]; nofun
      exact le_counter hi hborn
    | committed hp hv₀ =>
      rw [createTxId_commit]
      exact hi.created _ _ hv₀
    | aborted => exact Nat.zero_le _

omit hi h

theorem versions_cases {f : ℕ → Phase} {t : ℕ} {p : Phase} (hr : rid ∈ (update f t p tx).versions) :
    tx = t ∧ rid ∈ p.versions ∨ tx ≠ t ∧ rid ∈ (f tx).versions :=
  update_cases (P := fun p : Phase => rid ∈ p.versions) hr

include hi h

/-- The versions a transaction knows of after a step: it knew of them before, and the step has
not marked them aborted, or the step has shown them to it. -/
theorem versions_move (hr : rid ∈ (s'.phase tx).versions) :
    (rid ∈ (s.phase tx).versions ∧ ∀ rest todo, a = .mark tx rid → s.phase tx ≠ .aborting rest todo) ∨
      ∃ v, s'.heap.header? rid = some v ∧ v.createTxId = tx := by
  have key : ∀ t p, (∀ r ∈ p.versions, r ∈ (s.phase t).versions) → (∀ t r, a ≠ .mark t r) →
      rid ∈ (update s.phase t p tx).versions →
      (rid ∈ (s.phase tx).versions ∧ ∀ rest todo, a = .mark tx rid →
        s.phase tx ≠ .aborting rest todo) := by
    intro t p hsub ha hr
    refine ⟨?_, fun _ _ h => absurd h (ha _ _)⟩
    obtain ⟨rfl, hnew⟩ | ⟨-, hold⟩ := versions_cases hr
    · exact hsub rid hnew
    · exact hold
  cases h with
  | allocate => exact .inl (key _ _ (fun _ h => absurd h not_mem_nil) nofun hr)
  | enter => exact .inl (key _ _ (fun _ h => absurd h not_mem_nil) nofun hr)
  | @write t page w versions hp =>
    obtain ⟨rfl, hown⟩ | ⟨-, hother⟩ := versions_cases hr
    · rcases mem_append.mp hown with hold | hnew
      · refine .inl ⟨?_, nofun⟩
        rw [hp]
        exact mem_append_left _ hold
      · have hrid : rid = s.heap.nextRid page := by
          rw [Write.recorded_todo] at hnew
          exact mem_singleton.mp hnew
        refine .inr ⟨w.header tx, ?_, Write.createTxId_header _ _⟩
        exact (s.heap.header?_append page _ _).trans (if_pos hrid)
    · exact .inl ⟨hother, nofun⟩
  | @work t td versions todo hp =>
    refine .inl (key _ _ (fun r hr => ?_) nofun hr)
    rw [hp]
    cases td with
    | record r' =>
      simp only [Phase.versions, Todo.onVersions, cons_append, mem_cons, mem_append,
        filterMap_cons, Todo.recorded] at hr ⊢
      rcases hr with h | h | h
      · exact .inr (.inl h)
      · exact .inl h
      · exact .inr (.inr h)
    | _ => exact hr
  | workCommit hp => exact .inl (key _ _ (by rw [hp]; exact fun _ h => h) nofun hr)
  | commit hp =>
    refine .inl (key _ _ (fun r hr => ?_) nofun hr)
    rw [hp]
    exact mem_append_left _ hr
  | @abort t versions todo hp =>
    obtain ⟨rfl, hown⟩ | ⟨-, hother⟩ := versions_cases hr
    · rcases mem_union_iff.mp hown with hold | hnew
      · refine .inl ⟨?_, nofun⟩
        rw [hp]
        exact mem_append_left _ hold
      · exact .inr ((Heap.mem_versionsCreatedBy hi.wf).mp hnew)
    · exact .inl ⟨hother, nofun⟩
  | @markCommitted t r rest v hp hv hmem | @markAborted t r rest todo v hp hv hmem =>
    obtain ⟨rfl, hown⟩ | ⟨ht, hother⟩ := versions_cases hr
    · refine .inl ⟨by rw [hp]; exact (mem_filter.mp hown).1, fun _ _ h => ?_⟩
      cases h
      exact absurd (mem_filter.mp hown).2 (by simp)
    · refine .inl ⟨hother, fun _ _ h => ?_⟩
      cases h
      exact absurd rfl ht
  | leaveCommitted | leaveAborted => exact .inl (key _ _ (fun _ h => absurd h not_mem_nil) nofun hr)
  | _ => exact .inl ⟨hr, nofun⟩

theorem recorded_move :
    ∀ tx, ∀ rid ∈ (s'.phase tx).versions, ∃ v, s'.heap.header? rid = some v ∧ v.createTxId = tx := by
  intro tx rid hr
  rcases versions_move hi h hr with ⟨hold, hkeep⟩ | hnew
  · obtain ⟨v, hv, rfl⟩ := hi.recorded tx rid hold
    obtain ⟨v', hv', hc | ⟨rest, todo, ha, hp, -⟩⟩ := createTxId_move hi h hv
    · exact ⟨v', hv', hc⟩
    · exact absurd hp (hkeep rest todo ha)
  · exact hnew

/-- The tombstone of a running delete changes only when the delete goes on. -/
theorem tombstone_move {versions : List RowId} {todo : List Todo}
    (hp : s.phase tx = .running versions todo) (ha : a ≠ .work tx)
    (hv : s.heap.header? rid = some ((new tx).markDeleted)) :
    s'.heap.header? rid = some ((new tx).markDeleted) := by
  rcases header_move hi h rid with heq | ⟨v', hv', hw⟩
  · exact heq.trans hv
  · exfalso
    cases hw with
    | slot _ _ hnone =>
      cases hv.symm.trans hnone
    | link _ hl =>
      rw [hv, Option.some.injEq] at hl
      obtain rfl : tx = _ := congrArg createTxId hl
      exact ha rfl
    | committed hp' hv₀ hc | aborted hp' hv₀ hc =>
      obtain rfl := Option.mem_unique hv hv₀
      obtain rfl : tx = _ := hc
      cases hp.symm.trans hp'

theorem linked_move : ∀ tx versions before rid target after,
    s'.phase tx = .running versions (before ++ .link rid target :: after) →
      after = [] ∧ s'.heap.header? rid = some ((new tx).markDeleted) := by
  intro tx versions before rid target after hp
  have keep : s.phase tx = .running versions (before ++ .link rid target :: after) → a ≠ .work tx →
      after = [] ∧ s'.heap.header? rid = some ((new tx).markDeleted) := by
    intro hold ha
    obtain ⟨hlast, hv⟩ := hi.linked _ _ _ _ _ _ hold
    exact ⟨hlast, tombstone_move hi h hold ha hv⟩
  have other : ∀ t p, s'.phase = update s.phase t p → (∀ vs td, p ≠ .running vs td) →
      s.phase tx = .running versions (before ++ .link rid target :: after) := by
    intro t p hph hne
    rw [hph] at hp
    obtain ⟨-, hp⟩ | ⟨-, hp⟩ := update_eq_cases hp
    · exact absurd hp (hne _ _)
    · exact hp
  cases h with
  | allocate => exact keep (other _ _ rfl nofun) nofun
  | @enter t hpt =>
    obtain ⟨-, hp⟩ | ⟨-, hp⟩ := update_eq_cases hp
    · cases before <;> cases hp
    · exact keep hp nofun
  | @write t page w vs hpt =>
    obtain ⟨rfl, hown⟩ | ⟨-, hp⟩ := update_eq_cases hp
    · obtain ⟨rfl, hrid, rfl⟩ : w = .delete target ∧ rid = s.heap.nextRid page ∧ after = [] := by
        cases w <;> rcases before with _ | ⟨_, _ | ⟨_, _ | ⟨_, _ | ⟨_, before⟩⟩⟩⟩ <;>
          simp_all [Write.todo]
      exact ⟨rfl, (s.heap.header?_append page _ _).trans (if_pos hrid)⟩
    · exact keep hp nofun
  | @work t td vs todo hpt =>
    obtain ⟨rfl, hown⟩ | ⟨ht, hp⟩ := update_eq_cases hp
    · obtain ⟨-, rfl⟩ := hown
      obtain ⟨hlast, hv⟩ := hi.linked tx vs (td :: before) rid target after hpt
      refine ⟨hlast, ?_⟩
      cases td with
      | link r tg =>
        obtain ⟨hnil, -⟩ := hi.linked tx vs [] r tg _ hpt
        cases before <;> cases hnil
      | _ => exact hv
    · exact keep hp fun h => ht (Label.work.inj h).symm
  | @workCommit t page rest hpt =>
    have hold := other _ _ rfl nofun
    refine keep hold fun h => ?_
    cases h
    cases hold.symm.trans hpt
  | commit | abort | markCommitted | markAborted | leaveCommitted | leaveAborted =>
    exact keep (other _ _ rfl nofun) nofun
  | _ => exact keep hp nofun

omit hi h

theorem inv_step (hi : Inv s) (hstep : step s a = some s') : Inv s' :=
  have h := move_of_step hstep
  { unborn := unborn_move hi h
    zero := finished_move hi h hi.zero
    active := active_move hi h
    own := own_move hi h
    view := view_move hi h
    wf := wf_move hi h
    created := created_move hi h
    recorded := recorded_move hi h
    linked := linked_move hi h }

end Step

/-- **Every interleaving** keeps the invariant. -/
theorem interleaving_inv (st : Start) {as : List Label} {s : State}
    (hrun : run step st.init as = some s) : Inv s :=
  run_invariant (fun _ _ _ hi _ h => inv_step hi h) (inv_init st)
    (guarded_of_forall fun _ _ _ => trivial) hrun

/-- A new table: one page without slots. -/
def newTable : Start where
  counter := 0
  heap := .onePage []
  redone := []
  wf := Heap.wf_onePage []
  created rid v hv := by cases (Heap.header?_onePage_nil rid).symm.trans hv
  redoneBy := nofun

/-- Transaction 1, once begun, inserts a row and commits. -/
def insertAndCommit : List Label :=
  [.write 1 0 (.insert []), .work 1, .work 1, .work 1, .commit 1, .mark 1 ⟨0, 0⟩, .work 1, .leave 1]

theorem interleaving_inv_inserted : ∃ s,
    run step newTable.init ([.allocate, .enter 1] ++ insertAndCommit) = some s ∧ Inv s := by
  refine ⟨?s, ?run, interleaving_inv newTable ?run⟩
  case run => rfl

end RTsql.Executor

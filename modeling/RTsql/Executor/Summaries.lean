import RTsql.Executor.Invariants

/-!
# Page visibility summaries

A scan that finds all of a page visible sets the summary of the page, and later
scans leave out the check of its slots; inserts record the smallest creator of a
page, and scans whose mark is below it pass over the page.

## What is proved

* `summaries_exact` — a scan of a page yields with the summary what it yields slot by
  slot, in every interleaving that meets `SummaryOk`, once every write has updated the
  summary of its page.
* `summaries_change_answers` — runs outside `SummaryOk` in which it does not.
-/

namespace RTsql.Executor

open Function List RTsql.Library RTsql.Storage RTsql.Transaction

/-! ### The condition -/

/-- A statement sees what the committed transaction `tx` has written. -/
def Reader.Sees (tx : ℕ) : Reader → Prop
  | idle => True
  | opened active => tx ∉ active
  | reading view _ => tx ≤ view.highWater ∧ tx ∉ view.activeTxIds

/-- The version is committed, its transaction has finished, and every open statement sees it. -/
structure Settled (s : State) (v : VersionHeader) : Prop where
  /-- It carries a commit mark. -/
  committed : v.commitTxId ≠ none
  /-- Its transaction has left the active set. -/
  finished : s.phase v.createTxId = .finished true
  /-- Every open statement sees it. -/
  seen : ∀ q, (s.reader q).Sees v.createTxId

/-- `P` holds of every version of the page that is not deleted. -/
def OnPage (s : State) (page : ℕ) (P : VersionHeader → Prop) : Prop :=
  ∀ rid v, rid.pageId = page → s.heap.header? rid = some v → v.isDeleted = false → P v

/-- **The condition under which summaries are sound.** -/
def SummaryOk (s : State) : Label → Prop
  | .setPage q =>
    match s.reader q with
    | .reading _ (some page) => OnPage s page (Settled s)
    | _ => True
  | .write tx page (.update _ _) => ∀ m, s.vis.minCreate page = some m → m ≤ tx
  | .work tx =>
    match s.phase tx with
    | .running _ (.onInsert page :: _) => s.vis.minCreate page = none →
      OnPage s page fun v => tx ≤ v.createTxId ∨ .onInsert page ∈ (s.phase v.createTxId).todo
    | _ => True
  | _ => True

/-- No write has yet to update the summary of the page. -/
def Summarised (s : State) (page : ℕ) : Prop :=
  ∀ tx, .clear page ∉ (s.phase tx).todo ∧ .onInsert page ∉ (s.phase tx).todo

/-- What the condition keeps: `base` is the last id used before the session. -/
structure SummaryInv (base : ℕ) (s : State) : Prop extends Inv s where
  /-- A rollback has all versions of its transaction before it. -/
  aborting : ∀ tx rest todo, s.phase tx = .aborting rest todo → ∀ rid v, s.heap.header? rid = some v →
    v.createTxId = tx → rid ∈ rest
  /-- The versions of an all-visible page are settled, or their writer has yet to clear it. -/
  flag : ∀ page, s.vis.AllVisible page →
    OnPage s page fun v => Settled s v ∨ .clear page ∈ (s.phase v.createTxId).todo
  /-- A minimum that a view of the session can lie below is one of all versions of the page, or
  their writer has yet to record them. -/
  least : ∀ page m, s.vis.minCreate page = some m → m ≤ base ∨
    OnPage s page fun v => m ≤ v.createTxId ∨ .onInsert page ∈ (s.phase v.createTxId).todo
  /-- The session's views come after all earlier sessions. -/
  base_le : base ≤ s.counter
  /-- So do their marks. -/
  view_base : ∀ q view checked, s.reader q = .reading view checked → base ≤ view.highWater

/-! ### Steps -/

section Step

variable {s s' : State} {a : Label} {base page m tx : ℕ}

/-- What a transaction has to do before a step it has to do after it, unless the step does it or
the transaction is gone. -/
theorem todo_move (hi : Inv s) (h : Move s a s') {t : Todo} (ht : t ∈ (s.phase tx).todo) :
    t ∈ (s'.phase tx).todo ∨ (a = .work tx ∧ s'.vis = t.onVis tx s.vis) ∨
      ∃ todo, a = .leave tx ∧ s.phase tx = .aborting [] todo := by
  have key : ∀ t' p, (s.phase t').todo ⊆ p.todo → t ∈ (update s.phase t' p tx).todo :=
    fun t' p hsub => update_keeps (P := fun p : Phase => t ∈ p.todo) ht (@hsub t)
  cases h with
  | allocate => exact .inl (key _ _ (by rw [hi.unborn _ (Nat.lt_succ_self _)]; exact nil_subset _))
  | enter hp | write hp | commit hp | markCommitted hp | leaveCommitted hp =>
    exact .inl (key _ _ (by rw [hp]; exact nil_subset _))
  | abort hp | markAborted hp => exact .inl (key _ _ (by rw [hp]; exact List.Subset.refl _))
  | @work t' td versions todo hp =>
    rw [setPhase_phase]
    obtain rfl | htx := eq_or_ne tx t'
    · rw [update_self]
      rw [hp] at ht
      rcases mem_cons.mp ht with rfl | ht
      · exact .inr (.inl ⟨rfl, rfl⟩)
      · exact .inl ht
    · rw [update_of_ne htx]
      exact .inl ht
  | @workCommit t' page rest hp =>
    rw [setPhase_phase]
    obtain rfl | htx := eq_or_ne tx t'
    · rw [hp] at ht
      obtain rfl := mem_singleton.mp ht
      exact .inr (.inl ⟨rfl, rfl⟩)
    · rw [update_of_ne htx]
      exact .inl ht
  | @leaveAborted t' todo hp =>
    obtain rfl | htx := eq_or_ne tx t'
    · exact .inr (.inr ⟨todo, rfl, hp⟩)
    · rw [setPhase_phase, update_of_ne htx]
      exact .inl ht
  | _ => exact .inl ht

/-- What an open statement sees of a finished transaction it goes on seeing, and a statement that
opens sees it. -/
theorem sees_move (hi : Inv s) (h : Move s a s') (hf : s.phase tx = .finished true)
    (hs : ∀ q, (s.reader q).Sees tx) : ∀ q, (s'.reader q).Sees tx := by
  have key : ∀ q' r, Reader.Sees tx r → ∀ q, (update s.reader q' r q).Sees tx :=
    fun q' r hr q => update_keeps (P := Reader.Sees tx) (hs q) fun _ => hr
  cases h with
  | readActive =>
    refine key _ _ fun hmem => ?_
    have := hi.active tx hmem
    rwa [hf] at this
  | @readCurrent q active hq =>
    refine key _ _ ⟨le_counter hi (by rw [hf]; nofun), ?_⟩
    have := hs q
    rwa [hq] at this
  | @checkPage q _ _ _ hq | @setPage q _ _ hq =>
    refine key _ _ ?_
    have := hs q
    rwa [hq] at this
  | close => exact key _ _ trivial
  | _ => exact hs

theorem settled_move (hi : Inv s) (h : Move s a s') {v : VersionHeader} (hv : Settled s v) :
    Settled s' v :=
  ⟨hv.committed, finished_move hi h hv.finished, sees_move hi h hv.finished hv.seen⟩

theorem aborting_move (hi : SummaryInv base s) (h : Move s a s') : ∀ tx rest todo,
    s'.phase tx = .aborting rest todo → ∀ rid v, s'.heap.header? rid = some v → v.createTxId = tx →
    rid ∈ rest := by
  intro tx rest todo hp rid v hv hc
  have hne : ∀ r t, s.phase 0 ≠ .aborting r t := by rw [hi.zero]; nofun
  -- a rollback that was going on and has not lost a version from its list
  have keep : s.phase tx = .aborting rest todo → rid ∈ rest := by
    intro hold
    rcases header_move hi.toInv h rid with heq | ⟨v', hv', hw⟩
    · exact hi.aborting tx rest todo hold rid v (heq ▸ hv) hc
    · obtain rfl := Option.mem_unique hv hv'
      rcases hw.writer with h0 | ⟨versions, td, hp'⟩ | ⟨rs, hp'⟩
      · rw [← hc, h0] at hold
        exact absurd hold (hne _ _)
      · rw [hc, hold] at hp'
        cases hp'
      · rw [hc, hold] at hp'
        cases hp'
  have other : ∀ t p, s'.phase = update s.phase t p → (∀ r td, p ≠ .aborting r td) → rid ∈ rest := by
    intro t p hph hpn
    rw [hph] at hp
    obtain ⟨-, hp⟩ | ⟨-, hp⟩ := update_eq_cases hp
    · exact absurd hp (hpn _ _)
    · exact keep hp
  cases h with
  | allocate | enter | write | work | workCommit | commit | markCommitted | leaveCommitted | leaveAborted =>
    exact other _ _ rfl nofun
  | @abort t versions td hpt =>
    obtain ⟨rfl, hown⟩ | ⟨-, hp⟩ := update_eq_cases hp
    · obtain ⟨rfl, -⟩ := hown
      exact mem_union_iff.mpr (.inr ((Heap.mem_versionsCreatedBy hi.wf).mpr ⟨v, hv, hc⟩))
    · exact keep hp
  | @markAborted t r rs td v₀ hpt hv₀ hmem =>
    obtain ⟨rfl, hown⟩ | ⟨-, hp⟩ := update_eq_cases hp
    · obtain ⟨rfl, -⟩ := hown
      rw [mem_filter]
      have hhead := Heap.header?_setHeader s.heap hv₀ v₀.markAborted rid
      rw [show (s.heap.setHeader r v₀.markAborted).header? rid = some v from hv] at hhead
      split at hhead
      case isTrue hr =>
        rw [Option.some.injEq] at hhead
        obtain rfl : 0 = tx := by rw [← hc, hhead]; rfl
        exact absurd hpt (hne _ _)
      case isFalse hr => exact ⟨hi.aborting tx rs _ hpt rid v hhead.symm hc, by simpa using hr⟩
    · exact keep hp
  | _ => exact keep hp

/-- The summary of a page after a step that is not the end of a scan: it is cleared, or it is as
it was. -/
theorem allVisible_move (h : Move s a s') (hv : s'.vis.AllVisible page) :
    s.vis.AllVisible page ∨ ∃ q view, a = .setPage q ∧ s.reader q = .reading view (some page) := by
  cases h with
  | @work tx t =>
    cases t with
    | clear p => exact .inl (VisMap.allVisible_of_clearAllVisible hv).2
    | onInsert p => exact .inl (VisMap.allVisible_of_updateVisibilityOnInsert hv).2
    | _ => exact .inl hv
  | workCommit => exact .inl (VisMap.allVisible_of_clearAllVisible hv).2
  | @setPage q p view hq =>
    rcases VisMap.allVisible_of_setAllVisible hv with rfl | hv
    · exact .inr ⟨q, view, rfl, hq⟩
    · exact .inl hv
  | _ => exact .inl hv

theorem flag_move (hi : SummaryInv base s) (hok : SummaryOk s a) (h : Move s a s') :
    ∀ page, s'.vis.AllVisible page →
      OnPage s' page fun v => Settled s' v ∨ .clear page ∈ (s'.phase v.createTxId).todo := by
  intro page hflag rid v hpage hv hdel
  rcases header_move hi.toInv h rid with heq | ⟨v', hv', hw⟩
  · rw [heq] at hv
    rcases allVisible_move h hflag with hold | ⟨q, view, rfl, hq⟩
    · rcases hi.flag page hold rid v hpage hv hdel with hset | htodo
      · exact .inl (settled_move hi.toInv h hset)
      · rcases todo_move hi.toInv h htodo with htodo | ⟨-, hvis⟩ | ⟨todo, -, hp⟩
        · exact .inr htodo
        · rw [hvis] at hflag
          exact absurd rfl (VisMap.allVisible_of_clearAllVisible hflag).1
        · exact absurd (hi.aborting _ _ _ hp rid v hv rfl) not_mem_nil
    · simp only [SummaryOk, hq] at hok
      exact .inl (settled_move hi.toInv h (hok rid v hpage hv hdel))
  · -- a version that the step has written: its page is about to be cleared
    obtain rfl := Option.mem_unique hv hv'
    right
    cases h with
    | @write tx p w versions hp =>
      cases hw
      rw [Write.createTxId_header, setPhase_phase, update_self]
      obtain rfl : p = page := hpage
      cases w <;> exact mem_cons_self
    | work hp | workCommit hp =>
      cases hw with
      | link => cases hdel
    | @markCommitted tx r rest v₀ hp hv₀ =>
      cases hw with
      | committed hp' hv₁ hc =>
        rw [VersionHeader.createTxId_commit, hc, setPhase_phase, update_self, ← hpage]
        exact mem_singleton.mpr rfl
      | aborted => cases hdel
    | markAborted hp =>
      cases hw with
      | committed hp' =>
        cases hp.symm.trans hp'
      | aborted => cases hdel
    | _ => cases hw

/-- The minimum of a page after a step: the one before, or the one an insert records. -/
theorem minCreate_move (h : Move s a s') (hm : s'.vis.minCreate page = some m) :
    s.vis.minCreate page = some m ∨ ∃ tx versions todo, a = .work tx ∧
      s.phase tx = .running versions (.onInsert page :: todo) ∧
      m = VisMap.minWith (s.vis.minCreate page) tx := by
  cases h with
  | @work tx t versions todo hp =>
    cases t with
    | clear p => exact .inl ((VisMap.minCreate_clearAllVisible _ _ _).symm.trans hm)
    | onInsert p =>
      have hmin := (VisMap.minCreate_updateVisibilityOnInsert s.vis p tx page).symm.trans hm
      split at hmin
      case isTrue heq =>
        subst heq
        exact .inr ⟨tx, versions, todo, rfl, hp, (Option.some.inj hmin).symm⟩
      case isFalse => exact .inl hmin
    | _ => exact .inl hm
  | workCommit => exact .inl ((VisMap.minCreate_clearAllVisible _ _ _).symm.trans hm)
  | setPage => exact .inl ((VisMap.minCreate_setAllVisible _ _ _).symm.trans hm)
  | _ => exact .inl hm

variable (hi : SummaryInv base s) (hok : SummaryOk s a)

include hi hok

/-- The minimum after a step is one of the versions before it. -/
theorem least_before (h : Move s a s') (hm : s'.vis.minCreate page = some m) : m ≤ base ∨
      OnPage s page fun v => m ≤ v.createTxId ∨ .onInsert page ∈ (s.phase v.createTxId).todo := by
  rcases minCreate_move h hm with hold | ⟨tx, versions, todo, rfl, hp, rfl⟩
  · exact hi.least page m hold
  · cases hmin : s.vis.minCreate page with
    | none =>
      simp only [SummaryOk, hp] at hok
      exact .inr (hok hmin)
    | some m₀ =>
      have hle : VisMap.minWith (some m₀) tx ≤ m₀ := Nat.min_le_left m₀ tx
      rcases hi.least page m₀ hmin with hb | hall
      · exact .inl (Nat.le_trans hle hb)
      · refine .inr fun rid v hpage hv hdel => ?_
        exact (hall rid v hpage hv hdel).imp_left (Nat.le_trans hle)

theorem least_move (h : Move s a s') : ∀ page m, s'.vis.minCreate page = some m → m ≤ base ∨
      OnPage s' page fun v => m ≤ v.createTxId ∨ .onInsert page ∈ (s'.phase v.createTxId).todo := by
  intro page m hm
  refine (least_before hi hok h hm).imp_right fun hall rid v hpage hv hdel => ?_
  rcases header_move hi.toInv h rid with heq | ⟨v', hv', hw⟩
  · rw [heq] at hv
    rcases hall rid v hpage hv hdel with hle | htodo
    · exact .inl hle
    · rcases todo_move hi.toInv h htodo with htodo | ⟨-, hvis⟩ | ⟨todo, -, hp⟩
      · exact .inr htodo
      · -- the insert has just recorded its creator
        left
        have hmin := VisMap.minCreate_updateVisibilityOnInsert s.vis page v.createTxId page
        rw [if_pos rfl, show s.vis.updateVisibilityOnInsert page v.createTxId =
          s'.vis from hvis.symm, hm, Option.some.injEq] at hmin
        rw [hmin]
        exact VisMap.minWith_le _ _
      · exact absurd (hi.aborting _ _ _ hp rid v hv rfl) not_mem_nil
  · obtain rfl := Option.mem_unique hv hv'
    cases hw with
    | @slot tx p w versions hp =>
      cases h with
      | write hp' =>
        obtain rfl : p = page := hpage
        cases w with
        | insert tuple =>
          right
          rw [Write.createTxId_header, setPhase_phase, update_self]
          exact mem_cons_of_mem _ mem_cons_self
        | update target tuple => exact .inl (hok m hm)
        | delete target => cases hdel
    | link | aborted => cases hdel
    | @committed tx rid rest v₀ hp hv₀ hc =>
      have hdel₀ : v₀.isDeleted = false := by
        cases hmark : v₀.mark <;> simp_all [VersionHeader.commit, VersionHeader.isDeleted]
      rcases hall rid v₀ hpage hv₀ hdel₀ with hle | htodo
      · rw [VersionHeader.createTxId_commit]
        exact .inl hle
      · rw [hc, hp] at htodo
        cases htodo

theorem summaryInv_step (hstep : step s a = some s') : SummaryInv base s' :=
  have h := move_of_step hstep
  { inv_step hi.toInv hstep with
    aborting := aborting_move hi h
    flag := flag_move hi hok h
    least := least_move hi hok h
    base_le := Nat.le_trans hi.base_le (counter_move h)
    view_base := by
      intro q view checked hr
      rcases reading_move h hr with ⟨checked', hold⟩ | ⟨active, -, -, rfl⟩
      · exact hi.view_base q view checked' hold
      · exact hi.base_le }

end Step

/-! ### The summaries that redo leaves -/

theorem redone_fold (redone : List (ℕ × ℕ)) (base : ℕ) (hb : ∀ e ∈ redone, e.2 ≤ base) (m : VisMap)
    (hflag : ∀ page, ¬ m.AllVisible page) (hmin : ∀ page k, m.minCreate page = some k → k ≤ base) :
    let m' := redone.foldl (fun m e => (m.clearAllVisible e.1).updateVisibilityOnInsert e.1 e.2) m
    (∀ page, ¬ m'.AllVisible page) ∧ ∀ page k, m'.minCreate page = some k → k ≤ base := by
  induction redone generalizing m with
  | nil => exact ⟨hflag, hmin⟩
  | cons e rest ih =>
    refine ih (fun e' he' => hb e' (mem_cons_of_mem _ he')) _ (fun page hv => ?_) fun page k hk => ?_
    · have hv := (VisMap.allVisible_of_updateVisibilityOnInsert hv).2
      exact hflag page (VisMap.allVisible_of_clearAllVisible hv).2
    · rw [VisMap.minCreate_updateVisibilityOnInsert] at hk
      split at hk
      case isTrue =>
        rw [← Option.some.inj hk]
        exact Nat.le_trans (VisMap.minWith_le _ _) (hb e mem_cons_self)
      case isFalse => exact hmin page k ((VisMap.minCreate_clearAllVisible _ _ _).symm.trans hk)

theorem summaryInv_init (st : Start) : SummaryInv st.counter st.init :=
  have hvis := redone_fold st.redone st.counter st.redoneBy noSummaries nofun nofun
  { inv_init st with
    aborting := by
      intro tx rest todo hp
      change (if tx ≤ st.counter then Phase.finished true else .unborn) = _ at hp
      split at hp <;> cases hp
    flag := fun page h => absurd h (hvis.1 page)
    least := fun page m hm => .inl (hvis.2 page m hm)
    base_le := Nat.le_refl _
    view_base := nofun }

/-! ### Scans -/

/-- A page that its summary calls all visible, and whose summary is up to date: each version of
it that is not deleted is visible to an open view. -/
theorem visible_of_settled {s : State} {q : Session} {view : Snapshot} {checked : Option ℕ}
    (hq : s.reader q = .reading view checked) {v : VersionHeader} (hv : Settled s v) :
    visible (some view) v = true := by
  have hsees := hv.seen q
  rw [hq] at hsees
  exact Bool.or_eq_true_iff.mpr (.inl (Snapshot.isVisible_iff.mpr ⟨hv.committed, hsees⟩))

/-- A version beyond the mark of a view is not visible to it. -/
theorem visible_of_lt {view : Snapshot} (hself : view.txId ≤ view.highWater) {v : VersionHeader}
    (hlt : view.highWater < v.createTxId) : visible (some view) v = false := by
  simp only [visible, Snapshot.isVisible, Snapshot.isVisibleSelf]
  have h1 : ¬ v.createTxId ≤ view.highWater := Nat.not_le.mpr hlt
  have h2 : v.createTxId ≠ view.txId := by omega
  simp [h1, h2]

section

variable {q : Session} {view : Snapshot} {checked : Option ℕ} {rid : RowId} (hi : SummaryInv base s)
  (hdone : Summarised s page) (hq : s.reader q = .reading view checked)

include hi hdone hq

/-- A page that is passed over: no version of it is visible to the view. -/
theorem yields_of_allInvisible (hinv : pageAllInvisible (s.vis page) (some view) = true)
    (hr : rid ∈ s.heap.pageRids page) : yields s.heap none (some view) rid = false := by
  obtain ⟨info, hinfo, hlt⟩ : ∃ info, s.vis page = some info ∧
      info.allInvisibleFor view.highWater = true := by
    cases hvis : s.vis page with
    | none => simp [pageAllInvisible, hvis] at hinv
    | some info => exact ⟨info, rfl, by simpa [pageAllInvisible, hvis] using hinv⟩
  obtain ⟨m, hm, hlt⟩ : ∃ m, s.vis.minCreate page = some m ∧ view.highWater < m := by
    cases hmin : info.minCreateTxId with
    | none => simp [PageVisibilityInfo.allInvisibleFor, hmin] at hlt
    | some m =>
      refine ⟨m, VisMap.minCreate_eq_some.mpr ⟨info, hinfo, hmin⟩, ?_⟩
      simpa [PageVisibilityInfo.allInvisibleFor, hmin] using hlt
  cases hv : s.heap.header? rid with
  | none => simp [yields, hv]
  | some v =>
    cases hdel : v.isDeleted with
    | true => simp [yields, hv, hdel]
    | false =>
      have hbase := hi.view_base q view checked hq
      have hall := (hi.least page m hm).resolve_left (by omega)
      have hle := (hall rid v (Heap.mem_pageRids.mp hr).1 hv hdel).resolve_right (hdone _).2
      have hself := (hi.view q view checked hq).2.1
      simp [yields, hv, pageAllVisible, visible_of_lt hself (Nat.lt_of_lt_of_le hlt hle)]

/-- A page that is not passed over: each slot is decided as without the summary. -/
theorem yields_eq_of_summarised (hr : rid ∈ s.heap.pageRids page) :
    yields s.heap (s.vis page) (some view) rid = yields s.heap none (some view) rid := by
  cases hv : s.heap.header? rid with
  | none => simp [yields, hv]
  | some v =>
    cases hdel : v.isDeleted with
    | true => simp [yields, hv, hdel]
    | false =>
      cases hflag : pageAllVisible (s.vis page) with
      | false =>
        simp only [yields, hv, hflag]
        rfl
      | true =>
        have hav : s.vis.AllVisible page := by
          cases hvis : s.vis page with
          | none => simp [pageAllVisible, hvis] at hflag
          | some info => exact ⟨info, hvis, by simpa [pageAllVisible, hvis] using hflag⟩
        have hset := (hi.flag page hav rid v (Heap.mem_pageRids.mp hr).1 hv hdel).resolve_right
          (hdone _).1
        simp [yields, hv, hdel, visible_of_settled hq hset]

/-- Where the invariant holds, a summary that is up to date changes nothing. -/
theorem scanPage_of_summarised {active : List ℕ} {rows : List RowId}
    (hrows : scanPage s.heap noSummaries (some view) active page = .ok rows) :
    scanPage s.heap s.vis (some view) active page = .ok rows := by
  cases hinv : pageAllInvisible (s.vis page) (some view) with
  | true => exact scanPage_of_allInvisible hinv (fun rid hr => yields_of_allInvisible hi hdone hq hinv hr) hrows
  | false => exact (scanSlots_of_agree hinv fun rid hr => yields_eq_of_summarised hi hdone hq hr).trans hrows

end

/-- **A scan of a page yields with the summary what it yields slot by slot**: for every view of
an open statement, and for a scan without a snapshot. (Where a walk to a newer version ends in
an error, a page that is passed over does not report it.) -/
theorem summaries_exact (st : Start) (as : List Label) (s : State) (hrun : run step st.init as = some s)
    (hok : Guarded SummaryOk step st.init as) (page : ℕ) (hdone : Summarised s page) (active : List ℕ) :
    (∀ q view checked, s.reader q = .reading view checked → ∀ rows,
      scanPage s.heap noSummaries (some view) active page = .ok rows →
        scanPage s.heap s.vis (some view) active page = .ok rows) ∧
    scanPage s.heap s.vis none active page = scanPage s.heap noSummaries none active page := by
  have hi : SummaryInv st.counter s :=
    run_invariant (fun _ _ _ hi hok h => summaryInv_step hi hok h) (summaryInv_init st) hok hrun
  exact ⟨fun q view checked hq rows hrows => scanPage_of_summarised hi hdone hq hrows,
    scanPage_none page⟩

/-- Statement `n` opens its view. -/
def openView (n : ℕ) : List Label := [.readActive (.auto n), .readCurrent (.auto n)]

theorem onPage_of_slots {s : State} {page : ℕ} {P : VersionHeader → Prop}
    (h : ∀ e ∈ s.heap.slots page, e.2.header.isDeleted = false → P e.2.header) : OnPage s page P := by
  rintro ⟨_, i⟩ v rfl hv
  obtain ⟨slot, hslot, rfl⟩ := Heap.header?_eq_some.mp hv
  exact h _ (Heap.mem_of_slot? hslot)

/-- A page is set all-visible, and a later statement scans it without checking its slots. -/
theorem summaries_exact_flagged : ∃ s, run step newTable.init
      ([.allocate, .enter 1] ++ insertAndCommit ++ openView 0 ++
        [.checkPage (.auto 0) 0, .setPage (.auto 0)] ++ openView 1) = some s ∧
    s.reader (.auto 1) = .reading ⟨0, 1, []⟩ none ∧ pageAllVisible (s.vis 0) = true ∧
    scanPage s.heap s.vis (some ⟨0, 1, []⟩) [] 0 = .ok [⟨0, 0⟩] := by
  refine ⟨?s, ?run, ?_, ?_, (summaries_exact newTable _ _ ?run ?_ 0 ?_ []).1 (.auto 1) _ none ?_ _ ?_⟩
  case run => rfl
  iterate 2 rfl
  · iterate 4 refine ⟨trivial, ?_⟩; rintro _ ⟨⟩
    -- the insert records its creator on a page that has no minimum
    refine ⟨fun _ => onPage_of_slots ?_, ?_⟩
    · intro slot hslot _
      obtain rfl := mem_singleton.mp hslot
      exact .inl (Nat.le_refl _)
    rintro _ ⟨⟩
    iterate 8 refine ⟨trivial, ?_⟩; rintro _ ⟨⟩
    -- the page is set while its one version is settled
    refine ⟨onPage_of_slots ?_, ?_⟩
    · intro slot hslot _
      obtain rfl := mem_singleton.mp hslot
      refine ⟨nofun, rfl, fun q => ?_⟩
      match q with
      | .auto 0 => exact ⟨Nat.le_refl _, not_mem_nil⟩
      | .auto (n + 1) | .own tx => trivial
    rintro _ ⟨⟩
    iterate 2 refine ⟨trivial, ?_⟩; rintro _ ⟨⟩
    trivial
  · intro tx
    match tx with
    | 0 | 1 | n + 2 => exact ⟨not_mem_nil, not_mem_nil⟩
  iterate 2 rfl

/-- A table with one row, after a restart that has redone nothing. -/
def reopenedTable : Start where
  counter := 1
  heap := .onePage [⟨⟨1, .committed 1, none⟩, []⟩]
  redone := []
  wf := Heap.wf_onePage _
  created rid v hv := by
    obtain ⟨i, slot, -, hslot, rfl⟩ := Heap.header?_of_slots (fun _ => rfl) hv
    rw [(Prod.mk.inj (mem_singleton.mp hslot)).2]
  redoneBy := nofun

/-- Summaries change answers: a page set all-visible by a statement that sees transaction 1 is
used by one that does not; a page is set after a version has come that the check did not see; and
an insert after a restart records a minimum that leaves out an older row. -/
theorem summaries_change_answers :
    (∃ s, run step newTable.init ([.allocate, .enter 1] ++ openView 0 ++ insertAndCommit ++ openView 1 ++
          [.checkPage (.auto 1) 0, .setPage (.auto 1)]) = some s ∧
      s.reader (.auto 0) = .reading ⟨0, 1, [1]⟩ none ∧ Summarised s 0 ∧
      scanPage s.heap noSummaries (some ⟨0, 1, [1]⟩) [] 0 = .ok [] ∧
      scanPage s.heap s.vis (some ⟨0, 1, [1]⟩) [] 0 = .ok [⟨0, 0⟩]) ∧
    (∃ s, run step newTable.init ([.allocate, .enter 1] ++ insertAndCommit ++ openView 0 ++
          [.checkPage (.auto 0) 0, .allocate, .enter 2, .write 2 0 (.insert []), .work 2, .work 2,
            .work 2, .setPage (.auto 0)]) = some s ∧
      s.reader (.auto 0) = .reading ⟨0, 1, []⟩ none ∧ Summarised s 0 ∧
      scanPage s.heap noSummaries (some ⟨0, 1, []⟩) [] 0 = .ok [⟨0, 0⟩] ∧
      scanPage s.heap s.vis (some ⟨0, 1, []⟩) [] 0 = .ok [⟨0, 0⟩, ⟨0, 1⟩]) ∧
    ∃ s, run step reopenedTable.init (openView 0 ++
          [.allocate, .enter 2, .write 2 0 (.insert []), .work 2, .work 2, .work 2]) = some s ∧
      s.reader (.auto 0) = .reading ⟨0, 1, []⟩ none ∧ Summarised s 0 ∧
      scanPage s.heap noSummaries (some ⟨0, 1, []⟩) [] 0 = .ok [⟨0, 0⟩] ∧
      scanPage s.heap s.vis (some ⟨0, 1, []⟩) [] 0 = .ok [] := by
  refine ⟨⟨_, rfl, rfl, fun tx => ?_, by decide +kernel, by decide +kernel⟩,
    ⟨_, rfl, rfl, fun tx => ?_, by decide +kernel, by decide +kernel⟩,
    ⟨_, rfl, rfl, fun tx => ?_, by decide +kernel, by decide +kernel⟩⟩
  all_goals
    match tx with
    | 0 | 1 | 2 | n + 3 => exact ⟨not_mem_nil, not_mem_nil⟩

end RTsql.Executor

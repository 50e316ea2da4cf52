import RTsql.Executor.ChainScan
import RTsql.Executor.Summaries

/-!
# What a table scan yields

A Read Committed statement should see each row once: of every chain the newest
version that is committed and that its view does not exclude, or that its own
transaction has written, and nothing if that version is a tombstone.

## What is proved

* `scan_yields_newest` — a scan yields exactly these versions, and no two of one chain,
  in every interleaving that meets `SummaryOk` and `ChainOk`, if the scan meets `ScanOk`.
* `scan_yields_wrong_versions` — the reader's own update, a delete after the view was
  taken, and a version written over one that is then rolled back.
-/

namespace RTsql.Executor

open Function List RTsql.Library RTsql.Storage RTsql.Transaction Relation VersionHeader

/-! ### What a scan should yield -/

/-- The transaction has committed, and may have yet to mark its versions. -/
def Phase.Committed : Phase → Prop
  | committing .. | finished true => True
  | _ => False

/-- The version is committed. A tombstone carries no commit mark; it is committed when its
transaction is. -/
def CommittedVersion (s : State) (v : VersionHeader) : Prop :=
  if v.isDeleted then (s.phase v.createTxId).Committed else ∃ tx, v.mark = .committed tx

/-- The version counts for the view: it is the view's own, or it is committed and the view does
not exclude it. -/
def Event (s : State) (view : Snapshot) (v : VersionHeader) : Prop :=
  v.createTxId ≠ 0 ∧ (v.createTxId = view.txId ∨
    CommittedVersion s v ∧ v.createTxId ≤ view.highWater ∧ v.createTxId ∉ view.activeTxIds)

/-- The version counts for the view, and no newer version of its chain does. -/
def Newest (s : State) (view : Snapshot) (rid : RowId) (v : VersionHeader) : Prop :=
  s.heap.header? rid = some v ∧ Event s view v ∧
    ∀ rid' v', Newer s.heap rid' rid → s.heap.header? rid' = some v' → ¬ Event s view v'

/-! ### The conditions -/

/-- `target` is the current version of its row for a write of `tx`: not aborted, not deleted, not
replaced by a version that is not aborted, and created by `tx` itself or a committed transaction. -/
def Target (s : State) (tx : ℕ) (target : RowId) : Prop :=
  (∃ v, s.heap.header? target = some v ∧ v.createTxId ≠ 0 ∧ v.isDeleted = false ∧
    (v.createTxId = tx ∨ (s.phase v.createTxId).Committed)) ∧
  ∀ x v, s.heap.header? x = some v → v.nextVersion = some target → v.createTxId = 0

/-- **The condition on writes**: an update, and a delete when it links its tombstone, replaces
the current version of its row. -/
def ChainOk (s : State) : Label → Prop
  | .write tx _ (.update target _) => Target s tx target
  | .work tx =>
    match s.phase tx with
    | .running _ (.link _ target :: _) => Target s tx target
    | _ => True
  | _ => True

/-- **The condition on a scan.** -/
structure ScanOk (s : State) (view : Snapshot) (active : List ℕ) : Prop where
  summarised : ∀ page, Summarised s page
  /-- The statement's own transaction has updated only rows that it has deleted since. -/
  own : ∀ rid v, s.heap.header? rid = some v → v.createTxId = view.txId → v.createTxId ≠ 0 →
    v.isDeleted = false → v.nextVersion ≠ none →
      ∃ t w, Newer s.heap t rid ∧ s.heap.header? t = some w ∧ w.createTxId = view.txId ∧
      w.isDeleted = true
  /-- A tombstone that the view does not exclude is committed and up to its mark. -/
  tombstone : ∀ rid v, s.heap.header? rid = some v → v.isDeleted = true → v.createTxId ≠ 0 →
    v.nextVersion ≠ none → v.createTxId = view.txId ∨ v.createTxId ∈ view.activeTxIds ∨
      (s.phase v.createTxId).Committed ∧ v.createTxId ≤ view.highWater
  /-- No version is below more versions that suppress nothing than a walk reads. -/
  shallow : ∀ rid, ¬ Deep s.heap (suppresses (some view) active) maxChainDepth rid
  /-- The logical ids of the slots are their positions. -/
  dense : s.heap.Dense

/-- What the conditions keep. -/
structure ChainInv (base : ℕ) (s : State) : Prop extends SummaryInv base s where
  /-- An aborted version is deleted. -/
  live : ∀ rid v, s.heap.header? rid = some v → v.isDeleted = false → v.createTxId ≠ 0
  /-- A commit mark is of a committed transaction. -/
  marked : ∀ rid v tx, s.heap.header? rid = some v → v.mark = .committed tx →
    (s.phase v.createTxId).Committed
  /-- What a version replaces is not aborted, unless the version is being rolled back, and was
  created by the same transaction or a committed one. -/
  down : ∀ x v r, s.heap.header? x = some v → v.createTxId ≠ 0 → v.nextVersion = some r →
    (∀ rest todo, s.phase v.createTxId ≠ .aborting rest todo) →
    ∃ w, s.heap.header? r = some w ∧ w.createTxId ≠ 0 ∧
      (w.createTxId = v.createTxId ∨ (s.phase w.createTxId).Committed)
  /-- No version is replaced twice. -/
  unique : ∀ x y r v w, s.heap.header? x = some v → s.heap.header? y = some w → v.createTxId ≠ 0 →
    w.createTxId ≠ 0 → v.nextVersion = some r → w.nextVersion = some r → x = y

theorem chainInv_init (st : Start) (hc : Chained st.heap) : ChainInv st.counter st.init := by
  have committed : ∀ rid v, st.heap.header? rid = some v → (st.init.phase v.createTxId).Committed := by
    intro rid v hv
    change (if v.createTxId ≤ st.counter then Phase.finished true else .unborn).Committed
    rw [if_pos (st.created rid v hv)]
    trivial
  refine { summaryInv_init st with
    live := hc.live, marked := fun rid v tx hv _ => committed rid v hv, down := ?_, unique := hc.unique }
  intro x v r hv hlive hnext _
  obtain ⟨w, hw, hwl⟩ := hc.down x v r hv hlive hnext
  exact ⟨w, hw, hwl, .inr (committed r w hw)⟩

/-! ### Steps -/

section Step

variable {s s' : State} {a : Label} {base tx : ℕ} {v : VersionHeader} {x r : RowId}

/-- A committed transaction stays committed. -/
theorem committed_move (hi : Inv s) (h : Move s a s') (hc : (s.phase tx).Committed) :
    (s'.phase tx).Committed := by
  have key : ∀ t p, ((s.phase t).Committed → p.Committed) → (update s.phase t p tx).Committed :=
    fun t p hp => update_keeps (P := Phase.Committed) hc hp
  cases h with
  | allocate => exact key _ _ (by rw [hi.unborn _ (Nat.lt_succ_self _)]; exact False.elim)
  | enter hp | write hp | work hp | abort hp | markAborted hp | leaveAborted hp =>
    exact key _ _ (by rw [hp]; exact False.elim)
  | workCommit | commit | markCommitted | leaveCommitted => exact key _ _ fun _ => trivial
  | _ => exact hc

/-- A rollback ends only when no version of its transaction is left. -/
theorem aborting_before (hi : SummaryInv base s) (h : Move s a s') {rid : RowId}
    (hv : s.heap.header? rid = some v)
    (hp : ∀ rest todo, s'.phase v.createTxId ≠ .aborting rest todo) :
    ∀ rest todo, s.phase v.createTxId ≠ .aborting rest todo := by
  intro rest todo hold
  have key : ∀ t p, s'.phase = update s.phase t p →
      (v.createTxId = t → ∃ r td, p = .aborting r td) → False := by
    intro t p hph hpt
    by_cases ht : v.createTxId = t
    · obtain ⟨r, td, rfl⟩ := hpt ht
      exact hp r td (by rw [hph, ht, update_self])
    · exact hp rest todo (by rw [hph, update_of_ne ht, hold])
  cases h with
  | allocate =>
    refine key _ _ rfl fun ht => ?_
    rw [ht, hi.unborn _ (Nat.lt_succ_self _)] at hold
    cases hold
  | enter hpt | write hpt | work hpt | workCommit hpt | commit hpt | abort hpt | markCommitted hpt
  | leaveCommitted hpt =>
    refine key _ _ rfl fun ht => ?_
    rw [ht, hpt] at hold
    cases hold
  | markAborted => exact key _ _ rfl fun _ => ⟨_, _, rfl⟩
  | leaveAborted hpt =>
    refine key _ _ rfl fun ht => ?_
    exact absurd (hi.aborting _ _ _ hpt rid v hv ht) not_mem_nil
  | _ => exact hp rest todo hold

/-- A version that a step makes replace `r`. -/
inductive Linked (s : State) : Label → RowId → RowId → Prop
  | update {tx page r tuple} : Linked s (.write tx page (.update r tuple)) (s.heap.nextRid page) r
  | delete {tx x r versions todo} : s.phase tx = .running versions (.link x r :: todo) →
      Linked s (.work tx) x r

/-- A version that is not aborted and replaces `r` after a step did so before it, or the step has
made it. -/
theorem next_move (hi : Inv s) (h : Move s a s') (hok : ChainOk s a)
    (hv : s'.heap.header? x = some v) (hlive : v.createTxId ≠ 0) (hnext : v.nextVersion = some r) :
    (∃ w, s.heap.header? x = some w ∧ w.createTxId = v.createTxId ∧ w.nextVersion = some r) ∨
      Linked s a x r ∧ Target s v.createTxId r ∧ ∀ t y, a ≠ .mark t y := by
  rcases header_move hi h x with heq | ⟨v', hv', hw⟩
  · exact .inl ⟨v, heq ▸ hv, rfl, hnext⟩
  · obtain rfl := Option.mem_unique hv hv'
    cases hw with
    | @slot tx page w versions hp =>
      cases w with
      | insert | delete => cases hnext
      | update target tuple =>
        cases hnext
        exact .inr ⟨.update, hok, nofun⟩
    | link hp hl =>
      cases hnext
      simp only [ChainOk, hp] at hok
      exact .inr ⟨.delete hp, hok, nofun⟩
    | @committed tx _ rest v₀ hp hv₀ =>
      exact .inl ⟨v₀, hv₀, (createTxId_commit _ _).symm,
        (nextVersion_commit v₀ tx) ▸ hnext⟩
    | aborted => exact absurd rfl hlive

theorem live_move (hi : ChainInv base s) (h : Move s a s') :
    ∀ rid v, s'.heap.header? rid = some v → v.isDeleted = false → v.createTxId ≠ 0 := by
  intro rid v hv hdel
  rcases header_move hi.toInv h rid with heq | ⟨v', hv', hw⟩
  · exact hi.live rid v (heq ▸ hv) hdel
  · obtain rfl := Option.mem_unique hv hv'
    cases hw with
    | slot hp =>
      rw [Write.createTxId_header]
      rintro rfl
      rw [hi.zero] at hp
      cases hp
    | link | aborted => cases hdel
    | committed hp hv₀ hc =>
      rw [createTxId_commit, hc]
      rintro rfl
      rw [hi.zero] at hp
      cases hp

theorem marked_move (hi : ChainInv base s) (h : Move s a s') : ∀ rid v tx,
    s'.heap.header? rid = some v → v.mark = .committed tx → (s'.phase v.createTxId).Committed := by
  intro rid v tx hv hm
  refine committed_move hi.toInv h ?_
  rcases header_move hi.toInv h rid with heq | ⟨v', hv', hw⟩
  · exact hi.marked rid v tx (heq ▸ hv) hm
  · obtain rfl := Option.mem_unique hv hv'
    cases hw with
    | @slot _ _ w => cases w <;> cases hm
    | link | aborted => cases hm
    | committed hp hv₀ hc =>
      rw [createTxId_commit, hc, hp]
      trivial

theorem down_move (hi : ChainInv base s) (hok : ChainOk s a) (h : Move s a s') : ∀ x v r,
    s'.heap.header? x = some v → v.createTxId ≠ 0 → v.nextVersion = some r →
    (∀ rest todo, s'.phase v.createTxId ≠ .aborting rest todo) →
    ∃ w, s'.heap.header? r = some w ∧ w.createTxId ≠ 0 ∧
      (w.createTxId = v.createTxId ∨ (s'.phase w.createTxId).Committed) := by
  intro x v r hv hlive hnext hp
  -- the version below after the step, if the step does not abort it
  have below : ∀ w, s.heap.header? r = some w → w.createTxId ≠ 0 →
      (w.createTxId = v.createTxId ∨ (s.phase w.createTxId).Committed) →
      (∀ rest todo, a = .mark w.createTxId r → s.phase w.createTxId ≠ .aborting rest todo) →
      ∃ w, s'.heap.header? r = some w ∧ w.createTxId ≠ 0 ∧
        (w.createTxId = v.createTxId ∨ (s'.phase w.createTxId).Committed) := by
    intro w hw hwl hby hkeep
    obtain ⟨w', hw', heq | ⟨rest, todo, ha, hpa, -⟩⟩ := createTxId_move hi.toInv h hw
    · exact ⟨w', hw', heq ▸ hwl, by rw [heq]; exact hby.imp_right (committed_move hi.toInv h)⟩
    · exact absurd hpa (hkeep rest todo ha)
  rcases next_move hi.toInv h hok hv hlive hnext with
    ⟨v₀, hv₀, hc, hnext₀⟩ | ⟨-, ⟨⟨w, hw, hwl, -, hby⟩, -⟩, hmark⟩
  · have hna := aborting_before hi.toSummaryInv h hv₀ (hc ▸ hp)
    obtain ⟨w, hw, hwl, hby⟩ := hi.down x v₀ r hv₀ (hc ▸ hlive) hnext₀ hna
    refine below w hw hwl (hc ▸ hby) fun rest todo _ hpa => ?_
    rcases hby with heq | hcom
    · exact hna rest todo (heq ▸ hpa)
    · rwa [hpa] at hcom
  · exact below w hw hwl hby fun _ _ ha => absurd ha (hmark _ _)

theorem linked_unique {y r' : RowId} (hx : Linked s a x r) (hy : Linked s a y r') : x = y := by
  cases hx with
  | update =>
    cases hy with
    | update => rfl
  | delete hp =>
    cases hy with
    | delete hp' =>
      rw [hp, Phase.running.injEq, List.cons.injEq, Todo.link.injEq] at hp'
      exact hp'.2.1.1

theorem unique_move (hi : ChainInv base s) (hok : ChainOk s a) (h : Move s a s') : ∀ x y r v w,
    s'.heap.header? x = some v → s'.heap.header? y = some w → v.createTxId ≠ 0 → w.createTxId ≠ 0 →
    v.nextVersion = some r → w.nextVersion = some r → x = y := by
  intro x y r v w hv hw hvl hwl hvn hwn
  rcases next_move hi.toInv h hok hv hvl hvn with ⟨v₀, hv₀, hvc, hvn₀⟩ | ⟨hx, hxt, -⟩
  · rcases next_move hi.toInv h hok hw hwl hwn with ⟨w₀, hw₀, hwc, hwn₀⟩ | ⟨-, hyt, -⟩
    · exact hi.unique x y r v₀ w₀ hv₀ hw₀ (hvc ▸ hvl) (hwc ▸ hwl) hvn₀ hwn₀
    · exact absurd (hyt.2 x v₀ hv₀ hvn₀) (hvc ▸ hvl)
  · rcases next_move hi.toInv h hok hw hwl hwn with ⟨w₀, hw₀, hwc, hwn₀⟩ | ⟨hy, -, -⟩
    · exact absurd (hxt.2 y w₀ hw₀ hwn₀) (hwc ▸ hwl)
    · exact linked_unique hx hy

theorem chainInv_step (hi : ChainInv base s) (hsum : SummaryOk s a) (hok : ChainOk s a)
    (hstep : step s a = some s') : ChainInv base s' :=
  have h := move_of_step hstep
  { summaryInv_step hi.toSummaryInv hsum hstep with
    live := live_move hi h
    marked := marked_move hi h
    down := down_move hi hok h
    unique := unique_move hi hok h }

end Step

/-! ### Scans -/

section Scan

variable {s : State} {base tx : ℕ} {q : Session} {view : Snapshot} {checked : Option ℕ} {active : List ℕ}
  {v : VersionHeader} {rid : RowId}

/-- The versions that are not aborted and not being rolled back. -/
def Kept (s : State) (rid : RowId) : Prop :=
  ∃ v, s.heap.header? rid = some v ∧ v.createTxId ≠ 0 ∧
    ∀ rest todo, s.phase v.createTxId ≠ .aborting rest todo

theorem chains_kept (hi : ChainInv base s) : Chains s.heap (Kept s) where
  live := fun x ⟨v, hv, hl, _⟩ => ⟨v, hv, hl⟩
  unique := hi.unique
  down := by
    rintro x r ⟨v, hv, hl, hna⟩ ⟨v', hv', hnext⟩
    obtain rfl := Option.mem_unique hv hv'
    obtain ⟨w, hw, hwl, heq | hc⟩ := hi.down x v r hv hl hnext hna
    · exact ⟨w, hw, hwl, heq ▸ hna⟩
    · refine ⟨w, hw, hwl, fun rest todo hp => ?_⟩
      rwa [hp] at hc

/-- The transaction that a statement runs in is running. -/
theorem own_running (hi : Inv s) (hq : s.reader q = .reading view checked) (htx : tx = view.txId)
    (h0 : tx ≠ 0) : ∃ versions todo, s.phase tx = .running versions todo := by
  obtain ⟨hself, -, -⟩ := hi.view q view checked hq
  cases q with
  | auto n => exact absurd (htx.trans hself) h0
  | own t =>
    obtain rfl : tx = t := htx.trans hself
    exact hi.own tx (by rw [hq]; nofun)

variable (hi : ChainInv base s) (hq : s.reader q = .reading view checked)
  (hv : s.heap.header? rid = some v)

include hi hq hv

/-- A version of the statement's own transaction carries no commit mark. -/
theorem own_unset (htx : v.createTxId = view.txId)
    (hl : v.createTxId ≠ 0) (hdel : v.isDeleted = false) : v.mark = .unset := by
  obtain ⟨versions, todo, hp⟩ := own_running hi.toInv hq htx hl
  cases hm : v.mark with
  | unset => rfl
  | deleted => simp [isDeleted, hm] at hdel
  | committed tx =>
    have hc := hi.marked rid v tx hv hm
    rw [hp] at hc
    exact absurd hc id

theorem kept_of_event (he : Event s view v) : Kept s rid := by
  obtain ⟨hl, hown | ⟨hc, -, -⟩⟩ := he
  · obtain ⟨versions, todo, hp⟩ := own_running hi.toInv hq hown hl
    exact ⟨v, hv, hl, by rw [hp]; nofun⟩
  · refine ⟨v, hv, hl, fun rest todo hp => ?_⟩
    have hcom : (s.phase v.createTxId).Committed := by
      unfold CommittedVersion at hc
      split at hc
      case isTrue => exact hc
      case isFalse =>
        obtain ⟨tx, hm⟩ := hc
        exact hi.marked rid v tx hv hm
    rwa [hp] at hcom

omit hi hq hv

/-- A version that suppresses those below it counts for the view. -/
theorem event_of_suppresses (hscan : ScanOk s view active)
    (hv : s.heap.header? rid = some v) (hnext : v.nextVersion ≠ none)
    (hsup : suppresses (some view) active v = true) : Event s view v := by
  have hl : v.createTxId ≠ 0 := by
    intro h0
    simp [suppresses, h0] at hsup
  refine ⟨hl, ?_⟩
  cases hdel : v.isDeleted with
  | true =>
    simp only [suppresses, hl, hdel, Snapshot.containsActiveTx, if_false, if_true, Bool.or_eq_true,
      decide_eq_true_eq, Bool.not_eq_true', decide_eq_false_iff_not] at hsup
    rcases hscan.tombstone rid v hv hdel hl hnext with hown | hact | ⟨hc, hle⟩
    · exact .inl hown
    · exact .inl (hsup.resolve_right (not_not_intro hact))
    · refine hsup.imp id fun hna => ⟨?_, hle, hna⟩
      rwa [CommittedVersion, if_pos hdel]
  | false =>
    right
    cases hm : v.mark with
    | unset => simp [suppresses, hdel, commitTxId, hm] at hsup
    | deleted => simp [isDeleted, hm] at hdel
    | committed tx =>
      simp only [suppresses, hl, hdel, commitTxId, hm, if_false, Bool.false_eq_true] at hsup
      obtain ⟨-, hle, hna⟩ := Snapshot.isVisible_iff.mp hsup
      refine ⟨?_, hle, hna⟩
      rw [CommittedVersion, if_neg (by simp [hdel])]
      exact ⟨tx, hm⟩

/-- A version that counts for the view suppresses those below it, or it is an update of the
statement's own transaction. -/
theorem suppresses_of_event (active : List ℕ) (he : Event s view v) :
    suppresses (some view) active v = true ∨ v.createTxId = view.txId ∧ v.isDeleted = false := by
  obtain ⟨hl, hcase⟩ := he
  cases hdel : v.isDeleted with
  | true =>
    left
    simp only [suppresses, hl, hdel, Snapshot.containsActiveTx, if_false, if_true, Bool.or_eq_true,
      decide_eq_true_eq, Bool.not_eq_true', decide_eq_false_iff_not]
    exact hcase.imp_right fun h => h.2.2
  | false =>
    rcases hcase with hown | ⟨hc, hle, hna⟩
    · exact .inr ⟨hown, rfl⟩
    · rw [CommittedVersion, if_neg (by simp [hdel])] at hc
      obtain ⟨tx, hm⟩ := hc
      left
      simp only [suppresses, hl, hdel, commitTxId, hm, if_false, Bool.false_eq_true]
      exact Snapshot.isVisible_iff.mpr ⟨nofun, hle, hna⟩

section

variable (hi : ChainInv base s) (hq : s.reader q = .reading view checked)

include hi hq

/-- A slot that is checked is yielded if it is not deleted and counts for the view. -/
theorem yields_iff (hv : s.heap.header? rid = some v) :
    yields s.heap none (some view) rid = true ↔ v.isDeleted = false ∧ Event s view v := by
  have hunfold : yields s.heap none (some view) rid = true ↔ v.isDeleted = false ∧
      (view.isVisible v.createTxId v.commitTxId = true ∨
        view.isVisibleSelf v.createTxId v.commitTxId = true) := by
    simp [yields, hv, pageAllVisible, visible]
  rw [hunfold]
  refine and_congr_right fun hdel => ?_
  have hl := hi.live rid v hv hdel
  have hc : CommittedVersion s v ↔ ∃ tx, v.mark = .committed tx := by
    rw [CommittedVersion, if_neg (by simp [hdel])]
  rw [Event, hc, Snapshot.isVisible_iff]
  simp only [Snapshot.isVisibleSelf, Bool.and_eq_true, decide_eq_true_eq, Option.isNone_iff_eq_none,
    commitTxId_eq_none, ne_eq]
  have hmark : ¬ v.mark = .unset ↔ ∃ tx, v.mark = .committed tx := by
    cases hm : v.mark with
    | unset | committed tx => simp
    | deleted => simp [isDeleted, hm] at hdel
  rw [hmark]
  constructor
  · rintro (⟨hm, hle, hna⟩ | ⟨hown, -⟩)
    · exact ⟨hl, .inr ⟨hm, hle, hna⟩⟩
    · exact ⟨hl, .inl hown⟩
  · rintro ⟨-, hown | hvis⟩
    · exact .inr ⟨hown, own_unset hi hq hv hown hl hdel⟩
    · exact .inl hvis

/-- The superseded check ends, and skips a slot exactly if a newer version of its chain counts
for the view. -/
theorem superseded_iff (hscan : ScanOk s view active) (rid : RowId) :
    (∃ b, superseded s.heap (some view) active rid = .ok b) ∧ ((∃ slot, s.heap.slot? rid = some slot) →
      (isHead s.heap (some view) active rid = true ↔
        ∀ y v, Newer s.heap y rid → s.heap.header? y = some v → ¬ Event s view v)) := by
  have hnext : ∀ y v, Newer s.heap y rid → s.heap.header? y = some v → v.nextVersion ≠ none := by
    intro y v hy hv
    obtain ⟨z, ⟨v', hv', hn⟩, -⟩ := TransGen.head'_iff.mp hy
    cases hv.symm.trans hv'
    simp [hn]
  obtain ⟨b, hres⟩ := superseded_ok hi.wf (hscan.shallow rid)
  rcases superseded_spec hi.wf (chains_kept hi) hres with ⟨rfl, y, v, hy, hv, hsup⟩ | ⟨rfl, hnone⟩
  all_goals refine ⟨⟨_, hres⟩, fun hslot => ?_⟩; rw [isHead_of_superseded hscan.dense hslot hres]
  · refine ⟨nofun, fun hall => ?_⟩
    exact absurd (event_of_suppresses hscan hv (hnext y v hy hv) hsup) (hall y v hy hv)
  · refine ⟨fun _ y v hy hv he => ?_, fun _ => rfl⟩
    rcases suppresses_of_event active he with hsup | ⟨hown, hdel⟩
    · rw [hnone y v (kept_of_event hi hq hv he) hy hv] at hsup
      cases hsup
    · -- an own update is below an own tombstone, which suppresses the slot
      obtain ⟨t, w, ht, hw, hwown, hwdel⟩ := hscan.own y v hv hown he.1 hdel (hnext y v hy hv)
      have hwe : Event s view w := ⟨by rw [hwown, ← hown]; exact he.1, .inl hwown⟩
      rcases suppresses_of_event active hwe with hsup | ⟨-, hndel⟩
      · rw [hnone t w (kept_of_event hi hq hw hwe) (ht.trans hy) hw] at hsup
        cases hsup
      · cases hwdel.symm.trans hndel

/-- The rows of a scan. -/
theorem scan_eq_heads (hscan : ScanOk s view active) :
    scan s.heap s.vis (some view) active =
      .ok (s.heap.rids.filter (inScan s.heap (some view) active)) := by
  rw [Heap.rids, filter_flatMap]
  refine scanPages_eq_flatMap fun page _ => ?_
  refine scanPage_of_summarised hi.toSummaryInv (hscan.summarised page) hq ?_
  exact scanSlots_eq_filter fun rid _ => (superseded_iff hi hq hscan _).1

end

end Scan

/-- **A table scan yields each row once, in its right version**: for the view of every open
statement it ends, yields exactly the versions that are the newest of their chain for the view
and are not tombstones, none of them twice, and no two of one chain. -/
theorem scan_yields_newest (st : Start) (hst : Chained st.heap) (as : List Label) (s : State)
    (hrun : run step st.init as = some s)
    (hok : Guarded (fun s a => SummaryOk s a ∧ ChainOk s a) step st.init as) (q : Session)
    (view : Snapshot) (checked : Option ℕ) (hq : s.reader q = .reading view checked)
    (active : List ℕ) (hscan : ScanOk s view active) :
    ∃ rows, scan s.heap s.vis (some view) active = .ok rows ∧ rows.Nodup ∧
      (∀ rid, rid ∈ rows ↔ ∃ v, Newest s view rid v ∧ v.isDeleted = false) ∧
      ∀ x ∈ rows, ∀ y ∈ rows, SameChain s.heap x y → x = y := by
  have hi : ChainInv st.counter s :=
    run_invariant (fun _ _ _ hi hok h => chainInv_step hi hok.1 hok.2 h) (chainInv_init st hst) hok hrun
  have hmem : ∀ rid, rid ∈ s.heap.rids.filter (inScan s.heap (some view) active) ↔
        ∃ v, Newest s view rid v ∧ v.isDeleted = false := by
    intro rid
    have hhead := (superseded_iff hi hq hscan rid).2
    rw [mem_filter, Bool.and_eq_true, Heap.mem_rids hi.wf]
    constructor
    · rintro ⟨⟨slot, hslot⟩, hh, hy⟩
      have hhead := (hhead ⟨slot, hslot⟩).mp hh
      have hv : s.heap.header? rid = some slot.header := Heap.header?_eq_some.mpr ⟨slot, hslot, rfl⟩
      obtain ⟨hdel, he⟩ := (yields_iff hi hq hv).mp hy
      exact ⟨slot.header, ⟨hv, he, hhead⟩, hdel⟩
    · rintro ⟨v, ⟨hv, he, hall⟩, hdel⟩
      obtain ⟨slot, hslot, -⟩ := Heap.header?_eq_some.mp hv
      exact ⟨⟨slot, hslot⟩, (hhead ⟨slot, hslot⟩).mpr hall, (yields_iff hi hq hv).mpr ⟨hdel, he⟩⟩
  refine ⟨_, scan_eq_heads hi hq hscan, (Heap.nodup_rids hi.wf).filter _, hmem, ?_⟩
  intro x hx y hy hxy
  obtain ⟨v, ⟨hv, hve, hvn⟩, -⟩ := (hmem x).mp hx
  obtain ⟨w, ⟨hw, hwe, hwn⟩, -⟩ := (hmem y).mp hy
  rcases newer_of_sameChain (chains_kept hi) (kept_of_event hi hq hv hve)
    (kept_of_event hi hq hw hwe) hxy with
    heq | hlt | hlt
  · exact heq
  · exact absurd hve (hwn x v hlt hv)
  · exact absurd hwe (hvn y w hlt hw)

theorem chained_newTable : Chained newTable.heap := by
  have hnone : ∀ {r v}, newTable.heap.header? r ≠ some v := fun {r} _ hv => by
    cases (Heap.header?_onePage_nil r).symm.trans hv
  exact ⟨fun _ _ hv => absurd hv hnone, fun _ _ _ hv => absurd hv hnone, fun _ _ _ _ _ hv =>
    absurd hv hnone⟩

/-- Transaction `tx` begins and writes a row on page 0; the write has `n` steps. -/
def beginAndWrite (tx n : ℕ) (w : Write) : List Label :=
  [.allocate, .enter tx, .write tx 0 w] ++ List.replicate n (.work tx)

/-- Transaction `tx` commits its one version. -/
def commitOne (tx : ℕ) (rid : RowId) : List Label := [.commit tx, .mark tx rid, .work tx, .leave tx]

/-- A row is inserted, a statement opens its view, and the row is updated. -/
def readAndUpdate : List Label :=
  beginAndWrite 1 3 (.insert []) ++ commitOne 1 ⟨0, 0⟩ ++ openView 0 ++
    beginAndWrite 2 3 (.update ⟨0, 0⟩ []) ++ commitOne 2 ⟨0, 1⟩

theorem guarded_readAndUpdate : Guarded
    (fun s a => SummaryOk s a ∧ ChainOk s a) step newTable.init readAndUpdate := by
  iterate 4 refine ⟨⟨trivial, trivial⟩, ?_⟩; rintro _ ⟨⟩
  -- the insert records its creator on a page that has no minimum
  refine ⟨⟨fun _ => onPage_of_slots ?_, trivial⟩, ?_⟩
  · intro slot hslot _
    obtain rfl := mem_singleton.mp hslot
    exact .inl (Nat.le_refl _)
  rintro _ ⟨⟩
  iterate 9 refine ⟨⟨trivial, trivial⟩, ?_⟩; rintro _ ⟨⟩
  -- the update replaces the version that transaction 1 has committed
  refine ⟨⟨?_, ⟨⟨1, .committed 1, none⟩, rfl, nofun, rfl, .inr trivial⟩, ?_⟩, ?_⟩
  · intro m hm
    obtain rfl : 1 = m := Option.some.inj hm
    exact Nat.le_succ 1
  · intro x v hv hnext
    obtain ⟨i, slot, -, hslot, rfl⟩ := Heap.header?_of_slots (l := [(0, ⟨⟨1, .committed 1, none⟩, []⟩)])
      (fun page => by cases page <;> rfl) hv
    rw [(Prod.mk.inj (mem_singleton.mp hslot)).2] at hnext
    cases hnext
  rintro _ ⟨⟩
  iterate 7 refine ⟨⟨trivial, trivial⟩, ?_⟩; rintro _ ⟨⟩
  trivial

/-- The statement yields the version it had. -/
theorem scan_yields_newest_updated : ∃ s, run step newTable.init readAndUpdate = some s ∧
    scan s.heap s.vis (some ⟨0, 1, []⟩) [] = .ok [⟨0, 0⟩] ∧
    ∃ rows, scan s.heap s.vis (some ⟨0, 1, []⟩) [] = .ok rows ∧ rows.Nodup ∧
      (∀ rid, rid ∈ rows ↔ ∃ v, Newest s ⟨0, 1, []⟩ rid v ∧ v.isDeleted = false) ∧
      ∀ x ∈ rows, ∀ y ∈ rows, SameChain s.heap x y → x = y := by
  obtain ⟨s, hs, hphase, hq, hslots, hscan⟩ : ∃ s, run step newTable.init readAndUpdate = some s ∧
      (∀ tx, (s.phase tx).todo = []) ∧ s.reader (.auto 0) = .reading ⟨0, 1, []⟩ none ∧
      (∀ page, s.heap.slots page = if page = 0 then
        [(0, ⟨⟨1, .committed 1, none⟩, []⟩), (1, ⟨⟨2, .committed 2, some ⟨0, 0⟩⟩, []⟩)] else []) ∧
      scan s.heap s.vis (some ⟨0, 1, []⟩) [] = .ok [⟨0, 0⟩] := by
    refine ⟨_, rfl, fun tx => ?_, rfl, fun page => by cases page <;> rfl, by decide +kernel⟩
    match tx with
    | 0 | 1 | 2 | n + 3 => rfl
  refine ⟨s, hs, hscan, scan_yields_newest newTable chained_newTable _ s hs guarded_readAndUpdate
    (.auto 0) _ none hq [] ?_⟩
  refine ⟨fun page tx => ?_, fun rid v hv h h0 => absurd h h0, fun rid v hv hdel => ?_,
    fun rid hdeep => ?_, fun page => ?_⟩
  · rw [hphase tx]
    exact ⟨not_mem_nil, not_mem_nil⟩
  · rcases Heap.header?_of_two hslots hv with ⟨-, rfl⟩ | ⟨-, rfl⟩ <;> cases hdel
  · obtain ⟨x, -, ⟨v, hv, hvn⟩, -, -, y, -, ⟨w, hw, hwn⟩, -⟩ := hdeep
    rcases Heap.header?_of_two hslots hv with ⟨rfl, rfl⟩ | ⟨rfl, rfl⟩
    · cases hvn
    · rcases Heap.header?_of_two hslots hw with ⟨-, rfl⟩ | ⟨-, rfl⟩ <;> cases hwn
  · rw [hslots]
    cases page <;> rfl

/-- Scans yield wrong versions: a transaction that has updated a row sees both versions; a
statement does not see a row that was deleted after it took its view; and two versions of a row
are current after a write over an uncommitted version and its rollback. -/
theorem scan_yields_wrong_versions :
    (∃ s, run step newTable.init (beginAndWrite 1 3 (.insert []) ++ commitOne 1 ⟨0, 0⟩ ++
          beginAndWrite 2 3 (.update ⟨0, 0⟩ []) ++ [.readActive (.own 2), .readCurrent (.own 2)]) =
            some s ∧
      s.reader (.own 2) = .reading ⟨2, 2, [2]⟩ none ∧
      scan s.heap s.vis (some ⟨2, 2, [2]⟩) [] = .ok [⟨0, 0⟩, ⟨0, 1⟩] ∧ SameChain s.heap ⟨0, 0⟩ ⟨0, 1⟩) ∧
    (∃ s, run step newTable.init (beginAndWrite 1 3 (.insert []) ++ commitOne 1 ⟨0, 0⟩ ++ openView 0 ++
          beginAndWrite 2 4 (.delete ⟨0, 0⟩) ++ commitOne 2 ⟨0, 1⟩) = some s ∧
      s.reader (.auto 0) = .reading ⟨0, 1, []⟩ none ∧
      scan s.heap s.vis (some ⟨0, 1, []⟩) [] = .ok [] ∧
      Newest s ⟨0, 1, []⟩ ⟨0, 0⟩ ⟨1, .committed 1, none⟩) ∧
    ∃ s, run step newTable.init (beginAndWrite 1 3 (.insert []) ++ commitOne 1 ⟨0, 0⟩ ++
          beginAndWrite 2 3 (.update ⟨0, 0⟩ []) ++ beginAndWrite 3 3 (.update ⟨0, 1⟩ []) ++
          commitOne 3 ⟨0, 2⟩ ++ [.abort 2, .mark 2 ⟨0, 1⟩, .leave 2] ++
          beginAndWrite 4 3 (.update ⟨0, 0⟩ []) ++ commitOne 4 ⟨0, 3⟩ ++ openView 0) = some s ∧
      s.reader (.auto 0) = .reading ⟨0, 4, []⟩ none ∧
      scan s.heap s.vis (some ⟨0, 4, []⟩) [] = .ok [⟨0, 2⟩, ⟨0, 3⟩] ∧
      SameChain s.heap ⟨0, 2⟩ ⟨0, 3⟩ := by
  refine ⟨⟨_, rfl, rfl, by decide +kernel, ?_⟩, ⟨_, rfl, rfl, by decide +kernel, ?_⟩,
    ⟨_, rfl, rfl, by decide +kernel, ?_⟩⟩
  · exact ⟨⟨0, 0⟩, .refl, .single ⟨_, rfl, rfl⟩⟩
  · refine ⟨rfl, ⟨nofun, .inr ⟨⟨1, rfl⟩, Nat.le_refl _, not_mem_nil⟩⟩, ?_⟩
    intro y v hy hv he
    rcases Heap.header?_of_two (a := ⟨⟨1, .committed 1, none⟩, []⟩)
      (b := ⟨⟨2, .deleted, some ⟨0, 0⟩⟩, []⟩)
      (fun page => by cases page <;> rfl) hv with ⟨rfl, -⟩ | ⟨-, rfl⟩
    · obtain ⟨z, ⟨w, ⟨⟩, hn⟩, -⟩ := TransGen.head'_iff.mp hy
      cases hn
    · obtain ⟨-, h | ⟨-, h, -⟩⟩ := he
      · cases h
      · exact absurd h (by decide)
  · exact ⟨⟨0, 0⟩, .head ⟨_, rfl, rfl⟩ (.single ⟨_, rfl, rfl⟩), .single ⟨_, rfl, rfl⟩⟩

end RTsql.Executor

import RTsql.Transaction.IndexConsistency

/-!
# What the headers say between transactions

A version that has no commit mark is that of the transaction that is running: a commit
marks what the transaction has recorded, and a rollback leaves an aborted version, which
counts as deleted. Aborted versions keep their place in the chain, but they do not pile
up: a transaction that can be undone has not updated a row twice, and no later transaction
replaces an aborted version.

* `marks_step` — every step of a history keeps this (`Marks`).
-/

namespace RTsql.Transaction.History

open RTsql.Library RTsql.Storage RTsql.Executor Option

/-- What the headers of a table say while `running` is the transaction that runs on it. -/
structure Marks (running : Option ℕ) (h : Heap Row) : Prop where
  /-- The versions without a mark are those of the running transaction. -/
  unset : ∀ r v, h.header? r = some v → v.isDeleted = false →
    (v.mark = .unset ↔ running = some v.createTxId)
  /-- What a version replaces is there. -/
  present : ∀ x v r, h.header? x = some v → v.nextVersion = some r → h.slot? r ≠ none
  /-- What replaces a version of the running transaction is that transaction's too. -/
  inside : ∀ x v r w, h.header? x = some v → v.nextVersion = some r → h.header? r = some w →
    running = some w.createTxId → v.createTxId = w.createTxId
  /-- An aborted version that another aborted version replaces was inserted. -/
  shallow : ∀ x v r w, h.header? x = some v → v.createTxId = 0 → v.nextVersion = some r →
    h.header? r = some w → w.createTxId = 0 → w.nextVersion = none

section Marks

variable {m : TableMeta} {tx : ℕ} {t₀ t t' : Table} {done : List RowId}

/-- A transaction begins that has written nothing. -/
theorem Marks.begin {h : Heap Row} (hm : Marks none h)
    (hfresh : ∀ r v, h.header? r = some v → v.createTxId ≠ tx) : Marks (some tx) h where
  unset r v hv hdel := by
    rw [hm.unset r v hv hdel, some.injEq]
    exact ⟨nofun, fun h => absurd h.symm (hfresh r v hv)⟩
  present := hm.present
  inside _ _ r w _ _ hw hrun := absurd (some.inj hrun).symm (hfresh r w hw)
  shallow := hm.shallow

/-- A version is written. -/
theorem Marks.write {new : RowId} {s : Slot Row} {into : IndexId → Option (Bytes × RowId)}
    (hw : Writes m tx t t' new s into) (hmark : ∀ c, s.header.mark ≠ .committed c) (htx : tx ≠ 0)
    (hm : Marks (some tx) t.heap) : Marks (some tx) t'.heap where
  unset r v hv hdel := by
    rcases hw.extend.header_cases hv with ⟨-, rfl⟩ | hv
    · refine iff_of_true ?_ (by rw [hw.tx])
      cases hc : s.header.mark with
      | unset => rfl
      | deleted =>
        rw [VersionHeader.isDeleted, hc] at hdel
        cases hdel
      | committed c => exact absurd hc (hmark c)
    · exact hm.unset r v hv hdel
  present x v r hv hnext := by
    have hold : t.heap.slot? r ≠ none := by
      rcases hw.extend.header_cases hv with ⟨-, rfl⟩ | hv
      · exact (hw.current r hnext).slot?
      · exact hm.present x v r hv hnext
    rwa [hw.slot_of_ne (hw.ne_of_slot hold)]
  inside x v r w hv hnext hwr hrun := by
    rcases hw.extend.header_cases hv with ⟨-, rfl⟩ | hv
    · rw [hw.tx]
      exact some.inj hrun
    · rw [hw.extend.header_of_ne (hw.ne_of_slot (hm.present x v r hv hnext))] at hwr
      exact hm.inside x v r w hv hnext hwr hrun
  shallow x v r w hv hzero hnext hwr hzero' := by
    -- the new version is not aborted
    have hnew : ∀ y u, t'.heap.header? y = some u → u.createTxId = 0 → t.heap.header? y = some u := by
      intro y u hu hz
      refine (hw.extend.header_cases hu).resolve_left ?_
      rintro ⟨-, rfl⟩
      exact htx (hw.tx.symm.trans hz)
    exact hm.shallow x v r w (hnew x v hv hzero) hzero hnext (hnew r w hwr hzero') hzero'

/-- A row of a statement. -/
theorem Marks.exec {d : DateParser} {op : RowOp} (hr : Ready m tx t₀) (hi : TxInv m tx t₀ t)
    (ha : op.Admitted d m tx t) (hm : Marks (some tx) t.heap) :
    Marks (some tx) (exec d m tx op t).1.heap := by
  rcases exec_writes hr hi ha with hsame | ⟨t', new, s, into, heq, hw, hmark⟩
  · rwa [hsame]
  · rw [heq]
    exact hm.write hw hmark hr.tx_ne

/-- The headers after a commit. -/
theorem header_commitMarkVersions (tx : ℕ) (rids : List RowId) (h : Heap Row) (r : RowId) :
    (r ∈ rids → ∀ v, (commitMarkVersions tx rids h).header? r = some v → v.mark ≠ .unset) ∧
      (r ∉ rids → (commitMarkVersions tx rids h).header? r = h.header? r) := by
  induction rids generalizing h with
  | nil => exact ⟨fun hr => absurd hr List.not_mem_nil, fun _ => rfl⟩
  | cons x rids ih =>
    have hstep : commitMarkVersions tx (x :: rids) h = commitMarkVersions tx rids
      (commitMarkVersions tx [x] h) := rfl
    rw [hstep]
    obtain ⟨hin, hout⟩ := ih (commitMarkVersions tx [x] h)
    refine ⟨fun hr v hv => ?_, fun hr => ?_⟩
    · by_cases hrest : r ∈ rids
      · exact hin hrest v hv
      · obtain rfl := (List.mem_cons.mp hr).resolve_right hrest
        rw [hout hrest, commitMarkVersions, List.foldl_cons, List.foldl_nil] at hv
        split at hv
        case h_1 v₀ hv₀ =>
          rw [Heap.header?_setHeader h hv₀, if_pos rfl, some.injEq] at hv
          rw [← hv]
          exact v₀.mark_commit_ne_unset tx
        case h_2 hnone =>
          cases hnone.symm.trans hv
    · obtain ⟨hrx, hrest⟩ := not_or.mp (mt List.mem_cons.mpr hr)
      rw [hout hrest, commitMarkVersions, List.foldl_cons, List.foldl_nil]
      split
      case h_1 v₀ hv₀ => rw [Heap.header?_setHeader h hv₀, if_neg hrx]
      case h_2 => rfl

/-- **After a commit** no version is without a mark. -/
theorem Marks.commit (hi : TxInv m tx t₀ t) (hm : Marks (some tx) t.heap) :
    Marks none (commitMarkVersions tx t.recorded t.heap) := by
  have hl := sameLinks_commitMarkVersions tx t.recorded t.heap
  exact
    { unset := by
        intro r v hv hdel
        refine iff_of_false (fun hunset => ?_) nofun
        obtain ⟨hin, hout⟩ := header_commitMarkVersions tx t.recorded t.heap r
        by_cases hr : r ∈ t.recorded
        · exact hin hr v hv hunset
        · rw [hout hr] at hv
          have hown : Own t.heap tx r := ⟨v, hv, (some.inj ((hm.unset r v hv hdel).mp hunset)).symm⟩
          exact hr ((hi.recorded r).mpr hown)
      present := by
        intro x v' r hv' hnext
        obtain ⟨v, hv, -, hnext', -⟩ := hl.symm.header hv'
        exact mt hl.slot?_eq_none.mp (hm.present x v r hv (hnext'.trans hnext))
      inside := fun _ _ _ _ _ _ _ => nofun
      shallow := by
        intro x v' r w' hv' hzero hnext hw' hzero'
        obtain ⟨v, hv, hcreate, hnext', -⟩ := hl.symm.header hv'
        obtain ⟨w, hw, hwcreate, hwnext, -⟩ := hl.symm.header hw'
        rw [← hwnext]
        exact hm.shallow x v r w hv (hcreate.trans hzero) (hnext'.trans hnext) hw
          (hwcreate.trans hzero') }

/-- A version after a rollback: aborted, with its place in the chain, or as before. -/
theorem exists_of_undone {h₁ h : Heap Row} (hu : Undone h₁ h done) {r : RowId}
    {v : VersionHeader} (hv : h.header? r = some v) :
    ∃ v₁, h₁.header? r = some v₁ ∧ v.nextVersion = v₁.nextVersion ∧
      ((r ∈ done ∧ v.mark = .deleted) ∨ (r ∉ done ∧ v = v₁)) := by
  by_cases hr : r ∈ done
  · obtain ⟨s, hs, hs'⟩ := hu.aborted r hr
    rw [Heap.header?, hs', map_some, some.injEq] at hv
    subst hv
    exact ⟨s.header, Heap.header?_eq_some.mpr ⟨s, hs, rfl⟩, rfl, .inl ⟨hr, rfl⟩⟩
  · exact ⟨v, (hu.header_of_not_mem hr).symm.trans hv, rfl, .inr ⟨hr, rfl⟩⟩

/-- **After a rollback** of a transaction that can be undone. -/
theorem Marks.rollback {t₁ : Table} (hr : Ready m tx t₀) (hi : TxInv m tx t₀ t₁)
    (hu : Undoable m tx t₁.heap) (ha : AbortInv m tx t₀ t₁ done t)
    (hall : ∀ r, Own t₁.heap tx r → r ∈ done)
    (hm : Marks (some tx) t₁.heap) : Marks none t.heap where
  unset r v hv hdel := by
    refine iff_of_false (fun hunset => ?_) nofun
    obtain ⟨v₁, hv₁, -, ⟨-, hmark⟩ | ⟨hrd, rfl⟩⟩ := exists_of_undone ha.heap hv
    · cases hunset.symm.trans hmark
    · exact hrd (hall r ⟨v, hv₁, (some.inj ((hm.unset r v hv₁ hdel).mp hunset)).symm⟩)
  present x v r hv hnext := by
    obtain ⟨v₁, hv₁, hnext₁, -⟩ := exists_of_undone ha.heap hv
    have hold := hm.present x v₁ r hv₁ (hnext₁.symm.trans hnext)
    by_cases hrd : r ∈ done
    · obtain ⟨s, -, hs⟩ := ha.heap.aborted r hrd
      rw [hs]
      nofun
    · rwa [ha.heap.kept r hrd]
  inside _ _ _ _ _ _ _ := nofun
  shallow x v r w hv hzero hnext hw hzero' := by
    obtain ⟨v₁, hv₁, hnext₁, hxd⟩ := exists_of_undone ha.heap hv
    obtain ⟨w₁, hw₁, hwnext, hrd⟩ := exists_of_undone ha.heap hw
    have hnext := hnext₁.symm.trans hnext
    rw [hwnext]
    rcases hxd with ⟨hxd, -⟩ | ⟨-, rfl⟩
    · have hvtx := (ha.own x hxd).createTxId_eq hv₁
      rcases hrd with ⟨hrd, -⟩ | ⟨-, rfl⟩
      · exact (hu.chain x v₁ r w₁ hv₁ hvtx hnext hw₁ ((ha.own r hrd).createTxId_eq hw₁)).2
      · -- a version that was not aborted does not replace one that was
        obtain ⟨w₂, hw₂, hdel⟩ := hi.linked.down x v₁ r hv₁ (hvtx ▸ hr.tx_ne) hnext
        obtain rfl := mem_unique hw₁ hw₂
        exact absurd hzero' (hi.linked.live r w hw₁ hdel)
    · rcases hrd with ⟨hrd, -⟩ | ⟨-, rfl⟩
      · have hwtx := (ha.own r hrd).createTxId_eq hw₁
        have htx := hm.inside x v r w₁ hv₁ hnext hw₁ (by rw [hwtx])
        rw [hzero, hwtx] at htx
        exact absurd htx.symm hr.tx_ne
      · exact hm.shallow x v r w hv₁ hzero hnext hw₁ hzero'

/-- The step lemma. -/
theorem marks_step {dense : Prop} (d : DateParser) {s s' : State} {e : Event} (hinv : Inv m dense s)
    (hm : Marks s.running s.table.heap) (hok : EventOk d m s e) (hstep : step d m s e = some s') :
    Marks s'.running s'.table.heap := by
  cases hinv with
  | idle hs _ =>
    cases e with
    | begin =>
      cases hstep
      exact hm.begin hs.ready.fresh
    | _ => cases hstep
  | @running last t₀ t hs _ hi =>
    cases e with
    | begin => cases hstep
    | row op =>
      cases hstep
      exact hm.exec hs.ready hi (hok (last + 1) rfl)
    | commit =>
      cases hstep
      exact hm.commit hi
    | rollback order =>
      obtain ⟨t', done, ha, hall, rfl⟩ := exists_of_rollback hs hi hok hstep
      have hmarks : Marks none t'.heap := hm.rollback hs.ready hi (hok (last + 1) rfl).1 ha hall
      exact hmarks

end Marks

/-! ### Histories -/

/-- The state a history begins in: no transaction is running, the indexes are in step with the rows,
the versions are marked, and the ids of the slots are their positions. -/
structure Start (m : TableMeta) (s : State) : Prop where
  idle : s.running = none
  settled : Settled m s.lastTx s.table
  marks : Marks none s.table.heap
  dense : s.table.heap.Dense

theorem start_newTable (m : TableMeta) : Start m ⟨newTable, 0, none⟩ where
  idle := rfl
  settled := settled_newTable m
  marks :=
    { unset := fun r v hv => by simp [header_newTable] at hv
      present := fun x v r hv => by simp [header_newTable] at hv
      inside := fun x v r w hv => by simp [header_newTable] at hv
      shallow := fun x v r w hv => by simp [header_newTable] at hv }
  dense := Heap.dense_onePage _

section

variable {m : TableMeta} {d : DateParser} {s s' : State} {events : List Event} (hs : Start m s)
  (hok : Guarded (EventOk d m) (step d m) s events) (hrun : run (step d m) s events = some s')

include hs hok hrun

/-- **What holds after a history.** -/
theorem Start.inv : Inv m s.table.heap.Dense s' ∧ Marks s'.running s'.table.heap := by
  have hmarks : Marks s.running s.table.heap := by
    rw [hs.idle]
    exact hs.marks
  refine run_invariant (P := fun s' => Inv m s.table.heap.Dense s' ∧ Marks s'.running s'.table.heap) ?_
    ⟨hs.settled.inv hs.idle, hmarks⟩ hok hrun
  intro u e u' ⟨hi, hm⟩ hok hstep
  exact ⟨inv_step d u e u' hi hok hstep, marks_step d hi hm hok hstep⟩

/-- Where a history may begin again: a state in which no transaction is running. -/
theorem Start.of_run (hidle : s'.running = none) : Start m s' := by
  obtain ⟨hinv, hm⟩ := hs.inv hok hrun
  have hdense := hinv.dense hs.dense
  cases hinv with
  | idle hsettled => exact ⟨rfl, hsettled, hm, hdense⟩
  | running => cases hidle

end

end RTsql.Transaction.History

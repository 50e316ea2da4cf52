import RTsql.Executor.PointRead

/-!
# Garbage collection

`TableMeta::gc_table` follows the chain of every entry of the primary-key index and deletes the
committed versions behind the entry's version. It does not look at the mark of that version, and it
leaves the pointer to the first version that it deletes. A slot that is deleted leaves the slot
directory, so that the slots behind it move up, while `DataScanExecutor` takes the position of a
slot for its logical id.

* `gc_keeps_rows_iff` — collections can be repeated and keep the rows exactly if there is nothing to
delete.
* `gc_loses_row` — otherwise a row can be lost, and a second collection fails.
-/

namespace RTsql.Transaction.History

open List RTsql.Executor RTsql.Library RTsql.Storage Relation

/-! ### The collection -/

/-- `delete_tuple_from_data_page`. No other slot of the page has the id. -/
def deleteTuple (h : Heap Row) (rid : RowId) : Except StorageError (Heap Row) :=
  if (h.slot? rid).isSome then
    .ok { h with slots := Function.update h.slots rid.pageId ((h.slots rid.pageId).filter (·.1 ≠ rid.slotId)) }
  else .error (.slotNotFound rid)

/-- The chain from `rid` on, if it ends within `n` versions. -/
def versionChain (h : Heap Row) : ℕ → RowId → Except StorageError (List (RowId × VersionHeader))
  | 0, _ => .error .io
  | n + 1, rid =>
    match h.header? rid with
    | none => .error (.slotNotFound rid)
    | some v =>
      (match v.nextVersion with
        | some next => versionChain h n next
        | none => .ok []).map ((rid, v) :: ·)

/-- One entry of the index: the committed versions of its chain but the first are deleted. -/
def collect (n : ℕ) (s : Heap Row × ℕ) (e : Bytes × RowId) : Except StorageError (Heap Row × ℕ) := do
  let chain ← versionChain s.1 n e.2
  let old := (chain.filter fun c => c.2.commitTxId.isSome && c.1 ≠ e.2).map Prod.fst
  let h ← old.foldlM deleteTuple s.1
  pure (h, s.2 + old.length)

/-- `gc_table`: the table afterwards, and the number of versions deleted. A chain is not longer than
the table. -/
def gcTable (t : Table) : Except StorageError (Table × ℕ) :=
  ((t.index .pk).scanAll.foldlM (collect (t.heap.rids.length + 1)) (t.heap, 0)).map fun s =>
    ({ t with heap := s.1 }, s.2)

/-- `gc_table`, `k` times. -/
def gcTimes : ℕ → Table → Except StorageError Table
  | 0, t => .ok t
  | k + 1, t => gcTable t >>= fun p => gcTimes k p.1

/-! ### Chains that can be read -/

section Chain

variable {h h' : Heap Row} {r x y z : RowId} {l old : List RowId} {n : ℕ}
  {chain : List (RowId × VersionHeader)}

/-- The version is there and not deleted. -/
def Kept (h : Heap Row) (rid : RowId) : Prop := ∃ v, h.header? rid = some v ∧ v.isDeleted = false

theorem chains_unbroken (hl : Unbroken h) : Chains h (Kept h) where
  live x hx := hx.imp fun v hv => ⟨hv.1, hl.live x v hv.1 hv.2⟩
  down := by
    rintro x r ⟨v, hv, hdel⟩ ⟨w, hw, hnext⟩
    cases hv.symm.trans hw
    exact hl.down x v r hv (hl.live x v hv hdel) hnext
  unique := hl.unique

/-- A reader who sees no version. -/
def blind : Option Snapshot := some ⟨0, 0, []⟩

theorem hiddenBy_blind (hl : Unbroken h) {v : VersionHeader} (hv : h.header? x = some v)
    (hdel : v.isDeleted = false) (hnext : v.nextVersion = some r) : HiddenBy h blind r x := by
  refine ⟨v, hv, hnext, hdel, ?_⟩
  simp [visible, blind, Snapshot.isVisible, Snapshot.isVisibleSelf, hl.live x v hv hdel]

/-- **The walk** down a chain ends: above each version that it comes to there are others of the
table. -/
theorem versionChain_ok (hwf : h.WF) (hl : Unbroken h) (hr : ¬ Replaced h r) (hz : Kept h z)
    (hc : Climb h blind z l r) (hn : h.rids.length < n + l.length) :
    ∃ chain, versionChain h n z = .ok chain ∧
      ∀ c ∈ chain, ReflTransGen (Replaces h) z c.1 ∧ h.header? c.1 = some c.2 := by
  induction n generalizing z l with
  | zero => exact absurd (hc.length_le hwf hl hr) (by omega)
  | succ n ih =>
    obtain ⟨v, hv, hdel⟩ := id hz
    rw [versionChain, hv]
    dsimp only
    cases hnext : v.nextVersion with
    | none => exact ⟨[(z, v)], rfl, by simp [hv, ReflTransGen.refl]⟩
    | some next =>
      have hstep : Replaces h z next := ⟨v, hv, hnext⟩
      obtain ⟨chain, hchain, hmem⟩ := ih ((chains_unbroken hl).down z next hz hstep) (l := z :: l)
        ⟨hiddenBy_blind hl hv hdel hnext, hc⟩ (by rw [length_cons]; omega)
      refine ⟨(z, v) :: chain, by
        simp only [hchain]; rfl, forall_mem_cons.mpr ⟨⟨.refl, hv⟩, fun c hc => ?_⟩⟩
      exact ⟨(hmem c hc).1.head hstep, (hmem c hc).2⟩

/-- The slots of `h'` are slots of `h`. -/
def Fewer (h' h : Heap Row) : Prop := ∀ r s, h'.slot? r = some s → h.slot? r = some s

theorem Fewer.trans {h'' : Heap Row} (h₁ : Fewer h'' h') (h₂ : Fewer h' h) : Fewer h'' h :=
  fun r s hs => h₂ r s (h₁ r s hs)

/-- **A walk that ends** has met every version of the chain, though slots may be missing
elsewhere. -/
theorem mem_of_versionChain (hsub : Fewer h' h) (hok : versionChain h' n z = .ok chain)
    (hy : ReflTransGen (Replaces h) z y) : ∃ v, h'.header? y = some v ∧ h.header? y = some v ∧
    (y, v) ∈ chain := by
  induction n generalizing z chain with
  | zero => cases hok
  | succ n ih =>
    rw [versionChain] at hok
    cases hv : h'.header? z with
    | none => simp [hv] at hok
    | some v =>
      obtain ⟨s, hs, rfl⟩ := Heap.header?_eq_some.mp hv
      have hvh : h.header? z = some s.header := Heap.header?_eq_some.mpr ⟨s, hsub z s hs, rfl⟩
      simp only [hv] at hok
      obtain ⟨older, holder, rfl⟩ := map_eq_ok.mp hok
      rcases ReflTransGen.cases_head hy with rfl | ⟨next, ⟨w, hw, hnext⟩, hy⟩
      · exact ⟨s.header, hv, hvh, mem_cons_self⟩
      · rw [hvh, Option.some.injEq] at hw
        rw [hw, hnext] at holder
        obtain ⟨u, hu, hu', hmem⟩ := ih holder hy
        exact ⟨u, hu, hu', mem_cons_of_mem _ hmem⟩

theorem slot?_of_deleteTuple (hok : deleteTuple h x = .ok h') : h'.slot? r = if r = x then none else h.slot? r := by
  unfold deleteTuple at hok
  split at hok
  case isFalse => cases hok
  case isTrue =>
    cases hok
    obtain ⟨p, i⟩ := r
    by_cases hp : p = x.pageId
    · subst hp
      by_cases hi : i = x.slotId
      · subst hi
        simp [Heap.slot?, find?_eq_none]
      · have hne : (⟨x.pageId, i⟩ : RowId) ≠ x := fun heq => hi (congrArg RowId.slotId heq)
        simp only [if_neg hne, Heap.slot?, Function.update_self, find?_filter]
        congr 2
        funext e
        by_cases he : e.1 = i <;> simp [he, hi]
    · have hne : (⟨p, i⟩ : RowId) ≠ x := fun heq => hp (congrArg RowId.pageId heq)
      simp only [if_neg hne, Heap.slot?, Function.update_of_ne hp]

/-- The versions deleted are gone, and no others come. -/
theorem fewer_of_foldlM (hok : old.foldlM deleteTuple h = .ok h') : Fewer h' h ∧ ∀ y ∈ old,
    h'.slot? y = none := by
  induction old generalizing h with
  | nil =>
    cases hok
    exact ⟨fun _ _ hs => hs, nofun⟩
  | cons x old ih =>
    rw [foldlM_cons] at hok
    obtain ⟨h₁, hx, hrest⟩ := bind_eq_ok.mp hok
    obtain ⟨hsub, hgone⟩ := ih hrest
    have hx' := fun r => slot?_of_deleteTuple (r := r) hx
    refine ⟨fun r s hs => ?_, forall_mem_cons.mpr ⟨?_, hgone⟩⟩
    · have hr := hsub r s hs
      rw [hx'] at hr
      split at hr
      · cases hr
      · exact hr
    · by_contra hsome
      obtain ⟨s, hs⟩ := Option.ne_none_iff_exists'.mp hsome
      have hr := hsub x s hs
      rw [hx', if_pos rfl] at hr
      cases hr

/-- **Entries that were collected**: their chains could be read, and the committed versions behind
them are gone. -/
theorem collected_of_foldlM {es : List (Bytes × RowId)} {s s' : Heap Row × ℕ} (hsub : Fewer s.1 h)
    (hok : es.foldlM (collect n) s = .ok s') : Fewer s'.1 s.1 ∧ ∀ e ∈ es, ∀ y,
    ReflTransGen (Replaces h) e.2 y →
      s.1.slot? y ≠ none ∧ ∀ v, h.header? y = some v → v.mark ≠ .unset → y ≠ e.2 →
      s'.1.slot? y = none := by
  induction es generalizing s with
  | nil =>
    cases hok
    exact ⟨fun _ _ hs => hs, nofun⟩
  | cons e es ih =>
    rw [foldlM_cons] at hok
    obtain ⟨s₁, hfirst, hrest⟩ := bind_eq_ok.mp hok
    obtain ⟨chain, hchain, h₁, hdelete, ⟨⟩⟩ := bind_bind_ok hfirst
    obtain ⟨hsub₁, hgone⟩ := fewer_of_foldlM hdelete
    obtain ⟨hsub', hes⟩ := ih (hsub₁.trans hsub) hrest
    have hnone : ∀ {a b : Heap Row} {y}, Fewer a b → b.slot? y = none → a.slot? y = none := by
      intro a b y hab hb
      by_contra hsome
      obtain ⟨u, hu⟩ := Option.ne_none_iff_exists'.mp hsome
      cases hb.symm.trans (hab y u hu)
    refine ⟨hsub'.trans hsub₁, forall_mem_cons.mpr ⟨fun y hy => ?_, fun e' he' y hy => ?_⟩⟩
    · obtain ⟨v, hv, hvh, hmem⟩ := mem_of_versionChain hsub hchain hy
      refine ⟨slot?_ne_none_of_header hv, fun w hw hmark hne => hnone hsub' (hgone y ?_)⟩
      rw [hvh, Option.some.injEq] at hw
      refine mem_map.mpr ⟨(y, v), mem_filter.mpr ⟨hmem, ?_⟩, rfl⟩
      simp [Option.isSome_iff_ne_none, hw, hmark, hne]
    · obtain ⟨hread, hlater⟩ := hes e' he' y hy
      exact ⟨fun hc => hread (hnone hsub₁ hc), hlater⟩

end Chain

/-! ### What a collection keeps -/

/-- The newest committed version of a row: every version above it is without a mark, or aborted. -/
def NewestCommitted (h : Heap Row) (rid : RowId) : Prop :=
  (∃ v, h.header? rid = some v ∧ v.isDeleted = false ∧ v.mark ≠ .unset) ∧
    ∀ x v, Newer h x rid → h.header? x = some v → v.mark = .unset ∨ v.createTxId = 0

/-- The table once transactions have been aborted, each with its versions in some order. -/
def abortAll (m : TableMeta) (aborts : List (ℕ × List RowId)) (t : Table) : Table :=
  aborts.foldl (fun t p => (abortTable m p.1 p.2 t).1) t

/-- The newest committed versions and those without a mark can be read as before, and the rows are
the same once any transactions are aborted, for every reader. -/
structure Keeps (m : TableMeta) (t t' : Table) : Prop where
  newest : ∀ r, NewestCommitted t.heap r → t'.heap.slot? r = t.heap.slot? r
  unset : ∀ r v, t.heap.header? r = some v → v.mark = .unset → t'.heap.slot? r = t.heap.slot? r
  rows : ∀ aborts vis snapshot active, dataScan m (abortAll m aborts t') vis snapshot active =
    dataScan m (abortAll m aborts t) vis snapshot active

/-- **The condition**: no committed version lies behind the version of an entry. -/
def NothingOld (t : Table) : Prop :=
  ∀ e ∈ (t.index .pk).entries, ∀ y v, Newer t.heap e.2 y → t.heap.header? y = some v → v.mark = .unset

section Collections

variable {m : TableMeta} {t t' : Table}

theorem mem_scanAll {e : Bytes × RowId} (he : e ∈ (t.index .pk).scanAll) :
    ∃ e' ∈ (t.index .pk).entries, e'.2 = e.2 := by
  obtain ⟨e', he', rfl⟩ := mem_map.mp he
  exact ⟨e', he', rfl⟩

/-- Nothing is deleted. -/
theorem gcTable_eq (hi : Intact m t) (hold : NothingOld t) : gcTable t = .ok (t, 0) := by
  have hcollect : ∀ e ∈ (t.index .pk).scanAll,
    collect (t.heap.rids.length + 1) (t.heap, 0) e = .ok (t.heap, 0) := by
    intro e he
    obtain ⟨e', he', heq⟩ := mem_scanAll he
    obtain ⟨hcur, -⟩ := (hi.mem e').mp he'
    rw [heq] at hcur
    obtain ⟨chain, hchain, hmem⟩ :=
      versionChain_ok hi.wf hi.chains hcur.2 hcur.1 (l := []) rfl (Nat.lt_succ_self _)
    have hnone : (chain.filter fun c => c.2.commitTxId.isSome && c.1 ≠ e.2) = [] := by
      refine filter_eq_nil_iff.mpr fun c hc => ?_
      obtain ⟨hreach, hv⟩ := hmem c hc
      rcases reflTransGen_iff_eq_or_transGen.mp hreach with hsame | hnewer
      · simp [hsame]
      · simp [VersionHeader.commitTxId_eq_none.mpr (hold e' he' c.1 c.2 (heq ▸ hnewer) hv)]
    refine bind_eq_ok.mpr ⟨chain, hchain, ?_⟩
    rw [hnone]
    rfl
  have hfold : ∀ es ⊆ (t.index .pk).scanAll,
    es.foldlM (collect (t.heap.rids.length + 1)) (t.heap, 0) = .ok (t.heap, 0) := by
    intro es hes
    induction es with
    | nil => rfl
    | cons e es ih =>
      rw [foldlM_cons, hcollect e (hes mem_cons_self)]
      exact ih fun e' he' => hes (mem_cons_of_mem _ he')
  rw [gcTable, hfold _ (Subset.refl _)]
  rfl

/-- Two collections that succeed: there was nothing to delete. -/
theorem nothingOld_of_twice (hi : Intact m t) (h : gcTimes 2 t = .ok t') : NothingOld t := by
  obtain ⟨⟨t₁, n₁⟩, hfirst, h⟩ := bind_eq_ok.mp h
  obtain ⟨⟨t₂, n₂⟩, hsecond, -⟩ := bind_eq_ok.mp h
  obtain ⟨s₁, hfold₁, heq⟩ := map_eq_ok.mp hfirst
  obtain ⟨s₂, hfold₂, -⟩ := map_eq_ok.mp hsecond
  cases heq
  obtain ⟨hsub, hgone⟩ := collected_of_foldlM (h := t.heap) (fun _ _ hs => hs) hfold₁
  obtain ⟨-, hread⟩ := collected_of_foldlM (s := (s₁.1, 0)) hsub hfold₂
  intro e he y v hnewer hv
  by_contra hmark
  have he' : (e.1.asBytes, e.2) ∈ (t.index .pk).scanAll := mem_map_of_mem he
  have hne : y ≠ e.2 := by
    rintro rfl
    obtain ⟨hcur, -⟩ := (hi.mem e).mp he
    obtain ⟨x, hx, w, hw, hnext⟩ := TransGen.tail'_iff.mp hnewer
    obtain ⟨w', hw', hdel⟩ := closed_reflTransGen (chains_unbroken hi.chains).down hcur.1 hx
    cases hw.symm.trans hw'
    exact hcur.2 ⟨x, w, hw, hi.chains.live x w hw hdel, hnext⟩
  -- the first collection has deleted the version, and the second has read it
  exact (hread _ he' y hnewer.to_reflTransGen).1
    ((hgone _ he' y hnewer.to_reflTransGen).2 v hv hmark hne)

/-- **Collections keep the rows exactly if they delete nothing**: on a table that a history reaches,
or whose chains and primary-key index are otherwise intact, any number of collections succeed and
keep what is to be kept if and only if no committed version lies behind the version of an entry. -/
theorem gc_keeps_rows_iff (d : DateParser) (ht : Reached d m t ∨ Intact m t) :
    (∀ k, ∃ t', gcTimes k t = .ok t' ∧ Keeps m t t') ↔ NothingOld t := by
  have hi := ht.elim Reached.intact id
  constructor
  · intro h
    obtain ⟨t', htwice, -⟩ := h 2
    exact nothingOld_of_twice hi htwice
  · intro hold k
    refine ⟨t, ?_, ⟨fun _ _ => rfl, fun _ _ _ _ => rfl, fun _ _ _ _ => rfl⟩⟩
    induction k with
    | zero => rfl
    | succ k ih =>
      rw [gcTimes, gcTable_eq hi hold]
      exact ih

end Collections

/-- A row is inserted, and the transaction is open. -/
theorem gc_keeps_rows_inserted :
    ∃ s', run (step noDates accounts) ⟨newTable, 0, none⟩
      [.begin, .row (.insert (some 0) [.int 1, .int 5])] = some s' ∧
      ∀ k, ∃ t', gcTimes k s'.table = .ok t' ∧ Keeps accounts s'.table t' := by
  obtain ⟨u, hu, hslots⟩ : ∃ u,
    runChecked (RowsOk noDates accounts) (step noDates accounts) ⟨newTable, 0, none⟩
    [.begin, .row (.insert (some 0) [.int 1, .int 5])] = some u ∧
      ∀ e ∈ (u.table.index .pk).entries,
      (u.table.heap.header? e.2).any (·.nextVersion = none) = true := by
    decide +kernel
  obtain ⟨hok, hrun⟩ := guarded_of_rows hu
  refine ⟨u, hrun, (gc_keeps_rows_iff noDates
    (.inl ⟨_, _, u, start_newTable accounts, hok, hrun, rfl⟩)).mpr ?_⟩
  intro e he y v hnewer _
  obtain ⟨x, ⟨w, hw, hnext⟩, -⟩ := TransGen.head'_iff.mp hnewer
  obtain ⟨w', hw', hnone⟩ := (Option.any_eq_true _ _).mp (hslots e he)
  cases hw.symm.trans hw'
  cases (decide_eq_true_iff.mp hnone).symm.trans hnext

/-- **A row is lost.** Its update is open: the collection deletes the committed version, and the row
is gone once the transaction is aborted. Its update is committed: the next scan skips the row, whose
slot has moved up to where the deleted version was, and a second collection fails. -/
theorem gc_loses_row :
    (∃ s', run (step noDates accounts) ⟨newTable, 0, none⟩ (transactions [setV 6]) = some s' ∧
      dataScan accounts (abortTable accounts 2 [⟨0, 1⟩] s'.table).1 noSummaries none [] =
        .ok [[.int 1, .int 5]] ∧
      ∃ p, gcTable s'.table = .ok p ∧
        dataScan accounts (abortTable accounts 2 [⟨0, 1⟩] p.1).1 noSummaries none [] = .ok []) ∧
      ∃ s', run (step noDates accounts) ⟨newTable, 0, none⟩ (transactions [setV 6] ++ [.commit]) = some s' ∧
        dataScan accounts s'.table noSummaries none [] = .ok [[.int 1, .int 6]] ∧
        ∃ p, gcTable s'.table = .ok p ∧ dataScan accounts p.1 noSummaries none [] = .ok [] ∧
          (gcTable p.1).isOk = false := by
  decide +kernel

end RTsql.Transaction.History

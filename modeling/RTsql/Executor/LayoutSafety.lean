import RTsql.Executor.DropColumn

/-!
# The layout a scan decodes with

A scan beside an `ALTER TABLE DROP COLUMN` returns the right values, if no scan with the old layout
reads while there are narrow tuples, and a scan with the new one begins where logical ids are
positions and has no snapshot of a time before the commit (`scan_returns_right_values`).

* A scan with the old layout reads only tuples of the table as it was before the statement: where it
  may read, the statement has no live tuple (`Clean`).
* A scan with the new layout reads only narrow tuples. All it meets of the old table is replaced
  (`Rewritten`), and of the versions that replace a tuple the one in the map suppresses it
  (`suppresses_entry`). The scan asks the map by position (`Positional`). -/

namespace RTsql.Executor.DropColumn

open List Option RTsql.Library RTsql.Storage RTsql.Transaction
open Heap (header?_eq_some)

variable {m : TableMeta} {removed base : ℕ} {active₀ : List ℕ} {old : Heap Tuple} {s s' : State}
  {c c' : Scan}

/-! ### The pages -/

/-- What is known of the table before the statement: `base` is the last transaction id then, and
`active₀` are the active transactions. -/
structure Before (m : TableMeta) (base : ℕ) (active₀ : List ℕ) (old : Heap Tuple) : Prop where
  wf : old.WF
  row : ∀ rid slot, old.slot? rid = some slot → slot.tuple.row = m.readRow slot.tuple.data
  ended : ∀ rid v, old.header? rid = some v → v.createTxId = 0 ∧ v.isDeleted = true ∨
    v.createTxId ≠ 0 ∧ v.mark ≠ .unset ∧ v.createTxId ≤ base ∧ v.createTxId ∉ active₀

theorem before_withRows {h : Heap Row} (hh : Ended h base active₀) :
    Before m base active₀ (withRows m h) := by
  refine ⟨Heap.wf_map.mpr hh.wf, fun rid slot hslot => ?_, fun rid v hv => ?_⟩
  · rw [withRows, Heap.slot?_map, map_eq_some_iff] at hslot
    obtain ⟨_, -, rfl⟩ := hslot
    rfl
  · rw [withRows, Heap.header?_map] at hv
    exact hh.committed rid (Heap.mem_rids_of_header hh.wf hv) v hv

/-- A slot that the statement has written: deleted, or a narrow tuple. -/
structure Own (m : TableMeta) (removed tx : ℕ) (slot : Slot Tuple) : Prop where
  creator : slot.header.createTxId = 0 ∨ slot.header.createTxId = tx
  narrow : slot.header.isDeleted = false → slot.header.createTxId = tx ∧ slot.header.nextVersion = none ∧
    slot.tuple.row.length = m.columns.length ∧ slot.tuple.data = slot.tuple.row.eraseIdx removed

/-- The slots of the table before the statement are as they were, and the others are the
statement's. -/
structure Pages (m : TableMeta) (removed : ℕ) (old : Heap Tuple) (tx : ℕ) (h : Heap Tuple) : Prop where
  wf : h.WF
  kept : ∀ rid slot, old.slot? rid = some slot → h.slot? rid = some slot
  own : ∀ rid slot, h.slot? rid = some slot → old.slot? rid = none → Own m removed tx slot

variable {tx k i j depth last : ℕ} {h : Heap Tuple} {rid tombstone x : RowId} {l : AlterStep}
  {v w : VersionHeader} {rest rids : List RowId} {slot : Slot Tuple} {active starting : List ℕ}
  {vis : VisMap} {p : ScanPhase}

theorem pages_old (hold : old.WF) (tx : ℕ) : Pages m removed old tx old :=
  ⟨hold, fun _ _ hs => hs, fun rid slot hs hnone => by simp [hs] at hnone⟩

variable (hp : Pages m removed old tx h)

include hp

theorem Pages.nextRid (page : ℕ) : old.slot? (h.nextRid page) = none := by
  cases hs : old.slot? (h.nextRid page) with
  | none => rfl
  | some slot =>
    have hnone := h.slot?_nextRid page
    simp [hp.kept _ _ hs] at hnone

theorem Pages.append {page : ℕ} (hslot : Own m removed tx slot) :
    Pages m removed old tx (h.append page slot) := by
  refine ⟨hp.wf.append page slot, fun rid sl hs => ?_, fun rid sl hs hnone => ?_⟩
  · rw [Heap.slot?_append, if_neg, hp.kept rid sl hs]
    intro heq
    rw [heq, hp.nextRid page] at hs
    cases hs
  · rw [Heap.slot?_append] at hs
    split at hs
    case isTrue => exact Option.some.inj hs ▸ hslot
    case isFalse => exact hp.own rid sl hs hnone

theorem Pages.setHeader (hrid : old.slot? rid = none)
    (hv : ∀ slot, h.slot? rid = some slot → Own m removed tx slot →
      Own m removed tx { slot with header := v }) :
    Pages m removed old tx (h.setHeader rid v) := by
  refine ⟨hp.wf.setHeader rid v, fun r sl hs => ?_, fun r sl hs hnone => ?_⟩
  · rw [Heap.slot?_setHeader, if_neg, hp.kept r sl hs]
    rintro rfl
    rw [hrid] at hs
    cases hs
  · rw [Heap.slot?_setHeader] at hs
    split at hs
    case isTrue =>
      obtain ⟨slot, hslot, rfl⟩ := map_eq_some_iff.mp hs
      exact hv slot hslot (hp.own rid slot hslot hrid)
    case isFalse => exact hp.own r sl hs hnone

omit hp

theorem own_tombstone (m : TableMeta) (removed tx : ℕ) (t : Tuple) :
    Own m removed tx ⟨tombstoneHeader tx, t⟩ :=
  ⟨.inr rfl, nofun⟩

theorem Own.linked (tx : ℕ) (rid : RowId) (t : Tuple) : Own m removed tx ⟨linkedHeader tx rid, t⟩ :=
  ⟨.inr rfl, nofun⟩

theorem Own.commit (ho : Own m removed tx slot) :
    Own m removed tx { slot with header := slot.header.commit tx } := by
  refine ⟨by simpa using ho.creator, fun hlive => ?_⟩
  have hslot : slot.header.isDeleted = false := by
    unfold VersionHeader.commit at hlive
    split at hlive
    case h_1 => exact hlive
    case h_2 hmark => simpa [VersionHeader.isDeleted] using hmark
  simpa using ho.narrow hslot

theorem Own.markAborted (slot : Slot Tuple) :
    Own m removed tx { slot with header := slot.header.markAborted } :=
  ⟨.inl rfl, nofun⟩

/-! ### The rows that are still to be rewritten -/

/-- A live tuple of the table before the statement. -/
def OldLive (old : Heap Tuple) (rid : RowId) : Prop :=
    ∃ slot, old.slot? rid = some slot ∧ slot.header.isDeleted = false

/-- All live tuples are replaced, apart from `rest`. -/
structure Rewritten (old h : Heap Tuple) (rest : List RowId) : Prop where
  replaced : ∀ rid, OldLive old rid → Replaced h rid ∨ rid ∈ rest
  live : ∀ rid ∈ rest, OldLive old rid

theorem rewritten_liveRows (hold : old.WF) : Rewritten old old (liveRows old) := by
  refine ⟨fun rid hlive => ?_, fun rid hrid => ?_⟩
  · obtain ⟨slot, hslot, hdel⟩ := hlive
    by_cases hrep : Replaced old rid
    · exact .inl hrep
    · exact .inr ((mem_liveRows hold).mpr
        ⟨⟨slot.header, header?_eq_some.mpr ⟨slot, hslot, rfl⟩, hdel⟩, hrep⟩)
  · obtain ⟨⟨v, hv, hdel⟩, -⟩ := (mem_liveRows hold).mp hrid
    obtain ⟨slot, hslot, rfl⟩ := header?_eq_some.mp hv
    exact ⟨slot, hslot, hdel⟩

theorem Rewritten.append (hr : Rewritten old h rest) (page : ℕ) (slot : Slot Tuple) :
    Rewritten old (h.append page slot) rest := by
  refine ⟨fun rid hlive => (hr.replaced rid hlive).imp_left ?_, hr.live⟩
  rintro ⟨x, v, hv, hcreate, hnext⟩
  refine ⟨x, v, ?_, hcreate, hnext⟩
  rw [Heap.header?_append, if_neg, hv]
  rintro rfl
  rw [h.header?_nextRid page] at hv
  cases hv

/-- A header is overwritten by one that refers to the same version. -/
theorem Rewritten.setHeader (hr : Rewritten old h rest)
    (hv : h.header? rid = some v) (hcreate : w.createTxId = v.createTxId)
    (hnext : v.nextVersion = none ∨ w.nextVersion = v.nextVersion) :
    Rewritten old (h.setHeader rid w) rest := by
  refine ⟨fun r hlive => (hr.replaced r hlive).imp_left ?_, hr.live⟩
  rintro ⟨x, u, hu, hc, hn⟩
  obtain rfl | hx := eq_or_ne x rid
  · cases hv.symm.trans hu
    refine ⟨x, w, by rw [h.header?_setHeader hv, if_pos rfl], hcreate ▸ hc, ?_⟩
    rcases hnext with hnone | hsame
    · simp [hn] at hnone
    · rw [hsame, hn]
  · exact ⟨x, u, by rw [h.header?_setHeader hv, if_neg hx, hu], hc, hn⟩

/-- The tombstone of a row refers to it. -/
theorem Rewritten.link (hr : Rewritten old h (rid :: rest)) (htx : tx ≠ 0)
    (hv : h.header? tombstone = some (tombstoneHeader tx)) :
    Rewritten old (h.setHeader tombstone (linkedHeader tx rid)) rest := by
  have hset := hr.setHeader hv (w := linkedHeader tx rid) rfl (.inl rfl)
  refine ⟨fun r hlive => ?_, fun r hr' => hr.live r (mem_cons_of_mem _ hr')⟩
  rcases hset.replaced r hlive with hrep | hmem
  · exact .inl hrep
  · rcases mem_cons.mp hmem with rfl | hmem
    · exact .inl ⟨tombstone, _, by rw [h.header?_setHeader hv, if_pos rfl], htx, rfl⟩
    · exact .inr hmem

/-! ### How far the statement has come -/

/-- What holds at each point of the statement. -/
def Progress (old : Heap Tuple) (s : State) : Prop :=
  match s.alter with
  | .ready | .allocated | .begun | .acquired | .published => s.heap = old
  | .rewriting rest => Rewritten old s.heap rest
  | .written tombstone rid rest | .tombstoned tombstone rid rest =>
    Rewritten old s.heap (rid :: rest) ∧ s.heap.header? tombstone = some (tombstoneHeader s.tx) ∧
      old.slot? tombstone = none
  | .linked rid rest => Rewritten old s.heap rest ∧ OldLive old rid
  | .inserted rid rest => Rewritten old s.heap rest ∧ old.slot? rid = none
  | .committing unmarked => Rewritten old s.heap [] ∧ ∀ rid ∈ unmarked, old.slot? rid = none
  | .committed | .narrowed | .installed | .done | .kept | .keptInstalled | .abandoned _ =>
    Rewritten old s.heap [] ∧ s.tx ∉ s.active
  | .undoing unmarked => ∀ rid ∈ unmarked, old.slot? rid = none
  | .failed | .rolledBack => True

/-- Transactions that were active before the statement, or began later. -/
def Later (base : ℕ) (active₀ ids : List ℕ) : Prop := ∀ x ∈ ids, x ∈ active₀ ∨ base < x

/-- The transaction ids. -/
structure Ids (base : ℕ) (active₀ : List ℕ) (s : State) : Prop where
  last : base ≤ s.lastTx
  active : Later base active₀ s.active
  starting : ∀ x ∈ s.starting, base < x ∧ x ≤ s.lastTx ∧ x ≠ s.tx
  tx_le : s.tx ≤ s.lastTx
  tx_gt : s.alter ≠ .ready → base < s.tx

/-- What every step keeps of the pages and of the statement. -/
structure Core (m : TableMeta) (removed base : ℕ) (active₀ : List ℕ) (old : Heap Tuple)
    (s : State) : Prop where
  pages : Pages m removed old s.tx s.heap
  ids : Ids base active₀ s
  recorded : ∀ rid ∈ s.recorded, old.slot? rid = none
  progress : Progress old s

/-- A step of the statement once its transaction has an id. -/
theorem Core.next (hc : Core m removed base active₀ old s) (ha : s.alter ≠ .ready)
    {a : Alter} (hactive : ∀ x ∈ active, x ∈ s.active ∨ x = s.tx) (hpages : Pages m removed old s.tx h)
    (hrecorded : ∀ rid ∈ rids, old.slot? rid = none)
    (hprogress : Progress old
      { s with heap := h, vis := vis, active := active, recorded := rids, alter := a }) :
    Core m removed base active₀ old
      { s with heap := h, vis := vis, active := active, recorded := rids, alter := a } := by
  have hgt := hc.ids.tx_gt ha
  refine ⟨hpages, { hc.ids with active := fun x hx => ?_, tx_gt := fun _ => hgt }, hrecorded, hprogress⟩
  rcases hactive x hx with hx | rfl
  · exact hc.ids.active x hx
  · exact .inr hgt

theorem not_mem_versionsCreatedBy (hb : Before m base active₀ old)
    (hc : Core m removed base active₀ old s) (hgt : base < s.tx)
    (hrid : rid ∈ s.heap.versionsCreatedBy s.tx) : old.slot? rid = none := by
  obtain ⟨v, hv, hcreate⟩ := (Heap.mem_versionsCreatedBy hc.pages.wf).mp hrid
  cases hs : old.slot? rid with
  | none => rfl
  | some slot =>
    have hslot := header?_eq_some.mpr ⟨slot, hc.pages.kept _ _ hs, rfl⟩
    cases hv.symm.trans hslot
    have hended := hb.ended rid _ (header?_eq_some.mpr ⟨slot, hs, rfl⟩)
    omega

/-- **The statement**: one step of it. -/
theorem Core.alterStep (hb : Before m base active₀ old) (hc : Core m removed base active₀ old s)
    (h : s.alterStep m removed l = some s') : Core m removed base active₀ old s' := by
  have hprogress := hc.progress
  unfold Progress at hprogress
  unfold State.alterStep at h
  split at h
  case h_1 _ _ ha =>
    cases h
    rw [ha] at hprogress
    refine ⟨?_, ⟨Nat.le_succ_of_le hc.ids.last, hc.ids.active, fun x hx => ?_, Nat.le_refl _,
      fun _ => Nat.lt_succ_of_le hc.ids.last⟩, hc.recorded, hprogress⟩
    · rw [hprogress]
      exact pages_old hb.wf _
    · obtain ⟨hgt, hle, -⟩ := hc.ids.starting x hx
      exact ⟨hgt, Nat.le_succ_of_le hle, Nat.ne_of_lt (Nat.lt_succ_of_le hle)⟩
  case h_2 _ _ ha =>
    cases h
    rw [ha] at hprogress
    refine hc.next (by simp [ha]) (fun x hx => ?_) hc.pages hc.recorded hprogress
    exact (mem_cons.mp hx).symm
  case h_5 _ _ ha =>
    cases h
    rw [ha] at hprogress
    refine hc.next (by simp [ha]) (fun _ => .inl) hc.pages hc.recorded ?_
    rw [hprogress]
    exact rewritten_liveRows hb.wf
  case h_6 _ _ page rid rest ha =>
    obtain ⟨-, rfl⟩ := of_guard h
    rw [ha] at hprogress
    refine hc.next (by simp [ha]) (fun _ => .inl) (hc.pages.append (own_tombstone ..)) hc.recorded ?_
    exact ⟨hprogress.append .., by rw [Heap.header?_append, if_pos rfl], hc.pages.nextRid page⟩
  case h_7 _ _ tombstone rid rest ha =>
    cases h
    rw [ha] at hprogress
    exact hc.next (by simp [ha]) (fun _ => .inl) hc.pages
      (forall_mem_cons.mpr ⟨hprogress.2.2, hc.recorded⟩) hprogress
  case h_8 _ _ tombstone rid rest ha =>
    cases h
    rw [ha] at hprogress
    obtain ⟨hrest, hheader, hnone⟩ := hprogress
    refine hc.next (by simp [ha]) (fun _ => .inl) (hc.pages.setHeader hnone fun _ _ _ => .linked ..)
      hc.recorded ⟨hrest.link ?_ hheader, hrest.live rid mem_cons_self⟩
    exact Nat.ne_of_gt (Nat.zero_lt_of_lt (hc.ids.tx_gt (by simp [ha])))
  case h_9 _ _ page rid rest ha =>
    split at h
    case h_1 slot hslot =>
      obtain ⟨-, rfl⟩ := of_guard h
      rw [ha] at hprogress
      obtain ⟨hrest, slot', hold, -⟩ := hprogress
      -- the tuple is the one that was there before the statement
      cases hslot.symm.trans (hc.pages.kept _ _ hold)
      have hrow := hb.row rid slot hold
      refine hc.next (by simp [ha]) (fun _ => .inl) (hc.pages.append ⟨.inr rfl, fun _ => ?_⟩) hc.recorded
        ⟨hrest.append .., hc.pages.nextRid page⟩
      exact ⟨rfl, rfl, by rw [hrow, TableMeta.length_readRow], by rw [hrow]⟩
    case h_2 => cases h
  case h_10 _ _ rid rest ha =>
    cases h
    rw [ha] at hprogress
    exact hc.next (by simp [ha]) (fun _ => .inl) hc.pages
      (forall_mem_cons.mpr ⟨hprogress.2, hc.recorded⟩) hprogress.1
  case h_11 _ _ ha =>
    cases h
    rw [ha] at hprogress
    exact hc.next (by simp [ha]) (fun _ => .inl) hc.pages hc.recorded ⟨hprogress, hc.recorded⟩
  case h_12 _ _ rid unmarked ha =>
    split at h
    case h_1 v hv =>
      obtain ⟨hmem, rfl⟩ := of_guard h
      rw [ha] at hprogress
      obtain ⟨hrest, hunmarked⟩ := hprogress
      refine hc.next (by simp [ha]) (fun _ => .inl)
        (hc.pages.setHeader (hunmarked rid hmem) fun slot hslot ho => ?_) hc.recorded
        ⟨hrest.setHeader hv (by simp) (.inr (by simp)), fun r hr => hunmarked r (mem_of_mem_erase hr)⟩
      cases hv.symm.trans (header?_eq_some.mpr ⟨slot, hslot, rfl⟩)
      exact ho.commit
    case h_2 => cases h
  case h_13 _ _ ha =>
    cases h
    rw [ha] at hprogress
    exact hc.next (by simp [ha]) (fun x hx => .inl (mem_filter.mp hx).1) hc.pages hc.recorded
      ⟨hprogress.1, fun hx => by simpa using (mem_filter.mp hx).2⟩
  case h_3 _ _ ha | h_4 _ _ ha | h_14 _ _ ha | h_15 _ _ ha | h_16 _ _ ha | h_17 _ _ ha | h_19 _ _ ha | h_20 _ _ ha
      | h_21 _ _ ha | h_22 _ _ ha =>
    cases h
    rw [ha] at hprogress
    exact hc.next (by simp [ha]) (fun _ => .inl) hc.pages hc.recorded hprogress
  case h_18 =>
    obtain ⟨hfail, rfl⟩ := of_guard h
    exact hc.next (fun ha => by simp [ha, Alter.canFail] at hfail)
      (fun _ => .inl) hc.pages hc.recorded trivial
  case h_23 _ _ ha =>
    cases h
    have hne : s.alter ≠ .ready := by simp [ha]
    refine hc.next hne (fun _ => .inl) hc.pages hc.recorded fun rid hrid => ?_
    rw [State.toUndo] at hrid
    split at hrid
    case isTrue => cases hrid
    case isFalse =>
      exact (mem_append.mp hrid).elim (hc.recorded rid)
        (not_mem_versionsCreatedBy hb hc (hc.ids.tx_gt hne))
  case h_24 _ _ rid unmarked ha =>
    split at h
    case h_1 v hv =>
      obtain ⟨hmem, rfl⟩ := of_guard h
      rw [ha] at hprogress
      refine hc.next (by simp [ha]) (fun _ => .inl)
        (hc.pages.setHeader (hprogress rid hmem) fun slot hslot _ => ?_) hc.recorded
        fun r hr => hprogress r (mem_of_mem_erase hr)
      cases hv.symm.trans (header?_eq_some.mpr ⟨slot, hslot, rfl⟩)
      exact .markAborted slot
    case h_2 => cases h
  case h_25 _ _ ha =>
    cases h
    exact hc.next (by simp [ha]) (fun x hx => .inl (mem_filter.mp hx).1) hc.pages hc.recorded trivial
  case h_26 => cases h

theorem alterStep_scans (h : s.alterStep m removed l = some s') : s'.scans = s.scans := by
  unfold State.alterStep at h
  all_goals
    repeat' split at h
    all_goals cases h
    all_goals rfl

/-- Once the new layout is installed nothing is written. -/
theorem alterStep_of_isInstalled (h : s.alterStep m removed l = some s')
    (hi : s.alter.isInstalled = true) :
    s'.alter.isInstalled = true ∧ s'.heap = s.heap ∧ s'.tx = s.tx := by
  unfold State.alterStep at h
  split at h
  case h_17 =>
    cases h
    exact ⟨rfl, rfl, rfl⟩
  case h_18 =>
    obtain ⟨hfail, -⟩ := ite_none_right_eq_some.mp h
    cases ha : s.alter <;> simp [ha, Alter.isInstalled, Alter.canFail] at hi hfail
  case h_26 => cases h
  all_goals
    rename_i ha
    rw [ha] at hi
    cases hi

theorem clean_iff (hwf : s.heap.WF) :
    Clean s ↔ ∀ rid v, s.heap.header? rid = some v → v.createTxId = s.tx → v.isDeleted = true := by
  refine ⟨fun hclean rid v hv => ?_, fun hclean rid _ v hv => hclean rid v hv⟩
  exact hclean rid (Heap.mem_rids_of_header hwf hv) v hv

/-- Where a scan with the old layout may read, the statement writes no live tuple unless it
publishes its state. -/
theorem alterStep_of_clean (hb : Before m base active₀ old) (hc : Core m removed base active₀ old s)
    (h : s.alterStep m removed l = some s') (hl : l ≠ .publish) (hp : s.alter.isPublished = false)
    (hclean : Clean s) : s'.alter.isPublished = false ∧ Clean s' := by
  have hprogress := hc.progress
  unfold Progress at hprogress
  unfold State.alterStep at h
  split at h
  case h_1 _ _ ha =>
    cases h
    rw [ha] at hprogress
    refine ⟨rfl, fun rid _ v hv hcreate => ?_⟩
    -- no version has the new id yet
    dsimp only at hv hcreate
    rw [hprogress] at hv
    have hended := hb.ended rid v hv
    have hlast := hc.ids.last
    omega
  case h_4 => exact absurd rfl hl
  case h_2 | h_3 | h_22 | h_23 | h_25 =>
    cases h
    exact ⟨rfl, hclean⟩
  case h_18 =>
    obtain ⟨-, rfl⟩ := of_guard h
    exact ⟨rfl, hclean⟩
  case h_24 _ _ rid unmarked ha =>
    split at h
    case h_1 v hv =>
      obtain ⟨-, rfl⟩ := of_guard h
      refine ⟨rfl, (clean_iff (hc.pages.wf.setHeader ..)).mpr fun r w hw hcreate => ?_⟩
      rw [s.heap.header?_setHeader hv] at hw
      split at hw
      case isTrue => exact Option.some.inj hw ▸ rfl
      case isFalse => exact (clean_iff hc.pages.wf).mp hclean r w hw hcreate
    case h_2 => cases h
  case h_26 => cases h
  all_goals
    rename_i ha
    rw [ha] at hp
    cases hp

/-! ### The map of a scan with the new layout -/

theorem versionLinks_eq (h : Heap Tuple) : versionLinks h = h.chain.flatMap (pageLinks h) := by
  rw [versionLinks, Heap.rids, filterMap_flatMap]
  rfl

/-- The map when `k` pages are read. -/
def mapAt (h : Heap Tuple) (k : ℕ) : RowId → Option (RowId × ℕ) :=
  ((h.chain.take k).flatMap (pageLinks h)).foldl addLink fun _ => none

theorem mapAt_succ {page : ℕ} (hk : h.chain[k]? = some page) :
    mapAt h (k + 1) = (pageLinks h page).foldl addLink (mapAt h k) := by
  rw [mapAt, take_add_one, hk]
  simp [mapAt]

theorem mapAt_length (hk : h.chain[k]? = none) : mapAt h k = supersededMap h := by
  rw [mapAt, take_of_length_le (getElem?_eq_none_iff.mp hk), ← versionLinks_eq]
  rfl

/-- A version that is not rolled back and refers to another one suppresses it, for a reader to whom
the statement's transaction is not active. -/
theorem suppresses_entry (hb : Before m base active₀ old) (hp : Pages m removed old tx h)
    (hv : h.header? x = some v) (hcreate : v.createTxId ≠ 0) (hnext : v.nextVersion ≠ none)
    {snapshot : Option Snapshot} (hactive : tx ∉ active ∧ Later base active₀ active)
    (hview : ∀ view ∈ snapshot, tx ∉ view.activeTxIds ∧ base ≤ view.highWater ∧
      Later base active₀ view.activeTxIds) :
    suppresses snapshot active v = true := by
  obtain ⟨slot, hslot, rfl⟩ := header?_eq_some.mp hv
  cases hold : old.slot? x with
  | none =>
    -- a tombstone of the statement
    have hown := hp.own x slot hslot hold
    have hdel : slot.header.isDeleted = true := by
      cases hd : slot.header.isDeleted with
      | true => rfl
      | false => exact absurd (hown.narrow hd).2.1 hnext
    have htx := hown.creator.resolve_left hcreate
    rw [htx] at hcreate
    cases snapshot with
    | none => simp [suppresses, hcreate, hdel, htx, hactive.1]
    | some view => simp [suppresses, hcreate, hdel, htx, Snapshot.containsActiveTx, (hview view rfl).1]
  | some slot' =>
    cases hslot.symm.trans (hp.kept x slot' hold)
    have hended := hb.ended x slot.header (header?_eq_some.mpr ⟨slot, hold, rfl⟩)
    obtain ⟨-, hmark, hle, hnot⟩ := hended.resolve_left fun hz => hcreate hz.1
    -- it is not among transactions that were active before, or that began later
    have later : ∀ ids, Later base active₀ ids → slot.header.createTxId ∉ ids := by
      intro ids hids hmem
      rcases hids _ hmem with hin | hlt
      · exact hnot hin
      · omega
    obtain ⟨commit, hcommit⟩ := ne_none_iff_exists'.mp (mt VersionHeader.commitTxId_eq_none.mp hmark)
    cases snapshot with
    | none => simp [suppresses, hcreate, later active hactive.2, hcommit]
    | some view =>
      obtain ⟨-, hhigh, hids⟩ := hview view rfl
      simp [suppresses, hcreate, Snapshot.containsActiveTx, Snapshot.isVisible, later _ hids, hcommit,
        Nat.le_trans hle hhigh]

/-! ### Scans -/

/-- The scan has not looked up the table yet. -/
def ScanPhase.unopened : ScanPhase → Bool
  | viewing _ _ | opening => true
  | _ => false

/-- The slot the scan is at holds no live tuple of the table before the statement. -/
def AtNarrow (old : Heap Tuple) (s : State) (c : Scan) : Prop :=
  ∀ page, s.heap.chain[c.page]? = some page → ¬ OldLive old ⟨page, c.slot⟩

/-- What a scan with the new layout has found out. -/
def Found (old : Heap Tuple) (s : State) (c : Scan) : Prop :=
  match c.phase with
  | .mapping k links => links = mapAt s.heap k
  | .walking rid _ => ∀ page, s.heap.chain[c.page]? = some page → OldLive old ⟨page, c.slot⟩ →
      ∃ creator, supersededMap s.heap ⟨page, c.slot⟩ = some (rid, creator)
  | .looking | .fetching _ => AtNarrow old s c
  | _ => True

theorem Found.at_phase (h : Found old s c) (hp : c.phase = p) : Found old s { c with phase := p } := by
  subst hp
  exact h

/-- A scan with the new layout. -/
structure NewScan (base : ℕ) (active₀ : List ℕ) (old : Heap Tuple) (s : State) (c : Scan) : Prop where
  positional : Positional s.heap
  view : ∀ view ∈ c.snapshot, s.tx ∉ view.activeTxIds
  active : ∀ ids ∈ c.active, s.tx ∉ ids ∧ Later base active₀ ids
  map : ∀ links ∈ c.map, links = supersededMap s.heap
  found : Found old s c

/-- What holds of a scan. -/
structure ScanInv (removed base : ℕ) (active₀ : List ℕ) (old : Heap Tuple) (s : State) (c : Scan) :
    Prop where
  out : ∀ r ∈ c.out, r.1 = if c.narrow then r.2.eraseIdx removed else r.2
  view : ∀ view ∈ c.snapshot, base ≤ view.highWater ∧ Later base active₀ view.activeTxIds
  viewing : ∀ self active, c.phase = .viewing self active → Later base active₀ active
  unopened : c.phase.unopened = true → c.narrow = false ∧ c.map = none ∧ c.active = none ∧ c.out = []
  wide : c.narrow = false → c.phase.inside = true → s.alter.isPublished = false ∧ Clean s
  narrow : c.narrow = true → s.alter.isInstalled = true ∧ NewScan base active₀ old s c

variable (hi : ScanInv removed base active₀ old s c)

include hi

/-- A step of a scan that has looked up the table, and returns nothing. -/
theorem ScanInv.next
    {map : Option (RowId → Option (RowId × ℕ))} {ids : Option (List ℕ)} (hopened : p.unopened = false)
    (hwide : c.narrow = false → p.inside = true → s.alter.isPublished = false ∧ Clean s)
    (hnew : s.alter.isInstalled = true → NewScan base active₀ old s c →
      NewScan base active₀ old s
        { c with phase := p, page := i, slot := j, map := map, active := ids }) :
    ScanInv removed base active₀ old s
      { c with phase := p, page := i, slot := j, map := map, active := ids } := by
  refine ⟨hi.out, hi.view, fun self active hphase => ?_, fun hun => ?_, hwide,
    fun hn => ⟨(hi.narrow hn).1, hnew (hi.narrow hn).1 (hi.narrow hn).2⟩⟩
  · cases hphase
    cases hopened
  · cases hopened.symm.trans hun

/-- A scan moves within the table. -/
theorem ScanInv.move (hp : p.unopened = false)
    (hwide : c.narrow = false → s.alter.isPublished = false ∧ Clean s)
    (hfound : s.alter.isInstalled = true → NewScan base active₀ old s c →
      Found old s { c with phase := p, page := i, slot := j }) :
    ScanInv removed base active₀ old s { c with phase := p, page := i, slot := j } :=
  hi.next hp (fun hn _ => hwide hn) fun hinst hn => { hn with found := hfound hinst hn }

theorem ScanInv.wideAt (hphase : c.phase = p)
    (hp : p.inside = true) (hn : c.narrow = false) : s.alter.isPublished = false ∧ Clean s :=
  hi.wide hn (hphase ▸ hp)

omit hi

/-- Once the new layout is installed all live tuples are replaced, and the transaction has ended. -/
theorem Core.installed (hc : Core m removed base active₀ old s) (hi : s.alter.isInstalled = true) :
    (∀ rid, OldLive old rid → Replaced s.heap rid) ∧ s.tx ∉ s.active := by
  have hprogress : Rewritten old s.heap [] ∧ s.tx ∉ s.active := by
    have hp := hc.progress
    unfold Progress at hp
    cases ha : s.alter <;> rw [ha] at hi hp <;> first | exact hp | cases hi
  refine ⟨fun rid hlive => ?_, hprogress.2⟩
  exact (hprogress.1.replaced rid hlive).resolve_right not_mem_nil

/-- A scan with the new layout passes over a live tuple of the table before the statement: it is
superseded. -/
theorem NewScan.atNarrow (hb : Before m base active₀ old) (hc : Core m removed base active₀ old s)
    (hinstalled : s.alter.isInstalled = true)
    (hview : ∀ view ∈ c.snapshot, base ≤ view.highWater ∧ Later base active₀ view.activeTxIds)
    (hn : NewScan base active₀ old s c) (hphase : c.phase = .walking rid depth)
    (hactive : c.active = some active) (hv : s.heap.header? rid = some v)
    (hsup : suppresses c.snapshot active v = false) : AtNarrow old s c := by
  intro page hpage hlive
  obtain ⟨creator, hmap⟩ := hn.found.at_phase hphase page hpage hlive
  obtain ⟨x, w, hmap', hw, hcreate, hnext⟩ :=
    supersededMap_of_replaced hc.pages.wf ((hc.installed hinstalled).1 _ hlive)
  rw [hmap] at hmap'
  obtain ⟨rfl, rfl⟩ := hmap'
  cases hv.symm.trans hw
  have htrue : suppresses c.snapshot active v = true :=
    suppresses_entry hb hc.pages hw hcreate (by simp [hnext]) (hn.active active hactive) fun view hmem =>
      ⟨hn.view view hmem, hview view hmem⟩
  cases hsup.symm.trans htrue

@[simp] theorem unopened_afterMap (c : Scan) : c.afterMap.phase.unopened = false := by
  cases ha : c.active.isSome <;> simp [Scan.afterMap, ScanPhase.unopened, ha]

theorem found_afterMap (old : Heap Tuple) (s : State) (c : Scan) : Found old s c.afterMap := by
  cases ha : c.active.isSome <;> simp [Found, Scan.afterMap, ha]

include hi

theorem ScanInv.nextPage (more : Bool) (hwide : c.narrow = false → s.alter.isPublished = false ∧
    Clean s) : ScanInv removed base active₀ old s (c.nextPage more) := by
  cases more with
  | true | false => exact hi.move rfl hwide fun _ _ => trivial

theorem ScanInv.skip (hwide : c.narrow = false → s.alter.isPublished = false ∧ Clean s) :
    ScanInv removed base active₀ old s c.skip :=
  hi.move rfl hwide fun _ _ => trivial

omit hi

theorem Positional.id_eq (hd : Positional h) {page id : ℕ} (hpage : page ∈ h.chain)
    (hget : (h.slots page)[i]? = some (id, slot)) : id = i := by
  have hid : ((h.slots page).map Prod.fst)[i]? = some id := by rw [getElem?_map, hget, Option.map_some]
  rw [hd page hpage] at hid
  obtain ⟨hlt, hi⟩ := List.getElem?_eq_some_iff.mp hid
  rw [← hi, getElem_range]

section Fetch

variable (hpk : removed ≠ m.pkIndex) {page : ℕ}

variable (hb : Before m base active₀ old) (hremoved : removed < m.columns.length)
  (hc : Core m removed base active₀ old s)

include hb hremoved hc

/-- **What is read**: a live tuple has the layout that the scan decodes it with. -/
theorem values_eq (hslot : s.heap.slot? rid = some slot) (hlive : slot.header.isDeleted = false)
    (hwide : c.narrow = false → Clean s) (hnarrow : c.narrow = true → ¬ OldLive old rid) :
    (if c.narrow then (m.narrowed removed hpk).readRow slot.tuple.data else m.readRow slot.tuple.data) =
      if c.narrow then slot.tuple.row.eraseIdx removed else slot.tuple.row := by
  cases hold : old.slot? rid with
  | none =>
    obtain ⟨hcreate, -, hlength, hdata⟩ := (hc.pages.own _ slot hslot hold).narrow hlive
    cases hn : c.narrow with
    | true => simp [hdata, TableMeta.readRow_narrowed hremoved hlength]
    | false =>
      have hdel := (clean_iff hc.pages.wf).mp (hwide hn) _ _
        (header?_eq_some.mpr ⟨slot, hslot, rfl⟩) hcreate
      cases hlive.symm.trans hdel
  | some slot' =>
    cases hslot.symm.trans (hc.pages.kept _ slot' hold)
    cases hn : c.narrow with
    | true => exact absurd ⟨slot, hold, hlive⟩ (hnarrow hn)
    | false => simp [hb.row _ slot hold]

theorem ScanInv.fetch (hi : ScanInv removed base active₀ old s c)
    (hpage : s.heap.chain[c.page]? = some page) {info : Option PageVisibilityInfo}
    (hphase : c.phase = .fetching info) (matched : Bool) : ScanInv removed base active₀ old s
      (c.fetch m (m.narrowed removed hpk) s page info matched) := by
  have hwide := hi.wideAt hphase rfl
  unfold Scan.fetch
  split
  case isTrue => exact hi.nextPage _ hwide
  split
  case h_1 =>
    unfold Scan.atEnd
    split
    case isTrue => exact hi.move rfl hwide fun _ _ => trivial
    case isFalse => exact hi.nextPage _ hwide
  case h_2 id slot hget =>
    have hslot : s.heap.slot? ⟨page, id⟩ = some slot :=
      (Heap.slot?_eq_some hc.pages.wf).mpr (mem_of_getElem? hget)
    split
    case isTrue => exact hi.skip hwide
    split
    case isTrue => exact hi.skip hwide
    split
    case isFalse => exact hi.skip hwide
    case isTrue hlive _ _ =>
      have hnarrow : c.narrow = true → ¬ OldLive old ⟨page, id⟩ := by
        intro hn
        have hscan := (hi.narrow hn).2
        rw [hscan.positional.id_eq (mem_of_getElem? hpage) hget]
        exact hscan.found.at_phase hphase page hpage
      have hvalues := values_eq hpk hb hremoved hc hslot (by simpa using hlive)
        (fun hn => (hwide hn).2) hnarrow
      exact ⟨forall_mem_append.mpr ⟨hi.out, forall_mem_singleton.mpr hvalues⟩, hi.view, by simp,
        by simp [ScanPhase.unopened], by simp [ScanPhase.inside],
        fun hn => ⟨(hi.narrow hn).1, { (hi.narrow hn).2 with found := trivial }⟩⟩

end Fetch

/-- **A scan**: one step of it. -/
theorem ScanInv.step (hb : Before m base active₀ old) (hremoved : removed < m.columns.length)
    (hpk : removed ≠ m.pkIndex) (hc : Core m removed base active₀ old s)
    (hi : ScanInv removed base active₀ old s c)
    {l : ScanStep} (h : c.step m (m.narrowed removed hpk) s l = some c')
    (hcall : l = .call → c.narrow = true ∨ s.alter.isPublished = true ∨ Clean s)
    (hopen : l = .open → s.alter.isInstalled = true →
      Positional s.heap ∧ ∀ view ∈ c.snapshot, s.tx ∉ view.activeTxIds) :
    ScanInv removed base active₀ old s c' := by
  unfold Scan.step at h
  split at h
  case h_1 _ _ self active hphase =>
    cases h
    obtain ⟨hnarrow, hmap, hactive, hout⟩ := hi.unopened (by rw [hphase]; rfl)
    refine ⟨?_, fun view hview => ?_, nofun, fun _ => ⟨hnarrow, hmap, hactive, hout⟩, nofun,
      fun hn => ?_⟩
    · exact hi.out
    · cases hview
      exact ⟨hc.ids.last, hi.viewing self active hphase⟩
    · exact absurd (hnarrow.symm.trans hn) nofun
  case h_2 _ _ hphase =>
    cases h
    obtain ⟨-, hmap, hactive, hout⟩ := hi.unopened (by rw [hphase]; rfl)
    refine ⟨fun r hr => ?_, hi.view, nofun, nofun, nofun, fun hn => ⟨hn, ?_⟩⟩
    · rw [hout] at hr
      cases hr
    · refine ⟨(hopen rfl hn).1, (hopen rfl hn).2, fun ids hids => ?_, fun links hlinks => ?_, trivial⟩
      · cases hactive.symm.trans hids
      · cases hmap.symm.trans hlinks
  case h_3 _ _ hphase =>
    cases h
    split
    case isTrue => exact hi.next rfl (fun _ => nofun) fun _ hn => { hn with found := trivial }
    case isFalse hpub =>
      rw [Bool.not_eq_true] at hpub
      have hwide : c.narrow = false → s.alter.isPublished = false ∧ Clean s := by
        intro hn
        rcases hcall rfl with hn' | hpub' | hclean
        · exact absurd (hn.symm.trans hn') nofun
        · exact absurd (hpub.symm.trans hpub') nofun
        · exact ⟨hpub, hclean⟩
      split
      case isTrue =>
        exact hi.move (unopened_afterMap c) hwide fun _ _ => found_afterMap ..
      case isFalse => exact hi.move rfl hwide fun _ _ => rfl
  case h_4 _ _ k links hphase =>
    cases h
    have hwide := hi.wideAt hphase rfl
    have hlinks : NewScan base active₀ old s c → links = mapAt s.heap k :=
      fun hn => hn.found.at_phase hphase
    split
    case h_1 page hpage =>
      refine hi.move rfl hwide fun _ hn => ?_
      dsimp only [Found]
      rw [mapAt_succ hpage, hlinks hn]
    case h_2 hpage =>
      refine hi.next (unopened_afterMap { c with map := some links })
        (fun hn _ => hwide hn) fun _ hn => ?_
      refine ⟨hn.positional, hn.view, hn.active, fun ls hls => ?_, found_afterMap ..⟩
      rw [← mapAt_length hpage, ← hlinks hn]
      exact (Option.some.inj hls).symm
  case h_5 _ _ hphase =>
    cases h
    refine hi.next rfl (fun hn _ => hi.wide hn (by rw [hphase]; rfl)) fun hinst hn => ?_
    refine ⟨hn.positional, hn.view, fun ids hids => ?_, hn.map, trivial⟩
    cases hids
    exact ⟨(hc.installed hinst).2, hc.ids.active⟩
  case h_6 _ _ hphase =>
    have hwide := hi.wideAt hphase rfl
    obtain ⟨links, hmap, rfl⟩ := map_eq_some_iff.mp h
    split
    case h_1 => exact hi.move rfl hwide fun _ _ => trivial
    case h_2 page hpage =>
      split
      case h_1 rid creator hentry =>
        refine hi.move rfl hwide fun _ hn => ?_
        intro page' hpage' _
        cases hpage.symm.trans hpage'
        exact ⟨creator, hn.map links hmap ▸ hentry⟩
      case h_2 hentry =>
        refine hi.move rfl hwide fun hinst hn => ?_
        -- a live tuple of the table before the statement would have an entry
        intro page' hpage' hlive
        cases hpage.symm.trans hpage'
        obtain ⟨x, v, hx, -⟩ := supersededMap_of_replaced hc.pages.wf ((hc.installed hinst).1 _ hlive)
        rw [← hn.map links hmap, hentry] at hx
        cases hx
  case h_7 _ _ rid depth hphase =>
    have hwide := hi.wideAt hphase rfl
    split at h
    case h_2 => cases h
    case h_1 links active hmap hactive =>
      cases h
      split
      case h_1 => exact hi.move rfl hwide fun _ _ => trivial
      case h_2 v hv =>
        split
        case isTrue => exact hi.skip hwide
        case isFalse hsup =>
          rw [Bool.not_eq_true] at hsup
          have hnarrow : s.alter.isInstalled = true → NewScan base active₀ old s c → AtNarrow old s c :=
            fun hinst hn => hn.atNarrow hb hc hinst hi.view hphase hactive hv hsup
          split
          case h_1 =>
            exact hi.move rfl hwide hnarrow
          case h_2 =>
            split
            case isTrue => exact hi.move rfl hwide fun _ _ => trivial
            case isFalse =>
              refine hi.move rfl hwide fun hinst hn => ?_
              exact fun page hpage hlive => absurd hlive (hnarrow hinst hn page hpage)
  case h_8 _ _ hphase =>
    obtain ⟨page, hpage, rfl⟩ := map_eq_some_iff.mp h
    exact hi.move rfl (hi.wideAt hphase rfl) fun _ hn => (hn.found.at_phase hphase :)
  case h_9 _ _ matched info hphase =>
    obtain ⟨page, hpage, rfl⟩ := map_eq_some_iff.mp h
    exact hi.fetch hpk hb hremoved hc hpage hphase matched
  case h_10 _ _ more hphase =>
    have hwide := hi.wideAt hphase rfl
    split at h
    case h_2 => cases h
    case h_1 =>
      cases h
      split
      case isTrue => exact hi.move rfl hwide fun _ _ => trivial
      case isFalse => exact hi.nextPage _ hwide
  case h_11 _ _ more hphase =>
    cases h
    exact hi.nextPage _ (hi.wideAt hphase rfl)
  case h_12 => cases h

/-! ### Runs -/

/-- A scan that does not move. -/
theorem ScanInv.frame (hi : ScanInv removed base active₀ old s c)
    (hwide : s.alter.isPublished = false → Clean s → c.phase.inside = true → c.narrow = false →
      s'.alter.isPublished = false ∧ Clean s')
    (hnarrow : s.alter.isInstalled = true → s'.alter.isInstalled = true ∧ s'.heap = s.heap ∧
      s'.tx = s.tx) :
    ScanInv removed base active₀ old s' c := by
  refine ⟨hi.out, hi.view, hi.viewing, hi.unopened, fun hn hin => ?_, fun hn => ?_⟩
  · obtain ⟨hpub, hclean⟩ := hi.wide hn hin
    exact hwide hpub hclean hin hn
  · obtain ⟨hinst, hscan⟩ := hi.narrow hn
    obtain ⟨hinst', hheap, htx⟩ := hnarrow hinst
    refine ⟨hinst', ⟨?_, ?_, ?_, ?_, ?_⟩⟩
    · rw [hheap]
      exact hscan.positional
    · rw [htx]
      exact hscan.view
    · rw [htx]
      exact hscan.active
    · rw [hheap]
      exact hscan.map
    · unfold Found AtNarrow
      rw [hheap]
      exact hscan.found

/-- What every allowed step keeps. -/
structure Inv (m : TableMeta) (removed base : ℕ) (active₀ : List ℕ) (old : Heap Tuple) (s : State) :
    Prop where
  core : Core m removed base active₀ old s
  scans : ∀ c ∈ s.scans, ScanInv removed base active₀ old s c

/-- A step that does not concern the table. -/
theorem Inv.frame (hi : Inv m removed base active₀ old s) {scans : List Scan}
    (hids : Ids base active₀
      { s with vis := vis, lastTx := last, starting := starting, active := active, scans := scans })
    (hactive : s.tx ∉ s.active → s.tx ∉ active) (hscans : ∀ c ∈ scans, ScanInv removed base active₀ old s c) :
    Inv m removed base active₀ old
      { s with vis := vis, lastTx := last, starting := starting, active := active, scans := scans } := by
  refine ⟨⟨hi.core.pages, hids, hi.core.recorded, ?_⟩, fun c hc => (hscans c hc).frame
    (fun hpub hclean _ _ => ⟨hpub, hclean⟩) fun hinst => ⟨hinst, rfl, rfl⟩⟩
  have hp := hi.core.progress
  unfold Progress at hp ⊢
  dsimp only
  cases ha : s.alter <;> rw [ha] at hp <;> first | exact hp | exact ⟨hp.1, hactive hp.2⟩

theorem inv_init {h : Heap Row} (hh : Ended h base active₀) (vis : VisMap) :
    Inv m removed base active₀ (withRows m h) (init m h vis base active₀) :=
  ⟨⟨pages_old (before_withRows hh).wf _,
    ⟨Nat.le_refl _, fun _ => .inl, nofun, Nat.zero_le _, fun hne => absurd rfl hne⟩,
    nofun, rfl⟩, nofun⟩

theorem Inv.step (hb : Before m base active₀ old) (hremoved : removed < m.columns.length) (hpk : removed ≠ m.pkIndex)
    (hi : Inv m removed base active₀ old s) {label : Label} (hok : Ok s label)
    (h : step m removed hpk s label = some s') :
    Inv m removed base active₀ old s' := by
  have hids := hi.core.ids
  cases label with
  | allocate =>
    cases h
    refine hi.frame ⟨Nat.le_succ_of_le hids.last, hids.active, forall_mem_cons.mpr ⟨?_, fun x hx => ?_⟩,
      Nat.le_succ_of_le hids.tx_le, hids.tx_gt⟩ id hi.scans
    · exact ⟨Nat.lt_succ_of_le hids.last, Nat.le_refl _, Nat.ne_of_gt (Nat.lt_succ_of_le hids.tx_le)⟩
    · obtain ⟨hgt, hle, hne⟩ := hids.starting x hx
      exact ⟨hgt, Nat.le_succ_of_le hle, hne⟩
  | enter tx =>
    obtain ⟨hmem, rfl⟩ := of_guard h
    obtain ⟨hgt, -, hne⟩ := hids.starting tx hmem
    exact hi.frame ⟨hids.last, forall_mem_cons.mpr ⟨.inr hgt, hids.active⟩,
      fun x hx => hids.starting x (mem_filter.mp hx).1, hids.tx_le, hids.tx_gt⟩
      (fun hnot hx => (mem_cons.mp hx).elim hne.symm hnot) hi.scans
  | leave tx =>
    obtain ⟨-, rfl⟩ := of_unless h
    exact hi.frame ⟨hids.last, fun x hx => hids.active x (mem_filter.mp hx).1, hids.starting,
      hids.tx_le, hids.tx_gt⟩ (fun hnot hx => hnot (mem_filter.mp hx).1) hi.scans
  | alter l =>
    refine ⟨hi.core.alterStep hb h, fun c hc => ?_⟩
    rw [alterStep_scans h] at hc
    refine (hi.scans c hc).frame (fun hpub hclean hin hn => ?_) (alterStep_of_isInstalled h)
    refine alterStep_of_clean hb hi.core h ?_ hpub hclean
    rintro rfl
    rcases hok c hc with hn' | hout
    · exact absurd (hn.symm.trans hn') nofun
    · exact absurd (hin.symm.trans hout) nofun
  | start | startView self =>
    cases h
    refine hi.frame { hids with } id (forall_mem_append.mpr ⟨hi.scans, forall_mem_singleton.mpr ?_⟩)
    refine ⟨nofun, nofun, fun self' active heq => ?_, fun _ => ⟨rfl, rfl, rfl, rfl⟩, nofun, nofun⟩
    cases heq <;> exact hids.active
  | scan n l =>
    obtain ⟨c, hc, h⟩ := bind_eq_some_iff.mp h
    obtain ⟨c', hc', rfl⟩ := map_eq_some_iff.mp h
    refine hi.frame { hids with } id fun d hd => ?_
    rcases mem_or_eq_of_mem_set hd with hd | rfl
    · exact hi.scans d hd
    · refine (hi.scans c (mem_of_getElem? hc)).step hb hremoved hpk hi.core hc' ?_ ?_
      · rintro rfl
        exact hok c hc
      · rintro rfl
        exact hok c hc

/-- **Layout safety**: every row that a scan returns has in each column the value that the column
had in that row. -/
theorem scan_returns_right_values (m : TableMeta) (removed : ℕ) (hremoved : removed < m.columns.length)
    (hpk : removed ≠ m.pkIndex) (h : Heap Row) (vis : VisMap) (lastTx : ℕ) (active : List ℕ)
    (hh : Ended h lastTx active) (labels : List Label) (s : State)
    (hok : Guarded Ok (step m removed hpk) (init m h vis lastTx active) labels)
    (hrun : run (step m removed hpk) (init m h vis lastTx active) labels = some s) :
    RightValues removed s := by
  have hinv : Inv m removed lastTx active (withRows m h) s :=
    run_invariant (fun _ _ _ hi hok hs => hi.step (before_withRows hh) hremoved hpk hok hs)
      (inv_init hh vis) hok hrun
  exact fun c hc => (hinv.scans c hc).out

/-! ### A table of three columns -/

/-- The table with the rows `(1, 10, 20)` and `(2, 30, 40)`, inserted by transaction 1. -/
def twoRows : Heap Row :=
  Heap.onePage [⟨⟨1, .committed 1, none⟩, [.int 1, .int 10, .int 20]⟩,
    ⟨⟨1, .committed 1, none⟩, [.int 2, .int 30, .int 40]⟩]

/-- The statement rewrites the two rows, on page 0, and commits. -/
def rewriteTwo : List Label :=
  ([.collect, .tombstone 0, .record, .link, .insert 0, .record, .tombstone 0, .record, .link,
    .insert 0, .record, .commit,
    .mark ⟨0, 2⟩, .mark ⟨0, 3⟩, .mark ⟨0, 4⟩, .mark ⟨0, 5⟩, .leave, .narrow, .install,
    .clear] : List AlterStep).map .alter

/-- The statement, up to the point where it publishes its state. -/
def beginAlter : List Label := ([.begin, .enter, .acquire, .publish] : List AlterStep).map .alter

/-- The scan reads the first row of the table. -/
def firstRow (n : ℕ) : List Label :=
  ([.call, .map, .map, .capture, .test, .look, .fetch true] : List ScanStep).map (.scan n)

/-- The same after the statement, which has written the tombstones and the narrow tuples behind the
two rows. -/
def firstNarrowRow (n : ℕ) : List Label :=
  ([.call, .map, .map, .capture, .test, .walk, .test, .walk, .test, .look, .fetch true, .test,
    .look, .fetch true] : List ScanStep).map (.scan n)

/-- A page that recovery has rebuilt: of its two slots only the second one was committed. -/
def redoneRow : Heap Row :=
  ⟨[0], fun page => if page = 0 then
    [(1, ⟨⟨2, .committed 2, none⟩, [.int 1, .int 10, .int 20]⟩)] else []⟩

/-- The statement rewrites this row, and commits. -/
def rewriteOne : List Label :=
  ([.collect, .tombstone 0, .record, .link, .insert 0, .record, .commit, .mark ⟨0, 2⟩, .mark ⟨0, 3⟩,
    .leave, .narrow, .install, .clear] : List AlterStep).map .alter

theorem ended_twoRows : Ended twoRows 1 [] := ⟨Heap.wf_onePage _, by decide⟩

/-- A scan that is refused while the statement is under way, and one of a statement that begins
afterwards. -/
theorem scan_returns_right_values_refused :
    ∃ s, run (step threeColumns 1 (by decide)) (init threeColumns twoRows (fun _ => none) 1 [])
        (.start :: .scan 0 .open :: firstRow 0 ++ beginAlter ++ .scan 0 .call :: rewriteTwo ++
          .startView 0 :: .scan 1 .view :: .scan 1 .open :: firstNarrowRow 1) = some s ∧
      s.scans.map Scan.out = [[([.int 1, .int 10, .int 20], [.int 1, .int 10, .int 20])],
        [([.int 1, .int 20], [.int 1, .int 10, .int 20])]] ∧ RightValues 1 s :=
  exists_run (by decide +kernel) fun s hok hrun _ =>
    scan_returns_right_values threeColumns 1 (by decide) (by decide) twoRows _ 1
      [] ended_twoRows _ s hok hrun

/-- **Wrong values**: a scan is planned, the statement drops the column `a`, and then the scan is
read. It returns `(1, 20, NULL)` for the row `(1, 10, 20)`. On the rebuilt page a scan that begins
afterwards looks for a superseder of the id 0, and returns the wide tuple as `(1, 10)`. -/
theorem scan_returns_shifted_values :
    (∃ s, run (step threeColumns 1 (by decide)) (init threeColumns twoRows (fun _ => none) 1 [])
        (.start :: .scan 0 .open :: beginAlter ++ rewriteTwo ++ firstNarrowRow 0) = some s ∧
      s.scans.map Scan.out = [[([.int 1, .int 20, .null], [.int 1, .int 10, .int 20])]] ∧
      ¬ RightValues 1 s) ∧
    ∃ s, run (step threeColumns 1 (by decide)) (init threeColumns redoneRow (fun _ => none) 2 [])
        (beginAlter ++ rewriteOne ++ .start :: .scan 0 .open :: firstRow 0) = some s ∧
      s.scans.map Scan.out = [[([.int 1, .int 10], [.int 1, .int 10, .int 20])]] ∧
      ¬ RightValues 1 s := by
  decide +kernel

end RTsql.Executor.DropColumn

import RTsql.Executor.ChainScan
import RTsql.Transaction.VersionMarks

/-!
# The rows of a table

A reader who sees every version that is not aborted gets from `DataScanExecutor` the
current versions: of the versions above a version, the map of superseded versions
holds the one that is not aborted if there is one, and that one suppresses it.

The primary-key index has an entry for every current version that has a key. So, where every
row has a key, the entries are another way to the same rows.
-/

namespace RTsql.Transaction.History

open Option RTsql.Executor RTsql.Library RTsql.Storage

/-! ### Reading the data pages -/

/-- The reader sees every version that is not aborted: it is visible, and what it replaces is
suppressed. -/
def SeesAll (h : Heap Row) (snapshot : Option Snapshot) (active : List ℕ) : Prop :=
  ∀ r v, h.header? r = some v → v.createTxId ≠ 0 →
    (v.isDeleted = false → visible snapshot v = true) ∧
      (v.nextVersion ≠ none → suppresses snapshot active v = true)

section Scan

variable {h : Heap Row} {running : Option ℕ} {snapshot : Option Snapshot} {active : List ℕ}
  {vis : VisMap} {r : RowId}

/-- A version that was replaced is skipped. -/
theorem superseded_of_replaced (hwf : h.WF) (hsees : SeesAll h snapshot active) (hr : Replaced h r) :
    superseded h snapshot active r = .ok true := by
  obtain ⟨y, w, hm, hw, hwlive, hwnext⟩ := supersededMap_of_replaced hwf hr
  have hsup := (hsees y w hw hwlive).2 (by rw [hwnext]; nofun)
  rw [superseded, hm]
  show walk h _ _ (63 + 1) y = _
  rw [walk, hw]
  simp only [hsup, if_true]

variable (hwf : h.WF) (hl : Unbroken h) (hm : Marks running h)

include hwf hl hm

/-- A version that only aborted versions replace is not skipped. -/
theorem superseded_of_not_replaced (hr : ¬ Replaced h r) :
    superseded h snapshot active r = .ok false := by
  cases hmap : supersededMap h r with
  | none => rw [superseded, hmap]
  | some e =>
    obtain ⟨x, tx⟩ := e
    obtain ⟨v, hv, hnext⟩ := replaces_of_supersededMap hwf hmap
    have haborted : v.createTxId = 0 := by
      by_contra hlive
      exact hr ⟨x, v, hv, hlive, hnext⟩
    -- nothing replaces the aborted version: it was not inserted
    have hnone : supersededMap h x = none := by
      cases hmap' : supersededMap h x with
      | none => rfl
      | some e =>
        obtain ⟨y, tx'⟩ := e
        obtain ⟨w, hw, hwnext⟩ := replaces_of_supersededMap hwf hmap'
        by_cases hwlive : w.createTxId = 0
        · cases (hm.shallow y w x v hw hwlive hwnext hv haborted).symm.trans hnext
        · obtain ⟨v', hv', hdel⟩ := hl.down y w x hw hwlive hwnext
          rw [hv, Option.some.injEq] at hv'
          exact absurd haborted (hl.live x v hv (hv' ▸ hdel))
    rw [superseded, hmap]
    show walk h _ _ (63 + 1) x = _
    rw [walk, hv]
    simp only [suppresses, haborted, if_true, Bool.false_eq_true, if_false, hnone]

/-- **The scan** of a reader who sees every version that is not aborted yields the current
versions. -/
theorem scan_current (hd : h.Dense) (hsees : SeesAll h snapshot active)
    (hvis : ∀ page, pageAllInvisible (vis page) snapshot = false) :
    ∃ rids, scan h vis snapshot active = .ok rids ∧ rids.Nodup ∧ ∀ r, r ∈ rids ↔ Current h r := by
  have hok : ∀ r, ∃ b, superseded h snapshot active r = .ok b := by
    intro r
    by_cases hr : Replaced h r
    · exact ⟨true, superseded_of_replaced hwf hsees hr⟩
    · exact ⟨false, superseded_of_not_replaced hwf hl hm hr⟩
  have hyields : ∀ info r, yields h info snapshot r = (h.header? r).any fun v => !v.isDeleted := by
    intro info r
    rw [yields]
    cases hv : h.header? r with
    | none => rfl
    | some v =>
      cases hdel : v.isDeleted with
      | true => simp [hdel]
      | false => simp [hdel, (hsees r v hv (hl.live r v hv hdel)).1 hdel]
  refine ⟨_, scan_eq_filter hok hvis fun page r _ => (hyields _ r).trans (hyields none r).symm,
    (Heap.nodup_rids hwf).filter _, fun r => ?_⟩
  · rw [List.mem_filter, Bool.and_eq_true, hyields, any_eq_true]
    have hhead : r ∈ h.rids → (isHead h snapshot active r = true ↔ ¬ Replaced h r) := by
      intro hmem
      have hs := (Heap.mem_rids hwf).mp hmem
      by_cases hr : Replaced h r
      · simp [isHead_of_superseded hd hs (superseded_of_replaced hwf hsees hr), hr]
      · have hfree : superseded h snapshot active r = .ok false :=
          superseded_of_not_replaced hwf hl hm hr
        simp [isHead_of_superseded hd hs hfree, hr]
    constructor
    · rintro ⟨hmem, hrep, v, hv, hdel⟩
      exact ⟨⟨v, hv, by simpa using hdel⟩, (hhead hmem).mp hrep⟩
    · rintro ⟨⟨v, hv, hdel⟩, hrep⟩
      have hmem := Heap.mem_rids_of_header hwf hv
      exact ⟨hmem, (hhead hmem).mpr hrep, v, hv, by simp [hdel]⟩

end Scan

/-! ### Who sees every version -/

/-- A reader of the state: without a snapshot, when no transaction is running; or with a snapshot
that is not older than any transaction that has ended, and is the running transaction's if there is
one. -/
def Reads (s : State) (snapshot : Option Snapshot) (active : List ℕ) : Prop :=
  match snapshot with
  | none => s.running = none ∧ ∀ id ∈ active, s.lastTx < id
  | some view =>
    (∀ tx, s.running = some tx → view.txId = tx) ∧ s.lastTx ≤ view.highWater ∧
      ∀ id ∈ view.activeTxIds, s.lastTx < id ∨ s.running = some id

/-- The running transaction has updated no row. -/
def NoUpdates (s : State) : Prop :=
  ∀ r v, s.table.heap.header? r = some v → s.running = some v.createTxId → v.isDeleted = false →
    v.nextVersion = none

section Readers

variable {m : TableMeta} {s : State} {snapshot : Option Snapshot} {active : List ℕ}

variable {dense : Prop} (hinv : Inv m dense s)

include hinv

theorem bound_of_inv {r : RowId} {v : VersionHeader} (hv : s.table.heap.header? r = some v) :
    v.createTxId ≤ s.lastTx := by
  cases hinv with
  | idle hs _ => exact hs.bound r v hv
  | running hs _ hi => exact hs.bound_txInv hi hv

theorem wf_of_inv : s.table.heap.WF := by
  cases hinv with
  | idle hs _ => exact hs.wf
  | running _ _ hi => exact hi.wf

theorem linked_of_inv : Unbroken s.table.heap := by
  cases hinv with
  | idle hs _ => exact hs.linked
  | running _ _ hi => exact hi.linked

/-- A reader of the state sees every version that is not aborted. -/
theorem seesAll_of_reads (hm : Marks s.running s.table.heap) (hreads : Reads s snapshot active)
    (hno : NoUpdates s) : SeesAll s.table.heap snapshot active := by
  intro r v hv hlive
  have hbound := bound_of_inv hinv hv
  cases snapshot with
  | none =>
    obtain ⟨hidle, hactive⟩ := hreads
    refine ⟨fun _ => rfl, fun _ => ?_⟩
    have hout : v.createTxId ∉ active := fun hin => by
      have := hactive _ hin
      omega
    cases hdel : v.isDeleted with
    | true => simp [suppresses, hlive, hdel, hout]
    | false =>
      have hset : v.mark ≠ .unset := fun hunset => by
        rw [hm.unset r v hv hdel, hidle] at hunset
        cases hunset
      obtain ⟨c, hc⟩ := ne_none_iff_exists'.mp (mt VersionHeader.commitTxId_eq_none.mp hset)
      simp [suppresses, hlive, hdel, hc]
  | some view =>
    obtain ⟨hself, hhigh, hactive⟩ := hreads
    have hout : s.running ≠ some v.createTxId → v.createTxId ∉ view.activeTxIds := by
      intro hrun hin
      rcases hactive _ hin with hlt | hown
      · omega
      · exact hrun hown
    -- a version of another transaction, not deleted, carries a mark that the snapshot sees
    have hother : s.running ≠ some v.createTxId → v.isDeleted = false →
        ∃ c, v.commitTxId = some c ∧ view.isVisible v.createTxId (some c) = true := by
      intro hrun hdel
      have hset : v.mark ≠ .unset := fun hunset => hrun ((hm.unset r v hv hdel).mp hunset)
      obtain ⟨c, hc⟩ := ne_none_iff_exists'.mp (mt VersionHeader.commitTxId_eq_none.mp hset)
      exact ⟨c, hc, Snapshot.isVisible_iff.mpr ⟨nofun, hbound.trans hhigh, hout hrun⟩⟩
    by_cases hrun : s.running = some v.createTxId
    · refine ⟨fun hdel => ?_, fun hnext => ?_⟩
      · have hnone := VersionHeader.commitTxId_eq_none.mpr ((hm.unset r v hv hdel).mpr hrun)
        simp [visible, Snapshot.isVisibleSelf, hnone, hself _ hrun]
      · cases hdel : v.isDeleted with
        | true => simp [suppresses, hlive, hdel, hself _ hrun]
        | false => exact absurd (hno r v hv hrun hdel) hnext
    · refine ⟨fun hdel => ?_, fun _ => ?_⟩
      · obtain ⟨c, hc, hvis⟩ := hother hrun hdel
        simp [visible, hc, hvis]
      · cases hdel : v.isDeleted with
        | true => simp [suppresses, hlive, hdel, Snapshot.containsActiveTx, hout hrun]
        | false =>
          obtain ⟨c, hc, hvis⟩ := hother hrun hdel
          simp [suppresses, hlive, hdel, hc, hvis]

end Readers

/-! ### The entries of the primary-key index -/

/-- The primary-key index has one entry for every current version, and no other. -/
structure Keyed (m : TableMeta) (t : Table) : Prop where
  /-- No entry is there twice. -/
  nodup : (t.index .pk).entries.Nodup
  sound : (t.index .pk).Sound true
  mem : ∀ e, e ∈ (t.index .pk).entries ↔ Current t.heap e.2 ∧ t.heap.keyOf m .pk e.2 = some e.1
  /-- Every current version has a key. -/
  key : ∀ r, Current t.heap r → t.heap.keyOf m .pk r ≠ none

section Keyed

variable {m : TableMeta} {t t₀ : Table} {tx : ℕ}

theorem entries_of_txInv (hr : Ready m tx t₀) (hi : TxInv m tx t₀ t) : (t.index .pk).entries.Nodup ∧
    (t.index .pk).Sound true ∧
      ∀ e, e ∈ (t.index .pk).entries ↔ Current t.heap e.2 ∧ t.heap.keyOf m .pk e.2 = some e.1 := by
  refine ⟨hi.indexed.nodup _ m.pk_mem_indexes, hi.pk_sound, fun e => ?_⟩
  rw [hi.indexed.mem _ m.pk_mem_indexes]
  exact or_iff_left fun hx => hx.2 (hr.pk _ _ hx.1)

theorem keyed_of_txInv (hr : Ready m tx t₀) (hi : TxInv m tx t₀ t)
    (hkey : ∀ r, Current t.heap r → t.heap.keyOf m .pk r ≠ none) : Keyed m t := by
  obtain ⟨hnd, hu, hmem⟩ := entries_of_txInv hr hi
  exact ⟨hnd, hu, hmem, hkey⟩

theorem keyed_of_inv {s : State} {dense : Prop} (hinv : Inv m dense s)
    (hkey : ∀ r, Current s.table.heap r → s.table.heap.keyOf m .pk r ≠ none) : Keyed m s.table := by
  cases hinv with
  | idle hs _ => exact keyed_of_txInv hs.ready hs.ready.txInv hkey
  | running hs _ hi => exact keyed_of_txInv hs.ready hi hkey

/-- A primary key has 32 bytes. -/
theorem length_of_keyOf {h : Heap Row} {r : RowId} {k : Key} (hk : h.keyOf m .pk r = some k) :
    k.data.length = maxKeyLen := by
  obtain ⟨b, hb, rfl⟩ := map_eq_some_iff.mp hk
  obtain ⟨s, -, hb⟩ := bind_eq_some_iff.mp hb
  refine Key.length_new ?_
  rw [TableMeta.rawKey] at hb
  cases hv : (m.readRow s.tuple).getD m.pkIndex .null with
  | int n =>
    rw [hv, Value.toKey, Option.some.injEq] at hb
    simp [← hb, toBeBytes, maxKeyLen]
  | _ =>
    rw [hv] at hb
    cases hb

/-- No two entries are those of one version. -/
theorem nodup_rids (hnd : (t.index .pk).entries.Nodup)
    (hmem : ∀ e, e ∈ (t.index .pk).entries ↔ Current t.heap e.2 ∧ t.heap.keyOf m .pk e.2 = some e.1) :
    ((t.index .pk).entries.map Prod.snd).Nodup := by
  refine hnd.map_on ?_
  intro e he e' he' heq
  have hkey := ((hmem e).mp he).2
  rw [heq, ((hmem e').mp he').2, Option.some.injEq] at hkey
  exact Prod.ext hkey.symm heq

/-- The row ids of the entries are those of the current versions. -/
theorem Keyed.perm (hk : Keyed m t) {rids : List RowId} (hnd : rids.Nodup)
    (hmem : ∀ r, r ∈ rids ↔ Current t.heap r) : ((t.index .pk).entries.map Prod.snd).Perm rids := by
  refine (List.perm_ext_iff_of_nodup (nodup_rids hk.nodup hk.mem) hnd).mpr fun r => ?_
  rw [hmem, List.mem_map]
  constructor
  · rintro ⟨e, he, rfl⟩
    exact ((hk.mem e).mp he).1
  · intro hc
    obtain ⟨k, hkr⟩ := ne_none_iff_exists'.mp (hk.key r hc)
    exact ⟨(k, r), (hk.mem (k, r)).mpr ⟨hc, hkr⟩, rfl⟩

end Keyed

end RTsql.Transaction.History

import RTsql.Executor.AccessPaths
import RTsql.Storage.SecondaryRange

/-!
# A row by its key, and by a scan

`IndexScanExecutor` looks a key up in the primary-key index and goes down the chain from the entry's
version to the first version that the snapshot sees (`BufferPool::find_visible_version`); without a
snapshot it takes the version of the entry. `DataScanExecutor` goes the other way: it takes the
versions that the snapshot sees, and looks for one above that suppresses them.

From a version that the scan yields, the versions above it that are not aborted are invisible to the
reader and not deleted (`Climb`). The uppermost of them is current, so it has the entry, and the
point read comes down the same way.

## What is proved

* `point_read_agrees` — where chains are intact, the index has the entries of the current versions,
  and no version that the reader does not see has changed a primary key or deleted a row, both find
  the same row of a key.
* `point_read_differs` — otherwise they do not.
-/

namespace RTsql.Transaction.History

open List Option RTsql.Executor RTsql.Library RTsql.Storage Relation

/-! ### The point read -/

section Executors

variable (m : TableMeta) (t : Table) (vis : VisMap) (snapshot : Option Snapshot)

/-- The version that `IndexScanExecutor` reads. -/
def pointVersion (b : Bytes) : Option RowId :=
  match (t.index .pk).search b, snapshot with
  | none, _ => none
  | some rid, none => some rid
  | some rid, some view => findVisibleVersion t vis view rid

/-- `IndexScanExecutor`. -/
def pointRead (b : Bytes) : Except ScanError (Option Row) :=
  match (t.index .pk).search b with
  | none => .ok none
  | some rid => scanEntry m t vis snapshot rid

end Executors

/-! ### Up and down a chain -/

/-- A version that the reader does not see, not aborted and not deleted, replaces `r`. -/
def HiddenBy (h : Heap Row) (snapshot : Option Snapshot) (r x : RowId) : Prop :=
  ∃ v, h.header? x = some v ∧ v.nextVersion = some r ∧ v.isDeleted = false ∧ visible snapshot v = false

/-- The versions `l` lie above `x`, each hidden from the reader, and the last of them is `r`. -/
def Climb (h : Heap Row) (snapshot : Option Snapshot) : RowId → List RowId → RowId → Prop
  | x, [], r => x = r
  | x, z :: l, r => HiddenBy h snapshot x z ∧ Climb h snapshot z l r

section Climb

variable {h : Heap Row} {snapshot : Option Snapshot} {active : List ℕ} {x r y z r' : RowId}
  {l l' : List RowId} {v : VersionHeader} {view : Snapshot}

variable (hc : Climb h snapshot x l r)

include hc

theorem Climb.concat (hz : HiddenBy h snapshot r z) : Climb h snapshot x (l ++ [z]) z := by
  induction l generalizing x with
  | nil =>
    obtain rfl : x = r := hc
    exact ⟨hz, rfl⟩
  | cons w l ih => exact ⟨hc.1, ih hc.2⟩

theorem Climb.hidden : ∀ y ∈ l, ∃ z, HiddenBy h snapshot z y := by
  induction l generalizing x with
  | nil => nofun
  | cons z l ih => exact forall_mem_cons.mpr ⟨⟨x, hc.1⟩, ih hc.2⟩

theorem Climb.eq_or_mem : (l = [] ∧ x = r) ∨ r ∈ l := by
  induction l generalizing x with
  | nil => exact .inl ⟨rfl, hc⟩
  | cons z l ih =>
    rcases ih hc.2 with ⟨rfl, rfl⟩ | hmem
    · exact .inr (mem_singleton_self z)
    · exact .inr (mem_cons_of_mem _ hmem)

omit hc

/-- What replaces a version is unique, apart from aborted versions. -/
theorem HiddenBy.eq (hl : Unbroken h) (hz : HiddenBy h snapshot x z)
    (hv : h.header? y = some v) (hlive : v.createTxId ≠ 0) (hnext : v.nextVersion = some x) : y = z := by
  obtain ⟨w, hw, hwnext, hdel, -⟩ := hz
  exact hl.unique y z x v w hv hw hlive (hl.live z w hw hdel) hnext hwnext

/-- A climb that has come to its end is the only one. -/
theorem Climb.unique (hl : Unbroken h) (hc : Climb h snapshot x l r)
    (hc' : Climb h snapshot x l' r') (hr : ¬ Replaced h r) (hr' : ¬ Replaced h r') : l = l' := by
  have hrep : ∀ {a b}, HiddenBy h snapshot a b → Replaced h a := by
    rintro a b ⟨v, hv, hnext, hdel, -⟩
    exact ⟨b, v, hv, hl.live b v hv hdel, hnext⟩
  induction l generalizing x l' with
  | nil =>
    obtain rfl : x = r := hc
    cases l' with
    | nil => rfl
    | cons z l' => exact absurd (hrep hc'.1) hr
  | cons z l ih =>
    cases l' with
    | nil =>
      obtain rfl : x = r' := hc'
      exact absurd (hrep hc.1) hr'
    | cons z' l' =>
      obtain ⟨v, hv, hnext, hdel, -⟩ := hc'.1
      obtain rfl := hc.1.eq hl hv (hl.live z' v hv hdel) hnext
      rw [ih hc.2 hc'.2]

theorem Climb.of_mem (hc : Climb h snapshot x l r) (hy : y ∈ l) :
    ∃ l', Climb h snapshot y l' r ∧ l'.length < l.length := by
  induction l generalizing x with
  | nil => cases hy
  | cons z l ih =>
    rcases mem_cons.mp hy with rfl | hy
    · exact ⟨l, hc.2, Nat.lt_succ_self _⟩
    · obtain ⟨l', hc', hlt⟩ := ih hc.2 hy
      exact ⟨l', hc', Nat.lt_succ_of_lt hlt⟩

/-- A climb comes to no version twice: from there it would have gone on in two ways. -/
theorem Climb.nodup (hl : Unbroken h) (hc : Climb h snapshot x l r) (hr : ¬ Replaced h r) : l.Nodup := by
  induction l generalizing x with
  | nil => exact nodup_nil
  | cons z l ih =>
    refine nodup_cons.mpr ⟨fun hz => ?_, ih hc.2⟩
    obtain ⟨l', hc', hlt⟩ := hc.2.of_mem hz
    rw [hc.2.unique hl hc' hr hr] at hlt
    exact Nat.lt_irrefl _ hlt

theorem Climb.length_le (hwf : h.WF) (hl : Unbroken h) (hc : Climb h snapshot x l r)
    (hr : ¬ Replaced h r) : l.length ≤ h.rids.length := by
  refine ((subperm_of_subset (hc.nodup hl hr)) fun y hy => ?_).length_le
  obtain ⟨z, v, hv, -⟩ := hc.hidden y hy
  exact Heap.mem_rids_of_header hwf hv

/-- Above `x` there are the versions of the climb, and no other that is not aborted. -/
theorem Climb.mem_of_newer (hl : Unbroken h) (hc : Climb h snapshot x l r) (hr : ¬ Replaced h r)
    (hv : h.header? y = some v) (hlive : v.createTxId ≠ 0) (hnewer : Newer h y x) : y ∈ l := by
  have hgood : ∀ a b, Live h a → Replaces h a b → Live h b := by
    rintro a b ⟨w, hw, hwl⟩ ⟨w', hw', hnext⟩
    obtain rfl := mem_unique hw hw'
    obtain ⟨u, hu, hdel⟩ := hl.down a w b hw hwl hnext
    exact ⟨u, hu, hl.live b u hu hdel⟩
  induction l generalizing x with
  | nil =>
    obtain rfl : x = r := hc
    obtain ⟨z, hyz, w, hw, hnext⟩ := TransGen.tail'_iff.mp hnewer
    obtain ⟨w', hw', hwl⟩ := closed_reflTransGen hgood ⟨v, hv, hlive⟩ hyz
    obtain rfl := mem_unique hw hw'
    exact absurd ⟨z, w, hw, hwl, hnext⟩ hr
  | cons z l ih =>
    obtain ⟨z', hyz, w, hw, hnext⟩ := TransGen.tail'_iff.mp hnewer
    obtain ⟨w', hw', hwl⟩ := closed_reflTransGen hgood ⟨v, hv, hlive⟩ hyz
    obtain rfl := mem_unique hw hw'
    obtain rfl := hc.1.eq hl hw hwl hnext
    rcases reflTransGen_iff_eq_or_transGen.mp hyz with heq | hlt
    · rw [← heq]
      exact mem_cons_self
    · exact mem_cons_of_mem _ (ih hc.2 hlt)

/-- **The point read comes down** a climb. -/
theorem firstVisible_climb (hc : Climb h (some view) x l r) (n : ℕ) :
    firstVisible h view (n + l.length) r = firstVisible h view n x := by
  induction l generalizing x n with
  | nil =>
    obtain rfl : x = r := hc
    rfl
  | cons z l ih =>
    obtain ⟨v, hv, hnext, -, hsee⟩ := hc.1
    rw [length_cons, ← Nat.add_assoc, Nat.add_right_comm, ih hc.2 (n + 1), firstVisible, hv]
    simp only [hsee, Bool.false_eq_true, if_false, hnext]

/-- What the point read has come down is a climb. -/
theorem climb_of_firstVisible (hl : Unbroken h) {n : ℕ} (hv : h.header? r = some v)
    (hdel : v.isDeleted = false) (hfirst : firstVisible h view n r = some x) :
    ∃ l w, Climb h (some view) x l r ∧ h.header? x = some w ∧ w.isDeleted = false ∧
    visible (some view) w = true := by
  induction n generalizing r v with
  | zero => cases hfirst
  | succ n ih =>
    rw [firstVisible, hv] at hfirst
    dsimp only at hfirst
    split at hfirst
    case isTrue hsee =>
      cases hfirst
      exact ⟨[], v, rfl, hv, hdel, hsee⟩
    case isFalse hsee =>
      split at hfirst
      case h_1 => cases hfirst
      case h_2 next hnext =>
        obtain ⟨w, hw, hwdel⟩ := hl.down r v next hv (hl.live r v hv hdel) hnext
        obtain ⟨l, w', hc, hw'⟩ := ih hw hwdel hfirst
        exact ⟨l ++ [r], w', hc.concat ⟨v, hv, hnext, hdel, Bool.eq_false_iff.mpr hsee⟩, hw'⟩

end Climb

/-! ### Tables and readers -/

theorem chained_of_unbroken {h : Heap Row} (hl : Unbroken h) : Chained h where
  live := hl.live
  unique := hl.unique
  down x v r hv hlive hnext := by
    obtain ⟨w, hw, hdel⟩ := hl.down x v r hv hlive hnext
    exact ⟨w, hw, hl.live r w hw hdel⟩

/-- Chains are intact, the ids of the slots are their positions, and the primary-key index is a tree
in order with the entries of the current versions. -/
structure Intact (m : TableMeta) (t : Table) : Prop where
  wf : t.heap.WF
  dense : t.heap.Dense
  chains : Unbroken t.heap
  sound : (t.index .pk).Sound true
  mem : ∀ e, e ∈ (t.index .pk).entries ↔ Current t.heap e.2 ∧ t.heap.keyOf m .pk e.2 = some e.1

/-- A reader for whom both ways lead to the same rows. -/
structure Follows (m : TableMeta) (h : Heap Row) (vis : VisMap) (snapshot : Option Snapshot)
    (active : List ℕ) : Prop where
  /-- Every deletion that is not rolled back suppresses the row. -/
  deletes : ∀ r v, h.header? r = some v → v.createTxId ≠ 0 → v.isDeleted = true → v.nextVersion ≠ none →
    suppresses snapshot active v = true
  /-- Every version that the reader sees suppresses what it replaces. -/
  updates : ∀ r v, h.header? r = some v → v.isDeleted = false → v.nextVersion ≠ none →
    visible snapshot v = true → suppresses snapshot active v = true
  /-- A version that the reader does not see has the primary key of the version it replaces. -/
  keys : ∀ x r, HiddenBy h snapshot r x → h.keyOf m .pk x = h.keyOf m .pk r
  /-- No chain is too deep for the scan. -/
  depth : ∀ r, ¬ Deep h (suppresses snapshot active) maxChainDepth r
  /-- No page is recorded as newer than the snapshot. -/
  newer : ∀ page, pageAllInvisible (vis page) snapshot = false
  /-- A page that is recorded as visible is visible to the reader. -/
  older : ∀ r v, h.header? r = some v → v.isDeleted = false → pageAllVisible (vis r.pageId) = true →
    visible snapshot v = true

section Reader

variable {m : TableMeta} {t : Table} {vis : VisMap} {snapshot : Option Snapshot} {active : List ℕ}
  {x r : RowId} {b : Bytes} {l : List RowId}

/-- A version that the reader does not see suppresses nothing. -/
theorem suppresses_of_not_visible {v : VersionHeader} (hdel : v.isDeleted = false)
    (hsee : visible snapshot v = false) : suppresses snapshot active v = false := by
  cases snapshot with
  | none => cases hsee
  | some view =>
    obtain ⟨hvis, -⟩ := Bool.or_eq_false_iff.mp hsee
    cases hc : v.commitTxId with
    | none => simp [suppresses, hdel, hc]
    | some c =>
      rw [hc] at hvis
      simp [suppresses, hdel, hc, hvis]

/-- The scan, slot by slot. -/
theorem Follows.scan_eq (hf : Follows m t.heap vis snapshot active) (hwf : t.heap.WF) :
    scan t.heap vis snapshot active = .ok (t.heap.rids.filter (inScan t.heap snapshot active)) := by
  refine scan_eq_filter (fun r => superseded_ok hwf (hf.depth r)) hf.newer fun page r hr => ?_
  obtain ⟨rfl, -⟩ := Heap.mem_pageRids.mp hr
  rw [yields, yields]
  cases hv : t.heap.header? r with
  | none => rfl
  | some v =>
    cases hdel : v.isDeleted with
    | true => simp [hdel]
    | false =>
      cases hall : pageAllVisible (vis r.pageId) with
      | false => simp [hdel, pageAllVisible]
      | true => simp [hdel, pageAllVisible, hf.older r v hv hdel hall]

variable (hi : Intact m t) (hf : Follows m t.heap vis snapshot active)

include hi hf

/-- **Up from a version that the scan does not skip**, there is a climb to a version that is not
replaced. -/
theorem exists_climb
    (hhead : superseded t.heap snapshot active x = .ok false) : ∃ l r, Climb t.heap snapshot x l r ∧
    ¬ Replaced t.heap r := by
  have hmap : ∀ {z y v}, t.heap.header? y = some v → v.createTxId ≠ 0 → v.nextVersion = some z →
      ∃ tx, supersededMap t.heap z = some (y, tx) := by
    intro z y v hv hlive hnext
    exact supersededMap_of_good hi.wf (chains_live (chained_of_unbroken hi.chains)) ⟨v, hv, hlive⟩
      ⟨v, hv, hnext⟩
  -- a superseder that suppresses nothing is hidden
  have hstep : ∀ {z y v}, t.heap.header? y = some v → v.createTxId ≠ 0 → v.nextVersion = some z →
      suppresses snapshot active v = false → HiddenBy t.heap snapshot z y := by
    intro z y v hv hlive hnext hsup
    have hdel : v.isDeleted = false := by
      by_contra hdel
      rw [hf.deletes y v hv hlive (by simpa using hdel) (by rw [hnext]; nofun)] at hsup
      cases hsup
    refine ⟨v, hv, hnext, hdel, ?_⟩
    by_contra hsee
    rw [hf.updates y v hv hdel (by rw [hnext]; nofun) (by simpa using hsee)] at hsup
    cases hsup
  have hwalk : ∀ n x y v, t.heap.header? y = some v → v.createTxId ≠ 0 → v.nextVersion = some x →
      walk t.heap (supersededMap t.heap) (suppresses snapshot active) n y = .ok false →
      ∃ l r, Climb t.heap snapshot x l r ∧ ¬ Replaced t.heap r := by
    intro n
    induction n with
    | zero => intro x y v _ _ _ hw; cases hw
    | succ n ih =>
      intro x y v hv hlive hnext hw
      rw [walk, hv] at hw
      dsimp only at hw
      split at hw
      case isTrue => cases hw
      case isFalse hsup =>
        have hhide := hstep hv hlive hnext (Bool.eq_false_iff.mpr hsup)
        by_cases hrep : Replaced t.heap y
        · obtain ⟨z, w, hw', hwlive, hwnext⟩ := hrep
          obtain ⟨tx, hm⟩ := hmap hw' hwlive hwnext
          rw [hm] at hw
          obtain ⟨l, r, hc, hr⟩ := ih y z w hw' hwlive hwnext hw
          exact ⟨y :: l, r, ⟨hhide, hc⟩, hr⟩
        · exact ⟨[y], y, ⟨hhide, rfl⟩, hrep⟩
  by_cases hrep : Replaced t.heap x
  · obtain ⟨y, v, hv, hlive, hnext⟩ := hrep
    obtain ⟨tx, hm⟩ := hmap hv hlive hnext
    rw [superseded, hm] at hhead
    exact hwalk maxChainDepth x y v hv hlive hnext hhead
  · exact ⟨[], x, rfl, hrep⟩

/-- Below a version that is not replaced, a climb ends at a version that the scan does not skip. -/
theorem isHead_of_climb (hc : Climb t.heap snapshot x l r) (hr : ¬ Replaced t.heap r)
    (hx : ∃ s, t.heap.slot? x = some s) : isHead t.heap snapshot active x = true := by
  obtain ⟨skip, hok⟩ := superseded_ok hi.wf (hf.depth x)
  rcases superseded_spec hi.wf (chains_live (chained_of_unbroken hi.chains)) hok with
    ⟨-, y, v, hnewer, hv, hsup⟩ | ⟨rfl, -⟩
  · have hlive : v.createTxId ≠ 0 := by
      intro hzero
      simp [suppresses, hzero] at hsup
    obtain ⟨z, w, hw, -, hdel, hsee⟩ := hc.hidden y (hc.mem_of_newer hi.chains hr hv hlive hnewer)
    obtain rfl := mem_unique hv hw
    rw [suppresses_of_not_visible hdel hsee] at hsup
    cases hsup
  · exact isHead_of_superseded hi.dense hx hok

omit hi hf

theorem Climb.keyOf (hf : Follows m t.heap vis snapshot active) (hc : Climb t.heap snapshot x l r) :
    t.heap.keyOf m .pk r = t.heap.keyOf m .pk x := by
  induction l generalizing x with
  | nil =>
    obtain rfl : x = r := hc
    rfl
  | cons z l ih => rw [ih hc.2, hf.keys z x hc.1]

variable (hi : Intact m t) (hf : Follows m t.heap vis snapshot active)

include hi hf

/-- Down from an entry, the point read ends a climb at a version that the reader sees. -/
theorem exists_climb_of_pointVersion
    (hpoint : pointVersion t vis snapshot b = some x) : ∃ l r v, Climb t.heap snapshot x l r ∧
    ¬ Replaced t.heap r ∧
      t.heap.keyOf m .pk r = some (Key.new b) ∧ t.heap.header? x = some v ∧ v.isDeleted = false ∧
      visible snapshot v = true := by
  cases hsearch : (t.index .pk).search b with
  | none =>
    simp only [pointVersion, hsearch, reduceCtorEq] at hpoint
  | some rid =>
    simp only [pointVersion, hsearch] at hpoint
    obtain ⟨⟨⟨v, hv, hdel⟩, hr⟩, hkey⟩ := (hi.mem _).mp ((IndexManager.search_iff hi.sound).mp hsearch)
    cases snapshot with
    | none =>
      obtain rfl : rid = x := some.inj hpoint
      exact ⟨[], rid, v, rfl, hr, hkey, hv, hdel, rfl⟩
    | some view =>
      change findVisibleVersion t vis view rid = some x at hpoint
      rw [findVisibleVersion] at hpoint
      split at hpoint
      case isTrue hall =>
        obtain ⟨s, -, rfl⟩ := map_eq_some_iff.mp hpoint
        exact ⟨[], rid, v, rfl, hr, hkey, hv, hdel, hf.older rid v hv hdel hall⟩
      case isFalse =>
        rw [hf.newer rid.pageId] at hpoint
        obtain ⟨l, w, hc, hw⟩ := climb_of_firstVisible hi.chains hv hdel hpoint
        exact ⟨l, rid, w, hc, hr, hkey, hw⟩

/-- **The version of the point read** is the one with the key that the scan yields. -/
theorem pointVersion_eq_some : pointVersion t vis snapshot b = some x ↔
    isHead t.heap snapshot active x = true ∧
      yields t.heap none snapshot x = true ∧ t.heap.keyOf m .pk x = some (Key.new b) := by
  constructor
  · intro hpoint
    obtain ⟨l, r, v, hc, hr, hkey, hv, hdel, hsee⟩ := exists_climb_of_pointVersion hi hf hpoint
    obtain ⟨s, hs, -⟩ := Heap.header?_eq_some.mp hv
    refine ⟨isHead_of_climb hi hf hc hr ⟨s, hs⟩, ?_, by rw [← hc.keyOf hf, hkey]⟩
    rw [yields, hv]
    simp [hdel, hsee]
  · rintro ⟨hhead, hyields, hkey⟩
    obtain ⟨v, hv, hdel, hsee⟩ : ∃ v, t.heap.header? x = some v ∧ v.isDeleted = false ∧
      visible snapshot v = true := by
      cases hv : t.heap.header? x with
      | none => simp [yields, hv] at hyields
      | some v => exact ⟨v, rfl, by simpa [yields, hv, pageAllVisible] using hyields⟩
    have hok : superseded t.heap snapshot active x = .ok false := by
      obtain ⟨s, hs, -⟩ := Heap.header?_eq_some.mp hv
      obtain ⟨skip, hskip⟩ := superseded_ok hi.wf (hf.depth x)
      rw [isHead_of_superseded hi.dense ⟨s, hs⟩ hskip, Bool.not_eq_true'] at hhead
      rwa [hhead] at hskip
    obtain ⟨l, r, hc, hr⟩ := exists_climb hi hf hok
    -- the uppermost version is current, so the index leads there
    have hcur : ∃ w, t.heap.header? r = some w ∧ w.isDeleted = false := by
      rcases hc.eq_or_mem with ⟨-, rfl⟩ | hmem
      · exact ⟨v, hv, hdel⟩
      · obtain ⟨z, w, hw, -, hwdel, -⟩ := hc.hidden r hmem
        exact ⟨w, hw, hwdel⟩
    have hsearch : (t.index .pk).search b = some r :=
      (IndexManager.search_iff hi.sound).mpr ((hi.mem _).mpr ⟨⟨hcur, hr⟩, by rw [hc.keyOf hf, hkey]⟩)
    have hseen : visible snapshot <$> t.heap.header? r = some true → x = r := by
      intro hsee'
      rcases hc.eq_or_mem with ⟨-, rfl⟩ | hmem
      · rfl
      · obtain ⟨z, w, hw, -, -, hno⟩ := hc.hidden r hmem
        rw [hw, Option.map_eq_map, Option.map_some, hno] at hsee'
        cases hsee'
    obtain ⟨w, hw, hwdel⟩ := hcur
    simp only [pointVersion, hsearch]
    cases snapshot with
    | none => rw [hseen (by rw [hw]; rfl)]
    | some view =>
      show findVisibleVersion t vis view r = some x
      rw [findVisibleVersion]
      split
      case isTrue hall =>
        obtain ⟨s, hs, -⟩ := Heap.header?_eq_some.mp hw
        rw [hseen (by rw [hw, Option.map_eq_map, Option.map_some, hf.older r w hw hwdel hall]), hs]
        rfl
      case isFalse =>
        have hlen := hc.length_le hi.wf hi.chains hr
        rw [hf.newer r.pageId, if_neg Bool.false_ne_true,
          show t.heap.rids.length + 1 = t.heap.rids.length - l.length + 1 + l.length by
          omega, firstVisible_climb hc,
          firstVisible, hv]
        simp only [hsee, if_true]

end Reader

/-! ### Rows by their primary key -/

theorem toBeBytes_injective : Function.Injective toBeBytes := by
  have hne : ∀ {a b : Int64}, a.toUInt64.toNat < b.toUInt64.toNat → toBeBytes a ≠ toBeBytes b := by
    intro a b hlt heq
    rw [toBeBytes_eq, toBeBytes_eq] at heq
    have hbelow : Below (encodeBE 8 a.toUInt64.toNat) (encodeBE 8 b.toUInt64.toNat) :=
      below_encodeBE hlt (UInt64.toNat_lt _)
    rw [heq] at hbelow
    exact List.lt_irrefl _ hbelow.lt
  intro a b heq
  rcases Nat.lt_trichotomy a.toUInt64.toNat b.toUInt64.toNat with hlt | hnat | hlt
  · exact absurd heq (hne hlt)
  · exact congrArg Int64.ofUInt64 (UInt64.toNat_inj.mp hnat)
  · exact absurd heq.symm (hne hlt)

/-- The primary key of a row. -/
def pkOf (m : TableMeta) (row : Row) : Value := row.getD m.pkIndex .null

/-- Two integers have the same key if they are equal. -/
theorem keyOf_eq_iff {m : TableMeta} {h : Heap Row} {x : RowId} {row : Row}
    (hrow : rowAt m h x = some row) (k : Int64) :
    h.keyOf m .pk x = some (Key.new (toBeBytes k)) ↔ pkOf m row = .int k := by
  obtain ⟨s, hs, rfl⟩ := map_eq_some_iff.mp hrow
  rw [Heap.keyOf, Heap.rawKey, hs, bind_some, TableMeta.rawKey, pkOf]
  cases (m.readRow s.tuple).getD m.pkIndex .null with
  | int n =>
    rw [Value.toKey, map_some, some.injEq, Value.int.injEq]
    refine ⟨fun heq => ?_, fun heq => by rw [heq]⟩
    have hdata := congrArg (fun key => key.data.take 8) heq
    refine toBeBytes_injective ?_
    simpa [Key.new, toBeBytes] using hdata
  | _ => simp [Value.toKey]

/-- A list without repetition, by its only element. -/
theorem eq_toList_of_mem {l : List RowId} {o : Option RowId} (hnd : l.Nodup)
    (hmem : ∀ x, x ∈ l ↔ o = some x) : l = o.toList := by
  cases o with
  | none => exact eq_nil_iff_forall_not_mem.mpr fun x hx => nomatch (hmem x).mp hx
  | some x =>
    refine perm_singleton.mp ((perm_ext_iff_of_nodup hnd (nodup_singleton x)).mpr fun y => ?_)
    rw [hmem, some.injEq, mem_singleton, eq_comm]

section Rows

variable {m : TableMeta} {t : Table} {vis : VisMap} {snapshot : Option Snapshot} {active : List ℕ}

theorem pointRead_eq (hi : Intact m t) (b : Bytes) :
    pointRead m t vis snapshot b = .ok ((pointVersion t vis snapshot b).bind (rowAt m t.heap)) := by
  cases hsearch : (t.index .pk).search b with
  | none => simp only [pointRead, pointVersion, hsearch, bind_none]
  | some rid =>
    simp only [pointRead, pointVersion, hsearch]
    cases snapshot with
    | some view => rfl
    | none =>
      obtain ⟨hcur, -⟩ := (hi.mem _).mp ((IndexManager.search_iff hi.sound).mp hsearch)
      obtain ⟨s, hs⟩ := ne_none_iff_exists'.mp hcur.slot?
      simp only [scanEntry, rowAt, hs, map_some, bind_some]

/-- The rows with a key are those of the versions with the key. -/
theorem filter_filterMap_rowAt (h : Heap Row) (l : List RowId) (k : Int64) :
    (l.filterMap (rowAt m h)).filter (fun row => pkOf m row = .int k) =
      (l.filter fun r => h.keyOf m .pk r = some (Key.new (toBeBytes k))).filterMap (rowAt m h) := by
  have hrows : ∀ x, (rowAt m h x).filter (fun row => pkOf m row = .int k) =
      if h.keyOf m .pk x = some (Key.new (toBeBytes k)) then rowAt m h x else none := by
    intro x
    cases hrow : rowAt m h x with
    | none => simp
    | some row => simp only [filter_some, keyOf_eq_iff hrow, decide_eq_true_eq]
  rw [filter_filterMap, filterMap_filter]
  simp only [hrows, decide_eq_true_eq]

variable (hi : Intact m t) (hf : Follows m t.heap vis snapshot active)

include hi hf

/-- **The rows of the scan with a key** are the row of the point read, if there is one. -/
theorem filter_rows_eq (k : Int64) :
    ((t.heap.rids.filter (inScan t.heap snapshot active)).filterMap (rowAt m t.heap)).filter
        (fun row => pkOf m row = .int k) =
      ((pointVersion t vis snapshot (toBeBytes k)).bind (rowAt m t.heap)).toList := by
  have hone : (t.heap.rids.filter (inScan t.heap snapshot active)).filter
      (fun r => t.heap.keyOf m .pk r = some (Key.new (toBeBytes k))) =
      (pointVersion t vis snapshot (toBeBytes k)).toList := by
    refine eq_toList_of_mem (((Heap.nodup_rids hi.wf).filter _).filter _) fun x => ?_
    rw [pointVersion_eq_some hi hf, mem_filter, mem_filter, Bool.and_eq_true, decide_eq_true_eq,
      and_assoc, and_assoc]
    refine ⟨fun h => h.2, fun h => ⟨?_, h⟩⟩
    rw [Heap.mem_rids hi.wf]
    obtain ⟨s, hs, -⟩ := bind_eq_some_iff.mp ((map_eq_some_iff.mp h.2.2).choose_spec.1)
    exact ⟨s, hs⟩
  rw [filter_filterMap_rowAt, hone]
  cases pointVersion t vis snapshot (toBeBytes k) with
  | none => rfl
  | some x => cases hrow : rowAt m t.heap x <;> simp [hrow]

/-- A version that the scan does not skip was not rolled back, and no deletion is above it. -/
theorem not_deleted_of_pointVersion {b : Bytes} {x : RowId}
    (hpoint : pointVersion t vis snapshot b = some x) :
    (∃ v, t.heap.header? x = some v ∧ v.createTxId ≠ 0) ∧
      ∀ y w, Newer t.heap y x → t.heap.header? y = some w → w.createTxId ≠ 0 → w.isDeleted = false := by
  obtain ⟨l, r, v, hc, hr, -, hv, hdel, -⟩ := exists_climb_of_pointVersion hi hf hpoint
  refine ⟨⟨v, hv, hi.chains.live x v hv hdel⟩, fun y w hnewer hw hlive => ?_⟩
  obtain ⟨z, w', hw', -, hwdel, -⟩ := hc.hidden y (hc.mem_of_newer hi.chains hr hw hlive hnewer)
  rw [hw, some.injEq] at hw'
  rw [hw', hwdel]

end Rows

/-! ### Histories -/

theorem intact_of_inv {m : TableMeta} {s : State} {dense : Prop} (hinv : Inv m dense s)
    (hdense : dense) : Intact m s.table := by
  have hwf := wf_of_inv hinv
  have hd := hinv.dense hdense
  have hl := linked_of_inv hinv
  cases hinv with
  | idle hs _ =>
    obtain ⟨-, hsound, hentries⟩ := entries_of_txInv hs.ready hs.ready.txInv
    exact ⟨hwf, hd, hl, hsound, hentries⟩
  | running hs _ hi =>
    obtain ⟨-, hsound, hentries⟩ := entries_of_txInv hs.ready hi
    exact ⟨hwf, hd, hl, hsound, hentries⟩

/-- The table of some state of a history whose rolled back transactions can be undone and whose
entries the indexes admit. -/
def Reached (d : DateParser) (m : TableMeta) (t : Table) : Prop :=
  ∃ s events s', Start m s ∧ Guarded (EventOk d m) (step d m) s events ∧
  run (step d m) s events = some s' ∧ s'.table = t

theorem Reached.intact {d : DateParser} {m : TableMeta} {t : Table} (ht : Reached d m t) :
    Intact m t := by
  obtain ⟨s, events, s', hs, hok, hrun, rfl⟩ := ht
  exact intact_of_inv (hs.inv hok hrun).1 hs.dense

/-- After these events, the point read of a key does not give the rows of the scan with the key. -/
def PointReadDiffers (events : List Event) (vis : VisMap) (snapshot : Option Snapshot) (k : Int64) :
    Prop :=
  ∃ s', run (step noDates accounts) ⟨newTable, 0, none⟩ events = some s' ∧ ∃ rows row,
    dataScan accounts s'.table vis snapshot [] = .ok rows ∧
      pointRead accounts s'.table vis snapshot (toBeBytes k) = .ok row ∧
        rows.filter (fun r => pkOf accounts r = .int k) ≠ row.toList

end RTsql.Transaction.History

import RTsql.Storage.Heap
import RTsql.Storage.PageVisibility

/-!
# Scanning a table

`DataScanExecutor`, as far as the rows it yields: which slots of the heap are
yielded for a snapshot, or, without one, for the set of transactions active when
the scan starts.

Before the first slot the scan builds a map from every version that some newer
version replaces to that newer version. A slot is skipped when a version above it,
along this map, suppresses it; the summary of a page can make the scan pass over
the page or leave out the check of each slot.

* `supersededMap_spec` — what the map holds: the superseder with the greatest creator.
* `scanSlots_eq_filter` — without summaries, the slots not superseded that the snapshot sees.

The predicate, the projection, the row cap and the decoding of tuples come after
these decisions and are left out: a row is its row id.
-/

namespace RTsql.Executor

open Function List RTsql.Storage RTsql.Transaction

universe u

variable {α : Type u}

/-! ### The scan -/

/-- What can end a scan with an error here. -/
inductive ScanError where
  /-- `version chain too deep`. -/
  | tooDeep
  /-- `SlotNotFound`. -/
  | slotNotFound (rid : RowId)
  deriving DecidableEq

/-- `MAX_CHAIN_DEPTH`. -/
def maxChainDepth : ℕ := 64

/-- A link found while the map is built: the version, its creator, and the version it replaces. -/
structure VersionLink where
  rid : RowId
  createTxId : ℕ
  target : RowId
  deriving DecidableEq

/-- The links of the table, in the order of the scan. -/
def versionLinks (h : Heap α) : List VersionLink :=
  h.rids.filterMap fun rid => do
    let v ← h.header? rid
    let target ← v.nextVersion
    some ⟨rid, v.createTxId, target⟩

/-- One link goes into the map: of two superseders the one with the greater creator stays, the
later one if the creators are equal. -/
def addLink (m : RowId → Option (RowId × ℕ)) (l : VersionLink) : RowId → Option (RowId × ℕ) :=
  match m l.target with
  | some (_, tx) => if l.createTxId < tx then m else update m l.target (some (l.rid, l.createTxId))
  | none => update m l.target (some (l.rid, l.createTxId))

/-- `build_superseded_map`. -/
def supersededMap (h : Heap α) : RowId → Option (RowId × ℕ) :=
  (versionLinks h).foldl addLink fun _ => none

/-- `superseder_suppresses`. -/
def suppresses (snapshot : Option Snapshot) (active : List ℕ) (v : VersionHeader) : Bool :=
  if v.createTxId = 0 then false
  else if v.isDeleted then
    match snapshot with
    | none => !decide (v.createTxId ∈ active)
    | some s => decide (v.createTxId = s.txId) || !s.containsActiveTx v.createTxId
  else
    match v.commitTxId with
    | none => false
    | some commit =>
      match snapshot with
      | none => true
      | some s => s.isVisible v.createTxId (some commit)

/-- The loop of `slot_is_superseded`: the superseders from `rid` on, at most `n` of them. -/
def walk (h : Heap α) (m : RowId → Option (RowId × ℕ)) (sup : VersionHeader → Bool) :
    ℕ → RowId → Except ScanError Bool
  | 0, _ => .error .tooDeep
  | n + 1, rid =>
    match h.header? rid with
    | none => .error (.slotNotFound rid)
    | some v =>
      if sup v then .ok true
      else
        match m rid with
        | none => .ok false
        | some (next, _) => walk h m sup n next

/-- `slot_is_superseded`. -/
def superseded (h : Heap α) (snapshot : Option Snapshot) (active : List ℕ) (rid : RowId) :
    Except ScanError Bool :=
  match supersededMap h rid with
  | none => .ok false
  | some (next, _) => walk h (supersededMap h) (suppresses snapshot active) maxChainDepth next

/-- The visibility check of a slot. -/
def visible (snapshot : Option Snapshot) (v : VersionHeader) : Bool :=
  match snapshot with
  | none => true
  | some s => s.isVisible v.createTxId v.commitTxId || s.isVisibleSelf v.createTxId v.commitTxId

/-- The summary says that the whole page is visible. -/
def pageAllVisible (info : Option PageVisibilityInfo) : Bool :=
  match info with
  | some i => i.allVisible
  | none => false

/-- The summary says that the whole page is invisible to the snapshot. -/
def pageAllInvisible (info : Option PageVisibilityInfo) (snapshot : Option Snapshot) : Bool :=
  match snapshot, info with
  | some s, some i => i.allInvisibleFor s.highWater
  | _, _ => false

/-- `check_page_all_visible`. -/
def checkPageAllVisible (h : Heap α) (page : ℕ) (view : Snapshot) : Bool :=
  (h.slots page).all fun e =>
    e.2.header.commitTxId.isSome && !e.2.header.isDeleted &&
      decide (e.2.header.createTxId ≤ view.highWater) && !view.containsActiveTx e.2.header.createTxId

/-- Whether a slot that is not superseded is yielded. -/
def yields (h : Heap α) (info : Option PageVisibilityInfo) (snapshot : Option Snapshot) (rid : RowId) :
    Bool :=
  match h.header? rid with
  | none => false
  | some v => !v.isDeleted && (pageAllVisible info || visible snapshot v)

/-- `next`, over the slots of one page. The walk begins at the slot's position on the page, which is
taken for its logical id. -/
def scanSlots (h : Heap α) (info : Option PageVisibilityInfo) (snapshot : Option Snapshot)
    (active : List ℕ) : List RowId → Except ScanError (List RowId)
  | [] => .ok []
  | rid :: rest =>
    match superseded h snapshot active (h.position rid) with
    | .error e => .error e
    | .ok true => scanSlots h info snapshot active rest
    | .ok false =>
      if pageAllInvisible info snapshot then .ok []
      else
        match scanSlots h info snapshot active rest with
        | .error e => .error e
        | .ok rows => .ok (if yields h info snapshot rid then rid :: rows else rows)

/-- `next`, over one page. -/
def scanPage (h : Heap α) (vis : VisMap) (snapshot : Option Snapshot) (active : List ℕ) (page : ℕ) :
    Except ScanError (List RowId) :=
  scanSlots h (vis page) snapshot active (h.pageRids page)

/-- `next`, over the rest of the chain. -/
def scanPages (h : Heap α) (vis : VisMap) (snapshot : Option Snapshot) (active : List ℕ) :
    List ℕ → Except ScanError (List RowId)
  | [] => .ok []
  | page :: rest =>
    match scanPage h vis snapshot active page with
    | .error e => .error e
    | .ok rows =>
      match scanPages h vis snapshot active rest with
      | .error e => .error e
      | .ok rows' => .ok (rows ++ rows')

/-- `DataScanExecutor`: the rows of the table. -/
def scan (h : Heap α) (vis : VisMap) (snapshot : Option Snapshot) (active : List ℕ) :
    Except ScanError (List RowId) :=
  scanPages h vis snapshot active h.chain

/-! ### The map of superseded versions -/

theorem mem_versionLinks {h : Heap α} (hwf : h.WF) {l : VersionLink} :
    l ∈ versionLinks h ↔
      ∃ v, h.header? l.rid = some v ∧ v.createTxId = l.createTxId ∧ v.nextVersion = some l.target := by
  obtain ⟨rid, tx, target⟩ := l
  simp only [versionLinks, mem_filterMap, Option.bind_eq_bind, Option.bind_eq_some_iff,
    Option.some.injEq, VersionLink.mk.injEq]
  constructor
  · rintro ⟨r, -, v, hv, t, ht, rfl, rfl, rfl⟩
    exact ⟨v, hv, rfl, ht⟩
  · rintro ⟨v, hv, rfl, ht⟩
    exact ⟨rid, Heap.mem_rids_of_header hwf hv, v, hv, target, ht, rfl, rfl, rfl⟩

/-- What the map holds after the links `ls`: for a target nothing links to, nothing, and else a
link to it with the greatest creator. -/
def MapOf (ls : List VersionLink) (m : RowId → Option (RowId × ℕ)) : Prop :=
  (∀ target, m target = none → ∀ l ∈ ls, l.target ≠ target) ∧
  ∀ target rid tx, m target = some (rid, tx) →
    ⟨rid, tx, target⟩ ∈ ls ∧ ∀ l ∈ ls, l.target = target → l.createTxId ≤ tx

theorem mapOf_addLink {ls : List VersionLink} {m : RowId → Option (RowId × ℕ)} (hm : MapOf ls m)
    (l : VersionLink) : MapOf (ls ++ [l]) (addLink m l) := by
  -- the new link becomes the entry of its target
  have replace : (∀ rid tx, m l.target = some (rid, tx) → tx ≤ l.createTxId) →
      MapOf (ls ++ [l]) (update m l.target (some (l.rid, l.createTxId))) := by
    intro hle
    refine ⟨fun target hn => ?_, fun target rid tx hs => ?_⟩
    · obtain rfl | ht := eq_or_ne target l.target
      · rw [update_self] at hn
        cases hn
      · rw [update_of_ne ht] at hn
        exact forall_mem_append.mpr ⟨hm.1 target hn, forall_mem_singleton.mpr ht.symm⟩
    · obtain rfl | ht := eq_or_ne target l.target
      · rw [update_self] at hs
        obtain ⟨rfl, rfl⟩ := hs
        refine ⟨mem_append_right _ (mem_singleton_self l),
          forall_mem_append.mpr ⟨fun k hk hkt => ?_, by simp⟩⟩
        cases hcase : m l.target with
        | none => exact absurd hkt (hm.1 _ hcase k hk)
        | some e => exact Nat.le_trans ((hm.2 _ e.1 e.2 hcase).2 k hk hkt) (hle e.1 e.2 hcase)
      · rw [update_of_ne ht] at hs
        obtain ⟨hmem, hmax⟩ := hm.2 target rid tx hs
        exact ⟨mem_append_left _ hmem, forall_mem_append.mpr ⟨hmax, by simp [ht.symm]⟩⟩
  unfold addLink
  split
  case h_1 rid tx hmt =>
    split
    case isTrue hlt =>
      refine ⟨fun target hn => forall_mem_append.mpr ⟨hm.1 target hn, forall_mem_singleton.mpr ?_⟩,
        fun target rid' tx' hs => ?_⟩
      · rintro rfl
        cases hmt.symm.trans hn
      · obtain ⟨hmem, hmax⟩ := hm.2 target rid' tx' hs
        refine ⟨mem_append_left _ hmem, forall_mem_append.mpr ⟨hmax, forall_mem_singleton.mpr ?_⟩⟩
        rintro rfl
        cases hmt.symm.trans hs
        exact Nat.le_of_lt hlt
    case isFalse hge =>
      refine replace fun rid' tx' h => ?_
      cases hmt.symm.trans h
      exact Nat.not_lt.mp hge
  case h_2 hmt =>
    refine replace fun rid tx h => ?_
    cases hmt.symm.trans h

/-- **The map of superseded versions**: the entry of a version is a superseder of it, with the
greatest creator among its superseders, and there is one if it has a superseder. -/
theorem supersededMap_spec (h : Heap α) : MapOf (versionLinks h) (supersededMap h) := by
  suffices ∀ ls m pre, MapOf pre m → MapOf (pre ++ ls) (List.foldl addLink m ls) from
    this (versionLinks h) (fun _ => none) [] ⟨fun _ _ _ hl => absurd hl not_mem_nil, nofun⟩
  intro ls
  induction ls with
  | nil => simp
  | cons l ls ih =>
    intro m pre hm
    have h := ih _ _ (mapOf_addLink hm l)
    rwa [append_assoc] at h

/-- A version that another replaces which is not aborted has an entry in the map: such a version. -/
theorem supersededMap_of_replaced {h : Heap α} (hwf : h.WF) {rid : RowId}
    (hr : ∃ x v, h.header? x = some v ∧ v.createTxId ≠ 0 ∧ v.nextVersion = some rid) :
    ∃ x v, supersededMap h rid = some (x, v.createTxId) ∧ h.header? x = some v ∧ v.createTxId ≠ 0 ∧
      v.nextVersion = some rid := by
  obtain ⟨hnone, hsome⟩ := supersededMap_spec h
  obtain ⟨y, w, hw, hcreate, hnext⟩ := hr
  have hlink : ⟨y, w.createTxId, rid⟩ ∈ versionLinks h := (mem_versionLinks hwf).mpr ⟨w, hw, rfl, hnext⟩
  cases he : supersededMap h rid with
  | none => exact absurd rfl (hnone rid he _ hlink)
  | some e =>
    obtain ⟨x, creator⟩ := e
    obtain ⟨hmem, hmax⟩ := hsome rid x creator he
    obtain ⟨v, hv, rfl, htarget⟩ := (mem_versionLinks hwf).mp hmem
    -- the greatest creator is not zero, since another one is not
    have hle := hmax _ hlink rfl
    dsimp only at hle
    exact ⟨x, v, rfl, hv, by omega, htarget⟩

/-! ### The slots of a page -/

section Page

variable {h : Heap α} {vis : VisMap} {info : Option PageVisibilityInfo} {snapshot : Option Snapshot}
  {active pages : List ℕ} {rows l : List RowId} {page : ℕ}

/-- The summaries of a map that has none. -/
abbrev noSummaries : VisMap := fun _ => none

/-- The slot is not skipped: the walk above it ends without a version that suppresses it. -/
def isHead (h : Heap α) (snapshot : Option Snapshot) (active : List ℕ) (rid : RowId) : Bool :=
  match superseded h snapshot active (h.position rid) with
  | .ok false => true
  | _ => false

/-- A scan without summaries yields the slot. -/
abbrev inScan (h : Heap α) (snapshot : Option Snapshot) (active : List ℕ) (rid : RowId) : Bool :=
  isHead h snapshot active rid && yields h none snapshot rid

/-- Where logical ids are positions, the walk begins at the slot. -/
theorem isHead_of_superseded (hd : h.Dense) {rid : RowId} (hs : ∃ s, h.slot? rid = some s) {b : Bool}
    (hsup : superseded h snapshot active rid = .ok b) : isHead h snapshot active rid = !b := by
  rw [isHead, Heap.position_eq hd hs, hsup]
  cases b <;> rfl

theorem pageAllInvisible_none (snapshot : Option Snapshot) : pageAllInvisible none snapshot = false := by
  cases snapshot <;> rfl

/-- Without a summary the slots of a page are filtered, if no walk ends in an error. -/
theorem scanSlots_eq_filter
    (hok : ∀ rid ∈ l, ∃ b, superseded h snapshot active (h.position rid) = .ok b) :
    scanSlots h none snapshot active l = .ok (l.filter (inScan h snapshot active)) := by
  induction l with
  | nil => rfl
  | cons rid rest ih =>
    have ih := ih fun r hr => hok r (mem_cons_of_mem _ hr)
    obtain ⟨b, hb⟩ := hok rid mem_cons_self
    cases b with
    | true => simp [scanSlots, hb, ih, isHead]
    | false =>
      simp only [scanSlots, hb, pageAllInvisible_none, ih, inScan, isHead, filter_cons, Bool.true_and]
      rfl

/-- A summary that does not skip the page, and with which each slot is decided as without
it, changes nothing. -/
theorem scanSlots_of_agree (hinv : pageAllInvisible info snapshot = false)
    (hy : ∀ rid ∈ l, yields h info snapshot rid = yields h none snapshot rid) :
    scanSlots h info snapshot active l = scanSlots h none snapshot active l := by
  induction l with
  | nil => rfl
  | cons rid rest ih =>
    have ih := ih fun r hr => hy r (mem_cons_of_mem _ hr)
    simp only [scanSlots, hinv, pageAllInvisible_none, ih, hy rid mem_cons_self]

/-- A scan of the slots that ends well has met no error on the way. -/
theorem superseded_of_scanSlots (hrows : scanSlots h none snapshot active l = .ok rows) :
    ∀ rid ∈ l, ∃ b, superseded h snapshot active (h.position rid) = .ok b := by
  induction l generalizing rows with
  | nil => nofun
  | cons rid rest ih =>
    simp only [scanSlots, pageAllInvisible_none, Bool.false_eq_true, if_false] at hrows
    split at hrows
    case h_1 => cases hrows
    case h_2 hsup => exact forall_mem_cons.mpr ⟨⟨true, hsup⟩, ih hrows⟩
    case h_3 hsup =>
      split at hrows
      case h_1 => cases hrows
      case h_2 hrest => exact forall_mem_cons.mpr ⟨⟨false, hsup⟩, ih hrest⟩

/-- A summary that skips the page leaves nothing of it. -/
theorem scanSlots_allInvisible (hinv : pageAllInvisible info snapshot = true)
    (hok : ∀ rid ∈ l, ∃ b, superseded h snapshot active (h.position rid) = .ok b) :
    scanSlots h info snapshot active l = .ok [] := by
  induction l with
  | nil => rfl
  | cons rid rest ih =>
    obtain ⟨b, hb⟩ := hok rid mem_cons_self
    simp only [scanSlots, hb, hinv, if_true]
    cases b with
    | true => exact ih fun r hr => hok r (mem_cons_of_mem _ hr)
    | false => rfl

/-- A summary that skips the page changes nothing if no slot of it is yielded anyway. -/
theorem scanPage_of_allInvisible (hinv : pageAllInvisible (vis page) snapshot = true)
    (hy : ∀ rid ∈ h.pageRids page, yields h none snapshot rid = false)
    (hrows : scanPage h noSummaries snapshot active page = .ok rows) :
    scanPage h vis snapshot active page = .ok rows := by
  have hok := superseded_of_scanSlots hrows
  have hempty : rows = [] := by
    rw [← Except.ok.inj ((scanSlots_eq_filter hok).symm.trans hrows), filter_eq_nil_iff]
    intro rid hr
    rw [inScan, hy rid hr, Bool.and_false]
    nofun
  rw [hempty]
  exact scanSlots_allInvisible hinv hok

/-- The pages of the chain one after the other. -/
theorem scanPages_eq_flatMap {rows : ℕ → List RowId}
    (hpage : ∀ page ∈ pages, scanPage h vis snapshot active page = .ok (rows page)) :
    scanPages h vis snapshot active pages = .ok (pages.flatMap rows) := by
  induction pages with
  | nil => rfl
  | cons page rest ih =>
    simp only [scanPages, hpage page mem_cons_self, ih fun p hp => hpage p (mem_cons_of_mem _ hp),
      flatMap_cons]

/-- **A scan that is not led astray by summaries**: the slots that are not superseded and that the
snapshot sees. -/
theorem scan_eq_filter (hok : ∀ rid, ∃ b, superseded h snapshot active rid = .ok b)
    (hinv : ∀ page, pageAllInvisible (vis page) snapshot = false)
    (hy : ∀ page, ∀ rid ∈ h.pageRids page,
      yields h (vis page) snapshot rid = yields h none snapshot rid) :
    scan h vis snapshot active = .ok (h.rids.filter (inScan h snapshot active)) := by
  rw [Heap.rids, filter_flatMap]
  refine scanPages_eq_flatMap fun page _ => ?_
  exact (scanSlots_of_agree (hinv page) (hy page)).trans (scanSlots_eq_filter fun rid _ => hok _)

/-- A scan that ends well has read every page. -/
theorem scanPage_of_scanPages (hrows : scanPages h vis snapshot active pages = .ok rows) :
    ∀ page ∈ pages, ∃ rows', scanPage h vis snapshot active page = .ok rows' := by
  induction pages generalizing rows with
  | nil => nofun
  | cons p rest ih =>
    simp only [scanPages] at hrows
    split at hrows
    case h_1 => cases hrows
    case h_2 rows' hp =>
      split at hrows
      case h_1 => cases hrows
      case h_2 rows'' hrest =>
        exact forall_mem_cons.mpr ⟨⟨rows', hp⟩, ih hrest⟩

/-- Without a snapshot a summary changes nothing. -/
theorem scanPage_none (page : ℕ) :
    scanPage h vis none active page = scanPage h noSummaries none active page := by
  refine scanSlots_of_agree ?_ fun rid _ => ?_
  · cases vis page <;> rfl
  · cases hv : h.header? rid <;> simp [yields, hv, visible]

/-- **The rows of a scan without a snapshot**: those that are not deleted and not superseded. -/
theorem scan_none (hwf : h.WF) (hrows : scan h vis none active = .ok rows) :
    (∀ rid s, h.slot? rid = some s → ∃ b, superseded h none active (h.position rid) = .ok b) ∧
      rows = h.rids.filter (inScan h none active) := by
  have hpages : ∀ page ∈ h.chain, ∀ rid ∈ h.pageRids page, ∃ b,
    superseded h none active (h.position rid) = .ok b := by
    intro page hpage
    obtain ⟨rows', hp⟩ := scanPage_of_scanPages hrows page hpage
    rw [scanPage_none] at hp
    exact superseded_of_scanSlots hp
  constructor
  · intro rid s hs
    obtain ⟨page, hpage, hmem⟩ := mem_flatMap.mp ((Heap.mem_rids hwf).mpr ⟨s, hs⟩)
    exact hpages page hpage rid hmem
  · rw [Heap.rids, filter_flatMap, ← Except.ok.injEq, ← hrows]
    exact scanPages_eq_flatMap fun page hpage =>
      (scanPage_none page).trans (scanSlots_eq_filter (hpages page hpage))

end Page

end RTsql.Executor

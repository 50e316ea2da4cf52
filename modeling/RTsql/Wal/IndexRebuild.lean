import RTsql.Executor.ChainScan
import RTsql.Storage.Index

/-!
# Rebuilding the indexes after recovery

`rebuild_pk_indexes`: after a recovery that has redone records, the indexes of every
table are built anew from its data pages. The rebuild walks every version chain
from its newest version down to the first version that is committed, and enters it.
It decides what is committed from the commit mark and from the transactions that
have a commit record in the log, which a checkpoint may have shortened; a scan
decides from the commit mark alone, and takes every tombstone for committed.

## What is proved

* `rebuild_exact` — where the two agree (`Consistent`), the indexes hold exactly the entries
  of the rows that a scan without a snapshot yields; and, if these rows have different keys,
  only there.
* `rebuild_not_exact` — a tombstone from before the last checkpoint, and a page that redo
  has built with gaps.
-/

namespace RTsql.Wal

open List RTsql.Executor RTsql.Library RTsql.Storage RTsql.Transaction Relation
open Heap (header?_eq_some mem_rids_of_header header?_of_two)
open Option (some mem_unique join_some)

universe u v

variable {α : Type u} {κ : Type v} {rid x r : RowId} {v : VersionHeader} {ix : IndexId}

/-! ### The rebuild -/

/-- How a rebuild fails. -/
inductive RebuildError where
  /-- `duplicate PK across chains`, `duplicate value for UNIQUE column across chains`. -/
  | duplicate (ix : IndexId)
  /-- The walk down a chain does not end. -/
  | endless
  deriving DecidableEq

/-- `pointed`: a version that is not aborted replaces this one. -/
def pointed (h : Heap α) (rid : RowId) : Bool :=
  h.rids.any fun x =>
    match h.header? x with
    | some v => v.createTxId ≠ 0 && decide (v.nextVersion = some rid)
    | none => false

/-- The newest version of a chain. -/
def isTail (h : Heap α) (rid : RowId) : Bool :=
  !pointed h rid &&
    match h.header? rid with
    | some v => v.createTxId ≠ 0
    | none => false

/-- The walk down a chain from `rid`, at most `n` versions: the version to be entered, if any. -/
def liveVersion (h : Heap α) (committed : List ℕ) : ℕ → RowId → Option (Option RowId)
  | 0, _ => none
  | n + 1, rid =>
    match h.header? rid with
    | none => some none
    | some v =>
      if v.isDeleted && decide (v.createTxId ∈ committed) then some none
      else if !v.isDeleted && (v.commitTxId.isSome || decide (v.createTxId ∈ committed)) then
        some (some rid)
      else
        match v.nextVersion with
        | some target => if (h.header? target).isSome then liveVersion h committed n target else some none
        | none => some none

section Rebuild

variable [DecidableEq κ]

/-- An entry goes into an index. -/
def addEntry (e : Entries κ) (ix : IndexId) (k : κ) (rid : RowId) : Except RebuildError (Entries κ) :=
  if ix.isUnique && (e ix).any (·.1 = k) then .error (.duplicate ix)
  else .ok (Function.update e ix (e ix ++ [(k, rid)]))

/-- The entries of a row go into the indexes. -/
def addRow (keys : IndexKeys α κ) (tuple : α) (rid : RowId) (e : Entries κ) :
    List IndexId → Except RebuildError (Entries κ)
  | [] => .ok e
  | ix :: rest =>
    match keys.key ix tuple with
    | none => addRow keys tuple rid e rest
    | some k =>
      match addEntry e ix k rid with
      | .error err => .error err
      | .ok e' => addRow keys tuple rid e' rest

/-- The entries of the versions found go into the indexes. -/
def addVersion (h : Heap α) (keys : IndexKeys α κ) (rid : RowId) (e : Entries κ) :
    Except RebuildError (Entries κ) :=
  match h.slot? rid with
  | none => .ok e
  | some s => addRow keys s.tuple rid e keys.indexes

/-- The chains one after the other. -/
def rebuildFrom (h : Heap α) (committed : List ℕ) (keys : IndexKeys α κ) (e : Entries κ) :
    List RowId → Except RebuildError (Entries κ)
  | [] => .ok e
  | rid :: rest =>
    if isTail h rid then
      match liveVersion h committed h.rids.length rid with
      | none => .error .endless
      | some none => rebuildFrom h committed keys e rest
      | some (some row) =>
        match addVersion h keys row e with
        | .error err => .error err
        | .ok e' => rebuildFrom h committed keys e' rest
    else rebuildFrom h committed keys e rest

/-- `rebuild_pk_indexes`, for one table; `order` is the order in which the slots come out of the
hash map, and `committed` are the transactions with a commit record in the log. -/
def rebuild (h : Heap α) (committed : List ℕ) (keys : IndexKeys α κ) (order : List RowId) :
    Except RebuildError (Entries κ) :=
  rebuildFrom h committed keys (fun _ => []) order

end Rebuild

/-! ### What the rebuild should give -/

/-- The entry of a version in an index. -/
def entry (h : Heap α) (keys : IndexKeys α κ) (ix : IndexId) (rid : RowId) : Option (κ × RowId) :=
  (h.slot? rid).bind fun s => (keys.key ix s.tuple).map (·, rid)

/-- The indexes hold the entries of the rows and no others. -/
def Exact (h : Heap α) (keys : IndexKeys α κ) (rows : List RowId) (e : Entries κ) : Prop :=
  ∀ ix ∈ keys.indexes, (e ix).Perm (rows.filterMap (entry h keys ix))

/-- No two rows have the same key in a unique index. -/
def DistinctKeys (h : Heap α) (keys : IndexKeys α κ) (rows : List RowId) : Prop :=
  ∀ ix ∈ keys.indexes, ix.isUnique = true → ((rows.filterMap (entry h keys ix)).map Prod.fst).Nodup

/-- A version replaces one that was written before it: data pages are only appended to. -/
def Ordered (h : Heap α) : Prop := ∀ x r, Replaces h x r → h.rids.idxOf r < h.rids.idxOf x

/-- The rebuild enters the version. -/
def Taken (committed : List ℕ) (v : VersionHeader) : Prop :=
  v.isDeleted = false ∧ (v.mark ≠ .unset ∨ v.createTxId ∈ committed)

/-- The rebuild goes on to the version below. -/
def Skipped (committed : List ℕ) (v : VersionHeader) : Prop :=
  (v.isDeleted = true ∨ v.mark = .unset) ∧ v.createTxId ∉ committed

/-- `P` holds of every version newer than `rid` that is not aborted. -/
def AllNewer (h : Heap α) (rid : RowId) (P : VersionHeader → Prop) : Prop :=
  ∀ y v, Newer h y rid → h.header? y = some v → v.createTxId ≠ 0 → P v

/-- A version that is not a tombstone and has a key in some index. -/
def Keyed (h : Heap α) (keys : IndexKeys α κ) (rid : RowId) (v : VersionHeader) : Prop :=
  h.header? rid = some v ∧ v.isDeleted = false ∧ ∃ ix ∈ keys.indexes, entry h keys ix rid ≠ none

/-- **The condition under which the rebuild and the scan agree**, for the versions that have a
key. The scan asks for the version whose logical id is the position of the slot. -/
structure Consistent (h : Heap α) (committed : List ℕ) (keys : IndexKeys α κ) : Prop where
  /-- A version that only versions without a commit mark replace has a commit mark, or its
  creator a commit record. -/
  creator : ∀ rid v, Keyed h keys rid v → AllNewer h (h.position rid) (·.mark = .unset) →
    Taken committed v
  /-- The creators of the versions that replace it have no commit record. -/
  newer : ∀ rid v, Keyed h keys rid v → AllNewer h (h.position rid) (·.mark = .unset) →
    AllNewer h rid (Skipped committed)
  /-- A committed version that only tombstones and versions without a commit mark replace, whose
  creators have no commit record, is replaced by no tombstone. -/
  tombstone : ∀ rid v, Keyed h keys rid v → Taken committed v → AllNewer h rid (Skipped committed) →
    AllNewer h (h.position rid) (·.mark = .unset)

/-! ### The walk down a chain -/

section Walk

variable {h : Heap α} {committed : List ℕ}

theorem taken_or_skipped (committed : List ℕ) (v : VersionHeader) :
    (v.isDeleted = true ∧ v.createTxId ∈ committed) ∨ Taken committed v ∨ Skipped committed v := by
  by_cases hc : v.createTxId ∈ committed
  · cases hd : v.isDeleted with
    | true => exact .inl ⟨rfl, hc⟩
    | false => exact .inr (.inl ⟨hd, .inr hc⟩)
  · by_cases hm : v.mark = .unset
    · exact .inr (.inr ⟨.inr hm, hc⟩)
    · cases hd : v.isDeleted with
      | true => exact .inr (.inr ⟨.inl hd, hc⟩)
      | false => exact .inr (.inl ⟨hd, .inl hm⟩)

theorem not_skipped_of_taken (ht : Taken committed v) : ¬ Skipped committed v := by
  rintro ⟨hd | hm, hc⟩
  · rw [ht.1] at hd
    cases hd
  · exact ht.2.elim (fun h => h hm) hc

theorem idxOf_lt_of_newer (ho : Ordered h) (hx : Newer h x r) : h.rids.idxOf r < h.rids.idxOf x := by
  induction hx with
  | single hstep => exact ho _ _ hstep
  | tail _ hstep ih => exact Nat.lt_trans (ho _ _ hstep) ih

theorem idxOf_le_of_reflTransGen (ho : Ordered h) (hx : ReflTransGen (Replaces h) x r) :
    h.rids.idxOf r ≤ h.rids.idxOf x := by
  rcases reflTransGen_iff_eq_or_transGen.mp hx with rfl | hlt
  · exact Nat.le_refl _
  · exact Nat.le_of_lt (idxOf_lt_of_newer ho hlt)

/-- A version replaces one version only. -/
theorem replaces_unique {r' : RowId} (hr : Replaces h x r) (hr' : Replaces h x r') : r = r' := by
  obtain ⟨v, hv, hn⟩ := hr
  obtain ⟨v', hv', hn'⟩ := hr'
  rw [hv, some.injEq] at hv'
  rwa [← hv', hn, some.injEq] at hn'

/-- The walk down from `x` ends at `rid` with a version to be entered. -/
def Found (h : Heap α) (committed : List ℕ) (x rid : RowId) : Prop :=
  ReflTransGen (Replaces h) x rid ∧ ∃ v, h.header? rid = some v ∧ Taken committed v ∧
    ∀ y w, ReflTransGen (Replaces h) x y → Newer h y rid → h.header? y = some w → Skipped committed w

theorem found_self (ho : Ordered h) (hv : h.header? x = some v) (ht : Taken committed v) :
    Found h committed x x := by
  refine ⟨.refl, v, hv, ht, fun y w hy hlt => ?_⟩
  have h1 := idxOf_le_of_reflTransGen ho hy
  have h2 := idxOf_lt_of_newer ho hlt
  omega

/-- A walk that stops at `x` finds nothing below. -/
theorem eq_of_found (hv : h.header? x = some v)
    (hs : ¬ Skipped committed v) (hf : Found h committed x rid) : rid = x := by
  obtain ⟨hx, w, -, -, hall⟩ := hf
  rcases reflTransGen_iff_eq_or_transGen.mp hx with heq | hlt
  · exact heq
  · exact absurd (hall x v .refl hlt hv) hs

/-- A walk that goes on from `x` finds what it finds from the version below. -/
theorem found_iff_of_skipped (hv : h.header? x = some v)
    (hs : Skipped committed v) (hr : Replaces h x r) (rid : RowId) :
    Found h committed x rid ↔ Found h committed r rid := by
  have below : ∀ y, ReflTransGen (Replaces h) x y → y = x ∨ ReflTransGen (Replaces h) r y := by
    intro y hy
    rcases ReflTransGen.cases_head hy with heq | ⟨r', hr', hy⟩
    · exact .inl heq.symm
    · rw [replaces_unique hr hr']
      exact .inr hy
  constructor
  · rintro ⟨hx, w, hw, ht, hall⟩
    rcases below rid hx with rfl | hx
    · rw [hv, some.injEq] at hw
      exact absurd hs (not_skipped_of_taken (hw ▸ ht))
    · exact ⟨hx, w, hw, ht, fun y z hy => hall y z (.head hr hy)⟩
  · rintro ⟨hx, w, hw, ht, hall⟩
    refine ⟨.head hr hx, w, hw, ht, fun y z hy hlt hz => ?_⟩
    rcases below y hy with rfl | hy
    · rw [hv, some.injEq] at hz
      exact hz ▸ hs
    · exact hall y z hy hlt hz

/-- **The walk down a chain** ends, and finds the first version that is to be entered. -/
theorem liveVersion_spec (hc : Chained h) (ho : Ordered h) (n : ℕ) (x : RowId) (hx : Live h x)
    (hn : h.rids.idxOf x < n) :
    ∃ r, liveVersion h committed n x = some r ∧ ∀ rid, r = some rid ↔ Found h committed x rid := by
  induction n generalizing x with
  | zero => exact absurd hn (Nat.not_lt_zero _)
  | succ n ih =>
    obtain ⟨v, hv, hl⟩ := hx
    rcases taken_or_skipped committed v with ⟨hd, hcm⟩ | ht | hs
    · -- a committed tombstone
      refine ⟨none, by simp [liveVersion, hv, hd, hcm], fun rid => ⟨nofun, fun hf => ?_⟩⟩
      have hns : ¬ Skipped committed v := fun hs => hs.2 hcm
      obtain rfl := eq_of_found hv hns hf
      obtain ⟨-, w, hw, ht, -⟩ := hf
      rw [hv, some.injEq] at hw
      rw [← hw, Taken, hd] at ht
      cases ht.1
    · -- a version to be entered
      have hcase : (v.commitTxId.isSome || decide (v.createTxId ∈ committed)) = true := by
        simpa [Option.isSome_iff_ne_none] using ht.2
      refine ⟨some x, by simp [liveVersion, hv, ht.1, hcase], fun rid => ?_⟩
      rw [some.injEq]
      constructor
      · rintro rfl
        exact found_self ho hv ht
      · intro hf
        exact (eq_of_found hv (not_skipped_of_taken ht) hf).symm
    · have hstep : liveVersion h committed (n + 1) x = (match v.nextVersion with
          | some target => if (h.header? target).isSome then liveVersion h committed n target else some none
          | none => some none) := by
        obtain ⟨hd | hm, hcm⟩ := hs
        · simp [liveVersion, hv, hd, hcm]
        · simp [liveVersion, hv, VersionHeader.isDeleted, VersionHeader.commitTxId, hm, hcm]
      cases hnext : v.nextVersion with
      | none =>
        refine ⟨none, by rw [hstep, hnext], fun rid => ⟨nofun, fun hf => ?_⟩⟩
        obtain ⟨hxr, w, hw, ht, -⟩ := hf
        rcases ReflTransGen.cases_head hxr with rfl | ⟨r, ⟨v', hv', hn'⟩, -⟩
        · rw [hv, some.injEq] at hw
          exact absurd hs (not_skipped_of_taken (hw ▸ ht))
        · rw [hv, some.injEq] at hv'
          rw [← hv', hnext] at hn'
          cases hn'
      | some target =>
        have hr : Replaces h x target := ⟨v, hv, hnext⟩
        obtain ⟨w, hw, hwl⟩ := (chains_live hc).down x target ⟨v, hv, hl⟩ hr
        obtain ⟨r, hres, hfound⟩ := ih target ⟨w, hw, hwl⟩ (by have := ho x target hr; omega)
        refine ⟨r, by rw [hstep, hnext]; simp [hw, hres], fun rid => ?_⟩
        rw [found_iff_of_skipped hv hs hr, hfound]

variable (hwf : h.WF)

include hwf

theorem pointed_eq_true : pointed h rid = true ↔ ∃ x, Live h x ∧ Replaces h x rid := by
  rw [pointed, any_eq_true]
  constructor
  · rintro ⟨x, -, hx⟩
    split at hx
    case h_1 v hv =>
      simp only [ne_eq, decide_not, Bool.and_eq_true, Bool.not_eq_true', decide_eq_false_iff_not,
        decide_eq_true_eq] at hx
      exact ⟨x, ⟨v, hv, hx.1⟩, v, hv, hx.2⟩
    case h_2 => cases hx
  · rintro ⟨x, ⟨v, hv, hl⟩, v', hv', hn⟩
    obtain rfl := mem_unique hv hv'
    refine ⟨x, mem_rids_of_header hwf hv, ?_⟩
    rw [hv]
    simp [hl, hn]

theorem isTail_eq_true : isTail h rid = true ↔ Live h rid ∧ ∀ x, Live h x → ¬ Replaces h x rid := by
  rw [isTail, Bool.and_eq_true, Bool.not_eq_true', Bool.eq_false_iff, ne_eq, pointed_eq_true hwf]
  constructor
  · rintro ⟨hp, hl⟩
    split at hl
    case h_1 v hv => exact ⟨⟨v, hv, by simpa using hl⟩, fun x hx hr => hp ⟨x, hx, hr⟩⟩
    case h_2 => cases hl
  · rintro ⟨⟨v, hv, hl⟩, hp⟩
    refine ⟨fun ⟨x, hx, hr⟩ => hp x hx hr, ?_⟩
    rw [hv]
    simpa using hl

/-- Above every version that is not aborted there is the newest of its chain. -/
theorem exists_tail (ho : Ordered h) (n : ℕ) (x : RowId) (hx : Live h x)
    (hn : h.rids.length ≤ h.rids.idxOf x + n) :
    ∃ t, isTail h t = true ∧ ReflTransGen (Replaces h) t x := by
  induction n generalizing x with
  | zero =>
    obtain ⟨v, hv, -⟩ := hx
    have := idxOf_lt_length_iff.mpr (mem_rids_of_header hwf hv)
    omega
  | succ n ih =>
    by_cases htail : ∃ y, Live h y ∧ Replaces h y x
    · obtain ⟨y, hy, hr⟩ := htail
      obtain ⟨t, ht, hty⟩ := ih y hy (by have := ho y x hr; omega)
      exact ⟨t, ht, hty.tail hr⟩
    · exact ⟨x, (isTail_eq_true hwf).mpr ⟨hx, fun y hy hr => htail ⟨y, hy, hr⟩⟩, .refl⟩

/-- The newest version of a chain is above every other that is not aborted. -/
theorem reflTransGen_of_tail (hc : Chained h) {t y : RowId} (ht : isTail h t = true)
    (htr : ReflTransGen (Replaces h) t r) (hy : Live h y) (hyr : ReflTransGen (Replaces h) y r) :
    ReflTransGen (Replaces h) t y := by
  obtain ⟨htl, htop⟩ := (isTail_eq_true hwf).mp ht
  rcases newer_of_sameChain (chains_live hc) htl hy ⟨r, htr, hyr⟩ with rfl | hlt | hlt
  · exact .refl
  · exact hlt.to_reflTransGen
  · obtain ⟨z, hyz, hzt⟩ := TransGen.tail'_iff.mp hlt
    exact absurd hzt (htop z (closed_reflTransGen (chains_live hc).down hy hyz))

/-- **What the walks find**: the versions to be entered above which everything is skipped. -/
theorem exists_found_iff (hc : Chained h) (ho : Ordered h) (hv : h.header? rid = some v)
    (hl : v.createTxId ≠ 0) :
    (∃ t, isTail h t = true ∧ Found h committed t rid) ↔ Taken committed v ∧
    AllNewer h rid (Skipped committed) := by
  constructor
  · rintro ⟨t, ht, htr, v', hv', htaken, hall⟩
    obtain rfl := mem_unique hv hv'
    refine ⟨htaken, fun y w hy hw hwl => ?_⟩
    exact hall y w (reflTransGen_of_tail hwf hc ht htr ⟨w, hw, hwl⟩ hy.to_reflTransGen) hy hw
  · rintro ⟨htaken, hall⟩
    obtain ⟨t, ht, htr⟩ := exists_tail hwf ho h.rids.length rid ⟨v, hv, hl⟩ (by omega)
    have htl := ((isTail_eq_true hwf).mp ht).1
    refine ⟨t, ht, htr, v, hv, htaken, fun y w hty hy hw => hall y w hy hw ?_⟩
    obtain ⟨w', hw', hwl⟩ := closed_reflTransGen (chains_live hc).down htl hty
    rw [hw, some.injEq] at hw'
    exact hw' ▸ hwl

end Walk

/-! ### The versions that are entered -/

section Chosen

variable {h : Heap α} {committed : List ℕ} {order : List RowId} {t : RowId}

/-- The versions that the walks from the slots of a list find. -/
def chosen (h : Heap α) (committed : List ℕ) (order : List RowId) : List RowId :=
  order.filterMap fun rid =>
  if isTail h rid then (liveVersion h committed h.rids.length rid).join else none

theorem liveVersion_of_tail (committed : List ℕ) (hwf : h.WF) (hc : Chained h) (ho : Ordered h)
    (ht : isTail h t = true) :
    ∃ r, liveVersion h committed h.rids.length t = some r ∧ ∀ rid, r = some rid ↔
    Found h committed t rid := by
  have hl := ((isTail_eq_true hwf).mp ht).1
  obtain ⟨v, hv, -⟩ := id hl
  exact liveVersion_spec hc ho _ t hl (idxOf_lt_length_iff.mpr (mem_rids_of_header hwf hv))

variable (hwf : h.WF) (hc : Chained h) (ho : Ordered h)

include hwf hc ho

theorem chosen_step : (if isTail h t then
    (liveVersion h committed h.rids.length t).join else none) = some rid ↔
      isTail h t = true ∧ Found h committed t rid := by
  by_cases ht : isTail h t = true
  · obtain ⟨r, hr, hf⟩ := liveVersion_of_tail committed hwf hc ho ht
    rw [if_pos ht, hr, join_some, hf]
    exact ⟨fun h => ⟨ht, h⟩, fun h => h.2⟩
  · rw [if_neg ht]
    exact ⟨nofun, fun h => absurd h.1 ht⟩

theorem mem_chosen (hperm : order.Perm h.rids) (hv : h.header? rid = some v) (hl : v.createTxId ≠ 0) :
    rid ∈ chosen h committed order ↔ Taken committed v ∧ AllNewer h rid (Skipped committed) := by
  rw [← exists_found_iff hwf hc ho hv hl, chosen, mem_filterMap]
  constructor
  · rintro ⟨t, -, ht⟩
    exact ⟨t, (chosen_step hwf hc ho).mp ht⟩
  · rintro ⟨t, ht, hf⟩
    obtain ⟨w, hw, -⟩ := ((isTail_eq_true hwf).mp ht).1
    exact ⟨t, hperm.mem_iff.mpr (mem_rids_of_header hwf hw), (chosen_step hwf hc ho).mpr ⟨ht, hf⟩⟩

theorem nodup_chosen (hperm : order.Perm h.rids) : (chosen h committed order).Nodup := by
  refine List.Nodup.filterMap ?_ (hperm.nodup_iff.mpr (Heap.nodup_rids hwf))
  intro t t' rid ht ht'
  obtain ⟨htail, hf⟩ := (chosen_step hwf hc ho).mp ht
  obtain ⟨htail', hf'⟩ := (chosen_step hwf hc ho).mp ht'
  -- both are the newest version of the chain
  have h1 := reflTransGen_of_tail hwf hc htail hf.1 ((isTail_eq_true hwf).mp htail').1 hf'.1
  have h2 := reflTransGen_of_tail hwf hc htail' hf'.1 ((isTail_eq_true hwf).mp htail).1 hf.1
  rcases reflTransGen_iff_eq_or_transGen.mp h1 with heq | hlt
  · exact heq.symm
  · have h3 := idxOf_lt_of_newer ho hlt
    have h4 := idxOf_le_of_reflTransGen ho h2
    omega

end Chosen

/-! ### The entries -/

section Entries

variable [DecidableEq κ] {h : Heap α} {keys : IndexKeys α κ} {e e' : Entries κ} {ixs : List IndexId}
  {rids : List RowId} {tuple : α}

/-- An entry goes into an index unless the index is unique and has the key. -/
theorem addEntry_eq (e : Entries κ) (ix : IndexId) (k : κ) (rid : RowId) :
    addEntry e ix k rid = if ix.isUnique = true ∧ k ∈ (e ix).map Prod.fst then .error (.duplicate ix)
      else .ok (Function.update e ix (e ix ++ [(k, rid)])) := by
  unfold addEntry
  have hany : (e ix).any (·.1 = k) = true ↔ k ∈ (e ix).map Prod.fst := by simp
  by_cases hu : ix.isUnique = true
  · by_cases hk : k ∈ (e ix).map Prod.fst
    · rw [if_pos (by rw [hu, hany.mpr hk]; rfl), if_pos ⟨hu, hk⟩]
    · rw [if_neg (by rw [hu, Bool.true_and, hany]; exact hk), if_neg fun h => hk h.2]
  · rw [if_neg (by simp [hu]), if_neg fun h => hu h.1]

/-- What a row adds to the indexes of a list. -/
theorem addRow_ok (hnd : ixs.Nodup) (hadd : addRow keys tuple rid e ixs = .ok e') (ix : IndexId) :
    e' ix = e ix ++ (if ix ∈ ixs then ((keys.key ix tuple).map (·, rid)).toList else []) := by
  induction ixs generalizing e with
  | nil =>
    cases hadd
    simp
  | cons i rest ih =>
    obtain ⟨hi, hnd⟩ := nodup_cons.mp hnd
    simp only [addRow] at hadd
    split at hadd
    case h_1 hk =>
      rw [ih hnd hadd]
      obtain rfl | hix := eq_or_ne ix i
      · simp [hi, hk]
      · simp [hix]
    case h_2 k hk =>
      split at hadd
      case h_1 => cases hadd
      case h_2 e₁ he₁ =>
        rw [addEntry_eq] at he₁
        split at he₁
        case isTrue => cases he₁
        case isFalse =>
          cases he₁
          rw [ih hnd hadd]
          obtain rfl | hix := eq_or_ne ix i
          · simp [hi, hk]
          · simp [hix]

/-- A row goes into the indexes if none of its keys is taken. -/
theorem addRow_of_fresh (hnd : ixs.Nodup)
    (hfresh : ∀ ix ∈ ixs, ix.isUnique = true → ∀ k, keys.key ix tuple = some k →
      k ∉ (e ix).map Prod.fst) :
    ∃ e', addRow keys tuple rid e ixs = .ok e' := by
  induction ixs generalizing e with
  | nil => exact ⟨e, rfl⟩
  | cons i rest ih =>
    obtain ⟨hi, hnd⟩ := nodup_cons.mp hnd
    simp only [addRow]
    cases hk : keys.key i tuple with
    | none => exact ih hnd fun ix hix => hfresh ix (mem_cons_of_mem _ hix)
    | some k =>
      have hno : ¬ (i.isUnique = true ∧ k ∈ (e i).map Prod.fst) :=
        fun ⟨hu, hmem⟩ => hfresh i mem_cons_self hu k hk hmem
      simp only [addEntry_eq, if_neg hno]
      refine ih hnd fun ix hix hu k' hk' => ?_
      have hne : ix ≠ i := fun heq => hi (heq ▸ hix)
      rw [Function.update_of_ne hne]
      exact hfresh ix (mem_cons_of_mem _ hix) hu k' hk'

/-- Versions go into the indexes one after the other. -/
def addVersions (h : Heap α) (keys : IndexKeys α κ) (e : Entries κ) :
    List RowId → Except RebuildError (Entries κ)
  | [] => .ok e
  | rid :: rest =>
    match addVersion h keys rid e with
    | .error err => .error err
    | .ok e' => addVersions h keys e' rest

theorem addVersion_ok (hadd : addVersion h keys rid e = .ok e')
    (hix : ix ∈ keys.indexes) : e' ix = e ix ++ (entry h keys ix rid).toList := by
  unfold addVersion at hadd
  unfold entry
  split at hadd
  case h_1 hs =>
    cases hadd
    simp [hs]
  case h_2 s hs =>
    rw [addRow_ok keys.nodup hadd ix, if_pos hix, hs]
    rfl

theorem addVersion_of_fresh
    (hfresh : ∀ ix ∈ keys.indexes, ix.isUnique = true → ∀ p, entry h keys ix rid = some p →
      p.1 ∉ (e ix).map Prod.fst) : ∃ e', addVersion h keys rid e = .ok e' := by
  unfold addVersion
  split
  case h_1 => exact ⟨e, rfl⟩
  case h_2 s hs =>
    refine addRow_of_fresh keys.nodup fun ix hix hu k hk => ?_
    exact hfresh ix hix hu (k, rid) (by simp [entry, hs, hk])

/-- The indexes hold the entries of the versions. -/
theorem addVersions_ok (hadd : addVersions h keys e rids = .ok e')
    (hix : ix ∈ keys.indexes) : e' ix = e ix ++ rids.filterMap (entry h keys ix) := by
  induction rids generalizing e with
  | nil =>
    cases hadd
    simp
  | cons rid rest ih =>
    simp only [addVersions] at hadd
    split at hadd
    case h_1 => cases hadd
    case h_2 e₁ he₁ =>
      rw [ih hadd, addVersion_ok he₁ hix]
      cases hent : entry h keys ix rid <;> simp [hent]

/-- The versions go into the indexes if their keys are different. -/
theorem addVersions_of_distinct (hdist : ∀ ix ∈ keys.indexes, ix.isUnique = true →
      ((e ix).map Prod.fst ++ (rids.filterMap (entry h keys ix)).map Prod.fst).Nodup) :
    ∃ e', addVersions h keys e rids = .ok e' := by
  induction rids generalizing e with
  | nil => exact ⟨e, rfl⟩
  | cons rid rest ih =>
    obtain ⟨e₁, he₁⟩ : ∃ e₁, addVersion h keys rid e = .ok e₁ := by
      refine addVersion_of_fresh fun ix hix hu p hp hmem => ?_
      have hd := hdist ix hix hu
      rw [filterMap_cons, hp] at hd
      exact (nodup_append.mp hd).2.2 _ hmem _ (mem_map_of_mem mem_cons_self) rfl
    simp only [addVersions, he₁]
    refine ih fun ix hix hu => ?_
    have hd := hdist ix hix hu
    rw [addVersion_ok he₁ hix]
    cases hent : entry h keys ix rid with
    | none | some p => simpa [filterMap_cons, hent] using hd

/-- **The rebuild enters the versions that the walks find.** -/
theorem rebuild_eq {committed : List ℕ} (hwf : h.WF) (hc : Chained h) (ho : Ordered h)
    (order : List RowId) :
    rebuild h committed keys order = addVersions h keys (fun _ => []) (chosen h committed order) := by
  suffices ∀ e, rebuildFrom h committed keys e order = addVersions h keys e
    (chosen h committed order) from this _
  induction order with
  | nil => exact fun e => rfl
  | cons t rest ih =>
    intro e
    simp only [rebuildFrom, chosen, filterMap_cons]
    by_cases ht : isTail h t = true
    · obtain ⟨r, hr, -⟩ := liveVersion_of_tail committed hwf hc ho ht
      rw [if_pos ht, if_pos ht, hr]
      cases r with
      | none => exact ih e
      | some rid =>
        simp only [join_some, addVersions]
        cases addVersion h keys rid e with
        | error err => rfl
        | ok e' => exact ih e'
    · rw [if_neg ht, if_neg ht]
      exact ih e

end Entries

/-! ### The rebuild and the scan -/

section Agree

variable {h : Heap α} {keys : IndexKeys α κ} {committed : List ℕ} {order rows l l' : List RowId}
  {vis : VisMap} {p : κ × RowId}

theorem suppresses_none_iff (v : VersionHeader) : suppresses none [] v = true ↔ v.createTxId ≠ 0 ∧
    v.mark ≠ .unset := by
  unfold suppresses
  by_cases h0 : v.createTxId = 0
  · simp [h0]
  · cases hm : v.mark <;> simp [h0, VersionHeader.isDeleted, VersionHeader.commitTxId, hm]

/-- **The rows of a scan without a snapshot**, when no transaction is active: the versions that are
not tombstones and that only versions without a commit mark replace. -/
theorem mem_rows (hwf : h.WF) (hc : Chained h) (hrows : scan h vis none [] = .ok rows)
    (hv : h.header? rid = some v) :
    rid ∈ rows ↔ v.isDeleted = false ∧ AllNewer h (h.position rid) (·.mark = .unset) := by
  obtain ⟨hok, rfl⟩ := scan_none hwf hrows
  obtain ⟨s, hs, -⟩ := header?_eq_some.mp hv
  obtain ⟨b, hb⟩ := hok rid s hs
  have hy : yields h none none rid = true ↔ v.isDeleted = false := by simp [yields, hv, visible]
  have hhead : isHead h none [] rid = true ↔ AllNewer h (h.position rid) (·.mark = .unset) := by
    rcases superseded_spec hwf (chains_live hc) hb with ⟨rfl, y, w, hlt, hw, hsup⟩ | ⟨rfl, hnone⟩
    · obtain ⟨hl, hm⟩ := (suppresses_none_iff w).mp hsup
      simp only [isHead, hb, Bool.false_eq_true, false_iff]
      exact fun hall => hm (hall y w hlt hw hl)
    · simp only [isHead, hb, true_iff]
      intro y w hlt hw hl
      by_contra hm
      have := hnone y w ⟨w, hw, hl⟩ hlt hw
      rw [(suppresses_none_iff w).mpr ⟨hl, hm⟩] at this
      cases this
  rw [mem_filter, Bool.and_eq_true, hy, hhead, Heap.mem_rids hwf]
  exact ⟨fun h => ⟨h.2.2, h.2.1⟩, fun h => ⟨⟨s, hs⟩, h.2, h.1⟩⟩

theorem entry_snd (hp : entry h keys ix rid = some p) : p.2 = rid := by
  simp only [entry, Option.bind_eq_some_iff, Option.map_eq_some_iff] at hp
  obtain ⟨s, -, k, -, rfl⟩ := hp
  rfl

/-- The entry of a version is among those of a list exactly if the version is in the list. -/
theorem mem_entries (hp : entry h keys ix rid = some p) : p ∈ l.filterMap (entry h keys ix) ↔
    rid ∈ l := by
  rw [mem_filterMap]
  constructor
  · rintro ⟨r, hr, hrp⟩
    rwa [← entry_snd hp, entry_snd hrp]
  · intro hr
    exact ⟨rid, hr, hp⟩

theorem nodup_entries (hl : l.Nodup) : (l.filterMap (entry h keys ix)).Nodup := by
  refine hl.filterMap fun r r' p hr hr' => ?_
  rw [← entry_snd hr, entry_snd hr']

/-- Two lists without repetitions that agree on the versions that have a key have the same
entries. -/
theorem perm_entries (hl : l.Nodup) (hl' : l'.Nodup)
    (hiff : ∀ rid, entry h keys ix rid ≠ none → (rid ∈ l ↔ rid ∈ l')) :
    (l.filterMap (entry h keys ix)).Perm (l'.filterMap (entry h keys ix)) := by
  refine (perm_ext_iff_of_nodup (nodup_entries hl) (nodup_entries hl')).mpr fun p => ?_
  simp only [mem_filterMap]
  refine exists_congr fun rid => and_congr_left fun hp => hiff rid ?_
  rw [hp]
  nofun

/-- Where the condition holds, the rebuild enters the rows of the scan. -/
theorem mem_chosen_iff_mem_rows (hwf : h.WF) (hc : Chained h) (ho : Ordered h)
    (hperm : order.Perm h.rids)
    (hrows : scan h vis none [] = .ok rows) (hcons : Consistent h committed keys)
    (hix : ix ∈ keys.indexes) (hkey : entry h keys ix rid ≠ none) :
    rid ∈ chosen h committed order ↔ rid ∈ rows := by
  cases hv : h.header? rid with
  | none =>
    have hs : h.slot? rid = none := by simpa [Heap.header?] using hv
    exact absurd (by simp [entry, hs]) hkey
  | some v =>
    rw [mem_rows hwf hc hrows hv]
    by_cases hdel : v.isDeleted = false
    · have hk : Keyed h keys rid v := ⟨hv, hdel, ix, hix, hkey⟩
      rw [mem_chosen hwf hc ho hperm hv (hc.live rid v hv hdel)]
      constructor
      · rintro ⟨ht, hs⟩
        exact ⟨hdel, hcons.tombstone rid v hk ht hs⟩
      · rintro ⟨-, hall⟩
        exact ⟨hcons.creator rid v hk hall, hcons.newer rid v hk hall⟩
    · refine iff_of_false (fun hmem => ?_) fun h => hdel h.1
      obtain ⟨t, -, ht⟩ := mem_filterMap.mp hmem
      obtain ⟨-, -, w, hw, htaken, -⟩ := (chosen_step hwf hc ho).mp ht
      rw [hv, some.injEq] at hw
      exact hdel (hw ▸ htaken.1)

end Agree

section Exact

variable [DecidableEq κ]

/-- **The new indexes are exact**: if the rebuild ends well they hold the entries of the rows, and
it does end well if the rows have different keys. -/
def RebuildExact (h : Heap α) (committed : List ℕ) (keys : IndexKeys α κ)
    (order rows : List RowId) : Prop :=
  (∀ e, rebuild h committed keys order = .ok e → Exact h keys rows e) ∧
  (DistinctKeys h keys rows → ∃ e, rebuild h committed keys order = .ok e)

end Exact

/-- A table of one page with a row and a newer version of it. -/
def updatedTable : Heap ℕ :=
  .onePage [⟨⟨1, .committed 1, none⟩, 5⟩, ⟨⟨2, .committed 2, some ⟨0, 0⟩⟩, 6⟩]

/-- The tuple is the key, and there is only the primary key. -/
def numberKeys : IndexKeys ℕ ℕ := ⟨[.pk], nodup_singleton _, fun _ tuple => some tuple⟩

theorem replaces_updatedTable (h : Replaces updatedTable x r) : x = ⟨0, 1⟩ ∧ r = ⟨0, 0⟩ := by
  obtain ⟨v, hv, hn⟩ := h
  rcases header?_of_two (fun _ => rfl) hv with ⟨rfl, rfl⟩ | ⟨rfl, rfl⟩
  · cases hn
  · exact ⟨rfl, (some.inj hn).symm⟩

/-- A row that transaction 1 has inserted and transaction 2 has deleted, and a row of transaction 3
with the key `k`. -/
def deletedTable (k : ℕ) : Heap ℕ :=
  .onePage [⟨⟨1, .committed 1, none⟩, 5⟩, ⟨⟨2, .deleted, some ⟨0, 0⟩⟩, 0⟩, ⟨⟨3, .committed 3, none⟩, k⟩]

/-- A page that redo has built: the slot with the id 0, of a transaction that did not commit, was
not written to the file, and the two versions of a row are found before their ids. -/
def redoneTable : Heap ℕ :=
  ⟨[0], fun page => if page = 0 then
    [(1, ⟨⟨2, .committed 2, none⟩, 5⟩), (2, ⟨⟨3, .committed 3, some ⟨0, 1⟩⟩, 5⟩)] else []⟩

end RTsql.Wal

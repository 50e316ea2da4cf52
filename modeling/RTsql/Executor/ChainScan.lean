import RTsql.Executor.DataScan
import RTsql.Library.Forest

/-!
# Scans and version chains

A version replaces the one its header names. When the versions that count have at
most one superseder that counts, the map of superseded versions follows the chain,
and the walk of `slot_is_superseded` finds a version that suppresses the slot
exactly if there is one above it.

Versions that do not count are those of rolled back transactions: they keep their
place in the chain, and a version may have any number of them above it.
-/

namespace RTsql.Executor

open Relation RTsql.Library RTsql.Storage RTsql.Transaction

universe u

variable {α : Type u}

/-- The version `x` replaces the version `r`. -/
def Replaces (h : Heap α) (x r : RowId) : Prop := ∃ v, h.header? x = some v ∧ v.nextVersion = some r

/-- The version `x` is newer than `r`, in one chain. -/
def Newer (h : Heap α) : RowId → RowId → Prop := TransGen (Replaces h)

/-- Two versions of one chain: one version is below both. -/
def SameChain (h : Heap α) (x y : RowId) : Prop :=
  ∃ r, ReflTransGen (Replaces h) x r ∧ ReflTransGen (Replaces h) y r

/-- Above `r` there are `n` versions, one replacing the other, that suppress nothing, and one
more. -/
def Deep (h : Heap α) (sup : VersionHeader → Bool) : ℕ → RowId → Prop
  | 0, r => ∃ x, Replaces h x r
  | n + 1, r => ∃ x v, Replaces h x r ∧ h.header? x = some v ∧ sup v = false ∧ Deep h sup n x

/-- The versions in `Good` are not aborted, what they replace is in `Good`, and no version has
two superseders that are not aborted. -/
structure Chains (h : Heap α) (Good : RowId → Prop) : Prop where
  /-- A version in `Good` is there and is not aborted. -/
  live : ∀ x, Good x → ∃ v, h.header? x = some v ∧ v.createTxId ≠ 0
  /-- So is what it replaces. -/
  down : ∀ x r, Good x → Replaces h x r → Good r
  /-- A version has one superseder that is not aborted. -/
  unique : ∀ x y r v w, h.header? x = some v → h.header? y = some w → v.createTxId ≠ 0 →
    w.createTxId ≠ 0 → v.nextVersion = some r → w.nextVersion = some r → x = y

/-- Between sessions no chain is broken or branches, apart from aborted versions. -/
structure Chained (h : Heap α) : Prop where
  /-- An aborted version is deleted. -/
  live : ∀ rid v, h.header? rid = some v → v.isDeleted = false → v.createTxId ≠ 0
  /-- What a version replaces is there and is not aborted. -/
  down : ∀ x v r, h.header? x = some v → v.createTxId ≠ 0 → v.nextVersion = some r →
    ∃ w, h.header? r = some w ∧ w.createTxId ≠ 0
  /-- No version is replaced twice. -/
  unique : ∀ x y r v w, h.header? x = some v → h.header? y = some w → v.createTxId ≠ 0 →
    w.createTxId ≠ 0 → v.nextVersion = some r → w.nextVersion = some r → x = y

section Walk

variable {h : Heap α} {Good : RowId → Prop} {sup : VersionHeader → Bool} {n : ℕ}
  {snapshot : Option Snapshot} {active : List ℕ}

variable {r x y rid : RowId}

variable (hwf : h.WF)

include hwf

theorem replaces_of_supersededMap {tx : ℕ} (hm : supersededMap h r = some (x, tx)) : Replaces h x r := by
  obtain ⟨hlink, -⟩ := (supersededMap_spec h).2 r x tx hm
  obtain ⟨v, hv, -, hnext⟩ := (mem_versionLinks hwf).mp hlink
  exact ⟨v, hv, hnext⟩

/-- **The map follows the chain**: a superseder that counts is the one in the map. -/
theorem supersededMap_of_good (hc : Chains h Good) (hx : Good x)
    (hr : Replaces h x r) : ∃ tx, supersededMap h r = some (x, tx) := by
  obtain ⟨v, hv, hnext⟩ := hr
  obtain ⟨v', hv', hlive⟩ := hc.live x hx
  obtain rfl := Option.mem_unique hv hv'
  obtain ⟨y, w, hm, hw, hwlive, hwnext⟩ := supersededMap_of_replaced hwf ⟨x, v, hv, hlive, hnext⟩
  obtain rfl := hc.unique x y r v w hv hw hlive hwlive hnext hwnext
  exact ⟨_, hm⟩

/-- The walk has found a version that suppresses the slot: there is one. -/
theorem exists_of_walk_true (hw : walk h (supersededMap h) sup n x = .ok true) :
    ∃ y v, ReflTransGen (Replaces h) y x ∧ h.header? y = some v ∧ sup v = true := by
  induction n generalizing x with
  | zero => cases hw
  | succ n ih =>
    simp only [walk] at hw
    split at hw
    case h_1 => cases hw
    case h_2 v hv =>
      split at hw
      case isTrue hsup => exact ⟨x, v, .refl, hv, hsup⟩
      case isFalse =>
        split at hw
        case h_1 => cases hw
        case h_2 next tx hm =>
          obtain ⟨y, w, hy, hyv, hsup⟩ := ih hw
          exact ⟨y, w, hy.tail (replaces_of_supersededMap hwf hm), hyv, hsup⟩

/-- The walk has found none: no version above that counts suppresses the slot. -/
theorem sup_eq_false_of_walk (hc : Chains h Good)
    (hw : walk h (supersededMap h) sup n x = .ok false) (hy : Good y)
    (hyx : ReflTransGen (Replaces h) y x) {v : VersionHeader} (hv : h.header? y = some v) :
    sup v = false := by
  induction n generalizing x with
  | zero => cases hw
  | succ n ih =>
    simp only [walk] at hw
    split at hw
    case h_1 => cases hw
    case h_2 vx hvx =>
      split at hw
      case isTrue => cases hw
      case isFalse hsup =>
        cases hyx with
        | refl =>
          rw [hv, Option.some.injEq] at hvx
          rw [hvx]
          exact Bool.eq_false_iff.mpr hsup
        | @tail z _ hyz hzx =>
          have hz : Good z := closed_reflTransGen hc.down hy hyz
          obtain ⟨tx, hm⟩ := supersededMap_of_good hwf hc hz hzx
          rw [hm] at hw
          exact ih hw hyz

/-- The walk has given up: there are that many versions above. -/
theorem deep_of_walk_error (hr : Replaces h x r) {e : ScanError}
    (hw : walk h (supersededMap h) sup n x = .error e) : Deep h sup n r := by
  induction n generalizing x r with
  | zero => exact ⟨x, hr⟩
  | succ n ih =>
    obtain ⟨v, hv, hnext⟩ := hr
    simp only [walk, hv] at hw
    split at hw
    case isTrue => cases hw
    case isFalse hsup =>
      split at hw
      case h_1 => cases hw
      case h_2 next tx hm =>
        exact ⟨x, v, ⟨v, hv, hnext⟩, hv, Bool.eq_false_iff.mpr hsup,
          ih (replaces_of_supersededMap hwf hm) hw⟩

/-- The superseded check ends on chains that are not too deep. -/
theorem superseded_ok (hdeep : ¬ Deep h (suppresses snapshot active) maxChainDepth rid) :
    ∃ b, superseded h snapshot active rid = .ok b := by
  unfold superseded
  split
  case h_1 => exact ⟨false, rfl⟩
  case h_2 next tx hm =>
    cases hw : walk h (supersededMap h) (suppresses snapshot active) maxChainDepth next with
    | error e => exact absurd (deep_of_walk_error hwf (replaces_of_supersededMap hwf hm) hw) hdeep
    | ok b => exact ⟨b, rfl⟩

/-- **The superseded check** is right when it finds a version that suppresses the slot, and there
is none that counts when it finds none. -/
theorem superseded_spec (hc : Chains h Good) {b : Bool}
    (hok : superseded h snapshot active rid = .ok b) :
    (b = true ∧ ∃ y v, Newer h y rid ∧ h.header? y = some v ∧ suppresses snapshot active v = true) ∨
    (b = false ∧ ∀ y v, Good y → Newer h y rid → h.header? y = some v →
      suppresses snapshot active v = false) := by
  unfold superseded at hok
  split at hok
  case h_1 hm =>
    cases hok
    refine .inr ⟨rfl, fun y v hy hyr _ => ?_⟩
    obtain ⟨z, hyz, hzr⟩ := TransGen.tail'_iff.mp hyr
    obtain ⟨tx, hm'⟩ := supersededMap_of_good hwf hc (closed_reflTransGen hc.down hy hyz) hzr
    cases hm.symm.trans hm'
  case h_2 next tx hm =>
    cases b with
    | true =>
      obtain ⟨y, v, hy, hv, hsup⟩ := exists_of_walk_true hwf hok
      exact .inl ⟨rfl, y, v, TransGen.tail' hy (replaces_of_supersededMap hwf hm), hv, hsup⟩
    | false =>
      refine .inr ⟨rfl, fun y v hy hyr hv => ?_⟩
      obtain ⟨z, hyz, hzr⟩ := TransGen.tail'_iff.mp hyr
      obtain ⟨tx', hm'⟩ := supersededMap_of_good hwf hc (closed_reflTransGen hc.down hy hyz) hzr
      rw [hm] at hm'
      obtain ⟨rfl, -⟩ := hm'
      exact sup_eq_false_of_walk hwf hc hok hy hyz hv

omit hwf

/-- Two versions of one chain that count are one newer than the other. -/
theorem newer_of_sameChain (hc : Chains h Good) (hx : Good x) (hy : Good y)
    (hxy : SameChain h x y) : x = y ∨ Newer h x y ∨ Newer h y x := by
  obtain ⟨r, hxr, hyr⟩ := hxy
  have unique : ∀ a b r, Good a → Good b → Replaces h a r → Replaces h b r → a = b := by
    rintro a b r ha hb ⟨v, hv, hvn⟩ ⟨w, hw, hwn⟩
    obtain ⟨v', hv', hvl⟩ := hc.live a ha
    obtain ⟨w', hw', hwl⟩ := hc.live b hb
    rw [hv, Option.some.injEq] at hv'
    rw [hw, Option.some.injEq] at hw'
    exact hc.unique a b r v w hv hw (hv' ▸ hvl) (hw' ▸ hwl) hvn hwn
  rcases comparable hc.down unique hx hy hxr hyr with h | h
  · rcases reflTransGen_iff_eq_or_transGen.mp h with heq | hlt
    · exact .inl heq.symm
    · exact .inr (.inl hlt)
  · rcases reflTransGen_iff_eq_or_transGen.mp h with heq | hlt
    · exact .inl heq
    · exact .inr (.inr hlt)

/-- The versions that are there and not aborted. -/
def Live (h : Heap α) (rid : RowId) : Prop := ∃ v, h.header? rid = some v ∧ v.createTxId ≠ 0

theorem chains_live (hc : Chained h) : Chains h (Live h) where
  live := fun _ hx => hx
  unique := hc.unique
  down := by
    rintro x r ⟨v, hv, hl⟩ ⟨v', hv', hnext⟩
    obtain rfl := Option.mem_unique hv hv'
    exact hc.down x v r hv hl hnext

end Walk

end RTsql.Executor

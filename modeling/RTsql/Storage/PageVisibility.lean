import RTsql.Transaction.VersionHeader
import Mathlib.Logic.Function.Basic

/-!
# Page visibility summaries

`page_visibility.rs` and the summary map of the buffer pool. A summary says that
every version of a page was found visible, and keeps the smallest creator id that
inserts have recorded. `MIN_CREATE_UNKNOWN`, which the source keeps in the same
`u64`, is `none` here; it is neutral for the minimum.
-/

namespace RTsql.Storage

open Function

/-- `PageVisibilityInfo`. -/
structure PageVisibilityInfo where
  /-- The smallest creator recorded, `none` for `MIN_CREATE_UNKNOWN`. -/
  minCreateTxId : Option ℕ
  /-- Every slot was found visible. -/
  allVisible : Bool
  deriving DecidableEq

/-- `PageVisibilityInfo::all_invisible_for`. -/
def PageVisibilityInfo.allInvisibleFor (info : PageVisibilityInfo) (highWater : ℕ) : Bool :=
  match info.minCreateTxId with
  | some m => decide (highWater < m)
  | none => false

/-- The summary map. -/
abbrev VisMap := ℕ → Option PageVisibilityInfo

namespace VisMap

/-- `set_all_visible`. -/
def setAllVisible (m : VisMap) (page : ℕ) : VisMap :=
  update m page <| some <|
    match m page with
    | some info => { info with allVisible := true }
    | none => ⟨none, true⟩

/-- `clear_all_visible`. -/
def clearAllVisible (m : VisMap) (page : ℕ) : VisMap :=
  update m page <| some <|
    match m page with
    | some info => { info with allVisible := false }
    | none => ⟨none, false⟩

/-- The smaller of the recorded minimum and a new creator. -/
def minWith (m : Option ℕ) (tx : ℕ) : ℕ :=
  match m with
  | some k => min k tx
  | none => tx

theorem minWith_le (m : Option ℕ) (tx : ℕ) : minWith m tx ≤ tx := by
  cases m with
  | none => exact Nat.le_refl _
  | some k => exact Nat.min_le_right k tx

/-- `update_visibility_on_insert`. -/
def updateVisibilityOnInsert (m : VisMap) (page tx : ℕ) : VisMap :=
  update m page <| some <|
    match m page with
    | some info => ⟨some (minWith info.minCreateTxId tx), false⟩
    | none => ⟨some tx, false⟩

/-- Whether the summary of a page is set all-visible. -/
def AllVisible (m : VisMap) (page : ℕ) : Prop := ∃ info, m page = some info ∧ info.allVisible = true

/-- The minimum that the summary of a page records. -/
def minCreate (m : VisMap) (page : ℕ) : Option ℕ := (m page).bind PageVisibilityInfo.minCreateTxId

variable {page p : ℕ} {m : VisMap}

theorem minCreate_eq_some {k : ℕ} :
    m.minCreate page = some k ↔ ∃ info, m page = some info ∧ info.minCreateTxId = some k := by
  simp [minCreate, Option.bind_eq_some_iff]

theorem minCreate_update (m : VisMap) (page : ℕ) (info : PageVisibilityInfo) (p : ℕ) :
    minCreate (update m page (some info)) p =
      if p = page then info.minCreateTxId else m.minCreate p := by
  rw [minCreate, update_apply]
  split <;> rfl

@[simp] theorem minCreate_setAllVisible (m : VisMap) (page p : ℕ) :
    (m.setAllVisible page).minCreate p = m.minCreate p := by
  refine (minCreate_update ..).trans (ite_eq_right_iff.mpr fun hp => ?_)
  subst hp
  rw [minCreate]
  cases m p <;> rfl

@[simp] theorem minCreate_clearAllVisible (m : VisMap) (page p : ℕ) :
    (m.clearAllVisible page).minCreate p = m.minCreate p := by
  refine (minCreate_update ..).trans (ite_eq_right_iff.mpr fun hp => ?_)
  subst hp
  rw [minCreate]
  cases m p <;> rfl

theorem minCreate_updateVisibilityOnInsert (m : VisMap) (page tx p : ℕ) :
    (m.updateVisibilityOnInsert page tx).minCreate p =
      if p = page then some (minWith (m.minCreate p) tx) else m.minCreate p := by
  refine (minCreate_update ..).trans (ite_congr rfl (fun hp => ?_) fun _ => rfl)
  subst hp
  rw [minCreate]
  cases m p <;> rfl

theorem allVisible_of_setAllVisible (h : (m.setAllVisible page).AllVisible p) :
    p = page ∨ m.AllVisible p := by
  by_cases hp : p = page
  · exact .inl hp
  · right
    simpa only [AllVisible, setAllVisible, update_of_ne hp] using h

/-- A page whose summary is not set. -/
theorem allVisible_of_update {info : PageVisibilityInfo} (hinfo : info.allVisible = false)
    (h : AllVisible (update m page (some info)) p) : p ≠ page ∧ m.AllVisible p := by
  obtain rfl | hp := eq_or_ne p page
  · simp [AllVisible, hinfo] at h
  · exact ⟨hp, by simpa only [AllVisible, update_of_ne hp] using h⟩

theorem allVisible_of_clearAllVisible (h : (m.clearAllVisible page).AllVisible p) :
    p ≠ page ∧ m.AllVisible p := allVisible_of_update (by cases m page <;> rfl) h

theorem allVisible_of_updateVisibilityOnInsert {tx : ℕ}
    (h : (m.updateVisibilityOnInsert page tx).AllVisible p) : p ≠ page ∧ m.AllVisible p :=
  allVisible_of_update (by cases m page <;> rfl) h

end VisMap

end RTsql.Storage

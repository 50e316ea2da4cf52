import Mathlib.Data.List.Basic
import Mathlib.Logic.Relation

/-!
# Runs of a labelled system

A system is given by a partial step function `step : σ → α → Option σ`: in state
`s` the label `a` leads to `step s a`, and `none` says that the label is not
enabled there. A label names the party that moves and resolves every choice the
system leaves open, so an interleaving is a list of labels and the list is all
that is needed to replay it.

* `run step s as` — the state after the labels `as`, if all are enabled.
* `Guarded ok step s as` — every label of the run is taken in a state where the
  guard `ok` allows it.
* `run_invariant` — what every guarded step preserves, every guarded run
  preserves.
-/

namespace RTsql.Library

open Function

universe u v

variable {σ : Type u} {α : Type v} {ok : σ → α → Prop} {step : σ → α → Option σ}

/-- The state after the labels of a run, in order. -/
def run (step : σ → α → Option σ) (s : σ) : List α → Option σ
  | [] => some s
  | a :: as => (step s a).bind fun s' => run step s' as

/-- Every label of the run is taken in a state where `ok` allows it. -/
def Guarded (ok : σ → α → Prop) (step : σ → α → Option σ) (s : σ) : List α → Prop
  | [] => True
  | a :: as => ok s a ∧ ∀ s', step s a = some s' → Guarded ok step s' as

@[simp] theorem run_nil (s : σ) : run step s [] = some s := rfl

variable {as bs : List α} {s s' : σ}

theorem run_cons_eq_some {a : α} :
    run step s (a :: as) = some s' ↔ ∃ u, step s a = some u ∧ run step u as = some s' := by
  simp [run, Option.bind_eq_some_iff]

theorem run_append : run step s (as ++ bs) = (run step s as).bind fun u => run step u bs := by
  induction as generalizing s with
  | nil => rfl
  | cons a as ih => simp only [List.cons_append, run, ih, Option.bind_assoc]

/-- A guarded step was allowed. -/
theorem of_guard {c : Prop} [Decidable c] (h : (if c then some s else none) = some s') : c ∧ s = s' := by
  simpa using h

theorem of_unless {c : Prop} [Decidable c] (h : (if c then none else some s) = some s') : ¬ c ∧
    s = s' := by
  simpa using h

variable {ι β : Type*}

/-- Where one party of a system has moved: the value is the new one, or it is that of another
party. -/
theorem update_cases [DecidableEq ι] {f : ι → β} {i j : ι} {b : β} {P : β → Prop}
    (h : P (update f i b j)) : j = i ∧ P b ∨ j ≠ i ∧ P (f j) := by
  obtain rfl | hj := eq_or_ne j i
  · exact .inl ⟨rfl, by rwa [update_self] at h⟩
  · exact .inr ⟨hj, by rwa [update_of_ne hj] at h⟩

/-- What holds of the old value of a party that has moved, and passes to its new one, still holds of
every party. -/
theorem update_keeps [DecidableEq ι] {f : ι → β} {i j : ι} {b : β} {P : β → Prop} (h : P (f j))
    (hb : P (f i) → P b) : P (update f i b j) := by
  obtain rfl | hj := eq_or_ne j i
  · rw [update_self]
    exact hb h
  · rwa [update_of_ne hj]

theorem update_eq_cases [DecidableEq ι] {f : ι → β} {i j : ι} {b c : β} (h : update f i b j = c) :
    j = i ∧ b = c ∨ j ≠ i ∧ f j = c :=
  update_cases (P := (· = c)) h

/-- What a run leads to can be tested: the run is computed and the state looked at. -/
instance decidableExistsSome {o : Option σ} {P : σ → Prop} [DecidablePred P] :
    Decidable (∃ s, o = some s ∧ P s) :=
  match o with
  | none => isFalse (by simp)
  | some s => decidable_of_iff (P s) (by simp)

/-- The state after a run, if every label is enabled and allowed. -/
def runChecked (ok : σ → α → Prop) [∀ s a, Decidable (ok s a)] (step : σ → α → Option σ) (s : σ) :
    List α → Option σ
  | [] => some s
  | a :: as => if ok s a then (step s a).bind fun s' => runChecked ok step s' as else none

/-- A run that was checked is guarded. -/
theorem of_runChecked [∀ s a, Decidable (ok s a)]
    (h : runChecked ok step s as = some s') : Guarded ok step s as ∧ run step s as = some s' := by
  induction as generalizing s with
  | nil => exact ⟨trivial, h⟩
  | cons a as ih =>
    obtain ⟨hok, h⟩ := Option.ite_none_right_eq_some.mp h
    obtain ⟨u, hu, h⟩ := Option.bind_eq_some_iff.mp h
    obtain ⟨hguard, hrun⟩ := ih h
    refine ⟨⟨hok, fun w hw => ?_⟩, run_cons_eq_some.mpr ⟨u, hu, hrun⟩⟩
    rw [hu] at hw
    exact Option.some.inj hw ▸ hguard

/-- What is seen after a run that was checked, and what follows. -/
theorem exists_run [∀ s a, Decidable (ok s a)] {s₀ : σ} {P Q : σ → Prop}
    (h : ∃ s, runChecked ok step s₀ as = some s ∧ P s)
    (hQ : ∀ s, Guarded ok step s₀ as → run step s₀ as = some s → P s → Q s) :
    ∃ s, run step s₀ as = some s ∧ P s ∧ Q s := by
  obtain ⟨s, hs, hP⟩ := h
  obtain ⟨hok, hr⟩ := of_runChecked hs
  exact ⟨s, hr, hP, hQ s hok hr hP⟩

/-- A guarded run, in two parts. -/
theorem guarded_append :
    Guarded ok step s (as ++ bs) ↔ Guarded ok step s as ∧ ∀ u, run step s as = some u →
    Guarded ok step u bs := by
  induction as generalizing s with
  | nil => simp [Guarded]
  | cons a as ih =>
    simp only [List.cons_append, Guarded, ih, run_cons_eq_some]
    constructor
    · rintro ⟨hok, h⟩
      exact ⟨⟨hok, fun v hv => (h v hv).1⟩, fun u ⟨v, hv, hu⟩ => (h v hv).2 u hu⟩
    · rintro ⟨⟨hok, h⟩, hrest⟩
      exact ⟨hok, fun v hv => ⟨h v hv, fun u hu => hrest u ⟨v, hv, hu⟩⟩⟩

/-- A weaker guard. -/
theorem Guarded.mono {ok' : σ → α → Prop} (h : ∀ s a, ok s a → ok' s a) (hok : Guarded ok step s as) :
    Guarded ok' step s as := by
  induction as generalizing s with
  | nil => trivial
  | cons a as ih => exact ⟨h s a hok.1, fun s' hs' => ih (hok.2 s' hs')⟩

/-- Labels that the guard always allows. -/
theorem guarded_of_forall (h : ∀ a ∈ as, ∀ u, ok u a) : Guarded ok step s as := by
  induction as generalizing s with
  | nil => trivial
  | cons a as ih => exact ⟨h a List.mem_cons_self s, fun _ _ => ih fun b hb => h b (List.mem_cons_of_mem _ hb)⟩

/-- **Invariants.** What every guarded step preserves holds after every guarded run. -/
theorem run_invariant {P : σ → Prop}
    (hstep : ∀ s a s', P s → ok s a → step s a = some s' → P s') {s s' : σ} {as : List α}
    (hP : P s) (hok : Guarded ok step s as) (hr : run step s as = some s') : P s' := by
  induction as generalizing s with
  | nil =>
    rw [run_nil, Option.some.injEq] at hr
    exact hr ▸ hP
  | cons a as ih =>
    obtain ⟨u, hu, hr⟩ := run_cons_eq_some.mp hr
    exact ih (hstep s a u hP hok.1 hu) (hok.2 u hu) hr

end RTsql.Library

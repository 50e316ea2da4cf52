import Mathlib.Data.List.Basic

/-!
# Computations that may fail

What it means that a computation of a list of steps in `Except` has succeeded: every
step has. These are the rules by which a sequence of checks is taken apart.
-/

namespace RTsql.Library

universe u v w

variable {ε : Type u} {α : Type v} {β γ : Type w} {x : Except ε β} {c : γ}

/-- A sequence of two computations succeeds if both do. -/
theorem bind_eq_ok {f : β → Except ε γ} :
    (x >>= f) = .ok c ↔ ∃ b, x = .ok b ∧ f b = .ok c := by
  cases x with
  | error e | ok b => simp [bind, Except.bind]

/-- A sequence of three. -/
theorem bind_bind_ok {δ : Type w} {f : β → Except ε γ} {g : β → γ → Except ε δ} {d : δ}
    (h : (x >>= fun b => f b >>= g b) = .ok d) : ∃ b, x = .ok b ∧ ∃ c, f b = .ok c ∧ g b c = .ok d := by
  obtain ⟨b, hb, h⟩ := bind_eq_ok.mp h
  exact ⟨b, hb, bind_eq_ok.mp h⟩

theorem map_eq_ok {f : β → γ} : f <$> x = .ok c ↔ ∃ b, x = .ok b ∧ f b = c := by
  cases x with
  | error e | ok b => simp [Functor.map, Except.map]

/-- What a computation gives can be tested, even where not all results can be compared. -/
instance decidableExistsOk {x : Except ε α} {P : α → Prop} [DecidablePred P] :
    Decidable (∃ a, x = .ok a ∧ P a) :=
  match x with
  | .error _ => isFalse (by simp)
  | .ok a => decidable_of_iff (P a) (by simp)

instance decidableExistsOkSome {x : Except ε (Option α)} {P : α → Prop} [DecidablePred P] :
    Decidable (∃ a, x = .ok (some a) ∧ P a) :=
  match x with
  | .error _ | .ok none => isFalse (by simp)
  | .ok (some a) => decidable_of_iff (P a) (by simp)

instance decidableEqOk [DecidableEq α] {x : Except ε α} {a : α} : Decidable (x = .ok a) :=
  match x with
  | .error _ => isFalse nofun
  | .ok b => decidable_of_iff (b = a) (by simp)

instance decidableEqError [DecidableEq ε] {x : Except ε α} {e : ε} : Decidable (x = .error e) :=
  match x with
  | .error e' => decidable_of_iff (e' = e) (by simp)
  | .ok _ => isFalse nofun

variable {xs : List α} {f : α → Except ε β}

/-- A check of every element of a list succeeds if it does for each. -/
theorem forM_eq_ok {f : α → Except ε PUnit.{w + 1}} : xs.forM f = .ok ⟨⟩ ↔ ∀ x ∈ xs, f x = .ok ⟨⟩ := by
  induction xs with
  | nil => simp [pure, Except.pure]
  | cons x xs ih =>
    show (f x >>= fun _ => xs.forM f) = _ ↔ _
    rw [bind_eq_ok, List.forall_mem_cons, ← ih]
    constructor
    · rintro ⟨⟨⟩, hx, hxs⟩
      exact ⟨hx, hxs⟩
    · rintro ⟨hx, hxs⟩
      exact ⟨⟨⟩, hx, hxs⟩

/-- Every result of a computation on a list comes from an element, and every element has its
result. -/
theorem mem_of_mapM {ys : List β} (h : xs.mapM f = .ok ys) :
    (∀ y ∈ ys, ∃ x ∈ xs, f x = .ok y) ∧ ∀ x ∈ xs, ∃ y ∈ ys, f x = .ok y := by
  induction xs generalizing ys with
  | nil =>
    cases h
    exact ⟨nofun, nofun⟩
  | cons x xs ih =>
    rw [List.mapM_cons, bind_eq_ok] at h
    obtain ⟨z, hz, h⟩ := h
    obtain ⟨zs, hzs, ⟨⟩⟩ := bind_eq_ok.mp h
    obtain ⟨hfrom, hto⟩ := ih hzs
    simp only [List.forall_mem_cons, List.exists_mem_cons_iff]
    exact ⟨⟨.inl hz, fun y hy => .inr (hfrom y hy)⟩, .inl hz, fun x hx => .inr (hto x hx)⟩

/-- A computation on a list succeeds if it does for each element. -/
theorem mapM_eq_map {g : α → β} (h : ∀ x ∈ xs, f x = .ok (g x)) :
    xs.mapM f = .ok (xs.map g) := by
  induction xs with
  | nil => rfl
  | cons x xs ih =>
    obtain ⟨hx, hxs⟩ := List.forall_mem_cons.mp h
    rw [List.mapM_cons, hx, ih hxs]
    rfl

/-- What every step preserves, a fold that succeeds preserves. -/
theorem foldlM_invariant {f : β → α → Except ε β} {P : β → Prop} {b c : β}
    (h : xs.foldlM f b = .ok c) (hb : P b) (hf : ∀ b x c, x ∈ xs → P b → f b x = .ok c → P c) : P c := by
  induction xs generalizing b with
  | nil =>
    cases h
    exact hb
  | cons x xs ih =>
    rw [List.foldlM_cons, bind_eq_ok] at h
    obtain ⟨d, hd, h⟩ := h
    exact ih h (hf b x d List.mem_cons_self hb hd) fun b x c hx => hf b x c (List.mem_cons_of_mem _ hx)

end RTsql.Library

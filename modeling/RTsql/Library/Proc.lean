import Mathlib.Tactic.TypeStar

/-!
# Computations on a state that may fail

`Proc σ ε α`: a computation on a state of type `σ` that returns a value or fails.
What it has written before a failure stays.

`x.Returns s Q` — from `s` the computation returns, and value and state satisfy `Q`. This is
total correctness; the rules are those of a Hoare logic, one for each way to compose computations.
-/

namespace RTsql.Library

/-- The induction of a recursion that goes down `h` levels and spends one `fuel` on each. -/
theorem fuel_induction {motive : ∀ h fuel : Nat, h < fuel → Prop} (zero : ∀ fuel,
    motive 0 (fuel + 1) fuel.succ_pos) (succ : ∀ h fuel (hfuel : h < fuel), motive h fuel hfuel →
      motive (h + 1) (fuel + 1) (Nat.succ_lt_succ hfuel)) :
    ∀ h fuel (hfuel : h < fuel), motive h fuel hfuel
  | 0, fuel + 1, _ => zero fuel
  | h + 1, fuel + 1, hfuel =>
    succ h fuel _ (fuel_induction zero succ h fuel (Nat.lt_of_succ_lt_succ hfuel))

/-- A computation on a state that may fail. -/
def Proc (σ ε α : Type) : Type := σ → Except ε α × σ

namespace Proc

variable {σ ε α β : Type} {x : Proc σ ε α} {f : α → Proc σ ε β} {s s' : σ} {a : α} {e : ε}
  {Q Q' : α → σ → Prop} {R : β → σ → Prop}

instance : Monad (Proc σ ε) where
  pure a := fun s => (.ok a, s)
  bind x f := fun s =>
    match x s with
    | (.ok a, s') => f a s'
    | (.error e, s') => (.error e, s')

/-- Failure. -/
def fail (e : ε) : Proc σ ε α := fun s => (.error e, s)

/-- A computation that does not look at the state. -/
def lift (x : Except ε α) : Proc σ ε α := fun s => (x, s)

/-- A value read from the state. -/
def read (f : σ → Except ε α) : Proc σ ε α := fun s => (f s, s)

/-- A change of the state. -/
def modify (f : σ → σ) : Proc σ ε Unit := fun s => (.ok (), f s)

theorem bind_of_ok (hx : x s = (.ok a, s')) : (x >>= f) s = f a s' := by
  show (match x s with | (.ok a, s') => f a s' | (.error e, s') => (.error e, s')) = _
  rw [hx]

theorem bind_of_error (hx : x s = (.error e, s')) : (x >>= f) s = (.error e, s') := by
  show (match x s with | (.ok a, s') => f a s' | (.error e, s') => (.error e, s')) = _
  rw [hx]

/-- From `s` the computation returns, with a value and a state that satisfy `Q`. -/
def Returns (x : Proc σ ε α) (s : σ) (Q : α → σ → Prop) : Prop := ∃ a s', x s = (.ok a, s') ∧ Q a s'

theorem Returns.pure (h : Q a s) : Returns (Pure.pure a : Proc σ ε α) s Q := ⟨a, s, rfl, h⟩

theorem Returns.bind (hx : Returns x s Q) (hf : ∀ a s', Q a s' → Returns (f a) s' R) :
    Returns (x >>= f) s R := by
  obtain ⟨a, s', hxs, hq⟩ := hx
  obtain ⟨b, s'', hfs, hr⟩ := hf a s' hq
  exact ⟨b, s'', (bind_of_ok hxs).trans hfs, hr⟩

theorem Returns.mono (hx : Returns x s Q) (h : ∀ a s', Q a s' → Q' a s') : Returns x s Q' := by
  obtain ⟨a, s', hxs, hq⟩ := hx
  exact ⟨a, s', hxs, h a s' hq⟩

/-! ### One step, then the rest -/

theorem Returns.read_bind {g : σ → Except ε α} (hg : g s = .ok a) (h : Returns (f a) s R) :
    Returns (read g >>= f) s R :=
  Returns.bind (Q := fun b s' => b = a ∧ s' = s) ⟨a, s, by rw [read, hg], rfl, rfl⟩
    (by rintro _ _ ⟨rfl, rfl⟩; exact h)

theorem Returns.lift_bind {y : Except ε α} (hy : y = .ok a) (h : Returns (f a) s R) :
    Returns ((lift y : Proc σ ε α) >>= f) s R :=
  Returns.bind (Q := fun b s' => b = a ∧ s' = s) ⟨a, s, by rw [lift, hy], rfl, rfl⟩
    (by rintro _ _ ⟨rfl, rfl⟩; exact h)

theorem Returns.pure_bind (h : Returns (f a) s R) : Returns (Pure.pure a >>= f) s R := h

end Proc

end RTsql.Library

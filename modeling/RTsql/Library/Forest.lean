import Mathlib.Logic.Relation

/-!
# Chains in a forest

A relation `R` whose elements point down, and a part `P` of them that is closed
downwards and in which no two elements point to the same one. Whatever is outside
`P` may branch; the elements of `P` above one element form a chain.
-/

namespace RTsql.Library

open Relation

universe u

variable {α : Type u} {R : α → α → Prop} {P : α → Prop}

/-- What points down stays in `P`. -/
theorem closed_reflTransGen (down : ∀ x y, P x → R x y → P y) {x y : α} (hx : P x)
    (h : ReflTransGen R x y) : P y := by
  induction h with
  | refl => exact hx
  | tail _ hstep ih => exact down _ _ ih hstep

/-- Two elements of `P` above the same element are one above the other. -/
theorem comparable (down : ∀ x y, P x → R x y → P y) (unique : ∀ x y z, P x → P y → R x z → R y z →
    x = y) {x y z : α} (hx : P x) (hy : P y) (hxz : ReflTransGen R x z) (hyz : ReflTransGen R y z) :
    ReflTransGen R x y ∨ ReflTransGen R y x := by
  induction hxz with
  | refl => exact .inr hyz
  | @tail b z hxb hbz ih =>
    cases hyz with
    | refl => exact .inl (hxb.tail hbz)
    | @tail c _ hyc hcz =>
      have hb := closed_reflTransGen down hx hxb
      have hc := closed_reflTransGen down hy hyc
      obtain rfl := unique b c z hb hc hbz hcz
      exact ih hyc

end RTsql.Library

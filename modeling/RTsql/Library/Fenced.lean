import Mathlib.Data.Finset.Union
import Mathlib.Data.Finset.Disjoint
import Mathlib.Order.WithBot
import Mathlib.Algebra.Group.Defs
import Mathlib.Tactic.Abel

/-!
# Pieces between fences

A node of a search tree has a first child and, behind each of its separators, one
more. The separators are fences: the first child lies between the lower bound of the
node and the first separator, each other child between its separator and the next,
or the upper bound of the node.

`Fenced T c seps lo hi m o` says that the children `c` and those of `seps` are such
pieces. What a piece is comes as the predicate `T`: child, lower bound, upper bound,
contents and footprint. Contents add up; footprints are disjoint.

* `Fenced.append_iff` — a fence divides the pieces in two.
* `Fenced.replace` — a segment of the pieces may be replaced by others that lie between the
  same bounds, while the rest stays as it is or is carried over to another predicate.
* `Fenced.pieces` — the pieces one by one, each between two fences.
* `Fenced.glue` — what holds of each piece and of neighbours together holds of all.
* `Fenced.fences` — the separators ascend, between the bounds: strictly, or not, as the pieces
  do.
-/

namespace RTsql.Library

open List
open Finset (disjoint_union_right subset_union_left subset_union_right union_assoc union_empty)

universe u v w

variable {ι : Type u} {κ : Type v} {β : Type w}

/-! ### Strictly or not -/

/-- `a < b`; where equal elements are allowed, `a ≤ b`. -/
def Before {α : Type*} [Preorder α] (strict : Bool) (a b : α) : Prop := if strict then a < b else a ≤ b

section Before

variable {α : Type*} [Preorder α] {strict : Bool} {a b c : α}

theorem Before.le (h : Before strict a b) : a ≤ b := by
  cases strict
  · exact h
  · exact le_of_lt h

theorem before_of_lt (h : a < b) : Before strict a b := by
  cases strict
  · exact le_of_lt h
  · exact h

theorem Before.trans_le (h : Before strict a b) (hbc : b ≤ c) : Before strict a c := by
  cases strict
  · exact le_trans h hbc
  · exact lt_of_lt_of_le h hbc

theorem Before.of_le (h : Before strict b c) (hab : a ≤ b) : Before strict a c := by
  cases strict
  · exact le_trans hab h
  · exact lt_of_le_of_lt hab h

theorem before_coe : Before strict (a : WithTop α) (b : WithTop α) ↔ Before strict a b := by
  cases strict
  · exact WithTop.coe_le_coe
  · exact WithTop.coe_lt_coe

theorem before_top (a : α) : Before strict (a : WithTop α) ⊤ := before_of_lt (WithTop.coe_lt_top a)

end Before

/-! ### The ends of a list of children -/

/-- The last child of `c` and those of `seps`. -/
def lastKid (c : ι) : List (κ × ι) → ι
  | [] => c
  | (_, c') :: rest => lastKid c' rest

/-- The lower bound of the last child. -/
def lastLow (lo : κ) : List (κ × ι) → κ
  | [] => lo
  | (s, _) :: rest => lastLow s rest

/-- The bound before the first child of `seps`. -/
def firstHigh (hi : WithTop κ) : List (κ × ι) → WithTop κ
  | [] => hi
  | (s, _) :: _ => s

variable {c c' : ι} {seps pre seg post : List (κ × ι)} {lo s : κ} {hi : WithTop κ}

@[simp] theorem lastKid_append (s : κ) : lastKid c (pre ++ (s, c') :: post) = lastKid c' post := by
  induction pre generalizing c with
  | nil => rfl
  | cons e pre ih => exact ih

theorem lastKid_mem : lastKid c seps ∈ c :: seps.map Prod.snd := by
  induction seps generalizing c with
  | nil => exact mem_singleton_self c
  | cons e seps ih => exact mem_cons_of_mem _ ih

@[simp] theorem lastLow_append : lastLow lo (pre ++ (s, c') :: post) = lastLow s post := by
  induction pre generalizing lo with
  | nil => rfl
  | cons e pre ih => exact ih

theorem lastLow_le [Preorder κ] {key : κ} (hlo : lo ≤ key) (hpre : ∀ e ∈ pre, e.1 ≤ key) :
    lastLow lo pre ≤ key := by
  induction pre generalizing lo with
  | nil => exact hlo
  | cons e pre ih => exact ih (hpre e mem_cons_self) fun e' he' => hpre e' (mem_cons_of_mem _ he')

theorem before_firstHigh [Preorder κ] {strict : Bool} {key : κ}
    (hhi : Before strict (key : WithTop κ) hi) (hpost : ∀ e ∈ post, Before strict key e.1) :
    Before strict (key : WithTop κ) (firstHigh hi post) := by
  cases post with
  | nil => exact hhi
  | cons e post => exact before_coe.mpr (hpost e mem_cons_self)

theorem le_lastLow [Preorder κ] (lo : κ) (hpre : pre.Pairwise fun a b => a.1 ≤ b.1) :
    ∀ e ∈ pre, e.1 ≤ lastLow lo pre := by
  rcases eq_nil_or_concat pre with rfl | ⟨front, ⟨s, c⟩, rfl⟩
  · exact nofun
  · rw [concat_eq_append] at *
    rw [lastLow_append]
    exact forall_mem_append.mpr
      ⟨fun e he => (pairwise_append.mp hpre).2.2 e he (s, c) (mem_singleton_self _),
        forall_mem_singleton.mpr (le_refl _)⟩

theorem firstHigh_le [Preorder κ] (hi : WithTop κ) (hpost : post.Pairwise fun a b => a.1 ≤ b.1) :
    ∀ e ∈ post, firstHigh hi post ≤ e.1 := by
  cases post with
  | nil => exact nofun
  | cons a post =>
    exact forall_mem_cons.mpr
      ⟨le_refl _, fun e he => WithTop.coe_le_coe.mpr ((pairwise_cons.mp hpost).1 e he)⟩

/-! ### Pieces -/

variable [DecidableEq ι] [AddCommMonoid β]

/-- The children `c` and those of `seps` are pieces between `lo` and `hi`, with the separators as
fences; together they hold `m` and occupy `o`. -/
def Fenced (T : ι → κ → WithTop κ → β → Finset ι → Prop) :
    ι → List (κ × ι) → κ → WithTop κ → β → Finset ι → Prop
  | c, [], lo, hi, m, o => T c lo hi m o
  | c, (s, c') :: rest, lo, hi, m, o =>
    ∃ m₁ m₂ o₁ o₂, T c lo s m₁ o₁ ∧ Fenced T c' rest s hi m₂ o₂ ∧ Disjoint o₁ o₂ ∧ m = m₁ + m₂ ∧
      o = o₁ ∪ o₂

variable {T T' : ι → κ → WithTop κ → β → Finset ι → Prop} {m : β} {o : Finset ι}

namespace Fenced

variable (h : Fenced T c seps lo hi m o)

include h

/-- Pieces that are pieces in another sense. -/
theorem mono (hT : ∀ c lo hi m o', o' ⊆ o → T c lo hi m o' → T' c lo hi m o') :
    Fenced T' c seps lo hi m o := by
  induction seps generalizing c lo m o with
  | nil => exact hT c lo hi m o (Finset.Subset.refl o) h
  | cons e rest ih =>
    obtain ⟨m₁, m₂, o₁, o₂, h₁, h₂, hd, rfl, rfl⟩ := h
    refine ⟨m₁, m₂, o₁, o₂, hT _ _ _ _ _ subset_union_left h₁, ih h₂ ?_, hd, rfl, rfl⟩
    intro c lo hi m o' ho'
    exact hT c lo hi m o' (ho'.trans subset_union_right)

/-- What holds of each piece, and of two neighbours together, holds of all. -/
theorem glue {S : κ → WithTop κ → β → Finset ι → Prop}
    (hpiece : ∀ c lo hi m o, T c lo hi m o → S lo hi m o)
    (hglue : ∀ lo (s : κ) hi m₁ m₂ o₁ o₂, S lo s m₁ o₁ → S s hi m₂ o₂ → Disjoint o₁ o₂ →
      S lo hi (m₁ + m₂) (o₁ ∪ o₂)) :
    S lo hi m o := by
  induction seps generalizing c lo m o with
  | nil => exact hpiece _ _ _ _ _ h
  | cons e rest ih =>
    obtain ⟨m₁, m₂, o₁, o₂, h₁, h₂, hd, rfl, rfl⟩ := h
    exact hglue _ _ _ _ _ _ _ (hpiece _ _ _ _ _ h₁) (ih h₂) hd

/-- Contents are the sum of the contents of pieces, each of which begins at a fence. -/
theorem sum {Q : β → Prop} (hadd : ∀ a b, Q a → Q b → Q (a + b))
    (hpiece : ∀ c l hi m o, T c l hi m o → l = lo ∨ (∃ e ∈ seps, l = e.1) → Q m) : Q m := by
  induction seps generalizing c lo m o with
  | nil => exact hpiece _ _ _ _ _ h (.inl rfl)
  | cons e rest ih =>
    obtain ⟨m₁, m₂, o₁, o₂, h₁, h₂, -, rfl, -⟩ := h
    refine hadd _ _ (hpiece _ _ _ _ _ h₁ (.inl rfl))
      (ih h₂ fun c l hi m o hT hl => hpiece c l hi m o hT (.inr ?_))
    rcases hl with rfl | ⟨e', he', rfl⟩
    · exact ⟨e, mem_cons_self, rfl⟩
    · exact ⟨e', mem_cons_of_mem _ he', rfl⟩

omit h

/-- **A fence divides the pieces.** -/
theorem append_iff : Fenced T c (pre ++ (s, c') :: post) lo hi m o ↔
    ∃ m₁ m₂ o₁ o₂, Fenced T c pre lo s m₁ o₁ ∧ Fenced T c' post s hi m₂ o₂ ∧ Disjoint o₁ o₂ ∧
      m = m₁ + m₂ ∧ o = o₁ ∪ o₂ := by
  induction pre generalizing c lo m o with
  | nil => rfl
  | cons e pre ih =>
    constructor
    · rintro ⟨m₁, m₂, o₁, o₂, h₁, h₂, hd, rfl, rfl⟩
      obtain ⟨m₃, m₄, o₃, o₄, h₃, h₄, hd', rfl, rfl⟩ := ih.mp h₂
      rw [disjoint_union_right] at hd
      refine ⟨m₁ + m₃, m₄, o₁ ∪ o₃, o₄, ⟨m₁, m₃, o₁, o₃, h₁, h₃, hd.1, rfl, rfl⟩, h₄, ?_,
        (add_assoc ..).symm, (union_assoc ..).symm⟩
      exact Finset.disjoint_union_left.mpr ⟨hd.2, hd'⟩
    · rintro ⟨m₁, m₂, o₁, o₂, ⟨m₃, m₄, o₃, o₄, h₃, h₄, hd', rfl, rfl⟩, h₂, hd, rfl, rfl⟩
      rw [Finset.disjoint_union_left] at hd
      refine ⟨m₃, m₄ + m₂, o₃, o₄ ∪ o₂, h₃, ih.mpr ⟨m₄, m₂, o₄, o₂, h₄, h₂, hd.2, rfl, rfl⟩, ?_,
        add_assoc .., union_assoc ..⟩
      exact disjoint_union_right.mpr ⟨hd', hd.1⟩

/-- **Replacing a segment.** The segment lies between the bounds that its neighbours leave; any
other segment that begins with the same child, lies between them and keeps clear of the rest may
take its place. The contents of the rest are those of pieces that end at a fence before the segment
or begin at one behind it. -/
theorem replace (h : Fenced T c (pre ++ seg ++ post) lo hi m o) :
    ∃ m₁ m₂ o₁ o₂, Fenced T (lastKid c pre) seg (lastLow lo pre) (firstHigh hi post) m₁ o₁ ∧
    Disjoint o₁ o₂ ∧
      m = m₁ + m₂ ∧ o = o₁ ∪ o₂ ∧
      (∀ Q : β → Prop, Q 0 → (∀ a b, Q a → Q b → Q (a + b)) →
        (∀ c lo hi m o, T c lo hi m o → (∃ e ∈ pre, hi = e.1) ∨ (∃ e ∈ post, lo = e.1) → Q m) → Q m₂) ∧
      ∀ T', (∀ c lo hi m o, o ⊆ o₂ → T c lo hi m o → T' c lo hi m o) → ∀ seg' m' o',
        Fenced T' (lastKid c pre) seg' (lastLow lo pre) (firstHigh hi post) m' o' → Disjoint o' o₂ →
        Fenced T' c (pre ++ seg' ++ post) lo hi (m' + m₂) (o' ∪ o₂) := by
  induction pre generalizing c lo m o with
  | nil =>
    cases post with
    | nil =>
      rw [append_nil] at h
      refine ⟨m, 0, o, ∅, h, Finset.disjoint_empty_right o, (add_zero m).symm,
        (union_empty o).symm, fun Q hzero _ _ => hzero, ?_⟩
      intro T' _ seg' m' o' h' _
      rwa [append_nil, add_zero, union_empty]
    | cons e post =>
      obtain ⟨s, c'⟩ := e
      obtain ⟨m₁, m₂, o₁, o₂, h₁, h₂, hd, rfl, rfl⟩ := append_iff.mp h
      refine ⟨m₁, m₂, o₁, o₂, h₁, hd, rfl, rfl, ?_, ?_⟩
      · intro Q _ hadd hpiece
        refine h₂.sum hadd fun c l hi m o hT hl => hpiece c l hi m o hT (.inr ?_)
        rcases hl with rfl | ⟨e, he, rfl⟩
        · exact ⟨(l, c'), mem_cons_self, rfl⟩
        · exact ⟨e, mem_cons_of_mem _ he, rfl⟩
      · intro T' hT seg' m' o' h' hd'
        exact append_iff.mpr ⟨m', m₂, o', o₂, h', h₂.mono hT, hd', rfl, rfl⟩
  | cons e pre ih =>
    obtain ⟨s, c'⟩ := e
    obtain ⟨m₁, m₂, o₁, o₂, h₁, h₂, hd, rfl, rfl⟩ := h
    obtain ⟨m₃, m₄, o₃, o₄, h₃, hd', rfl, rfl, hsum, hrep⟩ := ih h₂
    rw [disjoint_union_right] at hd
    refine ⟨m₃, m₁ + m₄, o₃, o₁ ∪ o₄, h₃, ?_, by abel, Finset.union_left_comm .., ?_, ?_⟩
    · exact disjoint_union_right.mpr ⟨hd.1.symm, hd'⟩
    · intro Q hzero hadd hpiece
      refine hadd _ _ (hpiece _ _ _ _ _ h₁ (.inl ⟨(s, c'), mem_cons_self, rfl⟩)) (hsum Q hzero hadd ?_)
      intro c lo hi m o hT hl
      refine hpiece c lo hi m o hT (hl.imp_left ?_)
      rintro ⟨e, he, rfl⟩
      exact ⟨e, mem_cons_of_mem _ he, rfl⟩
    · intro T' hT seg' m' o' h' hd''
      rw [disjoint_union_right] at hd''
      refine ⟨m₁, m' + m₄, o₁, o' ∪ o₄, hT _ _ _ _ _ subset_union_left h₁, ?_, ?_, by abel,
        Finset.union_left_comm ..⟩
      · exact hrep T' (fun c lo hi m o ho => hT c lo hi m o (ho.trans subset_union_right)) seg' m' o' h'
          hd''.2
      · exact disjoint_union_right.mpr ⟨hd''.1.symm, hd.2⟩

/-! ### Fences and children -/

section

variable [LinearOrder κ] {strict : Bool}
  (hbefore : ∀ c lo hi m o, T c lo hi m o → Before strict (lo : WithTop κ) hi)
include hbefore

theorem before (h : Fenced T c seps lo hi m o) : Before strict (lo : WithTop κ) hi :=
  h.glue (S := fun (lo : κ) hi _ _ => Before strict (lo : WithTop κ) hi) hbefore
    fun _ _ _ _ _ _ _ h₁ h₂ _ => h₁.trans_le h₂.le

/-- **The fences** ascend, between the bounds. -/
theorem fences (h : Fenced T c seps lo hi m o) :
    seps.Pairwise (fun a b => Before strict a.1 b.1) ∧
      ∀ e ∈ seps, Before strict lo e.1 ∧ Before strict (e.1 : WithTop κ) hi := by
  induction seps generalizing c lo m o with
  | nil => exact ⟨List.Pairwise.nil, nofun⟩
  | cons e rest ih =>
    obtain ⟨s, c'⟩ := e
    obtain ⟨m₁, m₂, o₁, o₂, h₁, h₂, -⟩ := h
    obtain ⟨hpair, hbound⟩ := ih h₂
    have hs : Before strict lo s := before_coe.mp (hbefore _ _ _ _ _ h₁)
    exact ⟨pairwise_cons.mpr ⟨fun b hb => (hbound b hb).1, hpair⟩, forall_mem_cons.mpr
      ⟨⟨hs, h₂.before hbefore⟩, fun e he => ⟨hs.trans_le (hbound e he).1.le, (hbound e he).2⟩⟩⟩

end

include h

/-- **The pieces one by one**: each has its place between two fences, and they divide the
footprint. -/
theorem pieces : ∃ os : ℕ → Finset ι,
    (∀ i ≤ seps.length, os i ⊆ o ∧ ∃ m₁ m₂, m = m₁ + m₂ ∧
      T (lastKid c (seps.take i)) (lastLow lo (seps.take i)) (firstHigh hi (seps.drop i)) m₁ (os i)) ∧
    (∀ x ∈ o, ∃ i ≤ seps.length, x ∈ os i) ∧ ∀ i ≤ seps.length, ∀ j ≤ seps.length, i ≠ j →
    Disjoint (os i) (os j) := by
  induction seps generalizing c lo m o with
  | nil =>
    refine ⟨fun _ => o, fun i hi => ⟨Finset.Subset.refl o, m, 0, (add_zero m).symm, ?_⟩, fun x hx =>
      ⟨0, le_rfl, hx⟩, ?_⟩
    · rwa [take_nil, drop_nil]
    · intro i hi j hj hij
      exact absurd ((Nat.le_zero.mp hi).trans (Nat.le_zero.mp hj).symm) hij
  | cons e rest ih =>
    obtain ⟨m₁, m₂, o₁, o₂, h₁, h₂, hd, rfl, rfl⟩ := h
    obtain ⟨os, hos, hcover, hdisj⟩ := ih h₂
    refine ⟨fun i => Nat.casesOn i o₁ os, ?_, ?_, ?_⟩
    · rintro (_ | i) hi'
      · exact ⟨subset_union_left, m₁, m₂, rfl, h₁⟩
      · obtain ⟨hsub, m₃, m₄, rfl, hT⟩ := hos i (Nat.le_of_succ_le_succ hi')
        exact ⟨hsub.trans subset_union_right, m₃, m₁ + m₄, by abel, hT⟩
    · intro x hx
      rcases Finset.mem_union.mp hx with hx | hx
      · exact ⟨0, Nat.zero_le _, hx⟩
      · obtain ⟨i, hi', hx⟩ := hcover x hx
        exact ⟨i + 1, Nat.succ_le_succ hi', hx⟩
    · rintro (_ | i) hi' (_ | j) hj hij
      · exact absurd rfl hij
      · exact Finset.disjoint_of_subset_right (hos j (Nat.le_of_succ_le_succ hj)).1 hd
      · exact Finset.disjoint_of_subset_left (hos i (Nat.le_of_succ_le_succ hi')).1 hd.symm
      · exact hdisj i (Nat.le_of_succ_le_succ hi') j (Nat.le_of_succ_le_succ hj) fun h =>
          hij (congrArg Nat.succ h)

/-- Each child is a piece. -/
theorem exists_piece : ∀ x ∈ c :: seps.map Prod.snd, ∃ lo hi m o', o' ⊆ o ∧ T x lo hi m o' := by
  induction seps generalizing c lo m o with
  | nil => exact forall_mem_singleton.mpr ⟨lo, hi, m, o, Finset.Subset.refl o, h⟩
  | cons e rest ih =>
    obtain ⟨m₁, m₂, o₁, o₂, h₁, h₂, -, -, rfl⟩ := h
    refine forall_mem_cons.mpr ⟨⟨_, _, _, o₁, subset_union_left, h₁⟩, fun x hx => ?_⟩
    obtain ⟨lo, hi, m, o', ho', hT⟩ := ih h₂ x hx
    exact ⟨lo, hi, m, o', ho'.trans subset_union_right, hT⟩

omit h

/-- Where a segment may be replaced, the children outside it are pieces on the rest of the
footprint. -/
theorem exists_piece_of_replace {lo' : κ} {hi' : WithTop κ} {m₂ : β} {o₂ : Finset ι}
    (hrep : ∀ T', (∀ c lo hi m o, o ⊆ o₂ → T c lo hi m o → T' c lo hi m o) → ∀ seg' m' o',
      Fenced T' (lastKid c pre) seg' lo' hi' m' o' → Disjoint o' o₂ →
      Fenced T' c (pre ++ seg' ++ post) lo hi (m' + m₂) (o' ∪ o₂))
    {x : ι} (hx : x ∈ c :: (pre ++ post).map Prod.snd) (hne : x ≠ lastKid c pre) :
    ∃ lo hi m o, o ⊆ o₂ ∧ T x lo hi m o := by
  have hrow := hrep (fun x _ _ _ _ => x = lastKid c pre ∨ ∃ lo hi m o, o ⊆ o₂ ∧ T x lo hi m o)
    (fun c lo hi m o ho hT => .inr ⟨lo, hi, m, o, ho, hT⟩) [] 0 ∅ (.inl rfl)
      (Finset.disjoint_empty_left o₂)
  rw [append_nil] at hrow
  obtain ⟨_, _, _, _, -, h⟩ := hrow.exists_piece x hx
  exact h.resolve_left hne

variable (hmem : ∀ c lo hi m o, T c lo hi m o → c ∈ o)

include hmem h

/-- A child is in its footprint. -/
theorem kid_mem : ∀ x ∈ c :: seps.map Prod.snd, x ∈ o := by
  intro x hx
  obtain ⟨lo, hi, m, o', ho', hT⟩ := h.exists_piece x hx
  exact ho' (hmem x lo hi m o' hT)

/-- The children are different. -/
theorem nodup_kids : (c :: seps.map Prod.snd).Nodup := by
  induction seps generalizing c lo m o with
  | nil => exact nodup_singleton c
  | cons e rest ih =>
    obtain ⟨m₁, m₂, o₁, o₂, h₁, h₂, hd, -, -⟩ := h
    refine nodup_cons.mpr ⟨fun hc => ?_, ih h₂⟩
    exact Finset.disjoint_left.mp hd (hmem _ _ _ _ _ h₁) (h₂.kid_mem hmem c hc)

end Fenced

end RTsql.Library

import Mathlib.Data.List.Perm.Basic
import Mathlib.Data.List.Sort
import Mathlib.Data.List.TakeWhile
import Mathlib.Order.Compare
import Mathlib.Order.Lattice

/-!
# Joining two lists

The join of two lists under a condition: the pairs for which it holds, and on request the elements
of either list that are in no pair. The join is the same, up to the order of its elements, with the
two lists exchanged. A merge of two sorted lists computes the join on equal keys. -/

namespace RTsql.Library

open List

variable {α α' β β' γ δ κ ν : Type*} {same : κ → κ → Bool}

/-- The pairs for which `holds` is true, then the elements of `xs`, and of `ys`, that are in
none. -/
def joinLists (keepLeft keepRight : Bool) (holds : α → β → Bool) (pair : α → β → γ) (left : α → γ)
    (right : β → γ) (xs : List α) (ys : List β) : List γ :=
  xs.flatMap (fun x => (ys.filter (holds x)).map (pair x)) ++
    ((if keepLeft then (xs.filter fun x => !ys.any (holds x)).map left else []) ++
      (if keepRight then (ys.filter fun y => !xs.any (holds · y)).map right else []))

section

variable {l r : Bool} {holds holds' : α → β → Bool} {pair pair' : α → β → γ} {left left' : α → γ}
  {right right' : β → γ} {xs : List α} {ys : List β}

/-- The pairs can be listed by the second list first. -/
theorem pairs_swap (xs : List α) (ys : List β) :
    (xs.flatMap fun x => (ys.filter (holds x)).map (pair x)).Perm
      (ys.flatMap fun y => (xs.filter (holds · y)).map (pair · y)) := by
  induction xs with
  | nil => simp
  | cons x xs ih =>
    have hrow : (ys.filter (holds x)).map (pair x) = ys.flatMap fun y =>
      if holds x y then [pair x y] else [] := by
      clear ih
      induction ys with
      | nil => rfl
      | cons y ys ih => by_cases h : holds x y <;> simp [h, ih]
    have hsplit : (fun y => ((x :: xs).filter (holds · y)).map (pair · y)) =
        fun y => (if holds x y then [pair x y] else []) ++ (xs.filter (holds · y)).map (pair · y) := by
      funext y
      by_cases h : holds x y <;> simp [h]
    rw [flatMap_cons, hrow, hsplit]
    exact (ih.append_left _).trans (flatMap_append_perm ys _ _)

/-- **The join with the lists exchanged.** -/
theorem joinLists_swap (xs : List α) (ys : List β) :
    (joinLists l r holds pair left right xs ys).Perm
      (joinLists r l (fun y x => holds x y) (fun y x => pair x y) right left ys xs) :=
  (pairs_swap xs ys).append perm_append_comm

/-- Without elements that are in no pair. -/
theorem joinLists_inner (xs : List α) (ys : List β) :
    joinLists false false holds pair left right xs ys = xs.flatMap fun x =>
    (ys.filter (holds x)).map (pair x) :=
  append_nil _

end

/-! ### Keys -/

/-- Two keys that are there and are the same. -/
def matchKeys (same : κ → κ → Bool) : Option κ → Option κ → Bool
  | some k, some k' => same k k'
  | _, _ => false

/-- Looking up the keys of one list among the keys of another is a join. -/
theorem lookup_eq_join (key : α → Option κ) (key' : β → Option κ) (pair : α → β → γ) (xs : List α)
    (ys : List β) : (xs.filterMap fun x => (key x).map (·, x)).flatMap
        (fun p => ((ys.filterMap fun y => (key' y).map (·, y)).filter fun q =>
          same p.1 q.1).map fun q => pair p.2 q.2) =
      xs.flatMap fun x => (ys.filter fun y => matchKeys same (key x) (key' y)).map (pair x) := by
  have hrow (k : κ) (x : α) :
      ((ys.filterMap fun y => (key' y).map (·, y)).filter fun q => same k q.1).map
        (fun q => pair x q.2) =
        (ys.filter fun y => matchKeys same (some k) (key' y)).map (pair x) := by
    induction ys with
    | nil => rfl
    | cons y ys ih =>
      cases hy : key' y with
      | none => simpa [hy, matchKeys] using ih
      | some k' => by_cases h : same k k' <;> simpa [hy, h, matchKeys] using ih
  induction xs with
  | nil => rfl
  | cons x xs ih =>
    cases hx : key x with
    | none =>
      have hnone : (ys.filter fun y => matchKeys same none (key' y)) = [] :=
        filter_eq_nil_iff.mpr fun y _ h => by cases h
      simpa [hx, hnone] using ih
    | some k => simpa [hx, hrow k x] using ih

/-! ### Merging -/

/-- The join of two sorted lists on equal keys: the smaller of two different keys is passed over,
and for equal keys the groups are multiplied. -/
def mergeJoin (cmp : κ → κ → Ordering) (same : κ → κ → Bool) : List (κ × α) → List (κ × β) → List (α × β)
  | [], _ => []
  | _ :: _, [] => []
  | x :: xs, y :: ys =>
    if cmp x.1 y.1 = .eq ∧ same x.1 y.1 = true then
      (x :: xs.takeWhile fun z => same z.1 x.1).flatMap
          (fun a => (y :: ys.takeWhile fun z => same z.1 y.1).map fun b => (a.2, b.2)) ++
        mergeJoin cmp same (xs.dropWhile fun z => same z.1 x.1) (ys.dropWhile fun z => same z.1 y.1)
    else if cmp x.1 y.1 = .lt then mergeJoin cmp same xs (y :: ys)
    else mergeJoin cmp same (x :: xs) ys
termination_by xs ys => xs.length + ys.length
decreasing_by
  all_goals simp only [length_cons]
  · have h₁ := (dropWhile_suffix (l := xs) fun z => same z.1 x.1).length_le
    have h₂ := (dropWhile_suffix (l := ys) fun z => same z.1 y.1).length_le
    omega
  · omega
  · omega

variable [LinearOrder ν] {x : α} {xs : List α}

/-- The first key of a sorted list is the least. -/
theorem head_le (f : α → ν) (h : (x :: xs).Pairwise fun a b => f a ≤ f b) :
    ∀ z ∈ x :: xs, f x ≤ f z :=
  forall_mem_cons.mpr ⟨le_rfl, (pairwise_cons.mp h).1⟩

/-- A sorted list is its first group and what has larger keys. -/
theorem sorted_group (f : α → ν) {p : α → Bool} (hp : ∀ z ∈ xs, p z = true ↔ f z = f x)
    (h : (x :: xs).Pairwise fun a b => f a ≤ f b) :
    x :: xs = (x :: xs.takeWhile p) ++ xs.dropWhile p ∧
    (∀ z ∈ x :: xs.takeWhile p, z ∈ x :: xs ∧ f z = f x) ∧
      (∀ z ∈ xs.dropWhile p, z ∈ x :: xs ∧ f x < f z) ∧ (xs.dropWhile p).Pairwise fun a b =>
      f a ≤ f b := by
  obtain ⟨hle, hsorted⟩ := pairwise_cons.mp h
  have hsub := dropWhile_suffix (l := xs) p
  refine ⟨by rw [cons_append, takeWhile_append_dropWhile],
    forall_mem_cons.mpr ⟨⟨mem_cons_self, rfl⟩, fun z hz => ?_⟩,
    fun z hz => ⟨mem_cons_of_mem _ (hsub.subset hz), ?_⟩, hsorted.sublist hsub.sublist⟩
  · have hmem := (takeWhile_sublist _).subset hz
    exact ⟨mem_cons_of_mem _ hmem, (hp z hmem).mp (mem_takeWhile_imp hz)⟩
  · match hrest : xs.dropWhile p with
    | [] =>
      rw [hrest] at hz
      cases hz
    | w :: rest =>
      rw [hrest] at hz hsub
      have hw : w ∈ xs := hsub.subset mem_cons_self
      have hnot : ¬ p w = true := by
        have := head?_dropWhile_not p xs
        rw [hrest] at this
        simpa using this
      rw [hp w hw] at hnot
      exact (lt_of_le_of_ne (hle w hw) (Ne.symm hnot)).trans_le
        (head_le f (hsorted.sublist hsub.sublist) z hz)

/-- **The merge of two sorted lists is their join on equal keys**, where the keys are ordered as
their images in a linear order are. -/
theorem mergeJoin_eq (f : κ → ν) {cmp : κ → κ → Ordering} {xs : List (κ × α)}
    {ys : List (κ × β)} {K : κ → Prop} (hcmp : ∀ a b, K a → K b → (cmp a b).Compares (f a) (f b))
    (hsame : ∀ a b, K a → K b → (same a b = true ↔ f a = f b)) (hkx : ∀ x ∈ xs, K x.1)
    (hky : ∀ y ∈ ys, K y.1)
    (hxs : xs.Pairwise fun a b => f a.1 ≤ f b.1) (hys : ys.Pairwise fun a b => f a.1 ≤ f b.1) :
    mergeJoin cmp same xs ys = xs.flatMap fun x => (ys.filter fun y => same x.1 y.1).map fun y =>
    (x.2, y.2) := by
  induction xs, ys using mergeJoin.induct cmp same with
  | case1 ys | case2 x xs => simp [mergeJoin]
  | case3 x xs y ys h ih =>
    have hx := hkx x mem_cons_self
    have hy := hky y mem_cons_self
    have hxy : f x.1 = f y.1 := (hsame _ _ hx hy).mp h.2
    obtain ⟨hsplitx, hgroupx, hlaterx, hsortedx⟩ := sorted_group (fun z : κ × α => f z.1)
      (fun z hz => hsame _ _ (hkx z (mem_cons_of_mem _ hz)) hx) hxs
    obtain ⟨hsplity, hgroupy, hlatery, hsortedy⟩ := sorted_group (fun z : κ × β => f z.1)
      (fun z hz => hsame _ _ (hky z (mem_cons_of_mem _ hz)) hy) hys
    rw [mergeJoin, if_pos h, ih (fun z hz => hkx z (hlaterx z hz).1)
      (fun z hz => hky z (hlatery z hz).1) hsortedx hsortedy]
    conv_rhs => rw [hsplitx, hsplity, List.flatMap_append]
    congr 1
    · -- the first group on the left meets the first group on the right and nothing after it
      refine List.flatMap_congr fun a ha => ?_
      obtain ⟨ha, hax⟩ := hgroupx a ha
      rw [filter_append, filter_eq_self.mpr, filter_eq_nil_iff.mpr, append_nil]
      · intro z hz
        obtain ⟨hz, hlt⟩ := hlatery z hz
        rw [hsame _ _ (hkx a ha) (hky z hz), hax, hxy]
        exact hlt.ne
      · intro z hz
        obtain ⟨hz, hzy⟩ := hgroupy z hz
        rw [hsame _ _ (hkx a ha) (hky z hz), hax, hxy, hzy]
    · refine List.flatMap_congr fun a ha => ?_
      obtain ⟨ha, hlt⟩ := hlaterx a ha
      have hnone : (y :: ys.takeWhile fun z => same z.1 y.1).filter (fun y => same a.1 y.1) = [] := by
        refine filter_eq_nil_iff.mpr fun z hz => ?_
        obtain ⟨hz, hzy⟩ := hgroupy z hz
        rw [hsame _ _ (hkx a ha) (hky z hz), hzy, ← hxy]
        exact hlt.ne'
      rw [filter_append, hnone, nil_append]
  | case4 x xs y ys h hlt ih =>
    have hx := hkx x mem_cons_self
    have hxy : f x.1 < f y.1 := (hcmp _ _ hx (hky y mem_cons_self)).eq_lt.mp hlt
    rw [mergeJoin, if_neg h, if_pos hlt, ih (forall_mem_cons.mp hkx).2 hky
      (pairwise_cons.mp hxs).2 hys, flatMap_cons, filter_eq_nil_iff.mpr, map_nil, nil_append]
    intro z hz
    rw [hsame _ _ hx (hky z hz)]
    exact (hxy.trans_le (head_le (fun z : κ × β => f z.1) hys z hz)).ne
  | case5 x xs y ys h hlt ih =>
    obtain ⟨hy, hky'⟩ := forall_mem_cons.mp hky
    have hx := hkx x mem_cons_self
    have hyx : f y.1 < f x.1 := by
      rw [(hcmp _ _ hx hy).eq_lt] at hlt
      rw [(hcmp _ _ hx hy).eq_eq, hsame _ _ hx hy, and_self] at h
      exact lt_of_le_of_ne (not_lt.mp hlt) (Ne.symm h)
    rw [mergeJoin, if_neg h, if_neg hlt, ih hkx hky' hxs (pairwise_cons.mp hys).2]
    refine List.flatMap_congr fun a ha => ?_
    rw [filter_cons_of_neg]
    rw [hsame _ _ (hkx a ha) hy]
    exact (hyx.trans_le (head_le (fun z : κ × α => f z.1) hxs a ha)).ne'

end RTsql.Library

import RTsql.Library.Run
import RTsql.Storage.BTree.Key
import RTsql.Storage.BTree.Operations

/-!
# The structure of a tree

The shape of a tree in terms of its pages: a path names children by their positions, and
`follow` says where it leads. In a well-shaped tree every leaf is at the end of a path of the same
length, the keys below a child lie between the separators around it, and every page in use is at
the end of exactly one path.

Deletions merge pages, and look for the separator of the page that goes by its key. So where two
separators are equal the wrong one may go, and with it a page (`tree_loses_page`). Separators differ
as long as keys are unique and no page is divided that has too few entries. Without `delete` there
are no merges. -/

namespace RTsql.Storage.BTree

open List RTsql.Library

variable {κ v : Type}

/-- The page at the end of a path. -/
def follow (P : Pages κ v) : ℕ → List ℕ → Option ℕ
  | pid, [] => some pid
  | pid, i :: path =>
    match P.get pid with
    | some (.internal n) => if i ≤ n.seps.length then follow P (n.childAt i) path else none
    | _ => none

section Follow

variable {P : Pages κ v} {pid q i : ℕ} {path : List ℕ}

@[simp] theorem follow_nil : follow P pid [] = some pid := rfl

theorem follow_cons : follow P pid (i :: path) = some q ↔
    ∃ n, P.get pid = some (.internal n) ∧ i ≤ n.seps.length ∧ follow P (n.childAt i) path = some q := by
  rw [follow]
  cases hget : P.get pid with
  | none => simp
  | some page => cases page <;> simp

end Follow

variable [LinearOrder κ] {strict : Bool}

/-- **A well-shaped tree.** Where keys are unique, the keys below a child come before the separator
behind it; otherwise they may be equal to it. -/
structure Tree.WellShaped (strict : Bool) (t : Tree κ v) : Prop where
  /-- All leaves are at the same depth. -/
  depth : ∃ h, ∀ path pid l, follow t.pages t.root path = some pid →
    t.pages.get pid = some (.leaf l) → path.length = h
  /-- The keys below a child lie between the separators around it. -/
  between : ∀ path pid n i path' q l, follow t.pages t.root path = some pid →
    t.pages.get pid = some (.internal n) →
    i ≤ n.seps.length → follow t.pages (n.childAt i) path' = some q →
    t.pages.get q = some (.leaf l) → ∀ e ∈ l.entries,
      (∀ j s, i = j + 1 → n.seps[j]? = some s → s.1 ≤ e.1) ∧ ∀ s, n.seps[i]? = some s →
      Before strict e.1 s.1
  /-- No page is reached in two ways. -/
  unique : ∀ path path' pid, follow t.pages t.root path = some pid →
    follow t.pages t.root path' = some pid → path = path'
  /-- The pages reached are those allocated and not freed. -/
  reached : ∀ pid, (∃ path, follow t.pages t.root path = some pid) ↔ t.pages.InUse pid
  /-- A page is freed once for each time it is allocated, unless it is still in use. -/
  freed : t.pages.Balanced

/-- The root is a leaf, but another page is in use as well. -/
def Tree.losesPage (t : Tree κ v) (pid : ℕ) : Bool :=
  (match t.pages.get t.root with
    | some (.leaf _) => t.root ≠ pid
    | _ => false) && (t.pages.get pid).isSome

theorem Tree.not_wellShaped_of_losesPage {t : Tree κ v} {pid : ℕ} (h : t.losesPage pid = true) :
    ¬ t.WellShaped strict := by
  intro hshape
  obtain ⟨hroot, hin⟩ := Bool.and_eq_true_iff.mp h
  obtain ⟨path, hpath⟩ := (hshape.reached pid).mpr hin
  cases path with
  | nil =>
    cases hpath
    cases hget : t.pages.get t.root with
    | none => simp [hget] at hroot
    | some page => cases page <;> simp [hget] at hroot
  | cons i path =>
    obtain ⟨n, hget, -⟩ := follow_cons.mp hpath
    simp [hget] at hroot

/-! ### Paths in a tree -/

namespace Subtree

variable {P : Pages κ v} {h pid q : ℕ} {lo : κ} {hi : WithTop κ} {m : Multiset (κ × v)} {o : Finset ℕ}
  {path path' : List ℕ}

/-- The children of a node, one by one. -/
theorem children (t : Subtree strict P (h + 1) pid lo hi m o) :
    ∃ (n : InternalNode κ) (os : ℕ → Finset ℕ), P.get pid = some (.internal n) ∧
    (∀ i ≤ n.seps.length, pid ∉ os i ∧ os i ⊆ o ∧ ∃ m₁ m₂, m = m₁ + m₂ ∧
      Subtree strict P h (n.childAt i) (lastLow lo (n.seps.take i))
        (firstHigh hi (n.seps.drop i)) m₁ (os i)) ∧
    (∀ p ∈ o, p = pid ∨ ∃ i ≤ n.seps.length, p ∈ os i) ∧
    ∀ i ≤ n.seps.length, ∀ j ≤ n.seps.length, i ≠ j → Disjoint (os i) (os j) := by
  obtain ⟨n, -, o', hget, hf, hout, rfl⟩ := t
  obtain ⟨os, hos, hcover, hdisj⟩ := hf.pieces
  refine ⟨n, os, hget, fun i hi' => ?_, fun p hp => (Finset.mem_insert.mp hp).imp_right (hcover p),
    hdisj⟩
  obtain ⟨hsub, m₁, m₂, hm, hT⟩ := hos i hi'
  rw [← InternalNode.childAt_eq hi'] at hT
  exact ⟨fun hp => hout (hsub hp), hsub.trans (Finset.subset_insert _ _), m₁, m₂, hm, hT⟩

section

variable (t : Subtree strict P h pid lo hi m o)

include t

/-- A path leads to a smaller tree. -/
theorem below (hpath : follow P pid path = some q) :
    ∃ h' lo' hi' m' o', Subtree strict P h' q lo' hi' m' o' ∧ h' + path.length = h ∧ o' ⊆ o ∧
    m' ⊆ m := by
  induction path generalizing h pid lo hi m o with
  | nil =>
    cases hpath
    exact ⟨h, lo, hi, m, o, t, rfl, Finset.Subset.refl o, Multiset.Subset.refl m⟩
  | cons i path ih =>
    obtain ⟨n, hget, hi', hpath⟩ := follow_cons.mp hpath
    cases h with
    | zero =>
      obtain ⟨l, hleaf, -⟩ := t
      cases hget.symm.trans hleaf
    | succ h =>
      obtain ⟨n', os, hget', hkids, -⟩ := t.children
      obtain rfl : n = n' := by simpa [hget] using hget'
      obtain ⟨-, hsub, m₁, m₂, rfl, hT⟩ := hkids i hi'
      obtain ⟨h', lo', hi'', m', o', t', hlen, hsub', hm'⟩ := ih hT hpath
      refine ⟨h', lo', hi'', m', o', t', ?_, hsub'.trans hsub, fun e he =>
        Multiset.mem_add.mpr (.inl (hm' he))⟩
      rw [length_cons]
      omega

theorem mem_of_follow (hpath : follow P pid path = some q) : q ∈ o := by
  obtain ⟨h', lo', hi', m', o', t', -, hsub, -⟩ := t.below hpath
  exact hsub t'.mem

/-- **A path to each page** of the tree. -/
theorem exists_path (hq : q ∈ o) : ∃ path, follow P pid path = some q := by
  induction h generalizing pid lo hi m o with
  | zero =>
    obtain ⟨l, -, -, -, rfl⟩ := t
    exact ⟨[], by simp [Finset.mem_singleton.mp hq]⟩
  | succ h ih =>
    obtain ⟨n, os, hget, hkids, hcover, -⟩ := t.children
    rcases hcover q hq with rfl | ⟨i, hi', hq⟩
    · exact ⟨[], rfl⟩
    · obtain ⟨-, -, m₁, m₂, -, hT⟩ := hkids i hi'
      obtain ⟨path, hpath⟩ := ih hT hq
      exact ⟨i :: path, follow_cons.mpr ⟨n, hget, hi', hpath⟩⟩

/-- **One path to each page.** The root is not below itself, and children have no page in common. -/
theorem follow_inj (hpath : follow P pid path = some q) (hpath' : follow P pid path' = some q) :
    path = path' := by
  induction h generalizing pid lo hi m o path path' with
  | zero =>
    obtain ⟨h', -, -, -, -, -, hlen, -⟩ := t.below hpath
    obtain ⟨h'', -, -, -, -, -, hlen', -⟩ := t.below hpath'
    rw [length_eq_zero_iff.mp (by omega : path.length = 0),
      length_eq_zero_iff.mp (by omega : path'.length = 0)]
  | succ h ih =>
    obtain ⟨n, os, hget, hkids, -, hdisj⟩ := t.children
    have hbelow : ∀ {i path}, follow P pid (i :: path) = some q →
        i ≤ n.seps.length ∧ follow P (n.childAt i) path = some q ∧ q ∈ os i ∧ q ≠ pid := by
      intro i path hpath
      obtain ⟨n', hget', hi', hpath⟩ := follow_cons.mp hpath
      obtain rfl : n = n' := by simpa [hget] using hget'
      obtain ⟨hout, -, m₁, m₂, -, hT⟩ := hkids i hi'
      have hq := hT.mem_of_follow hpath
      exact ⟨hi', hpath, hq, fun h => hout (h ▸ hq)⟩
    cases path with
    | nil =>
      cases path' with
      | nil => rfl
      | cons j path' => exact absurd (Option.some.inj hpath).symm (hbelow hpath').2.2.2
    | cons i path =>
      obtain ⟨hi', hpath, hq, hne⟩ := hbelow hpath
      cases path' with
      | nil => exact absurd (Option.some.inj hpath').symm hne
      | cons j path' =>
        obtain ⟨hj, hpath', hq', -⟩ := hbelow hpath'
        obtain rfl : i = j := by
          by_contra hij
          exact Finset.disjoint_left.mp (hdisj i hi' j hj hij) hq hq'
        obtain ⟨-, -, m₁, m₂, -, hT⟩ := hkids i hi'
        rw [ih hT hpath hpath']

/-- A leaf below a tree of height `h` is `h` steps away. -/
theorem follow_leaf {l : LeafNode κ v} (hpath : follow P pid path = some q)
    (hget : P.get q = some (.leaf l)) : path.length = h ∧ ∀ e ∈ l.entries, e ∈ m := by
  obtain ⟨h', lo', hi', m', o', t', hlen, -, hm'⟩ := t.below hpath
  cases h' with
  | zero =>
    obtain ⟨l', hget', -, rfl, -⟩ := t'
    obtain rfl : l = l' := by simpa [hget] using hget'
    exact ⟨by omega, fun e he => hm' (Multiset.mem_coe.mpr he)⟩
  | succ h' =>
    obtain ⟨n, -, o'', hget', -⟩ := t'
    cases hget.symm.trans hget'

end

end Subtree

section WellShaped

variable [OrderBot κ] {t : Tree κ v} {m : Multiset (κ × v)}

/-- What the operations keep is a well-shaped tree. -/
theorem Tree.Holds.wellShaped (ht : t.Holds strict m) : t.WellShaped strict := by
  obtain ⟨o, ⟨h, hs⟩, hall⟩ := ht.stores
  constructor
  case depth => exact ⟨h, fun path pid l hpath hget => (hs.follow_leaf hpath hget).1⟩
  case between =>
    intro path pid n i path' q l hpath hget hi hpath' hleaf e he
    obtain ⟨h', lo, hi', m', o', hs', -⟩ := hs.below hpath
    cases h' with
    | zero =>
      obtain ⟨l', hget', -⟩ := hs'
      cases hget.symm.trans hget'
    | succ h' =>
      obtain ⟨n', os, hget', hkids, -⟩ := hs'.children
      obtain rfl : n = n' := by simpa [hget] using hget'
      obtain ⟨-, -, m₁, m₂, -, hT⟩ := hkids i hi
      obtain ⟨hlow, hhigh⟩ := hT.bounds e ((hT.follow_leaf hpath' hleaf).2 e he)
      constructor
      · rintro j s rfl hs
        obtain ⟨hj, rfl⟩ := List.getElem?_eq_some_iff.mp hs
        rwa [List.take_succ_eq_append_getElem hj, lastLow_append] at hlow
      · intro s hs
        obtain ⟨hi'', rfl⟩ := List.getElem?_eq_some_iff.mp hs
        rw [List.drop_eq_getElem_cons hi''] at hhigh
        exact before_coe.mp hhigh
  case unique => exact fun path path' pid => hs.follow_inj
  case reached =>
    intro pid
    constructor
    · rintro ⟨path, hpath⟩
      exact hs.inUse pid (hs.mem_of_follow hpath)
    · exact fun hin => hs.exists_path (hall pid hin)
  case freed => exact ht.balanced

end WellShaped

/-! ### Runs -/

namespace Structure

/-- What is done with a tree. -/
inductive Op (κ v : Type) where
  | insert (key : κ) (value : v)
  | delete (key : κ)
  | update (key : κ) (value : v)
  | deleteExact (key : κ) (value : v)
  deriving DecidableEq, Repr

/-- The operation merges pages. -/
def Op.merges {κ v : Type} : Op κ v → Bool
  | delete _ => true
  | _ => false

variable [OrderBot κ] [DecidableEq v]

/-- The operation on the tree. -/
def Op.perform (alloc : Allocator κ v) (t : Tree κ v) : Op κ v → Except TreeError Unit × Tree κ v
  | insert key value => t.insert alloc key value
  | delete key => t.delete key
  | update key value => t.update key value
  | deleteExact key value => t.deleteExact key value

/-- An operation that succeeds. -/
def step (alloc : Allocator κ v) (t : Tree κ v) (op : Op κ v) : Option (Tree κ v) :=
  match op.perform alloc t with
  | (.ok _, t') => some t'
  | (.error _, _) => none

/-- Keys are inserted that the tree does not have; on the way, each page has room or entries enough
to be divided. -/
def KeepsUnique (t : Tree κ v) : Op κ v → Prop
  | .insert key _ => t.search key = .ok none ∧ t.Divides true key
  | _ => True

instance (t : Tree κ v) : (op : Op κ v) → Decidable (KeepsUnique t op)
  | .insert key _ => inferInstanceAs (Decidable (t.search key = .ok none ∧ t.Divides true key))
  | .delete _ | .update _ _ | .deleteExact _ _ => .isTrue trivial

variable {alloc : Allocator κ v} {t t' : Tree κ v} {op : Op κ v}

theorem perform_of_step (hstep : step alloc t op = some t') : op.perform alloc t = (.ok (), t') := by
  unfold step at hstep
  split at hstep
  case h_1 heq => rw [heq, Option.some.inj hstep]
  case h_2 => cases hstep

/-- Updates and exact deletions keep every tree. -/
theorem holds_of_perform {m : Multiset (κ × v)} (ht : t.Holds strict m)
    (hop : (∃ key value, op = .update key value) ∨ ∃ key value, op = .deleteExact key value)
    (hrun : op.perform alloc t = (.ok (), t')) : ∃ m, t'.Holds strict m := by
  rcases hop with ⟨key, value, rfl⟩ | ⟨key, value, rfl⟩
  · rcases ht.update key value with ⟨t'', m₁, m₂, hupd, -, -, -, ht''⟩ | ⟨herr, -⟩
    · obtain rfl : t' = t'' := congrArg Prod.snd (hrun.symm.trans hupd)
      exact ⟨_, ht''⟩
    · cases hrun.symm.trans herr
  · by_cases hmem : (key, value) ∈ m
    · obtain ⟨t'', hdel, ht''⟩ := ht.deleteExact hmem
      obtain rfl : t' = t'' := congrArg Prod.snd (hrun.symm.trans hdel)
      exact ⟨_, ht''⟩
    · obtain ⟨o, hs, -⟩ := ht.stores
      cases hrun.symm.trans (hs.deleteExact_of_notMem hmem)

/-- **Unique keys**: any operation. -/
theorem holds_step_unique (ht : ∃ m, t.Holds true m) (hok : KeepsUnique t op)
    (hstep : step alloc t op = some t') : ∃ m, t'.Holds true m := by
  obtain ⟨m, ht⟩ := ht
  have hrun := perform_of_step hstep
  cases op with
  | insert key value =>
    obtain ⟨r, hr, hmem⟩ := ht.search key
    obtain rfl : none = r := Except.ok.inj (hok.1.symm.trans hr)
    have habsent : key ∉ m.map Prod.fst := by
      intro hkey
      obtain ⟨⟨k, value⟩, he, rfl⟩ := Multiset.mem_map.mp hkey
      exact absurd ((hmem value).mpr he) nofun
    obtain ⟨t'', hins, ht''⟩ := ht.insert alloc value (fun _ => habsent) hok.2
    obtain rfl : t' = t'' := congrArg Prod.snd (hrun.symm.trans hins)
    exact ⟨_, ht''⟩
  | delete key =>
    by_cases hkey : key ∈ m.map Prod.fst
    · obtain ⟨t'', value, m', hdel, -, ht''⟩ := ht.delete hkey
      obtain rfl : t' = t'' := congrArg Prod.snd (hrun.symm.trans hdel)
      exact ⟨m', ht''⟩
    · obtain ⟨o, hs, -⟩ := ht.stores
      cases hrun.symm.trans (hs.delete_of_notMem hkey)
  | update key value => exact holds_of_perform ht (.inl ⟨_, _, rfl⟩) hrun
  | deleteExact key value => exact holds_of_perform ht (.inr ⟨_, _, rfl⟩) hrun

/-- **Equal keys**: any operation that does not merge pages. -/
theorem holds_step (ht : ∃ m, t.Holds false m) (hop : op.merges = false)
    (hstep : step alloc t op = some t') : ∃ m, t'.Holds false m := by
  obtain ⟨m, ht⟩ := ht
  have hrun := perform_of_step hstep
  cases op with
  | insert key value =>
    -- the insertion has succeeded, so the leaf had room or entries
    have hdiv : t.Divides false key := by
      by_contra hdiv
      obtain ⟨o, hs, -⟩ := ht.stores
      obtain ⟨e, t'', herr, -⟩ := hs.insert_of_not_divides alloc value hdiv
      cases hrun.symm.trans herr
    obtain ⟨t'', hins, ht''⟩ := ht.insert alloc value nofun hdiv
    obtain rfl : t' = t'' := congrArg Prod.snd (hrun.symm.trans hins)
    exact ⟨_, ht''⟩
  | delete key => cases hop
  | update key value => exact holds_of_perform ht (.inl ⟨_, _, rfl⟩) hrun
  | deleteExact key value => exact holds_of_perform ht (.inr ⟨_, _, rfl⟩) hrun

/-- **Trees stay well shaped.** Where keys are unique and pages are divided that have entries
enough, every run of operations leaves a well-shaped tree; and so does, with equal keys, every run
without `delete`. -/
theorem tree_wellShaped {alloc : Allocator PaddedKey RowId} {t : Tree PaddedKey RowId}
    {ops : List (Op PaddedKey RowId)} (hrun : run (step alloc) (Tree.new alloc) ops = some t) :
    (Guarded KeepsUnique (step alloc) (Tree.new alloc) ops → t.WellShaped true) ∧
      ((∀ op ∈ ops, op.merges = false) → t.WellShaped false) := by
  constructor
  · intro hok
    obtain ⟨m, ht⟩ := run_invariant (P := fun t => ∃ m, Tree.Holds true t m)
      (fun _ _ _ ht hok hstep => holds_step_unique ht hok hstep) ⟨0, Tree.holds_new true alloc⟩ hok hrun
    exact ht.wellShaped
  · intro hops
    have hok : Guarded (fun _ op => Op.merges op = false) (step alloc) (Tree.new alloc) ops :=
      guarded_of_forall fun op hop _ => hops op hop
    obtain ⟨m, ht⟩ := run_invariant (P := fun t => ∃ m, Tree.Holds false t m)
      (fun _ _ _ ht hok hstep => holds_step ht hok hstep) ⟨0, Tree.holds_new false alloc⟩ hok hrun
    exact ht.wellShaped

/-- The operations that fill two leaves. -/
def fillTwoLeaves : List (Op PaddedKey RowId) :=
    (List.range 93).map fun i => .insert (.byte (UInt8.ofNat i)) ⟨0, i⟩

/-- Two leaves of different keys, and two of one key; entries of both are updated and deleted. -/
theorem tree_wellShaped_two :
    (∃ t, run (step (Allocator.next PaddedKey RowId)) (Tree.new (Allocator.next PaddedKey RowId))
        (fillTwoLeaves ++ [.update (.byte 3) ⟨1, 0⟩, .delete (.byte 92),
          .deleteExact (.byte 0) ⟨0, 0⟩]) = some t ∧
      t.rootKeys = [.byte 46] ∧ t.WellShaped true) ∧
    ∃ t, run (step (Allocator.next PaddedKey RowId)) (Tree.new (Allocator.next PaddedKey RowId))
        (List.replicate 93 (.insert (.byte 1) ⟨0, 0⟩) ++
          [.update (.byte 1) ⟨1, 0⟩, .deleteExact (.byte 1) ⟨0, 0⟩]) = some t ∧
      t.rootKeys = [.byte 1] ∧ t.WellShaped false := by
  constructor
  · have hchecked : ∃ t, runChecked KeepsUnique (step (Allocator.next PaddedKey RowId))
        (Tree.new (Allocator.next PaddedKey RowId))
        (fillTwoLeaves ++ [.update (.byte 3) ⟨1, 0⟩, .delete (.byte 92),
          .deleteExact (.byte 0) ⟨0, 0⟩]) = some t ∧ t.rootKeys = [.byte 46] := by decide +kernel
    exact exists_run hchecked fun t hok hrun _ => (tree_wellShaped hrun).1 hok
  · obtain ⟨t, hrun, hroot⟩ : ∃ t, run (step (Allocator.next PaddedKey RowId))
        (Tree.new (Allocator.next PaddedKey RowId))
        (List.replicate 93 (.insert (.byte 1) ⟨0, 0⟩) ++ [.update (.byte 1) ⟨1, 0⟩,
          .deleteExact (.byte 1) ⟨0, 0⟩]) = some t ∧ t.rootKeys = [.byte 1] := by decide +kernel
    exact ⟨t, hrun, hroot, (tree_wellShaped hrun).2 (by decide)⟩

/-- **A page is lost**: after 139 insertions of one entry there are two equal separators; two
deletions merge the last two leaves, and the separator of the leaf that is left goes as well. -/
theorem tree_loses_page : ∃ t,
    run (step (Allocator.next PaddedKey RowId)) (Tree.new (Allocator.next PaddedKey RowId))
      (List.replicate 139 (.insert (.byte 1) ⟨0, 0⟩) ++ [.delete (.byte 1), .delete (.byte 1)]) =
        some t ∧ ¬ t.WellShaped false := by
  obtain ⟨t, ht, hloses⟩ : ∃ t,
    run (step (Allocator.next PaddedKey RowId)) (Tree.new (Allocator.next PaddedKey RowId))
      (List.replicate 139 (.insert (.byte 1) ⟨0, 0⟩) ++ [.delete (.byte 1), .delete (.byte 1)]) =
        some t ∧ t.losesPage 1 := by decide +kernel
  exact ⟨t, ht, Tree.not_wellShaped_of_losesPage hloses⟩

end Structure

end RTsql.Storage.BTree

import RTsql.Storage.BTree.Links

/-!
# Neighbours share their entries

After a deletion a page may have too few entries. Then it and a neighbour, with the
separator between them, divide their entries anew, or become one page. In both cases the two
pieces are replaced by a row of pieces between the same bounds (`Joined`): two with
another separator, or one.

For a moment an internal node may be left without separators (`Weak`). It is never left so: its
parent repairs it, or it is the root, and its only child takes its place. -/

namespace RTsql.Storage.BTree

open RTsql.Library Proc List Finset
open Finset (erase_insert insert_union mem_insert_of_mem mem_union)

variable {κ v : Type}

/-! ### Steps on pages -/

section Steps

variable {P : Pages κ v} {pid slot c : ℕ} {l : LeafNode κ v} {n : InternalNode κ} {s : κ}
  {pre post : List (κ × ℕ)}

theorem rebuildLeaf_spec (entries : List (κ × v)) (hget : P.get pid = some (.leaf l))
    (hlen : entries.length ≤ maxEntries) :
    (rebuildLeaf pid entries).Returns P fun _ P' =>
      ∃ l' : LeafNode κ v, l'.entries = entries ∧ l'.next = l.next ∧
      P' = P.push (.write pid (.leaf l')) := by
  obtain ⟨l', hbuild, hentries, hnext⟩ := LeafNode.build_spec entries l.next hlen
  exact loadLeaf_bind hget (Returns.lift_bind hbuild ⟨(), _, rfl, l', hentries, hnext, rfl⟩)

theorem rebuildInternal_spec (leftmost : ℕ) (seps : List (κ × ℕ)) (hlen : seps.length ≤ maxSeparators) :
    (rebuildInternal pid leftmost seps).Returns P fun _ P' =>
      ∃ n : InternalNode κ, n.leftmost = leftmost ∧ n.seps = seps ∧
      P' = P.push (.write pid (.internal n)) := by
  obtain ⟨n, hbuild, hseps, hleft, -⟩ := InternalNode.build_spec leftmost seps hlen
  exact Returns.lift_bind hbuild ⟨(), _, rfl, n, hleft, hseps, rfl⟩

theorem updateParentSeparator_spec (key : κ) (child : ℕ) (hget : P.get pid = some (.internal n))
    (hseps : n.seps = pre ++ (s, c) :: post) :
    (updateParentSeparator pid pre.length key child).Returns P fun _ P' =>
      ∃ n' : InternalNode κ, n'.leftmost = n.leftmost ∧ n'.seps = pre ++ (key, child) :: post ∧
        P' = P.push (.write pid (.internal n')) := by
  obtain ⟨n', hrep, hseps', hleft⟩ := InternalNode.replaceSeparator_spec hseps
  exact loadInternal_bind hget (Returns.lift_bind hrep ⟨(), _, rfl, n', hleft, hseps', rfl⟩)

theorem removeSeparatorAt_spec (hget : P.get pid = some (.internal n))
    (hseps : n.seps = pre ++ (s, c) :: post) :
    (removeSeparatorAt pid pre.length).Returns P fun _ P' =>
      ∃ n' : InternalNode κ, n'.leftmost = n.leftmost ∧ n'.seps = pre ++ post ∧
        P' = P.push (.write pid (.internal n')) := by
  obtain ⟨n', hrem, hseps', hleft⟩ := InternalNode.removeSeparator_spec hseps
  exact loadInternal_bind hget (Returns.lift_bind hrem ⟨(), _, rfl, n', hleft, hseps', rfl⟩)

/-- The child behind the separators `pre` has a sibling to the right if there are more. -/
theorem siblingIds_right (hseps : n.seps = pre ++ post) :
    (siblingIds n pre.length).2 = post.head?.map Prod.snd := by
  show (if pre.length < n.seps.length then n.seps[pre.length]?.map Prod.snd else none) = _
  rw [hseps]
  cases post with
  | nil | cons e post => simp

/-- The child of a separator has a sibling to the left. -/
theorem siblingIds_left (hseps : n.seps = pre ++ (s, c) :: post) :
    (siblingIds n (pre.length + 1)).1 = some (lastKid n.leftmost pre) := by
  show (if 0 < pre.length + 1 then if pre.length + 1 = 1 then some n.leftmost
    else n.seps[pre.length + 1 - 2]?.map Prod.snd else none) = _
  rcases eq_nil_or_concat pre with rfl | ⟨front, ⟨t, d⟩, rfl⟩
  · rfl
  · rw [hseps]
    simp [lastKid]

end Steps

variable [LinearOrder κ]

/-! ### Weak trees -/

/-- A tree whose root may have no separators. -/
def Weak (P : Pages κ v) : ℕ → ℕ → κ → WithTop κ → Multiset (κ × v) → Finset ℕ → Prop
  | 0 => Leaf true P
  | h + 1 => fun pid lo hi m o => ∃ n, Branch (Subtree true P h) P n pid lo hi m o

/-- The entries or separators on a page. -/
def entryCount (P : Pages κ v) (pid : ℕ) : ℕ :=
  match P.get pid with
  | some (.leaf l) => l.entries.length
  | some (.internal n) => n.seps.length
  | _ => 0

section Weak

variable {P P' : Pages κ v} {h pid : ℕ} {lo : κ} {hi : WithTop κ} {m : Multiset (κ × v)} {o : Finset ℕ}

theorem Subtree.weak (t : Subtree true P h pid lo hi m o) : Weak P h pid lo hi m o := by
  cases h with
  | zero => exact t
  | succ h =>
    obtain ⟨n, -, hbranch⟩ := t
    exact ⟨n, hbranch⟩

variable (w : Weak P h pid lo hi m o)

include w

/-- With separators, a weak tree is a tree. -/
theorem Weak.subtree (hcount : 0 < entryCount P pid) : Subtree true P h pid lo hi m o := by
  cases h with
  | zero => exact w
  | succ h =>
    obtain ⟨n, o', hget, hf, hout, rfl⟩ := w
    refine ⟨n, ?_, o', hget, hf, hout, rfl⟩
    rw [entryCount, hget] at hcount
    exact ne_nil_of_length_pos hcount

theorem Weak.mem : pid ∈ o := by
  cases h with
  | zero => exact Subtree.mem (h := 0) w
  | succ h =>
    obtain ⟨n, o', -, -, -, rfl⟩ := w
    exact mem_insert_self pid o'

theorem Weak.inUse : ∀ p ∈ o, P.InUse p := by
  cases h with
  | zero => exact Subtree.inUse (h := 0) w
  | succ h =>
    obtain ⟨n, o', hget, hf, -, rfl⟩ := w
    intro p hp
    rcases mem_insert.mp hp with rfl | hp
    · exact Pages.inUse_of_get hget
    · exact inUse_of_fenced hf (fun _ _ _ _ _ t => t.inUse) p hp

theorem keyCount_spec : (keyCount pid).Returns P fun count P' => count = entryCount P pid ∧ P' = P := by
  cases h with
  | zero =>
    obtain ⟨l, hget, -⟩ := w
    exact loadPage_bind hget (Returns.pure ⟨by rw [entryCount, hget], rfl⟩)
  | succ h =>
    obtain ⟨n, o', hget, -⟩ := w
    exact loadPage_bind hget (Returns.pure ⟨by rw [entryCount, hget], rfl⟩)

end Weak

/-! ### Two neighbours -/

section Neighbours

variable {P : Pages κ v} {h pp left right : ℕ} {p : InternalNode κ} {pre post : List (κ × ℕ)} {lo s : κ}
  {hi : WithTop κ} {m₁ m₂ : Multiset (κ × v)} {o₁ o₂ : Finset ℕ}

/-- Neighbours `left` and `right`, with the separator `s` between them. Their parent `p` is on page
`pp`. -/
structure Adjacent (P : Pages κ v) (h pp : ℕ) (p : InternalNode κ) (left right : ℕ)
    (pre post : List (κ × ℕ))
    (lo s : κ) (hi : WithTop κ) (m₁ m₂ : Multiset (κ × v)) (o₁ o₂ : Finset ℕ) : Prop where
  first : Weak P h left lo s m₁ o₁
  second : Weak P h right s hi m₂ o₂
  disjoint : Disjoint o₁ o₂
  parent : P.get pp = some (.internal p)
  seps : p.seps = pre ++ (s, right) :: post
  outside : pp ∉ o₁ ∪ o₂

theorem Adjacent.ne (ha : Adjacent P h pp p left right pre post lo s hi m₁ m₂ o₁ o₂) :
    left ≠ right ∧ pp ≠ left ∧ pp ≠ right := by
  have hl := ha.first.mem
  have hr := ha.second.mem
  refine ⟨?_, ?_, ?_⟩
  · rintro rfl
    exact disjoint_left.mp ha.disjoint hl hr
  · rintro rfl
    exact ha.outside (mem_union_left _ hl)
  · rintro rfl
    exact ha.outside (mem_union_right _ hr)

/-- The separators `row` of two internal nodes and the one between them, with their pieces on the
pages `o`. -/
theorem Adjacent.internals (ha : Adjacent P (h + 1) pp p left right pre post lo s hi m₁ m₂ o₁ o₂) :
    ∃ l r row o, P.get left = some (.internal l) ∧ P.get right = some (.internal r) ∧ left ∉ o ∧
    right ∉ o ∧ pp ∉ o ∧
      o₁ ∪ o₂ = insert left (insert right o) ∧ row = l.seps ++ (s, r.leftmost) :: r.seps ∧
      joinSeparators l r (p.seps[pre.length]?.map Prod.fst) = row ∧
      Fenced (Subtree true P h) l.leftmost row lo hi (m₁ + m₂) o ∧
      ∀ P', (∀ q ∈ o, P'.get q = P.get q) → Fenced (Subtree true P' h) l.leftmost row lo hi (m₁ + m₂) o ∧
        ∀ f mid e, Links P (h + 1) left f mid → Linked mid → Links P (h + 1) right mid e →
          Threaded (Links P' h) Linked l.leftmost row f e := by
  obtain ⟨l, o₁', hgetl, hfl, houtl, rfl⟩ := ha.first
  obtain ⟨r, o₂', hgetr, hfr, houtr, rfl⟩ := ha.second
  have hd := ha.disjoint
  have hout := ha.outside
  simp only [disjoint_insert_left, disjoint_insert_right, mem_insert, mem_union, not_or] at hd hout
  have hf : Fenced (Subtree true P h) l.leftmost (l.seps ++ (s, r.leftmost) :: r.seps) lo hi
    (m₁ + m₂) (o₁' ∪ o₂') := Fenced.append_iff.mpr ⟨m₁, m₂, o₁', o₂', hfl, hfr, hd.2.2, rfl, rfl⟩
  refine ⟨l, r, _, o₁' ∪ o₂', hgetl, hgetr, ?_, ?_, ?_, ?_, rfl, ?_, hf, fun P' hsame =>
    ⟨fenced_congr hf hsame, ?_⟩⟩
  · rw [mem_union, not_or]
    exact ⟨houtl, hd.2.1⟩
  · rw [mem_union, not_or]
    exact ⟨hd.1.2, houtr⟩
  · rw [mem_union, not_or]
    exact ⟨hout.1.2, hout.2.2⟩
  · rw [insert_union, union_insert]
  · rw [joinSeparators, ha.seps,
      show l.seps ++ (((pre ++ (s, right) :: post)[pre.length]?.map Prod.fst).map
      (·, r.leftmost)).toList ++ r.seps = l.seps ++ (s, r.leftmost) :: r.seps by simp]
    exact Ascend.sortEntries_eq (hf.fences fun _ _ _ _ _ t => t.before).1
  · intro f mid e hfirst hlink hsecond
    exact threaded_congr (Threaded.append_iff.mpr
      ⟨mid, hlink, (links_internal hgetl).mp hfirst, (links_internal hgetr).mp hsecond⟩) hf hsame

variable [OrderBot κ]

/-- The neighbours from page `left` on became the row of pieces `seg`. -/
structure Joined (P P' : Pages κ v) (h pp : ℕ) (p : InternalNode κ) (left right : ℕ)
    (pre post : List (κ × ℕ)) (lo : κ) (hi : WithTop κ) (m : Multiset (κ × v)) (o : Finset ℕ)
    (r : Option (MergeInfo κ)) (seg : List (κ × ℕ)) (o' : Finset ℕ) : Prop where
  pieces : Fenced (Subtree true P' h) left seg lo hi m o'
  /-- The thread through both runs through the row. -/
  threaded : ∀ f mid e, Links P h left f mid → Linked mid → Links P h right mid e →
    Threaded (Links P' h) Linked left seg f e
  sub : o' ⊆ o
  parent : ∃ p' : InternalNode κ, P'.get pp = some (.internal p') ∧ p'.leftmost = p.leftmost ∧
    p'.seps = pre ++ seg ++ post
  rewrites : Rewrites P P' (insert pp o) (insert pp o')
  /-- If they were merged, the key that is reported is none of the separators that are left. -/
  result : match r with
    | none => seg ≠ []
    | some info => seg = [] ∧ info.newRoot = none ∧
      (info.separatorKey = ⊥ ∨ lo < info.separatorKey ∧ (info.separatorKey : WithTop κ) < hi)

namespace Adjacent

/-- **Leaves** divide their entries anew. -/
theorem redistributeLeaves_spec (ha : Adjacent P 0 pp p left right pre post lo s hi m₁ m₂ o₁ o₂)
    (hcount : minKeys < entryCount P left + entryCount P right) :
    (redistributeLeaves left right pp pre.length).Returns P fun r P' => ∃ seg o',
      Joined P P' 0 pp p left right pre post lo hi (m₁ + m₂) (o₁ ∪ o₂) r seg o' := by
  obtain ⟨hne, hpl, hpr⟩ := ha.ne
  obtain ⟨l, hgetl, hl, rfl, rfl⟩ := ha.first
  obtain ⟨r, hgetr, hr, rfl, rfl⟩ := ha.second
  have hllen := l.length_entries_le
  have hrlen := r.length_entries_le
  rw [entryCount, hgetl, entryCount, hgetr] at hcount
  simp only [minKeys, maxEntries] at hcount hllen hrlen
  have hw := hl.join hr
  obtain ⟨front, middle, back, hall, hlen, hat, htake, hdrop, -⟩ :=
    exists_middle (l := l.entries ++ r.entries) (by rw [length_append]; omega)
  have hlens := congrArg length hall
  simp only [length_append, length_cons] at hlens hlen
  refine loadLeaf_bind hgetl (loadLeaf_bind hgetr ?_)
  dsimp only
  rw [hw.ascend.sortEntries_eq, hat, htake, hdrop]
  obtain ⟨hfront, hback⟩ := (hall ▸ hw).divide fun _ hnil => by
    rw [hnil, length_nil] at hlen
    omega
  refine (rebuildLeaf_spec front hgetl (by rw [maxEntries]; omega)).bind ?_
  rintro - - ⟨l', rfl, hlnext, rfl⟩
  refine (rebuildLeaf_spec (l := r) (middle :: back) ?_ (by rw [length_cons, maxEntries]; omega)).bind ?_
  · rw [Pages.get_write, if_neg (Ne.symm hne), hgetr]
  rintro - - ⟨r', hr', hrnext, rfl⟩
  refine (updateParentSeparator_spec middle.1 right (n := p) ?_ ha.seps).bind ?_
  · rw [Pages.get_write, if_neg hpr, Pages.get_write, if_neg hpl, ha.parent]
  rintro - - ⟨p', hleft', hseps', rfl⟩
  refine Returns.pure ⟨[(middle.1, right)], {left} ∪ {right}, ?_⟩
  have hgetl' : ((((P.push (.write left (.leaf l'))).push (.write right (.leaf r'))).push
      (.write pp (.internal p'))).get left) = some (.leaf l') := by simp [hne, hpl.symm]
  have hgetr' : ((((P.push (.write left (.leaf l'))).push (.write right (.leaf r'))).push
      (.write pp (.internal p'))).get right) = some (.leaf r') := by simp [hpr.symm]
  exact
    { pieces := by
        refine ⟨l'.entries, r'.entries, {left}, {right}, ⟨l', hgetl', hfront, rfl, rfl⟩,
          ⟨r', hgetr', hr' ▸ hback, rfl, rfl⟩, ha.disjoint, ?_, rfl⟩
        rw [Multiset.coe_add, Multiset.coe_add, hall, hr']
      threaded := by
        intro f mid e hfirst hlink hsecond
        obtain ⟨rfl, hmid⟩ := (links_leaf hgetl).mp hfirst
        obtain ⟨rfl, he⟩ := (links_leaf hgetr).mp hsecond
        exact ⟨mid, hlink, (links_leaf hgetl').mpr ⟨rfl, hlnext.trans hmid⟩,
          (links_leaf hgetr').mpr ⟨rfl, hrnext.trans he⟩⟩
      sub := Finset.Subset.refl _
      parent := ⟨p', by simp, hleft', by simp [hseps']⟩
      rewrites := by
        refine (Rewrites.write ?_ ?_).trans ((Rewrites.write ?_ ?_).trans (Rewrites.write ?_ ?_))
        all_goals simp [Pages.InUse, hgetl, hgetr, ha.parent, hne.symm,
          hpl, hpr]
      result := cons_ne_nil _ _ }

/-- **Leaves** become one. -/
theorem mergeLeaves_spec (ha : Adjacent P 0 pp p left right pre post lo s hi m₁ m₂ o₁ o₂)
    (hcount : entryCount P left + entryCount P right ≤ 2 * minKeys) :
    (mergeLeaves left right pp (pre.length + 1)).Returns P fun info P' => ∃ seg o',
      Joined P P' 0 pp p left right pre post lo hi (m₁ + m₂) (o₁ ∪ o₂) (some info) seg o' := by
  obtain ⟨hne, hpl, hpr⟩ := ha.ne
  obtain ⟨l, hgetl, hl, rfl, rfl⟩ := ha.first
  obtain ⟨r, hgetr, hr, rfl, rfl⟩ := ha.second
  rw [entryCount, hgetl, entryCount, hgetr] at hcount
  refine loadLeaf_bind hgetr (loadLeaf_bind hgetl ?_)
  refine (rebuildLeaf_spec (l.entries ++ r.entries) hgetl ?_).bind ?_
  · rw [length_append]
    simp only [minKeys, maxEntries] at hcount ⊢
    omega
  rintro - - ⟨l', hl', -, rfl⟩
  refine loadLeaf_bind (l := l') (by simp) (writeLeaf_bind (freePage_bind ?_))
  refine (removeSeparatorAt_spec (n := p) (by simp [hpl, hpr, ha.parent]) ha.seps).bind ?_
  rintro - - ⟨p', hleft', hseps', rfl⟩
  refine Returns.pure ⟨[], {left}, ?_⟩
  have hgetl' : (((((P.push (.write left (.leaf l'))).push
    (.write left (.leaf { l' with next := r.next }))).push
      (.free right)).push (.write pp (.internal p'))).get left) =
        some (.leaf { l' with next := r.next }) := by
    simp [hne, hpl.symm]
  exact
    { pieces := by
        refine ⟨{ l' with next := r.next }, hgetl', ?_, ?_, rfl⟩
        · show Within true l'.entries lo hi
          rw [hl']
          exact hl.join hr
        · show _ = (l'.entries : Multiset (κ × v))
          rw [Multiset.coe_add, hl']
      threaded := by
        intro f mid e hfirst _ hsecond
        obtain ⟨rfl, -⟩ := (links_leaf hgetl).mp hfirst
        obtain ⟨-, he⟩ := (links_leaf hgetr).mp hsecond
        exact (links_leaf hgetl').mpr ⟨rfl, he⟩
      sub := subset_union_left
      parent := ⟨p', by simp, hleft', by simp [hseps']⟩
      rewrites := by
        have hright : right ∉ ({left} : Finset ℕ) := fun h => hne (Finset.mem_singleton.mp h).symm
        rw [union_comm, ← erase_insert hright, ← erase_insert_of_ne hpr,
          erase_insert hright]
        refine (Rewrites.write ?_ ?_).trans ((Rewrites.write ?_ ?_).trans ((Rewrites.free ?_ ?_).trans
          (Rewrites.write ?_ ?_)))
        all_goals simp [Pages.InUse, hgetl, hgetr, ha.parent, hne.symm, hpl, hpr]
      result := by
        refine ⟨rfl, rfl, ?_⟩
        -- the first key of the right leaf lies behind the separator
        cases hentries : r.entries with
        | nil => exact .inl rfl
        | cons e rest =>
          have he := hr.bounds e (by rw [hentries]; exact mem_cons_self)
          exact .inr ⟨(WithTop.coe_lt_coe.mp hl.before).trans_le he.1, he.2⟩ }

variable (ha : Adjacent P (h + 1) pp p left right pre post lo s hi m₁ m₂ o₁ o₂)

include ha

/-- **Internal nodes** divide their separators anew. -/
theorem redistributeInternals_spec (hcount : minKeys < entryCount P left + entryCount P right) :
    (redistributeInternals left right pp pre.length).Returns P fun r P' => ∃ seg o',
      Joined P P' (h + 1) pp p left right pre post lo hi (m₁ + m₂) (o₁ ∪ o₂) r seg o' := by
  obtain ⟨hne, hpl, hpr⟩ := ha.ne
  obtain ⟨l, r, row, o, hgetl, hgetr, houtl, houtr, hout, ho, hrow, hjoin, -, hnew⟩ := ha.internals
  have hllen := l.length_seps_le
  have hrlen := r.length_seps_le
  have hrlens := congrArg length hrow
  rw [entryCount, hgetl, entryCount, hgetr] at hcount
  simp only [minKeys, maxSeparators] at hcount hllen hrlen
  simp only [length_append, length_cons] at hrlens
  refine loadInternal_bind ha.parent (loadInternal_bind hgetl (loadInternal_bind hgetr ?_))
  dsimp only
  rw [hjoin]
  obtain ⟨front, ⟨t, c⟩, back, rfl, hlen, hat, htake, -, hdrop⟩ := exists_middle (l := row) (by omega)
  rw [length_append, length_cons] at hlen hrlens
  rw [hat, htake, hdrop, ho]
  refine (rebuildInternal_spec l.leftmost front (by rw [maxSeparators]; omega)).bind ?_
  rintro - - ⟨l', hl', rfl, rfl⟩
  refine (rebuildInternal_spec c back (by rw [maxSeparators]; omega)).bind ?_
  rintro - - ⟨r', hr', rfl, rfl⟩
  refine (updateParentSeparator_spec t right (n := p) (by simp [hpl, hpr, ha.parent]) ha.seps).bind ?_
  rintro - - ⟨p', hleft', hseps', rfl⟩
  refine Returns.pure ⟨[(t, right)], insert left (insert right o), ?_⟩
  set P' := ((P.push (.write left (.internal l'))).push (.write right (.internal r'))).push
    (.write pp (.internal p'))
    with hP'
  have hgetl' : P'.get left = some (.internal l') := by simp [hP', hne, hpl.symm]
  have hgetr' : P'.get right = some (.internal r') := by simp [hP', hpr.symm]
  obtain ⟨hf, hthreaded⟩ := hnew P' fun q hq => by
    simp [hP', ne_of_mem_of_not_mem hq houtl, ne_of_mem_of_not_mem hq houtr,
      ne_of_mem_of_not_mem hq hout]
  rw [← hl', ← hr'] at hf hthreaded
  exact
    { pieces := by
        refine fenced_pair hgetl' hgetr' ?_ ?_ hf hne houtl houtr
        · exact ne_nil_of_length_pos (by omega)
        · exact ne_nil_of_length_pos (by omega)
      threaded := fun f mid e hfirst hlink hsecond =>
        threaded_pair hgetl' hgetr' (hthreaded f mid e hfirst hlink hsecond)
      sub := Finset.Subset.refl _
      parent := ⟨p', by simp [hP'], hleft', by simp [hseps']⟩
      rewrites := by
        refine (Rewrites.write ?_ ?_).trans ((Rewrites.write ?_ ?_).trans (Rewrites.write ?_ ?_))
        all_goals simp [Pages.InUse, hgetl, hgetr, ha.parent, hne.symm, hpl, hpr]
      result := cons_ne_nil _ _ }

/-- **Internal nodes** become one. -/
theorem mergeInternals_spec (hcount : entryCount P left + entryCount P right ≤ 2 * minKeys) :
    (mergeInternals left right pp (pre.length + 1)).Returns P fun info P' => ∃ seg o',
      Joined P P' (h + 1) pp p left right pre post lo hi (m₁ + m₂) (o₁ ∪ o₂) (some info) seg o' := by
  obtain ⟨hne, hpl, hpr⟩ := ha.ne
  obtain ⟨l, r, row, o, hgetl, hgetr, houtl, houtr, hout, ho, rfl, hjoin, hf, hnew⟩ := ha.internals
  rw [entryCount, hgetl, entryCount, hgetr] at hcount
  simp only [minKeys] at hcount
  have hfences := (hf.fences fun _ _ _ _ _ t => t.before).2
  refine loadInternal_bind ha.parent (loadInternal_bind hgetl (loadInternal_bind hgetr ?_))
  dsimp only
  rw [Nat.add_sub_cancel, hjoin, ha.seps,
    show (pre ++ (s, right) :: post)[pre.length]?.map Prod.fst = some s by simp]
  -- the key that is reported is a separator of the two nodes
  obtain ⟨mergedSep, hmerged, hbounds⟩ : ∃ k, (l.seps.head?.map Prod.fst).or (some s) = some k ∧
      lo < k ∧ (k : WithTop κ) < hi := by
    cases hl : l.seps with
    | nil => exact ⟨s, rfl, hfences (s, r.leftmost) (by simp)⟩
    | cons e rest => exact ⟨e.1, rfl, hfences e (by simp [hl])⟩
  rw [hmerged]
  refine (rebuildInternal_spec l.leftmost (l.seps ++ (s, r.leftmost) :: r.seps) ?_).bind ?_
  · simp only [length_append, length_cons, maxSeparators]
    omega
  rintro - - ⟨l', hl', hlseps', rfl⟩
  refine (removeSeparatorAt_spec (n := p) (by simp [hpl, hpr, ha.parent]) ha.seps).bind ?_
  rintro - - ⟨p', hleft', hseps', rfl⟩
  have hright : right ∉ insert left o := by
    rw [mem_insert, not_or]
    exact ⟨Ne.symm hne, houtr⟩
  rw [ho, insert_comm]
  refine Returns.pure ⟨[], insert left o, ?_⟩
  set P' := ((P.push (.write left (.internal l'))).push (.free right)).push
    (.write pp (.internal p')) with hP'
  have hgetl' : P'.get left = some (.internal l') := by simp [hP', hne, hpl.symm]
  obtain ⟨hf, hthreaded⟩ := hnew P' fun q hq => by
    simp [hP', ne_of_mem_of_not_mem hq houtl, ne_of_mem_of_not_mem hq houtr,
      ne_of_mem_of_not_mem hq hout]
  rw [← hl', ← hlseps'] at hf hthreaded
  exact
    { pieces := by
        refine subtree_internal hgetl' ?_ hf houtl
        show l'.seps ≠ []
        rw [hlseps']
        simp
      threaded := fun f mid e hfirst hlink hsecond =>
        (links_internal hgetl').mpr (hthreaded f mid e hfirst hlink hsecond)
      sub := subset_insert _ _
      parent := ⟨p', by simp [hP'], hleft', by simp [hseps']⟩
      rewrites := by
        rw [← erase_insert hright, ← erase_insert_of_ne hpr, erase_insert hright]
        refine (Rewrites.write ?_ ?_).trans ((Rewrites.free ?_ ?_).trans (Rewrites.write ?_ ?_))
        all_goals simp [Pages.InUse, hgetl, hgetr, ha.parent, hne.symm, hpl, hpr]
      result := ⟨rfl, rfl, .inr hbounds⟩ }

end Adjacent

end Neighbours

/-! ### A page with too few entries -/

/-- The page `c`, which may be weak if it is `child`. -/
def Deficient (P : Pages κ v) (h child c : ℕ) (lo : κ) (hi : WithTop κ) (m : Multiset (κ × v))
    (o : Finset ℕ) : Prop :=
  if c = child then Weak P h c lo hi m o else Subtree true P h c lo hi m o

section Deficient

variable {P P' : Pages κ v} {h pp child c : ℕ} {p : InternalNode κ} {pre post : List (κ × ℕ)} {lo s : κ}
  {hi : WithTop κ} {m : Multiset (κ × v)} {o : Finset ℕ}

theorem Deficient.weak (d : Deficient P h child c lo hi m o) : Weak P h c lo hi m o := by
  unfold Deficient at d
  split at d
  · exact d
  · exact d.weak

theorem Deficient.subtree (d : Deficient P h child c lo hi m o) (hne : c ≠ child) :
    Subtree true P h c lo hi m o := by
  rwa [Deficient, if_neg hne] at d

/-- The sibling on page `pid`, if it has entries to spare. -/
theorem spare_bind {α : Type} {R : α → Pages κ v → Prop} {f : Option ℕ → TreeAction κ v α} {pid : ℕ}
    (w : Weak P h pid lo hi m o)
    (hrest : (f (if minKeys < entryCount P pid then some pid else none)).Returns P R) :
    (spare (some pid) >>= f).Returns P R := by
  refine Returns.bind (Q :=
    fun r P' => r = (if minKeys < entryCount P pid then some pid else none) ∧ P' = P) ?_ ?_
  · refine (keyCount_spec w).bind ?_
    rintro _ _ ⟨rfl, rfl⟩
    exact Returns.pure ⟨rfl, rfl⟩
  · rintro _ _ ⟨rfl, rfl⟩
    exact hrest

variable [OrderBot κ]

/-- The children of the node on page `pp` are trees again. A merge may have left the node without
separators, and has reported a key that is none of them. -/
def Mended (P P' : Pages κ v) (h pp : ℕ) (lo : κ) (hi : WithTop κ) (m : Multiset (κ × v)) (o : Finset ℕ)
    (r : Option (MergeInfo κ)) : Prop :=
  ∃ (p' : InternalNode κ) (o' : Finset ℕ), P'.get pp = some (.internal p') ∧
    Fenced (Subtree true P' h) p'.leftmost p'.seps lo hi m o' ∧ pp ∉ o' ∧
    Rewrites P P' (insert pp o) (insert pp o') ∧ Threads P P' (h + 1) pp ([] : List (κ × ℕ)) ∧
    match r with
    | none => p'.seps ≠ []
    | some info => info.newRoot = none ∧ info.separatorKey ∉ p'.seps.map Prod.fst

/-- The page and a neighbour; joining them mends the parent. -/
theorem exists_adjacent {right : ℕ} (hget : P.get pp = some (.internal p))
    (hseps : p.seps = pre ++ (s, right) :: post)
    (hchild : child = lastKid p.leftmost pre ∨ child = right)
    (hf : Fenced (Deficient P h child) p.leftmost p.seps lo hi m o) (hout : pp ∉ o) :
    ∃ lo' hi' m₁ m₂ o₁ o₂,
      Adjacent P h pp p (lastKid p.leftmost pre) right pre post lo' s hi' m₁ m₂ o₁ o₂ ∧
      ∀ P' r seg o', Joined P P' h pp p (lastKid p.leftmost pre) right pre post lo' hi' (m₁ + m₂)
        (o₁ ∪ o₂) r seg o' →
        Mended P P' h pp lo hi m o r := by
  rw [hseps, show pre ++ (s, right) :: post = pre ++ [(s, right)] ++ post by simp] at hf
  obtain ⟨m', m₃, o', o₃, hpair, hd, rfl, rfl, -, hrep⟩ := hf.replace
  obtain ⟨m₁, m₂, o₁, o₂, hleft, hright, hd', rfl, rfl⟩ := hpair
  have huse := inUse_of_fenced hf fun _ _ _ _ _ d => d.weak.inUse
  have hmem : child ∈ o₁ ∪ o₂ := by
    rcases hchild with rfl | rfl
    · exact mem_union_left _ hleft.weak.mem
    · exact mem_union_right _ hright.weak.mem
  rw [mem_union, not_or] at hout
  refine ⟨_, _, m₁, m₂, o₁, o₂, ⟨hleft.weak, hright.weak, hd', hget, hseps, hout.1⟩, ?_⟩
  intro P' r seg o' hj
  obtain ⟨p', hget', hleft', hseps'⟩ := hj.parent
  -- the other children are as before
  have hdp : Disjoint (insert pp (o₁ ∪ o₂)) o₃ := disjoint_insert_left.mpr ⟨hout.2, hd⟩
  have huse₃ : ∀ q ∈ o₃, P.InUse q := fun q hq => huse q (mem_union_right _ hq)
  have hother : ∀ {c lo hi m o}, o ⊆ o₃ → Deficient P h child c lo hi m o →
    Subtree true P h c lo hi m o := by
    intro c lo hi m o ho d
    refine d.subtree ?_
    rintro rfl
    exact disjoint_left.mp hd hmem (ho d.weak.mem)
  have hrow := hrep (Subtree true P' h)
    (fun c lo hi m o ho d => (hother ho d).congr fun q hq =>
      hj.rewrites.same hdp huse₃ q (ho hq)) seg _ o' hj.pieces
    (hd.mono_left hj.sub)
  rw [← hleft', ← hseps'] at hrow
  refine ⟨p', o' ∪ o₃, hget', hrow, ?_, ?_, ?_, ?_⟩
  · rw [mem_union, not_or]
    exact ⟨fun hmem => hout.1 (hj.sub hmem), hout.2⟩
  · have := hj.rewrites.frame o₃
    rwa [insert_union, insert_union] at this
  · -- the thread runs through the two, and through the others as before
    intro f e hl
    have ht := (links_internal hget).mp hl
    rw [hseps, show pre ++ (s, right) :: post = pre ++ [(s, right)] ++ post by simp] at ht
    obtain ⟨f', e', ⟨mid, hlink, hfirst, hsecond⟩, hrep'⟩ :=
      ht.replace (hf.nodup_kids fun _ _ _ _ _ d => d.weak.mem)
    refine (links_internal hget').mpr ?_
    rw [hleft', hseps']
    refine hrep' _ (fun x hx hne f e hl => ?_) seg (hj.threaded f' mid e' hfirst hlink hsecond)
    obtain ⟨lo, hi, m, o, ho, d⟩ := Fenced.exists_piece_of_replace hrep hx hne
    exact hl.congr (hother ho d) fun q hq => hj.rewrites.same hdp huse₃ q (ho hq)
  · have hresult := hj.result
    cases r with
    | none =>
      intro hnil
      rw [hseps'] at hnil
      simp only [append_eq_nil_iff] at hnil
      exact hresult hnil.1.2
    | some info =>
      obtain ⟨rfl, hroot, hkey⟩ := hresult
      refine ⟨hroot, fun hmem => ?_⟩
      obtain ⟨e, he, heq⟩ := mem_map.mp hmem
      obtain ⟨hasc, hbounds⟩ := hrow.fences fun _ _ _ _ _ t => t.before
      rw [hseps', append_nil] at hasc hbounds he
      rcases hkey with hbot | ⟨hlow, hhigh⟩
      · exact absurd (hbounds e he).1 (by rw [heq, hbot]; exact not_lt_bot)
      · have hle := hasc.imp fun hab => hab.le
        obtain ⟨hpre, hpost, -⟩ := pairwise_append.mp hle
        rw [← heq] at hlow hhigh
        rcases mem_append.mp he with he | he
        · exact absurd hlow (not_lt.mpr (le_lastLow lo hpre e he))
        · exact absurd hhigh (not_lt.mpr (firstHigh_le hi hpost e he))

/-- What `handle_underflow` is given: functions that join neighbours. -/
structure Joins (redistribute : ℕ → ℕ → ℕ → ℕ → TreeAction κ v (Option (MergeInfo κ)))
    (merge : ℕ → ℕ → ℕ → ℕ → TreeAction κ v (MergeInfo κ)) (P : Pages κ v) (h pp : ℕ)
    (p : InternalNode κ) : Prop where
  redistribute : ∀ {left right pre post lo s hi m₁ m₂ o₁ o₂},
    Adjacent P h pp p left right pre post lo s hi m₁ m₂ o₁ o₂ → minKeys < entryCount P left +
      entryCount P right → (redistribute left right pp pre.length).Returns P fun r P' => ∃ seg o',
      Joined P P' h pp p left right pre post lo hi (m₁ + m₂) (o₁ ∪ o₂) r seg o'
  merge : ∀ {left right pre post lo s hi m₁ m₂ o₁ o₂},
    Adjacent P h pp p left right pre post lo s hi m₁ m₂ o₁ o₂ →
    entryCount P left + entryCount P right ≤ 2 * minKeys →
    (merge left right pp (pre.length + 1)).Returns P fun info P' => ∃ seg o',
      Joined P P' h pp p left right pre post lo hi (m₁ + m₂) (o₁ ∪ o₂) (some info) seg o'

variable {redistribute : ℕ → ℕ → ℕ → ℕ → TreeAction κ v (Option (MergeInfo κ))}
  {merge : ℕ → ℕ → ℕ → ℕ → TreeAction κ v (MergeInfo κ)}

variable (hjoins : Joins redistribute merge P h pp p) (hget : P.get pp = some (.internal p))

include hjoins hget

/-- Either of two neighbours may be the page with too few entries. -/
theorem Joins.mend {right : ℕ} (hseps : p.seps = pre ++ (s, right) :: post)
    (hchild : child = lastKid p.leftmost pre ∨ child = right)
    (hf : Fenced (Deficient P h child) p.leftmost p.seps lo hi m o) (hout : pp ∉ o) :
    (∃ lo hi m o, Weak P h (lastKid p.leftmost pre) lo hi m o) ∧
    (∃ lo hi m o, Weak P h right lo hi m o) ∧
      (minKeys < entryCount P (lastKid p.leftmost pre) + entryCount P right →
        (redistribute (lastKid p.leftmost pre) right pp pre.length).Returns P fun r P' =>
          Mended P P' h pp lo hi m o r) ∧
      (entryCount P (lastKid p.leftmost pre) + entryCount P right ≤ 2 * minKeys →
        (merge (lastKid p.leftmost pre) right pp (pre.length + 1)).Returns P fun info P' =>
          Mended P P' h pp lo hi m o (some info)) := by
  obtain ⟨_, _, _, _, _, _, hadj, hmend⟩ := exists_adjacent hget hseps hchild hf hout
  refine ⟨⟨_, _, _, _, hadj.first⟩, ⟨_, _, _, _, hadj.second⟩, fun hmany => ?_, fun hfew => ?_⟩
  · refine (hjoins.redistribute hadj hmany).mono ?_
    rintro r P' ⟨seg, o', hj⟩
    exact hmend P' r seg o' hj
  · refine (hjoins.merge hadj hfew).mono ?_
    rintro r P' ⟨seg, o', hj⟩
    exact hmend P' _ seg o' hj

/-- **Underflow.** A page with too few entries and a neighbour divide their entries anew or become
one. -/
theorem handleUnderflow_spec {alone : InternalNode κ → TreeAction κ v (Option (MergeInfo κ))}
    (hseps : p.seps = pre ++ post)
    (hne : p.seps ≠ []) (hf : Fenced
      (Deficient P h (lastKid p.leftmost pre)) p.leftmost p.seps lo hi m o)
    (hout : pp ∉ o) (hcount : entryCount P (lastKid p.leftmost pre) < minKeys) :
    (handleUnderflow redistribute merge alone
      (lastKid p.leftmost pre) pre.length pp).Returns P fun r P' =>
      Mended P P' h pp lo hi m o r := by
  have hright := siblingIds_right hseps
  refine loadInternal_bind hget ?_
  rcases eq_nil_or_concat pre with rfl | ⟨front, ⟨t, c⟩, rfl⟩
  · cases post with
    | nil => exact absurd hseps hne
    | cons e post =>
      obtain ⟨s, right⟩ := e
      obtain ⟨-, ⟨_, _, _, _, hweak⟩, hdivide, hmerge⟩ := hjoins.mend hget hseps (.inl rfl) hf hout
      rw [show siblingIds p ([] : List (κ × ℕ)).length = (none, some right) from Prod.ext rfl hright]
      refine spare_bind hweak ?_
      by_cases hmany : minKeys < entryCount P right
      · rw [if_pos hmany]
        exact hdivide (by omega)
      · rw [if_neg hmany]
        refine Returns.pure_bind (a := none) ?_
        exact Returns.bind (hmerge (by omega)) fun info P' hm => Returns.pure hm
  · rw [concat_eq_append] at *
    have hseps' : p.seps = front ++ (t, c) :: post := by rw [hseps]; simp
    have hleft := siblingIds_left hseps'
    have hpos : (front ++ [(t, c)]).length = front.length + 1 := by simp
    have hkid : lastKid p.leftmost (front ++ [(t, c)]) = c := lastKid_append t
    rw [hpos] at hright ⊢
    obtain ⟨⟨_, _, _, _, hweak⟩, -, hdivide, hmerge⟩ := hjoins.mend hget hseps' (.inr hkid) hf hout
    rw [hkid] at hcount
    -- the left sibling, if the right one has nothing to spare
    have hrest {k : Option ℕ → TreeAction κ v (Option (MergeInfo κ))}
        (hsome : k (some (lastKid p.leftmost front)) =
          redistribute (lastKid p.leftmost front) (lastKid p.leftmost (front ++ [(t, c)])) pp
            (front.length + 1 - 1))
        (hnone : k none = do
          let info ← merge (lastKid p.leftmost front) (lastKid p.leftmost (front ++ [(t, c)])) pp
            (front.length + 1)
          pure (some info)) :
        (spare (some (lastKid p.leftmost front)) >>= k).Returns P fun r P' =>
        Mended P P' h pp lo hi m o r := by
      rw [hkid] at hsome hnone
      refine spare_bind hweak ?_
      by_cases hmany : minKeys < entryCount P (lastKid p.leftmost front)
      · rw [if_pos hmany, hsome]
        exact hdivide (by omega)
      · rw [if_neg hmany, hnone]
        exact Returns.bind (hmerge (by omega)) fun info P' hm => Returns.pure hm
    cases post with
    | nil =>
      rw [show siblingIds p (front.length + 1) =
        (some (lastKid p.leftmost front), none) from Prod.ext hleft hright]
      exact Returns.pure_bind (a := none) (hrest rfl rfl)
    | cons e post =>
      obtain ⟨s, right⟩ := e
      obtain ⟨-, ⟨_, _, _, _, hweak'⟩, hdivide', -⟩ := hjoins.mend hget hseps (.inl rfl) hf hout
      rw [show siblingIds p (front.length + 1) = (some (lastKid p.leftmost front), some right)
        from Prod.ext hleft hright]
      refine spare_bind hweak' ?_
      by_cases hmany : minKeys < entryCount P right
      · rw [if_pos hmany]
        rw [hpos] at hdivide'
        exact hdivide' (by omega)
      · rw [if_neg hmany]
        exact hrest rfl rfl

end Deficient

end RTsql.Storage.BTree

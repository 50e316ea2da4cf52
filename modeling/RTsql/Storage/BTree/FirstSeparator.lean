import RTsql.Storage.BTree.Refinement

/-!
# Equal keys, by the first separator

`BTree::{search_all, delete_by_key}`. Where a separator is equal to the key, they go to the child
before it and to the child behind it, and look at no other separator of the node.
`IndexManager::search_all` goes to every child that may have the key.

If several separators are equal to the key, the children between them hold that key alone, and all
but the first are passed over (`first_separator_misses_rows`). Where each node has at most one such
separator, the two ways visit the same children. -/

namespace RTsql.Storage.BTree

open RTsql.Library Proc List

variable {κ v : Type} [LinearOrder κ]

/-- `find_all_matches`. -/
def LeafNode.findAllMatches (l : LeafNode κ v) (key : κ) : List ℕ :=
  (range l.entries.length).filter fun i => l.entries[i]?.any fun e => e.1 = key

/-- The children on both sides of the first separator equal to the key; without one, the child that
a search goes to. -/
def InternalNode.childrenAtSeparator (n : InternalNode κ) (key : κ) : List ℕ :=
  match n.seps.findIdx? fun e => e.1 = key with
  | some idx => [n.childAt idx, n.childAt (idx + 1)]
  | none => [n.findChildPageIdBinary key]

namespace Sync

/-- `BTree::search_all_from_page`, over at most `n` pages on each way. -/
def searchAllFromPage (key : κ) : ℕ → ℕ → TreeAction κ v (List v)
  | 0, _ => Proc.fail .diverges
  | n + 1, pid => do
    match ← loadPage pid with
    | .raw => Proc.fail .invalidPageType
    | .leaf l => pure ((l.findAllMatches key).filterMap fun i => l.entries[i]?.map Prod.snd)
    | .internal node =>
      (node.childrenAtSeparator key).foldlM (fun results child => do
        let childResults ← searchAllFromPage key n child
        pure (results ++ childResults)) []

/-- `BTree::delete_all_from_page`, over at most `n` pages on each way. The slots go from the last to
the first. -/
def deleteAllFromPage (key : κ) : ℕ → ℕ → TreeAction κ v ℕ
  | 0, _ => Proc.fail .diverges
  | n + 1, pid => do
    match ← loadPage pid with
    | .raw => Proc.fail .invalidPageType
    | .leaf l =>
      if (l.findAllMatches key).length = 0 then pure 0
      else do
        let page ← Proc.lift ((l.findAllMatches key).reverse.foldlM removeSlot l.page)
        writeLeaf pid { l with page }
        pure (l.findAllMatches key).length
    | .internal node =>
      (node.childrenAtSeparator key).foldlM (fun count child => do
        let childCount ← deleteAllFromPage key n child
        pure (count + childCount)) 0

end Sync

/-- `BTree::search_all`. -/
def Tree.searchAllSync (t : Tree κ v) (key : κ) : Except TreeError (List v) :=
  (Sync.searchAllFromPage key t.pages.mark t.root t.pages).1

/-- `BTree::delete_by_key`, which returns how many entries it has deleted. -/
def Tree.deleteByKey (t : Tree κ v) (key : κ) : Except TreeError ℕ × Tree κ v :=
  let result := Sync.deleteAllFromPage key t.pages.mark t.root t.pages
  (result.1, ⟨result.2, t.root⟩)

/-! ### Leaves -/

section Matches

variable {α : Type} {size : ℕ}

/-- Slots removed from the last to the first. -/
theorem foldlM_removeSlot (q : α → Bool) (l rest : List α) (p : SlottedPage α size)
    (hslots : p.slots = l ++ rest) :
    ∃ p', ((range l.length).filter fun i => l[i]?.any q).reverse.foldlM removeSlot p = .ok p' ∧
      p'.slots = (l.filter fun a => !q a) ++ rest := by
  induction l using reverseRecOn generalizing p rest with
  | nil => exact ⟨p, rfl, hslots⟩
  | append_singleton l a ih =>
    have hfront : (range l.length).filter (fun i => (l ++ [a])[i]?.any q) =
        (range l.length).filter fun i => l[i]?.any q := by
      refine filter_congr fun i hi => ?_
      rw [getElem?_append_left (mem_range.mp hi)]
    rw [length_append, length_singleton, range_succ, filter_append, hfront, filter_singleton,
      getElem?_concat_length, filter_append, filter_singleton, reverse_append]
    change ∃ p', ((bif q a then [l.length] else []).reverse ++ _).foldlM removeSlot p = _ ∧ _
    cases hq : q a with
    | false =>
      obtain ⟨p', hp', hslots'⟩ := ih (a :: rest) p (by rw [hslots, append_assoc]; rfl)
      exact ⟨p', hp', by rw [hslots']; simp⟩
    | true =>
      obtain ⟨p₁, hp₁, hslots₁⟩ := removeSlot_of_lt (p := p) (i := l.length) (by rw [hslots]; simp)
      rw [hslots, append_assoc, eraseIdx_append_of_length_le (Nat.le_refl _), Nat.sub_self] at hslots₁
      obtain ⟨p', hp', hslots'⟩ := ih rest p₁ hslots₁
      refine ⟨p', ?_, by rw [hslots']; simp⟩
      show (removeSlot p l.length).bind _ = _
      rwa [hp₁]

end Matches

theorem LeafNode.filterMap_findAllMatches (l : LeafNode κ v) (key : κ) :
    (l.findAllMatches key).filterMap (fun i => l.entries[i]?.map Prod.snd) =
      (l.entries.filter fun e => e.1 = key).map Prod.snd := by
  have hgo : ∀ entries : List (κ × v), ((range entries.length).filter fun i =>
      entries[i]?.any fun e => e.1 = key).filterMap (fun i => entries[i]?.map Prod.snd) =
        (entries.filter fun e => e.1 = key).map Prod.snd := by
    intro entries
    induction entries with
    | nil => rfl
    | cons e entries ih =>
      rw [length_cons, range_succ_eq_map, filter_cons, filter_map]
      by_cases he : e.1 = key
      · simpa [he, Function.comp_def, filterMap_map] using ih
      · simpa [he, Function.comp_def, filterMap_map] using ih
  exact hgo l.entries

theorem LeafNode.length_findAllMatches (l : LeafNode κ v) (key : κ) :
    (l.findAllMatches key).length = (l.entries.filter fun e => e.1 = key).length := by
  rw [← length_map Prod.snd, ← l.filterMap_findAllMatches key, length_filterMap_eq_countP, eq_comm,
    countP_eq_length]
  intro i hi
  obtain ⟨hlt, -⟩ := mem_filter.mp hi
  simp [mem_range.mp hlt]

/-! ### Internal nodes -/

/-- At most one separator is equal to the key. -/
def InternalNode.SeparatesOnce (n : InternalNode κ) (key : κ) : Prop :=
    (n.seps.filter fun e => e.1 = key).length ≤ 1

instance (n : InternalNode κ) (key : κ) : Decidable (n.SeparatesOnce key) :=
    inferInstanceAs (Decidable (_ ≤ _))

/-- **Then both ways visit the same children.** -/
theorem InternalNode.childrenAtSeparator_eq {strict : Bool} {n : InternalNode κ} {key : κ}
    (hasc : Ascend strict n.seps)
    (honce : n.SeparatesOnce key) : n.childrenAtSeparator key = n.equalityCandidateChildren key := by
  obtain ⟨pre, eq, post, hseps, hpre, heq, hpost, hchildren⟩ := equalityCandidateChildren_spec hasc key
  have hnone : ∀ l : List (κ × ℕ), (∀ e ∈ l, e.1 ≠ key) → l.filter (fun e => e.1 = key) = [] :=
    fun l hl => filter_eq_nil_iff.mpr fun e he => by simpa using hl e he
  have hlen : eq.length ≤ 1 := by
    rw [SeparatesOnce, hseps, filter_append, filter_append, hnone pre fun e he => (hpre e he).ne,
      hnone post fun e he => (hpost e he).ne', filter_eq_self.mpr fun e he => by
      simpa using heq e he] at honce
    simpa using honce
  rw [hchildren, childrenAtSeparator]
  match eq, heq, hlen, hseps with
  | [], _, _, hseps =>
    -- no separator is equal to the key, so a search goes to the same child
    have hidx : (n.seps.findIdx? fun e => e.1 = key) = none := by
      rw [findIdx?_eq_none_iff, hseps, append_nil]
      exact forall_mem_append.mpr ⟨fun e he => decide_eq_false (hpre e he).ne,
        fun e he => decide_eq_false (hpost e he).ne'⟩
    obtain ⟨pre', post', hseps', hpos, hpre', hpost'⟩ := n.findChildPosition_spec hasc key
    rw [append_nil] at hseps
    have hcut : pre' = pre := by
      rcases append_eq_append_iff.mp (hseps.symm.trans hseps') with ⟨x, rfl, hx⟩ | ⟨x, rfl, hx⟩
      · have hnil : x = [] := eq_nil_iff_forall_not_mem.mpr fun e he =>
          absurd (hpre' e (mem_append_right _ he)) (not_le.mpr (hpost e (hx ▸ mem_append_left _ he)))
        rw [hnil, append_nil]
      · have hnil : x = [] := eq_nil_iff_forall_not_mem.mpr fun e he =>
          absurd (hpost' e (hx ▸ mem_append_left _ he)).le (not_le.mpr (hpre e (mem_append_right _ he)))
        rw [hnil, append_nil]
    rw [hidx, findChildPageIdBinary, hpos, hcut]
    rfl
  | [e], heq, _, hseps =>
    have hidx : (n.seps.findIdx? fun e => e.1 = key) = some pre.length := by
      rw [hseps, append_assoc, findIdx?_append,
        findIdx?_eq_none_iff.mpr fun e he => decide_eq_false (hpre e he).ne]
      simp [findIdx?_cons, heq e (mem_singleton_self e)]
    rw [hidx]
    show [n.childAt pre.length, n.childAt (pre.length + 1)] = _
    rw [childAt_eq (by rw [hseps]; simp), childAt, hseps]
    simp

/-- So it is for every internal node. -/
def Pages.SeparateOnce (P : Pages κ v) (key : κ) : Prop :=
  ∀ pid n, P.get pid = some (.internal n) → n.SeparatesOnce key

theorem Pages.separateOnce_iff {P : Pages κ v} {key : κ} : P.SeparateOnce key ↔
    ∀ pid ∈ range P.mark, ∀ n, P.get pid = some (.internal n) → n.SeparatesOnce key := by
  refine ⟨fun h pid _ => h pid, fun h pid n hget => h pid ?_ n hget⟩
  exact mem_range.mpr (lt_mark (inUse_of_get hget))

instance (P : Pages κ v) (key : κ) : Decidable (P.SeparateOnce key) :=
  haveI : ∀ pid, Decidable (∀ n, P.get pid = some (.internal n) → n.SeparatesOnce key) := fun pid =>
    match P.get pid with
    | some (.internal n) => decidable_of_iff (n.SeparatesOnce key) (by simp)
    | some .raw => isTrue nofun
    | some (.leaf _) => isTrue nofun
    | none => isTrue nofun
  decidable_of_iff _ Pages.separateOnce_iff.symm

/-! ### Search -/

section Trees

variable {strict : Bool} {P : Pages κ v} {h pid fuel : ℕ} {lo key : κ} {hi : WithTop κ}
  {m : Multiset (κ × v)} {o : Finset ℕ}

/-- **Search** by the first separator. -/
theorem Sync.searchAllFromPage_spec (honce : P.SeparateOnce key) (t : Subtree strict P h pid lo hi m o)
    (hfuel : h < fuel) :
    (Sync.searchAllFromPage key fuel pid).Returns P fun r P' => P' = P ∧
    (r : Multiset v) = valuesOf key m := by
  induction h, fuel, hfuel using fuel_induction generalizing pid lo hi m o with
  | zero fuel =>
    obtain ⟨l, hget, -, rfl, -⟩ := t
    refine loadPage_bind hget (Returns.pure ⟨rfl, ?_⟩)
    rw [l.filterMap_findAllMatches, valuesOf, Multiset.filter_coe, Multiset.map_coe]
  | succ h fuel hfuel ih =>
    obtain ⟨n, -, o', hget, hf, -, -⟩ := t
    have hasc := (hf.fences fun _ _ _ _ _ t => t.before).1
    obtain ⟨pre, eq, post, m₁, m₂, o₁, o₂, hc, rfl, -⟩ := exists_candidates hf key
    refine loadPage_bind hget ?_
    dsimp only
    rw [InternalNode.childrenAtSeparator_eq hasc (honce pid n hget), hc.children]
    refine (foldlM_row (fun _ _ _ _ _ t => ih t) hc.row []).mono ?_
    rintro r P' ⟨rfl, hr⟩
    rw [hr, valuesOf_add, valuesOf_of_ne hc.others]
    simp

/-! ### Deletion -/

/-- The entries of the other keys. -/
def withoutKey (key : κ) (m : Multiset (κ × v)) : Multiset (κ × v) := m.filter fun e => e.1 ≠ key

@[simp] theorem withoutKey_add (key : κ) (m₁ m₂ : Multiset (κ × v)) :
    withoutKey key (m₁ + m₂) = withoutKey key m₁ + withoutKey key m₂ := Multiset.filter_add ..

theorem withoutKey_of_ne (hm : ∀ e ∈ m, e.1 ≠ key) : withoutKey key m = m :=
    Multiset.filter_eq_self.mpr hm

/-- What a deletion leaves. -/
structure Deleted (P P' : Pages κ v) (key : κ) (m : Multiset (κ × v)) (o : Finset ℕ) (count : ℕ) :
    Prop where
  count : count = (valuesOf key m).card
  rewrites : Rewrites P P' o o
  once : P'.SeparateOnce key

/-- Neighbours, one after the other. -/
theorem foldlM_deleteRow {act : ℕ → TreeAction κ v ℕ}
    (hact : ∀ P c lo hi m o, P.SeparateOnce key → Subtree strict P h c lo hi m o →
      (act c).Returns P fun count P' => Subtree strict P' h c lo hi (withoutKey key m) o ∧
      Deleted P P' key m o count)
    (honce : P.SeparateOnce key) {c : ℕ} {seg : List (κ × ℕ)}
    (hf : Fenced (Subtree strict P h) c seg lo hi m o) (start : ℕ) :
    ((c :: seg.map Prod.snd).foldlM (fun count child => do
        let childCount ← act child
        pure (count + childCount)) start).Returns P fun count P' =>
      Fenced (Subtree strict P' h) c seg lo hi (withoutKey key m) o ∧ ∃ n, count = start + n ∧
      Deleted P P' key m o n := by
  have hstep : ∀ P c lo hi m o start, P.SeparateOnce key → Subtree strict P h c lo hi m o →
      (do let childCount ← act c; pure (start + childCount)).Returns P fun count P' =>
        Subtree strict P' h c lo hi (withoutKey key m) o ∧ ∃ n, count = start + n ∧
          Deleted P P' key m o n := by
    intro P c lo hi m o start honce t
    refine (hact P c lo hi m o honce t).bind ?_
    rintro n P' ⟨t', hdel⟩
    exact Returns.pure ⟨t', n, rfl, hdel⟩
  induction seg generalizing P c lo m o start with
  | nil =>
    refine (hstep P c lo hi m o start honce hf).bind ?_
    rintro count P' hres
    exact Returns.pure hres
  | cons e seg ih =>
    obtain ⟨m₁, m₂, o₁, o₂, h₁, h₂, hd, rfl, rfl⟩ := hf
    refine (hstep P c lo e.1 m₁ o₁ start honce h₁).bind ?_
    rintro _ P₁ ⟨t', n, rfl, hdel⟩
    -- the pages of the other neighbours are as before
    have huse := inUse_of_fenced h₂ fun _ _ _ _ _ t => t.inUse
    refine (ih hdel.once (fenced_congr h₂ (hdel.rewrites.same hd huse)) (start + n)).mono ?_
    rintro _ P₂ ⟨hrow, n', rfl, hdel'⟩
    refine ⟨⟨_, _, o₁, o₂, t'.congr (hdel'.rewrites.same hd.symm t'.inUse), hrow, hd,
      withoutKey_add .., rfl⟩, n + n', Nat.add_assoc .., ?_, ?_, hdel'.once⟩
    · rw [hdel.count, hdel'.count, valuesOf_add, Multiset.card_add]
    · refine (hdel.rewrites.frame o₂).trans ?_
      rw [Finset.union_comm]
      exact hdel'.rewrites.frame o₁

/-- **Deletion** of all entries of a key. -/
theorem Sync.deleteAllFromPage_spec (honce : P.SeparateOnce key) (t : Subtree strict P h pid lo hi m o)
    (hfuel : h < fuel) :
    (Sync.deleteAllFromPage key fuel pid).Returns P fun count P' =>
      Subtree strict P' h pid lo hi (withoutKey key m) o ∧ Deleted P P' key m o count := by
  induction h, fuel, hfuel using fuel_induction generalizing P pid lo hi m o with
  | zero fuel =>
    obtain ⟨l, hget, hl, rfl, rfl⟩ := t
    have hcount : (l.findAllMatches key).length =
      (valuesOf key (l.entries : Multiset (κ × v))).card := by
      rw [l.length_findAllMatches, valuesOf, Multiset.card_map, Multiset.filter_coe, Multiset.coe_card]
    refine loadPage_bind hget ?_
    dsimp only
    split
    case isTrue hzero =>
      rw [hzero, eq_comm, Multiset.card_eq_zero, valuesOf, Multiset.map_eq_zero] at hcount
      refine Returns.pure ⟨?_, by rw [valuesOf, hcount]; rfl, Rewrites.refl .., honce⟩
      rw [withoutKey_of_ne fun e he hkey => ?_]
      · exact ⟨l, hget, hl, rfl, rfl⟩
      · exact (Multiset.filter_eq_nil.mp hcount) e he hkey
    case isFalse =>
      obtain ⟨page, hpage, hslots⟩ :=
        foldlM_removeSlot (fun e : κ × v => decide (e.1 = key)) l.entries [] l.page
        (append_nil _).symm
      rw [append_nil] at hslots
      refine Returns.lift_bind hpage
        (writeLeaf_bind (Returns.pure ⟨⟨{ l with page }, by simp, ?_, ?_, rfl⟩, hcount, ?_, ?_⟩))
      · refine ⟨hl.before, ?_, fun e he => hl.bounds e ?_⟩
        · show Ascend strict page.slots
          rw [hslots]
          exact hl.ascend.sublist filter_sublist
        · change e ∈ page.slots at he
          rw [hslots] at he
          exact mem_of_mem_filter he
      · show _ = (page.slots : Multiset (κ × v))
        rw [hslots, withoutKey]
        simp
      · exact Rewrites.write (Pages.inUse_of_get hget) (Finset.mem_singleton_self pid)
      · intro p n hp
        rw [Pages.get_write] at hp
        split at hp
        case isTrue => cases hp
        case isFalse => exact honce p n hp
  | succ h fuel hfuel ih =>
    obtain ⟨n, hn, o', hget, hf, hout, rfl⟩ := t
    have hasc := (hf.fences fun _ _ _ _ _ t => t.before).1
    obtain ⟨pre, eq, post, m₁, m₂, o₁, o₂, hc, rfl, rfl⟩ := exists_candidates hf key
    refine loadPage_bind hget ?_
    dsimp only
    rw [InternalNode.childrenAtSeparator_eq hasc (honce pid n hget), hc.children]
    refine (foldlM_deleteRow (fun _ _ _ _ _ _ honce t => ih honce t) honce hc.row 0).mono ?_
    rintro _ P' ⟨hrow, count, rfl, hdel⟩
    rw [Finset.mem_union, not_or] at hout
    obtain ⟨hget', -⟩ := hdel.rewrites.same_of_notMem (Pages.inUse_of_get hget) hout.1
    rw [hget] at hget'
    have hall := hc.replace (Subtree strict P' h)
      (fun _ _ _ _ _ ho t => t.congr fun p hp =>
        hdel.rewrites.same hc.disjoint hc.inUse p (ho hp)) eq _ o₁ hrow
      hc.disjoint
    rw [← hc.seps] at hall
    refine ⟨⟨n, hn, o₁ ∪ o₂, hget', ?_, ?_, rfl⟩, ?_, (hdel.rewrites.frame o₂).frame_insert pid,
      hdel.once⟩
    · rwa [withoutKey_add, withoutKey_of_ne hc.others]
    · rwa [Finset.mem_union, not_or]
    · rw [Nat.zero_add, hdel.count, valuesOf_add, valuesOf_of_ne hc.others, add_zero]

end Trees

/-! ### Trees -/

section Stores

variable [OrderBot κ] {strict : Bool} {t : Tree κ v} {m : Multiset (κ × v)} {o : Finset ℕ} {key : κ}

variable (ht : t.Stores strict m o) (honce : t.pages.SeparateOnce key)

include ht honce

theorem Tree.Stores.searchAllSync : ∃ r, t.searchAllSync key = .ok r ∧
    (r : Multiset v) = valuesOf key m := by
  obtain ⟨h, hs⟩ := ht
  obtain ⟨r, P, hrun, -, hr⟩ := Sync.searchAllFromPage_spec honce hs hs.height_lt_mark
  exact ⟨r, by rw [Tree.searchAllSync, hrun], hr⟩

theorem Tree.Stores.deleteByKey :
    ∃ t', t.deleteByKey key = (.ok (valuesOf key m).card, t') ∧
    t'.Stores strict (withoutKey key m) o := by
  obtain ⟨h, hs⟩ := ht
  obtain ⟨count, P, hrun, hs', hdel⟩ := Sync.deleteAllFromPage_spec honce hs hs.height_lt_mark
  refine ⟨⟨P, t.root⟩, ?_, h, hs'⟩
  rw [Tree.deleteByKey, hrun, hdel.count]

end Stores

namespace SecondaryIndex

/-- **Both ways agree** where separators of the key are single: after every run of insertions and
exact deletions, in a tree none of whose nodes has two separators equal to the key,
`BTree::search_all` returns the rows that `IndexManager::search_all` returns, and `delete_by_key`
takes the entries of the key, and no other. -/
theorem first_separator_agrees (alloc : Allocator PaddedKey RowId) (ops : List (Op PaddedKey RowId))
    (key : PaddedKey) (honce : (ops.foldl (step alloc) (init alloc)).tree.pages.SeparateOnce key) :
    let s := ops.foldl (step alloc) (init alloc)
    (∃ rows rows', s.tree.searchAllSync key = .ok rows ∧ s.tree.searchAll key = .ok rows' ∧
      rows.Perm rows') ∧ (∃ o, s.tree.Stores false s.entries o) ∧
      ∃ t' o, s.tree.deleteByKey key = (.ok (valuesOf key s.entries).card, t') ∧
        t'.Stores false (withoutKey key s.entries) o := by
  intro s
  obtain ⟨o, hs⟩ := (agrees_foldl ops (agrees_init alloc) : Agrees s).stores
  obtain ⟨rows, hrows, heq⟩ := hs.searchAllSync honce
  obtain ⟨rows', hrows', heq'⟩ := hs.searchAll key
  obtain ⟨t', hdel, hs'⟩ := hs.deleteByKey honce
  exact ⟨⟨rows, rows', hrows, hrows', Multiset.coe_eq_coe.mp (heq.trans heq'.symm)⟩, ⟨o, hs⟩, t', o,
    hdel, hs'⟩

/-- Rows of one key on both sides of one separator. -/
theorem first_separator_agrees_single :
    let ops : List (Op PaddedKey RowId) := (range 93).map fun i => .insert (.byte 1) ⟨0, i⟩
    let s := ops.foldl (step (Allocator.next PaddedKey RowId)) (init (Allocator.next PaddedKey RowId))
    s.tree.pages.SeparateOnce (.byte 1) ∧ ∃ rows rows', s.tree.searchAllSync (.byte 1) = .ok rows ∧
      s.tree.searchAll (.byte 1) = .ok rows' ∧ rows.Perm rows' := by
  intro ops s
  have honce : s.tree.pages.SeparateOnce (.byte 1) := by decide +kernel
  exact ⟨honce, (first_separator_agrees _ ops (.byte 1) honce).1⟩

/-- **Rows are missed**: 139 rows of one key fill three leaves, with two separators equal to the key
between them. `BTree::search_all` returns 92 of the rows, `IndexManager::search_all` all; and after
`delete_by_key` there are 47 left. -/
theorem first_separator_misses_rows :
    let ops : List (Op PaddedKey RowId) := (range 139).map fun i => .insert (.byte 1) ⟨0, i⟩
    let s := ops.foldl (step (Allocator.next PaddedKey RowId)) (init (Allocator.next PaddedKey RowId))
    (s.tree.searchAllSync (.byte 1)).toOption.map length = some 92 ∧
      (s.tree.searchAll (.byte 1)).toOption.map length = some 139 ∧
      (s.tree.deleteByKey (.byte 1)).1.toOption = some 92 ∧
      ((s.tree.deleteByKey (.byte 1)).2.searchAll (.byte 1)).toOption.map length = some 47 := by
  decide +kernel

end SecondaryIndex

end RTsql.Storage.BTree

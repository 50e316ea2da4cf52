import RTsql.Storage.BTree.Rebalance

/-!
# Deletion keeps the shape

A deletion descends to the leaf of the key. On the way back each level hands to the
one above either a tree, or, when it has lost an entry to a merge, a page that may have too few; the
level above repairs it together with its siblings (`Mended`). Only the root may
end up without separators; then its only child becomes the root.
-/

namespace RTsql.Storage.BTree

open RTsql.Library Proc

variable {κ v α : Type} [LinearOrder κ]

variable {P P' P'' : Pages κ v} {h pp pid fuel : ℕ} {p : InternalNode κ} {pre post : List (κ × ℕ)}
  {lo key k : κ} {hi : WithTop κ} {m m' m₁ m₂ : Multiset (κ × v)} {o o' o₁ o₂ : Finset ℕ}

/-- A merge below reports a key that the node does not have: nothing more leaves it. -/
theorem removeSeparatorKey_bind {R : α → Pages κ v → Prop} {f : Unit → TreeAction κ v α}
    (hget : P.get pid = some (.internal p)) (hk : k ∉ p.seps.map Prod.fst)
    (hrest : (f ()).Returns P R) : (removeSeparatorKey pid k >>= f).Returns P R := by
  have hnone : p.seps.findIdx? (fun e => decide (e.1 = k)) = none := by
    rw [List.findIdx?_eq_none_iff]
    intro e he
    exact decide_eq_false fun heq => hk (heq ▸ List.mem_map_of_mem he)
  have hspec : (removeSeparatorKey pid k).Returns P fun _ P' => P' = P := by
    refine loadInternal_bind hget ?_
    rw [hnone]
    exact Returns.pure rfl
  refine hspec.bind ?_
  rintro ⟨⟩ _ rfl
  exact hrest

/-! ### What a level hands to the one above -/

theorem Mended.of_rewrites {r : Option (MergeInfo κ)}
    (hm : Mended P' P'' h pp lo hi m o' r) (hrw : Rewrites P P' (insert pp o) (insert pp o'))
    (hthread : Threads P P' (h + 1) pp ([] : List (κ × ℕ))) : Mended P P'' h pp lo hi m o r := by
  obtain ⟨p', o'', hget, hf, hout, hrw', hthread', hr⟩ := hm
  exact ⟨p', o'', hget, hf, hout, hrw.trans hrw', fun f e hl => hthread' f e (hthread f e hl), hr⟩

variable (hfocus : Focus true P h p lo hi key pre post m₁ m₂ o₁ o₂)
  (hget : P.get pp = some (.internal p))

include hfocus hget

/-- The thread runs through the node as before, if it runs so through the child. -/
theorem Focus.threads (hget' : P'.get pp = some (.internal p)) (hrw : Rewrites P P' o₁ o')
    (hchild : Threads P P' h (lastKid p.leftmost pre) ([] : List (κ × ℕ))) :
    Threads P P' (h + 1) pp ([] : List (κ × ℕ)) := by
  intro f e hl
  have ht := hfocus.threaded hrw hchild ((links_internal hget).mp hl)
  rw [List.append_nil, ← hfocus.seps] at ht
  exact (links_internal hget').mpr ht

/-- A child that is a tree again. -/
theorem Focus.mended (hne : p.seps ≠ []) (hout : pp ∉ o₁ ∪ o₂) (hrw : Rewrites P P' o₁ o')
    (hchild : Threads P P' h (lastKid p.leftmost pre) ([] : List (κ × ℕ)))
    (t : Subtree true P' h (lastKid p.leftmost pre) (lastLow lo pre) (firstHigh hi post) m' o') :
    Mended P P' h pp lo hi (m' + m₂) (o₁ ∪ o₂) none := by
  rw [Finset.mem_union, not_or] at hout
  obtain ⟨hget', hout'⟩ := hrw.same_of_notMem (Pages.inUse_of_get hget) hout.1
  rw [hget] at hget'
  refine ⟨p, o' ∪ o₂, hget', ?_, ?_, (hrw.frame o₂).frame_insert pp,
    hfocus.threads hget hget' hrw hchild, hne⟩
  · have hrow := hfocus.replaceTree hrw (show Fenced _ _ [] _ _ _ _ from t)
    rwa [List.append_nil, ← hfocus.seps] at hrow
  · rw [Finset.mem_union, not_or]
    exact ⟨hout', hout.2⟩

omit hfocus hget

variable [OrderBot κ]

theorem joins_leaves : Joins redistributeLeaves mergeLeaves P 0 pp p where
  redistribute ha hcount := ha.redistributeLeaves_spec hcount
  merge ha hcount := ha.mergeLeaves_spec hcount

theorem joins_internals : Joins redistributeInternals mergeInternals P (h + 1) pp p where
  redistribute ha hcount := ha.redistributeInternals_spec hcount
  merge ha hcount := ha.mergeInternals_spec hcount

variable (hne : p.seps ≠ []) (hout : pp ∉ o₁ ∪ o₂)

include hfocus hget hne hout

/-- A child with too few entries is repaired. -/
theorem Focus.repaired {redistribute : ℕ → ℕ → ℕ → ℕ → TreeAction κ v (Option (MergeInfo κ))}
    {merge : ℕ → ℕ → ℕ → ℕ → TreeAction κ v (MergeInfo κ)}
    {alone : InternalNode κ → TreeAction κ v (Option (MergeInfo κ))} (hrw : Rewrites P P' o₁ o')
    (hchild : Threads P P' h (lastKid p.leftmost pre) ([] : List (κ × ℕ)))
    (hjoins : Joins redistribute merge P' h pp p)
    (w : Weak P' h (lastKid p.leftmost pre) (lastLow lo pre) (firstHigh hi post) m' o') :
    (if entryCount P' (lastKid p.leftmost pre) < minKeys then
        handleUnderflow redistribute merge alone (lastKid p.leftmost pre) pre.length pp
      else pure none).Returns P' fun r P'' => Mended P P'' h pp lo hi (m' + m₂) (o₁ ∪ o₂) r := by
  by_cases hfew : entryCount P' (lastKid p.leftmost pre) < minKeys
  · rw [if_pos hfew]
    have hout₁ := hout
    rw [Finset.mem_union, not_or] at hout₁
    obtain ⟨hget', hout'⟩ := hrw.same_of_notMem (Pages.inUse_of_get hget) hout₁.1
    rw [hget] at hget'
    have hrow : Fenced (Deficient P' h (lastKid p.leftmost pre)) p.leftmost p.seps lo hi (m' + m₂)
      (o' ∪ o₂) := by
      have := hfocus.replace (Deficient P' h (lastKid p.leftmost pre)) (fun c lo hi m o ho t => ?_)
        [] m' o' ?_
        (hrw.disjoint hfocus.disjoint hfocus.inUse)
      · rwa [List.append_nil, ← hfocus.seps] at this
      · -- a sibling
        rw [Deficient, if_neg]
        · exact t.congr fun q hq => hrw.same hfocus.disjoint hfocus.inUse q (ho hq)
        · rintro rfl
          exact Finset.disjoint_left.mp hfocus.disjoint hfocus.child.mem (ho t.mem)
      · show Deficient P' h (lastKid p.leftmost pre) _ _ _ _ _
        rwa [Deficient, if_pos rfl]
    refine (handleUnderflow_spec hjoins hget' hfocus.seps hne hrow ?_ hfew).mono ?_
    · rw [Finset.mem_union, not_or]
      exact ⟨hout', hout₁.2⟩
    · intro r P'' hm
      exact hm.of_rewrites ((hrw.frame o₂).frame_insert pp) (hfocus.threads hget hget' hrw hchild)
  · rw [if_neg hfew]
    refine Returns.pure (hfocus.mended hget hne hout hrw hchild (w.subtree ?_))
    rw [minKeys] at hfew
    omega

/-! ### Descent -/

/-- **Deletion** below a node `p` on page `pp`. -/
theorem deleteFromPage_child (hkey : key ∈ m₁.map Prod.fst) (hfuel : h < fuel) :
    (deleteFromPage key fuel (lastKid p.leftmost pre) (some (pp, pre.length))).Returns P fun r P' =>
      ∃ value m', m₁ = (key, value) ::ₘ m' ∧ Mended P P' h pp lo hi (m' + m₂) (o₁ ∪ o₂) r := by
  induction h, fuel, hfuel using fuel_induction generalizing pp p pre post lo hi m₁ m₂ o₁ o₂ with
  | zero fuel =>
    obtain ⟨l, hleaf, hl, rfl, rfl⟩ := hfocus.child
    obtain ⟨value, l', hdel, hasc, hperm⟩ := LeafNode.delete_spec hl.ascend (by simpa using hkey)
    refine loadPage_bind hleaf (loadLeaf_bind hleaf (Returns.lift_bind hdel (writeLeaf_bind ?_)))
    have hrw : Rewrites P (P.push (.write (lastKid p.leftmost pre) (.leaf l'))) {lastKid p.leftmost pre}
        {lastKid p.leftmost pre} :=
          Rewrites.write (Pages.inUse_of_get hleaf) (Finset.mem_singleton_self _)
    have hcount : entryCount (P.push (.write (lastKid p.leftmost pre) (.leaf l')))
      (lastKid p.leftmost pre) =
        l'.entries.length := by simp [entryCount]
    rw [← hcount]
    have hweak : Weak (P.push (.write (lastKid p.leftmost pre) (.leaf l'))) 0 (lastKid p.leftmost pre)
        (lastLow lo pre) (firstHigh hi post) l'.entries {lastKid p.leftmost pre} :=
      ⟨l', by simp, hl.of_delete hasc hperm, rfl, rfl⟩
    have hchild : Threads P (P.push (.write (lastKid p.leftmost pre) (.leaf l'))) 0
      (lastKid p.leftmost pre) [] :=
      threads_leaf (m := l') hleaf (by simp) (LeafNode.next_delete hdel)
    refine (hfocus.repaired hget hne hout hrw hchild joins_leaves hweak).mono ?_
    intro r P' hm
    exact ⟨value, l'.entries, Multiset.coe_eq_coe.mpr hperm, hm⟩
  | succ h fuel hfuel ih =>
    obtain ⟨n, hn, o', hnode, hf, hnout, rfl⟩ := hfocus.child
    obtain ⟨pre', post', m₃, m₄, o₃, o₄, hfocus', rfl, rfl⟩ := exists_focus hf hfocus.low hfocus.high
    refine loadPage_bind hnode ?_
    show (deleteFromPage key fuel (n.findChildPosition key).1
      (some (_, (n.findChildPosition key).2)) >>= _).Returns P _
    rw [hfocus'.position]
    refine (ih hfocus' hnode hn hnout (hfocus'.mem_child hkey)).bind ?_
    rintro r P' ⟨value, m', rfl, n', o'', hnode', hf', hnout', hrw, hthread, hr⟩
    have hweak : Weak P' (h + 1) (lastKid p.leftmost pre) (lastLow lo pre) (firstHigh hi post) (m' + m₄)
        (insert (lastKid p.leftmost pre) o'') := ⟨n', o'', hnode', hf', hnout', rfl⟩
    have hcons : (key, value) ::ₘ m' + m₄ = (key, value) ::ₘ (m' + m₄) := Multiset.cons_add ..
    cases r with
    | none =>
      exact Returns.pure ⟨value, m' + m₄, hcons, hfocus.mended hget hne hout hrw hthread
        ⟨n', hr, o'', hnode', hf', hnout', rfl⟩⟩
    | some info =>
      have hroot : info.newRoot.isSome = false := by rw [hr.1]; rfl
      show (if info.newRoot.isSome then _ else handleChildMerge _ _ _).Returns P' _
      rw [hroot]
      refine removeSeparatorKey_bind hnode' hr.2 (loadInternal_bind hnode' ?_)
      have hcount : entryCount P' (lastKid p.leftmost pre) = n'.seps.length := by rw [entryCount, hnode']
      rw [← hcount]
      refine (hfocus.repaired hget hne hout hrw hthread joins_internals hweak).mono ?_
      intro r P'' hm
      exact ⟨value, m' + m₄, hcons, hm⟩

omit hfocus hget hne hout

/-- The root that a deletion leaves. -/
def rootAfter (pid : ℕ) : Option (MergeInfo κ) → ℕ
  | some ⟨_, some root⟩ => root
  | _ => pid

variable (t : Subtree true P h pid lo hi m o) (hlo : lo ≤ key) (hhi : (key : WithTop κ) < hi)

include t hlo hhi

/-- **Deletion** of a key that the tree has. -/
theorem deleteFromPage_spec (hkey : key ∈ m.map Prod.fst) (hfuel : h < fuel) :
    (deleteFromPage key fuel pid none).Returns P fun r P' => ∃ value m' h' o', m = (key, value) ::ₘ m' ∧
      Subtree true P' h' (rootAfter pid r) lo hi m' o' ∧ Rewrites P P' o o' ∧
        ∀ f e, Links P h pid f e → Links P' h' (rootAfter pid r) f e := by
  cases fuel with
  | zero => omega
  | succ fuel =>
    cases h with
    | zero =>
      obtain ⟨l, hleaf, hl, rfl, rfl⟩ := t
      obtain ⟨value, l', hdel, hasc, hperm⟩ := LeafNode.delete_spec hl.ascend (by simpa using hkey)
      refine loadPage_bind hleaf
        (loadLeaf_bind hleaf (Returns.lift_bind hdel (writeLeaf_bind (Returns.pure ?_))))
      refine ⟨value, l'.entries, 0, {pid}, Multiset.coe_eq_coe.mpr hperm, ?_, ?_, ?_⟩
      · exact ⟨l', by simp [rootAfter], hl.of_delete hasc hperm, rfl, rfl⟩
      · exact Rewrites.write (Pages.inUse_of_get hleaf) (Finset.mem_singleton_self _)
      · exact threads_leaf (κ := κ) hleaf (by simp) (LeafNode.next_delete hdel)
    | succ h =>
      obtain ⟨n, hn, o', hnode, hf, hnout, rfl⟩ := t
      obtain ⟨pre, post, m₁, m₂, o₁, o₂, hfocus, rfl, rfl⟩ := exists_focus hf hlo hhi
      refine loadPage_bind hnode ?_
      show (deleteFromPage key fuel (n.findChildPosition key).1
        (some (_, (n.findChildPosition key).2)) >>= _).Returns P _
      rw [hfocus.position]
      refine (deleteFromPage_child hfocus hnode hn hnout (hfocus.mem_child hkey) (by omega)).bind ?_
      rintro r P' ⟨value, m', rfl, n', o'', hnode', hf', hnout', hrw, hthread, hr⟩
      have hcons : (key, value) ::ₘ m' + m₂ = (key, value) ::ₘ (m' + m₂) := Multiset.cons_add ..
      cases r with
      | none =>
        exact Returns.pure ⟨value, m' + m₂, h + 1, _, hcons,
          ⟨n', hr, o'', hnode', hf', hnout', rfl⟩, hrw, hthread⟩
      | some info =>
        have hroot : info.newRoot.isSome = false := by rw [hr.1]; rfl
        show (if info.newRoot.isSome then _ else handleChildMerge _ _ _).Returns P' _
        rw [hroot]
        refine removeSeparatorKey_bind hnode' hr.2 (loadInternal_bind hnode' ?_)
        by_cases hempty : n'.seps.length = 0
        · -- the only child becomes the root
          rw [if_pos hempty]
          have hnil := List.length_eq_zero_iff.mp hempty
          rw [hnil] at hf'
          have hsame : ∀ q ∈ o'', (P'.push (.free pid)).get q = P'.get q := by
            intro q hq
            rw [Pages.get_free, if_neg]
            rintro rfl
            exact hnout' hq
          refine freePage_bind (Returns.pure
            ⟨value, m' + m₂, h, o'', hcons, Subtree.congr (P := P') hf' hsame, ?_, ?_⟩)
          · have hfree := Rewrites.free (Pages.inUse_of_get hnode') (Finset.mem_insert_self pid o'')
            rw [Finset.erase_insert hnout'] at hfree
            exact hrw.trans hfree
          · intro f e hl
            have ht := (links_internal hnode').mp (hthread f e hl)
            rw [hnil] at ht
            exact Links.congr ht hf' hsame
        · rw [if_neg hempty]
          refine Returns.pure ⟨value, m' + m₂, h + 1, _, hcons,
            ⟨n', ?_, o'', hnode', hf', hnout', rfl⟩, hrw, hthread⟩
          exact fun hnil => hempty (by rw [hnil]; rfl)

/-- **Deletion** of a key that the tree does not have changes nothing. -/
theorem deleteFromPage_of_notMem {parent : Option (ℕ × ℕ)} (hkey : key ∉ m.map Prod.fst)
    (hfuel : h < fuel) : deleteFromPage key fuel pid parent P = (.error .keyNotFound, P) := by
  induction h, fuel, hfuel using fuel_induction generalizing pid lo hi m o parent with
  | zero fuel =>
    obtain ⟨l, hget, hl, rfl, rfl⟩ := t
    have hdel : l.delete key = .error .keyNotFound := LeafNode.delete_of_notMem (by simpa using hkey)
    rw [deleteFromPage, bind_of_ok (loadPage_eq hget)]
    show deleteFromLeaf key pid parent P = _
    rw [deleteFromLeaf, bind_of_ok (loadLeaf_eq hget), bind_of_error (by rw [hdel]; rfl)]
  | succ h fuel hfuel ih =>
    obtain ⟨n, hn, o', hget, hf, hout, rfl⟩ := t
    obtain ⟨pre, post, m₁, m₂, o₁, o₂, hfocus, rfl, rfl⟩ := exists_focus hf hlo hhi
    have hkey₁ : key ∉ m₁.map Prod.fst := by
      rw [Multiset.map_add, Multiset.mem_add, not_or] at hkey
      exact hkey.1
    rw [deleteFromPage, bind_of_ok (loadPage_eq hget)]
    refine bind_of_error ?_
    rw [hfocus.position]
    exact ih hfocus.child hfocus.low hfocus.high hkey₁

end RTsql.Storage.BTree

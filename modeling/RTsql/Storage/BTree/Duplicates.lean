import RTsql.Storage.BTree.Links

/-!
# Equal keys

Where keys are not unique, the entries of a key may lie in several leaves. The children that may
have the key are those around the separators equal to it: a row of neighbours
(`equalityCandidateChildren_spec`). The other children lie on either side, and hold no entry of the
key. -/

namespace RTsql.Storage.BTree

open RTsql.Library Proc List
open Multiset (coe_add map_add map_coe mem_add mem_coe)

variable {κ v : Type} {act : ℕ → TreeAction κ v Unit} {c : ℕ} {P P' : Pages κ v}

/-! ### One page after the other -/

theorem firstFound_of_ok (rest : List ℕ)
    (hc : act c P = (.ok (), P')) : firstFound act (c :: rest) P = (.ok (), P') := by
  simp only [firstFound, hc]

theorem firstFound_of_keyNotFound (rest : List ℕ) (hc : act c P = (.error .keyNotFound, P')) :
    firstFound act (c :: rest) P = firstFound act rest P' := by
  simp only [firstFound, hc]

variable [LinearOrder κ] {strict : Bool}

/-! ### The children that may have a key -/

/-- A list in order has its smaller keys first, then the equal, then the greater ones. -/
theorem Ascend.exists_equal {α : Type} {l : List (κ × α)} (hasc : Ascend strict l) (key : κ) :
    ∃ pre eq post, l = pre ++ eq ++ post ∧ (∀ e ∈ pre, e.1 < key) ∧ (∀ e ∈ eq, e.1 = key) ∧
    ∀ e ∈ post, key < e.1 := by
  induction l with
  | nil => exact ⟨[], [], [], rfl, nofun, nofun, nofun⟩
  | cons a l ih =>
    obtain ⟨ha, hl⟩ := pairwise_cons.mp hasc
    obtain ⟨pre, eq, post, rfl, hpre, heq, hpost⟩ := ih hl
    rcases lt_trichotomy a.1 key with hlt | rfl | hgt
    · exact ⟨a :: pre, eq, post, rfl, forall_mem_cons.mpr ⟨hlt, hpre⟩, heq, hpost⟩
    · -- no smaller key comes behind an equal one
      have hnil : pre = [] := by
        refine eq_nil_iff_forall_not_mem.mpr fun e he => ?_
        exact absurd (hpre e he) (not_lt.mpr (ha e (by simp [he])).le)
      subst hnil
      exact ⟨[], a :: eq, post, rfl, nofun, forall_mem_cons.mpr ⟨rfl, heq⟩, hpost⟩
    · have hgt' : ∀ e ∈ a :: (pre ++ eq ++ post), key < e.1 :=
        forall_mem_cons.mpr ⟨hgt, fun e he => hgt.trans_le (ha e he).le⟩
      exact ⟨[], [], a :: (pre ++ eq ++ post), rfl, nofun, nofun, hgt'⟩

theorem InternalNode.equalityCandidateChildren_spec {n : InternalNode κ}
    (hasc : Ascend strict n.seps) (key : κ) :
    ∃ pre eq post, n.seps = pre ++ eq ++ post ∧ (∀ e ∈ pre, e.1 < key) ∧ (∀ e ∈ eq, e.1 = key) ∧
      (∀ e ∈ post, key < e.1) ∧
      n.equalityCandidateChildren key = lastKid n.leftmost pre :: eq.map Prod.snd := by
  obtain ⟨pre, eq, post, hseps, hpre, heq, hpost⟩ := hasc.exists_equal key
  refine ⟨pre, eq, post, hseps, hpre, heq, hpost, ?_⟩
  have hlen : n.seps.length = pre.length + eq.length + post.length := by rw [hseps]; simp; omega
  have hlo : partitionPoint (fun i => compareAt n.seps key i = .lt) (fun lo hi => lo + (hi - lo) / 2)
      n.seps.length 0 n.seps.length = pre.length := by
    refine partitionPoint_append (q := fun e => decide (e.1 < key)) (fun lo hi h => by omega)
      (hseps.trans (append_assoc ..)) (fun i a hat => ?_) (by simpa using hpre) ?_
    · simp [compareAt, hat, compare_lt_iff_lt]
    · exact forall_mem_append.mpr
        ⟨fun e he => by simp [heq e he], fun e he => by simpa using (hpost e he).le⟩
  have hhi : partitionPoint (fun i => (n.seps[i]?.map fun e => compare e.1 key) ≠ some .gt)
      (fun lo hi => lo + (hi - 1 - lo) / 2) n.seps.length 0 n.seps.length = (pre ++ eq).length := by
    refine partitionPoint_append (q := fun e => decide (e.1 ≤ key)) (fun lo hi h => by omega)
      hseps (fun i a hat => ?_) ?_ ?_
    · simp [hat, compare_gt_iff_gt]
    · exact forall_mem_append.mpr
        ⟨fun e he => by simpa using (hpre e he).le, fun e he => by simp [heq e he]⟩
    · simpa using hpost
  rw [length_append] at hhi
  rw [equalityCandidateChildren, hlo, hhi, Nat.min_eq_right (by omega),
    show pre.length + eq.length + 1 - pre.length = eq.length + 1 by omega, range'_succ, map_cons]
  congr 1
  · rw [childAt_eq (by omega), hseps, append_assoc, take_left]
  · refine ext_getElem (by simp) fun i hi hi' => ?_
    simp only [length_map, length_range'] at hi
    have hat : n.seps[pre.length + i]? = some eq[i] := by
      rw [hseps, append_assoc, getElem?_append_right (by omega), getElem?_append_left (by omega)]
      simp
    simp only [getElem_map, getElem_range', Nat.one_mul]
    rw [show pre.length + 1 + i = pre.length + i + 1 by omega, childAt, hat]
    rfl

/-- The children that may have the key, as a row between `pre` and `post`. They hold `m₁` and occupy
`o₁`, the others `m₂` and `o₂`. -/
structure Candidates (strict : Bool) (P : Pages κ v) (h : ℕ) (n : InternalNode κ) (lo : κ)
    (hi : WithTop κ) (key : κ)
    (pre eq post : List (κ × ℕ)) (m₁ m₂ : Multiset (κ × v)) (o₁ o₂ : Finset ℕ) : Prop where
  seps : n.seps = pre ++ eq ++ post
  children : n.equalityCandidateChildren key = lastKid n.leftmost pre :: eq.map Prod.snd
  row : Fenced (Subtree strict P h) (lastKid n.leftmost pre) eq (lastLow lo pre)
    (firstHigh hi post) m₁ o₁
  disjoint : Disjoint o₁ o₂
  inUse : ∀ p ∈ o₂, P.InUse p
  others : ∀ e ∈ m₂, e.1 ≠ key
  replace : ∀ T, (∀ c lo hi m o, o ⊆ o₂ → Subtree strict P h c lo hi m o → T c lo hi m o) → ∀ seg m' o',
    Fenced T (lastKid n.leftmost pre) seg (lastLow lo pre) (firstHigh hi post) m' o' →
    Disjoint o' o₂ → Fenced T n.leftmost (pre ++ seg ++ post) lo hi (m' + m₂) (o' ∪ o₂)

variable {h pid fuel : ℕ} {n : InternalNode κ} {lo key : κ} {hi : WithTop κ} {m : Multiset (κ × v)}
  {o : Finset ℕ} {seg : List (κ × ℕ)}

theorem exists_candidates (hf : Fenced (Subtree strict P h) n.leftmost n.seps lo hi m o) (key : κ) :
    ∃ pre eq post m₁ m₂ o₁ o₂, Candidates strict P h n lo hi key pre eq post m₁ m₂ o₁ o₂ ∧ m = m₁ + m₂ ∧
      o = o₁ ∪ o₂ := by
  obtain ⟨pre, eq, post, hseps, hpre, -, hpost, hchildren⟩ :=
    InternalNode.equalityCandidateChildren_spec (hf.fences fun _ _ _ _ _ t => t.before).1 key
  have huse := inUse_of_fenced hf fun _ _ _ _ _ t => t.inUse
  rw [hseps] at hf
  obtain ⟨m₁, m₂, o₁, o₂, hrow, hd, rfl, rfl, hsum, hrep⟩ := hf.replace
  refine ⟨pre, eq, post, m₁, m₂, o₁, o₂, ⟨hseps, hchildren, hrow, hd, ?_, ?_, hrep⟩, rfl, rfl⟩
  · exact fun p hp => huse p (Finset.mem_union_right _ hp)
  · refine hsum (fun m => ∀ e ∈ m, e.1 ≠ key) (by simp) ?_ ?_
    · exact fun a b ha hb e he => (mem_add.mp he).elim (ha e) (hb e)
    · rintro c lo hi m o t (⟨e', he', rfl⟩ | ⟨e', he', rfl⟩) e he rfl
      · exact absurd (WithTop.coe_le_coe.mp (t.bounds e he).2.le) (not_le.mpr (hpre e' he'))
      · exact absurd (t.bounds e he).1 (not_le.mpr (hpost e' he'))

/-! ### Search for all entries of a key -/

/-- The values of a key. -/
def valuesOf (key : κ) (m : Multiset (κ × v)) : Multiset v := (m.filter fun e => e.1 = key).map Prod.snd

@[simp] theorem valuesOf_add (key : κ) (m₁ m₂ : Multiset (κ × v)) :
    valuesOf key (m₁ + m₂) = valuesOf key m₁ + valuesOf key m₂ := by
  rw [valuesOf, Multiset.filter_add, map_add]
  rfl

theorem valuesOf_of_ne (hm : ∀ e ∈ m, e.1 ≠ key) : valuesOf key m = 0 := by
  rw [valuesOf, Multiset.filter_eq_nil.mpr hm]
  rfl

/-- Results from neighbours, one after the other. -/
theorem foldlM_row {T : ℕ → κ → WithTop κ → Multiset (κ × v) → Finset ℕ → Prop}
    {act : ℕ → TreeAction κ v (List v)} (hact : ∀ c lo hi m o, T c lo hi m o →
      (act c).Returns P fun r P' => P' = P ∧ (r : Multiset v) = valuesOf key m)
    (hf : Fenced T c seg lo hi m o) (results : List v) :
    ((c :: seg.map Prod.snd).foldlM (fun results child => do
        let childResults ← act child
        pure (results ++ childResults)) results).Returns P fun r P' =>
      P' = P ∧ (r : Multiset v) = results + valuesOf key m := by
  have hstep : ∀ c lo hi m o results, T c lo hi m o →
      (do let childResults ← act c; pure (results ++ childResults)).Returns P fun r P' =>
        P' = P ∧ (r : Multiset v) = results + valuesOf key m := by
    intro c lo hi m o results hT
    refine (hact c lo hi m o hT).bind ?_
    rintro r _ ⟨rfl, hr⟩
    exact Returns.pure ⟨rfl, by rw [← coe_add, hr]⟩
  induction seg generalizing c lo m o results with
  | nil =>
    refine (hstep _ _ _ _ _ results hf).bind ?_
    rintro r _ ⟨rfl, hr⟩
    exact Returns.pure ⟨rfl, hr⟩
  | cons e seg ih =>
    obtain ⟨m₁, m₂, o₁, o₂, h₁, h₂, -, rfl, -⟩ := hf
    refine (hstep _ _ _ _ _ results h₁).bind ?_
    rintro r _ ⟨rfl, hr⟩
    refine (ih h₂ r).mono ?_
    rintro r' _ ⟨rfl, hr'⟩
    exact ⟨rfl, by rw [hr', hr, valuesOf_add, add_assoc]⟩

/-- **Search** for all entries of a key. -/
theorem searchAllFromPage_spec (key : κ) (t : Subtree strict P h pid lo hi m o) (hfuel : h < fuel) :
    (searchAllFromPage key fuel pid).Returns P fun r P' => P' = P ∧
    (r : Multiset v) = valuesOf key m := by
  induction h, fuel, hfuel using fuel_induction generalizing pid lo hi m o with
  | zero fuel =>
    obtain ⟨l, hget, -, rfl, -⟩ := t
    refine loadPage_bind hget (Returns.pure ⟨rfl, ?_⟩)
    rw [valuesOf, Multiset.filter_coe, map_coe]
  | succ h fuel hfuel ih =>
    obtain ⟨n, -, o', hget, hf, -, -⟩ := t
    obtain ⟨pre, eq, post, m₁, m₂, o₁, o₂, hc, rfl, -⟩ := exists_candidates hf key
    refine loadPage_bind hget ?_
    dsimp only
    rw [hc.children]
    refine (foldlM_row (fun _ _ _ _ _ t => ih t) hc.row []).mono ?_
    rintro r P' ⟨rfl, hr⟩
    rw [hr, valuesOf_add, valuesOf_of_ne hc.others]
    simp

/-! ### Deletion of one entry -/

variable [DecidableEq v] {value : v}

/-- Of neighbours, the first that has the entry loses it. -/
theorem firstFound_row {x : κ × v} (hact : ∀ c lo hi m o, Subtree strict P h c lo hi m o →
      (x ∈ m → (act c).Returns P fun _ P' => Subtree strict P' h c lo hi (m.erase x) o ∧
        Rewrites P P' o o ∧
          Threads P P' h c ([] : List (κ × ℕ))) ∧
        (x ∉ m → act c P = (.error .keyNotFound, P)))
    (hf : Fenced (Subtree strict P h) c seg lo hi m o) :
    (x ∈ m → (firstFound act (c :: seg.map Prod.snd)).Returns P fun _ P' =>
        Fenced (Subtree strict P' h) c seg lo hi (m.erase x) o ∧ Rewrites P P' o o ∧
          ∀ f e, Threaded (Links P h) Linked c seg f e → Threaded (Links P' h) Linked c seg f e) ∧
      (x ∉ m → firstFound act (c :: seg.map Prod.snd) P = (.error .keyNotFound, P)) := by
  induction seg generalizing c lo m o with
  | nil =>
    obtain ⟨hfound, hnot⟩ := hact c lo hi m o hf
    refine ⟨fun hx => ?_, fun hx => firstFound_of_keyNotFound [] (hnot hx)⟩
    obtain ⟨⟨⟩, P', hrun, hres⟩ := hfound hx
    exact ⟨(), P', firstFound_of_ok [] hrun, hres⟩
  | cons e seg ih =>
    obtain ⟨s, c'⟩ := e
    obtain ⟨m₁, m₂, o₁, o₂, h₁, h₂, hd, rfl, rfl⟩ := hf
    obtain ⟨hfound, hnot⟩ := hact c lo s m₁ o₁ h₁
    by_cases hx₁ : x ∈ m₁
    · refine ⟨fun _ => ?_, fun hx => absurd (mem_add.mpr (.inl hx₁)) hx⟩
      obtain ⟨⟨⟩, P', hrun, ht, hrw, hthread⟩ := hfound hx₁
      have hsame := hrw.same hd (inUse_of_fenced h₂ fun _ _ _ _ _ t => t.inUse)
      refine ⟨(), P', firstFound_of_ok _ hrun, ?_, hrw.frame o₂, ?_⟩
      · exact ⟨m₁.erase x, m₂, o₁, o₂, ht, fenced_congr h₂ hsame, hd,
          Multiset.erase_add_left_pos _ hx₁, rfl⟩
      · rintro f e ⟨mid, hlink, hfirst, hrest⟩
        exact ⟨mid, hlink, hthread f mid hfirst, threaded_congr hrest h₂ hsame⟩
    · obtain ⟨hfound', hnot'⟩ := ih h₂
      have hrest := firstFound_of_keyNotFound (c' :: seg.map Prod.snd) (hnot hx₁)
      constructor
      · intro hx
        obtain ⟨⟨⟩, P', hrun, hf', hrw, hthread⟩ := hfound' ((mem_add.mp hx).resolve_left hx₁)
        have hsame := hrw.same hd.symm h₁.inUse
        refine ⟨(), P', hrest.trans hrun, ?_, ?_, ?_⟩
        · exact ⟨m₁, m₂.erase x, o₁, o₂, h₁.congr hsame, hf', hd,
            Multiset.erase_add_right_neg _ hx₁, rfl⟩
        · rw [Finset.union_comm]
          exact hrw.frame o₁
        · rintro f e ⟨mid, hlink, hfirst, hnext⟩
          exact ⟨mid, hlink, hfirst.congr h₁ hsame, hthread mid e hnext⟩
      · intro hx
        exact hrest.trans (hnot' fun hx₂ => hx (mem_add.mpr (.inr hx₂)))

/-- **Deletion of one entry.** If the tree has it, one occurrence goes; otherwise nothing
changes. -/
theorem deleteExactFromPage_spec (t : Subtree strict P h pid lo hi m o) (hfuel : h < fuel) :
    ((key, value) ∈ m → (deleteExactFromPage key value fuel pid).Returns P fun _ P' =>
        Subtree strict P' h pid lo hi (m.erase (key, value)) o ∧ Rewrites P P' o o ∧
          Threads P P' h pid ([] : List (κ × ℕ))) ∧
      ((key, value) ∉ m → deleteExactFromPage key value fuel pid P = (.error .keyNotFound, P)) := by
  induction h, fuel, hfuel using fuel_induction generalizing pid lo hi m o with
  | zero fuel =>
    obtain ⟨l, hget, hl, rfl, rfl⟩ := t
    constructor
    · intro hmem
      refine loadPage_bind hget ?_
      obtain ⟨i, hi⟩ := Option.isSome_iff_exists.mp (findIdx?_isSome.trans (any_eq_true.mpr
        ⟨(key, value), mem_coe.mp hmem, decide_eq_true rfl⟩) :
        (l.entries.findIdx? fun e => decide (e = (key, value))).isSome = true)
      obtain ⟨hlt, hat, -⟩ := findIdx?_eq_some_iff_getElem.mp hi
      have hat := of_decide_eq_true hat
      obtain ⟨page, hrem, hslots⟩ := removeSlot_of_lt (p := l.page) hlt
      dsimp only
      rw [hi]
      have hperm : l.entries.Perm ((key, value) :: page.slots) := by
        rw [hslots, ← hat]
        exact (getElem_cons_eraseIdx_perm hlt).symm
      refine Returns.lift_bind hrem ⟨(), _, rfl, ⟨{ l with page }, by simp, ?_, ?_, rfl⟩, ?_, ?_⟩
      · refine hl.of_delete ?_ hperm
        show Ascend strict page.slots
        rw [hslots]
        exact hl.ascend.sublist (eraseIdx_sublist ..)
      · rw [Multiset.coe_eq_coe.mpr hperm, ← Multiset.cons_coe, Multiset.erase_cons_head]
        rfl
      · exact Rewrites.write (Pages.inUse_of_get hget) (Finset.mem_singleton_self pid)
      · exact threads_leaf (m := { l with page }) hget (by simp) rfl
    · intro hmem
      have hnone : (l.entries.findIdx? fun e => decide (e = (key, value))) = none := by
        rw [findIdx?_eq_none_iff]
        exact fun e he => decide_eq_false fun heq => hmem (heq ▸ he)
      rw [deleteExactFromPage, bind_of_ok (loadPage_eq hget)]
      dsimp only
      rw [hnone]
      rfl
  | succ h fuel hfuel ih =>
    obtain ⟨n, hn, o', hget, hf, hout, rfl⟩ := t
    obtain ⟨pre, eq, post, m₁, m₂, o₁, o₂, hc, rfl, rfl⟩ := exists_candidates hf key
    have hnot₂ : (key, value) ∉ m₂ := fun hmem => hc.others _ hmem rfl
    obtain ⟨hfound, hnot⟩ := firstFound_row (fun _ _ _ _ _ t => ih t) hc.row
    rw [← hc.children] at hfound hnot
    constructor
    · intro hmem
      have hmem₁ := (mem_add.mp hmem).resolve_right hnot₂
      refine loadPage_bind hget ((hfound hmem₁).mono ?_)
      rintro ⟨⟩ P' ⟨hrow, hrw, hthread⟩
      rw [Finset.mem_union, not_or] at hout
      obtain ⟨hget', -⟩ := hrw.same_of_notMem (Pages.inUse_of_get hget) hout.1
      rw [hget] at hget'
      have hsame := hrw.same hc.disjoint hc.inUse
      have hall := hc.replace (Subtree strict P' h)
        (fun _ _ _ _ _ ho t => t.congr fun p hp => hsame p (ho hp)) eq _ o₁ hrow hc.disjoint
      rw [← hc.seps] at hall
      refine ⟨⟨n, hn, o₁ ∪ o₂, hget', ?_, ?_, rfl⟩, (hrw.frame o₂).frame_insert pid, fun f e hl => ?_⟩
      · rwa [Multiset.erase_add_left_pos _ hmem₁]
      · rwa [Finset.mem_union, not_or]
      · have ht := (links_internal hget).mp hl
        have hnd := hf.nodup_kids fun _ _ _ _ _ t => t.mem
        rw [hc.seps] at ht hnd
        obtain ⟨f', e', hseg, hrep⟩ := ht.replace hnd
        refine (links_internal hget').mpr ?_
        rw [hc.seps]
        refine hrep _ (fun x hx hne f e hl => ?_) eq (hthread f' e' hseg)
        obtain ⟨lo, hi, m, o, ho, t⟩ := Fenced.exists_piece_of_replace hc.replace hx hne
        exact hl.congr t fun p hp => hsame p (ho hp)
    · intro hmem
      rw [deleteExactFromPage, bind_of_ok (loadPage_eq hget)]
      exact hnot fun hmem₁ => hmem (mem_add.mpr (.inl hmem₁))

end RTsql.Storage.BTree

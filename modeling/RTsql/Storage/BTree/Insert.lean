import RTsql.Storage.BTree.Links

/-!
# Insertion keeps the shape

An insertion turns one tree into one or two: if the root of the subtree had to be
divided, the second half begins at the separator that goes up. In both cases the
result is a row of pieces between the old bounds (`fence`), and the parent replaces its child
by that row.

A page that is full must have enough entries to be divided (`Page.Divides`): a full
leaf without entries makes the insertion fail, and halves without entries or separators
would leave a tree that deletions cannot repair.
-/

namespace RTsql.Storage.BTree

open RTsql.Library Proc List InternalNode
open Multiset (coe_add coe_eq_coe cons_add cons_coe map_add mem_add)

variable {κ v α : Type}

/-- The separator and the page behind it, if the page was divided. -/
def fence : Option (SplitResult κ) → List (κ × ℕ)
  | none => []
  | some result => [(result.middleKey, result.newPage)]

/-- A page that has room, or is to be divided into halves that may stand in a tree. -/
def Page.Divides (strict : Bool) : Page κ v → Prop
  | .raw => True
  | .leaf l => l.HasRoom ∨ (if strict then 2 else 1) ≤ l.entries.length
  | .internal n => strict = true → n.HasRoom ∨ 3 ≤ n.seps.length

instance (strict : Bool) : (page : Page κ v) → Decidable (page.Divides strict)
  | .raw => inferInstanceAs (Decidable True)
  | .leaf l => inferInstanceAs (Decidable (l.HasRoom ∨ (if strict then 2 else 1) ≤ l.entries.length))
  | .internal n => inferInstanceAs (Decidable (strict = true → n.HasRoom ∨ 3 ≤ n.seps.length))

/-- Of the two halves of a node, the one with the child. -/
theorem inRight_eq (child : ℕ) {left : List (κ × ℕ)} {s : κ} {c leftmost : ℕ} {rest : List (κ × ℕ)}
    (hnd : (leftmost :: (left ++ (s, c) :: rest).map Prod.snd).Nodup) :
    (child ∈ leftmost :: left.map Prod.snd → (⟨s, c, rest⟩ : InternalSplit κ).inRight child = false) ∧
      (child ∈ c :: rest.map Prod.snd → (⟨s, c, rest⟩ : InternalSplit κ).inRight child = true) := by
  have hiff : (⟨s, c, rest⟩ : InternalSplit κ).inRight child = true ↔
    child ∈ c :: rest.map Prod.snd := by
    simp [InternalSplit.inRight, eq_comm (a := c) (b := child)]
  refine ⟨fun hmem => ?_, hiff.mpr⟩
  rw [← Bool.not_eq_true, hiff]
  intro hmem'
  rw [map_append] at hnd
  exact (nodup_append.mp hnd).2.2 child hmem child hmem' rfl

/-- Two ways to divide a list: the element that divides it one way lies behind the point that
divides it the other way, or before. -/
theorem append_cons_eq_append {l r l' r' : List α} {a : α} (heq : l ++ a :: r = l' ++ r') :
    (∃ x, l = l' ++ x ∧ r' = x ++ a :: r) ∨ ∃ x, l' = l ++ a :: x ∧ r = x ++ r' := by
  rcases append_eq_append_iff.mp heq with ⟨x, rfl, hx⟩ | ⟨x, rfl, rfl⟩
  · rcases cons_eq_append_iff.mp hx with ⟨rfl, rfl⟩ | ⟨x, rfl, rfl⟩
    · exact .inl ⟨[], by simp⟩
    · exact .inr ⟨x, rfl, rfl⟩
  · exact .inl ⟨x, rfl, rfl⟩

variable [LinearOrder κ]

/-- The pages that a descent to the key visits. -/
def searchPath (P : Pages κ v) (key : κ) : ℕ → ℕ → List (Page κ v)
  | 0, _ => []
  | fuel + 1, pid =>
    match P.get pid with
    | none => []
    | some .raw => [.raw]
    | some (.leaf l) => [.leaf l]
    | some (.internal n) => .internal n :: searchPath P key fuel (n.findChildPageIdBinary key)

variable {strict : Bool} {alloc : Allocator κ v} {P : Pages κ v} {h pid fuel : ℕ} {lo key : κ}
  {hi : WithTop κ} {value : v} {m : Multiset (κ × v)}

/-! ### Leaves -/

section Leaf

variable {l l' first left right : LeafNode κ v} {mid : κ} {a : κ × v} {rest : List (κ × v)}

/-- The pages after the division of a leaf, which keeps `left` and leaves `right` to a new page. -/
theorem divided_leaf {q : ℕ} (hget : P.get pid = some (.leaf l)) (hq : alloc.pick P = q)
    (hleft : Within strict left.entries lo (mid : WithTop κ))
    (hright : Within strict right.entries mid hi)
    (hm : (left.entries : Multiset (κ × v)) + right.entries = m) (hnext : right.next = l.next) :
    let P' := ((((P.push (.alloc q)).push (.write pid (.leaf first))).push
      (.write pid (.leaf left))).push
      (.write q (.leaf right))).push (.write pid (.leaf { left with next := q }))
    ∃ o', Fenced (Subtree strict P' 0) pid (fence (some ⟨mid, q⟩)) lo hi m o' ∧ Rewrites P P' {pid} o' ∧
      (alloc.SkipsZero → Threads P P' 0 pid (fence (some ⟨mid, q⟩))) := by
  have hfresh : P.get q = none := hq ▸ alloc.fresh P
  have hne : pid ≠ q := by
    rintro rfl
    cases hfresh.symm.trans hget
  refine ⟨{pid, q}, ?_, ?_, ?_⟩
  · refine ⟨_, _, {pid}, {q}, ⟨{ left with next := q }, ?_, { hleft with }, rfl, rfl⟩,
      ⟨right, ?_, hright, rfl, rfl⟩, Finset.disjoint_singleton.mpr hne, hm.symm, rfl⟩
    · simp
    · simp [hne.symm]
  · have hsub : ({pid, q} : Finset ℕ) = insert q {pid} := Finset.pair_comm pid q
    rw [hsub]
    refine (Rewrites.alloc hfresh).trans (((Rewrites.write ?_ ?_).trans (Rewrites.write ?_ ?_)).trans
      ((Rewrites.write ?_ ?_).trans (Rewrites.write ?_ ?_)))
    all_goals simp [Pages.InUse, hne, hne.symm, hget]
  · intro hz
    exact threads_divided (m := { left with next := q }) (r := right) hget (by simp) (by simp [hne.symm])
      (hq ▸ hz.pick hget) rfl hnext

theorem insertIntoLeaf_spec (hget : P.get pid = some (.leaf l)) (hl : Within strict l.entries lo hi)
    (hlo : lo ≤ key) (hhi : Before strict (key : WithTop κ) hi)
    (hkey : strict = true → key ∉ l.entries.map Prod.fst) (hdiv : (Page.leaf l).Divides strict) :
    (insertIntoLeaf alloc pid l key value).Returns P fun r P' => ∃ o',
      Fenced (Subtree strict P' 0) pid (fence r) lo hi
        ((key, value) ::ₘ (l.entries : Multiset (κ × v))) o' ∧
        Rewrites P P' {pid} o' ∧ (alloc.SkipsZero → Threads P P' 0 pid (fence r)) := by
  rw [insertIntoLeaf]
  by_cases hroom : l.HasRoom
  · obtain ⟨l', hins, hasc, hperm⟩ := LeafNode.insert_spec key value hroom hl.ascend hkey
    rw [hins]
    refine writeLeaf_bind (Returns.pure ⟨{pid}, ?_, ?_, fun _ => ?_⟩)
    · refine ⟨l', ?_, hl.of_perm hlo hhi hasc hperm, ?_, rfl⟩
      · exact if_pos rfl
      · exact (coe_eq_coe.mpr hperm).symm
    · exact Rewrites.write (Pages.inUse_of_get hget) (Finset.mem_singleton_self pid)
    · exact threads_leaf (m := l') hget (by simp) (LeafNode.next_insert hins)
  · rw [LeafNode.insert_of_full hroom]
    have hlen := hdiv.resolve_left hroom
    have hpos : 0 < l.entries.length := by split at hlen <;> omega
    obtain ⟨left, a, rest, hsplit, hleftroom, hleftlen, hentries⟩ := LeafNode.split_spec hl.ascend hpos
    obtain ⟨hwithin, hwithin'⟩ := (hentries ▸ hl).divide fun hstrict hnil => by
      rw [if_pos hstrict] at hlen
      rw [hnil, length_nil] at hleftlen
      omega
    refine allocatePage_bind (Returns.lift_bind hsplit (writeLeaf_bind ?_))
    by_cases hle : a.1 ≤ key
    · rw [if_pos hle, if_pos hle]
      obtain ⟨right, hbuild, hright, hnext⟩ := LeafNode.build_spec
        (sortEntries (a :: rest ++ [(key, value)])) l.next (by
          have := l.length_entries_le
          have := congrArg length hentries
          rw [(perm_sortEntries _).length_eq]
          simp only [length_append, length_cons, length_nil, maxEntries] at *
          omega)
      have hperm : right.entries.Perm ((key, value) :: a :: rest) := by
        rw [hright]
        exact (perm_sortEntries _).trans (perm_append_singleton _ _)
      refine Returns.pure_bind (writeLeaf_bind (Returns.lift_bind hbuild
        (writeLeaf_bind (writeLeaf_bind (Returns.pure
          (divided_leaf hget rfl hwithin (hwithin'.of_perm hle hhi ?_ hperm) ?_ hnext))))))
      · rw [hright]
        refine ascend_sortEntries fun hstrict => ?_
        subst hstrict
        have hnd : ((key, value) :: a :: rest).map Prod.fst |>.Nodup := by
          refine nodup_cons.mpr ⟨fun hmem => hkey rfl ?_, hwithin'.ascend.nodup_keys⟩
          rw [hentries, map_append]
          exact mem_append_right _ hmem
        exact ((perm_append_singleton _ _).map Prod.fst).nodup_iff.mpr hnd
      · rw [coe_eq_coe.mpr hperm, hentries]
        simp only [← cons_coe, ← coe_add, Multiset.add_cons]
    · rw [if_neg hle, if_neg hle]
      have hlt : key < a.1 := not_le.mp hle
      obtain ⟨left', hins, hasc', hperm⟩ := LeafNode.insert_spec key value hleftroom
        hwithin.ascend fun hstrict hmem => hkey hstrict (by
          rw [hentries, map_append]
          exact mem_append_left _ hmem)
      obtain ⟨right, hbuild, hright, hnext⟩ := LeafNode.build_spec (a :: rest) l.next (by
        have := l.length_entries_le
        have := congrArg length hentries
        simp only [length_append] at this
        omega)
      refine Returns.lift_bind hins (writeLeaf_bind (Returns.lift_bind hbuild
        (writeLeaf_bind (writeLeaf_bind (Returns.pure (divided_leaf hget rfl
          (hwithin.of_perm hlo (before_coe.mpr (before_of_lt hlt)) hasc' hperm)
            (hright ▸ hwithin') ?_ hnext))))))
      rw [coe_eq_coe.mpr hperm, hright, hentries]
      simp only [← cons_coe, ← coe_add, cons_add]

/-- A full leaf without entries cannot be divided. The new page stays allocated. -/
theorem insertIntoLeaf_of_nil (hfull : ¬ l.HasRoom) (hnil : l.entries = []) :
    insertIntoLeaf alloc pid l key value P =
      (.error (.io "cannot split empty leaf node"), P.push (.alloc (alloc.pick P))) := by
  rw [insertIntoLeaf, LeafNode.insert_of_full hfull]
  have halloc : allocatePage alloc P = (.ok (alloc.pick P), P.push (.alloc (alloc.pick P))) := rfl
  exact (bind_of_ok halloc).trans (bind_of_error (by rw [LeafNode.split_of_nil hnil]; rfl))

end Leaf

/-! ### Internal nodes -/

section Internal

variable {n n' first left right : InternalNode κ} {o : Finset ℕ} {pre post : List (κ × ℕ)}
  {result : SplitResult κ}

/-- The pages after the division of an internal node, which keeps `left` and leaves `right` to a new
page. -/
theorem divided_internal {q : ℕ} {s : κ}
    (hget : P.get pid = some (.internal n)) (hfresh : P.get q = none) (hout : pid ∉ o)
    (hf : Fenced (Subtree strict P h) left.leftmost
      (left.seps ++ (s, right.leftmost) :: right.seps) lo hi m o)
    (hleft : left.Sound strict) (hright : right.Sound strict) :
    let P' := (((P.push (.alloc q)).push (.write pid (.internal first))).push
      (.write pid (.internal left))).push
      (.write q (.internal right))
    ∃ o', Fenced (Subtree strict P' (h + 1)) pid (fence (some ⟨s, q⟩)) lo hi m o' ∧
      Rewrites P P' (insert pid o) o' ∧
      ∀ f e, Threaded (Links P h) Linked left.leftmost
        (left.seps ++ (s, right.leftmost) :: right.seps) f e →
        Threaded (Links P' (h + 1)) Linked pid (fence (some ⟨s, q⟩)) f e := by
  have hne : pid ≠ q := by
    rintro rfl
    cases hfresh.symm.trans hget
  have hq : q ∉ o := fun hq => (inUse_of_fenced hf (fun _ _ _ _ _ t => t.inUse) q hq).ne_none hfresh
  intro P'
  have hsame : ∀ p ∈ o, P'.get p = P.get p := by
    intro p hp
    have hp₁ : p ≠ pid := fun heq => hout (heq ▸ hp)
    have hp₂ : p ≠ q := fun heq => hq (heq ▸ hp)
    simp [P', hp₁, hp₂]
  have hpid : P'.get pid = some (.internal left) := by simp [P', hne]
  have hq' : P'.get q = some (.internal right) := by simp [P']
  refine ⟨insert pid (insert q o),
    fenced_pair hpid hq' hleft hright (fenced_congr hf hsame) hne hout hq, ?_, ?_⟩
  · rw [Finset.insert_comm]
    refine (Rewrites.alloc hfresh).trans ((Rewrites.write ?_ ?_).trans ((Rewrites.write ?_ ?_).trans
      (Rewrites.write ?_ ?_)))
    all_goals simp [Pages.InUse, hne, hne.symm, hget]
  · exact fun f e ht => threaded_pair hpid hq' (threaded_congr ht hf hsame)

theorem insertIntoInternal_spec (hget : P.get pid = some (.internal n)) (hn : n.Sound strict)
    (hseps : n.seps = pre ++ post) (hnd : (n.leftmost :: n.seps.map Prod.snd).Nodup)
    (hf : Fenced (Subtree strict P h) n.leftmost (pre ++ fence (some result) ++ post) lo hi m o)
    (hout : pid ∉ o) (hdiv : (Page.internal n : Page κ v).Divides strict) :
    (insertIntoInternal alloc pid (lastKid n.leftmost pre) result).Returns P fun r P' => ∃ o',
      Fenced (Subtree strict P' (h + 1)) pid (fence r) lo hi m o' ∧ Rewrites P P' (insert pid o) o' ∧
        ∀ f e, Threaded (Links P h) Linked n.leftmost (pre ++ fence (some result) ++ post) f e →
          Threaded (Links P' (h + 1)) Linked pid (fence r) f e := by
  rw [show pre ++ fence (some result) ++ post = pre ++ (result.middleKey, result.newPage) :: post by
    simp [fence]] at hf ⊢
  refine loadInternal_bind hget ?_
  by_cases hroom : n.HasRoom
  · obtain ⟨n', hins, hseps', hleft', hcompact⟩ :=
      insertSeparator_spec result.middleKey result.newPage hroom hseps hnd
    rw [hins]
    have hsame : ∀ p ∈ o, (P.push (.write pid (.internal n'))).get p = P.get p := by
      intro p hp
      rw [Pages.get_write, if_neg]
      rintro rfl
      exact hout hp
    have hget' : (P.push (.write pid (.internal n'))).get pid = some (.internal n') := by
      exact if_pos rfl
    refine writeInternal_bind
      (Returns.pure ⟨insert pid o, subtree_internal hget' ?_ ?_ hout, ?_, fun f e ht => ?_⟩)
    · refine sound_of (by rw [hseps']; simp) ?_
      rintro rfl
      exact hcompact hn
    · rw [hseps', hleft']
      exact fenced_congr hf hsame
    · exact Rewrites.write (Pages.inUse_of_get hget) (Finset.mem_insert_self pid o)
    · refine (links_internal hget').mpr ?_
      rw [hseps', hleft']
      exact threaded_congr ht hf hsame
  · rw [insertSeparator_of_full hroom hseps hnd]
    have hlen : 3 ≤ n.seps.length := by
      cases strict with
      | true => exact (hdiv rfl).resolve_left hroom
      | false =>
        have := InternalNode.Compact.length_seps hn hroom
        simp only [maxSeparators] at this
        omega
    have hmax := n.length_seps_le
    obtain ⟨left, s, c, rest, hsplit, hnseps, hleftmost, hcompact, hleftlen⟩ :=
      split_spec (n := n) (by omega)
    have hrestlen : 1 ≤ rest.length ∧ rest.length < maxSeparators ∧
      left.seps.length < maxSeparators := by
      have := congrArg length hnseps
      simp only [length_append, length_cons] at this
      omega
    obtain ⟨right, hbuild, hrseps, hrleft, hrcompact⟩ := build_spec c rest (by omega)
    rw [hnseps] at hnd
    refine allocatePage_bind (Returns.lift_bind hsplit (writeInternal_bind ?_))
    -- the child is in the left half, or in the right
    rw [hnseps] at hseps
    rcases append_cons_eq_append hseps with ⟨post', hleft, rfl⟩ | ⟨rest', rfl, hrest⟩
    · have hside := (inRight_eq (lastKid n.leftmost pre) hnd).1 (by
        rw [hleft, map_append]
        exact mem_append_left _ lastKid_mem)
      rw [hside]
      obtain ⟨left', hins, hlseps, hlleft, hlcompact⟩ := insertSeparator_spec result.middleKey
        result.newPage (hcompact.hasRoom hrestlen.2.2) hleft (by
          rw [hleftmost]
          rw [map_append] at hnd
          exact (nodup_append.mp hnd).1)
      rw [← hlleft] at hins
      have hrow : left'.seps ++ (s, right.leftmost) :: right.seps =
          pre ++ (result.middleKey, result.newPage) :: (post' ++ (s, c) :: rest) := by
        rw [hlseps, hrseps, hrleft, append_assoc]
        rfl
      rw [← hrow, ← hleftmost, ← hlleft] at hf ⊢
      refine Returns.lift_bind hins (writeInternal_bind (Returns.lift_bind hbuild (Returns.pure_bind
        (writeInternal_bind (Returns.pure (divided_internal hget (alloc.fresh P) hout hf ?_ ?_))))))
      · exact sound_of (by rw [hlseps]; simp) fun _ => hlcompact hcompact
      · exact sound_of (by rw [hrseps]; exact ne_nil_of_length_pos hrestlen.1) fun _ => hrcompact
    · have hchild : lastKid n.leftmost (left.seps ++ (s, c) :: rest') = lastKid c rest' :=
        lastKid_append s
      have hside := (inRight_eq (lastKid c rest') hnd).2 (by
        rw [hrest, map_append]
        exact mem_append_left _ lastKid_mem)
      rw [hchild, hside]
      rw [← hrseps] at hrest
      obtain ⟨right', hins, hrseps', hrleft', hrcompact'⟩ := insertSeparator_spec result.middleKey
        result.newPage (hrcompact.hasRoom (by rw [hrseps]; exact hrestlen.2.1)) hrest (by
          rw [hrleft, hrseps]
          rw [map_append, ← cons_append] at hnd
          exact (nodup_append.mp hnd).2.1)
      rw [hrleft] at hins
      have hrow : left.seps ++ (s, right'.leftmost) :: right'.seps =
          left.seps ++ (s, c) :: rest' ++ (result.middleKey, result.newPage) :: post := by
        rw [hrseps', hrleft', hrleft, ← cons_append, ← append_assoc]
      rw [← hrow, ← hleftmost] at hf ⊢
      refine Returns.pure_bind (writeInternal_bind (Returns.lift_bind hbuild (Returns.lift_bind hins
        (writeInternal_bind (Returns.pure (divided_internal hget (alloc.fresh P) hout hf ?_ ?_))))))
      · exact sound_of (ne_nil_of_length_pos (by omega)) fun _ => hcompact
      · exact sound_of (by rw [hrseps']; simp) fun _ => hrcompact' hrcompact

end Internal

/-! ### Descent -/

/-- **Insertion** into a tree. -/
theorem insertIntoPage_spec {o : Finset ℕ} {descent : List ℕ}
    (t : Subtree strict P h pid lo hi m o) (hlo : lo ≤ key) (hhi : Before strict (key : WithTop κ) hi)
    (hkey : strict = true → key ∉ m.map Prod.fst) (hfuel : h < fuel) (hdescent : ∀ p ∈ descent, p ∉ o)
    (hdiv : ∀ page ∈ searchPath P key fuel pid, page.Divides strict) :
    (insertIntoPage alloc key value fuel pid descent).Returns P fun r P' => ∃ o',
      Fenced (Subtree strict P' h) pid (fence r) lo hi ((key, value) ::ₘ m) o' ∧ Rewrites P P' o o' ∧
        (alloc.SkipsZero → Threads P P' h pid (fence r)) := by
  induction h, fuel, hfuel using fuel_induction generalizing pid lo hi m o descent with
  | zero fuel =>
    rw [insertIntoPage, if_neg fun hmem => hdescent pid hmem t.mem]
    obtain ⟨l, hget, hl, rfl, rfl⟩ := t
    rw [searchPath, hget] at hdiv
    exact loadPage_bind hget (insertIntoLeaf_spec hget hl hlo hhi hkey (hdiv _ (mem_singleton_self _)))
  | succ h fuel hfuel ih =>
    rw [insertIntoPage, if_neg fun hmem => hdescent pid hmem t.mem]
    obtain ⟨n, hn, o', hget, hf, hout, rfl⟩ := t
    obtain ⟨pre, post, m₁, m₂, o₁, o₂, hfocus, rfl, rfl⟩ := exists_focus hf hlo hhi
    rw [Finset.mem_union, not_or] at hout
    rw [searchPath, hget, forall_mem_cons, hfocus.childPage] at hdiv
    refine loadPage_bind hget ?_
    show ((insertIntoPage alloc key value fuel (n.findChildPageIdBinary key)
      (pid :: descent)) >>= _).Returns P _
    rw [hfocus.childPage]
    refine (ih hfocus.child hfocus.low hfocus.high ?_ ?_ hdiv.2).bind ?_
    · intro hstrict hmem
      exact hkey hstrict (by rw [map_add]; exact mem_add.mpr (.inl hmem))
    · exact forall_mem_cons.mpr ⟨hout.1, fun p hp hmem =>
        hdescent p hp (Finset.mem_insert_of_mem (Finset.mem_union_left _ hmem))⟩
    · rintro r P' ⟨o₁', hf', hrw, hthread⟩
      -- the siblings and the node itself are as before
      have huse := Pages.inUse_of_get hget
      obtain ⟨hget', hout'⟩ := hrw.same_of_notMem huse hout.1
      rw [hget] at hget'
      have hrow := hfocus.replaceTree hrw hf'
      rw [cons_add] at hrow
      have hrw' := (hrw.frame o₂).frame_insert pid
      have hout'' : pid ∉ o₁' ∪ o₂ := by rw [Finset.mem_union, not_or]; exact ⟨hout', hout.2⟩
      have hthread' : alloc.SkipsZero → ∀ f e, Links P (h + 1) pid f e →
          Threaded (Links P' h) Linked n.leftmost (pre ++ fence r ++ post) f e := fun hz f e hl =>
        hfocus.threaded hrw (hthread hz) ((links_internal hget).mp hl)
      cases r with
      | none =>
        simp only [fence, append_nil, ← hfocus.seps] at hrow hthread'
        exact Returns.pure ⟨_, subtree_internal hget' hn hrow hout'', hrw', fun hz f e hl =>
          (links_internal hget').mpr (hthread' hz f e hl)⟩
      | some result =>
        refine (insertIntoInternal_spec hget' hn hfocus.seps hfocus.nodup hrow hout'' hdiv.1).mono ?_
        rintro r P'' ⟨o'', hf'', hrw'', hthread''⟩
        exact ⟨o'', hf'', hrw'.trans hrw'', fun hz f e hl => hthread'' f e (hthread' hz f e hl)⟩

/-- An insertion that comes to a full leaf without entries fails, and writes no page. -/
theorem insertIntoPage_of_not_divides (alloc : Allocator κ v) (key : κ) (value : v) (descent : List ℕ)
    (hdiv : ¬ ∀ page ∈ searchPath P key fuel pid, page.Divides false) :
    ∃ e P', insertIntoPage alloc key value fuel pid descent P = (.error e, P') ∧
      ∀ p, P.InUse p → P'.get p = P.get p := by
  induction fuel generalizing pid descent with
  | zero => exact absurd nofun hdiv
  | succ fuel ih =>
    rw [insertIntoPage]
    by_cases hcycle : pid ∈ descent
    · rw [if_pos hcycle]
      exact ⟨_, P, rfl, fun _ _ => rfl⟩
    · rw [if_neg hcycle]
      rw [searchPath] at hdiv
      cases hget : P.get pid with
      | none =>
        rw [hget] at hdiv
        exact absurd nofun hdiv
      | some page =>
        rw [hget] at hdiv
        rw [bind_of_ok (loadPage_eq hget)]
        cases page with
        | raw => exact absurd (forall_mem_singleton.mpr trivial) hdiv
        | leaf l =>
          obtain ⟨hfull, hnil⟩ := not_or.mp fun h => hdiv (forall_mem_singleton.mpr h)
          refine ⟨_, _, insertIntoLeaf_of_nil hfull
            (length_eq_zero_iff.mp (Nat.lt_one_iff.mp (Nat.not_le.mp hnil))), ?_⟩
          intro p hp
          rw [Pages.get_alloc, if_neg]
          rintro rfl
          exact hp.ne_none (alloc.fresh P)
        | internal n =>
          obtain ⟨e, P', herr, hsame⟩ :=
            ih (pid :: descent) fun h => hdiv (forall_mem_cons.mpr ⟨nofun, h⟩)
          exact ⟨e, P', bind_of_error herr, hsame⟩

end RTsql.Storage.BTree

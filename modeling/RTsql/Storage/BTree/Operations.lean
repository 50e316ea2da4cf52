import RTsql.Storage.BTree.Insert
import RTsql.Storage.BTree.Delete
import RTsql.Storage.BTree.Duplicates

/-!
# What the operations on trees do

`Tree.Holds strict t m`: the pages of the tree have its shape, with the entries `m`, and no other
page is in use. Every operation leads from one such tree to another, and says so, or
leaves the tree as it is.
-/

namespace RTsql.Storage.BTree

open RTsql.Library Proc

variable {κ v : Type} [LinearOrder κ]

/-! ### Update -/

section Update

variable {strict : Bool} {P : Pages κ v} {h pid fuel : ℕ} {lo key k : κ} {hi : WithTop κ}
  {m : Multiset (κ × v)} {o : Finset ℕ} {value x : v}

/-- The entries, with another value for the key. -/
def setValue (key : κ) (value : v) (e : κ × v) : κ × v := if e.1 = key then (e.1, value) else e

@[simp] theorem fst_setValue (key : κ) (value : v) (e : κ × v) : (setValue key value e).1 = e.1 := by
  unfold setValue
  split <;> rfl

theorem mem_map_setValue_self : (key, x) ∈ m.map (setValue key value) ↔ key ∈ m.map Prod.fst ∧
    x = value := by
  simp only [Multiset.mem_map, setValue]
  constructor
  · rintro ⟨e, he, heq⟩
    by_cases hkey : e.1 = key
    · rw [if_pos hkey] at heq
      exact ⟨⟨e, he, hkey⟩, (congrArg Prod.snd heq).symm⟩
    · rw [if_neg hkey] at heq
      exact absurd (congrArg Prod.fst heq) hkey
  · rintro ⟨⟨e, he, rfl⟩, rfl⟩
    exact ⟨e, he, if_pos rfl⟩

theorem mem_map_setValue_of_ne (hk : k ≠ key) : (k, x) ∈ m.map (setValue key value) ↔ (k, x) ∈ m := by
  simp only [Multiset.mem_map, setValue]
  constructor
  · rintro ⟨e, he, heq⟩
    by_cases hkey : e.1 = key
    · rw [if_pos hkey] at heq
      exact absurd (congrArg Prod.fst heq).symm (hkey ▸ hk)
    · rw [if_neg hkey] at heq
      exact heq ▸ he
  · exact fun he => ⟨(k, x), he, if_neg hk⟩

theorem Within.map_setValue {l : List (κ × v)} (hl : Within strict l lo hi) :
    Within strict (l.map (setValue key value)) lo hi where
  before := hl.before
  ascend := by
    refine List.pairwise_map.mpr (hl.ascend.imp fun hab => ?_)
    simpa using hab
  bounds e he := by
    obtain ⟨e', he', rfl⟩ := List.mem_map.mp he
    simpa using hl.bounds e' he'

/-- **Update**: the leaf that a search finds gets the value for the key, if it has the key;
otherwise nothing changes. -/
theorem updateInPage_spec (value : v) (t : Subtree strict P h pid lo hi m o) (hlo : lo ≤ key)
    (hhi : Before strict (key : WithTop κ) hi) (hfuel : h < fuel) :
    ((updateInPage key value fuel pid).Returns P fun _ P' => ∃ m₁ m₂, m = m₁ + m₂ ∧
        key ∈ m₁.map Prod.fst ∧ (strict = true → ∀ e ∈ m₂, e.1 ≠ key) ∧
        Subtree strict P' h pid lo hi (m₁.map (setValue key value) + m₂) o ∧ Rewrites P P' o o ∧
        ((∀ l : LeafNode κ v, Page.leaf l ∈ searchPath P key fuel pid →
          key ∈ l.entries.map Prod.fst → l.next = 0) → Threads P P' h pid ([] : List (κ × ℕ)))) ∨
      (updateInPage key value fuel pid P = (.error .keyNotFound, P) ∧
        (strict = true → key ∉ m.map Prod.fst)) := by
  induction h, fuel, hfuel using fuel_induction generalizing pid lo hi m o with
  | zero fuel =>
    obtain ⟨l, hget, hl, rfl, rfl⟩ := t
    by_cases hkey : key ∈ l.entries.map Prod.fst
    · obtain ⟨l', hupd, hentries⟩ := LeafNode.update_spec value hl.ascend hkey
      refine .inl (loadPage_bind hget (Returns.lift_bind hupd
        ⟨(), _, rfl, l.entries, 0, (add_zero _).symm, hkey, ?_, ?_, ?_, fun hlast => ?_⟩))
      · exact fun _ e he => absurd he (Multiset.notMem_zero e)
      · refine ⟨l', by simp, ?_, ?_, rfl⟩
        · rw [hentries]
          exact hl.map_setValue
        · rw [hentries, add_zero]
          rfl
      · exact Rewrites.write (Pages.inUse_of_get hget) (Finset.mem_singleton_self pid)
      · refine threads_leaf (m := l') hget (by simp) ?_
        rw [LeafNode.next_update hupd,
          hlast l (by rw [searchPath, hget]; exact List.mem_singleton_self _) hkey]
    · right
      refine ⟨?_, fun _ => by simpa using hkey⟩
      rw [updateInPage, bind_of_ok (loadPage_eq hget)]
      exact bind_of_error (by rw [LeafNode.update_of_notMem hkey]; rfl)
  | succ h fuel hfuel ih =>
    obtain ⟨n, hn, o', hget, hf, hout, rfl⟩ := t
    obtain ⟨pre, post, m₁, m₂, o₁, o₂, hfocus, rfl, rfl⟩ := exists_focus hf hlo hhi
    rcases ih hfocus.child hfocus.low hfocus.high with hupd | ⟨herr, hkey⟩
    · left
      refine loadPage_bind hget ?_
      show (updateInPage key value fuel (n.findChildPageIdBinary key)).Returns P _
      rw [hfocus.childPage]
      refine hupd.mono ?_
      rintro ⟨⟩ P' ⟨m₃, m₄, rfl, hmem, hothers, t', hrw, hthread⟩
      rw [Finset.mem_union, not_or] at hout
      obtain ⟨hget', hout'⟩ := hrw.same_of_notMem (Pages.inUse_of_get hget) hout.1
      rw [hget] at hget'
      have hrow := hfocus.replaceTree hrw (show Fenced _ _ [] _ _ _ _ from t')
      rw [List.append_nil, ← hfocus.seps] at hrow
      refine ⟨m₃, m₄ + m₂, add_assoc .., hmem, ?_, ?_, (hrw.frame o₂).frame_insert pid,
        fun hlast f e hl => ?_⟩
      · intro hstrict e he
        rcases Multiset.mem_add.mp he with he | he
        · exact hothers hstrict e he
        · exact hfocus.others hstrict e he
      · rw [← add_assoc]
        exact ⟨n, hn, o₁ ∪ o₂, hget', hrow, by rw [Finset.mem_union, not_or]; exact hout, rfl⟩
      · rw [searchPath, hget] at hlast
        dsimp only at hlast
        rw [hfocus.childPage] at hlast
        have ht := hfocus.threaded hrw (hthread fun l hl => hlast l (List.mem_cons_of_mem _ hl))
          ((links_internal hget).mp hl)
        rw [List.append_nil, ← hfocus.seps] at ht
        exact (links_internal hget').mpr ht
    · right
      refine ⟨?_, ?_⟩
      · rw [updateInPage, bind_of_ok (loadPage_eq hget)]
        show updateInPage key value fuel (n.findChildPageIdBinary key) P = _
        rw [hfocus.childPage, herr]
      · rintro rfl hmem
        exact hkey rfl (hfocus.mem_child hmem)

end Update

/-! ### The root grows -/

section Grow

variable {strict : Bool} {alloc : Allocator κ v} {P : Pages κ v} {h pid : ℕ} {lo : κ} {hi : WithTop κ}
  {m : Multiset (κ × v)} {o : Finset ℕ} {result : SplitResult κ}

theorem growRoot_spec (hf : Fenced (Subtree strict P h) pid (fence (some result)) lo hi m o) :
    (growRoot alloc pid result).Returns P fun root P' => ∃ o',
    Subtree strict P' (h + 1) root lo hi m o' ∧
      Rewrites P P' o o' ∧
        ∀ f e, Threaded (Links P h) Linked pid (fence (some result)) f e →
        Links P' (h + 1) root f e := by
  have huse := inUse_of_fenced hf fun _ _ _ _ _ t => t.inUse
  have hfresh : alloc.pick P ∉ o := fun hq => (huse _ hq).ne_none (alloc.fresh P)
  obtain ⟨n, hbuild, hseps, hleft, hcompact⟩ := InternalNode.build_spec (κ := κ) pid [] (Nat.zero_le _)
  obtain ⟨n', hins, hseps', hleft', hcompact'⟩ :=
    InternalNode.insertSeparator_spec result.middleKey result.newPage
    (hcompact.hasRoom (by rw [hseps]; exact Nat.succ_pos _)) (show n.seps = [] ++ [] from hseps)
    (by rw [hseps]; exact List.nodup_singleton _)
  rw [show lastKid n.leftmost ([] : List (κ × ℕ)) = pid from hleft] at hins
  have hsame : ∀ p ∈ o, ((P.push (.alloc (alloc.pick P))).push
    (.write (alloc.pick P) (.internal n'))).get p = P.get p :=
    fun p hp => by simp [ne_of_mem_of_not_mem hp hfresh]
  refine allocatePage_bind (Returns.lift_bind hbuild
    (Returns.lift_bind hins (writeInternal_bind (Returns.pure
    ⟨insert (alloc.pick P) o, subtree_internal (n := n') (by simp) ?_ ?_ hfresh, ?_, fun f e ht =>
      ?_⟩))))
  · exact InternalNode.sound_of (by rw [hseps']; simp) fun _ => hcompact' hcompact
  · rw [hseps', hleft', hleft]
    exact fenced_congr hf hsame
  · refine (Rewrites.alloc (alloc.fresh P)).trans (Rewrites.write ?_ (Finset.mem_insert_self _ _))
    simp [Pages.InUse]
  · refine (links_internal (n := n') (by simp)).mpr ?_
    rw [hseps', hleft', hleft]
    exact threaded_congr ht hf hsame

end Grow

/-! ### Trees -/

section Perform

variable {κ v : Type} {t : Tree κ v} {act : TreeAction κ v ℕ}

theorem Tree.perform_of_returns {Q : ℕ → Pages κ v → Prop} (h : act.Returns t.pages Q) :
    ∃ root P, t.perform act = (.ok (), ⟨P, root⟩) ∧ Q root P := by
  obtain ⟨root, P, hrun, hq⟩ := h
  exact ⟨root, P, by rw [Tree.perform, hrun], hq⟩

theorem Tree.perform_of_error {e : TreeError} (h : act t.pages = (.error e, t.pages)) :
    t.perform act = (.error e, t) := by
  rw [Tree.perform, h]

end Perform

variable [OrderBot κ]

/-- The tree has the shape, on the pages `o`, with the entries `m`. -/
def Tree.Stores (strict : Bool) (t : Tree κ v) (m : Multiset (κ × v)) (o : Finset ℕ) : Prop :=
  ∃ h, Subtree strict t.pages h t.root ⊥ ⊤ m o

/-- In addition, no other page is in use. -/
structure Tree.Holds (strict : Bool) (t : Tree κ v) (m : Multiset (κ × v)) : Prop where
  stores : ∃ o, t.Stores strict m o ∧ ∀ pid, t.pages.InUse pid → pid ∈ o
  balanced : t.pages.Balanced

namespace Tree

variable {strict : Bool} {t t' : Tree κ v} {m m' : Multiset (κ × v)} {o o' : Finset ℕ}
  {alloc : Allocator κ v} {key : κ} {value : v}

/-- The pages on the way to the key have room, or can be divided. -/
def Divides (strict : Bool) (t : Tree κ v) (key : κ) : Prop :=
  ∀ page ∈ searchPath t.pages key t.pages.mark t.root, page.Divides strict

instance : Decidable (t.Divides strict key) := inferInstanceAs (Decidable (∀ page ∈ _, _))

/-- The separators of the root. -/
def rootKeys (t : Tree κ v) : List κ :=
  match t.pages.get t.root with
  | some (.internal n) => n.seps.map Prod.fst
  | _ => []

/-- A new tree is empty. -/
theorem stores_new (strict : Bool) (alloc : Allocator κ v) :
    (Tree.new alloc).Stores strict 0 {alloc.pick Pages.empty} :=
  ⟨0, LeafNode.init, by simp [new], ⟨before_top _, List.Pairwise.nil, nofun⟩, rfl, rfl⟩

/-- An operation that returns the root of a tree. -/
theorem stores_of_returns {act : TreeAction κ v ℕ}
    (hact : act.Returns t.pages fun root P => ∃ h' o', Subtree strict P h' root ⊥ ⊤ m' o' ∧
      Rewrites t.pages P o o') :
    ∃ t' o', t.perform act = (.ok (), t') ∧ t'.Stores strict m' o' ∧ Rewrites t.pages t'.pages o o' := by
  obtain ⟨root, P, hrun, h', o', t', hrw⟩ := perform_of_returns hact
  exact ⟨⟨P, root⟩, o', hrun, ⟨h', t'⟩, hrw⟩

namespace Stores

theorem nodup_keys (ht : t.Stores true m o) : (m.map Prod.fst).Nodup := by
  obtain ⟨h, hs⟩ := ht
  exact hs.nodup_keys

theorem search (ht : t.Stores true m o) (key : κ) :
    ∃ r, t.search key = .ok r ∧ ∀ value, r = some value ↔ (key, value) ∈ m := by
  obtain ⟨h, hs⟩ := ht
  obtain ⟨r, P, hrun, -, hr⟩ :=
    searchFromPage_spec hs (bot_le (a := key)) (WithTop.coe_lt_top key) hs.height_lt_mark
  exact ⟨r, by rw [Tree.search, hrun], hr⟩

theorem searchAll (ht : t.Stores strict m o) (key : κ) :
    ∃ r, t.searchAll key = .ok r ∧ (r : Multiset v) = valuesOf key m := by
  obtain ⟨h, hs⟩ := ht
  obtain ⟨r, P, hrun, -, hr⟩ := searchAllFromPage_spec key hs hs.height_lt_mark
  exact ⟨r, by rw [Tree.searchAll, hrun], hr⟩

theorem insert (alloc : Allocator κ v) (value : v) (ht : t.Stores strict m o)
    (hkey : strict = true → key ∉ m.map Prod.fst) (hdiv : t.Divides strict key) :
    ∃ t' o', t.insert alloc key value = (.ok (), t') ∧ t'.Stores strict ((key, value) ::ₘ m) o' ∧
      Rewrites t.pages t'.pages o o' := by
  obtain ⟨h, hs⟩ := ht
  refine stores_of_returns ?_
  refine (insertIntoPage_spec hs bot_le (before_top key) hkey hs.height_lt_mark (by simp) hdiv).bind ?_
  rintro (_ | result) P ⟨o', hf, hrw, -⟩
  · exact Returns.pure ⟨h, o', hf, hrw⟩
  · refine (growRoot_spec hf).mono ?_
    rintro root P' ⟨o'', t', hrw', -⟩
    exact ⟨h + 1, o'', t', hrw.trans hrw'⟩

/-- **An insertion that comes to a full leaf without entries** fails, and the tree is as before. -/
theorem insert_of_not_divides (alloc : Allocator κ v) (value : v) (ht : t.Stores strict m o)
    (hdiv : ¬ t.Divides false key) :
    ∃ e t', t.insert alloc key value = (.error e, t') ∧ t'.Stores strict m o := by
  obtain ⟨h, hs⟩ := ht
  obtain ⟨e, P, hrun, hsame⟩ := insertIntoPage_of_not_divides alloc key value [] hdiv
  refine ⟨e, ⟨P, t.root⟩, ?_, h, hs.congr fun pid hpid => hsame pid (hs.inUse pid hpid)⟩
  rw [Tree.insert, perform, bind_of_error hrun]

theorem update (key : κ) (value : v) (ht : t.Stores strict m o) :
    (∃ t' m₁ m₂, t.update key value = (.ok (), t') ∧ m = m₁ + m₂ ∧ key ∈ m₁.map Prod.fst ∧
        (strict = true → ∀ e ∈ m₂, e.1 ≠ key) ∧
        t'.Stores strict (m₁.map (setValue key value) + m₂) o ∧ Rewrites t.pages t'.pages o o) ∨
      (t.update key value = (.error .keyNotFound, t) ∧ (strict = true → key ∉ m.map Prod.fst)) := by
  obtain ⟨h, hs⟩ := ht
  rcases updateInPage_spec value hs bot_le (before_top key) hs.height_lt_mark with
    ⟨⟨⟩, P, hrun, m₁, m₂, hm, hmem, hothers, t', hrw, -⟩ | ⟨herr, hkey⟩
  · refine .inl ⟨⟨P, t.root⟩, m₁, m₂, ?_, hm, hmem, hothers, ⟨h, t'⟩, hrw⟩
    rw [Tree.update, perform, bind_of_ok hrun]
    rfl
  · refine .inr ⟨perform_of_error (bind_of_error herr), hkey⟩

theorem update_of_notMem (value : v) (ht : t.Stores strict m o) (hkey : key ∉ m.map Prod.fst) :
    t.update key value = (.error .keyNotFound, t) := by
  rcases ht.update key value with ⟨t', m₁, m₂, -, rfl, hmem, -⟩ | ⟨herr, -⟩
  · exact absurd (by rw [Multiset.map_add]; exact Multiset.mem_add.mpr (.inl hmem)) hkey
  · exact herr

theorem delete (ht : t.Stores true m o) (hkey : key ∈ m.map Prod.fst) :
    ∃ t' o' value m', t.delete key = (.ok (), t') ∧ m = (key, value) ::ₘ m' ∧ t'.Stores true m' o' ∧
      Rewrites t.pages t'.pages o o' := by
  obtain ⟨h, hs⟩ := ht
  obtain ⟨r, P, hrun, value, m', h', o', hm, t', hrw, -⟩ :=
    deleteFromPage_spec hs bot_le (WithTop.coe_lt_top key) hkey hs.height_lt_mark
  refine ⟨⟨P, rootAfter t.root r⟩, o', value, m', ?_, hm, ⟨h', t'⟩, hrw⟩
  rw [Tree.delete, perform, bind_of_ok hrun]
  match r with
  | none | some ⟨_, none⟩ | some ⟨_, some _⟩ => rfl

theorem delete_of_notMem (ht : t.Stores true m o) (hkey : key ∉ m.map Prod.fst) :
    t.delete key = (.error .keyNotFound, t) := by
  obtain ⟨h, hs⟩ := ht
  exact perform_of_error (bind_of_error
    (deleteFromPage_of_notMem hs bot_le (WithTop.coe_lt_top key) hkey hs.height_lt_mark))

theorem deleteExact [DecidableEq v] (ht : t.Stores strict m o) (hmem : (key, value) ∈ m) :
    ∃ t' o', t.deleteExact key value = (.ok (), t') ∧ t'.Stores strict (m.erase (key, value)) o' ∧
      Rewrites t.pages t'.pages o o' := by
  obtain ⟨h, hs⟩ := ht
  refine stores_of_returns (((deleteExactFromPage_spec hs hs.height_lt_mark).1 hmem).bind ?_)
  rintro ⟨⟩ P ⟨t', hrw, -⟩
  exact Returns.pure ⟨h, o, t', hrw⟩

theorem deleteExact_of_notMem [DecidableEq v] (ht : t.Stores strict m o) (hmem : (key, value) ∉ m) :
    t.deleteExact key value = (.error .keyNotFound, t) := by
  obtain ⟨h, hs⟩ := ht
  exact perform_of_error (bind_of_error ((deleteExactFromPage_spec hs hs.height_lt_mark).2 hmem))

end Stores

theorem holds_new (strict : Bool) (alloc : Allocator κ v) : (Tree.new alloc).Holds strict 0 where
  stores := by
    refine ⟨_, stores_new strict alloc, fun pid hin => ?_⟩
    by_contra hne
    rw [Finset.mem_singleton] at hne
    simp [Pages.InUse, new, hne] at hin
  balanced := (Pages.balanced_empty.alloc rfl).write (by simp [Pages.InUse])

/-- An operation that rewrites the pages of the tree, and no others. -/
theorem Holds.of_rewrites (hall : ∀ pid, t.pages.InUse pid → pid ∈ o) (hbal : t.pages.Balanced)
    (ht' : t'.Stores strict m' o') (hrw : Rewrites t.pages t'.pages o o') : t'.Holds strict m' where
  stores := by
    refine ⟨o', ht', fun pid hin => ?_⟩
    by_contra hout
    by_cases hpid : pid ∈ o
    · exact hin.ne_none (hrw.gone pid hpid hout)
    · refine hpid (hall pid ?_)
      show (t.pages.get pid).isSome = true
      rwa [← hrw.keep pid hpid hout]
  balanced := hrw.balanced hbal

namespace Holds

theorem nodup_keys (ht : t.Holds true m) : (m.map Prod.fst).Nodup := by
  obtain ⟨o, hs, -⟩ := ht.stores
  exact hs.nodup_keys

theorem search (ht : t.Holds true m) (key : κ) :
    ∃ r, t.search key = .ok r ∧ ∀ value, r = some value ↔ (key, value) ∈ m := by
  obtain ⟨o, hs, -⟩ := ht.stores
  exact hs.search key

theorem insert (alloc : Allocator κ v) (value : v) (ht : t.Holds strict m)
    (hkey : strict = true → key ∉ m.map Prod.fst) (hdiv : t.Divides strict key) :
    ∃ t', t.insert alloc key value = (.ok (), t') ∧ t'.Holds strict ((key, value) ::ₘ m) := by
  obtain ⟨o, hs, hall⟩ := ht.stores
  obtain ⟨t', o', hins, hs', hrw⟩ := hs.insert alloc value hkey hdiv
  exact ⟨t', hins, of_rewrites hall ht.balanced hs' hrw⟩

theorem update (key : κ) (value : v) (ht : t.Holds strict m) :
    (∃ t' m₁ m₂, t.update key value = (.ok (), t') ∧ m = m₁ + m₂ ∧ key ∈ m₁.map Prod.fst ∧
        (strict = true → ∀ e ∈ m₂, e.1 ≠ key) ∧ t'.Holds strict (m₁.map (setValue key value) + m₂)) ∨
      (t.update key value = (.error .keyNotFound, t) ∧ (strict = true → key ∉ m.map Prod.fst)) := by
  obtain ⟨o, hs, hall⟩ := ht.stores
  rcases hs.update key value with ⟨t', m₁, m₂, hupd, hm, hmem, hothers, hs', hrw⟩ | herr
  · exact .inl ⟨t', m₁, m₂, hupd, hm, hmem, hothers, of_rewrites hall ht.balanced hs' hrw⟩
  · exact .inr herr

theorem delete (ht : t.Holds true m) (hkey : key ∈ m.map Prod.fst) :
    ∃ t' value m', t.delete key = (.ok (), t') ∧ m = (key, value) ::ₘ m' ∧ t'.Holds true m' := by
  obtain ⟨o, hs, hall⟩ := ht.stores
  obtain ⟨t', o', value, m', hdel, hm, hs', hrw⟩ := hs.delete hkey
  exact ⟨t', value, m', hdel, hm, of_rewrites hall ht.balanced hs' hrw⟩

theorem deleteExact [DecidableEq v] (ht : t.Holds strict m) (hmem : (key, value) ∈ m) :
    ∃ t', t.deleteExact key value = (.ok (), t') ∧ t'.Holds strict (m.erase (key, value)) := by
  obtain ⟨o, hs, hall⟩ := ht.stores
  obtain ⟨t', o', hdel, hs', hrw⟩ := hs.deleteExact hmem
  exact ⟨t', hdel, of_rewrites hall ht.balanced hs' hrw⟩

end Holds

end Tree

end RTsql.Storage.BTree

import RTsql.Storage.BTree.NodeSpec
import RTsql.Storage.BTree.Tree
import Mathlib.Data.Multiset.MapFold
import Mathlib.Data.Finset.Card

/-!
# The shape of a tree

`Subtree strict P h pid lo hi m o`: from page `pid` on, the pages `P` are a tree of height `h`. Its
keys lie from `lo` on and before `hi`, it holds the entries `m` and occupies the pages `o`. In
a strict tree keys are unique, and bounds half open; otherwise equal keys lie on both
sides of a separator.

An operation turns the pages `o` of a tree into the pages `o'` of another: `Rewrites P P' o o'`
says that nothing else changes, and that pages are allocated and freed in turn. Since a tree
is determined by its pages (`Subtree.congr`), whatever lies outside stays what it was.
-/

namespace RTsql.Storage.BTree

open Finset List RTsql.Library
open Multiset (map_add mem_add mem_map)

variable {κ v : Type} {o : Finset ℕ} {m : Multiset (κ × v)} {hi : WithTop κ} {P : Pages κ v}

/-! ### Pages in use -/

namespace PageWrite

/-- It gives the page out. -/
def allocates (pid : ℕ) : PageWrite κ v → Bool
  | alloc p => p = pid
  | _ => false

/-- It takes the page back. -/
def frees (pid : ℕ) : PageWrite κ v → Bool
  | free p => p = pid
  | _ => false

end PageWrite

namespace Pages

/-- The page is in use. -/
def InUse (P : Pages κ v) (pid : ℕ) : Prop := (P.get pid).isSome

/-- Each page was freed as often as it was allocated, but for the last time if it is in use. -/
def Balanced (P : Pages κ v) : Prop :=
  ∀ pid, P.log.countP (PageWrite.allocates pid) =
    P.log.countP (PageWrite.frees pid) + if (P.get pid).isSome then 1 else 0

variable {pid : ℕ} {page : Page κ v}

theorem balanced_empty : (empty : Pages κ v).Balanced := fun _ => rfl

/-- One more step, of which only the page it is about need be looked at. -/
theorem Balanced.push {w : PageWrite κ v} (h : P.Balanced)
    (hw : (if w.allocates w.pid then 1 else 0) + (if (P.get w.pid).isSome then 1 else 0) =
      (if w.frees w.pid then 1 else 0) + if w.result.isSome then 1 else 0) : (P.push w).Balanced := by
  intro pid
  show (w :: P.log).countP _ = (w :: P.log).countP _ + _
  rw [countP_cons, countP_cons, h pid, get_push]
  obtain rfl | heq := eq_or_ne pid w.pid
  · rw [if_pos rfl]
    omega
  · have halloc : w.allocates pid = false := by
      cases w with
      | alloc p => exact decide_eq_false (Ne.symm heq)
      | write p page | free p => rfl
    have hfree : w.frees pid = false := by
      cases w with
      | alloc p | write p page => rfl
      | free p => exact decide_eq_false (Ne.symm heq)
    rw [halloc, hfree, if_neg heq]
    simp

theorem Balanced.alloc (h : P.Balanced) (hpid : P.get pid = none) : (P.push (.alloc pid)).Balanced :=
  h.push (by simp [PageWrite.allocates, PageWrite.frees, PageWrite.pid, PageWrite.result, hpid])

theorem Balanced.write (h : P.Balanced) (hpid : P.InUse pid) : (P.push (.write pid page)).Balanced :=
  h.push (by simp [PageWrite.allocates, PageWrite.frees, PageWrite.pid, PageWrite.result,
    show _ = true from hpid])

theorem Balanced.free (h : P.Balanced) (hpid : P.InUse pid) : (P.push (.free pid)).Balanced :=
  h.push (by simp [PageWrite.allocates, PageWrite.frees, PageWrite.pid, PageWrite.result,
    show _ = true from hpid])

theorem inUse_of_get (h : P.get pid = some page) : P.InUse pid := by rw [InUse, h]; rfl

theorem InUse.ne_none (h : P.InUse pid) : P.get pid ≠ none := Option.isSome_iff_ne_none.mp h

theorem lt_mark (h : P.InUse pid) : pid < P.mark := by
  by_contra hle
  exact h.ne_none (get_of_mark_le (not_lt.mp hle))

/-- There are no more pages in use than were ever used. -/
theorem card_le_mark (h : ∀ p ∈ o, P.InUse p) : o.card ≤ P.mark := by
  have hsub : o ⊆ Finset.range P.mark := fun p hp => Finset.mem_range.mpr (lt_mark (h p hp))
  simpa using Finset.card_le_card hsub

end Pages

/-! ### Changes of the pages -/

/-- From `P` to `P'` the pages `o` became the pages `o'`. -/
structure Rewrites (P P' : Pages κ v) (o o' : Finset ℕ) : Prop where
  keep : ∀ pid ∉ o, pid ∉ o' → P'.get pid = P.get pid
  fresh : ∀ pid ∈ o', pid ∉ o → P.get pid = none
  gone : ∀ pid ∈ o, pid ∉ o' → P'.get pid = none
  balanced : P.Balanced → P'.Balanced
  later : P.log <:+ P'.log

namespace Rewrites

variable {P' P'' : Pages κ v} {o' o'' f : Finset ℕ} {pid : ℕ} {page : Page κ v}

theorem refl (P : Pages κ v) (o : Finset ℕ) : Rewrites P P o o :=
  ⟨fun _ _ _ => rfl, fun _ h h' => absurd h h', fun _ h h' => absurd h h', id, suffix_rfl⟩

theorem write (hin : P.InUse pid) (hpid : pid ∈ o) : Rewrites P (P.push (.write pid page)) o o where
  keep p hp _ := by
    rw [Pages.get_write, if_neg]
    rintro rfl
    exact hp hpid
  fresh _ h h' := absurd h h'
  gone _ h h' := absurd h h'
  balanced h := h.write hin
  later := suffix_cons ..

theorem alloc (hout : P.get pid = none) : Rewrites P (P.push (.alloc pid)) o (insert pid o) where
  keep p _ hp := by
    rw [Pages.get_alloc, if_neg]
    rintro rfl
    exact hp (mem_insert_self _ _)
  fresh p hp hp' := by
    rcases mem_insert.mp hp with rfl | hp
    · exact hout
    · exact absurd hp hp'
  gone _ h h' := absurd (mem_insert_of_mem h) h'
  balanced h := h.alloc hout
  later := suffix_cons ..

theorem free (hin : P.InUse pid) (hpid : pid ∈ o) : Rewrites P (P.push (.free pid)) o (o.erase pid) where
  keep p hp _ := by
    rw [Pages.get_free, if_neg]
    rintro rfl
    exact hp hpid
  fresh _ h h' := absurd (mem_of_mem_erase h) h'
  gone p hp hp' := by
    rw [Pages.get_free, if_pos]
    by_contra hne
    exact hp' (Finset.mem_erase.mpr ⟨hne, hp⟩)
  balanced h := h.free hin
  later := suffix_cons ..

theorem trans (h₁ : Rewrites P P' o o') (h₂ : Rewrites P' P'' o' o'') : Rewrites P P'' o o'' where
  keep p hp hp'' := by
    by_cases hp' : p ∈ o'
    · rw [h₂.gone p hp' hp'', h₁.fresh p hp' hp]
    · rw [h₂.keep p hp' hp'', h₁.keep p hp hp']
  fresh p hp'' hp := by
    by_cases hp' : p ∈ o'
    · exact h₁.fresh p hp' hp
    · rw [← h₁.keep p hp hp', h₂.fresh p hp'' hp']
  gone p hp hp'' := by
    by_cases hp' : p ∈ o'
    · exact h₂.gone p hp' hp''
    · rw [h₂.keep p hp' hp'', h₁.gone p hp hp']
  balanced h := h₂.balanced (h₁.balanced h)
  later := h₁.later.trans h₂.later

section

variable (h : Rewrites P P' o o')

include h

/-- Other pages may stand by. -/
theorem frame (f : Finset ℕ) : Rewrites P P' (o ∪ f) (o' ∪ f) where
  keep p hp hp' := h.keep p (fun hin => hp (mem_union_left _ hin)) fun hin => hp' (mem_union_left _ hin)
  fresh p hp hp' := by
    rcases mem_union.mp hp with hin | hin
    · exact h.fresh p hin fun hin' => hp' (mem_union_left _ hin')
    · exact absurd (mem_union_right _ hin) hp'
  gone p hp hp' := by
    rcases mem_union.mp hp with hin | hin
    · exact h.gone p hin fun hin' => hp' (mem_union_left _ hin')
    · exact absurd (mem_union_right _ hin) hp'
  balanced := h.balanced
  later := h.later

theorem frame_insert (pid : ℕ) : Rewrites P P' (insert pid o) (insert pid o') := by
  have := h.frame {pid}
  rwa [union_comm, union_comm o'] at this

/-- The new pages keep clear of others in use. -/
theorem disjoint (hd : Disjoint o f) (hf : ∀ p ∈ f, P.InUse p) : Disjoint o' f := by
  rw [Finset.disjoint_left] at hd ⊢
  intro p hp hpf
  exact (hf p hpf).ne_none (h.fresh p hp fun hpo => hd hpo hpf)

/-- Others in use stay as they are. -/
theorem same (hd : Disjoint o f) (hf : ∀ p ∈ f, P.InUse p) : ∀ p ∈ f, P'.get p = P.get p := fun p hp =>
  h.keep p (fun hpo => disjoint_left.mp hd hpo hp) fun hpo =>
    disjoint_left.mp (h.disjoint hd hf) hpo hp

theorem same_of_notMem (hin : P.InUse pid) (hpid : pid ∉ o) : P'.get pid = P.get pid ∧ pid ∉ o' := by
  have hd : Disjoint o {pid} := disjoint_singleton_right.mpr hpid
  have hf : ∀ p ∈ ({pid} : Finset ℕ), P.InUse p := fun p hp => Finset.mem_singleton.mp hp ▸ hin
  exact ⟨h.same hd hf pid (Finset.mem_singleton_self _),
    Finset.disjoint_singleton_right.mp (h.disjoint hd hf)⟩

end

end Rewrites

/-! ### Steps on pages -/

section Steps

open Proc

variable {α : Type} {pid : ℕ} {page : Page κ v} {l : LeafNode κ v} {n : InternalNode κ}
  {R : α → Pages κ v → Prop} {f : Unit → TreeAction κ v α}

theorem loadPage_bind {f : Page κ v → TreeAction κ v α} (hget : P.get pid = some page)
    (h : (f page).Returns P R) : (loadPage pid >>= f).Returns P R := Returns.read_bind (by rw [hget]) h

theorem loadPage_eq (hget : P.get pid = some page) : loadPage pid P = (.ok page, P) := by
  rw [loadPage, Proc.read, hget]

theorem loadPage_of_none (hget : P.get pid = none) :
    loadPage pid P = (.error (.pageNotFound pid), P) := by
  rw [loadPage, Proc.read, hget]

theorem loadLeaf_eq (hget : P.get pid = some (.leaf l)) : loadLeaf pid P = (.ok l, P) := by
  rw [loadLeaf, Proc.read, hget]

theorem loadLeaf_bind {f : LeafNode κ v → TreeAction κ v α} (hget : P.get pid = some (.leaf l))
    (h : (f l).Returns P R) : (loadLeaf pid >>= f).Returns P R := Returns.read_bind (by rw [hget]) h

theorem loadInternal_bind {f : InternalNode κ → TreeAction κ v α} (hget : P.get pid = some (.internal n))
    (h : (f n).Returns P R) : (loadInternal pid >>= f).Returns P R := Returns.read_bind (by rw [hget]) h

theorem writeLeaf_bind (h : (f ()).Returns (P.push (.write pid (.leaf l))) R) :
    (writeLeaf pid l >>= f).Returns P R := h

theorem writeInternal_bind (h : (f ()).Returns (P.push (.write pid (.internal n))) R) :
    (writeInternal pid n >>= f).Returns P R := h

theorem allocatePage_bind {alloc : Allocator κ v} {f : ℕ → TreeAction κ v α}
    (h : (f (alloc.pick P)).Returns (P.push (.alloc (alloc.pick P))) R) :
    (allocatePage alloc >>= f).Returns P R := h

theorem freePage_bind (h : (f ()).Returns (P.push (.free pid)) R) : (freePage pid >>= f).Returns P R := h

end Steps

/-- Pages in use, if those of each piece are. -/
theorem inUse_of_fenced {T : ℕ → κ → WithTop κ → Multiset (κ × v) → Finset ℕ → Prop} {c : ℕ}
    {seps : List (κ × ℕ)} {lo : κ}
    (hf : Fenced T c seps lo hi m o) (hT : ∀ c lo hi m o, T c lo hi m o → ∀ p ∈ o, P.InUse p) :
    ∀ p ∈ o, P.InUse p :=
  hf.glue (S := fun _ _ _ o => ∀ p ∈ o, P.InUse p) hT
    fun _ _ _ _ _ _ _ h₁ h₂ _ p hp => (mem_union.mp hp).elim (h₁ p) (h₂ p)

/-! ### Trees -/

variable [LinearOrder κ]

/-- Entries in order, within the bounds. -/
structure Within (strict : Bool) (entries : List (κ × v)) (lo : κ) (hi : WithTop κ) : Prop where
  before : Before strict (lo : WithTop κ) hi
  ascend : Ascend strict entries
  bounds : ∀ e ∈ entries, lo ≤ e.1 ∧ Before strict (e.1 : WithTop κ) hi

namespace Within

variable {strict : Bool} {l r l' : List (κ × v)} {lo s key : κ} {a : κ × v} {value : v}

/-- One more entry. -/
theorem of_perm (hl : Within strict l lo hi) (hlo : lo ≤ key)
    (hhi : Before strict (key : WithTop κ) hi) (hasc : Ascend strict l')
    (hperm : l'.Perm ((key, value) :: l)) : Within strict l' lo hi where
  before := hl.before
  ascend := hasc
  bounds e he := forall_mem_cons.mpr ⟨⟨hlo, hhi⟩, hl.bounds⟩ e (hperm.mem_iff.mp he)

/-- One entry less. -/
theorem of_delete (hl : Within strict l lo hi) (hasc : Ascend strict l')
    (hperm : l.Perm (a :: l')) : Within strict l' lo hi where
  before := hl.before
  ascend := hasc
  bounds e he := hl.bounds e (hperm.mem_iff.mpr (mem_cons_of_mem _ he))

/-- Two halves. In a strict tree the first must not be empty. -/
theorem divide (hw : Within strict (l ++ a :: r) lo hi) (hl : strict = true → l ≠ []) :
    Within strict l lo (a.1 : WithTop κ) ∧ Within strict (a :: r) a.1 hi := by
  obtain ⟨hasc₁, hasc₂, hcross⟩ := pairwise_append.mp hw.ascend
  have hmid := hw.bounds a (mem_append_right _ mem_cons_self)
  refine ⟨⟨?_, hasc₁, fun e he => ?_⟩, hmid.2, hasc₂, fun e he => ?_⟩
  · cases strict with
    | false => exact WithTop.coe_le_coe.mpr hmid.1
    | true =>
      obtain ⟨e, he⟩ := exists_mem_of_ne_nil _ (hl rfl)
      exact before_coe.mpr ((hcross e he a mem_cons_self).of_le (hw.bounds e (mem_append_left _ he)).1)
  · exact ⟨(hw.bounds e (mem_append_left _ he)).1, before_coe.mpr (hcross e he a mem_cons_self)⟩
  · refine ⟨?_, (hw.bounds e (mem_append_right _ he)).2⟩
    rcases mem_cons.mp he with rfl | he
    · exact le_refl _
    · exact ((pairwise_cons.mp hasc₂).1 e he).le

/-- Two rows of entries on both sides of a separator. -/
theorem join (hl : Within strict l lo (s : WithTop κ)) (hr : Within strict r s hi) :
    Within strict (l ++ r) lo hi where
  before := hl.before.trans_le hr.before.le
  ascend := hl.ascend.append hr.ascend fun a ha b hb =>
    (before_coe.mp (hl.bounds a ha).2).trans_le (hr.bounds b hb).1
  bounds := forall_mem_append.mpr
    ⟨fun e he => ⟨(hl.bounds e he).1, (hl.bounds e he).2.trans_le hr.before.le⟩,
    fun e he => ⟨(before_coe.mp hl.before).le.trans (hr.bounds e he).1, (hr.bounds e he).2⟩⟩

end Within

/-- The page is a leaf. -/
def Leaf (strict : Bool) (P : Pages κ v) (pid : ℕ) (lo : κ) (hi : WithTop κ) (m : Multiset (κ × v))
    (o : Finset ℕ) :
    Prop := ∃ l, P.get pid = some (.leaf l) ∧ Within strict l.entries lo hi ∧ m = ↑l.entries ∧ o = {pid}

/-- The page is an internal node whose children are pieces `T`. -/
def Branch (T : ℕ → κ → WithTop κ → Multiset (κ × v) → Finset ℕ → Prop) (P : Pages κ v)
    (n : InternalNode κ)
    (pid : ℕ) (lo : κ) (hi : WithTop κ) (m : Multiset (κ × v)) (o : Finset ℕ) : Prop :=
  ∃ o', P.get pid = some (.internal n) ∧ Fenced T n.leftmost n.seps lo hi m o' ∧ pid ∉ o' ∧
  o = insert pid o'

/-- **A tree** of height `h`, from page `pid` on. -/
def Subtree (strict : Bool) (P : Pages κ v) : ℕ → ℕ → κ → WithTop κ → Multiset (κ × v) → Finset ℕ → Prop
  | 0 => Leaf strict P
  | h + 1 => fun pid lo hi m o => ∃ n, n.Sound strict ∧ Branch (Subtree strict P h) P n pid lo hi m o

namespace Subtree

variable {strict : Bool} {P' : Pages κ v} {h pid : ℕ} {lo : κ}

section

variable (t : Subtree strict P h pid lo hi m o)

include t

theorem mem : pid ∈ o := by
  cases h with
  | zero =>
    obtain ⟨l, -, -, -, rfl⟩ := t
    exact Finset.mem_singleton_self pid
  | succ h =>
    obtain ⟨n, -, o', -, -, -, rfl⟩ := t
    exact Finset.mem_insert_self pid o'

theorem before : Before strict (lo : WithTop κ) hi := by
  induction h generalizing pid lo hi m o with
  | zero =>
    obtain ⟨l, -, hl, -⟩ := t
    exact hl.before
  | succ h ih =>
    obtain ⟨n, -, o', -, hf, -⟩ := t
    exact hf.before fun _ _ _ _ _ t => ih t

/-- A tree is determined by its pages. -/
theorem congr (hsame : ∀ p ∈ o, P'.get p = P.get p) : Subtree strict P' h pid lo hi m o := by
  induction h generalizing pid lo hi m o with
  | zero =>
    obtain ⟨l, hget, hl, rfl, rfl⟩ := t
    exact ⟨l, by rw [hsame pid (Finset.mem_singleton_self pid), hget], hl, rfl, rfl⟩
  | succ h ih =>
    obtain ⟨n, hn, o', hget, hf, hout, rfl⟩ := t
    refine ⟨n, hn, o', by rw [hsame pid (Finset.mem_insert_self pid o'), hget], ?_, hout, rfl⟩
    exact hf.mono fun c lo hi m o'' ho'' t => ih t fun p hp =>
      hsame p (Finset.mem_insert_of_mem (ho'' hp))

theorem inUse : ∀ p ∈ o, P.InUse p := by
  induction h generalizing pid lo hi m o with
  | zero =>
    obtain ⟨l, hget, -, -, rfl⟩ := t
    intro p hp
    rw [Finset.mem_singleton.mp hp]
    exact Pages.inUse_of_get hget
  | succ h ih =>
    obtain ⟨n, -, o', hget, hf, -, rfl⟩ := t
    have hkids := inUse_of_fenced hf fun _ _ _ _ _ t => ih t
    intro p hp
    rcases mem_insert.mp hp with rfl | hp
    · exact Pages.inUse_of_get hget
    · exact hkids p hp

/-- The keys lie within the bounds; in a strict tree they are unique. -/
theorem contents :
    (∀ e ∈ m, lo ≤ e.1 ∧ Before strict (e.1 : WithTop κ) hi) ∧
    (strict = true → (m.map Prod.fst).Nodup) := by
  induction h generalizing pid lo hi m o with
  | zero =>
    obtain ⟨l, -, hl, rfl, -⟩ := t
    refine ⟨hl.bounds, ?_⟩
    rintro rfl
    exact hl.ascend.nodup_keys
  | succ h ih =>
    obtain ⟨n, -, o', -, hf, -, -⟩ := t
    refine (hf.glue (S := fun (lo : κ) hi m _ => Before strict (lo : WithTop κ) hi ∧
      (∀ e ∈ m, lo ≤ e.1 ∧ Before strict (e.1 : WithTop κ) hi) ∧
      (strict = true → (m.map Prod.fst).Nodup))
      (fun _ _ _ _ _ t => ⟨t.before, ih t⟩) ?_).2
    rintro lo s hi m₁ m₂ - - ⟨hb₁, h₁, hnd₁⟩ ⟨hb₂, h₂, hnd₂⟩ -
    refine ⟨hb₁.trans_le hb₂.le, fun e he => ?_, ?_⟩
    · rcases mem_add.mp he with he | he
      · exact ⟨(h₁ e he).1, (h₁ e he).2.trans_le hb₂.le⟩
      · exact ⟨(before_coe.mp hb₁).le.trans (h₂ e he).1, (h₂ e he).2⟩
    · -- keys before the fence differ from those behind it
      rintro rfl
      rw [map_add, Multiset.nodup_add]
      refine ⟨hnd₁ rfl, hnd₂ rfl, Multiset.disjoint_left.mpr fun hk₁ hk₂ => ?_⟩
      obtain ⟨e₁, he₁, rfl⟩ := mem_map.mp hk₁
      obtain ⟨e₂, he₂, heq⟩ := mem_map.mp hk₂
      have hlt : e₁.1 < s := WithTop.coe_lt_coe.mp (h₁ e₁ he₁).2
      exact absurd ((h₂ e₂ he₂).1.trans heq.le) (not_le.mpr hlt)

theorem bounds : ∀ e ∈ m, lo ≤ e.1 ∧ Before strict (e.1 : WithTop κ) hi :=
  t.contents.1

end

theorem nodup_keys (t : Subtree true P h pid lo hi m o) : (m.map Prod.fst).Nodup := t.contents.2 rfl

/-- A tree has more pages than levels above the leaves. -/
theorem height_lt (t : Subtree strict P h pid lo hi m o) : h < o.card := by
  induction h generalizing pid lo hi m o with
  | zero =>
    obtain ⟨l, -, -, -, rfl⟩ := t
    exact Nat.one_pos
  | succ h ih =>
    obtain ⟨n, -, o', -, hf, hout, rfl⟩ := t
    rw [card_insert_of_notMem hout]
    have : h < o'.card := hf.glue (S := fun _ _ _ o => h < o.card) (fun _ _ _ _ _ t => ih t)
      fun _ _ _ _ _ _ _ h₁ _ _ => h₁.trans_le (card_le_card subset_union_left)
    omega

theorem height_lt_mark (t : Subtree strict P h pid lo hi m o) : h < P.mark :=
  t.height_lt.trans_le (Pages.card_le_mark t.inUse)

end Subtree

section Pieces

variable {strict : Bool} {P' : Pages κ v} {h pid c q : ℕ} {n : InternalNode κ} {seps : List (κ × ℕ)}
  {lo : κ}

/-- A row of pieces is determined by its pages, too. -/
theorem fenced_congr (hf : Fenced (Subtree strict P h) c seps lo hi m o)
    (hsame : ∀ p ∈ o, P'.get p = P.get p) : Fenced (Subtree strict P' h) c seps lo hi m o :=
  hf.mono fun _ _ _ _ _ ho' t => t.congr fun p hp => hsame p (ho' hp)

/-- A page above a row of pieces. -/
theorem subtree_internal (hget : P.get pid = some (.internal n)) (hn : n.Sound strict)
    (hf : Fenced (Subtree strict P h) n.leftmost n.seps lo hi m o) (hout : pid ∉ o) :
    Subtree strict P (h + 1) pid lo hi m (insert pid o) := ⟨n, hn, o, hget, hf, hout, rfl⟩

/-- Two pages side by side above a row of pieces. -/
theorem fenced_pair {l r : InternalNode κ} {s : κ} (hl : P.get pid = some (.internal l))
    (hr : P.get q = some (.internal r)) (hls : l.Sound strict) (hrs : r.Sound strict)
    (hf : Fenced (Subtree strict P h) l.leftmost (l.seps ++ (s, r.leftmost) :: r.seps) lo hi m o)
    (hne : pid ≠ q) (hpid : pid ∉ o) (hq : q ∉ o) :
    Fenced (Subtree strict P (h + 1)) pid [(s, q)] lo hi m (insert pid (insert q o)) := by
  obtain ⟨m₁, m₂, o₁, o₂, h₁, h₂, hd, rfl, rfl⟩ := Fenced.append_iff.mp hf
  rw [mem_union, not_or] at hpid hq
  refine ⟨m₁, m₂, insert pid o₁, insert q o₂, subtree_internal hl hls h₁ hpid.1,
    subtree_internal hr hrs h₂ hq.2, ?_, rfl, ?_⟩
  · simp only [disjoint_insert_left, disjoint_insert_right, mem_insert, not_or]
    exact ⟨⟨hne.symm, hq.1⟩, hpid.2, hd⟩
  · rw [insert_union, union_insert]

end Pieces

/-! ### The way to a key -/

/-- The child that a key belongs to, between the separators `pre` and `post`. It holds `m₁` and
occupies `o₁`, its siblings `m₂` and `o₂`. -/
structure Focus (strict : Bool) (P : Pages κ v) (h : ℕ) (n : InternalNode κ) (lo : κ)
    (hi : WithTop κ) (key : κ)
    (pre post : List (κ × ℕ)) (m₁ m₂ : Multiset (κ × v)) (o₁ o₂ : Finset ℕ) : Prop where
  seps : n.seps = pre ++ post
  nodup : (n.leftmost :: n.seps.map Prod.snd).Nodup
  position : n.findChildPosition key = (lastKid n.leftmost pre, pre.length)
  child : Subtree strict P h (lastKid n.leftmost pre) (lastLow lo pre) (firstHigh hi post) m₁ o₁
  low : lastLow lo pre ≤ key
  high : Before strict (key : WithTop κ) (firstHigh hi post)
  disjoint : Disjoint o₁ o₂
  inUse : ∀ p ∈ o₂, P.InUse p
  others : strict = true → ∀ e ∈ m₂, e.1 ≠ key
  replace : ∀ T, (∀ c lo hi m o, o ⊆ o₂ → Subtree strict P h c lo hi m o → T c lo hi m o) → ∀ seg m' o',
    Fenced T (lastKid n.leftmost pre) seg (lastLow lo pre) (firstHigh hi post) m' o' →
    Disjoint o' o₂ → Fenced T n.leftmost (pre ++ seg ++ post) lo hi (m' + m₂) (o' ∪ o₂)

section Focus

variable {strict : Bool} {h : ℕ} {n : InternalNode κ} {lo key : κ} {m₁ m₂ m' : Multiset (κ × v)}
  {pre post seg : List (κ × ℕ)} {o₁ o₂ : Finset ℕ}

/-- **Where a key belongs**, there is a child. -/
theorem exists_focus (hf : Fenced (Subtree strict P h) n.leftmost n.seps lo hi m o) (hlo : lo ≤ key)
    (hhi : Before strict (key : WithTop κ) hi) :
    ∃ pre post m₁ m₂ o₁ o₂, Focus strict P h n lo hi key pre post m₁ m₂ o₁ o₂ ∧ m = m₁ + m₂ ∧
    o = o₁ ∪ o₂ := by
  have hbefore : ∀ c lo hi m o, Subtree strict P h c lo hi m o → Before strict (lo : WithTop κ) hi :=
    fun _ _ _ _ _ t => t.before
  obtain ⟨pre, post, hseps, hpos, hpre, hpost⟩ :=
    n.findChildPosition_spec (hf.fences hbefore).1 key
  have hnodup := hf.nodup_kids fun _ _ _ _ _ t => t.mem
  have huse := inUse_of_fenced hf fun _ _ _ _ _ t => t.inUse
  rw [hseps, ← append_nil pre] at hf
  obtain ⟨m₁, m₂, o₁, o₂, hchild, hd, rfl, rfl, hsum, hrep⟩ := hf.replace
  refine ⟨pre, post, m₁, m₂, o₁, o₂, ?_, rfl, rfl⟩
  exact
    { seps := hseps
      nodup := hnodup
      position := hpos
      child := hchild
      low := lastLow_le hlo hpre
      high := before_firstHigh hhi hpost
      disjoint := hd
      inUse := fun p hp => huse p (mem_union_right _ hp)
      others := by
        rintro rfl
        refine hsum (fun m => ∀ e ∈ m, e.1 ≠ key) (by simp) ?_ ?_
        · exact fun a b ha hb e he => (mem_add.mp he).elim (ha e) (hb e)
        · rintro c lo hi m o t (⟨e', he', rfl⟩ | ⟨e', he', rfl⟩) e he rfl
          · exact absurd (hpre e' he') (not_le.mpr (WithTop.coe_lt_coe.mp (t.bounds e he).2))
          · exact absurd (t.bounds e he).1 (not_le.mpr (hpost e' he'))
      replace := hrep }

theorem Focus.childPage (hfocus : Focus strict P h n lo hi key pre post m₁ m₂ o₁ o₂) :
    n.findChildPageIdBinary key = lastKid n.leftmost pre := congrArg Prod.fst hfocus.position

/-- Where keys are unique, a key of the node is one of the child. -/
theorem Focus.mem_child
    (hfocus : Focus true P h n lo hi key pre post m₁ m₂ o₁ o₂) (hkey : key ∈ (m₁ + m₂).map Prod.fst) :
    key ∈ m₁.map Prod.fst := by
  rw [map_add, mem_add] at hkey
  refine hkey.resolve_right fun hmem => ?_
  obtain ⟨e, he, heq⟩ := mem_map.mp hmem
  exact hfocus.others rfl e he heq

/-- After a change to the child, the siblings are as before. -/
theorem Focus.replaceTree {P' : Pages κ v}
    {o' : Finset ℕ} (hfocus : Focus strict P h n lo hi key pre post m₁ m₂ o₁ o₂)
    (hrw : Rewrites P P' o₁ o')
    (hseg : Fenced (Subtree strict P' h) (lastKid n.leftmost pre) seg (lastLow lo pre)
      (firstHigh hi post) m' o') :
    Fenced (Subtree strict P' h) n.leftmost (pre ++ seg ++ post) lo hi (m' + m₂) (o' ∪ o₂) :=
  hfocus.replace _
    (fun _ _ _ _ _ ho t => t.congr fun p hp =>
      hrw.same hfocus.disjoint hfocus.inUse p (ho hp)) seg m' o' hseg
    (hrw.disjoint hfocus.disjoint hfocus.inUse)

end Focus

/-! ### Search -/

open Proc in
/-- **Search** in a strict tree: it returns the value of the key, if there is one. -/
theorem searchFromPage_spec {h pid fuel : ℕ} {lo key : κ} (t : Subtree true P h pid lo hi m o)
    (hlo : lo ≤ key) (hhi : (key : WithTop κ) < hi) (hfuel : h < fuel) :
    (searchFromPage key fuel pid).Returns P fun r P' => P' = P ∧ ∀ value, r = some value ↔
    (key, value) ∈ m := by
  induction h, fuel, hfuel using fuel_induction generalizing pid lo hi m o with
  | zero fuel =>
    obtain ⟨l, hget, hl, rfl, -⟩ := t
    exact loadPage_bind hget (Returns.pure ⟨rfl, l.find_spec hl.ascend key⟩)
  | succ h fuel hfuel ih =>
    obtain ⟨n, -, o', hget, hf, -, -⟩ := t
    obtain ⟨pre, post, m₁, m₂, o₁, o₂, hfocus, rfl, -⟩ := exists_focus hf hlo hhi
    refine loadPage_bind hget ?_
    dsimp only
    rw [hfocus.childPage]
    refine (ih hfocus.child hfocus.low hfocus.high).mono ?_
    rintro r P' ⟨rfl, hr⟩
    refine ⟨rfl, fun value => ?_⟩
    rw [hr, mem_add]
    exact ⟨.inl, fun hmem => hmem.resolve_right fun hmem => hfocus.others rfl _ hmem rfl⟩

end RTsql.Storage.BTree

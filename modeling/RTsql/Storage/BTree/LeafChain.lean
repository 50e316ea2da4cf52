import RTsql.Storage.BTree.RangeScan
import RTsql.Storage.BTree.Structure

/-!
# The leaf chain

`BTree::scan_all` goes down to the leftmost leaf, and from there along `next_leaf_page_id`; 0 is the
end. So it depends on the links, not on the internal nodes. The leaves in the order of the links are
the leaves from left to right as long as every operation keeps the thread through them. All do but
one: `LeafNode::update` writes its page anew and leaves 0 there.

## What is proved

* `scan_all_in_order` — after every run in which the key of an `update` is in the last leaf or is
  not found, and keys are unique or nothing is merged, the links lead through the leaves from left
  to right, and `scan_all` returns the entries in the order of their keys.
* `scan_all_loses_leaves` — an update in the first of two leaves hides the second.
-/

namespace RTsql.Storage.BTree

open RTsql.Library Proc

variable {κ v : Type} {seps : List (κ × ℕ)}

/-! ### Along the links -/

/-- The loop of `scan_all`, over at most `n` pages. -/
def scanAllFrom : ℕ → ℕ → TreeAction κ v (List (κ × v))
  | 0, _ => Proc.fail .diverges
  | n + 1, pid => do
    match ← loadPage pid with
    | .raw => Proc.fail .invalidPageType
    | .internal node => scanAllFrom n node.leftmost
    | .leaf l =>
      if l.next = 0 then pure l.entries
      else do
        let rest ← scanAllFrom n l.next
        pure (l.entries ++ rest)

/-- `BTree::scan_all`. -/
def Tree.scanAll (t : Tree κ v) : Except TreeError (List (κ × v)) :=
    (scanAllFrom t.pages.mark t.root t.pages).1

/-- The leftmost leaf below a page. -/
def leftmostLeaf (P : Pages κ v) : ℕ → ℕ → ℕ
  | 0, pid => pid
  | n + 1, pid =>
    match P.get pid with
    | some (.internal node) => leftmostLeaf P n node.leftmost
    | _ => pid

/-- The leaves along the links, at most `n`. -/
def nextLeaves (P : Pages κ v) : ℕ → ℕ → List (ℕ × LeafNode κ v)
  | 0, _ => []
  | n + 1, pid =>
    match P.get pid with
    | some (.leaf l) => (pid, l) :: if l.next = 0 then [] else nextLeaves P n l.next
    | _ => []

/-- The links lead from `f` through the leaves to `e`. -/
def LeadsThrough : List (ℕ × LeafNode κ v) → ℕ → ℕ → Prop
  | [], f, e => f = e
  | (pid, l) :: rest, f, e => f = pid ∧ (rest ≠ [] → Linked l.next) ∧ LeadsThrough rest l.next e

section Links

variable {P : Pages κ v} {h fuel pid f e mid c n : ℕ} {leaves a b : List (ℕ × LeafNode κ v)}

theorem LeadsThrough.append (ha : LeadsThrough a f mid) (hmid : Linked mid)
    (hb : LeadsThrough b mid e) : LeadsThrough (a ++ b) f e := by
  induction a generalizing f with
  | nil =>
    obtain rfl : f = mid := ha
    exact hb
  | cons x a ih =>
    obtain ⟨hf, hnext, hrest⟩ := ha
    refine ⟨hf, fun _ => ?_, ih hrest⟩
    by_cases hnil : a = []
    · subst hnil
      have hend : x.2.next = mid := hrest
      rwa [hend]
    · exact hnext hnil

/-- A thread through neighbours. -/
theorem leadsThrough_row {T : ℕ → ℕ → ℕ → Prop} {leaves : ℕ → List (ℕ × LeafNode κ v)}
    (hT : ∀ c f e, T c f e → LeadsThrough (leaves c) f e) (ht : Threaded T Linked c seps f e) :
    LeadsThrough ((c :: seps.map Prod.snd).flatMap leaves) f e := by
  induction seps generalizing c f with
  | nil => simpa using hT c f e ht
  | cons s seps ih =>
    obtain ⟨mid, hmid, hc, hrest⟩ := ht
    exact (hT c f mid hc).append hmid (ih hrest)

/-- **The thread** leads through the leaves from left to right. -/
theorem Links.leadsThrough (hl : Links P h pid f e) (hfuel : h < fuel) :
    LeadsThrough (leafPages P fuel pid) f e := by
  induction h, fuel, hfuel using fuel_induction generalizing pid f e with
  | zero fuel =>
    obtain ⟨rfl, l, hget, rfl⟩ := hl
    rw [leafPages_leaf hget]
    exact ⟨rfl, fun hne => absurd rfl hne, rfl⟩
  | succ h fuel hfuel ih =>
    obtain ⟨n, hget, ht⟩ := hl
    rw [leafPages_internal hget]
    exact leadsThrough_row (T := Links P h) (fun c f e => ih) ht

theorem Links.exists_leftmost (hl : Links P h pid f e) : leftmostLeaf P
    (n + h) pid = leftmostLeaf P n f ∧ scanAllFrom (n + h) pid P = scanAllFrom n f P := by
  induction h generalizing pid e with
  | zero =>
    obtain ⟨rfl, -⟩ := hl
    exact ⟨rfl, rfl⟩
  | succ h ih =>
    obtain ⟨node, hget, ht⟩ := hl
    obtain ⟨mid, hfirst⟩ : ∃ mid, Links P h node.leftmost f mid := by
      cases hseps : node.seps with
      | nil =>
        rw [hseps] at ht
        exact ⟨e, ht⟩
      | cons s seps =>
        rw [hseps] at ht
        obtain ⟨mid, -, hc, -⟩ := ht
        exact ⟨mid, hc⟩
    rw [← Nat.add_assoc, leftmostLeaf, hget, scanAllFrom, bind_of_ok (loadPage_eq hget)]
    exact ih hfirst

theorem leftmostLeaf_leaf {l : LeafNode κ v} (hget : P.get f = some (.leaf l)) (n : ℕ) :
    leftmostLeaf P n f = f := by
  cases n with
  | zero => rfl
  | succ n => rw [leftmostLeaf, hget]

/-- **Along the links** the leaves are read one after the other, up to the end. -/
theorem LeadsThrough.scan (hlead : LeadsThrough leaves f 0) (hget : ∀ x ∈ leaves,
    P.get x.1 = some (.leaf x.2)) (hne : leaves ≠ []) (hlen : leaves.length ≤ n) :
    nextLeaves P n f = leaves ∧ scanAllFrom n f P = (.ok (entriesOf leaves), P) := by
  induction leaves generalizing f n with
  | nil => exact absurd rfl hne
  | cons x leaves ih =>
    obtain ⟨pid, l⟩ := x
    obtain ⟨rfl, hnext, hrest⟩ := hlead
    obtain ⟨n, rfl⟩ := Nat.exists_eq_succ_of_ne_zero (by rw [List.length_cons] at hlen; omega : n ≠ 0)
    have hleaf : P.get f = some (.leaf l) := hget (f, l) List.mem_cons_self
    rw [nextLeaves, hleaf, scanAllFrom, bind_of_ok (loadPage_eq hleaf)]
    dsimp only
    by_cases hnil : leaves = []
    · subst hnil
      have hend : l.next = 0 := hrest
      rw [if_pos hend, if_pos hend]
      exact ⟨rfl, by rw [entriesOf, List.flatMap_singleton]; rfl⟩
    · have hlink := hnext hnil
      obtain ⟨hleaves, hscan⟩ := ih hrest (fun x hx => hget x (List.mem_cons_of_mem _ hx)) hnil
        (Nat.le_of_succ_le_succ hlen)
      rw [if_neg hlink, if_neg hlink, hleaves, bind_of_ok hscan]
      exact ⟨rfl, rfl⟩

end Links

/-! ### The leaves of a tree -/

/-- What is known of the leaves below a page of a tree of height `h` on the pages `o`. -/
structure LeavesOn (P : Pages κ v) (h : ℕ) (o : Finset ℕ) (leaves : List (ℕ × LeafNode κ v)) : Prop where
  get : ∀ x ∈ leaves, P.get x.1 = some (.leaf x.2)
  mem : ∀ x ∈ leaves, x.1 ∈ o
  nodup : (leaves.map Prod.fst).Nodup
  some : leaves ≠ []
  /-- There is a page for each leaf, and for each level above them. -/
  card : leaves.length + h ≤ o.card

section Leaves

variable {strict : Bool} {P : Pages κ v} {h fuel pid c : ℕ} {lo : κ} {hi : WithTop κ}
  {m : Multiset (κ × v)} {o : Finset ℕ}

theorem leavesOn_row {T : ℕ → κ → WithTop κ → Multiset (κ × v) → Finset ℕ → Prop} {leaves : ℕ →
    List (ℕ × LeafNode κ v)} (hT : ∀ c lo hi m o, T c lo hi m o → LeavesOn P h o (leaves c))
    (hf : Fenced T c seps lo hi m o) : LeavesOn P h o ((c :: seps.map Prod.snd).flatMap leaves) := by
  induction seps generalizing c lo m o with
  | nil => simpa using hT c lo hi m o hf
  | cons s seps ih =>
    obtain ⟨m₁, m₂, o₁, o₂, h₁, h₂, hd, -, rfl⟩ := hf
    have hl := hT _ _ _ _ _ h₁
    have hr := ih h₂
    rw [List.map_cons, List.flatMap_cons]
    constructor
    case get => exact fun x hx => (List.mem_append.mp hx).elim (hl.get x) (hr.get x)
    case mem =>
      exact fun x hx => Finset.mem_union.mpr ((List.mem_append.mp hx).imp (hl.mem x) (hr.mem x))
    case nodup =>
      rw [List.map_append]
      refine List.nodup_append.mpr ⟨hl.nodup, hr.nodup, ?_⟩
      rintro a ha _ hb rfl
      obtain ⟨x, hx, rfl⟩ := List.mem_map.mp ha
      obtain ⟨y, hy, heq⟩ := List.mem_map.mp hb
      exact Finset.disjoint_left.mp hd (hl.mem x hx) (heq ▸ hr.mem y hy)
    case some => exact fun hnil => hl.some (List.append_eq_nil_iff.mp hnil).1
    case card =>
      rw [List.length_append, Finset.card_union_of_disjoint hd]
      have := hl.card
      have := hr.card
      omega

variable [LinearOrder κ]

theorem Subtree.leavesOn (t : Subtree strict P h pid lo hi m o) (hfuel : h < fuel) :
    LeavesOn P h o (leafPages P fuel pid) := by
  induction h, fuel, hfuel using fuel_induction generalizing pid lo hi m o with
  | zero fuel =>
    obtain ⟨l, hget, -, -, rfl⟩ := t
    rw [leafPages_leaf hget]
    exact ⟨by simpa using hget, by simp, by simp, List.cons_ne_nil _ _, le_rfl⟩
  | succ h fuel hfuel ih =>
    obtain ⟨n, -, o', hget, hf, hout, rfl⟩ := t
    rw [leafPages_internal hget]
    have hrow := leavesOn_row (T := Subtree strict P h) (fun c lo hi m o => ih) hf
    refine ⟨hrow.get, fun x hx => Finset.mem_insert_of_mem (hrow.mem x hx), hrow.nodup, hrow.some, ?_⟩
    rw [Finset.card_insert_of_notMem hout]
    exact Nat.succ_le_succ hrow.card

end Leaves

/-! ### Trees -/

variable [LinearOrder κ] [OrderBot κ]

/-- A tree with the entries `m`, through which a thread runs to the end. -/
def Tree.Chained (strict : Bool) (t : Tree κ v) (m : Multiset (κ × v)) : Prop :=
  ∃ h o f, Subtree strict t.pages h t.root ⊥ ⊤ m o ∧ Links t.pages h t.root f 0

/-- **The leaf chain is the tree, from left to right**, and `scan_all` reads all of it. -/
structure Tree.InOrder (t : Tree κ v) : Prop where
  /-- From the leftmost leaf, the links lead through the leaves below the root. -/
  chain : nextLeaves t.pages t.pages.mark (leftmostLeaf t.pages t.pages.mark t.root) =
    leafPages t.pages t.pages.mark t.root
  /-- No leaf comes twice. -/
  nodup : ((leafPages t.pages t.pages.mark t.root).map Prod.fst).Nodup
  /-- `scan_all` returns the entries of all leaves. -/
  scan : t.scanAll = .ok (entriesOf (leafPages t.pages t.pages.mark t.root))
  /-- Their keys ascend. -/
  ascend : (entriesOf (leafPages t.pages t.pages.mark t.root)).Pairwise fun a b => a.1 ≤ b.1

theorem Tree.Chained.inOrder {strict : Bool} {t : Tree κ v} {m : Multiset (κ × v)}
    (ht : t.Chained strict m) : t.InOrder := by
  obtain ⟨h, o, f, hs, hl⟩ := ht
  have hmark := hs.height_lt_mark
  have hleaves := hs.leavesOn hmark
  have hcard := hleaves.card.trans (Pages.card_le_mark hs.inUse)
  obtain ⟨n, hn⟩ : ∃ n, t.pages.mark = n + h := ⟨t.pages.mark - h, by omega⟩
  obtain ⟨hleft, hdown⟩ := hl.exists_leftmost (n := n)
  obtain ⟨x, rest, hcons⟩ := List.exists_cons_of_ne_nil hleaves.some
  have hlead := hl.leadsThrough hmark
  have hfirst : t.pages.get f = some (.leaf x.2) := by
    rw [hcons] at hlead hleaves
    rw [hlead.1]
    exact hleaves.get x List.mem_cons_self
  obtain ⟨-, hscan⟩ := hlead.scan hleaves.get hleaves.some (by omega : _ ≤ n)
  constructor
  case chain =>
    have hstart : leftmostLeaf t.pages t.pages.mark t.root = f := by
      rw [hn, hleft, leftmostLeaf_leaf hfirst]
    rw [hstart]
    exact (hlead.scan hleaves.get hleaves.some (by omega)).1
  case nodup => exact hleaves.nodup
  case scan => rw [Tree.scanAll, hn, hdown, hscan, hn]
  case ascend => exact (hs.searchTree.entries hmark).2.ascend

/-! ### Operations -/

namespace Tree.Chained

variable {strict : Bool} {t : Tree κ v} {m : Multiset (κ × v)} {alloc : Allocator κ v} {key : κ}

theorem stores (ht : t.Chained strict m) : ∃ o, t.Stores strict m o := by
  obtain ⟨h, o, f, hs, -⟩ := ht
  exact ⟨o, h, hs⟩

theorem new (strict : Bool) (alloc : Allocator κ v) : (Tree.new alloc).Chained strict 0 :=
  ⟨0, _, _, ⟨LeafNode.init, by simp [Tree.new], ⟨before_top _, List.Pairwise.nil, nofun⟩, rfl, rfl⟩,
    rfl, LeafNode.init, by simp [Tree.new], rfl⟩

/-- An operation that returns the root of a tree with a thread. -/
theorem of_returns {act : TreeAction κ v ℕ} {f : ℕ}
    (hact : act.Returns t.pages fun root P => ∃ h o, Subtree strict P h root ⊥ ⊤ m o ∧
      Links P h root f 0) :
    (t.perform act).2.Chained strict m := by
  obtain ⟨root, P, hrun, h, o, hs, hl⟩ := perform_of_returns hact
  rw [hrun]
  exact ⟨h, o, f, hs, hl⟩

theorem insert (value : v) (hz : alloc.SkipsZero) (ht : t.Chained strict m)
    (hkey : strict = true → key ∉ m.map Prod.fst) (hdiv : t.Divides strict key) :
    (t.insert alloc key value).2.Chained strict ((key, value) ::ₘ m) := by
  obtain ⟨h, o, f, hs, hl⟩ := ht
  refine of_returns (f := f) ?_
  refine (insertIntoPage_spec hs bot_le (before_top key) hkey hs.height_lt_mark (by simp) hdiv).bind ?_
  rintro (_ | result) P ⟨o', hf, -, hthread⟩
  · exact Returns.pure ⟨h, o', hf, hthread hz f 0 hl⟩
  · refine (growRoot_spec hf).mono ?_
    rintro root P' ⟨o'', t', -, hgrow⟩
    exact ⟨h + 1, o'', t', hgrow f 0 (hthread hz f 0 hl)⟩

/-- An insertion that fails because a full leaf has no entries leaves the pages of the tree as they
were. -/
theorem insert_of_not_divides (value : v) (ht : t.Chained strict m) (hdiv : ¬ t.Divides false key) :
    (t.insert alloc key value).2.Chained strict m := by
  obtain ⟨h, o, f, hs, hl⟩ := ht
  obtain ⟨e, P, hrun, hsame⟩ := insertIntoPage_of_not_divides alloc key value [] hdiv
  have hsame' : ∀ p ∈ o, P.get p = t.pages.get p := fun p hp => hsame p (hs.inUse p hp)
  rw [Tree.insert, perform, bind_of_error hrun]
  exact ⟨h, o, f, hs.congr hsame', hl.congr hs hsame'⟩

theorem update (value : v) (ht : t.Chained strict m)
    (hlast : ∀ l : LeafNode κ v, Page.leaf l ∈ searchPath t.pages key t.pages.mark t.root → key ∈
      l.entries.map Prod.fst → l.next = 0) : ∃ m', (t.update key value).2.Chained strict m' := by
  obtain ⟨h, o, f, hs, hl⟩ := ht
  rcases updateInPage_spec value hs bot_le (before_top key) hs.height_lt_mark with
    ⟨⟨⟩, P, hrun, m₁, m₂, -, -, -, t', -, hthread⟩ | ⟨herr, -⟩
  · rw [Tree.update, perform, bind_of_ok hrun]
    exact ⟨_, h, o, f, t', hthread hlast f 0 hl⟩
  · rw [Tree.update, perform_of_error (bind_of_error herr)]
    exact ⟨m, h, o, f, hs, hl⟩

theorem delete (ht : t.Chained true m) (key : κ) : ∃ m', (t.delete key).2.Chained true m' := by
  by_cases hkey : key ∈ m.map Prod.fst
  · obtain ⟨h, o, f, hs, hl⟩ := ht
    obtain ⟨r, P, hrun, value, m', h', o', -, t', -, hthread⟩ :=
      deleteFromPage_spec hs bot_le (WithTop.coe_lt_top key) hkey hs.height_lt_mark
    have hroot : t.delete key = (.ok (), ⟨P, rootAfter t.root r⟩) := by
      rw [Tree.delete, perform, bind_of_ok hrun]
      rcases r with _ | ⟨_, _ | _⟩ <;> rfl
    rw [hroot]
    exact ⟨m', h', o', f, t', hthread f 0 hl⟩
  · obtain ⟨o, hs⟩ := ht.stores
    rw [hs.delete_of_notMem hkey]
    exact ⟨m, ht⟩

theorem deleteExact [DecidableEq v] (ht : t.Chained strict m) (key : κ) (value : v) :
    ∃ m', (t.deleteExact key value).2.Chained strict m' := by
  by_cases hmem : (key, value) ∈ m
  · obtain ⟨h, o, f, hs, hl⟩ := ht
    obtain ⟨⟨⟩, P, hrun, t', -, hthread⟩ := (deleteExactFromPage_spec hs hs.height_lt_mark).1 hmem
    rw [Tree.deleteExact, perform, bind_of_ok hrun]
    exact ⟨_, h, o, f, t', hthread f 0 hl⟩
  · obtain ⟨o, hs⟩ := ht.stores
    rw [hs.deleteExact_of_notMem hmem]
    exact ⟨m, ht⟩

end Tree.Chained

/-! ### Runs -/

namespace Structure

variable [DecidableEq v]

/-- An operation, which may also fail. -/
def attempt (alloc : Allocator κ v) (t : Tree κ v) (op : Op κ v) : Option (Tree κ v) :=
    some (op.perform alloc t).2

/-- The key of an update is in the last leaf, if it is found. -/
def KeepsLinks (t : Tree κ v) : Op κ v → Prop
  | .update key _ => ∀ l : LeafNode κ v, Page.leaf l ∈ searchPath t.pages key t.pages.mark t.root →
    key ∈ l.entries.map Prod.fst → l.next = 0
  | _ => True

variable {alloc : Allocator κ v} {t t' : Tree κ v} {op : Op κ v}

/-- **Unique keys**: any operation. -/
theorem chained_step_unique (hz : alloc.SkipsZero) (ht : ∃ m, t.Chained true m)
    (hok : KeepsLinks t op ∧ KeepsUnique t op)
    (hstep : attempt alloc t op = some t') : ∃ m, t'.Chained true m := by
  obtain ⟨m, ht⟩ := ht
  cases hstep
  cases op with
  | insert key value =>
    obtain ⟨o, hs⟩ := ht.stores
    obtain ⟨r, hr, hmem⟩ := hs.search key
    obtain rfl : none = r := Except.ok.inj (hok.2.1.symm.trans hr)
    refine ⟨_, ht.insert value hz (fun _ hkey => ?_) hok.2.2⟩
    obtain ⟨⟨k, value⟩, he, rfl⟩ := Multiset.mem_map.mp hkey
    exact absurd ((hmem value).mpr he) nofun
  | delete key => exact ht.delete key
  | update key value => exact ht.update value hok.1
  | deleteExact key value => exact ht.deleteExact key value

/-- **Equal keys**: any operation that does not merge pages. -/
theorem chained_step (hz : alloc.SkipsZero) (ht : ∃ m, t.Chained false m) (hok : KeepsLinks t op ∧
    op.merges = false) (hstep : attempt alloc t op = some t') : ∃ m, t'.Chained false m := by
  obtain ⟨m, ht⟩ := ht
  cases hstep
  cases op with
  | insert key value =>
    by_cases hdiv : t.Divides false key
    · exact ⟨_, ht.insert value hz nofun hdiv⟩
    · exact ⟨_, ht.insert_of_not_divides value hdiv⟩
  | delete key => cases hok.2
  | update key value => exact ht.update value hok.1
  | deleteExact key value => exact ht.deleteExact key value

/-- **The leaf chain is in order** after every run of operations, failed ones included, that updates
no key in front of the last leaf: where keys are unique and pages are divided that have entries
enough, or where nothing is merged. -/
theorem scan_all_in_order {alloc : Allocator PaddedKey RowId} (hz : alloc.SkipsZero)
    {t : Tree PaddedKey RowId}
    {ops : List (Op PaddedKey RowId)} (hrun : run (attempt alloc) (Tree.new alloc) ops = some t)
    (hok : Guarded (fun t op => KeepsLinks t op ∧ KeepsUnique t op) (attempt alloc)
      (Tree.new alloc) ops ∨
      Guarded (fun t op => KeepsLinks t op ∧ op.merges = false) (attempt alloc)
        (Tree.new alloc) ops) : t.InOrder := by
  rcases hok with hok | hok
  · obtain ⟨m, ht⟩ := run_invariant (P := fun t => ∃ m, Tree.Chained true t m)
      (fun _ _ _ ht hok hstep => chained_step_unique hz ht hok hstep)
        ⟨0, Tree.Chained.new true alloc⟩ hok hrun
    exact ht.inOrder
  · obtain ⟨m, ht⟩ := run_invariant (P := fun t => ∃ m, Tree.Chained false t m)
      (fun _ _ _ ht hok hstep => chained_step hz ht hok hstep) ⟨0, Tree.Chained.new false alloc⟩ hok hrun
    exact ht.inOrder

theorem skipsZero_next : (Allocator.next PaddedKey RowId).SkipsZero := by
  rintro ⟨log⟩ hne
  cases log with
  | nil => exact absurd rfl hne
  | cons w log =>
    show max _ (w.pid + 1) ≠ 0
    omega

/-- The page is not a leaf before the last. -/
def isLast : Page PaddedKey RowId → Bool
  | .leaf l => l.next = 0
  | _ => true

/-- Two leaves, with an update in the second. -/
theorem scan_all_in_order_two : ∃ t, run (attempt (Allocator.next PaddedKey RowId))
    (Tree.new (Allocator.next PaddedKey RowId))
      (fillTwoLeaves ++ [.update (.byte 92) ⟨1, 0⟩]) = some t ∧ t.InOrder := by
  have hsome : (run (attempt (Allocator.next PaddedKey RowId))
    (Tree.new (Allocator.next PaddedKey RowId))
      (fillTwoLeaves ++ [.update (.byte 92) ⟨1, 0⟩])).isSome = true := rfl
  have hlast : (run (attempt (Allocator.next PaddedKey RowId))
    (Tree.new (Allocator.next PaddedKey RowId))
      fillTwoLeaves).all (fun u => (searchPath u.pages (.byte 92) u.pages.mark u.root).all isLast) =
        true := by
    decide +kernel
  obtain ⟨t, hrun⟩ := Option.isSome_iff_exists.mp hsome
  refine ⟨t, hrun, scan_all_in_order skipsZero_next hrun
    (.inr (guarded_append.mpr ⟨guarded_of_forall ?_, ?_⟩))⟩
  · intro op hop u
    obtain ⟨i, -, rfl⟩ := List.mem_map.mp hop
    exact ⟨trivial, rfl⟩
  · intro u hu
    refine ⟨⟨fun l hl _ => ?_, rfl⟩, fun _ _ => trivial⟩
    rw [hu] at hlast
    exact of_decide_eq_true (List.all_eq_true.mp hlast _ hl)

/-- **Leaves are lost.** After 93 insertions there are two leaves. An update in the first leaves 0
as its link, and `scan_all` returns 46 of the 93 entries. -/
theorem scan_all_loses_leaves : ∃ t, run (attempt (Allocator.next PaddedKey RowId))
    (Tree.new (Allocator.next PaddedKey RowId)) (fillTwoLeaves ++ [.update (.byte 1) ⟨1, 0⟩]) = some t ∧
      (entriesOf (leafPages t.pages t.pages.mark t.root)).length = 93 ∧
      t.scanAll.map List.length = .ok 46 := by
  decide +kernel

end Structure

end RTsql.Storage.BTree

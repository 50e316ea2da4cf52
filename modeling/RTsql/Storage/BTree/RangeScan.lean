import RTsql.Storage.BTree.Refinement

/-!
# Scans that walk down the tree

`IndexManager::scan_range`. A scan keeps a stack of pages, and a set of the pages it has
visited. A leaf gives its entries, an internal node its children, the first one on top of the
stack. Children between whose separators no key of the range can lie are left out.

The order of the results comes from the walk alone: `leafPages` is the row of leaves from left to
right, and a scan reads that row, less the leaves it has left out.
-/

namespace RTsql.Storage.BTree

open List RTsql.Library

variable {κ v : Type} {n : InternalNode κ} {P : Pages κ v} {pid : ℕ} {l : LeafNode κ v}

/-! ### The row of leaves -/

/-- The children of a node, from left to right. -/
def InternalNode.children (n : InternalNode κ) : List ℕ := n.leftmost :: n.seps.map Prod.snd

/-- The leaves below a page, from left to right, at most `fuel` levels deep. -/
def leafPages (P : Pages κ v) : ℕ → ℕ → List (ℕ × LeafNode κ v)
  | 0, _ => []
  | fuel + 1, pid =>
    match P.get pid with
    | some (.leaf l) => [(pid, l)]
    | some (.internal n) => n.children.flatMap (leafPages P fuel)
    | _ => []

/-- The entries of a row of leaves. -/
def entriesOf (leaves : List (ℕ × LeafNode κ v)) : List (κ × v) := leaves.flatMap fun e => e.2.entries

@[simp] theorem entriesOf_append (l r : List (ℕ × LeafNode κ v)) :
    entriesOf (l ++ r) = entriesOf l ++ entriesOf r :=
  flatMap_append

theorem leafPages_leaf (hget : P.get pid = some (.leaf l)) (fuel : ℕ) :
    leafPages P (fuel + 1) pid = [(pid, l)] := by
  rw [leafPages, hget]

theorem leafPages_internal (hget : P.get pid = some (.internal n))
    (fuel : ℕ) : leafPages P (fuel + 1) pid = n.children.flatMap (leafPages P fuel) := by
  rw [leafPages, hget]

/-! ### The loop -/

variable {β : Type} {lower upper : Option (κ × Bool)} {seps : List (κ × ℕ)} {visited o : Finset ℕ}
  {low : Option κ}

/-- Every visit of a page leaves fewer pages to visit. -/
theorem card_sdiff_insert_lt {page : Page κ v} (hget : P.get pid = some page) (hnew : pid ∉ visited) :
    (Finset.range P.mark \ insert pid visited).card < (Finset.range P.mark \ visited).card := by
  refine Finset.card_lt_card (Finset.ssubset_iff_subset_ne.mpr ⟨?_, fun heq => ?_⟩)
  · exact Finset.sdiff_subset_sdiff (Finset.Subset.refl _) (Finset.subset_insert _ _)
  · have hmem : pid ∈ Finset.range P.mark \ visited :=
      Finset.mem_sdiff.mpr ⟨Finset.mem_range.mpr (Pages.lt_mark (Pages.inUse_of_get hget)), hnew⟩
    rw [← heq] at hmem
    exact (Finset.mem_sdiff.mp hmem).2 (Finset.mem_insert_self _ _)

/-- The loop of `scan_range_from_root`: `read` says what a leaf gives, `descend` which
children of a node are pushed. The top of the stack is the head of the list. -/
def scanFromRoot (P : Pages κ v) (read : LeafNode κ v → List β) (descend : InternalNode κ → List ℕ) :
    List ℕ → Finset ℕ → List β → Except TreeError (List β)
  | [], _, results => .ok results
  | pid :: stack, visited, results =>
    if _hnew : pid ∈ visited then scanFromRoot P read descend stack visited results
    else
      match _hget : P.get pid with
      | none => .error (.pageNotFound pid)
      | some .raw => .error .invalidPageType
      | some (.leaf l) => scanFromRoot P read descend stack (insert pid visited) (results ++ read l)
      | some (.internal n) =>
        scanFromRoot P read descend ((descend n).filter (· ∉ insert pid visited) ++ stack)
          (insert pid visited) results
termination_by stack visited => ((Finset.range P.mark \ visited).card, stack.length)
decreasing_by
  · exact .right _ (Nat.lt_succ_self _)
  · exact .left _ _ (card_sdiff_insert_lt _hget _hnew)
  · exact .left _ _ (card_sdiff_insert_lt _hget _hnew)

section Reads

variable {read : LeafNode κ v → List β} {descend : InternalNode κ → List ℕ}

theorem scanFromRoot_leaf (hget : P.get pid = some (.leaf l))
    (hnew : pid ∉ visited) (stack : List ℕ) (results : List β) :
    scanFromRoot P read descend (pid :: stack) visited results =
      scanFromRoot P read descend stack (insert pid visited) (results ++ read l) := by
  rw [scanFromRoot, dif_neg hnew]
  split
  case h_3 l' hget' =>
    cases hget.symm.trans hget'
    rfl
  all_goals simp_all

theorem scanFromRoot_internal
    (hget : P.get pid = some (.internal n)) (hnew : pid ∉ visited) (stack : List ℕ) (results : List β) :
    scanFromRoot P read descend (pid :: stack) visited results =
      scanFromRoot P read descend ((descend n).filter (· ∉ insert pid visited) ++ stack)
        (insert pid visited) results := by
  rw [scanFromRoot, dif_neg hnew]
  split
  case h_4 n' hget' =>
    cases hget.symm.trans hget'
    rfl
  all_goals simp_all

variable (P read descend) in
/-- From the pages `pids` on top of the stack a scan reads `out`, and visits only pages of `o`. -/
def Reads (pids : List ℕ) (o : Finset ℕ) (out : List β) : Prop :=
  ∀ visited, Disjoint o visited → ∃ seen ⊆ o, ∀ stack results,
    scanFromRoot P read descend (pids ++ stack) visited results =
      scanFromRoot P read descend stack (visited ∪ seen) (results ++ out)

variable {pids pids' : List ℕ} {o' : Finset ℕ} {out out' : List β}

theorem Reads.nil (o : Finset ℕ) : Reads P read descend [] o [] := by
  intro visited _
  refine ⟨∅, Finset.empty_subset o, fun stack results => ?_⟩
  rw [Finset.union_empty, append_nil, nil_append]

theorem Reads.append (h : Reads P read descend pids o out) (h' : Reads P read descend pids' o' out')
    (hd : Disjoint o o') : Reads P read descend (pids ++ pids') (o ∪ o') (out ++ out') := by
  intro visited hvisited
  rw [Finset.disjoint_union_left] at hvisited
  obtain ⟨seen, hseen, hscan⟩ := h visited hvisited.1
  obtain ⟨seen', hseen', hscan'⟩ := h' (visited ∪ seen)
    (Finset.disjoint_union_right.mpr ⟨hvisited.2, (Finset.disjoint_of_subset_left hseen hd).symm⟩)
  refine ⟨seen ∪ seen', Finset.union_subset_union hseen hseen', fun stack results => ?_⟩
  rw [append_assoc, hscan, hscan', Finset.union_assoc, append_assoc]

theorem Reads.leaf (hget : P.get pid = some (.leaf l)) : Reads P read descend [pid] {pid} (read l) := by
  intro visited hvisited
  refine ⟨{pid}, Finset.Subset.refl _, fun stack results => ?_⟩
  rw [singleton_append, scanFromRoot_leaf hget (Finset.disjoint_singleton_left.mp hvisited),
    Finset.insert_eq, Finset.union_comm]

theorem Reads.internal (hget : P.get pid = some (.internal n)) (hout : pid ∉ o)
    (hsub : ∀ c ∈ descend n, c ∈ o) (h : Reads P read descend (descend n) o out) :
    Reads P read descend [pid] (insert pid o) out := by
  intro visited hvisited
  obtain ⟨hnew, hvisited⟩ := Finset.disjoint_insert_left.mp hvisited
  have hd : Disjoint o (insert pid visited) := Finset.disjoint_insert_right.mpr ⟨hout, hvisited⟩
  obtain ⟨seen, hseen, hscan⟩ := h (insert pid visited) hd
  refine ⟨insert pid seen, Finset.insert_subset_insert pid hseen, fun stack results => ?_⟩
  have hfilter : (descend n).filter (· ∉ insert pid visited) = descend n :=
    filter_eq_self.mpr fun c hc => decide_eq_true (Finset.disjoint_left.mp hd (hsub c hc))
  rw [singleton_append, scanFromRoot_internal hget hnew, hfilter, hscan, Finset.insert_union,
    Finset.union_insert]

end Reads

/-! ### Ranges -/

section Range

variable [LinearOrder κ] {key key' : κ}

/-- `range_is_empty`. A bound is a key, and whether it belongs to the range itself. -/
def rangeIsEmpty (lower upper : Option (κ × Bool)) : Bool :=
  match lower, upper with
  | some (lowerKey, lowerIn), some (upperKey, upperIn) =>
    match compare lowerKey upperKey with
    | .gt => true
    | .eq => !(lowerIn && upperIn)
    | .lt => false
  | _, _ => false

/-- A key may lie behind a lower bound. -/
def behindLower (key : κ) : Option (κ × Bool) → Bool
  | none => true
  | some (bound, inclusive) =>
    match compare key bound with
    | .lt => false
    | .eq => inclusive
    | .gt => true

/-- A key may lie before an upper bound. -/
def beforeUpper (key : κ) : Option (κ × Bool) → Bool
  | none => true
  | some (bound, inclusive) =>
    match compare key bound with
    | .gt => false
    | .eq => inclusive
    | .lt => true

/-- `key_in_range`. -/
def keyInRange (key : κ) (lower upper : Option (κ × Bool)) : Bool :=
    behindLower key lower && beforeUpper key upper

/-- `subtree_overlaps`: the keys of a subtree lie from `low` to `high`, where these are known. -/
def subtreeOverlaps (low high : Option κ) (lower upper : Option (κ × Bool)) : Bool :=
  high.all (behindLower · lower) && low.all (beforeUpper · upper)

theorem behindLower_iff : behindLower key lower = true ↔ ∀ b ∈ lower, b.1 ≤ key ∧
    (b.2 = false → b.1 < key) := by
  cases lower with
  | none => simp [behindLower]
  | some b =>
    rw [behindLower]
    rcases lt_trichotomy key b.1 with hlt | heq | hgt
    · simp [compare_lt_iff_lt.mpr hlt, hlt]
    · simp [heq]
    · simp [compare_gt_iff_gt.mpr hgt, hgt, hgt.le]

theorem beforeUpper_iff : beforeUpper key upper = true ↔ ∀ b ∈ upper, key ≤ b.1 ∧
    (b.2 = false → key < b.1) := by
  cases upper with
  | none => simp [beforeUpper]
  | some b =>
    rw [beforeUpper]
    rcases lt_trichotomy key b.1 with hlt | heq | hgt
    · simp [compare_lt_iff_lt.mpr hlt, hlt, hlt.le]
    · simp [heq]
    · simp [compare_gt_iff_gt.mpr hgt, hgt]

theorem behindLower_mono (hle : key ≤ key') (h : behindLower key lower = true) :
    behindLower key' lower = true :=
  behindLower_iff.mpr fun b hb => ((behindLower_iff.mp h) b hb).imp (le_trans · hle) fun hlt hb =>
  (hlt hb).trans_le hle

theorem beforeUpper_mono (hle : key' ≤ key) (h : beforeUpper key upper = true) :
    beforeUpper key' upper = true :=
  beforeUpper_iff.mpr fun b hb => ((beforeUpper_iff.mp h) b hb).imp (le_trans hle) fun hlt hb =>
  hle.trans_lt (hlt hb)

/-- **A subtree that is left out** has no key of the range. -/
theorem subtreeOverlaps_of_mem {low high : Option κ}
    (hlow : ∀ k ∈ low, k ≤ key) (hhigh : ∀ k ∈ high, key ≤ k)
    (hkey : keyInRange key lower upper = true) : subtreeOverlaps low high lower upper = true := by
  obtain ⟨hlower, hupper⟩ := Bool.and_eq_true_iff.mp hkey
  refine Bool.and_eq_true_iff.mpr ⟨?_, ?_⟩
  · cases high with
    | none => rfl
    | some k => exact behindLower_mono (hhigh k rfl) hlower
  · cases low with
    | none => rfl
    | some k => exact beforeUpper_mono (hlow k rfl) hupper

/-- An empty range has no key. -/
theorem keyInRange_of_rangeIsEmpty (hempty : rangeIsEmpty lower upper = true) (key : κ) :
    keyInRange key lower upper = false := by
  rw [← Bool.not_eq_true]
  intro hkey
  obtain ⟨hlower, hupper⟩ := Bool.and_eq_true_iff.mp hkey
  match lower, upper with
  | none, _ | some _, none => cases hempty
  | some (a, aIn), some (b, bIn) =>
    obtain ⟨hle, hlt⟩ := behindLower_iff.mp hlower _ rfl
    obtain ⟨hle', hlt'⟩ := beforeUpper_iff.mp hupper _ rfl
    rw [rangeIsEmpty] at hempty
    rcases (hle.trans hle').lt_or_eq with hab | hab
    · rw [compare_lt_iff_lt.mpr hab] at hempty
      cases hempty
    · rw [compare_eq_iff_eq.mpr hab] at hempty
      -- the key would be both bounds, and one of them is not in the range
      subst hab
      cases aIn with
      | false => exact absurd (hlt rfl) (not_lt.mpr hle')
      | true =>
        cases bIn with
        | false => exact absurd (hlt' rfl) (not_lt.mpr hle)
        | true => cases hempty

/-- The children of a node that `scan_range` pushes: the child `c`, whose keys lie from `low` on,
and those of `seps`. -/
def childrenInRange (lower upper : Option (κ × Bool)) : Option κ → ℕ → List (κ × ℕ) → List ℕ
  | low, c, [] => if subtreeOverlaps low none lower upper then [c] else []
  | low, c, (s, c') :: rest =>
    (if subtreeOverlaps low (some s) lower upper then [c] else []) ++ childrenInRange lower upper
      (some s) c' rest

theorem childrenInRange_subset {c x : ℕ}
    (hx : x ∈ childrenInRange lower upper low c seps) : x ∈ c :: seps.map Prod.snd := by
  induction seps generalizing low c with
  | nil =>
    rw [childrenInRange] at hx
    split at hx
    case isTrue => exact hx
    case isFalse => cases hx
  | cons e seps ih =>
    rcases mem_append.mp hx with hx | hx
    · split at hx
      case isTrue => exact mem_cons.mpr (.inl (mem_singleton.mp hx))
      case isFalse => cases hx
    · exact mem_cons_of_mem _ (ih hx)

/-- What `scan_range` pushes of a node. -/
def descendRange (lower upper : Option (κ × Bool)) (n : InternalNode κ) : List ℕ :=
  childrenInRange lower upper none n.leftmost n.seps

/-- The values of the entries whose key is in the range. -/
def inRange (lower upper : Option (κ × Bool)) (entries : List (κ × v)) : List v :=
  (entries.filter fun e => keyInRange e.1 lower upper).map Prod.snd

theorem inRange_append (lower upper : Option (κ × Bool)) (l r : List (κ × v)) :
    inRange lower upper (l ++ r) = inRange lower upper l ++ inRange lower upper r := by
  rw [inRange, filter_append, map_append]
  rfl

/-- What `scan_range` takes from a leaf. -/
def readRange (lower upper : Option (κ × Bool)) (l : LeafNode κ v) : List v :=
    inRange lower upper l.entries

end Range

/-- `IndexManager::scan_range`. -/
def Tree.scanRange [LinearOrder κ] (t : Tree κ v) (lower upper : Option (κ × Bool)) :
    Except TreeError (List v) :=
  if rangeIsEmpty lower upper then .ok []
  else scanFromRoot t.pages (readRange lower upper) (descendRange lower upper) [t.root] ∅ []

/-! ### Search trees -/

section SearchTree

variable [LinearOrder κ]

/-- **The search invariant**, of a tree of at most `h` levels above its leaves: the entries of a
leaf ascend, and the keys below a child lie between the separators around it. -/
def SearchTree (P : Pages κ v) : ℕ → ℕ → κ → WithTop κ → Multiset (κ × v) → Finset ℕ → Prop
  | 0 => Leaf false P
  | h + 1 => fun pid lo hi m o => Leaf false P pid lo hi m o ∨ ∃ n, Branch (SearchTree P h) P n pid lo hi m o

variable {strict : Bool} {h fuel : ℕ} {lo : κ} {hi : WithTop κ} {m : Multiset (κ × v)}

theorem Within.of_strict {l : List (κ × v)} (hl : Within strict l lo hi) : Within false l lo hi where
  before := hl.before.le
  ascend := hl.ascend.imp fun hab => hab.le
  bounds e he := ⟨(hl.bounds e he).1, (hl.bounds e he).2.le⟩

/-- The trees that the operations keep are search trees. -/
theorem Subtree.searchTree (t : Subtree strict P h pid lo hi m o) : SearchTree P h pid lo hi m o := by
  induction h generalizing pid lo hi m o with
  | zero =>
    obtain ⟨l, hget, hl, hm, ho⟩ := t
    exact ⟨l, hget, hl.of_strict, hm, ho⟩
  | succ h ih =>
    obtain ⟨n, -, o', hget, hf, hout, rfl⟩ := t
    exact .inr ⟨n, o', hget, hf.mono fun _ _ _ _ _ _ t => ih t, hout, rfl⟩

namespace SearchTree

theorem mem (t : SearchTree P h pid lo hi m o) : pid ∈ o := by
  have hleaf : Leaf false P pid lo hi m o → pid ∈ o := by
    rintro ⟨l, -, -, -, rfl⟩
    exact Finset.mem_singleton_self pid
  cases h with
  | zero => exact hleaf t
  | succ h =>
    rcases t with t | ⟨n, o', -, -, -, rfl⟩
    · exact hleaf t
    · exact Finset.mem_insert_self pid o'

/-- The entries of neighbours, one after the other. -/
theorem entries_row {T : ℕ → κ → WithTop κ → Multiset (κ × v) → Finset ℕ → Prop}
    {f : ℕ → List (ℕ × LeafNode κ v)} (hT : ∀ c lo hi m o, T c lo hi m o →
      (entriesOf (f c) : Multiset (κ × v)) = m ∧ Within false (entriesOf (f c)) lo hi)
    {c : ℕ} (hf : Fenced T c seps lo hi m o) :
    (entriesOf ((c :: seps.map Prod.snd).flatMap f) : Multiset (κ × v)) = m ∧
      Within false (entriesOf ((c :: seps.map Prod.snd).flatMap f)) lo hi := by
  induction seps generalizing c lo m o with
  | nil =>
    rw [map_nil, flatMap_singleton]
    exact hT _ _ _ _ _ hf
  | cons e seps ih =>
    obtain ⟨m₁, m₂, o₁, o₂, h₁, h₂, -, rfl, -⟩ := hf
    obtain ⟨hm₁, hw₁⟩ := hT _ _ _ _ _ h₁
    obtain ⟨hm₂, hw₂⟩ := ih h₂
    rw [flatMap_cons, entriesOf_append]
    refine ⟨?_, hw₁.join hw₂⟩
    rw [← Multiset.coe_add, hm₁, map_cons, hm₂]

theorem entries_leaf (hleaf : Leaf false P pid lo hi m o) (fuel : ℕ) :
    (entriesOf (leafPages P (fuel + 1) pid) : Multiset (κ × v)) = m ∧
      Within false (entriesOf (leafPages P (fuel + 1) pid)) lo hi := by
  obtain ⟨l, hget, hl, rfl, rfl⟩ := hleaf
  rw [leafPages_leaf hget, entriesOf, flatMap_singleton]
  exact ⟨rfl, hl⟩

/-- The entries of the leaves, from left to right, are those of the tree in order. -/
theorem entries (t : SearchTree P h pid lo hi m o) (hfuel : h < fuel) :
    (entriesOf (leafPages P fuel pid) : Multiset (κ × v)) = m ∧
    Within false (entriesOf (leafPages P fuel pid)) lo hi := by
  induction h, fuel, hfuel using fuel_induction generalizing pid lo hi m o with
  | zero fuel => exact entries_leaf t fuel
  | succ h fuel hfuel ih =>
    rcases t with t | ⟨n, o', hget, hf, -, rfl⟩
    · exact entries_leaf t fuel
    · rw [leafPages_internal hget]
      exact entries_row (T := SearchTree P h) (f := leafPages P fuel) (fun _ _ _ _ _ => ih) hf

/-- Neighbours of which those are pushed that may have keys of the range. The others have none. -/
theorem reads_row (hfuel : h < fuel)
    (hreads : ∀ c lo hi m o, SearchTree P h c lo hi m o → Reads P (readRange lower upper)
      (descendRange lower upper) [c] o (inRange lower upper (entriesOf (leafPages P fuel c))))
    {c : ℕ} (hf : Fenced (SearchTree P h) c seps lo hi m o) (hlow : ∀ k ∈ low, k ≤ lo) :
    Reads P (readRange lower upper) (descendRange lower upper) (childrenInRange lower upper low c seps) o
      (inRange lower upper (entriesOf ((c :: seps.map Prod.snd).flatMap (leafPages P fuel)))) := by
  have hpiece : ∀ c lo hi m o, SearchTree P h c lo hi m o → ∀ low high, (∀ k ∈ low, k ≤ lo) →
      (∀ k ∈ high, hi = ((k : κ) : WithTop κ)) →
      Reads P (readRange lower upper) (descendRange lower upper)
        (if subtreeOverlaps low high lower upper then [c] else []) o
          (inRange lower upper (entriesOf (leafPages P fuel c))) := by
    intro c lo hi m o t low high hlow hhigh
    split
    case isTrue => exact hreads c lo hi m o t
    case isFalse hout =>
      have hnone : inRange lower upper (entriesOf (leafPages P fuel c)) = [] := by
        rw [inRange, filter_eq_nil_iff.mpr, map_nil]
        intro e he hkey
        obtain ⟨hle, hle'⟩ := (t.entries hfuel).2.bounds e he
        refine hout (subtreeOverlaps_of_mem (fun k hk => (hlow k hk).trans hle) (fun k hk => ?_) hkey)
        rw [hhigh k hk] at hle'
        exact WithTop.coe_le_coe.mp hle'
      rw [hnone]
      exact Reads.nil o
  induction seps generalizing c lo m o low with
  | nil =>
    rw [map_nil, flatMap_singleton]
    exact hpiece _ _ _ _ _ hf low none hlow nofun
  | cons e seps ih =>
    obtain ⟨m₁, m₂, o₁, o₂, h₁, h₂, hd, -, rfl⟩ := hf
    rw [flatMap_cons, entriesOf_append, inRange_append]
    refine (hpiece _ _ _ _ _ h₁ low (some e.1) hlow ?_).append (ih h₂ ?_) hd
    · rintro _ ⟨⟩
      rfl
    · rintro _ ⟨⟩
      exact le_refl _

/-- **A scan** of a range reads the entries of the leaves from left to right, those whose key is in
the range. -/
theorem reads (t : SearchTree P h pid lo hi m o) (lower upper : Option (κ × Bool)) (hfuel : h < fuel) :
    Reads P (readRange lower upper) (descendRange lower upper) [pid] o
      (inRange lower upper (entriesOf (leafPages P fuel pid))) := by
  have hleaf : ∀ fuel pid lo hi m o, Leaf false P pid lo hi m o →
      Reads P (readRange lower upper) (descendRange lower upper) [pid] o
        (inRange lower upper (entriesOf (leafPages P (fuel + 1) pid))) := by
    rintro fuel pid lo hi - - ⟨l, hget, -, -, rfl⟩
    rw [leafPages_leaf hget, entriesOf, flatMap_singleton]
    exact Reads.leaf hget
  induction h, fuel, hfuel using fuel_induction generalizing pid lo hi m o with
  | zero fuel => exact hleaf fuel pid lo hi m o t
  | succ h fuel hfuel ih =>
    rcases t with t | ⟨n, o', hget, hf, hout, rfl⟩
    · exact hleaf fuel pid lo hi m o t
    · rw [leafPages_internal hget]
      refine Reads.internal hget hout (fun c hc => ?_) (reads_row hfuel (fun _ _ _ _ _ => ih) hf nofun)
      exact hf.kid_mem (fun _ _ _ _ _ t => t.mem) c (childrenInRange_subset hc)

end SearchTree

end SearchTree

section Trees

/-- A scan reads what is below the root. -/
theorem Reads.scan {read : LeafNode κ v → List β} {descend : InternalNode κ → List ℕ}
    {out : List β} (h : Reads P read descend [pid] o out) :
    scanFromRoot P read descend [pid] ∅ [] = .ok out := by
  obtain ⟨seen, -, hscan⟩ := h ∅ (Finset.disjoint_empty_right o)
  rw [← append_nil [pid], hscan, scanFromRoot, nil_append]

variable [LinearOrder κ] [OrderBot κ]

/-- The tree is a search tree with the entries `m`. -/
def Tree.Searchable (t : Tree κ v) (m : Multiset (κ × v)) : Prop :=
    ∃ h o, SearchTree t.pages h t.root ⊥ ⊤ m o

theorem Tree.Stores.searchable {strict : Bool} {t : Tree κ v} {m : Multiset (κ × v)}
    (ht : t.Stores strict m o) : t.Searchable m := by
  obtain ⟨h, hs⟩ := ht
  exact ⟨h, o, hs.searchTree⟩

end Trees

/-- **Range scans are exact.** The entries of the tree have an order, by ascending keys, in which
`scan_range` returns those whose key is in the range, whatever the bounds; and a subtree between
whose separators a key of the range may lie is never left out. -/
theorem scanRange_exact {t : Tree PaddedKey RowId} {m : Multiset (PaddedKey × RowId)}
    (ht : t.Searchable m) :
    (∃ entries : List (PaddedKey × RowId), (entries : Multiset (PaddedKey × RowId)) = m ∧
      entries.Pairwise (fun a b => a.1 ≤ b.1) ∧
      ∀ lower upper, t.scanRange lower upper =
        .ok ((entries.filter fun e => keyInRange e.1 lower upper).map Prod.snd)) ∧
    ∀ (low high : Option PaddedKey) lower upper key, (∀ k ∈ low, k ≤ key) → (∀ k ∈ high, key ≤ k) →
      keyInRange key lower upper = true → subtreeOverlaps low high lower upper = true := by
  refine ⟨?_, fun low high lower upper key hlow hhigh hkey => subtreeOverlaps_of_mem hlow hhigh hkey⟩
  obtain ⟨h, o, hs⟩ := ht
  obtain ⟨hm, hw⟩ := hs.entries (Nat.lt_succ_self h)
  refine ⟨_, hm, hw.ascend, fun lower upper => ?_⟩
  rw [Tree.scanRange]
  split
  case isTrue hempty => simp [keyInRange_of_rangeIsEmpty hempty]
  case isFalse => exact (hs.reads lower upper (Nat.lt_succ_self h)).scan

/-- Of three entries, two have a key before the bound. -/
theorem scanRange_exact_before : ∃ (t : Tree PaddedKey RowId) (rows : List RowId),
    t.Searchable {(.byte 3, ⟨0, 2⟩), (.byte 1, ⟨0, 1⟩), (.byte 1, ⟨0, 0⟩)} ∧
      t.scanRange none (some (.byte 3, false)) = .ok rows ∧
      (rows : Multiset RowId) = {⟨0, 1⟩, ⟨0, 0⟩} := by
  let ops : List (SecondaryIndex.Op PaddedKey RowId) :=
    [.insert (.byte 1) ⟨0, 0⟩, .insert (.byte 1) ⟨0, 1⟩, .insert (.byte 3) ⟨0, 2⟩]
  let alloc := Allocator.next PaddedKey RowId
  have hagrees : SecondaryIndex.Agrees
    (ops.foldl (SecondaryIndex.step alloc) (SecondaryIndex.init alloc)) :=
    SecondaryIndex.agrees_foldl ops (SecondaryIndex.agrees_init alloc)
  obtain ⟨o, hs⟩ := hagrees.stores
  have hentries : (ops.foldl (SecondaryIndex.step alloc) (SecondaryIndex.init alloc)).entries =
      {(.byte 3, ⟨0, 2⟩), (.byte 1, ⟨0, 1⟩), (.byte 1, ⟨0, 0⟩)} := by decide +kernel
  rw [hentries] at hs
  obtain ⟨⟨entries, hm, -, hscan⟩, -⟩ := scanRange_exact hs.searchable
  refine ⟨_, _, hs.searchable, hscan none (some (.byte 3, false)), ?_⟩
  have hfilter : (entries.filter (fun e => keyInRange e.1 none (some (.byte 3, false))) : Multiset
    (PaddedKey × RowId)) =
      (entries : Multiset (PaddedKey × RowId)).filter fun e =>
      keyInRange e.1 none (some (.byte 3, false)) = true := by
    simp
  rw [← Multiset.map_coe, hfilter, hm]
  decide +kernel

end RTsql.Storage.BTree

import RTsql.Library.Proc
import RTsql.Storage.BTree.Node
import Mathlib.Order.BoundedOrder.Basic

/-!
# B-trees

`btree.rs`. A tree is a graph of pages with a root. An insertion descends to the leaf of the key;
a page that is full is divided, and a separator goes up to its parent, which may be full in
turn. A deletion descends as well; a page with too few entries takes some from a sibling, or
is merged with one, and a separator leaves the parent, which may have too few in turn.

Pages are written one at a time, as in the source, and the model keeps every step; when an operation
fails, what it has written stays. The descents of the source have no bound; here they stop
(`diverges`) once they have visited more pages than there are.

Which page the allocator gives is not part of the model: an `Allocator` may pick any page that is
not in use.
-/

namespace RTsql.Storage.BTree

open RTsql.Library
open Proc (read modify fail lift)

/-- A page of a tree. -/
inductive Page (κ v : Type) where
  /-- Allocated, not yet written. -/
  | raw
  | leaf (l : LeafNode κ v)
  | internal (n : InternalNode κ)

/-- A step that changes the pages. -/
inductive PageWrite (κ v : Type) where
  | alloc (pid : ℕ)
  | write (pid : ℕ) (page : Page κ v)
  | free (pid : ℕ)

namespace PageWrite

variable {κ v : Type}

/-- The page it is about. -/
def pid : PageWrite κ v → ℕ
  | alloc pid => pid
  | write pid _ => pid
  | free pid => pid

/-- What it leaves on the page: nothing, if the page is no longer in use. -/
def result : PageWrite κ v → Option (Page κ v)
  | alloc _ => some .raw
  | write _ page => some page
  | free _ => none

end PageWrite

/-- The pages, as the steps so far have left them: the last step comes first. -/
structure Pages (κ v : Type) where
  log : List (PageWrite κ v)

namespace Pages

variable {κ v : Type}

/-- The page, if it is in use. -/
def get (P : Pages κ v) : ℕ → Option (Page κ v) :=
  P.log.foldr (fun w g => Function.update g w.pid w.result) fun _ => none

/-- No page was ever used from here on. -/
def mark (P : Pages κ v) : ℕ := P.log.foldr (fun w n => max n (w.pid + 1)) 0

/-- One more step. -/
def push (P : Pages κ v) (w : PageWrite κ v) : Pages κ v := ⟨w :: P.log⟩

/-- No pages. -/
def empty : Pages κ v := ⟨[]⟩

theorem get_push (P : Pages κ v) (w : PageWrite κ v) (pid : ℕ) :
    (P.push w).get pid = if pid = w.pid then w.result else P.get pid := by
  show Function.update P.get w.pid w.result pid = _
  rw [Function.update_apply]

@[simp] theorem get_empty (pid : ℕ) : (empty : Pages κ v).get pid = none := rfl

@[simp] theorem get_write (P : Pages κ v) (pid p : ℕ) (page : Page κ v) :
    (P.push (.write pid page)).get p = if p = pid then some page else P.get p := get_push ..

@[simp] theorem get_alloc (P : Pages κ v) (pid p : ℕ) :
    (P.push (.alloc pid)).get p = if p = pid then some .raw else P.get p := get_push ..

@[simp] theorem get_free (P : Pages κ v) (pid p : ℕ) :
    (P.push (.free pid)).get p = if p = pid then none else P.get p := get_push ..

theorem get_of_mark_le {P : Pages κ v} {pid : ℕ} (h : P.mark ≤ pid) : P.get pid = none := by
  obtain ⟨log⟩ := P
  induction log with
  | nil => rfl
  | cons w log ih =>
    have hmark : (⟨log⟩ : Pages κ v).mark ≤ pid ∧ w.pid + 1 ≤ pid := Nat.max_le.mp h
    show ((⟨log⟩ : Pages κ v).push w).get pid = none
    rw [get_push, if_neg (by omega)]
    exact ih hmark.1

end Pages

/-- An allocator never fails, and gives a page that is not in use. -/
structure Allocator (κ v : Type) where
  pick : Pages κ v → ℕ
  fresh : ∀ P : Pages κ v, P.get (pick P) = none

/-- The allocator that never gives a page twice. -/
def Allocator.next (κ v : Type) : Allocator κ v :=
    ⟨Pages.mark, fun _ => Pages.get_of_mark_le (Nat.le_refl _)⟩

/-- `SplitResult`. -/
structure SplitResult (κ : Type) where
  middleKey : κ
  newPage : ℕ

/-- `MergeInfo`. -/
structure MergeInfo (κ : Type) where
  separatorKey : κ
  newRoot : Option ℕ

/-- `MIN_KEYS`. -/
def minKeys : ℕ := 46

variable {κ v : Type}

/-- A computation on the pages. -/
abbrev TreeAction (κ v α : Type) := Proc (Pages κ v) TreeError α

/-! ### Pages -/

/-- `load_page`. -/
def loadPage (pid : ℕ) : TreeAction κ v (Page κ v) :=
  read fun P =>
    match P.get pid with
    | none => .error (.pageNotFound pid)
    | some page => .ok page

/-- `LeafNode::from_page` on a page loaded. -/
def loadLeaf (pid : ℕ) : TreeAction κ v (LeafNode κ v) :=
  read fun P =>
    match P.get pid with
    | none => .error (.pageNotFound pid)
    | some (.leaf l) => .ok l
    | some _ => .error .invalidPageType

/-- `InternalNode::from_page` on a page loaded. -/
def loadInternal (pid : ℕ) : TreeAction κ v (InternalNode κ) :=
  read fun P =>
    match P.get pid with
    | none => .error (.pageNotFound pid)
    | some (.internal n) => .ok n
    | some _ => .error .invalidPageType

/-- `modify_page`. -/
def writeLeaf (pid : ℕ) (l : LeafNode κ v) : TreeAction κ v Unit :=
    modify fun P => P.push (.write pid (.leaf l))

/-- `modify_page`. -/
def writeInternal (pid : ℕ) (n : InternalNode κ) : TreeAction κ v Unit :=
  modify fun P => P.push (.write pid (.internal n))

/-- `allocate_page`. -/
def allocatePage (alloc : Allocator κ v) : TreeAction κ v ℕ :=
  fun P => (.ok (alloc.pick P), P.push (.alloc (alloc.pick P)))

/-- `free_page`. -/
def freePage (pid : ℕ) : TreeAction κ v Unit := modify fun P => P.push (.free pid)

variable [LinearOrder κ]

/-! ### Search -/

/-- `search_from_page`, over at most `n` pages. -/
def searchFromPage (key : κ) : ℕ → ℕ → TreeAction κ v (Option v)
  | 0, _ => fail .diverges
  | n + 1, pid => do
    match ← loadPage pid with
    | .raw => fail .invalidPageType
    | .leaf l => pure (l.find key)
    | .internal node => searchFromPage key n (node.findChildPageIdBinary key)

/-! ### Insertion -/

/-- The leaf of the insertion, with `l` on page `pid`. -/
def insertIntoLeaf (alloc : Allocator κ v) (pid : ℕ) (l : LeafNode κ v) (key : κ) (value : v) :
    TreeAction κ v (Option (SplitResult κ)) :=
  match l.insert key value with
  | .ok l' => do
    writeLeaf pid l'
    pure none
  | .error .pageFull => do
    let newPage ← allocatePage alloc
    let (left, split) ← lift l.split
    writeLeaf pid left
    let left ← if split.middleKey ≤ key then pure left else lift (left.insert key value)
    writeLeaf pid left
    let rightEntries :=
      if split.middleKey ≤ key then sortEntries (split.rightEntries ++ [(key, value)]) else split.rightEntries
    let right ← lift (LeafNode.build rightEntries split.oldNext)
    writeLeaf newPage right
    writeLeaf pid { left with next := newPage }
    pure (some ⟨split.middleKey, newPage⟩)
  | .error e => fail e

/-- The child `child` of the node on page `pid` was split: its separator goes into the node, which
may be split in turn. -/
def insertIntoInternal (alloc : Allocator κ v) (pid child : ℕ) (result : SplitResult κ) :
    TreeAction κ v (Option (SplitResult κ)) := do
  let node ← loadInternal pid
  match node.insertSeparator result.middleKey result.newPage child with
  | .ok node' => do
    writeInternal pid node'
    pure none
  | .error .pageFull => do
    let newPage ← allocatePage alloc
    let (left, split) ← lift node.split
    writeInternal pid left
    -- the separator goes to the half that has the child
    let left ← if split.inRight child then pure left
      else lift (left.insertSeparator result.middleKey result.newPage child)
    writeInternal pid left
    let right ← lift (InternalNode.build split.newLeftmost split.rightSeparators)
    let right ← if split.inRight child then lift (right.insertSeparator result.middleKey result.newPage child)
      else pure right
    writeInternal newPage right
    pure (some ⟨split.middleKey, newPage⟩)
  | .error e => fail e

/-- `insert_into_page`, over at most `n` pages; `descent` has the pages above. -/
def insertIntoPage (alloc : Allocator κ v) (key : κ) (value : v) :
    ℕ → ℕ → List ℕ → TreeAction κ v (Option (SplitResult κ))
  | 0, _, _ => fail .diverges
  | n + 1, pid, descent =>
    if pid ∈ descent then fail (.internal s!"index descent cycle detected at page {pid}")
    else do
      match ← loadPage pid with
      | .raw => fail .invalidPageType
      | .leaf l => insertIntoLeaf alloc pid l key value
      | .internal node => do
        match ← insertIntoPage alloc key value n (node.findChildPageIdBinary key) (pid :: descent) with
        | none => pure none
        | some result => insertIntoInternal alloc pid (node.findChildPageIdBinary key) result

/-- The root was split: there is a new root above the two halves. -/
def growRoot (alloc : Allocator κ v) (root : ℕ) (result : SplitResult κ) : TreeAction κ v ℕ := do
  let newRoot ← allocatePage alloc
  let node ← lift (InternalNode.build root [])
  let node ← lift (node.insertSeparator result.middleKey result.newPage root)
  writeInternal newRoot node
  pure newRoot

/-! ### Update -/

/-- `update_in_page`, over at most `n` pages. -/
def updateInPage (key : κ) (value : v) : ℕ → ℕ → TreeAction κ v Unit
  | 0, _ => fail .diverges
  | n + 1, pid => do
    match ← loadPage pid with
    | .raw => fail .invalidPageType
    | .leaf l => do
      let l' ← lift (l.update key value)
      writeLeaf pid l'
    | .internal node => updateInPage key value n (node.findChildPageIdBinary key)

/-! ### Deletion -/

/-- `leaf_key_count`, `internal_key_count`. -/
def keyCount (pid : ℕ) : TreeAction κ v ℕ := do
  match ← loadPage pid with
  | .raw => fail .invalidPageType
  | .leaf l => pure l.entries.length
  | .internal node => pure node.seps.length

/-- `sibling_ids`: the children to the left and to the right of the one at `childIndex`. -/
def siblingIds (parent : InternalNode κ) (childIndex : ℕ) : Option ℕ × Option ℕ :=
  (if 0 < childIndex then
      if childIndex = 1 then some parent.leftmost else parent.seps[childIndex - 2]?.map Prod.snd
    else none,
    if childIndex < parent.seps.length then parent.seps[childIndex]?.map Prod.snd else none)

/-- `rebuild_leaf`. -/
def rebuildLeaf (pid : ℕ) (entries : List (κ × v)) : TreeAction κ v Unit := do
  let old ← loadLeaf pid
  let l ← lift (LeafNode.build entries old.next)
  writeLeaf pid l

/-- `rebuild_internal`. -/
def rebuildInternal (pid leftmost : ℕ) (seps : List (κ × ℕ)) : TreeAction κ v Unit := do
  let n ← lift (InternalNode.build leftmost seps)
  writeInternal pid n

/-- `update_parent_separator`. -/
def updateParentSeparator (parent slot : ℕ) (key : κ) (child : ℕ) : TreeAction κ v Unit := do
  let node ← loadInternal parent
  let node' ← lift (node.replaceSeparator slot key child)
  writeInternal parent node'

/-- The separator in a slot leaves the node. -/
def removeSeparatorAt (pid slot : ℕ) : TreeAction κ v Unit := do
  let node ← loadInternal pid
  let node' ← lift (node.removeSeparator slot)
  writeInternal pid node'

/-- `redistribute_leaf_right`, `redistribute_leaf_left`: the entries of two leaves are divided
anew; the separator between them is in `slot`. -/
def redistributeLeaves (left right parent slot : ℕ) : TreeAction κ v (Option (MergeInfo κ)) := do
  let l ← loadLeaf left
  let r ← loadLeaf right
  let entries := sortEntries (l.entries ++ r.entries)
  match entries[entries.length / 2]? with
  | none => fail .panic
  | some middle => do
    rebuildLeaf left (entries.take (entries.length / 2))
    rebuildLeaf right (entries.drop (entries.length / 2))
    updateParentSeparator parent slot middle.1 right
    pure none

/-- `merge_leaves`. -/
def mergeLeaves [OrderBot κ] (left right parent rightChildIndex : ℕ) : TreeAction κ v (MergeInfo κ) := do
  let r ← loadLeaf right
  let l ← loadLeaf left
  rebuildLeaf left (l.entries ++ r.entries)
  let l ← loadLeaf left
  writeLeaf left { l with next := r.next }
  freePage right
  removeSeparatorAt parent (rightChildIndex - 1)
  -- the key of an empty leaf is `Key::new(b"")`
  pure ⟨(r.entries.head?.map Prod.fst).getD ⊥, none⟩

/-- The separators of two nodes, with the one between them, which comes from the parent. -/
def joinSeparators (l r : InternalNode κ) (parentSep : Option κ) : List (κ × ℕ) :=
  sortEntries (l.seps ++ (parentSep.map (·, r.leftmost)).toList ++ r.seps)

/-- `redistribute_internal_right`, `redistribute_internal_left`. -/
def redistributeInternals (left right parent slot : ℕ) : TreeAction κ v (Option (MergeInfo κ)) := do
  let p ← loadInternal parent
  let l ← loadInternal left
  let r ← loadInternal right
  let all := joinSeparators l r (p.seps[slot]?.map Prod.fst)
  match all[all.length / 2]? with
  | none => fail .panic
  | some middle => do
    rebuildInternal left l.leftmost (all.take (all.length / 2))
    rebuildInternal right middle.2 (all.drop (all.length / 2 + 1))
    updateParentSeparator parent slot middle.1 right
    pure none

/-- `merge_internal_nodes`. -/
def mergeInternals (left right parent rightChildIndex : ℕ) : TreeAction κ v (MergeInfo κ) := do
  let p ← loadInternal parent
  let l ← loadInternal left
  let r ← loadInternal right
  let parentSep := p.seps[rightChildIndex - 1]?.map Prod.fst
  match (l.seps.head?.map Prod.fst).or parentSep with
  | none => fail .panic
  | some mergedSep => do
    rebuildInternal left l.leftmost (joinSeparators l r parentSep)
    freePage right
    removeSeparatorAt parent (rightChildIndex - 1)
    pure ⟨mergedSep, none⟩

/-- The sibling, if it has more than `MIN_KEYS` entries. -/
def spare : Option ℕ → TreeAction κ v (Option ℕ)
  | none => pure none
  | some pid => do
    let count ← keyCount pid
    pure (if minKeys < count then some pid else none)

/-- `handle_leaf_underflow`, `handle_internal_underflow`: the child at `childIndex` of `parent` has
too few entries. It takes some from a sibling that has more than it needs, or is merged with one. -/
def handleUnderflow (redistribute : ℕ → ℕ → ℕ → ℕ → TreeAction κ v (Option (MergeInfo κ)))
    (merge : ℕ → ℕ → ℕ → ℕ → TreeAction κ v (MergeInfo κ))
    (alone : InternalNode κ → TreeAction κ v (Option (MergeInfo κ))) (pid childIndex parent : ℕ) :
    TreeAction κ v (Option (MergeInfo κ)) := do
  let node ← loadInternal parent
  let (leftSib, rightSib) := siblingIds node childIndex
  match ← spare rightSib with
  | some right => redistribute pid right parent childIndex
  | none => do
    match ← spare leftSib with
    | some left => redistribute left pid parent (childIndex - 1)
    | none =>
      match leftSib, rightSib with
      | some left, _ => do
        let info ← merge left pid parent childIndex
        pure (some info)
      | none, some right => do
        let info ← merge pid right parent (childIndex + 1)
        pure (some info)
      | none, none => alone node

section Delete

variable [OrderBot κ]

/-- `handle_leaf_underflow`. A leaf without siblings becomes the root. -/
def handleLeafUnderflow (pid childIndex parent : ℕ) : TreeAction κ v (Option (MergeInfo κ)) :=
  handleUnderflow redistributeLeaves mergeLeaves
    (fun node =>
      if node.seps.length = 0 then pure (some ⟨⊥, some pid⟩)
      else fail (.io "leaf underflow with no siblings"))
    pid childIndex parent

/-- `handle_internal_underflow`. -/
def handleInternalUnderflow (pid childIndex parent : ℕ) : TreeAction κ v (Option (MergeInfo κ)) :=
  handleUnderflow redistributeInternals mergeInternals
    (fun _ => fail (.io "internal underflow with no siblings")) pid childIndex parent

/-- `delete_from_leaf`; `parent` is the page above, and the index of the leaf there. -/
def deleteFromLeaf (key : κ) (pid : ℕ) (parent : Option (ℕ × ℕ)) :
    TreeAction κ v (Option (MergeInfo κ)) := do
  let l ← loadLeaf pid
  let l' ← lift (l.delete key)
  writeLeaf pid l'
  match parent with
  | none => pure none
  | some (parentId, childIndex) =>
    if l'.entries.length < minKeys then handleLeafUnderflow pid childIndex parentId else pure none

/-- The separator of a merge, if the node has one of that key, leaves it. -/
def removeSeparatorKey (pid : ℕ) (key : κ) : TreeAction κ v Unit := do
  let node ← loadInternal pid
  match node.seps.findIdx? fun e => e.1 = key with
  | none => pure ()
  | some slot => removeSeparatorAt pid slot

/-- `handle_child_merge`. A root without separators is freed, and its child becomes the root. -/
def handleChildMerge (pid : ℕ) (info : MergeInfo κ) (parent : Option (ℕ × ℕ)) :
    TreeAction κ v (Option (MergeInfo κ)) := do
  removeSeparatorKey pid info.separatorKey
  let node ← loadInternal pid
  match parent with
  | none =>
    if node.seps.length = 0 then do
      freePage pid
      pure (some ⟨info.separatorKey, some node.leftmost⟩)
    else pure none
  | some (parentId, childIndex) =>
    if node.seps.length < minKeys then handleInternalUnderflow pid childIndex parentId else pure none

/-- `delete_from_page`, over at most `n` pages. -/
def deleteFromPage (key : κ) : ℕ → ℕ → Option (ℕ × ℕ) → TreeAction κ v (Option (MergeInfo κ))
  | 0, _, _ => fail .diverges
  | n + 1, pid, parent => do
    match ← loadPage pid with
    | .raw => fail .invalidPageType
    | .leaf _ => deleteFromLeaf key pid parent
    | .internal node => do
      match ← deleteFromPage key n (node.findChildPosition key).1
        (some (pid, (node.findChildPosition key).2)) with
      | none => pure none
      | some info =>
        if info.newRoot.isSome then pure (some info) else handleChildMerge pid info parent

end Delete

/-! ### Equal keys -/

/-- `IndexManager::search_all_from_page_async`, over at most `n` pages on each way. -/
def searchAllFromPage (key : κ) : ℕ → ℕ → TreeAction κ v (List v)
  | 0, _ => fail .diverges
  | n + 1, pid => do
    match ← loadPage pid with
    | .raw => fail .invalidPageType
    | .leaf l => pure ((l.entries.filter fun e => e.1 = key).map Prod.snd)
    | .internal node =>
      (node.equalityCandidateChildren key).foldlM (fun results child => do
        let childResults ← searchAllFromPage key n child
        pure (results ++ childResults)) []

/-- The first of the pages on which the action does not return `KeyNotFound`. -/
def firstFound (act : ℕ → TreeAction κ v Unit) : List ℕ → TreeAction κ v Unit
  | [] => fail .keyNotFound
  | child :: rest => fun P =>
    match act child P with
    | (.error .keyNotFound, P') => firstFound act rest P'
    | result => result

/-- `delete_exact_from_page`, over at most `n` pages on each way. -/
def deleteExactFromPage [DecidableEq v] (key : κ) (value : v) : ℕ → ℕ → TreeAction κ v Unit
  | 0, _ => fail .diverges
  | n + 1, pid => do
    match ← loadPage pid with
    | .raw => fail .invalidPageType
    | .leaf l =>
      match l.entries.findIdx? fun e => e = (key, value) with
      | none => fail .keyNotFound
      | some i => do
        let page ← lift (removeSlot l.page i)
        writeLeaf pid { l with page }
    | .internal node => firstFound (deleteExactFromPage key value n) (node.equalityCandidateChildren key)

/-! ### Trees -/

/-- `BTree`: the pages, and the root. -/
structure Tree (κ v : Type) where
  pages : Pages κ v
  root : ℕ

namespace Tree

/-- An operation, which returns the root it leaves. -/
def perform (t : Tree κ v) (op : TreeAction κ v ℕ) : Except TreeError Unit × Tree κ v :=
  match op t.pages with
  | (.ok root, pages) => (.ok (), ⟨pages, root⟩)
  | (.error e, pages) => (.error e, ⟨pages, t.root⟩)

/-- `BTree::new`. -/
def new (alloc : Allocator κ v) : Tree κ v :=
  let root := alloc.pick Pages.empty
  ⟨(Pages.empty.push (.alloc root)).push (.write root (.leaf LeafNode.init)), root⟩

/-- `BTree::search`. -/
def search (t : Tree κ v) (key : κ) : Except TreeError (Option v) :=
  (searchFromPage key t.pages.mark t.root t.pages).1

/-- `BTree::insert`. -/
def insert (alloc : Allocator κ v) (t : Tree κ v) (key : κ) (value : v) :
    Except TreeError Unit × Tree κ v :=
  t.perform do
    match ← insertIntoPage alloc key value t.pages.mark t.root [] with
    | none => pure t.root
    | some result => growRoot alloc t.root result

/-- `BTree::update`. -/
def update (t : Tree κ v) (key : κ) (value : v) : Except TreeError Unit × Tree κ v :=
  t.perform do
    updateInPage key value t.pages.mark t.root
    pure t.root

/-- `BTree::delete`. -/
def delete [OrderBot κ] (t : Tree κ v) (key : κ) : Except TreeError Unit × Tree κ v :=
  t.perform do
    match ← deleteFromPage key t.pages.mark t.root none with
    | some ⟨_, some root⟩ => pure root
    | _ => pure t.root

/-- `IndexManager::search_all`. -/
def searchAll (t : Tree κ v) (key : κ) : Except TreeError (List v) :=
  (searchAllFromPage key t.pages.mark t.root t.pages).1

/-- `BTree::delete_exact`. -/
def deleteExact [DecidableEq v] (t : Tree κ v) (key : κ) (value : v) :
    Except TreeError Unit × Tree κ v :=
  t.perform do
    deleteExactFromPage key value t.pages.mark t.root
    pure t.root

end Tree

end RTsql.Storage.BTree

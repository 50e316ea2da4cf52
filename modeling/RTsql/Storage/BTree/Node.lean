import RTsql.Library.BinarySearch
import RTsql.Storage.SlottedPage
import Mathlib.Data.List.Sort

/-!
# The nodes of a B-tree

`node.rs`. A leaf is a page of entries, a key and a value each, in the order of the keys, and
names the leaf behind it. An internal node is a page of separators, each a key and the child
to its right, and names its leftmost child.

A node keeps its slots in order by writing the page anew whenever an entry does not belong at the
end; this gives back the bytes of the entries that were removed. But the check whether
there is room comes first.
-/

namespace RTsql.Storage.BTree

open RTsql.Library

/-- `StorageError`, as far as trees return it. -/
inductive TreeError where
  | pageFull
  | keyNotFound
  | invalidPageType
  /-- The page could not be loaded. -/
  | pageNotFound (pid : ℕ)
  | io (message : String)
  | internal (message : String)
  /-- An `unwrap` or an index that the source takes to be in range. -/
  | panic
  /-- Not an error of the source: the descent goes round in a circle. -/
  | diverges
  deriving DecidableEq, Repr

/-- `MAX_KEY_LEN + RowId::SIZE`. -/
def leafEntrySize : ℕ := 38

/-- `MAX_KEY_LEN + 4`. -/
def separatorSize : ℕ := 36

section Pages

variable {α : Type} {size : ℕ}

/-- `insert_simple`, `insert_separator_simple`. The check that comes before `add_slot` is that of
`add_slot`. -/
def insertSimple (p : SlottedPage α size) (a : α) : Except TreeError (SlottedPage α size) :=
  match p.addSlot a with
  | none => .error .pageFull
  | some p' => .ok p'

/-- A page written anew. -/
def rebuild (l : List α) : Except TreeError (SlottedPage α size) :=
  match SlottedPage.fill l with
  | none => .error .pageFull
  | some p => .ok p

/-- `delete_slot`. -/
def removeSlot (p : SlottedPage α size) (i : ℕ) : Except TreeError (SlottedPage α size) :=
  match p.deleteSlot i with
  | none => .error (.io "Slot index out of range")
  | some p' => .ok p'

end Pages

variable {κ v : Type} [LinearOrder κ]

/-- `sort_by(|(a, _), (b, _)| a.cmp(b))`. -/
def sortEntries {α : Type} (l : List (κ × α)) : List (κ × α) := l.insertionSort fun a b => a.1 ≤ b.1

/-- How the key of slot `i` compares with `key`; a slot that cannot be read counts as greater. -/
def compareAt {α : Type} (l : List (κ × α)) (key : κ) (i : ℕ) : Ordering :=
  match l[i]? with
  | some e => compare e.1 key
  | none => .gt

/-! ### Leaves -/

/-- `LeafNode`. -/
structure LeafNode (κ v : Type) where
  page : SlottedPage (κ × v) leafEntrySize
  /-- `next_leaf_page_id`. -/
  next : ℕ

/-- `LeafSplitData`. -/
structure LeafSplit (κ v : Type) where
  middleKey : κ
  rightEntries : List (κ × v)
  oldNext : ℕ

namespace LeafNode

/-- `LeafNode::init`. -/
def init : LeafNode κ v := ⟨SlottedPage.init, 0⟩

/-- `entries`, as every function reads them. -/
def entries (l : LeafNode κ v) : List (κ × v) := l.page.slots

/-- `find_key_position`: the first entry whose key is not smaller. -/
def findKeyPosition (l : LeafNode κ v) (key : κ) : ℕ := l.entries.findIdx fun e => key ≤ e.1

/-- `find_key_position_binary`. -/
def findKeyPositionBinary (l : LeafNode κ v) (key : κ) : Bool × ℕ :=
  binarySearch (compareAt l.entries key) l.entries.length 0 l.entries.length

/-- What a search reads in the leaf: `get_row_id` at the position found. -/
def find (l : LeafNode κ v) (key : κ) : Option v :=
  match l.findKeyPositionBinary key with
  | (true, position) => l.entries[position]?.map Prod.snd
  | (false, _) => none

/-- `shift_slots_right`: the page is written anew, in order. -/
def shiftSlotsRight (l : LeafNode κ v) : Except TreeError (LeafNode κ v) :=
  (rebuild (sortEntries l.entries)).map fun page => { l with page }

/-- `LeafNode::insert`. The slot comes last; if that is not its place, the page is written anew. -/
def insert (l : LeafNode κ v) (key : κ) (value : v) : Except TreeError (LeafNode κ v) :=
  (insertSimple l.page (key, value)).bind fun page =>
    if l.entries.length = l.findKeyPosition key then .ok { l with page } else shiftSlotsRight
      { l with page }

/-- The entry that `delete` and `update` look for is at `find_key_position`. -/
def locate (l : LeafNode κ v) (key : κ) : Except TreeError ℕ :=
  match l.entries[l.findKeyPosition key]? with
  | none => .error .keyNotFound
  | some e => if e.1 = key then .ok (l.findKeyPosition key) else .error .keyNotFound

/-- `LeafNode::delete`. -/
def delete (l : LeafNode κ v) (key : κ) : Except TreeError (LeafNode κ v) :=
  (l.locate key).bind fun position =>
    (removeSlot l.page position).map fun page => { l with page }

/-- `LeafNode::update`. The page is written anew and loses its `next_leaf_page_id`. -/
def update (l : LeafNode κ v) (key : κ) (value : v) : Except TreeError (LeafNode κ v) :=
  (l.locate key).bind fun _ =>
    (rebuild (l.entries.map fun e => if e.1 = key then (e.1, value) else e)).map fun page =>
      { page, next := 0 }

/-- `LeafNode::split`: the left half, which keeps the page, and what goes to the new one. -/
def split (l : LeafNode κ v) : Except TreeError (LeafNode κ v × LeafSplit κ v) :=
  let sorted := sortEntries l.entries
  match sorted[sorted.length / 2]? with
  | none => .error (.io "cannot split empty leaf node")
  | some middle =>
    (rebuild (sorted.take (sorted.length / 2))).map fun page =>
      ({ page, next := 0 }, ⟨middle.1, sorted.drop (sorted.length / 2), l.next⟩)

/-- A new leaf with the entries. -/
def build (entries : List (κ × v)) (next : ℕ) : Except TreeError (LeafNode κ v) :=
  (rebuild entries).map fun page => { page, next }

end LeafNode

/-! ### Internal nodes -/

/-- `InternalNode`. -/
structure InternalNode (κ : Type) where
  page : SlottedPage (κ × ℕ) separatorSize
  /-- `leftmost_child`. -/
  leftmost : ℕ

/-- `InternalSplitData`. -/
structure InternalSplit (κ : Type) where
  middleKey : κ
  newLeftmost : ℕ
  rightSeparators : List (κ × ℕ)

/-- `pending_in_right`: the child has gone to the new page. -/
def InternalSplit.inRight {κ : Type} (split : InternalSplit κ) (child : ℕ) : Bool :=
  split.newLeftmost = child || split.rightSeparators.any fun e => e.2 = child

namespace InternalNode

/-- `get_all_separators`. -/
def seps (n : InternalNode κ) : List (κ × ℕ) := n.page.slots

/-- The child at a position: `leftmost_child`, or the child of the separator before. -/
def childAt (n : InternalNode κ) : ℕ → ℕ
  | 0 => n.leftmost
  | i + 1 => (n.seps[i]?.map Prod.snd).getD n.leftmost

/-- `find_child_position`. -/
def findChildPosition (n : InternalNode κ) (key : κ) : ℕ × ℕ :=
  match binarySearch (compareAt n.seps key) n.seps.length 0 n.seps.length with
  | (true, mid) => (n.childAt (mid + 1), mid + 1)
  | (false, lo) => (n.childAt lo, lo)

/-- `equality_candidate_children`: every child that may have the key. The source counts from the
last separator that is not greater up; here `hi` is one more. -/
def equalityCandidateChildren (n : InternalNode κ) (key : κ) : List ℕ :=
  let lo := partitionPoint (fun i => compareAt n.seps key i = .lt) (fun lo hi => lo + (hi - lo) / 2)
    n.seps.length 0 n.seps.length
  let hi := partitionPoint (fun i => (n.seps[i]?.map fun e => compare e.1 key) ≠ some .gt)
    (fun lo hi => lo + (hi - 1 - lo) / 2) n.seps.length 0 n.seps.length
  (List.range' lo (min n.seps.length hi + 1 - lo)).map n.childAt

/-- `find_child_page_id_binary`. -/
def findChildPageIdBinary (n : InternalNode κ) (key : κ) : ℕ := (n.findChildPosition key).1

/-- `separator_index_after_child`. -/
def separatorIndexAfterChild (n : InternalNode κ) (left : ℕ) : Except TreeError ℕ :=
  if n.leftmost = left then .ok 0
  else
    match n.seps.findIdx? fun e => e.2 = left with
    | some i => .ok (i + 1)
    | none => .error (.io s!"split child page {left} is not a child of this internal node")

/-- `splice_separator`: the last separator goes to `position`. -/
def spliceSeparator (n : InternalNode κ) (position : ℕ) : Except TreeError (InternalNode κ) :=
  match n.seps.getLast? with
  | none => .error (.io "separator splice index out of range")
  | some e =>
    if n.seps.length < position then .error (.io "separator splice index out of range")
    else (rebuild (n.seps.dropLast.insertIdx position e)).map fun page => { n with page }

/-- `insert_separator`: behind the child `left`. -/
def insertSeparator (n : InternalNode κ) (key : κ) (right left : ℕ) :
    Except TreeError (InternalNode κ) :=
  (n.separatorIndexAfterChild left).bind fun position =>
    (insertSimple n.page (key, right)).bind fun page =>
      if n.seps.length = position then .ok { n with page } else spliceSeparator { n with page } position

/-- `replace_separator`. -/
def replaceSeparator (n : InternalNode κ) (i : ℕ) (key : κ) (right : ℕ) :
    Except TreeError (InternalNode κ) :=
  if i < n.seps.length then .ok { n with page := n.page.updateSlotInPlace i (key, right) }
  else .error (.io s!"separator index {i} out of range")

/-- `remove_separator`. -/
def removeSeparator (n : InternalNode κ) (i : ℕ) : Except TreeError (InternalNode κ) :=
  (removeSlot n.page i).map fun page => { n with page }

/-- A new node with the separators. -/
def build (leftmost : ℕ) (seps : List (κ × ℕ)) : Except TreeError (InternalNode κ) :=
  (rebuild seps).map fun page => { page, leftmost }

/-- `InternalNode::split`: the left half, which keeps the page, and what goes to the new one. The
separator in the middle goes up. -/
def split (n : InternalNode κ) : Except TreeError (InternalNode κ × InternalSplit κ) :=
  match n.seps[n.seps.length / 2]? with
  | none => .error (.io "cannot split empty internal node")
  | some middle =>
    (build n.leftmost (n.seps.take (n.seps.length / 2))).map fun left =>
      (left, ⟨middle.1, middle.2, n.seps.drop (n.seps.length / 2 + 1)⟩)

end InternalNode

end RTsql.Storage.BTree

import RTsql.Library.Except
import RTsql.Library.Fenced
import RTsql.Storage.BTree.Node
import Mathlib.Data.Multiset.Basic

/-!
# What the operations on nodes do

One lemma for each operation of a node, for nodes whose keys ascend strictly. Those
on leaves speak of the entries as a multiset; those on internal nodes of the list
of separators, with the child that the operation is about as the last one of a front part.
-/

namespace RTsql.Storage.BTree

open List RTsql.Library SlottedPage

variable {κ v α : Type} [LinearOrder κ]

/-- The keys ascend: strictly, or with equal keys side by side. -/
def Ascend (strict : Bool) (l : List (κ × α)) : Prop := l.Pairwise fun a b => Before strict a.1 b.1

/-- As many entries as fit into a leaf. -/
def maxEntries : ℕ := 92

/-- As many separators as fit into an internal node. -/
def maxSeparators : ℕ := 97

/-! ### Lists in order -/

section Lists

variable {strict : Bool} {l l₁ l₂ : List (κ × α)}

theorem Ascend.append (h₁ : Ascend strict l₁) (h₂ : Ascend strict l₂)
    (h : ∀ a ∈ l₁, ∀ b ∈ l₂, Before strict a.1 b.1) : Ascend strict (l₁ ++ l₂) :=
  pairwise_append.mpr ⟨h₁, h₂, h⟩

theorem Ascend.sortEntries_eq (h : Ascend strict l) : sortEntries l = l :=
  List.Pairwise.insertionSort_eq (List.Pairwise.imp (fun hab => hab.le) h)

theorem perm_sortEntries (l : List (κ × α)) : (sortEntries l).Perm l := perm_insertionSort _ l

/-- Sorting puts the keys in order: strictly, if they are different. -/
theorem ascend_sortEntries (h : strict = true → (l.map Prod.fst).Nodup) :
    Ascend strict (sortEntries l) := by
  have hle : (sortEntries l).Pairwise fun a b => a.1 ≤ b.1 := by
    exact pairwise_insertionSort _ l
  cases strict with
  | false => exact hle
  | true =>
    have hne : (sortEntries l).Pairwise fun a b => a.1 ≠ b.1 := by
      have hnd := ((perm_sortEntries l).map Prod.fst).nodup_iff.mpr (h rfl)
      exact pairwise_map.mp hnd
    exact (hle.and hne).imp fun hab => lt_of_le_of_ne hab.1 hab.2

theorem Ascend.nodup_keys (h : Ascend true l) : (l.map Prod.fst).Nodup :=
  pairwise_map.mpr (h.imp fun hab => ne_of_lt hab)

/-- A key of the list is at the index of the first key that is not smaller. -/
theorem Ascend.findIdx_eq (h : Ascend strict l) {key : κ} (hkey : key ∈ l.map Prod.fst) :
    ∃ value, l[l.findIdx fun x => decide (key ≤ x.1)]? = some (key, value) := by
  induction l with
  | nil => cases hkey
  | cons a l ih =>
    obtain ⟨ha, hl⟩ := pairwise_cons.mp h
    rcases mem_cons.mp hkey with rfl | hkey
    · exact ⟨a.2, by simp [findIdx_cons]⟩
    · obtain ⟨e, he, rfl⟩ := mem_map.mp hkey
      rcases (ha e he).le.eq_or_lt with heq | hlt
      · exact ⟨a.2, by simp [findIdx_cons, ← heq]⟩
      · rw [findIdx_cons, show decide (e.1 ≤ a.1) = false from decide_eq_false (not_le.mpr hlt)]
        exact ih hl hkey

theorem ascending_compareAt (h : Ascend strict l) (key : κ) : Ascending (compareAt l key) l.length where
  lt i j hij hj hcmp := by
    have hi : i < l.length := by omega
    simp only [compareAt, getElem?_eq_getElem hj, getElem?_eq_getElem hi, compare_lt_iff_lt] at hcmp ⊢
    rcases Nat.lt_or_eq_of_le hij with hlt | rfl
    · exact (pairwise_iff_getElem.mp h i j hi hj hlt).le.trans_lt hcmp
    · exact hcmp
  gt i j hij hj hcmp := by
    have hi : i < l.length := by omega
    simp only [compareAt, getElem?_eq_getElem hj, getElem?_eq_getElem hi, compare_gt_iff_gt] at hcmp ⊢
    rcases Nat.lt_or_eq_of_le hij with hlt | rfl
    · exact hcmp.trans_le (pairwise_iff_getElem.mp h i j hi hj hlt).le
    · exact hcmp

theorem insertIdx_append (l₁ l₂ : List α) (a : α) :
    (l₁ ++ l₂).insertIdx l₁.length a = l₁ ++ a :: l₂ := by
  induction l₁ with
  | nil => rfl
  | cons x l₁ ih => simp [ih]

/-- The two halves of a list, and its middle. -/
theorem exists_middle {l : List α} (h : 0 < l.length) :
    ∃ front middle back, l = front ++ middle :: back ∧ front.length = l.length / 2 ∧
      l[l.length / 2]? = some middle ∧ l.take (l.length / 2) = front ∧
      l.drop (l.length / 2) = middle :: back ∧ l.drop (l.length / 2 + 1) = back := by
  have hmid : l.length / 2 < l.length := by omega
  refine ⟨l.take (l.length / 2), l[l.length / 2], l.drop (l.length / 2 + 1), ?_, ?_, ?_, rfl, ?_, rfl⟩
  · rw [← drop_eq_getElem_cons hmid, take_append_drop]
  · rw [length_take]
    omega
  · exact getElem?_eq_getElem hmid
  · exact drop_eq_getElem_cons hmid

/-- **Binary search** in a list in order: it finds the key, or the place between smaller and greater
keys. -/
theorem binarySearch_compareAt (h : Ascend strict l) (key : κ) :
    match binarySearch (compareAt l key) l.length 0 l.length with
    | (true, p) => ∃ value, l[p]? = some (key, value)
    | (false, p) => p ≤ l.length ∧ (∀ e ∈ l.take p, e.1 < key) ∧ ∀ e ∈ l.drop p, key < e.1 := by
  have hspec := binarySearch_spec (ascending_compareAt h key) (n := l.length)
    (Nat.le_refl (l.length - 0)) (Nat.zero_le _)
    (Nat.le_refl _) (fun i hi => by omega) (fun i hi hi' => by omega)
  generalize binarySearch (compareAt l key) l.length 0 l.length = result at hspec ⊢
  match result, hspec with
  | (true, p), ⟨hlt, hcmp⟩ =>
    simp only [compareAt, getElem?_eq_getElem hlt, compare_eq_iff_eq] at hcmp
    exact ⟨(l[p]).2, by rw [getElem?_eq_getElem hlt, ← hcmp]⟩
  | (false, p), ⟨hle, hlow, hhigh⟩ =>
    refine ⟨hle, fun e he => ?_, fun e he => ?_⟩
    · obtain ⟨i, hi, rfl⟩ := getElem_of_mem he
      rw [length_take] at hi
      have hcmp := hlow i (by omega)
      simp only [compareAt, getElem?_eq_getElem (show i < l.length by omega), compare_lt_iff_lt] at hcmp
      rwa [getElem_take]
    · obtain ⟨i, hi, rfl⟩ := getElem_of_mem he
      rw [length_drop] at hi
      have hcmp := hhigh (p + i) (by omega) (by omega)
      simp only [compareAt, getElem?_eq_getElem (show p + i < l.length by omega),
        compare_gt_iff_gt] at hcmp
      rwa [getElem_drop]

end Lists

/-! ### Pages -/

section Pages

variable {size i : ℕ} {p : SlottedPage α size}

theorem insertSimple_of_le (a : α) (h : slotSize + size ≤ p.freeSpace) :
    ∃ p', insertSimple p a = .ok p' ∧ p'.slots = p.slots ++ [a] := by
  obtain ⟨p', hp', hslots, -⟩ := addSlot_of_le a h
  exact ⟨p', by rw [insertSimple, hp'], hslots⟩

theorem insertSimple_of_lt (a : α) (h : p.freeSpace < slotSize + size) :
    insertSimple p a = .error .pageFull := by
  rw [insertSimple, addSlot_of_lt a h]

/-- **A page written anew** has the records, and no bytes lost. -/
theorem rebuild_spec (size : ℕ) (l : List α) (h : headerSize + (size + slotSize) * l.length ≤ pageSize) :
    ∃ p : SlottedPage α size, rebuild l = .ok p ∧ p.slots = l ∧
    p.offset = headerSize + size * l.length := by
  obtain ⟨p, hp, hslots⟩ := foldlM_addSlot (p := init) h
  exact ⟨p, by rw [rebuild, fill, hp], hslots⟩

theorem removeSlot_of_lt (h : i < p.slots.length) :
    ∃ p', removeSlot p i = .ok p' ∧ p'.slots = p.slots.eraseIdx i := by
  obtain ⟨p', hp', hslots, -⟩ := deleteSlot_of_lt h
  exact ⟨p', by rw [removeSlot, hp'], hslots⟩

end Pages

/-! ### Leaves -/

namespace LeafNode

section Room

variable {κ v : Type}

/-- There is room for one more entry. -/
def HasRoom (l : LeafNode κ v) : Prop := slotSize + leafEntrySize ≤ l.page.freeSpace

instance (l : LeafNode κ v) : Decidable l.HasRoom := inferInstanceAs (Decidable (_ ≤ _))

theorem length_entries_le (l : LeafNode κ v) : l.entries.length ≤ maxEntries := by
  have := l.page.length_le
  simp only [headerSize, leafEntrySize, slotSize, pageSize] at this
  show l.page.slots.length ≤ 92
  omega

theorem rebuild_entries (entries : List (κ × v)) (h : entries.length ≤ maxEntries) :
    ∃ p : SlottedPage (κ × v) leafEntrySize, rebuild entries = .ok p ∧ p.slots = entries ∧
      p.offset = headerSize + leafEntrySize * entries.length := by
  refine rebuild_spec leafEntrySize entries ?_
  simp only [headerSize, leafEntrySize, slotSize, pageSize]
  simp only [maxEntries] at h
  omega

theorem build_spec (entries : List (κ × v)) (next : ℕ) (h : entries.length ≤ maxEntries) :
    ∃ l, build entries next = .ok l ∧ l.entries = entries ∧ l.next = next := by
  obtain ⟨p, hp, hslots, -⟩ := rebuild_entries entries h
  exact ⟨⟨p, next⟩, by rw [build, hp]; rfl, hslots, rfl⟩

end Room

variable {strict : Bool} {l l' : LeafNode κ v} {key : κ} {value : v}

theorem insert_of_full (h : ¬ l.HasRoom) : l.insert key value = .error .pageFull := by
  rw [insert, insertSimple_of_lt _ (Nat.lt_of_not_le h)]
  rfl

/-- An insertion keeps the link. -/
theorem next_insert (hins : l.insert key value = .ok l') : l'.next = l.next := by
  obtain ⟨page, -, hins⟩ := bind_eq_ok.mp hins
  split at hins
  · rw [← Except.ok.inj hins]
  · obtain ⟨page', -, rfl⟩ := map_eq_ok.mp hins
    rfl

/-- So does a deletion. -/
theorem next_delete (hdel : l.delete key = .ok l') : l'.next = l.next := by
  obtain ⟨position, -, hdel⟩ := bind_eq_ok.mp hdel
  obtain ⟨page, -, rfl⟩ := map_eq_ok.mp hdel
  rfl

/-- An update does not. -/
theorem next_update (hupd : l.update key value = .ok l') : l'.next = 0 := by
  obtain ⟨position, -, hupd⟩ := bind_eq_ok.mp hupd
  obtain ⟨page, -, rfl⟩ := map_eq_ok.mp hupd
  rfl

/-- **Insertion**, when there is room. Where keys are unique, the leaf must not have the key. -/
theorem insert_spec (key : κ) (value : v) (hroom : l.HasRoom) (hasc : Ascend strict l.entries)
    (hkey : strict = true → key ∉ l.entries.map Prod.fst) :
    ∃ l', l.insert key value = .ok l' ∧ Ascend strict l'.entries ∧
    l'.entries.Perm ((key, value) :: l.entries) := by
  obtain ⟨p, hp, hslots⟩ := insertSimple_of_le (p := l.page) (key, value) hroom
  rw [insert, hp]
  show ∃ l', (if l.entries.length = l.findKeyPosition key then Except.ok { l with page := p }
    else shiftSlotsRight { l with page := p }) = _ ∧ _
  by_cases hlast : l.entries.length = l.findKeyPosition key
  · rw [if_pos hlast]
    refine ⟨_, rfl, ?_, ?_⟩
    · show Ascend strict p.slots
      rw [hslots]
      refine hasc.append (pairwise_singleton _ _) fun a ha b hb => ?_
      -- every key of the leaf is smaller
      rw [mem_singleton.mp hb]
      have hnone := findIdx_eq_length.mp hlast.symm a ha
      exact before_of_lt (by simpa using hnone)
    · show p.slots.Perm _
      rw [hslots]
      exact perm_append_singleton (key, value) l.entries
  · rw [if_neg hlast]
    have hlen := length_entries_le { l with page := p }
    obtain ⟨q, hq, hqslots, -⟩ := rebuild_entries (sortEntries p.slots)
      (by rw [(perm_sortEntries p.slots).length_eq]; exact hlen)
    show ∃ l', (rebuild (sortEntries p.slots)).map _ = _ ∧ _
    rw [hq]
    refine ⟨_, rfl, ?_, ?_⟩
    · show Ascend strict q.slots
      rw [hqslots, hslots]
      refine ascend_sortEntries fun hstrict => ?_
      subst hstrict
      rw [map_append, nodup_append]
      refine ⟨hasc.nodup_keys, nodup_singleton _, ?_⟩
      rintro a ha b hb rfl
      rw [mem_singleton.mp hb] at ha
      exact hkey rfl ha
    · show q.slots.Perm _
      rw [hqslots, hslots]
      exact (perm_sortEntries _).trans (perm_append_singleton (key, value) l.entries)

/-- An empty leaf cannot be split. -/
theorem split_of_nil (h : l.entries = []) : l.split = .error (.io "cannot split empty leaf node") := by
  rw [split, h]
  rfl

/-- **The split** of a leaf that has entries. -/
theorem split_spec (hasc : Ascend strict l.entries) (hpos : 0 < l.entries.length) :
    ∃ left middle rest, l.split = .ok (left, ⟨middle.1, middle :: rest, l.next⟩) ∧ left.HasRoom ∧
      left.entries.length = l.entries.length / 2 ∧ l.entries = left.entries ++ middle :: rest := by
  obtain ⟨front, middle, rest, hentries, hlen, hat, htake, hdrop, -⟩ := exists_middle hpos
  have hle := l.length_entries_le
  obtain ⟨p, hp, hslots, hoffset⟩ := rebuild_entries front (by omega)
  refine ⟨⟨p, 0⟩, middle, rest, ?_, ?_, ?_, ?_⟩
  · simp only [split, hasc.sortEntries_eq, hat, htake, hdrop, hp]
    rfl
  · show slotSize + leafEntrySize ≤ p.freeSpace
    rw [freeSpace, hoffset, hslots]
    simp only [slotSize, leafEntrySize, pageSize, headerSize, maxEntries] at hle ⊢
    omega
  · show p.slots.length = _
    rw [hslots, hlen]
  · show _ = p.slots ++ _
    rw [hslots, hentries]

theorem locate_spec (hasc : Ascend strict l.entries) (hkey : key ∈ l.entries.map Prod.fst) :
    l.locate key = .ok (l.findKeyPosition key) ∧ ∃ value,
    l.entries[l.findKeyPosition key]? = some (key, value) := by
  obtain ⟨value, hat⟩ := hasc.findIdx_eq hkey
  refine ⟨?_, value, hat⟩
  rw [locate, show l.entries[l.findKeyPosition key]? = some (key, value) from hat]
  exact if_pos rfl

variable (hkey : key ∉ l.entries.map Prod.fst)

include hkey

theorem locate_of_notMem : l.locate key = .error .keyNotFound := by
  rw [locate]
  cases hat : l.entries[l.findKeyPosition key]? with
  | none => rfl
  | some e =>
    refine if_neg ?_
    rintro rfl
    exact hkey (mem_map_of_mem (mem_of_getElem? hat))

theorem delete_of_notMem : l.delete key = .error .keyNotFound := by
  rw [delete, locate_of_notMem hkey]
  rfl

theorem update_of_notMem : l.update key value = .error .keyNotFound := by
  rw [update, locate_of_notMem hkey]
  rfl

omit hkey

/-- **Deletion** of a key that the leaf has: its first entry. -/
theorem delete_spec (hasc : Ascend strict l.entries) (hkey : key ∈ l.entries.map Prod.fst) :
    ∃ value l', l.delete key = .ok l' ∧ Ascend strict l'.entries ∧
    l.entries.Perm ((key, value) :: l'.entries) := by
  obtain ⟨hloc, value, hat⟩ := locate_spec hasc hkey
  obtain ⟨hlt, hget⟩ := List.getElem?_eq_some_iff.mp hat
  obtain ⟨p, hp, hslots⟩ := removeSlot_of_lt (p := l.page) hlt
  rw [delete, hloc]
  show ∃ value l', (removeSlot l.page (l.findKeyPosition key)).map _ = _ ∧ _
  rw [hp]
  refine ⟨value, _, rfl, ?_, ?_⟩
  · show Ascend strict p.slots
    rw [hslots]
    exact hasc.sublist (eraseIdx_sublist ..)
  · show l.entries.Perm ((key, value) :: p.slots)
    rw [hslots, ← hget]
    exact (getElem_cons_eraseIdx_perm hlt).symm

/-- **Update** of a key that the leaf has. -/
theorem update_spec (value : v) (hasc : Ascend strict l.entries) (hkey : key ∈ l.entries.map Prod.fst) :
    ∃ l', l.update key value = .ok l' ∧ l'.entries = l.entries.map fun e =>
    if e.1 = key then (e.1, value) else e := by
  obtain ⟨hloc, -⟩ := locate_spec hasc hkey
  obtain ⟨p, hp, hslots, -⟩ := rebuild_entries
    (l.entries.map fun e => if e.1 = key then (e.1, value) else e)
    (by rw [length_map]; exact l.length_entries_le)
  rw [update, hloc]
  rw [hp]
  exact ⟨_, rfl, hslots⟩

/-- **Search** in a leaf. -/
theorem findKeyPositionBinary_spec (hasc : Ascend strict l.entries) (key : κ) :
    match l.findKeyPositionBinary key with
    | (true, position) => ∃ value, l.entries[position]? = some (key, value)
    | (false, _) => key ∉ l.entries.map Prod.fst := by
  have hspec := binarySearch_compareAt hasc key
  rw [findKeyPositionBinary]
  generalize binarySearch (compareAt l.entries key) l.entries.length 0 l.entries.length =
    result at hspec ⊢
  match result, hspec with
  | (true, position), hfound => exact hfound
  | (false, position), ⟨_, hlow, hhigh⟩ =>
    intro hmem
    obtain ⟨e, he, rfl⟩ := mem_map.mp hmem
    rw [← take_append_drop position l.entries, mem_append] at he
    rcases he with he | he
    · exact lt_irrefl _ (hlow e he)
    · exact lt_irrefl _ (hhigh e he)

/-- Where keys are unique, a search finds what the leaf has. -/
theorem find_spec (hasc : Ascend true l.entries) (key : κ) (value : v) :
    l.find key = some value ↔ (key, value) ∈ l.entries := by
  have hspec := findKeyPositionBinary_spec hasc key
  rw [find]
  match l.findKeyPositionBinary key, hspec with
  | (true, position), ⟨value', hat⟩ =>
    have hmem : (key, value') ∈ l.entries := mem_of_getElem? hat
    simp only [hat, Option.map_some, Option.some.injEq]
    constructor
    · rintro rfl
      exact hmem
    · intro hmem'
      exact congrArg Prod.snd (inj_on_of_nodup_map hasc.nodup_keys hmem hmem' rfl)
  | (false, _), hnot => exact ⟨nofun, fun hmem => absurd (mem_map_of_mem hmem) hnot⟩

end LeafNode

/-! ### Internal nodes -/

namespace InternalNode

section Room

variable {κ : Type} {n : InternalNode κ}

/-- There is room for one more separator. -/
def HasRoom (n : InternalNode κ) : Prop := slotSize + separatorSize ≤ n.page.freeSpace

instance (n : InternalNode κ) : Decidable n.HasRoom := inferInstanceAs (Decidable (_ ≤ _))

/-- No bytes are lost. -/
def Compact (n : InternalNode κ) : Prop := n.page.offset = headerSize + separatorSize * n.seps.length

theorem length_seps_le (n : InternalNode κ) : n.seps.length ≤ maxSeparators := by
  have := n.page.length_le
  simp only [headerSize, separatorSize, slotSize, pageSize] at this
  show n.page.slots.length ≤ 97
  omega

/-- A node that is full and has lost no bytes has all the separators that fit. -/
theorem Compact.length_seps (h : n.Compact) (hfull : ¬ n.HasRoom) : n.seps.length = maxSeparators := by
  have hle := n.length_seps_le
  simp only [HasRoom, freeSpace, Compact, seps, slotSize, separatorSize, pageSize, headerSize,
    maxSeparators] at *
  omega

/-- Where pages are merged, a node has at least two children; elsewhere its page has lost no
bytes. -/
def Sound (strict : Bool) (n : InternalNode κ) : Prop := if strict then n.seps ≠ [] else n.Compact

theorem sound_of {strict : Bool} (hseps : n.seps ≠ []) (hcompact : strict = false → n.Compact) :
    n.Sound strict := by
  cases strict with
  | true => exact hseps
  | false => exact hcompact rfl

theorem build_spec (leftmost : ℕ) (seps : List (κ × ℕ)) (h : seps.length ≤ maxSeparators) :
    ∃ n, build leftmost seps = .ok n ∧ n.seps = seps ∧ n.leftmost = leftmost ∧ n.Compact := by
  obtain ⟨p, hp, hslots, hoffset⟩ := rebuild_spec separatorSize seps (by
    simp only [headerSize, separatorSize, slotSize, pageSize, maxSeparators] at h ⊢
    omega)
  refine ⟨⟨p, leftmost⟩, by rw [build, hp]; rfl, hslots, rfl, ?_⟩
  show p.offset = headerSize + separatorSize * p.slots.length
  rw [hslots, hoffset]

/-- A node that has lost no bytes has room, unless it has all the separators that fit. -/
theorem Compact.hasRoom (h : n.Compact) (hlt : n.seps.length < maxSeparators) : n.HasRoom := by
  by_contra hfull
  have := h.length_seps hfull
  omega

variable {key s : κ} {pre post : List (κ × ℕ)} {right c i : ℕ}

theorem replaceSeparator_spec (hseps : n.seps = pre ++ (s, c) :: post) :
    ∃ n', n.replaceSeparator pre.length key right = .ok n' ∧ n'.seps = pre ++ (key, right) :: post ∧
      n'.leftmost = n.leftmost := by
  refine ⟨_, if_pos (by rw [hseps]; simp), ?_, rfl⟩
  show n.seps.set pre.length (key, right) = _
  rw [hseps]
  simp

theorem removeSeparator_spec (hseps : n.seps = pre ++ (s, c) :: post) :
    ∃ n', n.removeSeparator pre.length = .ok n' ∧ n'.seps = pre ++ post ∧ n'.leftmost = n.leftmost := by
  obtain ⟨p, hp, hslots⟩ := removeSlot_of_lt (p := n.page) (i := pre.length) (by
    show pre.length < n.seps.length
    rw [hseps]
    simp)
  refine ⟨⟨p, n.leftmost⟩, by rw [removeSeparator, hp]; rfl, ?_, rfl⟩
  show p.slots = _
  rw [hslots]
  show n.seps.eraseIdx pre.length = _
  rw [hseps, eraseIdx_append_of_length_le (Nat.le_refl _)]
  simp

/-- **The split** of a node that has separators. -/
theorem split_spec (hpos : 0 < n.seps.length) :
    ∃ left s c rest, n.split = .ok (left, ⟨s, c, rest⟩) ∧ n.seps = left.seps ++ (s, c) :: rest ∧
      left.leftmost = n.leftmost ∧ left.Compact ∧ left.seps.length = n.seps.length / 2 := by
  obtain ⟨front, ⟨s, c⟩, rest, hnseps, hlen, hat, htake, -, hdrop⟩ := exists_middle hpos
  have hle := n.length_seps_le
  obtain ⟨left, hleft, hseps, hleftmost, hcompact⟩ := build_spec n.leftmost front (by omega)
  refine ⟨left, s, c, rest, ?_, by rw [hseps, hnseps], hleftmost, hcompact, by rw [hseps, hlen]⟩
  rw [split, hat, htake, hdrop, hleft]
  rfl

theorem childAt_eq (hi : i ≤ n.seps.length) : n.childAt i = lastKid n.leftmost (n.seps.take i) := by
  cases i with
  | zero => rfl
  | succ i =>
    have hlt : i < n.seps.length := hi
    rw [childAt, take_succ_eq_append_getElem hlt, getElem?_eq_getElem hlt]
    rw [lastKid_append]
    rfl

theorem separatorIndexAfterChild_spec (hseps : n.seps = pre ++ post)
    (hnd : (n.leftmost :: n.seps.map Prod.snd).Nodup) :
    n.separatorIndexAfterChild (lastKid n.leftmost pre) = .ok pre.length := by
  obtain ⟨hout, hnd⟩ := nodup_cons.mp hnd
  rw [hseps, map_append] at hnd hout
  rcases eq_nil_or_concat pre with rfl | ⟨pre, e, rfl⟩
  · exact if_pos rfl
  · obtain ⟨s, c⟩ := e
    rw [concat_eq_append] at *
    rw [lastKid_append]
    show n.separatorIndexAfterChild c = _
    have hleft : n.leftmost ≠ c := by
      rintro rfl
      exact hout (mem_append_left _ (by simp))
    rw [separatorIndexAfterChild, if_neg hleft]
    -- the child of a separator before is another
    have hfind : n.seps.findIdx? (fun e => decide (e.2 = c)) = some pre.length := by
      have hfront : ∀ a ∈ pre, ¬ a.2 = c := by
        rintro a ha rfl
        rw [map_append, append_assoc] at hnd
        have := (nodup_append.mp hnd).2.2 a.2 (mem_map_of_mem ha) a.2 (by simp)
        exact this rfl
      rw [hseps, append_assoc, findIdx?_append, findIdx?_eq_none_iff.mpr (by simpa using hfront)]
      simp [findIdx?_cons]
    rw [hfind, length_append]
    rfl

theorem insertSeparator_of_full (hfull : ¬ n.HasRoom) (hseps : n.seps = pre ++ post)
    (hnd : (n.leftmost :: n.seps.map Prod.snd).Nodup) :
    n.insertSeparator key right (lastKid n.leftmost pre) = .error .pageFull := by
  rw [insertSeparator, separatorIndexAfterChild_spec hseps hnd]
  rw [insertSimple_of_lt _ (Nat.lt_of_not_le hfull)]
  rfl

/-- **A separator goes behind a child**, when there is room. -/
theorem insertSeparator_spec (key : κ) (right : ℕ) (hroom : n.HasRoom) (hseps : n.seps = pre ++ post)
    (hnd : (n.leftmost :: n.seps.map Prod.snd).Nodup) :
    ∃ n', n.insertSeparator key right (lastKid n.leftmost pre) = .ok n' ∧
      n'.seps = pre ++ (key, right) :: post ∧ n'.leftmost = n.leftmost ∧ (n.Compact → n'.Compact) := by
  obtain ⟨p, hp, hslots, hoffset⟩ := addSlot_of_le (p := n.page) (key, right) hroom
  have hins : insertSimple n.page (key, right) = .ok p := by rw [insertSimple, hp]
  rw [insertSeparator, separatorIndexAfterChild_spec hseps hnd]
  rw [hins]
  show ∃ n', (if n.seps.length = pre.length then Except.ok { n with page := p }
    else spliceSeparator { n with page := p } pre.length) = _ ∧ _
  have hslots' : p.slots = pre ++ post ++ [(key, right)] := by rw [← hseps]; exact hslots
  by_cases hlast : n.seps.length = pre.length
  · rw [if_pos hlast]
    obtain rfl : post = [] := by
      rw [hseps, length_append] at hlast
      exact length_eq_zero_iff.mp (by omega)
    refine ⟨_, rfl, ?_, rfl, fun hc => ?_⟩
    · show p.slots = _
      rw [hslots', append_nil]
    · show p.offset = headerSize + separatorSize * p.slots.length
      rw [hoffset, hc, hslots, length_append]
      show _ = headerSize + separatorSize * (n.seps.length + 1)
      rw [Nat.mul_add]
      omega
  · rw [if_neg hlast]
    have hlen := length_seps_le { n with page := p }
    have hlen' : (pre ++ post ++ [(key, right)]).length ≤ maxSeparators := by rw [← hslots']; exact hlen
    obtain ⟨q, hq, hqslots, hqleft, hqcompact⟩ := build_spec n.leftmost (pre ++ (key, right) :: post) (by
      simp only [length_append, length_cons, length_nil] at hlen' ⊢
      omega)
    refine ⟨q, ?_, hqslots, hqleft, fun _ => hqcompact⟩
    rw [spliceSeparator, show ((⟨p, n.leftmost⟩ : InternalNode κ).seps) = pre ++ post ++
      [(key, right)] from hslots', getLast?_concat]
    show (if _ then _ else _) = _
    rw [if_neg (by simp only [length_append]; omega), dropLast_concat]
    rwa [insertIdx_append]

end Room

variable {strict : Bool} {n : InternalNode κ}

/-- **Where a key belongs**: between the separators that are not greater, and those not smaller. -/
theorem findChildPosition_spec (hasc : Ascend strict n.seps) (key : κ) :
    ∃ pre post, n.seps = pre ++ post ∧ n.findChildPosition key = (lastKid n.leftmost pre, pre.length) ∧
      (∀ e ∈ pre, e.1 ≤ key) ∧ ∀ e ∈ post, Before strict key e.1 := by
  have hspec := binarySearch_compareAt hasc key
  rw [findChildPosition]
  generalize binarySearch (compareAt n.seps key) n.seps.length 0 n.seps.length = result at hspec ⊢
  match result, hspec with
  | (true, mid), ⟨child, hat⟩ =>
    obtain ⟨hlt, hget⟩ := List.getElem?_eq_some_iff.mp hat
    have hsplit : n.seps = n.seps.take mid ++ (key, child) :: n.seps.drop (mid + 1) := by
      rw [← hget, ← List.drop_eq_getElem_cons hlt, List.take_append_drop]
    have hasc' := hasc
    rw [hsplit] at hasc'
    obtain ⟨-, hpost, hcross⟩ := pairwise_append.mp hasc'
    refine ⟨n.seps.take (mid + 1), n.seps.drop (mid + 1), (take_append_drop ..).symm, ?_, ?_, ?_⟩
    · show (n.childAt (mid + 1), mid + 1) = _
      rw [childAt_eq (by omega), length_take, Nat.min_eq_left (by omega)]
    · intro e he
      rw [take_succ_eq_append_getElem hlt, hget, mem_append, mem_singleton] at he
      rcases he with he | rfl
      · exact (hcross e he (key, child) mem_cons_self).le
      · exact le_refl _
    · exact fun e he => (pairwise_cons.mp hpost).1 e he
  | (false, lo), ⟨hle, hlow, hhigh⟩ =>
    refine ⟨n.seps.take lo, n.seps.drop lo, (take_append_drop ..).symm, ?_, ?_, ?_⟩
    · show (n.childAt lo, lo) = _
      rw [childAt_eq hle, length_take, Nat.min_eq_left hle]
    · exact fun e he => (hlow e he).le
    · exact fun e he => before_of_lt (hhigh e he)

end InternalNode

end RTsql.Storage.BTree

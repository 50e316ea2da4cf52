import RTsql.Library.Run
import RTsql.Storage.BTree.Key
import RTsql.Storage.BTree.Operations

/-!
# Indexes refine maps

A unique index is a map from keys to row ids, a secondary index a multiset of pairs. Each is
shown as a system with the tree and what it stands for side by side: a step performs an
operation on both, and notes whether the tree has answered as it should.

A page does not give back the bytes of an entry that is deleted, until it is written anew. So a leaf
may be full without entries, and an insertion that comes to such a leaf fails
(`Tree.OneLeaf.insert_of_full`); it changes no entry then. Where no insertion does, a unique index
and its map agree after every run. -/

namespace RTsql.Storage.BTree

open RTsql.Library Proc Multiset
open Function (update update_self update_of_ne)

/-! ### A tree of one leaf -/

section OneLeaf

variable {κ v : Type} {t : Tree κ v} {b : ℕ}

/-- The root is a leaf with these entries; the next one will be written at `b`. -/
def Tree.OneLeaf (t : Tree κ v) (entries : List (κ × v)) (b : ℕ) : Prop :=
  ∃ l, t.pages.get t.root = some (.leaf l) ∧ l.entries = entries ∧ l.page.offset = b

theorem oneLeaf_new (alloc : Allocator κ v) : (Tree.new alloc).OneLeaf [] headerSize :=
  ⟨LeafNode.init, by simp [Tree.new], rfl, rfl⟩

theorem Tree.OneLeaf.mark_pos {entries : List (κ × v)} (ht : t.OneLeaf entries b) :
    ∃ fuel, t.pages.mark = fuel + 1 := by
  obtain ⟨l, hget, -⟩ := ht
  exact Nat.exists_eq_succ_of_ne_zero
    (Nat.ne_of_gt (Nat.zero_lt_of_lt (Pages.lt_mark (Pages.inUse_of_get hget))))

/-- The bytes of the only entry are lost with it. -/
theorem removeSlot_of_one {l : LeafNode κ v} {e : κ × v} (hentries : l.entries = [e]) :
    ∃ p, removeSlot l.page 0 = .ok p ∧ p.slots = [] ∧ p.offset = l.page.offset := by
  have hslots : l.page.slots = [e] := hentries
  obtain ⟨p, hp, hpslots, hoffset⟩ :=
    SlottedPage.deleteSlot_of_lt (p := l.page) (i := 0) (by rw [hslots]; exact Nat.one_pos)
  exact ⟨p, by rw [removeSlot, hp], by rw [hpslots, hslots]; rfl, hoffset⟩

variable [LinearOrder κ] {key : κ} {value : v}

/-- An entry goes into an empty leaf that has room. -/
theorem Tree.OneLeaf.insert (alloc : Allocator κ v) (key : κ) (value : v) (ht : t.OneLeaf [] b)
    (hroom : b + (slotSize + leafEntrySize) ≤ pageSize) :
    ∃ t', t.insert alloc key value = (.ok (), t') ∧ t'.OneLeaf [(key, value)] (b + leafEntrySize) := by
  obtain ⟨fuel, hfuel⟩ := ht.mark_pos
  obtain ⟨l, hget, hentries, rfl⟩ := ht
  have hslots : l.page.slots = [] := hentries
  obtain ⟨p, hp, hpslots, hpoffset⟩ := SlottedPage.addSlot_of_le (p := l.page) (key, value)
    (by rw [SlottedPage.freeSpace, hslots, List.length_nil]; omega)
  have hins : l.insert key value = .ok { l with page := p } := by
    rw [LeafNode.insert, insertSimple, hp]
    exact if_pos (by rw [LeafNode.findKeyPosition, hentries]; rfl)
  refine ⟨⟨t.pages.push (.write t.root (.leaf { l with page := p })), t.root⟩, ?_,
    { l with page := p }, by simp, ?_, hpoffset⟩
  · rw [Tree.insert, Tree.perform, hfuel]
    have hrun : insertIntoPage alloc key value (fuel + 1) t.root [] t.pages =
        (.ok none, t.pages.push (.write t.root (.leaf { l with page := p }))) := by
      rw [insertIntoPage, if_neg (List.not_mem_nil), bind_of_ok (loadPage_eq hget)]
      show insertIntoLeaf alloc t.root l key value t.pages = _
      rw [insertIntoLeaf, hins]
      rfl
    rw [bind_of_ok hrun]
    rfl
  · show p.slots = _
    rw [hpslots, hslots]
    rfl

/-- **An empty leaf without room** cannot be divided. -/
theorem Tree.OneLeaf.insert_of_full (alloc : Allocator κ v) (key : κ) (value : v) (ht : t.OneLeaf [] b)
    (hfull : pageSize < b + (slotSize + leafEntrySize)) :
    ∃ t', t.insert alloc key value = (.error (.io "cannot split empty leaf node"), t') := by
  obtain ⟨fuel, hfuel⟩ := ht.mark_pos
  obtain ⟨l, hget, hentries, rfl⟩ := ht
  have hroom : ¬ l.HasRoom := by
    rw [LeafNode.HasRoom, SlottedPage.freeSpace]
    simp only [slotSize, leafEntrySize, pageSize] at hfull ⊢
    omega
  refine ⟨⟨t.pages.push (.alloc (alloc.pick t.pages)), t.root⟩, ?_⟩
  have hrun : insertIntoPage alloc key value (fuel + 1) t.root [] t.pages =
      (.error (.io "cannot split empty leaf node"), t.pages.push (.alloc (alloc.pick t.pages))) := by
    rw [insertIntoPage, if_neg (List.not_mem_nil), bind_of_ok (loadPage_eq hget)]
    exact insertIntoLeaf_of_nil hroom hentries
  rw [Tree.insert, Tree.perform, hfuel, bind_of_error hrun]

/-- The only entry goes, and its bytes are lost. -/
theorem Tree.OneLeaf.delete [OrderBot κ] (ht : t.OneLeaf [(key, value)] b) :
    ∃ t', t.delete key = (.ok (), t') ∧ t'.OneLeaf [] b := by
  obtain ⟨fuel, hfuel⟩ := ht.mark_pos
  obtain ⟨l, hget, hentries, rfl⟩ := ht
  obtain ⟨p, hrem, hnil, hoffset⟩ := removeSlot_of_one hentries
  have hdel : l.delete key = .ok { l with page := p } := by
    have hpos : l.findKeyPosition key = 0 := by
      simp [LeafNode.findKeyPosition, hentries, List.findIdx_cons]
    have hloc : l.locate key = .ok 0 := by
      rw [LeafNode.locate, hpos, hentries]
      exact if_pos rfl
    rw [LeafNode.delete, hloc]
    show (removeSlot l.page 0).map _ = _
    rw [hrem]
    rfl
  refine ⟨⟨t.pages.push (.write t.root (.leaf { l with page := p })), t.root⟩, ?_,
    { l with page := p }, by simp, hnil, hoffset⟩
  have hrun : deleteFromPage key (fuel + 1) t.root none t.pages =
      (.ok none, t.pages.push (.write t.root (.leaf { l with page := p }))) := by
    rw [deleteFromPage, bind_of_ok (loadPage_eq hget)]
    show deleteFromLeaf key t.root none t.pages = _
    rw [deleteFromLeaf, bind_of_ok (loadLeaf_eq hget), bind_of_ok (by rw [hdel]; rfl)]
    rfl
  rw [Tree.delete, Tree.perform, hfuel, bind_of_ok hrun]
  rfl

end OneLeaf

/-! ### Unique indexes -/

namespace UniqueIndex

variable {κ v : Type}

/-- What is done with a unique index. -/
inductive Op (κ v : Type) where
  | insert (key : κ) (value : v)
  | delete (key : κ)
  | update (key : κ) (value : v)
  | search (key : κ)
  deriving DecidableEq, Repr

/-- A tree, the map it stands for, and whether every operation so far has returned what it
should. -/
structure State (κ v : Type) where
  tree : Tree κ v
  map : κ → Option v
  ok : Bool

/-- The operation has returned, and the map has changed. -/
def State.after (s : State κ v) (result : Except TreeError Unit × Tree κ v) (map : κ → Option v) :
    State κ v :=
  ⟨result.2, map, s.ok && result.1.isOk⟩

/-- `search` has returned what the map says. -/
def answers [DecidableEq v] (answer : Option v) : Except TreeError (Option v) → Bool
  | .ok r => r = answer
  | .error _ => false

variable [LinearOrder κ] [OrderBot κ] [DecidableEq v]

/-- An operation on both. Keys are inserted that the map does not have, and deleted and updated if
it has them. -/
def step (alloc : Allocator κ v) (s : State κ v) : Op κ v → Option (State κ v)
  | .insert key value =>
    if (s.map key).isNone then
      some (s.after (s.tree.insert alloc key value) (update s.map key (some value)))
    else none
  | .delete key =>
    if (s.map key).isSome then some (s.after (s.tree.delete key) (update s.map key none)) else none
  | .update key value =>
    if (s.map key).isSome then some (s.after (s.tree.update key value) (update s.map key (some value)))
    else none
  | .search key => some { s with ok := s.ok && answers (s.map key) (s.tree.search key) }

/-- An empty tree. -/
def init (alloc : Allocator κ v) : State κ v := ⟨Tree.new alloc, fun _ => none, true⟩

/-- On the way of an insertion, each page has room or entries enough to be divided. -/
def InsertOk (s : State κ v) : Op κ v → Prop
  | .insert key _ => s.tree.Divides true key
  | _ => True

instance (s : State κ v) : (op : Op κ v) → Decidable (InsertOk s op)
  | .insert key _ => inferInstanceAs (Decidable (s.tree.Divides true key))
  | .delete _ | .update _ _ | .search _ => .isTrue trivial

/-- The tree stands for the map. -/
structure Agrees (s : State κ v) : Prop where
  ok : s.ok = true
  holds : ∃ m, s.tree.Holds true m ∧ ∀ key value, s.map key = some value ↔ (key, value) ∈ m

variable {alloc : Allocator κ v} {s s' : State κ v} {key : κ}

omit [DecidableEq v] in
theorem Agrees.search (h : Agrees s) (key : κ) : s.tree.search key = .ok (s.map key) := by
  obtain ⟨m, hm, hmap⟩ := h.holds
  obtain ⟨r, hr, hr'⟩ := hm.search key
  rw [hr]
  congr 1
  ext value
  rw [hmap, hr']

omit [DecidableEq v] in
/-- An operation that succeeds on the tree, and whose entries the map follows. -/
theorem Agrees.after {t' : Tree κ v} {m' : Multiset (κ × v)} {map : κ → Option v} (h : Agrees s)
    (ht' : t'.Holds true m')
    (hmap : ∀ key value, map key = some value ↔ (key, value) ∈ m') : Agrees (s.after (.ok (), t') map) :=
  ⟨by rw [State.after, h.ok]; rfl, m', ht', hmap⟩

theorem agrees_step {op : Op κ v} (h : Agrees s) (hok : InsertOk s op)
    (hstep : step alloc s op = some s') : Agrees s' := by
  obtain ⟨m, hm, hmap⟩ := h.holds
  have hkeys : ∀ key, key ∈ m.map Prod.fst ↔ (s.map key).isSome = true := by
    intro key
    rw [Option.isSome_iff_exists, mem_map]
    constructor
    · rintro ⟨⟨k, value⟩, he, rfl⟩
      exact ⟨value, (hmap _ _).mpr he⟩
    · rintro ⟨value, hvalue⟩
      exact ⟨(key, value), (hmap _ _).mp hvalue, rfl⟩
  cases op with
  | insert key value =>
    obtain ⟨hnone, ⟨⟩⟩ := Option.ite_none_right_eq_some.mp hstep
    have habsent : key ∉ m.map Prod.fst := by
      rw [hkeys, Option.isNone_iff_eq_none.mp hnone]; exact Bool.false_ne_true
    obtain ⟨t', hins, ht'⟩ := hm.insert alloc value (fun _ => habsent) hok
    rw [hins]
    refine h.after ht' fun k x => ?_
    rw [mem_cons, ← hmap]
    obtain rfl | hk := eq_or_ne k key
    · simp [Option.isNone_iff_eq_none.mp hnone, eq_comm]
    · simp [hk]
  | delete key =>
    obtain ⟨hsome, ⟨⟩⟩ := Option.ite_none_right_eq_some.mp hstep
    obtain ⟨t', value, m', hdel, rfl, ht'⟩ := hm.delete ((hkeys key).mpr hsome)
    rw [hdel]
    refine h.after ht' fun k x => ?_
    obtain rfl | hk := eq_or_ne k key
    · have hnd := hm.nodup_keys
      rw [map_cons, nodup_cons] at hnd
      rw [update_self]
      exact ⟨nofun, fun hmem => absurd (mem_map_of_mem Prod.fst hmem) hnd.1⟩
    · rw [update_of_ne hk, hmap]
      simp [hk]
  | update key value =>
    obtain ⟨hsome, ⟨⟩⟩ := Option.ite_none_right_eq_some.mp hstep
    rcases hm.update key value with ⟨t', m₁, m₂, hupd, rfl, hmem, hothers, ht'⟩ | ⟨-, habsent⟩
    · rw [hupd]
      refine h.after ht' fun k x => ?_
      rw [mem_add]
      obtain rfl | hk := eq_or_ne k key
      · rw [update_self, mem_map_setValue_self, Option.some.injEq]
        exact ⟨fun hx => .inl ⟨hmem, hx.symm⟩, fun hx => hx.elim (fun h => h.2.symm)
          fun h => absurd rfl (hothers rfl _ h)⟩
      · rw [update_of_ne hk, mem_map_setValue_of_ne hk, hmap, mem_add]
    · exact absurd ((hkeys key).mpr hsome) (habsent rfl)
  | search key =>
    cases hstep
    refine ⟨?_, m, hm, hmap⟩
    simp [h.ok, h.search key, answers]

omit [DecidableEq v] in
theorem agrees_init (alloc : Allocator κ v) : Agrees (init alloc) :=
  ⟨rfl, 0, Tree.holds_new true alloc, fun _ _ => ⟨nofun, fun h => by cases h⟩⟩

/-- An entry is inserted and deleted over and over, and inserted once more. -/
def wear (key : κ) (value : v) : ℕ → List (Op κ v)
  | 0 => [.insert key value]
  | n + 1 => .insert key value :: .delete key :: wear key value n

theorem step_insert (alloc : Allocator κ v) (value : v) (hnone : s.map key = none) :
    step alloc s (.insert key value) =
      some (s.after (s.tree.insert alloc key value) (update s.map key (some value))) :=
  if_pos (by rw [hnone]; rfl)

theorem step_delete (alloc : Allocator κ v) {value : v} (hsome : s.map key = some value) :
    step alloc s (.delete key) = some (s.after (s.tree.delete key) (update s.map key none)) :=
  if_pos (by rw [hsome]; rfl)

theorem step_update (alloc : Allocator κ v) {value : v} (value' : v) (hsome : s.map key = some value) :
    step alloc s (.update key value') =
      some (s.after (s.tree.update key value') (update s.map key (some value'))) :=
  if_pos (by rw [hsome]; rfl)

/-- An entry comes and goes, and its bytes are lost. -/
theorem insert_delete_step (alloc : Allocator κ v) (key : κ) (value : v) {b : ℕ}
    (hleaf : s.tree.OneLeaf [] b)
    (hnone : s.map key = none) (hroom : b + (slotSize + leafEntrySize) ≤ pageSize) :
    ∃ s₁ s₂, step alloc s (.insert key value) = some s₁ ∧ step alloc s₁ (.delete key) = some s₂ ∧
      s₂.tree.OneLeaf [] (b + leafEntrySize) ∧ s₂.map key = none := by
  obtain ⟨t', hins, hone⟩ := hleaf.insert alloc key value hroom
  obtain ⟨t'', hdel, hnil⟩ := hone.delete
  refine ⟨_, _, step_insert alloc value hnone, step_delete alloc (update_self ..), ?_, update_self ..⟩
  rw [hins]
  show (t'.delete key).2.OneLeaf _ _
  rw [hdel]
  exact hnil

/-- The leaf has no entries in the end, but no room either. -/
theorem run_wear (alloc : Allocator κ v) (key : κ) (value : v) {n b : ℕ} (hleaf : s.tree.OneLeaf [] b)
    (hnone : s.map key = none) (hb : b + leafEntrySize * n = headerSize + leafEntrySize * 107) :
    ∃ s', run (step alloc) s (wear key value n) = some s' ∧ s'.ok = false := by
  induction n generalizing s b with
  | zero =>
    have hfull : pageSize < b + (slotSize + leafEntrySize) := by
      simp only [pageSize, slotSize, leafEntrySize, headerSize] at hb ⊢
      omega
    obtain ⟨t', hins⟩ := hleaf.insert_of_full alloc key value hfull
    refine ⟨_, run_cons_eq_some.mpr ⟨_, step_insert alloc value hnone, rfl⟩, ?_⟩
    rw [hins]
    exact Bool.and_false _
  | succ n ih =>
    have hroom : b + (slotSize + leafEntrySize) ≤ pageSize := by
      simp only [pageSize, slotSize, leafEntrySize, headerSize] at hb ⊢
      omega
    obtain ⟨s₁, s₂, hins, hdel, hleaf₂, hnone₂⟩ := insert_delete_step alloc key value hleaf hnone hroom
    obtain ⟨s', hs', hfalse⟩ := ih hleaf₂ hnone₂ (by rw [Nat.mul_succ] at hb; omega)
    exact ⟨s', run_cons_eq_some.mpr ⟨_, hins, run_cons_eq_some.mpr ⟨_, hdel, hs'⟩⟩, hfalse⟩

/-- **A unique index refines a finite map**: in every run from an empty tree in which insertions
meet pages that have room or can be divided, every operation returns what it should, and a search
finds what the map has. -/
theorem index_refines_map {alloc : Allocator PaddedKey RowId} {s : State PaddedKey RowId}
    {ops : List (Op PaddedKey RowId)} (hok : Guarded InsertOk (step alloc) (init alloc) ops)
    (hrun : run (step alloc) (init alloc) ops = some s) :
    s.ok = true ∧ ∀ key, s.tree.search key = .ok (s.map key) := by
  have h := run_invariant (P := Agrees) (fun _ _ _ hs hok => agrees_step hs hok)
    (agrees_init alloc) hok hrun
  exact ⟨h.ok, h.search⟩

/-- The operations that fill two leaves, and then change one entry, delete another and look for
both. -/
def twoLeaves : List (Op PaddedKey RowId) :=
  ((List.range 93).map fun i => .insert (.byte (UInt8.ofNat i)) ⟨0, i⟩) ++
    [.update (.byte 1) ⟨1, 0⟩, .delete (.byte 92), .search (.byte 1), .search (.byte 92)]

/-- The root has a separator, and every search finds what the map has. -/
theorem index_refines_map_divided :
    ∃ s, run (step (Allocator.next PaddedKey RowId))
      (init (Allocator.next PaddedKey RowId)) twoLeaves = some s ∧
      s.tree.rootKeys = [.byte 46] ∧ s.ok = true ∧ s.tree.search (.byte 1) = .ok (some ⟨1, 0⟩) ∧
      s.tree.search (.byte 92) = .ok none := by
  obtain ⟨s, hs, hmap, hnone, hroot⟩ : ∃ s, runChecked InsertOk (step (Allocator.next PaddedKey RowId))
      (init (Allocator.next PaddedKey RowId)) twoLeaves = some s ∧ s.map (.byte 1) = some ⟨1, 0⟩ ∧
        s.map (.byte 92) = none ∧ s.tree.rootKeys = [.byte 46] := by decide +kernel
  obtain ⟨hguard, hrun⟩ := of_runChecked hs
  obtain ⟨hok, hsearch⟩ := index_refines_map hguard hrun
  exact ⟨s, hrun, hroot, hok, by rw [hsearch, hmap], by rw [hsearch, hnone]⟩

/-- **An index wears out**: after 107 insertions and deletions of one key, the empty index does not
take it again. -/
theorem index_wears_out : ∃ s,
    run (step (Allocator.next PaddedKey RowId)) (init (Allocator.next PaddedKey RowId))
      (wear (.byte 1) ⟨0, 0⟩ 107) = some s ∧ s.ok = false :=
  run_wear _ _ _ (oneLeaf_new _) rfl rfl

end UniqueIndex

/-! ### Secondary indexes -/

namespace SecondaryIndex

variable {κ v : Type}

/-- What is done with a secondary index. -/
inductive Op (κ v : Type) where
  | insert (key : κ) (value : v)
  | deleteExact (key : κ) (value : v)
  deriving DecidableEq, Repr

/-- The key of the operation. -/
def Op.key : Op κ v → κ
  | insert key _ => key
  | deleteExact key _ => key

/-- A tree, the entries inserted and not removed since, and whether every removal so far has
returned what it should. -/
structure State (κ v : Type) where
  tree : Tree κ v
  entries : Multiset (κ × v)
  ok : Bool

/-- A removal succeeds if the entry is there, and returns `KeyNotFound` otherwise. -/
def answers (present : Bool) : Except TreeError Unit → Bool
  | .ok _ => present
  | .error e => !present && e = .keyNotFound

variable [LinearOrder κ] [DecidableEq v]

/-- An operation on both. An entry is inserted when `insert` returns `Ok`. -/
def step (alloc : Allocator κ v) (s : State κ v) : Op κ v → State κ v
  | .insert key value =>
    let result := s.tree.insert alloc key value
    { s with tree := result.2
             entries := if result.1.isOk then (key, value) ::ₘ s.entries else s.entries }
  | .deleteExact key value =>
    let result := s.tree.deleteExact key value
    { tree := result.2
      entries := s.entries.erase (key, value)
      ok := s.ok && answers (decide ((key, value) ∈ s.entries)) result.1 }

/-- An empty tree. -/
def init (alloc : Allocator κ v) : State κ v := ⟨Tree.new alloc, 0, true⟩

variable {alloc : Allocator κ v} {s : State κ v}

/-- The entries of other keys stay. -/
theorem valuesOf_step {op : Op κ v} {key : κ} (hkey : key ≠ op.key) :
    valuesOf key (step alloc s op).entries = valuesOf key s.entries := by
  cases op with
  | insert k value =>
    have hne : ¬ k = key := fun h => hkey h.symm
    cases hok : (s.tree.insert alloc k value).1.isOk <;> simp [step, hok, valuesOf, hne]
  | deleteExact k value =>
    have hne : ¬ k = key := fun h => hkey h.symm
    show valuesOf key (s.entries.erase (k, value)) = _
    by_cases hmem : (k, value) ∈ s.entries
    · conv_rhs => rw [← cons_erase hmem]
      simp [valuesOf, hne]
    · rw [erase_of_notMem hmem]

variable [OrderBot κ]

/-- The tree stores the entries. -/
structure Agrees (s : State κ v) : Prop where
  ok : s.ok = true
  stores : ∃ o, s.tree.Stores false s.entries o

omit [DecidableEq v] in
theorem agrees_init (alloc : Allocator κ v) : Agrees (init alloc) :=
    ⟨rfl, _, Tree.stores_new false alloc⟩

omit [DecidableEq v] in
/-- An insertion succeeds unless it comes to a full leaf without entries. -/
theorem Agrees.insert_isOk (h : Agrees s) (alloc : Allocator κ v) (key : κ) (value : v) :
    (s.tree.insert alloc key value).1.isOk = true ↔ s.tree.Divides false key := by
  obtain ⟨o, hs⟩ := h.stores
  constructor
  · intro hok
    by_contra hdiv
    obtain ⟨e, t', hins, -⟩ := hs.insert_of_not_divides alloc value hdiv
    rw [hins] at hok
    cases hok
  · intro hdiv
    obtain ⟨t', o', hins, -⟩ := hs.insert alloc value nofun hdiv
    rw [hins]
    rfl

theorem agrees_step (alloc : Allocator κ v) (h : Agrees s) (op : Op κ v) : Agrees (step alloc s op) := by
  obtain ⟨o, hs⟩ := h.stores
  cases op with
  | insert key value =>
    refine ⟨h.ok, ?_⟩
    by_cases hdiv : s.tree.Divides false key
    · obtain ⟨t', o', hins, hs', -⟩ := hs.insert alloc value nofun hdiv
      exact ⟨o', by simpa [step, hins, Except.isOk, Except.toBool] using hs'⟩
    · obtain ⟨e, t', hins, hs'⟩ := hs.insert_of_not_divides alloc value hdiv
      exact ⟨o, by simpa [step, hins, Except.isOk, Except.toBool] using hs'⟩
  | deleteExact key value =>
    by_cases hmem : (key, value) ∈ s.entries
    · obtain ⟨t', o', hdel, hs', -⟩ := hs.deleteExact hmem
      exact ⟨by simp [step, hdel, answers, h.ok, hmem], o', by simpa [step, hdel] using hs'⟩
    · have hdel := hs.deleteExact_of_notMem hmem
      exact ⟨by simp [step, hdel, answers, h.ok, hmem], o, by simpa [step, hdel, hmem] using hs⟩

/-- After every run, the tree stores what was inserted and not removed. -/
theorem agrees_foldl (ops : List (Op κ v)) (h : Agrees s) : Agrees (ops.foldl (step alloc) s) := by
  induction ops generalizing s with
  | nil => exact h
  | cons op ops ih => exact ih (agrees_step alloc h op)

/-- The multimap of a run: what was to be inserted, and was not to be removed since. -/
def multimap (ops : List (Op κ v)) : Multiset (κ × v) :=
  ops.foldl (fun m op => match op with
    | .insert key value => (key, value) ::ₘ m
    | .deleteExact key value => m.erase (key, value)) 0

/-- The entries are those of the multimap all along exactly if no insertion comes to a full leaf
without entries. -/
theorem entries_eq_multimap_iff (alloc : Allocator κ v) (ops : List (Op κ v)) :
    (∀ pre, pre <+: ops → (pre.foldl (step alloc) (init alloc)).entries = multimap pre) ↔
      ∀ pre key value, pre ++ [.insert key value] <+: ops →
        (pre.foldl (step alloc) (init alloc)).tree.Divides false key := by
  constructor
  · intro h pre key value hpre
    have hpre' := h pre ((List.prefix_append pre _).trans hpre)
    have hins := h _ hpre
    rw [List.foldl_concat, multimap, List.foldl_concat, ← multimap, ← hpre'] at hins
    by_contra hdiv
    have hno := mt ((agrees_foldl pre (agrees_init alloc)).insert_isOk alloc key value).mp hdiv
    simp only [step, hno] at hins
    exact absurd (congrArg card hins) (by simp)
  · intro h pre
    induction pre using List.reverseRecOn with
    | nil => exact fun _ => rfl
    | append_singleton pre op ih =>
      intro hpre
      rw [List.foldl_concat, multimap, List.foldl_concat, ← multimap,
        ← ih ((List.prefix_append pre _).trans hpre)]
      cases op with
      | deleteExact key value => rfl
      | insert key value =>
        have hok := ((agrees_foldl pre (agrees_init alloc)).insert_isOk alloc key value).mpr
          (h pre key value hpre)
        simp only [step, hok, if_true]

/-- **A secondary index refines a multimap** as long as no insertion comes to a full leaf without
entries, and only so long; there an insertion fails. In every run from an empty tree, removals have
returned what they should, `search_all` returns the rows inserted with success under the key and not
removed since, and an operation leaves the rows of every other key. -/
theorem index_refines_multimap (alloc : Allocator PaddedKey RowId) (ops : List (Op PaddedKey RowId)) :
    (let s := ops.foldl (step alloc) (init alloc)
    s.ok = true ∧
      (∀ key, ∃ rows, s.tree.searchAll key = .ok rows ∧
        (rows : Multiset RowId) = valuesOf key s.entries) ∧
      (∀ op : Op PaddedKey RowId, ∀ key ≠ op.key, ∃ rows rows', s.tree.searchAll key = .ok rows ∧
        (step alloc s op).tree.searchAll key = .ok rows' ∧ rows.Perm rows') ∧
      ∀ key row, (s.tree.insert alloc key row).1.isOk = true ↔ s.tree.Divides false key) ∧
    ((∀ pre, pre <+: ops → (pre.foldl (step alloc) (init alloc)).entries = multimap pre) ↔
      ∀ pre key row, pre ++ [.insert key row] <+: ops →
        (pre.foldl (step alloc) (init alloc)).tree.Divides false key) := by
  refine ⟨?_, entries_eq_multimap_iff alloc ops⟩
  intro s
  have h : Agrees s := agrees_foldl ops (agrees_init alloc)
  obtain ⟨o, hs⟩ := h.stores
  refine ⟨h.ok, hs.searchAll, fun op key hkey => ?_, fun key row => h.insert_isOk alloc key row⟩
  obtain ⟨o', hs'⟩ := (agrees_step alloc h op).stores
  obtain ⟨rows, hrows, heq⟩ := hs.searchAll key
  obtain ⟨rows', hrows', heq'⟩ := hs'.searchAll key
  rw [valuesOf_step hkey, ← heq] at heq'
  exact ⟨rows, rows', hrows, hrows', (coe_eq_coe.mp heq').symm⟩

/-- Two leaves of one key, of which one entry is removed. -/
theorem index_refines_multimap_divided :
    let ops : List (Op PaddedKey RowId) :=
    List.replicate 93 (.insert (.byte 1) ⟨0, 0⟩) ++ [.deleteExact (.byte 1) ⟨0, 0⟩]
    let s := ops.foldl (step (Allocator.next PaddedKey RowId)) (init (Allocator.next PaddedKey RowId))
    s.tree.rootKeys = [.byte 1] ∧ s.entries.card = 92 ∧
      ∃ rows, s.tree.searchAll (.byte 1) = .ok rows ∧
      (rows : Multiset RowId) = valuesOf (.byte 1) s.entries :=
  ⟨by decide +kernel, by decide +kernel, (index_refines_multimap _ _).1.2.1 _⟩

/-- **A secondary index wears out** too: after 107 insertions and removals of one entry `insert`
fails, and `search_all` does not find what the multimap has. -/
theorem secondary_index_wears_out :
    let entry : PaddedKey × RowId := (.byte 1, ⟨0, 0⟩)
    let ops := (List.replicate 107 [Op.insert entry.1 entry.2, .deleteExact entry.1 entry.2]).flatten
    let s := ops.foldl (step (Allocator.next PaddedKey RowId)) (init (Allocator.next PaddedKey RowId))
    let result := s.tree.insert (Allocator.next PaddedKey RowId) entry.1 entry.2
    result.1.isOk = false ∧ result.2.searchAll entry.1 = .ok [] ∧
      multimap (ops ++ [.insert entry.1 entry.2]) = {entry} := by
  decide +kernel

end SecondaryIndex

end RTsql.Storage.BTree

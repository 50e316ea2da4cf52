import RTsql.Storage.Index
import RTsql.Storage.BTree.Key
import RTsql.Storage.BTree.RangeScan

/-!
# The index manager

`index_manager.rs`. An index is a B+ tree of entries, a key and a row id each, and
next to it a map in memory from row ids back to the key under which they were
entered. The tree takes equal keys: only `search` before an `insert` keeps the keys
of a unique index apart, and `delete` and `update`, which name an entry by its key
alone, are for such indexes. `deleteExact` names the entry.

The reverse map follows the tree loosely: `update` gives a key a new row id and
leaves the old row id in the map.

A page does not give back the bytes of an entry that is deleted. So an insertion may come to
a full page with too few entries to be divided, and fails, or leaves a half that no operation
expects. `Admits` says that no insertion among some writes does.

## What is proved

`Moves unique m m' out into`: `m'` has the entries of `m`, without `out` and with `into`, in a tree
of the same kind. Every operation is such a move, if its entry is there, its key is nobody
else's, and the tree admits it.
-/

namespace RTsql.Storage

open Function List BTree

/-- `IndexManager`. -/
structure IndexManager where
  /-- Where the tree takes its pages from. -/
  alloc : Allocator Key RowId
  tree : Tree Key RowId
  /-- `row_to_key`. -/
  rowToKey : RowId → Option Bytes

/-- A write to an index. -/
inductive IndexOp where
  | insert (key : Bytes) (rid : RowId)
  | delete (key : Bytes)
  | update (key : Bytes) (rid : RowId)
  | deleteExact (key : Bytes) (rid : RowId)
  deriving DecidableEq, Repr

namespace IndexManager

variable {m m' m'' : IndexManager} {b : Bytes} {k : Key} {rid old : RowId} {out : Option (Key × RowId)}
  {ops ops' : List IndexOp} {key : Option Bytes} {unique : Bool}

/-- `IndexManager::new`. -/
def new (alloc : Allocator Key RowId) : IndexManager := ⟨alloc, .new alloc, fun _ => none⟩

/-- The entries of the leaves, from left to right. -/
def entries (m : IndexManager) : List (Key × RowId) :=
  entriesOf (leafPages m.tree.pages m.tree.pages.mark m.tree.root)

/-- `IndexManager::search`. A tree that cannot be read finds nothing. -/
def search (m : IndexManager) (b : Bytes) : Option RowId :=
  match m.tree.search (Key.new b) with
  | .ok found => found
  | .error _ => none

/-- `IndexManager::find_key_by_row_id`. -/
def findKeyByRowId (m : IndexManager) (rid : RowId) : Option Bytes := m.rowToKey rid

/-- `IndexManager::scan_all`: the leaves from left to right. Their keys have lost their trailing
zeros. -/
def scanAll (m : IndexManager) : List (Bytes × RowId) := m.entries.map fun e => (e.1.asBytes, e.2)

/-- A write: what the tree has done stays also when it fails, the reverse map follows when it
succeeds. -/
def commit (m : IndexManager) (result : Except TreeError Unit × Tree Key RowId)
    (rowToKey : RowId → Option Bytes) : IndexManager × Except TreeError Unit :=
  match result with
  | (.ok (), tree) => ({ m with tree, rowToKey }, .ok ())
  | (.error e, tree) => ({ m with tree }, .error e)

/-- `IndexManager::insert`. -/
def insert (m : IndexManager) (b : Bytes) (rid : RowId) : IndexManager × Except TreeError Unit :=
  m.commit (m.tree.insert m.alloc (Key.new b) rid) (Function.update m.rowToKey rid (some b))

/-- `IndexManager::delete`: the row id that the key had leaves the reverse map. -/
def delete (m : IndexManager) (b : Bytes) : IndexManager × Except TreeError Unit :=
  m.commit (m.tree.delete (Key.new b))
    (match m.search b with
    | some rid => Function.update m.rowToKey rid none
    | none => m.rowToKey)

/-- `IndexManager::update`: the row id that the key had stays in the reverse map. -/
def update (m : IndexManager) (b : Bytes) (rid : RowId) : IndexManager × Except TreeError Unit :=
  m.commit (m.tree.update (Key.new b) rid) (Function.update m.rowToKey rid (some b))

/-- `IndexManager::delete_exact`: the row id leaves the reverse map only if the map has it
under this key. -/
def deleteExact (m : IndexManager) (b : Bytes) (rid : RowId) : IndexManager × Except TreeError Unit :=
  m.commit (m.tree.deleteExact (Key.new b) rid)
    (if m.rowToKey rid = some b then Function.update m.rowToKey rid none else m.rowToKey)

/-- A write to the index. -/
def apply (m : IndexManager) : IndexOp → IndexManager × Except TreeError Unit
  | .insert b rid => m.insert b rid
  | .delete b => m.delete b
  | .update b rid => m.update b rid
  | .deleteExact b rid => m.deleteExact b rid

/-- Writes one after the other, as far as they succeed. -/
def applyAll (m : IndexManager) : List IndexOp → IndexManager × Except TreeError Unit
  | [] => (m, .ok ())
  | op :: ops =>
    match m.apply op with
    | (m', .error e) => (m', .error e)
    | (m', .ok ()) => m'.applyAll ops

/-! ### What the tree admits -/

/-- An insertion comes to pages that have room, or entries enough to be divided. -/
def Fits (unique : Bool) (m : IndexManager) : IndexOp → Prop
  | .insert b _ => m.tree.Divides unique (Key.new b)
  | _ => True

instance (unique : Bool) (m : IndexManager) : (op : IndexOp) → Decidable (m.Fits unique op)
  | .insert b _ => inferInstanceAs (Decidable (m.tree.Divides unique (Key.new b)))
  | .delete _ | .update _ _ | .deleteExact _ _ => inferInstanceAs (Decidable True)

/-- So does every insertion among some writes. -/
def Admits (unique : Bool) (m : IndexManager) : List IndexOp → Prop
  | [] => True
  | op :: ops => m.Fits unique op ∧ (m.apply op).1.Admits unique ops

instance decidableAdmits (unique : Bool) : (ops : List IndexOp) → (m : IndexManager) →
    Decidable (m.Admits unique ops)
  | [], _ => inferInstanceAs (Decidable True)
  | op :: ops, m =>
    haveI := decidableAdmits unique ops (m.apply op).1
    inferInstanceAs (Decidable (m.Fits unique op ∧ (m.apply op).1.Admits unique ops))

/-! ### Entries -/

/-- The tree has the shape that its operations keep, with the entries of its leaves. -/
def Sound (unique : Bool) (m : IndexManager) : Prop :=
  ∃ o, m.tree.Stores unique (m.entries : Multiset (Key × RowId)) o

theorem entries_eq {t : Tree Key RowId} {e : Multiset (Key × RowId)} {o : Finset ℕ}
    (h : t.Stores unique e o) (alloc : Allocator Key RowId) (rowToKey : RowId → Option Bytes) :
    ((⟨alloc, t, rowToKey⟩ : IndexManager).entries : Multiset (Key × RowId)) = e := by
  obtain ⟨height, hs⟩ := h
  exact (hs.searchTree.entries hs.height_lt_mark).1

theorem sound_of_stores {t : Tree Key RowId} {e : Multiset (Key × RowId)} {o : Finset ℕ}
    (h : t.Stores unique e o) (alloc : Allocator Key RowId) (rowToKey : RowId → Option Bytes) :
    (⟨alloc, t, rowToKey⟩ : IndexManager).Sound unique :=
  ⟨o, by rwa [entries_eq h]⟩

theorem entries_new (alloc : Allocator Key RowId) : (new alloc).entries = [] :=
  (Multiset.coe_eq_zero _).mp (entries_eq (Tree.stores_new true alloc) alloc _)

theorem sound_new (unique : Bool) (alloc : Allocator Key RowId) : (new alloc).Sound unique :=
  sound_of_stores (Tree.stores_new unique alloc) alloc _

/-- No key has two entries. -/
def UniqueKeys (m : IndexManager) : Prop := ∀ e ∈ m.entries, ∀ e' ∈ m.entries, e.1 = e'.1 → e = e'

theorem Sound.uniqueKeys (hs : m.Sound true) : m.UniqueKeys := by
  obtain ⟨o, ho⟩ := hs
  have hnd : (m.entries.map Prod.fst).Nodup := Multiset.coe_nodup.mp ho.nodup_keys
  exact fun e he e' he' heq => inj_on_of_nodup_map hnd he he' heq

theorem search_iff (hs : m.Sound true) : m.search b = some rid ↔ (Key.new b, rid) ∈ m.entries := by
  obtain ⟨o, ho⟩ := hs
  obtain ⟨r, hr, hmem⟩ := ho.search (Key.new b)
  rw [search, hr]
  exact hmem rid

theorem search_eq_none (hs : m.Sound true) : m.search b = none ↔ ∀ rid,
    (Key.new b, rid) ∉ m.entries := by
  simp only [Option.eq_none_iff_forall_ne_some, ne_eq, search_iff hs]

/-- `m'` is `m` without the entry `out` and with the entry `into`, of which the bytes are given;
nothing else changes in the reverse map, but `out` may leave it. -/
structure Moves (unique : Bool) (m m' : IndexManager) (out : Option (Key × RowId))
    (into : Option (Bytes × RowId)) : Prop where
  sound : m'.Sound unique
  /-- No entry is there twice. -/
  nodup : m'.entries.Nodup
  mem : ∀ e, e ∈ m'.entries ↔ (e ∈ m.entries ∧ out ≠ some e) ∨ into.map (Prod.map Key.new id) = some e
  /-- The new entry is in the reverse map. -/
  new : ∀ b r, into = some (b, r) → m'.rowToKey r = some b
  /-- Nothing else comes into the reverse map. -/
  other : ∀ r, (∀ b, into ≠ some (b, r)) →
    m'.rowToKey r = m.rowToKey r ∨ m'.rowToKey r = none ∧ ∃ k, out = some (k, r)

/-- Nothing leaves and nothing comes. -/
theorem Moves.refl (hs : m.Sound unique) (hnd : m.entries.Nodup) : Moves unique m m none none where
  sound := hs
  nodup := hnd
  mem e := by simp
  new b r h := by cases h
  other r _ := .inl rfl

/-- An entry leaves, then one comes. -/
theorem Moves.trans {into : Option (Bytes × RowId)}
    (h : Moves unique m m' out none) (h' : Moves unique m' m'' none into) :
    Moves unique m m'' out into where
  sound := h'.sound
  nodup := h'.nodup
  mem e := by
    rw [h'.mem, h.mem]
    simp
  new := h'.new
  other r hr := by
    have hsame : m''.rowToKey r = m'.rowToKey r := by
      rcases h'.other r hr with heq | ⟨-, k, hk⟩
      · exact heq
      · cases hk
    rw [hsame]
    exact h.other r nofun

/-- The tree has become another one, with these entries. -/
theorem moves_of_stores {t : Tree Key RowId} {e : Multiset (Key × RowId)} {o : Finset ℕ}
    {into : Option (Bytes × RowId)}
    {rowToKey : RowId → Option Bytes} (ht : t.Stores unique e o) (hnd : e.Nodup)
    (hmem : ∀ x, x ∈ e ↔ (x ∈ m.entries ∧ out ≠ some x) ∨ into.map (Prod.map Key.new id) = some x)
    (hnew : ∀ b r, into = some (b, r) → rowToKey r = some b)
    (hother : ∀ r, (∀ b, into ≠ some (b, r)) → rowToKey r = m.rowToKey r ∨ rowToKey r = none ∧ ∃ k,
      out = some (k, r)) :
    Moves unique m { m with tree := t, rowToKey } out into where
  sound := sound_of_stores ht m.alloc rowToKey
  nodup := by rwa [← Multiset.coe_nodup, entries_eq ht]
  mem x := by rw [← Multiset.mem_coe, entries_eq ht, hmem]
  new := hnew
  other := hother

/-! ### What the writes do -/

section Writes

variable (hs : m.Sound unique) (hnd : m.entries.Nodup)

include hs hnd

/-- `insert`: one entry more. -/
theorem exists_insert (hnew : ∀ r, unique = true ∨ r = rid → (Key.new b, r) ∉ m.entries)
    (hfit : m.Fits unique (.insert b rid)) :
    ∃ m', m.insert b rid = (m', .ok ()) ∧ Moves unique m m' none (some (b, rid)) := by
  obtain ⟨o, ho⟩ := hs
  obtain ⟨t, o', hins, ht, -⟩ := ho.insert m.alloc rid (by
    rintro hu hmem
    obtain ⟨⟨k, r⟩, he, rfl⟩ := Multiset.mem_map.mp hmem
    exact hnew r (.inl hu) he) hfit
  refine ⟨_, by rw [insert, hins]; rfl, moves_of_stores ht ?_ (fun e => ?_) (fun b' r h => ?_) fun r h => .inl ?_⟩
  · exact Multiset.nodup_cons.mpr ⟨hnew rid (.inr rfl), Multiset.coe_nodup.mpr hnd⟩
  · simp only [Multiset.mem_cons, Multiset.mem_coe, ne_eq, reduceCtorEq, not_false_eq_true,
      and_true, Option.map_some, Prod.map_apply, id_eq, Option.some.injEq, or_comm, eq_comm]
  · obtain ⟨rfl, rfl⟩ := Prod.mk.inj (Option.some.inj h)
    exact update_self _ _ _
  · exact update_of_ne (fun hc => h b (by rw [hc])) _ _

/-- `deleteExact`: the entry leaves the index. -/
theorem exists_deleteExact (h : (Key.new b, old) ∈ m.entries) :
    ∃ m', m.deleteExact b old = (m', .ok ()) ∧ Moves unique m m' (some (Key.new b, old)) none := by
  obtain ⟨o, ho⟩ := hs
  obtain ⟨t, o', hdel, ht, -⟩ := ho.deleteExact (Multiset.mem_coe.mpr h)
  have hnd' := Multiset.coe_nodup.mpr hnd
  refine ⟨_, by rw [deleteExact, hdel]; rfl, moves_of_stores ht (@Multiset.Nodup.erase _ (_) _ _ hnd') (fun e => ?_) nofun
    fun r _ => ?_⟩
  · rw [@Multiset.Nodup.mem_erase_iff _ (_) _ _ _ hnd']
    simp [and_comm, eq_comm]
  · split
    case isFalse => exact .inl rfl
    case isTrue =>
      by_cases hr : r = old
      · exact .inr ⟨by rw [hr, update_self], Key.new b, by rw [hr]⟩
      · exact .inl (update_of_ne hr _ _)

end Writes

section Unique

variable (hs : m.Sound true) (h : (Key.new b, old) ∈ m.entries)

include hs h

/-- `delete`: the entry of the key leaves the index, and its row id the reverse map. -/
theorem exists_delete : ∃ m', m.delete b = (m', .ok ()) ∧ Moves true m m' (some (Key.new b, old)) none ∧
      m'.rowToKey old = none := by
  have hsearch := (search_iff hs).mpr h
  obtain ⟨o, ho⟩ := hs
  obtain ⟨t, o', value, e, hdel, he, ht, -⟩ :=
    ho.delete (Multiset.mem_map.mpr ⟨_, Multiset.mem_coe.mpr h, rfl⟩)
  -- a key has one entry, which is the one that has left
  have hkeys := ho.nodup_keys
  rw [he, Multiset.map_cons, Multiset.nodup_cons] at hkeys
  have hmem : ∀ x, x ∈ m.entries ↔ x = (Key.new b, value) ∨ x ∈ e := by
    intro x
    rw [← Multiset.mem_coe, he, Multiset.mem_cons]
  have hout : ∀ x ∈ e, x.1 ≠ Key.new b := fun x hx hc => hkeys.1 (Multiset.mem_map.mpr ⟨x, hx, hc⟩)
  obtain rfl : old = value := by
    rcases (hmem _).mp h with heq | hin
    · exact (Prod.mk.inj heq).2
    · exact absurd rfl (hout _ hin)
  refine ⟨_, by rw [delete, hdel]; rfl, moves_of_stores ht (Multiset.Nodup.of_map _ hkeys.2)
    (fun x => ?_) nofun fun r _ => ?_, ?_⟩
  · rw [hmem]
    constructor
    · intro hx
      exact .inl ⟨.inr hx, fun hc => hout x hx (by rw [← Option.some.inj hc])⟩
    · rintro (⟨rfl | hx, hne⟩ | hc)
      · exact absurd rfl hne
      · exact hx
      · cases hc
  · rw [hsearch]
    by_cases hr : r = old
    · exact .inr ⟨hr ▸ update_self _ _ _, Key.new b, by rw [hr]⟩
    · exact .inl (update_of_ne hr _ _)
  · simp only [hsearch]
    exact update_self _ _ _

/-- `update`: the entry of the key gets the row id. -/
theorem exists_update (rid : RowId) :
    ∃ m', m.update b rid = (m', .ok ()) ∧ Moves true m m' (some (Key.new b, old)) (some (b, rid)) := by
  have hu := hs.uniqueKeys
  obtain ⟨o, ho⟩ := hs
  have hkey : Key.new b ∈ (m.entries : Multiset (Key × RowId)).map Prod.fst :=
    Multiset.mem_map.mpr ⟨_, Multiset.mem_coe.mpr h, rfl⟩
  rcases ho.update (Key.new b) rid with ⟨t, m₁, m₂, hupd, hparts, -, hothers, ht, -⟩ | ⟨-, hno⟩
  swap
  · exact absurd hkey (hno rfl)
  -- the other leaves have no entry with the key
  have hall : m₁.map (setValue (Key.new b) rid) + m₂ =
      (m.entries : Multiset (Key × RowId)).map (setValue (Key.new b) rid) := by
    rw [hparts, Multiset.map_add]
    congr 1
    exact (Multiset.map_congr rfl fun e he => if_neg (hothers rfl e he)).trans
      (Multiset.map_id m₂) |>.symm
  rw [hall] at ht
  refine ⟨_, by rw [update, hupd]; rfl, moves_of_stores ht ?_ (fun e => ?_) (fun b' r hr => ?_)
    fun r hr => .inl ?_⟩
  · exact Multiset.Nodup.of_map _ ht.nodup_keys
  · simp only [Multiset.mem_map, Multiset.mem_coe, setValue]
    constructor
    · rintro ⟨d, hd, rfl⟩
      split
      case isTrue hk => exact .inr (by rw [hk]; rfl)
      case isFalse hk =>
        refine .inl ⟨hd, fun hout => hk ?_⟩
        rw [← Option.some.inj hout]
    · rintro (⟨he, hout⟩ | hin)
      · refine ⟨e, he, if_neg fun hk => hout ?_⟩
        rw [hu e he _ h hk]
      · exact ⟨_, h, by rw [if_pos rfl, ← Option.some.inj hin]; rfl⟩
  · obtain ⟨rfl, rfl⟩ := Prod.mk.inj (Option.some.inj hr)
    exact update_self _ _ _
  · exact update_of_ne (fun hc => hr b (by rw [hc])) _ _

end Unique

/-! ### Several writes -/

theorem applyAll_cons {op : IndexOp} (h : m.apply op = (m', .ok ())) :
    m.applyAll (op :: ops) = m'.applyAll ops := by
  rw [applyAll, h]

theorem applyAll_append (h : m.applyAll ops = (m', .ok ())) :
    m.applyAll (ops ++ ops') = m'.applyAll ops' := by
  induction ops generalizing m with
  | nil => rw [nil_append, (Prod.mk.inj h).1]
  | cons op ops ih =>
    rw [applyAll] at h
    split at h
    case h_1 => cases h
    case h_2 u hu =>
      rw [cons_append, applyAll_cons hu]
      exact ih h

/-- What comes behind writes that succeed is admitted in the index they leave. -/
theorem Admits.of_append (ha : m.Admits unique (ops ++ ops')) (h : m.applyAll ops = (m', .ok ())) :
    m'.Admits unique ops' := by
  induction ops generalizing m with
  | nil => rwa [← (Prod.mk.inj h).1]
  | cons op ops ih =>
    rw [applyAll] at h
    split at h
    case h_1 => cases h
    case h_2 u hu =>
      have ha := ha.2
      rw [hu] at ha
      exact ih ha h

section Several

variable (hs : m.Sound unique) (hnd : m.entries.Nodup)

include hs hnd

/-- The entry of a row goes into the index, if it has a key there. -/
theorem exists_insert? (key : Option Bytes) (rid : RowId)
    (hnew : ∀ b, key = some b → ∀ r, unique = true ∨ r = rid → (Key.new b, r) ∉ m.entries)
    (ha : m.Admits unique (key.map (.insert · rid)).toList) :
    ∃ m', m.applyAll (key.map (.insert · rid)).toList = (m', .ok ()) ∧
    Moves unique m m' none (key.map (·, rid)) := by
  cases key with
  | none => exact ⟨m, rfl, .refl hs hnd⟩
  | some b =>
    obtain ⟨m', hm', hmoves⟩ := exists_insert hs hnd (hnew b rfl) ha.1
    exact ⟨m', applyAll_cons hm', hmoves⟩

/-- The entry of a row leaves an index, if it has a key there. -/
theorem exists_deleteExact? (h : ∀ b, key = some b → (Key.new b, old) ∈ m.entries) :
    ∃ m', m.applyAll (key.map (.deleteExact · old)).toList = (m', .ok ()) ∧
      Moves unique m m' (key.map fun b => (Key.new b, old)) none := by
  cases key with
  | none => exact ⟨m, rfl, .refl hs hnd⟩
  | some b =>
    obtain ⟨m', hm', hmoves⟩ := exists_deleteExact hs hnd (h b rfl)
    exact ⟨m', applyAll_cons hm', hmoves⟩

omit hs hnd

/-- The entry of a row leaves a unique index, if it has a key there. -/
theorem exists_delete? (hs : m.Sound true) (hnd : m.entries.Nodup)
    (h : ∀ b, key = some b → (Key.new b, old) ∈ m.entries) :
    ∃ m', m.applyAll (key.map .delete).toList = (m', .ok ()) ∧
    Moves true m m' (key.map fun b => (Key.new b, old)) none := by
  cases key with
  | none => exact ⟨m, rfl, .refl hs hnd⟩
  | some b =>
    obtain ⟨m', hm', hmoves, -⟩ := exists_delete hs (h b rfl)
    exact ⟨m', applyAll_cons hm', hmoves⟩

/-- An entry leaves, then that of a row comes. -/
theorem exists_insert?_of_moves (key : Option Bytes) (h : m.applyAll ops = (m', .ok ()))
    (hmoves : Moves unique m m' out none)
    (hnew : ∀ b, key = some b → ∀ r, unique = true ∨ r = rid → (Key.new b, r) ∈ m.entries →
      out = some (Key.new b, r))
    (ha : m.Admits unique (ops ++ (key.map (.insert · rid)).toList)) :
    ∃ m'', m.applyAll (ops ++ (key.map (.insert · rid)).toList) = (m'', .ok ()) ∧
      Moves unique m m'' out (key.map (·, rid)) := by
  obtain ⟨m'', hm'', hins⟩ := exists_insert? hmoves.sound hmoves.nodup key rid (by
    intro b hb r hr hmem
    obtain ⟨hmem, hout⟩ := ((hmoves.mem _).mp hmem).resolve_right nofun
    exact hout (hnew b hb r hr hmem)) (ha.of_append h)
  exact ⟨m'', (applyAll_append h).trans hm'', hmoves.trans hins⟩

end Several

/-! ### An index with one entry -/

/-- A new index admits any entry. -/
theorem fits_new (unique : Bool) (alloc : Allocator Key RowId) (b : Bytes) (rid : RowId) :
    (new alloc).Fits unique (.insert b rid) := by
  intro page hp
  have hroot : (Tree.new alloc).pages.get (Tree.new alloc).root = some (.leaf .init) := by
    simp [Tree.new]
  change page ∈ searchPath (Tree.new alloc).pages _ (Tree.new alloc).pages.mark
    (Tree.new alloc).root at hp
  cases hmark : (Tree.new alloc).pages.mark with
  | zero => simp [hmark, searchPath] at hp
  | succ n =>
    rw [hmark, searchPath, hroot] at hp
    obtain rfl := List.mem_singleton.mp hp
    exact .inl (by decide)

/-- A new index, with one entry. -/
def single (alloc : Allocator Key RowId) (b : Bytes) (rid : RowId) : IndexManager :=
    ((new alloc).insert b rid).1

theorem moves_single (unique : Bool) (alloc : Allocator Key RowId) (b : Bytes) (rid : RowId) :
    Moves unique (new alloc) (single alloc b rid) none (some (b, rid)) := by
  obtain ⟨m, hm, hmoves⟩ := exists_insert (sound_new unique alloc) (by simp [entries_new])
    (by simp [entries_new]) (fits_new unique alloc b rid)
  rwa [single, hm]

theorem mem_single {alloc : Allocator Key RowId} {e : Key × RowId} :
    e ∈ (single alloc b rid).entries ↔ e = (Key.new b, rid) := by
  simp [(moves_single true alloc b rid).mem, entries_new, eq_comm]

theorem rid_of_rowToKey_single {alloc : Allocator Key RowId} {r : RowId} {b' : Bytes}
    (h : (single alloc b rid).rowToKey r = some b') : r = rid := by
  by_contra hne
  rcases (moves_single true alloc b rid).other r (by simp [Ne.symm hne]) with hsame | ⟨hnone, -⟩
  · exact absurd (hsame.symm.trans h) (by simp [new])
  · exact absurd (hnone.symm.trans h) (by simp)

end IndexManager

end RTsql.Storage

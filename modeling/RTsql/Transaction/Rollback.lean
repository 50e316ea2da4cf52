import RTsql.Executor.Consistency
import RTsql.Transaction.Abort

/-!
# What a rollback restores

A rollback undoes a transaction from its versions alone, one at a time and in any
order. It puts the entry of a version back to the version before it, whoever wrote
that; so when a transaction has replaced a version of its own, the order decides where
the entry ends up. A version without a primary key is taken for a tombstone, and its
entries in other indexes stay. And a key that an UPDATE has given up and another row
has taken is entered twice for a while, which a unique index cannot tell apart.

## What is proved

* `abortTable_spec` — a rollback of a transaction that has done none of this (`Undoable`) ends
  without an error, and the indexes hold what they held when the transaction began.
* `rollback_restores_indexes` — so does a rollback over any number of tables, in every order.
* `rollback_depends_on_order` — rollbacks that restore something else.
-/

namespace RTsql.Transaction

open List RTsql.Executor RTsql.Storage IndexManager
open Option (some map_map)
open Option (bind_some map_some ne_none_iff_exists')

/-- **The condition under which a transaction can be undone** in any order of its versions. -/
structure Undoable (m : TableMeta) (tx : ℕ) (h : Heap Row) : Prop where
  /-- A version of the transaction that replaces one of its own is a tombstone, for a row that it
  has inserted. -/
  chain : ∀ x v r w, h.header? x = some v → v.createTxId = tx → v.nextVersion = some r →
    h.header? r = some w → w.createTxId = tx → v.isDeleted = true ∧ w.nextVersion = none
  /-- A row it has written without a primary key has no key in any index. -/
  keyless : ∀ x v, h.header? x = some v → v.createTxId = tx → v.isDeleted = false →
    h.keyOf m .pk x = none → ∀ ix ∈ m.indexes, h.keyOf m ix x = none
  /-- A key of a version it has updated, in a unique index, is that of no other row it has
  written. -/
  reuse : ∀ x v p y, h.header? x = some v → v.createTxId = tx → v.isDeleted = false →
    h.keyOf m .pk x ≠ none → v.nextVersion = some p → Own h tx y → Current h y → y ≠ x →
    ∀ ix ∈ m.indexes, ix.isUnique = true → ∀ k, h.keyOf m ix p = some k → h.keyOf m ix y ≠ some k

/-- The second pass visits the version. -/
def Doomed (tx : ℕ) (t : Table) (r : RowId) : Prop := Own t.heap tx r ∧ (t.index .pk).rowToKey r = none

/-- `h` is `h₁` with the versions `done` marked aborted. -/
structure Undone (h₁ h : Heap Row) (done : List RowId) : Prop where
  kept : ∀ r, r ∉ done → h.slot? r = h₁.slot? r
  aborted : ∀ r ∈ done, ∃ s, h₁.slot? r = some s ∧
    h.slot? r = some { s with header := s.header.markAborted }

/-- What holds during the rollback of a transaction that began on `t₀` and has left `t₁`, when the
versions `done` have been visited. -/
structure AbortInv (m : TableMeta) (tx : ℕ) (t₀ t₁ : Table) (done : List RowId) (t : Table) : Prop where
  wf : t.heap.WF
  dense : t₁.heap.Dense → t.heap.Dense
  heap : Undone t₁.heap t.heap done
  own : ∀ r ∈ done, Own t₁.heap tx r
  indexed : Indexed m t.heap t.index (fun r => Current t.heap r ∧ ¬ Doomed tx t₁ r) (extraEntries m t₀)
  mapped : ∀ ix ∈ m.indexes, ∀ r b, (t.index ix).rowToKey r = some b → t.heap.slot? r ≠ none
  /-- The reverse map still has the versions that the first pass has to visit. -/
  key : ∀ ix ∈ m.indexes, ∀ r, Own t₁.heap tx r → (t₁.index .pk).rowToKey r ≠ none → r ∉ done →
    (t.index ix).rowToKey r = (t₁.index ix).rowToKey r

namespace Undone

variable {h₁ h : Heap Row} {done : List RowId} {r : RowId}

section

variable (hu : Undone h₁ h done)

include hu

theorem header_of_not_mem (hr : r ∉ done) : h.header? r = h₁.header? r := by
  rw [Heap.header?, hu.kept r hr, Heap.header?]

theorem header_of_mem (hr : r ∈ done) : ∃ v, h.header? r = some v ∧ v.createTxId = 0 ∧
    v.isDeleted = true := by
  obtain ⟨s, -, hs⟩ := hu.aborted r hr
  exact ⟨s.header.markAborted, by rw [Heap.header?, hs]; rfl, rfl, rfl⟩

theorem not_mem_of_header {v : VersionHeader} (hv : h.header? r = some v)
    (hlive : v.createTxId ≠ 0 ∨ v.isDeleted = false) : r ∉ done := by
  intro hr
  obtain ⟨w, hw, hzero, hdel⟩ := hu.header_of_mem hr
  obtain rfl := Option.mem_unique hv hw
  exact hlive.elim (· hzero) fun h => absurd (h.symm.trans hdel) nofun

theorem rawKey_eq (m : TableMeta) (ix : IndexId) (r : RowId) : h.rawKey m ix r = h₁.rawKey m ix r := by
  by_cases hr : r ∈ done
  · obtain ⟨s, hs, hs'⟩ := hu.aborted r hr
    rw [rawKey_of_slot hs', rawKey_of_slot hs]
  · rw [Heap.rawKey, hu.kept r hr, Heap.rawKey]

theorem keyOf_eq (m : TableMeta) (ix : IndexId) (r : RowId) : h.keyOf m ix r = h₁.keyOf m ix r := by
  rw [Heap.keyOf, hu.rawKey_eq, Heap.keyOf]

theorem slot?_eq_none : h.slot? r = none ↔ h₁.slot? r = none := by
  by_cases hr : r ∈ done
  · obtain ⟨s, hs, hs'⟩ := hu.aborted r hr
    simp [hs, hs']
  · rw [hu.kept r hr]

/-- The current versions, told from the state before the rollback. -/
theorem current_iff (r : RowId) : Current h r ↔ r ∉ done ∧
    (∃ v, h₁.header? r = some v ∧ v.isDeleted = false) ∧
      ∀ x v, h₁.header? x = some v → v.createTxId ≠ 0 → v.nextVersion = some r → x ∈ done := by
  constructor
  · rintro ⟨⟨v, hv, hdel⟩, hrep⟩
    have hr := hu.not_mem_of_header hv (.inr hdel)
    refine ⟨hr, ⟨v, (hu.header_of_not_mem hr).symm.trans hv, hdel⟩, ?_⟩
    intro x w hw hlive hnext
    by_contra hx
    exact hrep ⟨x, w, (hu.header_of_not_mem hx).trans hw, hlive, hnext⟩
  · rintro ⟨hr, ⟨v, hv, hdel⟩, hrep⟩
    refine ⟨⟨v, (hu.header_of_not_mem hr).trans hv, hdel⟩, ?_⟩
    rintro ⟨x, w, hw, hlive, hnext⟩
    have hx := hu.not_mem_of_header hw (.inl hlive)
    exact hx (hrep x w ((hu.header_of_not_mem hx).symm.trans hw) hlive hnext)

/-- One more version is marked aborted. -/
theorem visit {x : RowId} {v : VersionHeader} (hv : h.header? x = some v)
    (hx : x ∉ done) : Undone h₁ (h.setHeader x v.markAborted) (x :: done) := by
  obtain ⟨s, hs, rfl⟩ := Heap.header?_eq_some.mp hv
  have hslot : ∀ r, (h.setHeader x s.header.markAborted).slot? r =
      if r = x then some { s with header := s.header.markAborted } else h.slot? r := by
    intro r
    rw [Heap.setHeader, hs]
    exact Heap.slot?_set h hs _ r
  refine ⟨fun r hr => ?_, fun r hr => ?_⟩
  · obtain ⟨hrx, hr⟩ := not_or.mp (mt mem_cons.mpr hr)
    rw [hslot, if_neg hrx, hu.kept r hr]
  · obtain rfl | hrx := eq_or_ne r x
    · exact ⟨s, (hu.kept r hx).symm.trans hs, by rw [hslot, if_pos rfl]⟩
    · obtain ⟨s', hs', hs''⟩ := hu.aborted r ((mem_cons.mp hr).resolve_left hrx)
      exact ⟨s', hs', by rw [hslot, if_neg hrx, hs'']⟩

/-- What one more version marked aborted does to the current ones. -/
theorem current_visit (hl : Unbroken h₁) {x : RowId} {v : VersionHeader}
    (hv : h.header? x = some v) (hx : x ∉ done) (hlive : v.createTxId ≠ 0) (r : RowId) :
    Current (h.setHeader x v.markAborted) r ↔ (Current h r ∧ r ≠ x) ∨
    (v.nextVersion = some r ∧ r ∉ x :: done) := by
  have hv₁ := (hu.header_of_not_mem hx).symm.trans hv
  rw [(hu.visit hv hx).current_iff, hu.current_iff]
  constructor
  · rintro ⟨hr, hrv, hrep⟩
    by_cases hnext : v.nextVersion = some r
    · exact .inr ⟨hnext, hr⟩
    · obtain ⟨hrx, hr⟩ := not_or.mp (mt mem_cons.mpr hr)
      refine .inl ⟨⟨hr, hrv, fun y w hw hwlive hwnext => ?_⟩, hrx⟩
      refine (mem_cons.mp (hrep y w hw hwlive hwnext)).resolve_left ?_
      rintro rfl
      rw [hv₁, some.injEq] at hw
      exact hnext (hw ▸ hwnext)
  · rintro (⟨⟨hr, hrv, hrep⟩, hrx⟩ | ⟨hnext, hr⟩)
    · refine ⟨?_, hrv, fun y w hw hwlive hwnext => mem_cons_of_mem _ (hrep y w hw hwlive hwnext)⟩
      rw [mem_cons, not_or]
      exact ⟨hrx, hr⟩
    · refine ⟨hr, hl.down x v r hv₁ hlive hnext, fun y w hw hwlive hwnext => ?_⟩
      rw [hl.unique y x r w v hw hv₁ hwlive hlive hwnext hnext]
      exact mem_cons_self

end

end Undone

section Chains

variable {m : TableMeta} {tx : ℕ} {t₀ t₁ : Table}

/-- A version is there from the beginning, or the transaction's. -/
theorem slot_of_not_own (hi : TxInv m tx t₀ t₁) {r : RowId} (hs : t₁.heap.slot? r ≠ none)
    (hown : ¬ Own t₁.heap tx r) : t₀.heap.slot? r ≠ none := fun hnone => hown (hi.own r hs hnone)

variable (hr : Ready m tx t₀) (hi : TxInv m tx t₀ t₁) {v : VersionHeader}
include hr hi

theorem not_own_of_slot {r : RowId} (hs : t₀.heap.slot? r ≠ none) : ¬ Own t₁.heap tx r := by
  rintro ⟨v, hv, hvtx⟩
  rw [hi.header_eq hs] at hv
  exact hr.fresh r v hv hvtx

/-- What replaces a version of the transaction is the transaction's. -/
theorem own_of_replaces {x r : RowId} (hown : Own t₁.heap tx r)
    (hv : t₁.heap.header? x = some v) (hlive : v.createTxId ≠ 0) (hnext : v.nextVersion = some r) :
    v.createTxId = tx := by
  by_contra hne
  have hx : t₀.heap.slot? x ≠ none := slot_of_not_own hi (slot?_ne_none_of_header hv)
    fun hown => hne (hown.createTxId_eq hv)
  rw [hi.header_eq hx] at hv
  obtain ⟨w, hw, -⟩ := hr.linked.down x v r hv hlive hnext
  exact not_own_of_slot hr hi (slot?_ne_none_of_header hw) hown

/-- A version of the transaction that the first pass visits is current, and not deleted. -/
theorem current_of_rowToKey (hu : Undoable m tx t₁.heap) {x : RowId} (hown : Own t₁.heap tx x)
    (hkey : (t₁.index .pk).rowToKey x ≠ none) : Current t₁.heap x := by
  obtain ⟨v, hv, hvtx⟩ := hown
  obtain ⟨b, hb⟩ := ne_none_iff_exists'.mp hkey
  obtain ⟨-, hdel⟩ := hi.key .pk m.pk_mem_indexes x b ⟨v, hv, hvtx⟩ hb
  refine ⟨⟨v, hv, hdel v hv⟩, ?_⟩
  rintro ⟨y, w, hw, hlive, hnext⟩
  have hwtx := own_of_replaces hr hi ⟨v, hv, hvtx⟩ hw hlive hnext
  have hwdel := (hu.chain y w x v hw hwtx hnext hv hvtx).1
  exact hkey (hi.deleted y w x hw hwtx hwdel hnext)

/-- A version that the transaction has replaced, and that is not its own, was current. -/
theorem current_of_replaced {x p : RowId} (hv : t₁.heap.header? x = some v)
    (hvtx : v.createTxId = tx) (hnext : v.nextVersion = some p) (hown : ¬ Own t₁.heap tx p) :
    Current t₀.heap p := by
  obtain ⟨w, hw, hdel⟩ := hi.linked.down x v p hv (hvtx ▸ hr.tx_ne) hnext
  have hp := slot_of_not_own hi (slot?_ne_none_of_header hw) hown
  refine ⟨⟨w, (hi.header_eq hp).symm.trans hw, hdel⟩, ?_⟩
  rintro ⟨y, u, hu, hlive, hnext'⟩
  -- two versions would replace it
  obtain rfl := hi.linked.unique y x p u v (hi.header_of_old hu) hv hlive (hvtx ▸ hr.tx_ne) hnext' hnext
  exact not_own_of_slot hr hi (slot?_ne_none_of_header hu) ⟨v, hv, hvtx⟩

end Chains

/-! ### The first pass -/

section UndoOps

variable {im : IndexManager} {rid : RowId} {prev : Option RowId} {dk : Option Bytes} {key : Bytes}

/-- Undoing an entry of a unique index. -/
theorem exists_undoUniqueOps (hs : im.Sound true) (hmem : (Key.new key, rid) ∈ im.entries)
    (hnew : ∀ p b, prev = some p → dk = some b → ∀ r, true = true ∨ r = p → (Key.new b, r) ∈ im.entries →
      some (Key.new key, rid) = some (Key.new b, r))
    (ha : im.Admits true (undoUniqueOps prev (prev.map fun _ => dk) key)) :
    ∃ im', im.applyAll (undoUniqueOps prev (prev.map fun _ => dk) key) = (im', .ok ()) ∧
      im.Moves true im' (some (Key.new key, rid)) (prev.bind fun p => dk.map (·, p)) := by
  obtain ⟨im₁, him₁, hout, -⟩ := exists_delete hs hmem
  have hdelete : im.applyAll [.delete key] = (im₁, .ok ()) := applyAll_cons him₁
  cases prev with
  | none => exact ⟨im₁, hdelete, hout⟩
  | some p =>
    cases dk with
    | none => exact ⟨im₁, hdelete, hout⟩
    | some b =>
      simp only [undoUniqueOps, map_some, bind_some] at ha ⊢
      by_cases hb : b = key
      · rw [if_pos hb]
        obtain ⟨im', him', hmoves⟩ := exists_update hs hmem p
        exact ⟨im', applyAll_cons him', hb ▸ hmoves⟩
      · rw [if_neg hb] at ha ⊢
        exact exists_insert?_of_moves (some b) hdelete hout (fun b' hb' => hnew p b' rfl hb') ha

/-- Undoing an entry of a secondary index. -/
theorem exists_undoSecondaryOps (hs : im.Sound false) (hnd : im.entries.Nodup)
    (hmem : (Key.new key, rid) ∈ im.entries)
    (hnew : ∀ p b, prev = some p → dk = some b → ∀ r, false = true ∨ r = p →
      (Key.new b, r) ∈ im.entries → some (Key.new key, rid) = some (Key.new b, r))
    (ha : im.Admits false (undoSecondaryOps rid prev (prev.map fun _ => dk) key)) :
    ∃ im', im.applyAll (undoSecondaryOps rid prev (prev.map fun _ => dk) key) = (im', .ok ()) ∧
      im.Moves false im' (some (Key.new key, rid)) (prev.bind fun p => dk.map (·, p)) := by
  obtain ⟨im₁, him₁, hout⟩ := exists_deleteExact hs hnd hmem
  have hdelete : im.applyAll [.deleteExact key rid] = (im₁, .ok ()) := applyAll_cons him₁
  cases prev with
  | none => exact ⟨im₁, hdelete, hout⟩
  | some p =>
    cases dk with
    | none => exact ⟨im₁, hdelete, hout⟩
    | some b => exact exists_insert?_of_moves (some b) hdelete hout (fun b' hb' => hnew p b' rfl hb') ha

/-- Putting back an entry where the version has none. -/
theorem exists_undoNullOps {unique : Bool} (hs : im.Sound unique) (hnd : im.entries.Nodup)
    (hnew : ∀ p b, prev = some p → dk = some b → ∀ r, unique = true ∨ r = p →
      (Key.new b, r) ∈ im.entries → none = some (Key.new b, r))
    (ha : im.Admits unique (undoNullOps prev (prev.map fun _ => dk))) :
    ∃ im', im.applyAll (undoNullOps prev (prev.map fun _ => dk)) = (im', .ok ()) ∧
      im.Moves unique im' none (prev.bind fun p => dk.map (·, p)) := by
  cases prev with
  | none => exact ⟨im, rfl, .refl hs hnd⟩
  | some p =>
    cases dk with
    | none => exact ⟨im, rfl, .refl hs hnd⟩
    | some b =>
      exact exists_insert? hs hnd (some b) p
        (fun b' hb' r hr hmem => absurd (hnew p b' rfl hb' r hr hmem) (by simp)) ha

/-- Undoing a version in an index: its entry leaves, and that of the version before comes. -/
theorem exists_undoOps {ix : IndexId} (rid : RowId) (prev : Option RowId)
    (derived : IndexId → Option Bytes) (hs : im.Sound ix.isUnique) (hnd : im.entries.Nodup)
    (hmem : ∀ b, im.rowToKey rid = some b → (Key.new b, rid) ∈ im.entries)
    (hpk : ix = .pk → im.rowToKey rid ≠ none)
    (hnew : ∀ p b, prev = some p → derived ix = some b → ∀ r, ix.isUnique = true ∨ r = p →
      (Key.new b, r) ∈ im.entries →
      (im.rowToKey rid).map (fun b => (Key.new b, rid)) = some (Key.new b, r))
    (ha : im.Admits ix.isUnique (undoOps rid prev (prev.map fun _ => derived) ix im)) :
    ∃ im', im.applyAll (undoOps rid prev (prev.map fun _ => derived) ix im) = (im', .ok ()) ∧
      im.Moves ix.isUnique im' ((im.rowToKey rid).map fun b => (Key.new b, rid))
        (prev.bind fun p => (derived ix).map (·, p)) := by
  have hmap : ∀ i, (prev.map fun _ => derived).map (· i) = prev.map fun _ => derived i := by
    intro i
    rw [Option.map_map]
    rfl
  cases hk : im.rowToKey rid with
  | none =>
    rw [hk] at hnew
    cases ix with
    | pk => exact absurd hk (hpk rfl)
    | _ =>
      simp only [undoOps, findKeyByRowId, hk, hmap] at ha ⊢
      exact exists_undoNullOps hs hnd hnew ha
  | some key =>
    rw [hk] at hnew
    cases ix with
    | secondary n =>
      simp only [undoOps, findKeyByRowId, hk, hmap] at ha ⊢
      exact exists_undoSecondaryOps hs hnd (hmem key hk) hnew ha
    | _ =>
      simp only [undoOps, findKeyByRowId, hk, hmap] at ha ⊢
      exact exists_undoUniqueOps hs (hmem key hk) hnew ha

end UndoOps

section Visit

variable {m : TableMeta} {tx : ℕ} {t₀ t₁ t : Table} {done : List RowId} {v : VersionHeader}
  {ix : IndexId} {x : RowId}

/-- The entries of a version that comes, as they are entered. -/
theorem map_bind_rawKey {h h' : Heap Row} {new : Option RowId}
    (hkey : ∀ r, h'.keyOf m ix r = h.keyOf m ix r) :
    (new.bind fun p => (h.rawKey m ix p).map (·, p)).map (Prod.map Key.new id) = new.bind
      (entryOf h' m ix) := by
  cases new with
  | none => rfl
  | some p =>
    rw [bind_some, bind_some, entryOf, hkey, Heap.keyOf, Option.map_map, Option.map_map]
    rfl

section

variable (hr : Ready m tx t₀) (hi : TxInv m tx t₀ t₁)

include hr hi

variable (ha : AbortInv m tx t₀ t₁ done t)

include ha

/-- **One visit.** The version `x` is marked aborted; its entries, or none, leave the indexes, and
those of a version that is not the transaction's, or none, come. -/
theorem AbortInv.visit (hv : t.heap.header? x = some v) (hx : x ∉ done)
    (hown : Own t₁.heap tx x) (index : IndexId → IndexManager) (old new : Option RowId)
    (hold : ∀ r, old = some r → r = x) (hleft : old ≠ some x → Doomed tx t₁ x)
    (hnew : ∀ p, new = some p → v.nextVersion = some p ∧ ¬ Own t₁.heap tx p ∧ t.heap.slot? p ≠ none)
    (hnext : ∀ p, v.nextVersion = some p → new ≠ some p → Doomed tx t₁ p)
    (hmoves : ∀ ix ∈ m.indexes, (t.index ix).Moves ix.isUnique (index ix)
      (old.bind (entryOf t.heap m ix)) (new.bind fun p => (t.heap.rawKey m ix p).map (·, p))) :
    AbortInv m tx t₀ t₁ (x :: done) ⟨t.heap.setHeader x v.markAborted, index, t.recorded⟩ := by
  have hundone := ha.heap.visit hv hx
  have hkey : ∀ ix r, (t.heap.setHeader x v.markAborted).keyOf m ix r = t.heap.keyOf m ix r := by
    intro ix r
    rw [hundone.keyOf_eq, ha.heap.keyOf_eq]
  have hcur : ∀ r, Current (t.heap.setHeader x v.markAborted) r ∧ ¬ Doomed tx t₁ r ↔
      (Current t.heap r ∧ ¬ Doomed tx t₁ r) ∧ old ≠ some r ∨ new = some r := by
    have hvtx := hown.createTxId_eq ((ha.heap.header_of_not_mem hx).symm.trans hv)
    intro r
    rw [ha.heap.current_visit hi.linked hv hx (hvtx ▸ hr.tx_ne)]
    constructor
    · rintro ⟨⟨hcr, hrx⟩ | ⟨hp, -⟩, hd⟩
      · exact .inl ⟨⟨hcr, hd⟩, fun ho => hrx (hold r ho)⟩
      · exact .inr (by_contra fun hne => hd (hnext r hp hne))
    · rintro (⟨⟨hcr, hd⟩, ho⟩ | hp)
      · exact ⟨.inl ⟨hcr, fun hrx => hd (hrx ▸ hleft (hrx ▸ ho))⟩, hd⟩
      · obtain ⟨hp, hpown, -⟩ := hnew r hp
        refine ⟨.inr ⟨hp, fun hmem => ?_⟩, fun hd => hpown hd.1⟩
        rcases mem_cons.mp hmem with rfl | hmem
        · exact hpown hown
        · exact hpown (ha.own r hmem)
  -- what comes into the reverse map is not the transaction's
  have hinto : ∀ ix b r, (new.bind fun p => (t.heap.rawKey m ix p).map (·, p)) = some (b, r) →
    new = some r := by
    intro ix b r hb
    obtain ⟨p, hp, hb⟩ := Option.bind_eq_some_iff.mp hb
    obtain ⟨b', -, hbr⟩ := Option.map_eq_some_iff.mp hb
    rw [hp, (Prod.mk.inj hbr).2]
  refine ⟨ha.wf.setHeader _ _, fun hd => (ha.dense hd).setHeader _ _, hundone, ?_, ?_, ?_, ?_⟩
  · exact forall_mem_cons.mpr ⟨hown, ha.own⟩
  · refine ha.indexed.move hmoves (fun ix _ => map_bind_rawKey (hkey ix)) hcur
      (fun ix r _ => hkey ix r) ?_
    intro ix hix r k hor hk hextra
    rw [hold r hor] at hextra
    exact not_own_of_slot hr hi (hr.present ix hix k x hextra.1) hown
  · intro ix hix r b hb hnone
    have hnone : t.heap.slot? r = none := ha.heap.slot?_eq_none.mpr (hundone.slot?_eq_none.mp hnone)
    have hnr : new ≠ some r := fun hc => (hnew r hc).2.2 hnone
    rcases (hmoves ix hix).other r fun b' hb' => hnr (hinto ix b' r hb') with hsame | ⟨hgone, -⟩
    · exact ha.mapped ix hix r b (hsame.symm.trans hb) hnone
    · exact absurd (hgone.symm.trans hb) nofun
  · intro ix hix r hrown hrkey hrd
    obtain ⟨hrx, hrd⟩ := not_or.mp (mt mem_cons.mpr hrd)
    have hnr : new ≠ some r := fun hc => (hnew r hc).2.1 hrown
    rcases (hmoves ix hix).other r fun b' hb' => hnr (hinto ix b' r hb') with hsame | ⟨-, k, hk⟩
    · exact hsame.trans (ha.key ix hix r hrown hrkey hrd)
    · exact absurd (hold r (bind_entryOf_eq_some.mp hk).1) hrx

/-- A current version that is not the transaction's was current when it began. -/
theorem AbortInv.current_of_not_own {r : RowId} (hc : Current t.heap r)
    (hown : ¬ Own t₁.heap tx r) : Current t₀.heap r := by
  obtain ⟨-, ⟨v, hv, hdel⟩, hrep⟩ := (ha.heap.current_iff r).mp hc
  have hslot := slot_of_not_own hi (slot?_ne_none_of_header hv) hown
  refine ⟨⟨v, (hi.header_eq hslot).symm.trans hv, hdel⟩, ?_⟩
  rintro ⟨y, u, hu, hlive, hnext⟩
  exact not_own_of_slot hr hi (slot?_ne_none_of_header hu)
    (ha.own y (hrep y u (hi.header_of_old hu) hlive hnext))

/-- An entry under the key of a version that was current when the transaction began, and is not now,
in a unique index, is that of a version of the transaction. -/
theorem AbortInv.own_of_entry {p : RowId} (hp : Current t₀.heap p) (hnot : ¬ Current t.heap p)
    (hix : ix ∈ m.indexes) {k : Key} (hk : t.heap.keyOf m ix p = some k) {r : RowId}
    (hmem : (k, r) ∈ (t.index ix).entries) (hsame : ix.isUnique = true ∨ r = p) :
    Own t₁.heap tx r ∧ Current t.heap r ∧ ¬ Doomed tx t₁ r ∧ t.heap.keyOf m ix r = some k := by
  have hkey₀ : ∀ q, t₀.heap.slot? q ≠ none → t₀.heap.keyOf m ix q = t.heap.keyOf m ix q := fun q hq => by
    rw [ha.heap.keyOf_eq, keyOf_of_slot (hi.slot_eq hq)]
  have hp₀ := hr.current ix hix p k hp ((hkey₀ p hp.slot?).trans hk)
  -- an entry of the beginning under the key is that of `p`
  have hunique : (k, r) ∈ (t₀.index ix).entries → r = p := by
    intro hr₀
    rcases hsame with hu | hrp
    · exact (Prod.mk.inj (hr.txInv.indexed.unique hix hu _ hr₀ _ hp₀ rfl)).2
    · exact hrp
  rcases (ha.indexed.mem ix hix (k, r)).mp hmem with ⟨⟨hc, hd⟩, hk'⟩ | ⟨hr₀, hno⟩
  · by_cases hown : Own t₁.heap tx r
    · exact ⟨hown, hc, hd, hk'⟩
    · have hc₀ := ha.current_of_not_own hr hi hc hown
      obtain rfl := hunique (hr.current ix hix r k hc₀ ((hkey₀ r hc₀.slot?).trans hk'))
      exact absurd hc hnot
  · obtain rfl := hunique hr₀
    exact absurd ⟨hp, (hkey₀ r hp.slot?).trans hk⟩ hno

omit ha

/-- What the reverse map has for a version of the first pass is its entry. -/
theorem AbortInv.entryOf_eq (hu : Undoable m tx t₁.heap) (ha : AbortInv m tx t₀ t₁ done t)
    (hown : Own t₁.heap tx x)
    (hkey : (t₁.index .pk).rowToKey x ≠ none) (hx : x ∉ done) (hix : ix ∈ m.indexes) :
    entryOf t.heap m ix x = ((t.index ix).rowToKey x).map fun b => (Key.new b, x) := by
  rw [ha.key ix hix x hown hkey hx, entryOf, ha.heap.keyOf_eq]
  cases hb : (t₁.index ix).rowToKey x with
  | some b => rw [(hi.key ix hix x b hown hb).1]; rfl
  | none =>
    cases hk : t₁.heap.keyOf m ix x with
    | none => rfl
    | some k => exact absurd hb (hi.known ix hix x k hown (current_of_rowToKey hr hi hu hown hkey) hk)

/-- The version before one that the transaction has written is not the transaction's; it was current
when the transaction began, and is not. -/
theorem AbortInv.prev_spec (ha : AbortInv m tx t₀ t₁ done t)
    {x p : RowId} (hv : t₁.heap.header? x = some v) (hvtx : v.createTxId = tx) (hx : x ∉ done)
    (hp : v.nextVersion = some p) (hown : ¬ Own t₁.heap tx p) :
    t.heap.slot? p ≠ none ∧ Current t₀.heap p ∧ ¬ Current t.heap p := by
  have hp₀ := current_of_replaced hr hi hv hvtx hp hown
  refine ⟨?_, hp₀, fun hcp => hx ?_⟩
  · rw [ne_eq, ha.heap.slot?_eq_none, hi.slot_eq hp₀.slot?]
    exact hp₀.slot?
  · exact ((ha.heap.current_iff p).mp hcp).2.2 x v hv (hvtx ▸ hr.tx_ne) hp

end

/-- The keys of the version before are read from its row. -/
theorem bind_readPrevIndexKeys {h : Heap Row} {prev : Option RowId}
    (hprev : ∀ p, prev = some p → h.slot? p ≠ none) :
    prev.bind (readPrevIndexKeys h m) = prev.map fun _ => fun ix => prev.bind (h.rawKey m ix) := by
  cases prev with
  | none => rfl
  | some p =>
    obtain ⟨s, hs⟩ := ne_none_iff_exists'.mp (hprev p rfl)
    rw [bind_some, readPrevIndexKeys, hs]
    exact congrArg some (funext fun ix => (rawKey_of_slot hs ix).symm)

section

variable (hr : Ready m tx t₀) (hi : TxInv m tx t₀ t₁) (hu : Undoable m tx t₁.heap)
  (ha : AbortInv m tx t₀ t₁ done t)

include hr hi hu ha

/-- **The first pass** undoes a version. -/
theorem undoVersion_spec (hown : Own t₁.heap tx x) (hkey : (t₁.index .pk).rowToKey x ≠ none)
    (hx : x ∉ done) (hadm : UndoAdmitted m x t) : ∃ t', undoVersion m x t = (t', .ok ()) ∧
    AbortInv m tx t₀ t₁ (x :: done) t' := by
  have hc₁ := current_of_rowToKey hr hi hu hown hkey
  have hentry := fun ix (hix : ix ∈ m.indexes) => ha.entryOf_eq hr hi hu hown hkey hx hix
  obtain ⟨v, hv₁, hvtx⟩ := id hown
  have hv := (ha.heap.header_of_not_mem hx).trans hv₁
  obtain ⟨b, hb⟩ := ne_none_iff_exists'.mp hkey
  obtain ⟨hpk, hvdel⟩ := hi.key .pk m.pk_mem_indexes x b hown hb
  have hvdel := hvdel v hv₁
  have hc : Current t.heap x :=
    (ha.heap.current_iff x).mpr
      ⟨hx, hc₁.1, fun y w hw hlive hnext => absurd ⟨y, w, hw, hlive, hnext⟩ hc₁.2⟩
  have hprevOwn : ∀ p, v.nextVersion = some p → ¬ Own t₁.heap tx p := by
    rintro p hp ⟨w, hw, hwtx⟩
    exact absurd (hvdel.symm.trans (hu.chain x v p w hv₁ hvtx hp hw hwtx).1) (by simp)
  have hprev := fun p hp => ha.prev_spec hr hi hv₁ hvtx hx hp (hprevOwn p hp)
  -- an entry under the key of the version before is that of the version
  have hnew : ∀ ix ∈ m.indexes, ∀ p b', v.nextVersion = some p →
    v.nextVersion.bind (t.heap.rawKey m ix) = some b' →
      ∀ r, ix.isUnique = true ∨ r = p → (Key.new b', r) ∈ (t.index ix).entries →
        entryOf t.heap m ix x = some (Key.new b', r) := by
    intro ix hix p b' hp hb' r hsame hmem
    rw [hp, bind_some] at hb'
    have hk : t.heap.keyOf m ix p = some (Key.new b') := by rw [Heap.keyOf, hb']; rfl
    obtain ⟨-, hp₀, hpn⟩ := hprev p hp
    obtain ⟨hrown, -, hrd, hrk⟩ := ha.own_of_entry hr hi hp₀ hpn hix hk hmem hsame
    have huniq : ix.isUnique = true := hsame.resolve_right fun hrp => hprevOwn p hp (hrp ▸ hrown)
    obtain rfl | hrx := eq_or_ne r x
    · rw [entryOf, hrk]
      rfl
    · have hrkey : (t₁.index .pk).rowToKey r ≠ none := fun hnone => hrd ⟨hrown, hnone⟩
      rw [ha.heap.keyOf_eq] at hk hrk
      exact absurd hrk (hu.reuse x v p r hv₁ hvtx hvdel (by simp [hpk]) hp hrown
        (current_of_rowToKey hr hi hu hrown hrkey) hrx ix hix huniq _ hk)
  obtain ⟨index, hmaintain, hmoves⟩ := t.exists_maintain (undoIndexes m t x v)
    (fun ix im => (t.index ix).Moves ix.isUnique im ((some x).bind (entryOf t.heap m ix))
      (v.nextVersion.bind fun p => (t.heap.rawKey m ix p).map (·, p))) (by
      intro ix hix
      have hadm := hadm v hv ix hix
      have hnew := hnew ix hix
      rw [hentry ix hix] at hnew
      rw [undoIndexes, bind_readPrevIndexKeys fun p hp => (hprev p hp).1] at hadm ⊢
      rw [bind_some, hentry ix hix]
      obtain ⟨im, him, hmoves⟩ := exists_undoOps x v.nextVersion
        (fun ix => v.nextVersion.bind (t.heap.rawKey m ix)) (ha.indexed.sound ix hix)
          (ha.indexed.nodup ix hix) (by
          intro b' hb'
          refine (ha.indexed.mem ix hix _).mpr (.inl ⟨⟨hc, fun hd => hkey hd.2⟩, ?_⟩)
          have := hentry ix hix
          rw [hb', map_some, entryOf_eq_some] at this
          exact this.2)
        (fun hpk' => by rw [hpk', ha.key .pk m.pk_mem_indexes x hown hkey hx]; exact hkey) hnew hadm
      refine ⟨im, him, ?_⟩
      convert hmoves using 1
      cases v.nextVersion <;> rfl)
  refine ⟨_, ?_, ha.visit hr hi hv hx hown index (some x) v.nextVersion
    (fun r hor => (some.inj hor).symm) (fun hne => absurd rfl hne)
    (fun p hp => ⟨hp, hprevOwn p hp, (hprev p hp).1⟩) (fun p hp hne => absurd hp hne) hmoves⟩
  rw [undoVersion, hv]
  simp only [hmaintain]

/-- What the second pass puts back for a version: nothing, if it replaces none or one of the
transaction's, and else the version it replaces. -/
theorem AbortInv.restoreTarget_eq (hv : t₁.heap.header? x = some v) (hvtx : v.createTxId = tx) :
    ((∀ p, v.nextVersion = some p → Own t₁.heap tx p) ∧
        restoreTarget t.heap tx maxTombstoneChainWalk v.nextVersion = none) ∨
      ∃ p, v.nextVersion = some p ∧ ¬ Own t₁.heap tx p ∧
        restoreTarget t.heap tx maxTombstoneChainWalk v.nextVersion = some p := by
  cases hp : v.nextVersion with
  | none => exact .inl ⟨nofun, rfl⟩
  | some p =>
    obtain ⟨w, hw, hdel⟩ := hi.linked.down x v p hv (hvtx ▸ hr.tx_ne) hp
    by_cases hown : Own t₁.heap tx p
    · refine .inl ⟨fun q hq => some.inj hq ▸ hown, ?_⟩
      have hwtx := hown.createTxId_eq hw
      have hnext := (hu.chain x v p w hv hvtx hp hw hwtx).2
      rw [maxTombstoneChainWalk, restoreTarget]
      by_cases hpd : p ∈ done
      · obtain ⟨u, hu', hzero, hudel⟩ := ha.heap.header_of_mem hpd
        simp only [hu', hzero, hudel, if_neg hr.tx_ne.symm, if_true]
      · simp only [(ha.heap.header_of_not_mem hpd).trans hw, hwtx, if_true, hnext]
        rfl
    · refine .inr ⟨p, rfl, hown, ?_⟩
      have hpd : p ∉ done := fun hmem => hown (ha.own p hmem)
      have hwtx : w.createTxId ≠ tx := fun hc => hown ⟨w, hw, hc⟩
      rw [maxTombstoneChainWalk, restoreTarget]
      simp only [(ha.heap.header_of_not_mem hpd).trans hw, if_neg hwtx, hdel, Bool.false_eq_true,
        if_false]

/-- **The second pass** undoes a version, when the first is over. -/
theorem undoTombstone_spec (hfirst : ∀ r, Own t₁.heap tx r → (t₁.index .pk).rowToKey r ≠ none → r ∈ done)
    (hd : Doomed tx t₁ x) (hx : x ∉ done) (hadm : RestoreAdmitted m tx x t) :
    ∃ t', undoTombstone m tx x t = (t', .ok ()) ∧ AbortInv m tx t₀ t₁ (x :: done) t' := by
  obtain ⟨v, hv₁, hvtx⟩ := id hd.1
  have hv := (ha.heap.header_of_not_mem hx).trans hv₁
  rcases ha.restoreTarget_eq hr hi hu hv₁ hvtx with ⟨hprev, htarget⟩ | ⟨p, hp, hpown, htarget⟩
  · -- nothing is put back: what the version replaces will be undone as well
    refine ⟨_, ?_, ha.visit hr hi hv hx hd.1 t.index none none nofun (fun _ => hd) nofun
      (fun q hq _ => ?_)
      (fun ix hix => .refl (ha.indexed.sound ix hix) (ha.indexed.nodup ix hix))⟩
    · rw [undoTombstone, hv]
      simp only [restoreTombstoneIndexEntries, htarget]
    · obtain ⟨w, hw, hwtx⟩ := hprev q hq
      exact ⟨hprev q hq, hi.deleted x v q hv₁ hvtx (hu.chain x v q w hv₁ hvtx hq hw hwtx).1 hq⟩
  · obtain ⟨hslot, hp₀, hpn⟩ := ha.prev_spec hr hi hv₁ hvtx hx hp hpown
    obtain ⟨s, hs⟩ := ne_none_iff_exists'.mp hslot
    -- the versions of the first pass are gone, so no entry has a key of the version put back
    have hnone : ∀ ix ∈ m.indexes, ∀ k, t.heap.keyOf m ix p = some k → ∀ r,
        (k, r) ∈ (t.index ix).entries → ix.isUnique = true ∨ r = p → False := by
      intro ix hix k hk r hmem hsame
      obtain ⟨hrown, hcr, hrd, -⟩ := ha.own_of_entry hr hi hp₀ hpn hix hk hmem hsame
      have hrdone := hfirst r hrown fun hkey => hrd ⟨hrown, hkey⟩
      exact ((ha.heap.current_iff r).mp hcr).1 hrdone
    obtain ⟨index, hmaintain, hmoves⟩ := t.exists_maintain
      (fun ix _ => insertOps m p (m.readRow s.tuple) ix)
      (fun ix im => (t.index ix).Moves ix.isUnique im none ((t.heap.rawKey m ix p).map (·, p))) (by
        intro ix hix
        have hadm := hadm v hv p htarget s hs ix hix
        rw [rawKey_of_slot hs]
        refine exists_insert? (ha.indexed.sound ix hix) (ha.indexed.nodup ix hix) _ p
          (fun b hb r hr hmem => ?_) hadm
        exact hnone ix hix (Key.new b) (by rw [Heap.keyOf, rawKey_of_slot hs, hb]; rfl) r hmem hr)
    refine ⟨_, ?_, ha.visit hr hi hv hx hd.1 index none (some p) nofun (fun _ => hd)
      (fun q hq => some.inj hq ▸ ⟨hp, hpown, hslot⟩)
        (fun q hq hne => absurd (hp.symm.trans hq) hne) hmoves⟩
    rw [undoTombstone, hv]
    simp only [restoreTombstoneIndexEntries, htarget, hs, hmaintain]

end

end Visit

/-! ### The rollback of a table -/

section Table

variable {m : TableMeta} {tx : ℕ} {t₀ t₁ t : Table} {done : List RowId}

/-- Before the first visit. -/
theorem AbortInv.init (hi : TxInv m tx t₀ t₁) (hu : Undoable m tx t₁.heap) :
    AbortInv m tx t₀ t₁ [] t₁ where
  wf := hi.wf
  dense h := h
  heap := ⟨fun _ _ => rfl, nofun⟩
  own := nofun
  indexed :=
    { nodup := hi.indexed.nodup
      mem := by
        intro ix hix e
        rw [hi.indexed.mem ix hix]
        -- a version of the second pass is not current, or has no keys
        have hdoomed : Current t₁.heap e.2 → t₁.heap.keyOf m ix e.2 = some e.1 → ¬ Doomed tx t₁ e.2 := by
          rintro hc hk ⟨hown, hkey⟩
          have hpk : t₁.heap.keyOf m .pk e.2 = none := by
            by_contra hsome
            obtain ⟨k, hk'⟩ := ne_none_iff_exists'.mp hsome
            exact hi.known .pk m.pk_mem_indexes e.2 k hown hc hk' hkey
          obtain ⟨v, hv, hvtx⟩ := hown
          obtain ⟨⟨w, hw, hdel⟩, -⟩ := hc
          rw [hv, some.injEq] at hw
          rw [hu.keyless e.2 v hv hvtx (hw ▸ hdel) hpk ix hix] at hk
          cases hk
        constructor
        · rintro (⟨hc, hk⟩ | hx)
          · exact .inl ⟨⟨hc, hdoomed hc hk⟩, hk⟩
          · exact .inr hx
        · rintro (⟨⟨hc, -⟩, hk⟩ | hx)
          · exact .inl ⟨hc, hk⟩
          · exact .inr hx
      sound := hi.indexed.sound }
  mapped := hi.mapped
  key _ _ _ _ _ _ := rfl

/-- Visits one after the other, each to a version not yet visited. -/
theorem forEachVersion_spec {f : RowId → Table → Table × Except StorageError Unit}
    {P : List RowId → Table → Prop} {Q : RowId → Prop} {ok : RowId → Table → Prop}
    (hf : ∀ done t x, P done t → Q x → x ∉ done → ok x t → ∃ t', f x t = (t', .ok ()) ∧ P (x :: done) t')
    {rids done : List RowId} {t : Table} (hP : P done t) (hQ : ∀ r ∈ rids, Q r) (hnd : rids.Nodup)
    (hdisj : ∀ r ∈ rids, r ∉ done) (hok : AlongVersions ok f rids t) :
    ∃ t', forEachVersion f rids t = (t', .ok ()) ∧ P (rids.reverse ++ done) t' := by
  induction rids generalizing done t with
  | nil => exact ⟨t, rfl, hP⟩
  | cons x rest ih =>
    obtain ⟨hout, hnd⟩ := nodup_cons.mp hnd
    obtain ⟨hx, hok⟩ := hok
    obtain ⟨t₂, ht₂, hP₂⟩ := hf done t x hP (hQ x mem_cons_self) (hdisj x mem_cons_self) hx
    rw [ht₂] at hok
    obtain ⟨t', ht', hP'⟩ := ih hP₂ (fun r hr => hQ r (mem_cons_of_mem _ hr)) hnd (by
      intro r hr hmem
      rcases mem_cons.mp hmem with rfl | hmem
      · exact hout hr
      · exact hdisj r (mem_cons_of_mem _ hr) hmem) hok
    refine ⟨t', ?_, ?_⟩
    · rwa [forEachVersion, ht₂]
    · simpa using hP'

section

variable (hr : Ready m tx t₀) (hi : TxInv m tx t₀ t₁) (ha : AbortInv m tx t₀ t₁ done t)
  (hall : ∀ r, Own t₁.heap tx r → r ∈ done)

include hr hi ha hall

/-- When every version of the transaction has been visited, the versions that were current when it
began are. -/
theorem AbortInv.current_iff_of_all (r : RowId) : Current t.heap r ↔ Current t₀.heap r := by
  constructor
  · exact fun hc => ha.current_of_not_own hr hi hc fun hown =>
      ((ha.heap.current_iff r).mp hc).1 (hall r hown)
  · rintro ⟨⟨v, hv, hdel⟩, hrep⟩
    rw [ha.heap.current_iff]
    have hslot := slot?_ne_none_of_header hv
    refine ⟨fun hrd => not_own_of_slot hr hi hslot (ha.own r hrd), ⟨v, hi.header_of_old hv, hdel⟩, ?_⟩
    intro x w hw hlive hnext
    refine hall x ?_
    by_contra hown
    have hx := slot_of_not_own hi (slot?_ne_none_of_header hw) hown
    exact hrep ⟨x, w, (hi.header_eq hx).symm.trans hw, hlive, hnext⟩

/-- When every version of the transaction has been visited, the indexes are as they were. -/
theorem AbortInv.entries_perm {ix : IndexId}
    (hix : ix ∈ m.indexes) : (t.index ix).entries.Perm (t₀.index ix).entries := by
  refine (perm_ext_iff_of_nodup (ha.indexed.nodup ix hix) (hr.nodup ix hix)).mpr fun e => ?_
  rw [ha.indexed.mem ix hix, hr.txInv.indexed.mem ix hix, ha.current_iff_of_all hr hi hall,
    ha.heap.keyOf_eq]
  have hsame : ∀ {P : Prop}, Current t₀.heap e.2 ∧ P → t₁.heap.keyOf m ix e.2 = t₀.heap.keyOf m ix e.2 :=
    fun hc => keyOf_of_slot (hi.slot_eq hc.1.slot?)
  constructor
  · rintro (⟨hc, hk⟩ | hx)
    · exact .inl ⟨hc.1, (hsame hc).symm.trans hk⟩
    · exact .inr hx
  · rintro (⟨hc, hk⟩ | hx)
    · exact .inl ⟨⟨hc, fun hd => not_own_of_slot hr hi hc.slot? hd.1⟩, (hsame ⟨hc, hk⟩).trans hk⟩
    · exact .inr hx

end

/-- **The rollback of a table** ends without an error, when every version of the transaction has
been visited. -/
theorem abortTable_spec (hr : Ready m tx t₀) (hi : TxInv m tx t₀ t₁) (hu : Undoable m tx t₁.heap)
    {order : List RowId} (hnd : order.Nodup) (hmem : ∀ r, r ∈ order ↔ Own t₁.heap tx r)
    (hadm : AbortAdmitted m tx order t₁) :
    ∃ t done, abortTable m tx order t₁ = (t, .ok ()) ∧ AbortInv m tx t₀ t₁ done t ∧
      ∀ r, Own t₁.heap tx r → r ∈ done := by
  have hindexed : ∀ r, indexed t₁ r = true ↔ (t₁.index .pk).rowToKey r ≠ none := by
    intro r
    rw [indexed, findKeyByRowId, Option.isSome_iff_ne_none]
  obtain ⟨t₂, ht₂, ha₂⟩ := forEachVersion_spec (f := undoVersion m) (P := AbortInv m tx t₀ t₁)
    (Q := fun r => Own t₁.heap tx r ∧ (t₁.index .pk).rowToKey r ≠ none)
    (fun _ _ _ ha hQ hx => undoVersion_spec hr hi hu ha hQ.1 hQ.2 hx) (AbortInv.init hi hu)
    (fun r hrm => ⟨(hmem r).mp (mem_of_mem_filter hrm), (hindexed r).mp (mem_filter.mp hrm).2⟩)
    (hnd.filter (indexed t₁)) (fun _ _ => not_mem_nil) hadm.1
  have hadm₂ := hadm.2
  rw [ht₂] at hadm₂
  have hfirst : ∀ r, Own t₁.heap tx r → (t₁.index .pk).rowToKey r ≠ none →
      r ∈ (order.filter (indexed t₁)).reverse ++ [] := by
    intro r hown hkey
    simp [(hmem r).mpr hown, (hindexed r).mpr hkey]
  obtain ⟨t₃, ht₃, ha₃, -⟩ := forEachVersion_spec (f := undoTombstone m tx)
    (P := fun done t => AbortInv m tx t₀ t₁ done t ∧
      ∀ r, Own t₁.heap tx r → (t₁.index .pk).rowToKey r ≠ none → r ∈ done)
    (Q := Doomed tx t₁) (by
      rintro done t x ⟨ha, hfirst⟩ hd hx hadm
      obtain ⟨t', ht', ha'⟩ := undoTombstone_spec hr hi hu ha hfirst hd hx hadm
      exact ⟨t', ht', ha', fun r hown hkey => mem_cons_of_mem _ (hfirst r hown hkey)⟩)
    ⟨ha₂, hfirst⟩ (by
      intro r hrm
      obtain ⟨hro, hnot⟩ := mem_filter.mp hrm
      refine ⟨(hmem r).mp hro, ?_⟩
      by_contra hkey
      rw [(hindexed r).mpr hkey] at hnot
      cases hnot)
    (hnd.filter fun r => !indexed t₁ r) (by
      intro r hrm hdone
      have hin : indexed t₁ r = true := by simpa using (mem_filter.mp (by simpa using hdone)).2
      simp [hin] at hrm) hadm₂
  refine ⟨t₃, _, ?_, ha₃, fun r hown => ?_⟩
  · rwa [abortTable, ht₂]
  · have hro := (hmem r).mpr hown
    simp only [append_nil, mem_append, mem_reverse, mem_filter, hro, true_and]
    cases indexed t₁ r <;> simp

end Table

/-! ### The rollback of a transaction -/

section Tables

variable {τ : Type} [DecidableEq τ] (metas : τ → TableMeta)

/-- The rows of the statements of a transaction, over any tables. -/
def execTables (d : DateParser) (tx : ℕ) (ops : List (τ × RowOp)) (tables : τ → Table) : τ → Table :=
  ops.foldl (fun s p => Function.update s p.1 (exec d (metas p.1) tx p.2 (s p.1)).1) tables

/-- The indexes admit the entries of every row as it comes. -/
def TablesAdmitted (d : DateParser) (tx : ℕ) : List (τ × RowOp) → (τ → Table) → Prop
  | [], _ => True
  | p :: ops, tables => p.2.Admitted d (metas p.1) tx (tables p.1) ∧
      TablesAdmitted d tx ops (Function.update tables p.1 (exec d (metas p.1) tx p.2 (tables p.1)).1)

/-- The indexes of every table hold what they held. -/
def SameEntries (tables₀ tables : τ → Table) : Prop :=
  ∀ name, ∀ ix ∈ (metas name).indexes,
  ((tables name).index ix).entries.Perm ((tables₀ name).index ix).entries

variable {metas} {tx : ℕ} {tables₀ : τ → Table}

theorem txInv_execTables {d : DateParser} (hr : ∀ name, Ready (metas name) tx (tables₀ name))
    {ops : List (τ × RowOp)} {tables : τ → Table}
    (hi : ∀ name, TxInv (metas name) tx (tables₀ name) (tables name))
    (hadm : TablesAdmitted metas d tx ops tables) :
    ∀ name, TxInv (metas name) tx (tables₀ name) (execTables metas d tx ops tables name) := by
  induction ops generalizing tables with
  | nil => exact hi
  | cons p ops ih =>
    refine ih (fun name => ?_) hadm.2
    exact (Function.forall_update_iff tables fun name => TxInv (metas name) tx (tables₀ name)).mpr
      ⟨txInv_exec (hr p.1) (hi p.1) hadm.1, fun name _ => hi name⟩ name

/-- Table after table is rolled back. -/
theorem abortCleanupVersions_spec {order : List (τ × List RowId)} {P : τ → Table → Prop}
    (tables : τ → Table) (hnd : (order.map Prod.fst).Nodup)
    (h : ∀ p ∈ order, ∃ t, abortTable (metas p.1) tx p.2 (tables p.1) = (t, .ok ()) ∧ P p.1 t) :
    ∃ tables', abortCleanupVersions metas tx order tables = (tables', .ok ()) ∧
      (∀ name ∈ order.map Prod.fst, P name (tables' name)) ∧
      ∀ name, name ∉ order.map Prod.fst → tables' name = tables name := by
  induction order generalizing tables with
  | nil => exact ⟨tables, rfl, nofun, fun _ _ => rfl⟩
  | cons p order ih =>
    obtain ⟨name, rids⟩ := p
    obtain ⟨hout, hnd⟩ := nodup_cons.mp hnd
    obtain ⟨t, ht, hP⟩ := h _ mem_cons_self
    obtain ⟨tables', htables', hin, hrest⟩ := ih (Function.update tables name t) hnd (by
      intro q hq
      have hne : q.1 ≠ name := fun hc => hout (mem_map.mpr ⟨q, hq, hc⟩)
      rw [Function.update_of_ne hne]
      exact h q (mem_cons_of_mem _ hq))
    refine ⟨tables', ?_, forall_mem_cons.mpr ⟨?_, hin⟩, fun n hn => ?_⟩
    · rwa [abortCleanupVersions, ht]
    · rwa [hrest _ hout, Function.update_self]
    · obtain ⟨hne, hn⟩ := not_or.mp (mt mem_cons.mpr hn)
      rw [hrest n hn, Function.update_of_ne hne]

end Tables

/-! ### Transactions on a table of one row -/

/-- A table with a primary key and a `UNIQUE` column. -/
def accounts : TableMeta where
  columns := [("id", .int), ("v", .int)]
  pkColumn := "id"
  pkIndex := 0
  notNull := [false, false]
  defaults := [none, none]
  uniqueCols := [1]
  secondaryIndexes := []
  pk_position := by decide

/-- No dates. -/
def noDates : DateParser := ⟨fun _ => none, fun _ => none⟩

/-- The row `(1, 5)`, committed by transaction 1. -/
def oneRow : Table where
  heap := .onePage [⟨⟨1, .committed 1, none⟩, [.int 1, .int 5]⟩]
  index
    | .pk => single (.next Key RowId) (toBeBytes 1) ⟨0, 0⟩
    | .unique 0 => single (.next Key RowId) (toBeBytes 5) ⟨0, 0⟩
    | _ => .new (.next Key RowId)
  recorded := []

/-- `UPDATE accounts SET v = n WHERE id = 1`. -/
def setV (n : Int64) : RowOp := .update (some 0) (toBeBytes 1) [⟨"v", fun _ => .ok (.int n)⟩]

theorem mem_indexes_accounts {ix : IndexId} (h : ix ∈ accounts.indexes) : ix = .pk ∨ ix = .unique 0 := by
  simpa [TableMeta.indexes, accounts] using h

theorem header_oneRow {r : RowId} {v : VersionHeader} (hv : oneRow.heap.header? r = some v) :
    r = ⟨0, 0⟩ ∧ v = ⟨1, .committed 1, none⟩ := by
  obtain ⟨i, slot, rfl, hslot, rfl⟩ := Heap.header?_of_slots (fun _ => rfl) hv
  obtain ⟨rfl, rfl⟩ := Prod.mk.inj (mem_singleton.mp hslot)
  exact ⟨rfl, rfl⟩

theorem current_oneRow : Current oneRow.heap ⟨0, 0⟩ := by
  refine ⟨⟨_, rfl, rfl⟩, ?_⟩
  rintro ⟨x, v, hv, -, hnext⟩
  rw [(header_oneRow hv).2] at hnext
  cases hnext

/-- The indexes have the entries of the row. -/
theorem index_oneRow {ix : IndexId} (hix : ix ∈ accounts.indexes) :
    ∃ b, oneRow.index ix = single (.next Key RowId) b ⟨0, 0⟩ ∧
    oneRow.heap.keyOf accounts ix ⟨0, 0⟩ = some (Key.new b) := by
  rcases mem_indexes_accounts hix with rfl | rfl
  · exact ⟨toBeBytes 1, rfl, by decide⟩
  · exact ⟨toBeBytes 5, rfl, by decide⟩

theorem mem_oneRow {ix : IndexId} (hix : ix ∈ accounts.indexes) {k : Key} {r : RowId}
    (h : (k, r) ∈ (oneRow.index ix).entries) : r = ⟨0, 0⟩ ∧
    oneRow.heap.keyOf accounts ix ⟨0, 0⟩ = some k := by
  obtain ⟨b, hb, hk⟩ := index_oneRow hix
  rw [hb, mem_single] at h
  cases h
  exact ⟨rfl, hk⟩

/-- The table is as a transaction finds it. -/
theorem ready_oneRow : Ready accounts 2 oneRow where
  tx_ne := by decide
  wf := Heap.wf_onePage _
  linked :=
    { live := by
        intro r v hv _
        rw [(header_oneRow hv).2]
        decide
      down := by
        intro x v r hv _ hnext
        rw [(header_oneRow hv).2] at hnext
        cases hnext
      unique := by
        intro x y r v w hv hw _ _ _ _
        rw [(header_oneRow hv).1, (header_oneRow hw).1] }
  fresh r v hv := by
    rw [(header_oneRow hv).2]
    decide
  recorded := rfl
  nodup ix hix := by
    obtain ⟨b, hb, -⟩ := index_oneRow hix
    rw [hb]
    exact (moves_single true _ b _).nodup
  sound ix hix := by
    obtain ⟨b, hb, -⟩ := index_oneRow hix
    rw [hb]
    exact (moves_single _ _ b _).sound
  current ix hix r k hc hk := by
    obtain ⟨⟨v, hv, -⟩, -⟩ := hc
    obtain rfl := (header_oneRow hv).1
    obtain ⟨b, hb, hkey⟩ := index_oneRow hix
    rw [hb, mem_single, some.inj (hk.symm.trans hkey)]
  pk k r h := by
    obtain ⟨rfl, hk⟩ := mem_oneRow accounts.pk_mem_indexes h
    exact ⟨current_oneRow, hk⟩
  present ix hix k r h := by
    rw [(mem_oneRow hix h).1]
    nofun
  mapped ix hix r b' h := by
    obtain ⟨b, hb, -⟩ := index_oneRow hix
    rw [hb] at h
    rw [rid_of_rowToKey_single h]
    nofun

/-- The table after a transaction that has not ended. -/
def afterOps (ops : List RowOp) : Unit → Table :=
  execTables (fun _ => accounts) noDates 2 (ops.map ((), ·)) fun _ => oneRow

/-- The rollback, with the versions in the given order. -/
def rollback (ops : List RowOp) (order : List RowId) : Database Unit × Except StorageError Unit :=
  abortById (fun _ => accounts) 2 [((), order)] ⟨afterOps ops, [2]⟩

/-- Every order of the versions recorded is one in which they may be visited. -/
theorem visits_afterOps (ops : List RowOp) (order : List RowId) (hne : order ≠ []) (hnd : order.Nodup)
    (hrec : order.Perm (afterOps ops ()).recorded)
    (hperm : order.Perm ((afterOps ops ()).heap.versionsCreatedBy 2)) :
    Visits 2 (afterOps ops) [((), order)] where
  tables_nodup := nodup_singleton _
  tables_mem _ := by
    refine iff_of_true (mem_singleton.mpr rfl) fun hnil => hne ?_
    rw [hnil] at hrec
    exact hrec.eq_nil
  nodup p hp := by
    rwa [mem_singleton.mp hp]
  mem p hp r := by
    obtain rfl := mem_singleton.mp hp
    rw [← hrec.mem_iff, ← hperm.mem_iff, or_self]

/-- An UPDATE of the row can be undone. -/
theorem undoable_of_slots {h : Heap Row} (hslots : ∀ page, h.slots page =
    if page = 0 then [(0, ⟨⟨1, .committed 1, none⟩, [.int 1, .int 5]⟩),
      (1, ⟨⟨2, .unset, some ⟨0, 0⟩⟩, [.int 1, .int 6]⟩)] else []) : Undoable accounts 2 h := by
  have hrow : h.keyOf accounts .pk ⟨0, 1⟩ = some (Key.new (toBeBytes 1)) := by
    simp only [Heap.keyOf, Heap.rawKey, Heap.slot?, hslots]
    rfl
  have hown : ∀ {x v}, h.header? x = some v → v.createTxId = 2 →
      x = ⟨0, 1⟩ ∧ v = ⟨2, .unset, some ⟨0, 0⟩⟩ := by
    intro x v hv htx
    rcases Heap.header?_of_two hslots hv with ⟨-, rfl⟩ | h
    · cases htx
    · exact h
  refine ⟨?_, ?_, ?_⟩
  · intro x v r w hv htx hnext hw hwtx
    obtain ⟨-, rfl⟩ := hown hv htx
    obtain rfl : (⟨0, 0⟩ : RowId) = r := some.inj hnext
    exact absurd (hown hw hwtx).1 (by decide)
  · intro x v hv htx _ hk
    obtain ⟨rfl, -⟩ := hown hv htx
    cases hrow.symm.trans hk
  · rintro x v p y hv htx _ _ _ ⟨w, hw, hwtx⟩ _ hne
    exact absurd ((hown hw hwtx).1.trans (hown hv htx).1.symm) hne

/-- A transaction on the table leaves the indexes other than they were, for some order of its
versions, although the rollback succeeds. -/
def Fails (ops : List RowOp) : Prop :=
  ∃ order, Visits 2 (afterOps ops) [((), order)] ∧ (rollback ops order).2 = .ok () ∧
    ¬ SameEntries (fun _ => accounts) (fun _ => oneRow) (rollback ops order).1.tables

end RTsql.Transaction

import RTsql.Executor.Statements

/-!
# Indexes and versions

Every statement writes one version and moves, in every index of the table, the entry
of the version it replaces to the new one. So the indexes hold the entries of the
current versions: those not aborted, not deleted, and not replaced by a version that
is not aborted. This module says what that means (`Indexed`), what a transaction finds
when it begins (`Ready`), and what holds while it runs (`TxInv`).

An index other than that of the primary key may hold further entries. They stay as they
are: a statement reaches a row only through its primary key.
-/

namespace RTsql.Executor

open Option RTsql.Storage RTsql.Transaction IndexManager

universe u

variable {α : Type u} {r rid : RowId} {ix : IndexId} {v : VersionHeader} {m : TableMeta}

/-! ### Current versions -/

/-- A version that is not aborted replaces `rid`. -/
def Replaced (h : Heap α) (rid : RowId) : Prop :=
  ∃ x v, h.header? x = some v ∧ v.createTxId ≠ 0 ∧ v.nextVersion = some rid

/-- The current version of a row that is there: not aborted, not deleted, not replaced. -/
def Current (h : Heap α) (rid : RowId) : Prop :=
  (∃ v, h.header? rid = some v ∧ v.isDeleted = false) ∧ ¬ Replaced h rid

/-- No chain of versions is broken or branches, apart from aborted versions. -/
structure Unbroken (h : Heap α) : Prop where
  /-- An aborted version is deleted. -/
  live : ∀ r v, h.header? r = some v → v.isDeleted = false → v.createTxId ≠ 0
  /-- What a version replaces is there and is not deleted. -/
  down : ∀ x v r, h.header? x = some v → v.createTxId ≠ 0 → v.nextVersion = some r →
    ∃ w, h.header? r = some w ∧ w.isDeleted = false
  /-- No version is replaced twice. -/
  unique : ∀ x y r v w, h.header? x = some v → h.header? y = some w → v.createTxId ≠ 0 →
    w.createTxId ≠ 0 → v.nextVersion = some r → w.nextVersion = some r → x = y

/-- `h'` is `h` with one slot more. -/
structure Extends (h h' : Heap α) (new : RowId) (s : Slot α) : Prop where
  /-- The row id was not in use. -/
  fresh : h.slot? new = none
  slot : ∀ r, h'.slot? r = if r = new then some s else h.slot? r

section Extends

variable {h h' : Heap α} {new : RowId} {s : Slot α}

variable (hx : Extends h h' new s)

include hx

theorem Extends.header (r : RowId) : h'.header? r = if r = new then some s.header else h.header? r := by
  simp only [Heap.header?, hx.slot]
  split <;> rfl

theorem Extends.header_new : h'.header? new = some s.header := by
  rw [hx.header, if_pos rfl]

theorem Extends.header_fresh : h.header? new = none := by
  rw [Heap.header?, hx.fresh]
  rfl

theorem Extends.header_of_ne (hr : r ≠ new) : h'.header? r = h.header? r := by
  rw [hx.header, if_neg hr]

theorem ne_of_header (hv : h.header? r = some v) : r ≠ new := by
  rintro rfl
  rw [hx.header_fresh] at hv
  cases hv

theorem Extends.header_of_some (hv : h.header? r = some v) : h'.header? r = some v := by
  rw [hx.header_of_ne (ne_of_header hx hv), hv]

/-- A version is the new one, or was there. -/
theorem Extends.header_cases (hv : h'.header? r = some v) : (r = new ∧ v = s.header) ∨
    h.header? r = some v := by
  rw [hx.header] at hv
  split at hv
  case isTrue hr => exact .inl ⟨hr, (Option.some.inj hv).symm⟩
  case isFalse => exact .inr hv

theorem Extends.replaced (hs : s.header.createTxId ≠ 0) (r : RowId) :
    Replaced h' r ↔ Replaced h r ∨ s.header.nextVersion = some r := by
  constructor
  · rintro ⟨x, v, hv, hlive, hnext⟩
    rcases hx.header_cases hv with ⟨-, rfl⟩ | hv
    · exact .inr hnext
    · exact .inl ⟨x, v, hv, hlive, hnext⟩
  · rintro (⟨x, v, hv, hlive, hnext⟩ | hnext)
    · exact ⟨x, v, hx.header_of_some hv, hlive, hnext⟩
    · exact ⟨new, s.header, hx.header_new, hs, hnext⟩

variable (hl : Unbroken h) (hs : s.header.createTxId ≠ 0)
  (hcur : ∀ r, s.header.nextVersion = some r → Current h r)

include hl hs hcur

/-- The current versions after a version was written that replaces a current one. -/
theorem Extends.current (r : RowId) :
    Current h' r ↔ (Current h r ∧ s.header.nextVersion ≠ some r) ∨
    (s.header.isDeleted = false ∧ new = r) := by
  constructor
  · rintro ⟨⟨v, hv, hdel⟩, hrep⟩
    rw [hx.replaced hs, not_or] at hrep
    rcases hx.header_cases hv with ⟨rfl, rfl⟩ | hv
    · exact .inr ⟨hdel, rfl⟩
    · exact .inl ⟨⟨⟨v, hv, hdel⟩, hrep.1⟩, hrep.2⟩
  · rintro (⟨⟨⟨v, hv, hdel⟩, hrep⟩, hnext⟩ | ⟨hdel, rfl⟩)
    · refine ⟨⟨v, hx.header_of_some hv, hdel⟩, ?_⟩
      rw [hx.replaced hs, not_or]
      exact ⟨hrep, hnext⟩
    · refine ⟨⟨s.header, hx.header_new, hdel⟩, ?_⟩
      rw [hx.replaced hs, not_or]
      constructor
      · rintro ⟨x, v, hv, hlive, hnext⟩
        obtain ⟨w, hw, -⟩ := hl.down x v new hv hlive hnext
        exact ne_of_header hx hw rfl
      · intro hnext
        obtain ⟨⟨w, hw, -⟩, -⟩ := hcur new hnext
        exact ne_of_header hx hw rfl

theorem Extends.linked : Unbroken h' where
  live r v hv hdel := by
    rcases hx.header_cases hv with ⟨-, rfl⟩ | hv
    · exact hs
    · exact hl.live r v hv hdel
  down x v r hv hlive hnext := by
    rcases hx.header_cases hv with ⟨-, rfl⟩ | hv
    · obtain ⟨⟨w, hw, hdel⟩, -⟩ := hcur r hnext
      exact ⟨w, hx.header_of_some hw, hdel⟩
    · obtain ⟨w, hw, hdel⟩ := hl.down x v r hv hlive hnext
      exact ⟨w, hx.header_of_some hw, hdel⟩
  unique x y r v w hv hw hlive hlive' hnext hnext' := by
    -- a version that was current had no other to replace it
    have key : ∀ z u, h.header? z = some u → u.createTxId ≠ 0 → u.nextVersion = some r →
        s.header.nextVersion ≠ some r := by
      intro z u hu hlu hnu hnew
      exact (hcur r hnew).2 ⟨z, u, hu, hlu, hnu⟩
    rcases hx.header_cases hv with ⟨rfl, rfl⟩ | hv
    · rcases hx.header_cases hw with ⟨rfl, -⟩ | hw
      · rfl
      · exact absurd hnext (key y w hw hlive' hnext')
    · rcases hx.header_cases hw with ⟨-, rfl⟩ | hw
      · exact absurd hnext' (key x v hv hlive hnext)
      · exact hl.unique x y r v w hv hw hlive hlive' hnext hnext'

end Extends

/-! ### The entries of the indexes -/

variable {h h' : Heap Row} {e : Key × RowId}

/-- The entry of a version in an index. -/
def entryOf (h : Heap Row) (m : TableMeta) (ix : IndexId) (rid : RowId) : Option (Key × RowId) :=
  (h.keyOf m ix rid).map (·, rid)

/-- Every index of the table holds the entries of the versions `Cur`, each once, and the entries
`extra`, in a tree that is in order. -/
structure Indexed (m : TableMeta) (h : Heap Row) (index : IndexId → IndexManager) (Cur : RowId → Prop)
    (extra : IndexId → Key × RowId → Prop) : Prop where
  /-- No entry is there twice. -/
  nodup : ∀ ix ∈ m.indexes, (index ix).entries.Nodup
  mem : ∀ ix ∈ m.indexes, ∀ e, e ∈ (index ix).entries ↔ (Cur e.2 ∧ h.keyOf m ix e.2 = some e.1) ∨
    extra ix e
  /-- The trees are in order; a key of a unique index has one entry. -/
  sound : ∀ ix ∈ m.indexes, (index ix).Sound ix.isUnique

theorem entryOf_eq_some : entryOf h m ix rid = some e ↔ rid = e.2 ∧ h.keyOf m ix e.2 = some e.1 := by
  obtain ⟨k, r⟩ := e
  simp only [entryOf, map_eq_some_iff, Prod.mk.injEq]
  constructor
  · rintro ⟨k', hk, rfl, rfl⟩
    exact ⟨rfl, hk⟩
  · rintro ⟨rfl, hk⟩
    exact ⟨k, hk, rfl, rfl⟩

theorem bind_entryOf_eq_some {o : Option RowId} :
    o.bind (entryOf h m ix) = some e ↔ o = some e.2 ∧ h.keyOf m ix e.2 = some e.1 := by
  simp only [bind_eq_some_iff, entryOf_eq_some]
  constructor
  · rintro ⟨r, hr, rfl, hk⟩
    exact ⟨hr, hk⟩
  · rintro ⟨hr, hk⟩
    exact ⟨e.2, hr, rfl, hk⟩

theorem Indexed.unique {index : IndexId → IndexManager} {Cur : RowId → Prop}
    {extra : IndexId → Key × RowId → Prop}
    (hi : Indexed m h index Cur extra) (hix : ix ∈ m.indexes) (hu : ix.isUnique = true) :
    (index ix).UniqueKeys := by
  have hs := hi.sound ix hix
  rw [hu] at hs
  exact hs.uniqueKeys

/-- **Moving entries.** The version `old` stops to be current and `new` begins to be; in every index
the entry of `old` leaves and that of `new` comes. -/
theorem Indexed.move {index index' : IndexId → IndexManager}
    {Cur Cur' : RowId → Prop} {extra : IndexId → Key × RowId → Prop} (hi : Indexed m h index Cur extra)
    {old new : Option RowId} {into : IndexId → Option (Bytes × RowId)}
    (hmoves : ∀ ix ∈ m.indexes,
      (index ix).Moves ix.isUnique (index' ix) (old.bind (entryOf h m ix)) (into ix))
    (hinto : ∀ ix ∈ m.indexes, (into ix).map (Prod.map Key.new id) = new.bind (entryOf h' m ix))
    (hcur : ∀ r, Cur' r ↔ (Cur r ∧ old ≠ some r) ∨ new = some r)
    (hkey : ∀ ix r, Cur r → h'.keyOf m ix r = h.keyOf m ix r)
    (hextra : ∀ ix ∈ m.indexes, ∀ r k, old = some r → h.keyOf m ix r = some k → ¬ extra ix (k, r)) :
    Indexed m h' index' Cur' extra where
  nodup ix hix := (hmoves ix hix).nodup
  mem ix hix e := by
    rw [(hmoves ix hix).mem, hinto ix hix, hi.mem ix hix, bind_entryOf_eq_some, hcur, ne_eq,
      bind_entryOf_eq_some]
    constructor
    · rintro (⟨⟨hc, hk⟩ | hx, hout⟩ | ⟨hnew, hk⟩)
      · exact .inl ⟨.inl ⟨hc, fun hold => hout ⟨hold, hk⟩⟩, (hkey ix e.2 hc).trans hk⟩
      · exact .inr hx
      · exact .inl ⟨.inr hnew, hk⟩
    · rintro (⟨⟨hc, hold⟩ | hnew, hk⟩ | hx)
      · exact .inl ⟨.inl ⟨hc, (hkey ix e.2 hc).symm.trans hk⟩, fun hout => hold hout.1⟩
      · exact .inr ⟨hnew, hk⟩
      · exact .inl ⟨.inr hx, fun hout => hextra ix hix e.2 e.1 hout.1 hout.2 hx⟩
  sound ix hix := (hmoves ix hix).sound

/-! ### What a transaction finds and keeps -/

/-- What a transaction finds when it begins: the primary-key index holds the entries of the current
versions and no others, and the other indexes hold them too. -/
structure Ready (m : TableMeta) (tx : ℕ) (t : Table) : Prop where
  /-- Transaction ids begin at 1. -/
  tx_ne : tx ≠ 0
  wf : t.heap.WF
  linked : Unbroken t.heap
  /-- The transaction has written nothing. -/
  fresh : ∀ r v, t.heap.header? r = some v → v.createTxId ≠ tx
  /-- It has recorded nothing. -/
  recorded : t.recorded = []
  nodup : ∀ ix ∈ m.indexes, (t.index ix).entries.Nodup
  sound : ∀ ix ∈ m.indexes, (t.index ix).Sound ix.isUnique
  /-- The entries of the current versions are there. -/
  current : ∀ ix ∈ m.indexes, ∀ r k, Current t.heap r → t.heap.keyOf m ix r = some k →
    (k, r) ∈ (t.index ix).entries
  /-- The primary-key index has no others. -/
  pk : ∀ k r, (k, r) ∈ (t.index .pk).entries → Current t.heap r ∧ t.heap.keyOf m .pk r = some k
  /-- An entry is that of a slot. -/
  present : ∀ ix ∈ m.indexes, ∀ k r, (k, r) ∈ (t.index ix).entries → t.heap.slot? r ≠ none
  /-- So is what the reverse map holds. -/
  mapped : ∀ ix ∈ m.indexes, ∀ r b, (t.index ix).rowToKey r = some b → t.heap.slot? r ≠ none

/-- The entries that are not those of current versions. -/
def extraEntries (m : TableMeta) (t : Table) (ix : IndexId) (e : Key × RowId) : Prop :=
  e ∈ (t.index ix).entries ∧ ¬ (Current t.heap e.2 ∧ t.heap.keyOf m ix e.2 = some e.1)

/-- The version was created by the transaction. -/
def Own (h : Heap α) (tx : ℕ) (rid : RowId) : Prop := ∃ v, h.header? rid = some v ∧ v.createTxId = tx

theorem Own.createTxId_eq {h : Heap α} {tx : ℕ} (hown : Own h tx r) (hv : h.header? r = some v) :
    v.createTxId = tx := by
  obtain ⟨w, hw, hwtx⟩ := hown
  rwa [mem_unique hv hw]

/-- What holds while a transaction runs that began on `t₀`. -/
structure TxInv (m : TableMeta) (tx : ℕ) (t₀ t : Table) : Prop where
  wf : t.heap.WF
  /-- The ids of the slots stay their positions. -/
  dense : t₀.heap.Dense → t.heap.Dense
  linked : Unbroken t.heap
  /-- The slots that were there are unchanged. -/
  old : ∀ r s, t₀.heap.slot? r = some s → t.heap.slot? r = some s
  /-- The others are the transaction's. -/
  own : ∀ r, t.heap.slot? r ≠ none → t₀.heap.slot? r = none → Own t.heap tx r
  /-- The transaction has recorded its versions. -/
  recorded : ∀ r, r ∈ t.recorded ↔ Own t.heap tx r
  /-- The indexes hold the entries of the current versions. -/
  indexed : Indexed m t.heap t.index (Current t.heap) (extraEntries m t₀)
  mapped : ∀ ix ∈ m.indexes, ∀ r b, (t.index ix).rowToKey r = some b → t.heap.slot? r ≠ none
  /-- The reverse map has a version of the transaction under its key, and no tombstone. -/
  key : ∀ ix ∈ m.indexes, ∀ r b, Own t.heap tx r → (t.index ix).rowToKey r = some b →
    t.heap.keyOf m ix r = some (Key.new b) ∧ ∀ v, t.heap.header? r = some v → v.isDeleted = false
  /-- It has every current version of the transaction. -/
  known : ∀ ix ∈ m.indexes, ∀ r k, Own t.heap tx r → Current t.heap r → t.heap.keyOf m ix r = some k →
    (t.index ix).rowToKey r ≠ none
  /-- It has no primary key for a version that the transaction has deleted. -/
  deleted : ∀ x v r, t.heap.header? x = some v → v.createTxId = tx → v.isDeleted = true →
    v.nextVersion = some r → (t.index .pk).rowToKey r = none

/-! ### One step of a transaction -/

section Step

variable {tx : ℕ} {t₀ t t₁ : Table} {key b : Bytes} {page : Option ℕ} {s₀ s : Slot Row} {cols : List ℕ}
  {new old rid tombstone : RowId} {k : Key} {row values : Row} {d : DateParser}

theorem keyOf_of_slot (hs : h'.slot? r = h.slot? r) : h'.keyOf m ix r = h.keyOf m ix r := by
  rw [Heap.keyOf, Heap.rawKey, hs, Heap.keyOf, Heap.rawKey]

theorem slot?_ne_none_of_header {h : Heap α} (hv : h.header? r = some v) : h.slot? r ≠ none := by
  intro hs
  rw [Heap.header?, hs] at hv
  cases hv

theorem Current.slot? {h : Heap α} (hc : Current h r) : h.slot? r ≠ none := by
  obtain ⟨⟨v, hv, -⟩, -⟩ := hc
  exact slot?_ne_none_of_header hv

theorem TxInv.slot_eq (hi : TxInv m tx t₀ t) (hr : t₀.heap.slot? r ≠ none) :
    t.heap.slot? r = t₀.heap.slot? r := by
  obtain ⟨s, hs⟩ := ne_none_iff_exists'.mp hr
  rw [hs, hi.old r s hs]

theorem TxInv.header_eq (hi : TxInv m tx t₀ t) (hr : t₀.heap.slot? r ≠ none) :
    t.heap.header? r = t₀.heap.header? r := by
  rw [Heap.header?, hi.slot_eq hr, Heap.header?]

theorem TxInv.header_of_old (hi : TxInv m tx t₀ t) (hv : t₀.heap.header? r = some v) :
    t.heap.header? r = some v := by
  rw [hi.header_eq (slot?_ne_none_of_header hv), hv]

/-- A version that was there and is current was current. -/
theorem TxInv.current_of_old (hi : TxInv m tx t₀ t) (hc : Current t.heap r)
    (hr : t₀.heap.slot? r ≠ none) : Current t₀.heap r := by
  obtain ⟨⟨v, hv, hdel⟩, hrep⟩ := hc
  refine ⟨⟨v, (hi.header_eq hr).symm.trans hv, hdel⟩, ?_⟩
  rintro ⟨x, w, hw, hlive, hnext⟩
  exact hrep ⟨x, w, hi.header_of_old hw, hlive, hnext⟩

/-- The entry of a current version is not one of the further entries. -/
theorem TxInv.not_extra (hr : Ready m tx t₀) (hi : TxInv m tx t₀ t) (hix : ix ∈ m.indexes)
    (hc : Current t.heap r) (hk : t.heap.keyOf m ix r = some k) :
    ¬ extraEntries m t₀ ix (k, r) := by
  rintro ⟨hmem, hno⟩
  have hold := hr.present ix hix k r hmem
  exact hno ⟨hi.current_of_old hc hold, (keyOf_of_slot (hi.slot_eq hold)).symm.trans hk⟩

/-- A version is written, at `new`, that replaces a current version or none, and in every index the
entry of the one moves to the other; `into` is what comes, as bytes. -/
structure Writes (m : TableMeta) (tx : ℕ) (t t' : Table) (new : RowId) (s : Slot Row)
    (into : IndexId → Option (Bytes × RowId)) : Prop where
  extend : Extends t.heap t'.heap new s
  wf : t'.heap.WF
  dense : t.heap.Dense → t'.heap.Dense
  tx : s.header.createTxId = tx
  current : ∀ r, s.header.nextVersion = some r → Current t.heap r
  moves : ∀ ix ∈ m.indexes,
    (t.index ix).Moves ix.isUnique (t'.index ix) (s.header.nextVersion.bind (entryOf t.heap m ix))
      (into ix)
  into : ∀ ix ∈ m.indexes, (into ix).map (Prod.map Key.new id) =
    (if s.header.isDeleted then none else some new).bind (entryOf t'.heap m ix)
  /-- A deleted version leaves the reverse map of the primary key. -/
  deleted : s.header.isDeleted = true → ∀ r, s.header.nextVersion = some r →
    (t'.index .pk).rowToKey r = none
  recorded : t'.recorded = new :: t.recorded

namespace Writes

variable {t' : Table} {into : IndexId → Option (Bytes × RowId)}

variable (hw : Writes m tx t t' new s into)

include hw

theorem slot_of_ne (hr : r ≠ new) : t'.heap.slot? r = t.heap.slot? r := by
  rw [hw.extend.slot, if_neg hr]

theorem ne_of_slot (hr : t.heap.slot? r ≠ none) : r ≠ new :=
  fun hc => hr (hc ▸ hw.extend.fresh)

theorem own_iff (r : RowId) : Own t'.heap tx r ↔ r = new ∨ Own t.heap tx r := by
  constructor
  · rintro ⟨v, hv, hv'⟩
    exact (hw.extend.header_cases hv).imp And.left fun hv => ⟨v, hv, hv'⟩
  · rintro (rfl | ⟨v, hv, hv'⟩)
    · exact ⟨_, hw.extend.header_new, hw.tx⟩
    · exact ⟨v, hw.extend.header_of_some hv, hv'⟩

variable (hix : ix ∈ m.indexes)

include hix

/-- The entry that comes is that of the new version. -/
theorem into_spec (hb : into ix = some (b, r)) :
    s.header.isDeleted = false ∧ r = new ∧ t'.heap.keyOf m ix new = some (Key.new b) := by
  have heq := hw.into ix hix
  rw [hb, map_some, eq_comm, bind_entryOf_eq_some] at heq
  obtain ⟨hnew, hk⟩ := heq
  split at hnew
  case isTrue => cases hnew
  case isFalse hd =>
    cases hnew
    exact ⟨by simpa using hd, rfl, hk⟩

/-- The new version is in the reverse map, if it has a key. -/
theorem exists_into (hd : s.header.isDeleted = false) (hk : t'.heap.keyOf m ix new = some k) :
    (t'.index ix).rowToKey new ≠ none := by
  have hentry : (into ix).map (Prod.map Key.new id) = some (k, new) := by
    rw [hw.into ix hix, if_neg (by simp [hd])]
    exact bind_entryOf_eq_some.mpr ⟨rfl, hk⟩
  obtain ⟨⟨b, r⟩, hb, hbr⟩ := map_eq_some_iff.mp hentry
  obtain rfl : r = new := (Prod.mk.inj hbr).2
  rw [(hw.moves ix hix).new b r hb]
  nofun

/-- The reverse map, for other versions. -/
theorem rowToKey_of_ne (hr : r ≠ new) : (t'.index ix).rowToKey r = (t.index ix).rowToKey r ∨
      (t'.index ix).rowToKey r = none ∧ s.header.nextVersion = some r := by
  refine ((hw.moves ix hix).other r fun b hb => hr (hw.into_spec hix hb).2.1).imp id ?_
  rintro ⟨hnone, k, hk⟩
  exact ⟨hnone, (bind_entryOf_eq_some.mp hk).1⟩

theorem rowToKey_of_some (hr : r ≠ new) (hb : (t'.index ix).rowToKey r = some b) :
    (t.index ix).rowToKey r = some b := by
  rcases hw.rowToKey_of_ne hix hr with hsame | ⟨hnone, -⟩
  · exact hsame.symm.trans hb
  · cases hnone.symm.trans hb

omit hix

/-- What the reverse map holds for the new version has come with it. -/
theorem into_of_rowToKey (hi : TxInv m tx t₀ t) (hix : ix ∈ m.indexes)
    (hb : (t'.index ix).rowToKey new = some b) : into ix = some (b, new) := by
  cases hi' : into ix with
  | none =>
    have hold : (t.index ix).rowToKey new = some b := by
      rcases (hw.moves ix hix).other new (by simp [hi']) with hsame | ⟨hgone, -⟩
      · exact hsame.symm.trans hb
      · cases hgone.symm.trans hb
    exact absurd hw.extend.fresh (hi.mapped ix hix new b hold)
  | some e =>
    obtain ⟨b', r⟩ := e
    obtain ⟨-, rfl, -⟩ := hw.into_spec hix hi'
    rw [(hw.moves ix hix).new b' r hi', Option.some.injEq] at hb
    rw [hb]

variable (hr : Ready m tx t₀) (hi : TxInv m tx t₀ t)

include hr hi

theorem current_iff (r : RowId) : Current t'.heap r ↔
      (Current t.heap r ∧ s.header.nextVersion ≠ some r) ∨ (s.header.isDeleted = false ∧ new = r) :=
  hw.extend.current hi.linked (hw.tx ▸ hr.tx_ne) hw.current r

/-- The indexes are in step with the new version. -/
theorem indexed : Indexed m t'.heap t'.index (Current t'.heap) (extraEntries m t₀) := by
  refine hi.indexed.move hw.moves hw.into (fun r => ?_) ?_ ?_
  · rw [hw.current_iff hr hi]
    cases s.header.isDeleted <;> simp
  · intro ix r hc
    exact keyOf_of_slot (hw.slot_of_ne (hw.ne_of_slot hc.slot?))
  · intro ix hix r k hold hk
    exact hi.not_extra hr hix (hw.current r hold) hk

/-- **One step** of a transaction keeps what holds while it runs. -/
theorem txInv : TxInv m tx t₀ t' where
  wf := hw.wf
  dense h := hw.dense (hi.dense h)
  linked := hw.extend.linked hi.linked (hw.tx ▸ hr.tx_ne) hw.current
  old r s' hs' := by
    have hold := hi.old r s' hs'
    rw [hw.slot_of_ne (hw.ne_of_slot (by simp [hold])), hold]
  own r hsome hnone := by
    rw [hw.own_iff]
    by_cases hrn : r = new
    · exact .inl hrn
    · rw [hw.slot_of_ne hrn] at hsome
      exact .inr (hi.own r hsome hnone)
  recorded r := by rw [hw.recorded, List.mem_cons, hw.own_iff, hi.recorded]
  indexed := hw.indexed hr hi
  mapped ix hix r b hb := by
    by_cases hrn : r = new
    · rw [hrn, hw.extend.slot, if_pos rfl]
      nofun
    · rw [hw.slot_of_ne hrn]
      exact hi.mapped ix hix r b (hw.rowToKey_of_some hix hrn hb)
  key ix hix r b hown hb := by
    obtain rfl | hrn := eq_or_ne r new
    · obtain ⟨hd, -, hk⟩ := hw.into_spec hix (hw.into_of_rowToKey hi hix hb)
      refine ⟨hk, fun v hv => ?_⟩
      rw [hw.extend.header_new, Option.some.injEq] at hv
      exact hv ▸ hd
    · obtain ⟨hk, hd⟩ := hi.key ix hix r b (((hw.own_iff r).mp hown).resolve_left hrn)
        (hw.rowToKey_of_some hix hrn hb)
      exact ⟨(keyOf_of_slot (hw.slot_of_ne hrn)).trans hk,
        fun v hv => hd v ((hw.extend.header_of_ne hrn).symm.trans hv)⟩
  known ix hix r k hown hc hk := by
    rcases (hw.current_iff hr hi r).mp hc with ⟨hc, hnext⟩ | ⟨hd, rfl⟩
    · have hrn := hw.ne_of_slot hc.slot?
      rw [keyOf_of_slot (hw.slot_of_ne hrn)] at hk
      rcases hw.rowToKey_of_ne hix hrn with hsame | ⟨-, hc'⟩
      · rw [hsame]
        exact hi.known ix hix r k (((hw.own_iff r).mp hown).resolve_left hrn) hc hk
      · exact absurd hc' hnext
    · exact hw.exists_into hix hd hk
  deleted x v r hv hvtx hvdel hnext := by
    rcases hw.extend.header_cases hv with ⟨-, rfl⟩ | hv
    · exact hw.deleted hvdel r hnext
    · have hnone := hi.deleted x v r hv hvtx hvdel hnext
      obtain ⟨w, hw', -⟩ := hi.linked.down x v r hv (hvtx ▸ hr.tx_ne) hnext
      rcases hw.rowToKey_of_ne m.pk_mem_indexes (ne_of_header hw.extend hw') with hsame | ⟨hgone, -⟩
      · rw [hsame, hnone]
      · exact hgone

end Writes

/-! ### The statements -/

/-- An entry is that of a slot. -/
theorem TxInv.slot_of_entry (hr : Ready m tx t₀) (hi : TxInv m tx t₀ t) (hix : ix ∈ m.indexes)
    (h : (k, r) ∈ (t.index ix).entries) : t.heap.slot? r ≠ none := by
  rcases (hi.indexed.mem ix hix (k, r)).mp h with ⟨hc, -⟩ | ⟨hmem, -⟩
  · exact hc.slot?
  · have hold := hr.present ix hix k r hmem
    rwa [hi.slot_eq hold]

theorem TxInv.pk_sound (hi : TxInv m tx t₀ t) : (t.index .pk).Sound true :=
    hi.indexed.sound .pk m.pk_mem_indexes

/-- What the primary key finds is a current version with that key. -/
theorem TxInv.current_of_search (hr : Ready m tx t₀) (hi : TxInv m tx t₀ t)
    (h : (t.index .pk).search key = some r) :
    Current t.heap r ∧ t.heap.keyOf m .pk r = some (Key.new key) := by
  rcases (hi.indexed.mem .pk m.pk_mem_indexes _).mp ((search_iff hi.pk_sound).mp h) with hc | ⟨hmem, hno⟩
  · exact hc
  · exact absurd (hr.pk _ _ hmem) hno

/-- The entry of a current version is there. -/
theorem TxInv.entry_mem (hi : TxInv m tx t₀ t) (hix : ix ∈ m.indexes)
    (hc : Current t.heap r) (hk : t.heap.keyOf m ix r = some k) : (k, r) ∈ (t.index ix).entries :=
  (hi.indexed.mem ix hix (k, r)).mpr (.inl ⟨hc, hk⟩)

theorem exists_of_write {t' : Table} (h : write t page s = some (t', new)) (hwf : t.heap.WF) :
    Extends t.heap t'.heap new s ∧ t'.heap.WF ∧ (t.heap.Dense → t'.heap.Dense) ∧ t'.index = t.index ∧
      t'.recorded = new :: t.recorded := by
  unfold write at h
  split at h
  case h_1 => cases h
  case h_2 p =>
    split at h
    case isFalse => cases h
    case isTrue =>
      obtain ⟨rfl, rfl⟩ := Prod.mk.inj (Option.some.inj h)
      exact ⟨⟨t.heap.slot?_nextRid p, t.heap.slot?_append p s⟩, hwf.append p s, fun hd =>
        hd.append p s, rfl, rfl⟩

theorem rawKey_of_slot (hs : h.slot? r = some s) (ix : IndexId) :
    h.rawKey m ix r = m.rawKey (m.readRow s.tuple) ix := by
  rw [Heap.rawKey, hs]
  rfl

/-- A key that is not found in a unique index has no entry there. -/
theorem TxInv.free (hi : TxInv m tx t₀ t) (hix : ix ∈ m.indexes) (hu : ix.isUnique = true)
    (hnone : (t.index ix).search b = none) (r : RowId) : (Key.new b, r) ∉ (t.index ix).entries := by
  have hs := hi.indexed.sound ix hix
  rw [hu] at hs
  exact (search_eq_none hs).mp hnone r

/-- **INSERT** of a row that passes its checks and finds a page writes a version and its entries. -/
theorem insertRow_of_write (hr : Ready m tx t₀) (hi : TxInv m tx t₀ t)
    (hcheck : checkInsert d m t values = .ok row)
    (hwrite : write t page ⟨.new tx, row⟩ = some (t₁, new))
    (ha : (insertVersion d m tx page values t).Admitted m) :
    ∃ t' into, insertRow d m tx page values t = (t', .ok ()) ∧
    Writes m tx t t' new ⟨.new tx, row⟩ into := by
  obtain ⟨hlen, hfree⟩ := checkInsert_spec hcheck
  obtain ⟨hx, hwf, hdense, hindex, hrec⟩ := exists_of_write hwrite hi.wf
  have hversion : insertVersion d m tx page values t =
    .ok (some (t₁, fun ix _ => insertOps m new row ix)) := by
    simp only [insertVersion, hcheck, hwrite]
  rw [hversion] at ha
  obtain ⟨index, hmaintain, hmoves⟩ := t₁.exists_maintain
    (fun ix _ => insertOps m new row ix)
    (fun ix im => (t.index ix).Moves ix.isUnique im none ((m.rawKey row ix).map (·, new))) (by
      intro ix hix
      have ha := ha ix hix
      rw [hindex] at ha ⊢
      refine exists_insert? (hi.indexed.sound ix hix) (hi.indexed.nodup ix hix)
        (m.rawKey row ix) new ?_ ha
      rintro b hb r (hu | rfl) hmem
      · exact absurd hmem (hi.free hix hu (hfree ix hu b hb) r)
      · exact hi.slot_of_entry hr hix hmem hx.fresh)
  have hkey : ∀ ix, t₁.heap.rawKey m ix new = m.rawKey row ix := by
    intro ix
    rw [rawKey_of_slot (by rw [hx.slot, if_pos rfl]), TableMeta.readRow_of_length hlen]
  refine ⟨_, _, .trans (by rw [insertRow, hversion]; rfl) hmaintain, hx, hwf, hdense, rfl, nofun,
    hmoves, ?_, nofun, hrec⟩
  intro ix hix
  show _ = entryOf t₁.heap m ix new
  rw [entryOf, Heap.keyOf, hkey, map_map, map_map]
  rfl

/-- What an UPDATE enters in an index: the primary key stays as the statement gave it. -/
def updateInto (m : TableMeta) (key : Bytes) (new : RowId) (row : Row) : IndexId → Option (Bytes × RowId)
  | .pk => (m.rawKey row .pk).map fun b => (if Key.new b = Key.new key then key else b, new)
  | ix => (m.rawKey row ix).map (·, new)

theorem map_updateInto (key : Bytes) (new : RowId) (row : Row) (ix : IndexId) :
    (updateInto m key new row ix).map (Prod.map Key.new id) = ((m.rawKey row ix).map Key.new).map
      (·, new) := by
  cases ix with
  | pk =>
    rw [updateInto, map_map, map_map]
    refine map_congr fun b _ => ?_
    show (Key.new _, new) = (Key.new b, new)
    split
    case isTrue hk => rw [hk]
    case isFalse => rfl
  | _ =>
    rw [updateInto, map_map, map_map]
    · rfl
    · nofun

section UpdateOps

variable {im : IndexManager} {oldRow : Row} {n : ℕ}

/-- UPDATE and the primary-key index. -/
theorem exists_updateOps_pk (hs : im.Sound true) (hmem : (Key.new key, old) ∈ im.entries)
    (hold : (m.rawKey oldRow .pk).map Key.new = some (Key.new key))
    (hsame : m.pkIndex ∉ cols → m.rawKey row .pk = m.rawKey oldRow .pk)
    (hkey : m.pkIndex ∈ cols → ∀ b, m.rawKey row .pk = some b → b = key ∨ im.search b = none)
    (ha : im.Admits true (updateOps m key old new oldRow row cols .pk)) :
    ∃ im', im.applyAll (updateOps m key old new oldRow row cols .pk) = (im', .ok ()) ∧
      im.Moves true im' (some (Key.new key, old)) (updateInto m key new row .pk) := by
  have hpos : (m.position m.pkColumn).any (· ∈ cols) = decide (m.pkIndex ∈ cols) := by
    rw [TableMeta.position, m.pk_position]
    rfl
  have hupdate : ∃ im', im.applyAll [.update key new] = (im', .ok ()) ∧
      im.Moves true im' (some (Key.new key, old)) (some (key, new)) := by
    obtain ⟨im', him', hmoves⟩ := exists_update hs hmem new
    exact ⟨im', applyAll_cons him', hmoves⟩
  obtain ⟨im₁, him₁, hout, -⟩ := exists_delete hs hmem
  have hdelete : im.applyAll [.delete key] = (im₁, .ok ()) := applyAll_cons him₁
  rw [updateOps, hpos] at ha ⊢
  by_cases hin : m.pkIndex ∈ cols
  · rw [if_pos (by simpa using hin)] at ha ⊢
    rw [updateInto]
    cases hk : m.rawKey row .pk with
    | none => exact ⟨im₁, hdelete, hout⟩
    | some b =>
      simp only [hk, map_some] at ha ⊢
      rcases hkey hin b hk with rfl | hfree
      · rwa [if_pos rfl, if_pos rfl]
      · -- the key given is in the index, the new one is not
        have hfree := (search_eq_none hs).mp hfree
        have hne : Key.new b ≠ Key.new key := fun hc => hfree old (hc ▸ hmem)
        rw [if_neg fun hc => hne (by rw [hc])] at ha ⊢
        rw [if_neg hne]
        exact exists_insert?_of_moves (some b) hdelete hout
          (fun b' hb' r _ hr => absurd hr (Option.some.inj hb' ▸ hfree r)) ha
  · rw [if_neg (by simpa using hin), updateInto, hsame hin]
    obtain ⟨b, hb, hbk⟩ := map_eq_some_iff.mp hold
    rwa [hb, map_some, if_pos hbk]

/-- UPDATE and the index of a `UNIQUE` column. -/
theorem exists_updateOps_unique (hs : im.Sound true) (hnd : im.entries.Nodup)
    (hmem : ∀ b, m.rawKey oldRow (.unique n) = some b → (Key.new b, old) ∈ im.entries)
    (hfree : ∀ b, m.rawKey row (.unique n) = some b → ∀ r, (Key.new b, r) ∈ im.entries →
      (m.rawKey oldRow (.unique n)).map (fun b => (Key.new b, old)) = some (Key.new b, r))
    (ha : im.Admits true (updateOps m key old new oldRow row cols (.unique n))) :
    ∃ im', im.applyAll (updateOps m key old new oldRow row cols (.unique n)) = (im', .ok ()) ∧
      im.Moves true im' ((m.rawKey oldRow (.unique n)).map fun b => (Key.new b, old))
        (updateInto m key new row (.unique n)) := by
  rw [updateOps] at ha
  rw [updateOps, updateInto]
  · simp only [TableMeta.rawKey] at hmem hfree ⊢
    cases hcol : m.uniqueCols[n]? with
    | none => exact ⟨im, rfl, .refl hs hnd⟩
    | some col =>
      simp only [hcol, bind_some] at hmem hfree ha ⊢
      by_cases hval : oldRow.getD col .null = row.getD col .null
      · rw [if_pos hval, ← hval]
        cases hk : (oldRow.getD col .null).toKey with
        | none => exact ⟨im, rfl, .refl hs hnd⟩
        | some b =>
          obtain ⟨im', him', hmoves⟩ := exists_update hs (hmem b hk) new
          exact ⟨im', applyAll_cons him', hmoves⟩
      · rw [if_neg hval] at ha ⊢
        obtain ⟨im₁, him₁, hout⟩ := exists_delete? hs hnd hmem
        by_cases hnull : (row.getD col .null).isNull = true
        · rw [if_pos hnull]
          cases hv : row.getD col .null with
          | null => exact ⟨im₁, him₁, hout⟩
          | _ => rw [hv] at hnull; cases hnull
        · rw [if_neg hnull] at ha ⊢
          exact exists_insert?_of_moves _ him₁ hout (fun b hb r _ => hfree b hb r) ha
  · simp

/-- UPDATE and a secondary index. -/
theorem exists_updateOps_secondary (hs : im.Sound false) (hnd : im.entries.Nodup)
    (hmem : ∀ b, m.rawKey oldRow (.secondary n) = some b → (Key.new b, old) ∈ im.entries)
    (hnew : ∀ k, (k, new) ∉ im.entries)
    (ha : im.Admits false (updateOps m key old new oldRow row cols (.secondary n))) :
    ∃ im', im.applyAll (updateOps m key old new oldRow row cols (.secondary n)) = (im', .ok ()) ∧
      im.Moves false im' ((m.rawKey oldRow (.secondary n)).map fun b => (Key.new b, old))
        (updateInto m key new row (.secondary n)) := by
  rw [updateInto]
  · obtain ⟨im₁, him₁, hout⟩ := exists_deleteExact? hs hnd hmem
    refine exists_insert?_of_moves _ him₁ hout ?_ ha
    rintro b - r (⟨⟨⟩⟩ | rfl) hr
    exact absurd hr (hnew _)
  · nofun

end UpdateOps

theorem entryOf_of_slot (hs : h.slot? r = some s) (ix : IndexId) :
    entryOf h m ix r = (m.rawKey (m.readRow s.tuple) ix).map fun b => (Key.new b, r) := by
  rw [entryOf, Heap.keyOf, rawKey_of_slot hs, map_map]
  rfl

/-- The keys of a current version are in the indexes. -/
theorem TxInv.rawKey_mem (hi : TxInv m tx t₀ t) (hix : ix ∈ m.indexes)
    (hc : Current t.heap r) (hs : t.heap.slot? r = some s)
    (hb : m.rawKey (m.readRow s.tuple) ix = some b) : (Key.new b, r) ∈ (t.index ix).entries := by
  refine hi.entry_mem hix hc ?_
  rw [Heap.keyOf, rawKey_of_slot hs, hb]
  rfl

section

variable (hr : Ready m tx t₀) (hi : TxInv m tx t₀ t) (hsearch : (t.index .pk).search key = some old)
  (hs₀ : t.heap.slot? old = some s₀)

include hr hi hsearch hs₀

/-- The key an UPDATE gives to a row in a `UNIQUE` column is free, or was the row's. -/
theorem free_of_update {n : ℕ} {r' : RowId}
    (huniq : ∀ col, m.uniqueCols[n]? = some col →
      (m.readRow s₀.tuple).getD col .null = row.getD col .null ∨
        ∀ b, (row.getD col .null).toKey = some b → (t.index (.unique n)).search b = none)
    (hix : .unique n ∈ m.indexes) (hb : m.rawKey row (.unique n) = some b)
    (hmem : (Key.new b, r') ∈ (t.index (.unique n)).entries) :
    (m.rawKey (m.readRow s₀.tuple) (.unique n)).map (fun b => (Key.new b, old)) =
      some (Key.new b, r') := by
  obtain ⟨hcur, -⟩ := hi.current_of_search hr hsearch
  obtain ⟨col, hcol, hb⟩ := bind_eq_some_iff.mp hb
  rcases huniq col hcol with hval | hnone
  · have hold : m.rawKey (m.readRow s₀.tuple) (.unique n) = some b := by
      rw [TableMeta.rawKey, hcol, bind_some, hval, hb]
    rw [hold, map_some, hi.indexed.unique hix rfl _ (hi.rawKey_mem hix hcur hs₀ hold) _ hmem rfl]
  · exact absurd hmem (hi.free hix rfl (hnone b hb) r')

/-- UPDATE moves the entry of the row in every index. -/
theorem exists_updateOps (hnew : t.heap.slot? new = none)
    (hsame : m.pkIndex ∉ cols → row.getD m.pkIndex .null = (m.readRow s₀.tuple).getD m.pkIndex .null)
    (hkey : m.pkIndex ∈ cols → ∀ b, m.rawKey row .pk = some b → b = key ∨ (t.index .pk).search b = none)
    (huniq : ∀ n col, m.uniqueCols[n]? = some col →
      (m.readRow s₀.tuple).getD col .null = row.getD col .null ∨
        ∀ b, (row.getD col .null).toKey = some b → (t.index (.unique n)).search b = none)
    (hix : ix ∈ m.indexes)
    (ha : (t.index ix).Admits ix.isUnique (updateOps m key old new (m.readRow s₀.tuple) row cols ix)) :
    ∃ im, (t.index ix).applyAll
      (updateOps m key old new (m.readRow s₀.tuple) row cols ix) = (im, .ok ()) ∧
      (t.index ix).Moves ix.isUnique im (entryOf t.heap m ix old) (updateInto m key new row ix) := by
  obtain ⟨hcur, hpk⟩ := hi.current_of_search hr hsearch
  have hmem := fun b => hi.rawKey_mem hix hcur hs₀ (b := b)
  have hs := hi.indexed.sound ix hix
  have hnd := hi.indexed.nodup ix hix
  rw [entryOf_of_slot hs₀]
  cases ix with
  | pk =>
    rw [Heap.keyOf, rawKey_of_slot hs₀] at hpk
    rw [show (m.rawKey (m.readRow s₀.tuple) .pk).map (fun b => (Key.new b, old)) =
      ((m.rawKey (m.readRow s₀.tuple) .pk).map Key.new).map (·, old) from by rw [map_map]; rfl, hpk]
    refine exists_updateOps_pk hs ((search_iff hs).mp hsearch) hpk (fun hni => ?_) hkey ha
    rw [TableMeta.rawKey, TableMeta.rawKey, hsame hni]
  | unique n =>
    exact exists_updateOps_unique hs hnd hmem
      (fun b hb r => free_of_update hr hi hsearch hs₀ (huniq n) hix hb) ha
  | secondary n =>
    exact exists_updateOps_secondary hs hnd hmem (fun k hk => hi.slot_of_entry hr hix hk hnew) ha

/-- **UPDATE** of a row that is there, passes its checks and finds a page writes a version and moves
the entries. -/
theorem updateRow_of_write {assignments : List Assignment}
    (hcheck : checkUpdate d m t key (m.readRow s₀.tuple) assignments = .ok (row, cols))
    (hwrite : write t page ⟨(VersionHeader.new tx).withNextVersion old, row⟩ = some (t₁, new))
    (ha : (updateVersion d m tx page key assignments t).Admitted m) :
    ∃ t' into, updateRow d m tx page key assignments t = (t', .ok ()) ∧
      Writes m tx t t' new ⟨(VersionHeader.new tx).withNextVersion old, row⟩ into := by
  obtain ⟨hlen, hsame, hkey, huniq⟩ := checkUpdate_spec hcheck
  obtain ⟨hx, hwf, hdense, hindex, hrec⟩ := exists_of_write hwrite hi.wf
  have hversion : updateVersion d m tx page key assignments t =
      .ok (some (t₁, fun ix _ => updateOps m key old new (m.readRow s₀.tuple) row cols ix)) := by
    simp only [updateVersion, hsearch, hs₀, hcheck, hwrite]
  rw [hversion] at ha
  obtain ⟨index, hmaintain, hmoves⟩ := t₁.exists_maintain
    (fun ix _ => updateOps m key old new (m.readRow s₀.tuple) row cols ix)
    (fun ix im => (t.index ix).Moves ix.isUnique im (entryOf t.heap m ix old)
      (updateInto m key new row ix)) (by
      intro ix hix
      have ha := ha ix hix
      rw [hindex] at ha ⊢
      exact exists_updateOps hr hi hsearch hs₀ hx.fresh hsame hkey huniq hix ha)
  refine ⟨_, _, .trans (by rw [updateRow, hversion]; rfl) hmaintain, hx, hwf, hdense, rfl, ?_,
    hmoves, ?_, nofun, hrec⟩
  · rintro r ⟨⟩
    exact (hi.current_of_search hr hsearch).1
  · intro ix hix
    show _ = entryOf t₁.heap m ix new
    rw [entryOf, Heap.keyOf, rawKey_of_slot (by rw [hx.slot, if_pos rfl]),
      TableMeta.readRow_of_length hlen, map_updateInto]

end

theorem Extends.setHeader {h h' : Heap α} {s : Slot α} (hx : Extends h h' new s)
    (v : VersionHeader) : Extends h (h'.setHeader new v) new { s with header := v } where
  fresh := hx.fresh
  slot r := by
    have hs : h'.slot? new = some s := by rw [hx.slot, if_pos rfl]
    rw [Heap.setHeader, hs]
    simp only [Heap.slot?_set h' hs, hx.slot]
    split <;> rfl

variable (hr : Ready m tx t₀) (hi : TxInv m tx t₀ t) (hsearch : (t.index .pk).search key = some rid)

include hr hi hsearch

/-- DELETE takes the entry of the row out of every index, and the row out of the reverse map of the
primary key. -/
theorem exists_deleteOps (hs₀ : t.heap.slot? rid = some s₀) (hix : ix ∈ m.indexes) :
    ∃ im, (t.index ix).applyAll (deleteOps m key rid (m.readRow s₀.tuple) ix) = (im, .ok ()) ∧
      (t.index ix).Moves ix.isUnique im (entryOf t.heap m ix rid) none ∧
      (ix = .pk → im.rowToKey rid = none) := by
  obtain ⟨hcur, hpk⟩ := hi.current_of_search hr hsearch
  have hmem := fun b => hi.rawKey_mem hix hcur hs₀ (b := b)
  have hs := hi.indexed.sound ix hix
  have hnd := hi.indexed.nodup ix hix
  cases ix with
  | pk =>
    obtain ⟨im, him, hmoves, hgone⟩ := exists_delete hs ((search_iff hs).mp hsearch)
    rw [entryOf, hpk]
    exact ⟨im, applyAll_cons him, hmoves, fun _ => hgone⟩
  | unique n =>
    rw [entryOf_of_slot hs₀]
    obtain ⟨im, him, hmoves⟩ := exists_delete? hs hnd hmem
    exact ⟨im, him, hmoves, nofun⟩
  | secondary n =>
    rw [entryOf_of_slot hs₀]
    obtain ⟨im, him, hmoves⟩ := exists_deleteExact? hs hnd hmem
    exact ⟨im, him, hmoves, nofun⟩

/-- **DELETE** of a row that is there and finds a page writes a tombstone and takes the entries
out. -/
theorem deleteRow_of_write
    (hwrite : write t page ⟨(VersionHeader.new tx).markDeleted, []⟩ = some (t₁, tombstone)) :
    ∃ t' into, deleteRow m tx page key t = (t', .ok ()) ∧
      Writes m tx t t' tombstone
        ⟨((VersionHeader.new tx).withNextVersion rid).markDeleted, []⟩ into := by
  obtain ⟨hcur, -⟩ := hi.current_of_search hr hsearch
  obtain ⟨s₀, hs₀⟩ := ne_none_iff_exists'.mp hcur.slot?
  obtain ⟨hx, hwf, hdense, hindex, hrec⟩ := exists_of_write hwrite hi.wf
  obtain ⟨index, hmaintain, hmoves⟩ := Table.exists_maintain (m := m)
    { t₁ with
      heap := t₁.heap.setHeader tombstone ((VersionHeader.new tx).withNextVersion rid).markDeleted }
    (fun ix _ => deleteOps m key rid (m.readRow s₀.tuple) ix)
    (fun ix im => (t.index ix).Moves ix.isUnique im (entryOf t.heap m ix rid) none ∧
      (ix = .pk → im.rowToKey rid = none)) (by
      intro ix hix
      rw [hindex]
      exact exists_deleteOps hr hi hsearch hs₀ hix)
  refine ⟨_, fun _ => none,
    .trans (by simp only [deleteRow, deleteVersion, RowWrite.finish, hsearch, hs₀, hwrite])
    hmaintain, hx.setHeader _, hwf.setHeader _ _, fun hd => (hdense hd).setHeader _ _, rfl, ?_,
    fun ix hix => (hmoves ix hix).1, fun _ _ => rfl, ?_, hrec⟩
  · rintro r ⟨⟩
    exact hcur
  · rintro _ r ⟨⟩
    exact (hmoves .pk m.pk_mem_indexes).2 rfl

omit hr hi hsearch

/-- A row of a statement writes nothing, or a version that carries no commit mark. -/
theorem exec_writes {op : RowOp} (hr : Ready m tx t₀) (hi : TxInv m tx t₀ t)
    (ha : op.Admitted d m tx t) : (exec d m tx op t).1 = t ∨
      ∃ t' new s into, exec d m tx op t = (t', .ok ()) ∧ Writes m tx t t' new s into ∧
        ∀ c, s.header.mark ≠ .committed c := by
  cases op with
  | insert page values =>
    cases hcheck : checkInsert d m t values with
    | error e => exact .inl (by simp only [exec, insertRow, insertVersion, RowWrite.finish, hcheck])
    | ok row =>
      cases hwrite : write t page ⟨.new tx, row⟩ with
      | none => exact .inl (by simp only [exec, insertRow, insertVersion, RowWrite.finish, hcheck, hwrite])
      | some w =>
        obtain ⟨t', into, heq, hw⟩ := insertRow_of_write hr hi hcheck hwrite ha
        exact .inr ⟨t', _, _, into, heq, hw, nofun⟩
  | update page key assignments =>
    cases hsearch : (t.index .pk).search key with
    | none => exact .inl (by simp only [exec, updateRow, updateVersion, RowWrite.finish, hsearch])
    | some old =>
      obtain ⟨s₀, hs₀⟩ := ne_none_iff_exists'.mp (hi.current_of_search hr hsearch).1.slot?
      cases hcheck : checkUpdate d m t key (m.readRow s₀.tuple) assignments with
      | error e =>
        left
        simp only [exec, updateRow, updateVersion, RowWrite.finish, hsearch, hs₀, hcheck]
      | ok checked =>
        cases hwrite : write t page ⟨(VersionHeader.new tx).withNextVersion old, checked.1⟩ with
        | none =>
          left
          simp only [exec, updateRow, updateVersion, RowWrite.finish, hsearch, hs₀, hcheck, hwrite]
        | some w =>
          obtain ⟨t', into, heq, hw⟩ := updateRow_of_write hr hi hsearch hs₀ hcheck hwrite ha
          exact .inr ⟨t', _, _, into, heq, hw, nofun⟩
  | delete page key =>
    cases hsearch : (t.index .pk).search key with
    | none => exact .inl (by simp only [exec, deleteRow, deleteVersion, RowWrite.finish, hsearch])
    | some rid =>
      obtain ⟨s₀, hs₀⟩ := ne_none_iff_exists'.mp (hi.current_of_search hr hsearch).1.slot?
      cases hwrite : write t page ⟨(VersionHeader.new tx).markDeleted, []⟩ with
      | none => exact .inl (by simp only [exec, deleteRow, deleteVersion, RowWrite.finish, hsearch, hs₀, hwrite])
      | some w =>
        obtain ⟨t', into, heq, hw⟩ := deleteRow_of_write hr hi hsearch hwrite
        exact .inr ⟨t', _, _, into, heq, hw, nofun⟩

/-- **Every row** of a statement keeps what holds while the transaction runs. -/
theorem txInv_exec {op : RowOp} (hr : Ready m tx t₀) (hi : TxInv m tx t₀ t) (ha : op.Admitted d m tx t) :
    TxInv m tx t₀ (exec d m tx op t).1 := by
  rcases exec_writes hr hi ha with hsame | ⟨t', new, s, into, heq, hw, -⟩
  · rwa [hsame]
  · rw [heq]
    exact hw.txInv hr hi

theorem Ready.not_own (hr : Ready m tx t) : ¬ Own t.heap tx r :=
    fun ⟨v, hv, hvtx⟩ => hr.fresh r v hv hvtx

/-- What holds when a transaction begins. -/
theorem Ready.txInv (hr : Ready m tx t) : TxInv m tx t t where
  wf := hr.wf
  dense h := h
  linked := hr.linked
  old _ _ hs := hs
  own r hsome hnone := absurd hnone hsome
  recorded r := by
    rw [hr.recorded]
    exact ⟨nofun, fun hown => absurd hown hr.not_own⟩
  indexed :=
    { nodup := hr.nodup
      mem := by
        intro ix hix e
        constructor
        · intro he
          by_cases hc : Current t.heap e.2 ∧ t.heap.keyOf m ix e.2 = some e.1
          · exact .inl hc
          · exact .inr ⟨he, hc⟩
        · rintro (⟨hc, hk⟩ | ⟨he, -⟩)
          · exact hr.current ix hix e.2 e.1 hc hk
          · exact he
      sound := hr.sound }
  mapped := hr.mapped
  key ix hix r b hown := absurd hown hr.not_own
  known ix hix r k hown := absurd hown hr.not_own
  deleted x v r hv hvtx := absurd hvtx (hr.fresh x v hv)

end Step

end RTsql.Executor

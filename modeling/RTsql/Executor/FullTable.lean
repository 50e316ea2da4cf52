import RTsql.Executor.AccessPaths

/-!
# UPDATE and DELETE without a WHERE clause

`DeleteExecutor::next` and `UpdateExecutor::next`, when they are given no key: the statement takes
the keys of the primary-key index as they are when it begins, and deletes or updates the row
of each, as the statement for a single row does. The number of rows is what the statement
returns.

So the statement reaches the rows that have an entry in the primary-key index. These are all
rows if no row has a `NULL` primary key and the column is `INT`.

## What is proved

`Covers m t keys`: the keys are those of the current rows of the table, each once. While a statement
runs, the keys still to come cover the table (DELETE), or all keys do (UPDATE).

* `full_table_statements` — in every committed state in which every row has a key, both reach every
row.
* `full_table_misses_rows` — a row with a `NULL` primary key is reached by neither.
-/

namespace RTsql.Transaction.History

open List RTsql.Executor RTsql.Library RTsql.Storage
open Option (bind_some map_some ne_none_iff_exists')

/-! ### The statements -/

section Statements

variable (d : DateParser) (m : TableMeta) (place : Table → Option ℕ)

/-- `DeleteExecutor::next`, over the keys. `place` is the page on which the next version lands. -/
def deleteKeys (tx : ℕ) : List Bytes → ℕ → Table → Table × Except StorageError ℕ
  | [], affected, t => (t, .ok affected)
  | key :: rest, affected, t =>
    match deleteRow m tx (place t) key t with
    | (t', .error e) => (t', .error e)
    | (t', .ok ()) =>
      deleteKeys tx rest (affected + if ((t.index .pk).search key).isSome then 1 else 0) t'

/-- `DELETE FROM t`. -/
def deleteAll (tx : ℕ) (t : Table) : Table × Except StorageError ℕ :=
  deleteKeys m place tx ((t.index .pk).scanAll.map Prod.fst) 0 t

/-- `UpdateExecutor::next`, over the keys. -/
def updateKeys (assignments : List Assignment) (tx : ℕ) : List Bytes → ℕ → Table →
    Table × Except StorageError ℕ
  | [], affected, t => (t, .ok affected)
  | key :: rest, affected, t =>
    match updateRow d m tx (place t) key assignments t with
    | (t', .error e) => (t', .error e)
    | (t', .ok ()) => updateKeys assignments tx rest (affected + 1) t'

/-- `UPDATE t SET ...`. -/
def updateAll (assignments : List Assignment) (tx : ℕ) (t : Table) : Table × Except StorageError ℕ :=
  updateKeys d m place assignments tx ((t.index .pk).scanAll.map Prod.fst) 0 t

/-- The indexes admit what UPDATE enters for the row under each key, as it comes. -/
def KeysAdmitted (assignments : List Assignment) (tx : ℕ) : List Bytes → Table → Prop
  | [], _ => True
  | key :: rest, t => (updateVersion d m tx (place t) key assignments t).Admitted m ∧
      KeysAdmitted assignments tx rest (updateRow d m tx (place t) key assignments t).1

instance decidableKeysAdmitted (assignments : List Assignment) (tx : ℕ) :
    (keys : List Bytes) → (t : Table) → Decidable (KeysAdmitted d m place assignments tx keys t)
  | [], _ => instDecidableTrue
  | _ :: rest, _ => @instDecidableAnd _ _ _ (decidableKeysAdmitted assignments tx rest _)

/-- **The condition on `UPDATE t SET ...`**: the indexes admit the entries of the new versions. -/
def UpdateAdmitted (assignments : List Assignment) (tx : ℕ) (t : Table) : Prop :=
  KeysAdmitted d m place assignments tx ((t.index .pk).scanAll.map Prod.fst) t

instance (assignments : List Assignment) (tx : ℕ) (t : Table) :
    Decidable (UpdateAdmitted d m place assignments tx t) :=
  inferInstanceAs (Decidable (KeysAdmitted d m place assignments tx _ t))

/-- The table once the transaction has been committed. -/
def committed (tx : ℕ) (t : Table) : Table :=
  { t with heap := commitMarkVersions tx t.recorded t.heap, recorded := [] }

/-- A statement in a transaction of its own, which is committed if the statement succeeds. -/
def autoCommit (statement : ℕ → Table → Table × Except StorageError ℕ) (s : State) :
    State × Except StorageError ℕ :=
  match statement (s.lastTx + 1) s.table with
  | (t, .ok n) => (⟨committed (s.lastTx + 1) t, s.lastTx + 1, none⟩, .ok n)
  | (t, .error e) => (⟨t, s.lastTx + 1, some (s.lastTx + 1)⟩, .error e)

/-- The value that `SET c = e` gives to the column `i` of a row, or the error it ends with. -/
def newValue (i : ℕ) (e : Row → Except StorageError Value) (row : Row) : Except StorageError Value := do
  let v ← e row
  assignNullGate m (i, v)
  match m.schema[i]? with
  | none => .error .widthMismatch
  | some ct =>
    let v ← coerceDatetimeWrite d v ct
    typeGate m i (v.widen ct) v.typeName
    pure (v.widen ct)

end Statements

/-! ### What one assignment checks -/

section Assigning

variable {d : DateParser} {m : TableMeta} {t : Table} {column : String} {i : ℕ}

variable (hpos : m.position column = some i)

include hpos

theorem columnName_of_position : m.columnName i = column := by
  obtain ⟨hlt, hname, -⟩ := findIdx?_eq_some_iff_getElem.mp hpos
  simpa [TableMeta.columnName, getElem?_eq_getElem hlt] using hname

theorem lt_of_position : i < m.columns.length :=
  (findIdx?_eq_some_iff_getElem.mp hpos).1

/-- An assignment to a column that is neither the primary key nor `UNIQUE` is checked by itself. -/
theorem checkUpdate_of_newValue {e : Row → Except StorageError Value} {old : Row} {v : Value}
    {key : Bytes} (hpk : i ≠ m.pkIndex) (huniq : i ∉ m.uniqueCols)
    (hlen : old.length = m.columns.length) (hv : newValue d m i e old = .ok v) :
    checkUpdate d m t key old [⟨column, e⟩] = .ok (old.set i v, [i]) := by
  obtain ⟨v₀, hv₀, ⟨⟩, hnull, hv⟩ := bind_bind_ok hv
  split at hv
  case h_1 => cases hv
  case h_2 ct hct =>
    obtain ⟨v₁, hcoerce, ⟨⟩, htype, ⟨⟩⟩ := bind_bind_ok hv
    have hresolve : resolve m old ⟨column, e⟩ = .ok (i, v₀) := by
      simp only [resolve, hpos, hv₀]
      rfl
    have hgate : assignGate d m t key (i, v₀) = .ok (i, v₁) := by
      have hname : m.columnName i ≠ m.pkColumn := by
        intro hc
        rw [columnName_of_position hpos] at hc
        rw [hc, TableMeta.position, m.pk_position] at hpos
        exact hpk (Option.some.inj hpos).symm
      simp only [assignGate, hnull, rekeyGate, if_neg hname, coerceAssigned, hct, hcoerce]
      rfl
    have hgates : (m.uniqueCols.zipIdx.forM fun (x : ℕ × ℕ) =>
        uniqueUpdateGate m t old (old.set i v₁) x.2 x.1) = .ok () := by
      refine forM_eq_ok.mpr fun x hx => ?_
      have hne : i ≠ x.1 := fun hc => huniq (hc ▸ (fst_mem_of_mem_zipIdx hx))
      rw [uniqueUpdateGate, if_pos (by simp [getD_eq_getElem?_getD, getElem?_set_ne hne])]
    have hset : assignedTypeGate m (old.set i v₁) i = .ok (old.set i (v₁.widen ct)) := by
      have hget : (old.set i v₁).getD i .null = v₁ := by
        simp [hlen, lt_of_position hpos]
      simp only [assignedTypeGate, hct, hget, htype]
      simp [Except.map, set_set]
    have hwidth : widthGate m (old.set i (v₁.widen ct)) = .ok () := by
      rw [widthGate, if_pos (by rw [length_set, hlen])]
    refine bind_eq_ok.mpr ⟨[(i, v₀)], by rw [mapM_cons, hresolve]; rfl, ?_⟩
    refine bind_eq_ok.mpr ⟨[(i, v₁)], by rw [mapM_cons, hgate]; rfl, ?_⟩
    refine bind_eq_ok.mpr ⟨(), hgates, ?_⟩
    refine bind_eq_ok.mpr ⟨old.set i (v₁.widen ct), ?_, bind_eq_ok.mpr ⟨(), hwidth, rfl⟩⟩
    show List.foldlM _ _ [i] = _
    rw [foldlM_cons, foldl_cons, foldl_nil, hset]
    rfl

end Assigning

/-! ### The keys of a table -/

/-- The row under a key. -/
def rowUnder (m : TableMeta) (t : Table) (key : Bytes) : Option Row :=
  ((t.index .pk).search key).bind (rowAt m t.heap)

/-- The keys are those of the current rows, each once. -/
structure Covers (m : TableMeta) (t : Table) (keys : List Bytes) : Prop where
  /-- No key is there twice. -/
  nodup : (keys.map Key.new).Nodup
  /-- A row is found under every key. -/
  found : ∀ b ∈ keys, ∃ r, (t.index .pk).search b = some r
  /-- Every row is under one. -/
  all : ∀ r, Current t.heap r → ∃ b ∈ keys, t.heap.keyOf m .pk r = some (Key.new b)

section Keys

variable {m : TableMeta} {t t₀ : Table} {keys : List Bytes} {tx : ℕ}

theorem Keyed.search_eq_some (hk : Keyed m t) {b : Bytes} {r : RowId} :
    (t.index .pk).search b = some r ↔ Current t.heap r ∧ t.heap.keyOf m .pk r = some (Key.new b) :=
  (IndexManager.search_iff hk.sound).trans (hk.mem _)

theorem keyed_of_all (hr : Ready m tx t₀) (hi : TxInv m tx t₀ t)
    (hall : ∀ r, Current t.heap r → ∃ b ∈ keys, t.heap.keyOf m .pk r = some (Key.new b)) :
    Keyed m t := by
  refine keyed_of_txInv hr hi fun r hcur => ?_
  obtain ⟨b, -, hb⟩ := hall r hcur
  rw [hb]
  nofun

/-- The keys that a statement takes from the index cover the table. -/
theorem covers_scanAll (hk : Keyed m t) : Covers m t ((t.index .pk).scanAll.map Prod.fst) := by
  -- the bytes of a key that was read back are padded to that key
  have hpad : ∀ e ∈ (t.index .pk).entries, Key.new e.1.asBytes = e.1 :=
    fun e he => Key.new_asBytes (length_of_keyOf ((hk.mem e).mp he).2)
  rw [IndexManager.scanAll, map_map]
  refine ⟨?_, fun b hb => ?_, fun r hc => ?_⟩
  · rw [map_map]
    refine hk.nodup.map_on fun e he e' he' heq => ?_
    exact hk.sound.uniqueKeys e he e' he' ((hpad e he).symm.trans (heq.trans (hpad e' he')))
  · obtain ⟨e, he, rfl⟩ := mem_map.mp hb
    refine ⟨e.2, (IndexManager.search_iff hk.sound).mpr ?_⟩
    show (Key.new e.1.asBytes, e.2) ∈ _
    rwa [hpad e he]
  · obtain ⟨k, hkr⟩ := ne_none_iff_exists'.mp (hk.key r hc)
    have he : (k, r) ∈ (t.index .pk).entries := (hk.mem (k, r)).mpr ⟨hc, hkr⟩
    exact ⟨k.asBytes, mem_map_of_mem he, by rw [hkr, hpad _ he]⟩

/-- The row ids found under the keys are those of the current versions. -/
theorem Covers.perm (hc : Covers m t keys) (hk : Keyed m t) {rids : List RowId} (hnd : rids.Nodup)
    (hmem : ∀ r, r ∈ rids ↔ Current t.heap r) :
    (keys.map (t.index .pk).search).Perm (rids.map some) := by
  have hinj : (keys.map (t.index .pk).search).Nodup := by
    refine hc.nodup.of_map.map_on fun b hb b' hb' heq => ?_
    obtain ⟨r, hr⟩ := hc.found b hb
    have hkey := (hk.search_eq_some.mp hr).2
    rw [(hk.search_eq_some.mp (heq.symm.trans hr)).2, Option.some.injEq] at hkey
    exact inj_on_of_nodup_map hc.nodup hb hb' hkey.symm
  refine (perm_ext_iff_of_nodup hinj (hnd.map (Option.some_injective _))).mpr fun o => ?_
  constructor
  · intro ho
    obtain ⟨b, hb, rfl⟩ := mem_map.mp ho
    obtain ⟨r, hr⟩ := hc.found b hb
    rw [hr]
    exact mem_map_of_mem ((hmem r).mpr (hk.search_eq_some.mp hr).1)
  · intro ho
    obtain ⟨r, hr, rfl⟩ := mem_map.mp ho
    obtain ⟨b, hb, hbr⟩ := hc.all r ((hmem r).mp hr)
    exact mem_map.mpr ⟨b, hb, hk.search_eq_some.mpr ⟨(hmem r).mp hr, hbr⟩⟩

/-- **The rows of a table are those under its keys.** -/
theorem Covers.dataScan (hc : Covers m t keys) (hk : Keyed m t) {running : Option ℕ} {vis : VisMap}
    {snapshot : Option Snapshot} {active : List ℕ} (hwf : t.heap.WF) (hd : t.heap.Dense)
    (hl : Unbroken t.heap) (hm : Marks running t.heap) (hsees : SeesAll t.heap snapshot active)
    (hvis : ∀ page, pageAllInvisible (vis page) snapshot = false) :
    ∃ rows, dataScan m t vis snapshot active = .ok rows ∧ rows.Perm (keys.filterMap (rowUnder m t)) ∧
      rows.length = keys.length := by
  obtain ⟨rids, hscan, hnd, hmem⟩ := scan_current hwf hl hm hd hsees hvis
  have hperm := hc.perm hk hnd hmem
  refine ⟨rids.filterMap (rowAt m t.heap), by rw [History.dataScan, hscan]; rfl, ?_, ?_⟩
  · have hrows := hperm.symm.filterMap fun o => o.bind (rowAt m t.heap)
    rwa [filterMap_map, filterMap_map] at hrows
  · have hlen : (rids.filterMap (rowAt m t.heap)).length = rids.length := by
      refine filterMap_length_eq_length.mpr fun r hr => ?_
      rw [rowAt, Option.isSome_map, Option.isSome_iff_ne_none]
      exact ((hmem r).mp hr).slot?
    have := hperm.length_eq
    rw [length_map, length_map] at this
    rw [hlen, this]

end Keys

/-! ### The loop of DELETE -/

/-- There is always a page for the next version. -/
def Places (place : Table → Option ℕ) : Prop := ∀ t : Table, ∃ p, place t = some p ∧ t.heap.Writable p

theorem exists_write {place : Table → Option ℕ} (hplace : Places place) (t : Table) (s : Slot Row) :
    ∃ t' new, Executor.write t (place t) s = some (t', new) := by
  obtain ⟨p, hp, hw⟩ := hplace t
  exact ⟨_, _, by rw [hp, Executor.write, if_pos hw]⟩

section Loops

variable {m : TableMeta} {place : Table → Option ℕ} {tx : ℕ} {t t₀ : Table} {keys rest : List Bytes}
  {key : Bytes}

variable (hplace : Places place) (hr : Ready m tx t₀) (hi : TxInv m tx t₀ t)
  (hm : Marks (some tx) t.heap)

include hplace hr hi hm

/-- One row: the keys still to come cover what is left. -/
theorem deleteRow_covers (hc : Covers m t (key :: keys)) :
    ∃ t', deleteRow m tx (place t) key t = (t', .ok ()) ∧ TxInv m tx t₀ t' ∧ Marks (some tx) t'.heap ∧
      Covers m t' keys := by
  have hk := keyed_of_all hr hi hc.all
  obtain ⟨hnew, hnd⟩ := nodup_cons.mp hc.nodup
  obtain ⟨rid, hrid⟩ := hc.found key mem_cons_self
  obtain ⟨t₁, tombstone, hwrite⟩ := exists_write hplace t ⟨(VersionHeader.new tx).markDeleted, []⟩
  obtain ⟨t', into, hdelete, hw⟩ := deleteRow_of_write hr hi hrid hwrite
  have hi' := hw.txInv hr hi
  -- the rows that are left were there, and are not the one deleted
  have hleft : ∀ r, Current t'.heap r ↔ Current t.heap r ∧ r ≠ rid := by
    intro r
    have h : _ ↔ (_ ∧ some rid ≠ some r) ∨ (true = false ∧ _) := hw.current_iff hr hi r
    simpa [eq_comm] using h
  have hkeyOf : ∀ r, Current t.heap r → t'.heap.keyOf m .pk r = t.heap.keyOf m .pk r :=
    fun r hcur => keyOf_of_slot (hw.slot_of_ne (hw.ne_of_slot hcur.slot?))
  have hall : ∀ r, Current t'.heap r → ∃ b ∈ keys, t'.heap.keyOf m .pk r = some (Key.new b) := by
    intro r hcur
    obtain ⟨hcur, hne⟩ := (hleft r).mp hcur
    obtain ⟨b, hb, hbr⟩ := hc.all r hcur
    rcases mem_cons.mp hb with rfl | hb
    · have hsame := hk.search_eq_some.mpr ⟨hcur, hbr⟩
      rw [hrid, Option.some.injEq] at hsame
      exact absurd hsame.symm hne
    · exact ⟨b, hb, (hkeyOf r hcur).trans hbr⟩
  have hk' := keyed_of_all hr hi' hall
  refine ⟨t', hdelete, hi', hm.write hw nofun hr.tx_ne, hnd, fun b hb => ?_, hall⟩
  obtain ⟨r, hbr⟩ := hc.found b (mem_cons_of_mem _ hb)
  obtain ⟨hcur, hkr⟩ := hk.search_eq_some.mp hbr
  refine ⟨r, hk'.search_eq_some.mpr ⟨(hleft r).mpr ⟨hcur, ?_⟩, (hkeyOf r hcur).trans hkr⟩⟩
  rintro rfl
  rw [(hk.search_eq_some.mp hrid).2, Option.some.injEq] at hkr
  exact hnew (hkr ▸ mem_map_of_mem hb)

/-- All rows: nothing is left. -/
theorem deleteKeys_covers (hc : Covers m t keys) (n : ℕ) :
    ∃ t', deleteKeys m place tx keys n t = (t', .ok (n + keys.length)) ∧ TxInv m tx t₀ t' ∧
      Marks (some tx) t'.heap ∧ Covers m t' [] := by
  induction keys generalizing t n with
  | nil => exact ⟨t, rfl, hi, hm, hc⟩
  | cons key keys ih =>
    obtain ⟨rid, hrid⟩ := hc.found key mem_cons_self
    obtain ⟨t₁, hdelete, hi₁, hm₁, hc₁⟩ := deleteRow_covers hplace hr hi hm hc
    obtain ⟨t', hrest, hi', hm', hc'⟩ := ih hi₁ hm₁ hc₁ (n + 1)
    refine ⟨t', ?_, hi', hm', hc'⟩
    rw [deleteKeys, hdelete]
    simp only [hrid, Option.isSome_some, if_true, hrest, length_cons]
    rw [Nat.add_assoc, Nat.add_comm 1]

omit hplace hr hi hm

/-! ### The loop of UPDATE -/

variable {d : DateParser} {column : String} {i : ℕ} {e : Row → Except StorageError Value}

/-- The row with the new value in the column `i`. -/
def updated (d : DateParser) (m : TableMeta) (i : ℕ) (e : Row → Except StorageError Value)
    (row : Row) : Option Row :=
  (newValue d m i e row).toOption.map fun v => row.set i v

/-- The row under the key has a new value. -/
def Assignable (d : DateParser) (m : TableMeta) (i : ℕ) (e : Row → Except StorageError Value) (t : Table)
    (key : Bytes) : Prop := ∃ row v, rowUnder m t key = some row ∧ newValue d m i e row = .ok v

variable (hc : Covers m t keys)

include hplace hr hi hm hc

/-- One row: the keys stay, and the row under one of them changes. -/
theorem updateRow_covers (hkey : key ∈ keys) (hpos : m.position column = some i)
    (hpk : i ≠ m.pkIndex) (huniq : i ∉ m.uniqueCols) (hnew : Assignable d m i e t key)
    (ha : (updateVersion d m tx (place t) key [⟨column, e⟩] t).Admitted m) :
    ∃ t', updateRow d m tx (place t) key [⟨column, e⟩] t = (t', .ok ()) ∧ TxInv m tx t₀ t' ∧
      Marks (some tx) t'.heap ∧ Covers m t' keys ∧
      ∀ b ∈ keys, rowUnder m t' b = if Key.new b = Key.new key then (rowUnder m t b).bind
        (updated d m i e)
        else rowUnder m t b := by
  have hk := keyed_of_all hr hi hc.all
  obtain ⟨row, v, hrow, hv⟩ := hnew
  obtain ⟨old, hold, hrow⟩ := Option.bind_eq_some_iff.mp hrow
  obtain ⟨s₀, hs₀, rfl⟩ := Option.map_eq_some_iff.mp hrow
  have hlen : (m.readRow s₀.tuple).length = m.columns.length := by simp [TableMeta.readRow]
  have hlen' : ((m.readRow s₀.tuple).set i v).length = m.columns.length := by rw [length_set, hlen]
  obtain ⟨t₁, new, hwrite⟩ := exists_write hplace t
    ⟨(VersionHeader.new tx).withNextVersion old, (m.readRow s₀.tuple).set i v⟩
  obtain ⟨t', into, hupdate, hw⟩ := updateRow_of_write hr hi hold hs₀
    (checkUpdate_of_newValue hpos hpk huniq hlen hv) hwrite ha
  have hi' := hw.txInv hr hi
  obtain ⟨hcurOld, hkeyOld⟩ := hk.search_eq_some.mp hold
  have hslot : t'.heap.slot? new =
    some ⟨(VersionHeader.new tx).withNextVersion old, (m.readRow s₀.tuple).set i v⟩ := by
    rw [hw.extend.slot, if_pos rfl]
  -- the new version has the key of the old one
  have hkeyNew : t'.heap.keyOf m .pk new = some (Key.new key) := by
    rw [Heap.keyOf, rawKey_of_slot hs₀] at hkeyOld
    rw [Heap.keyOf, rawKey_of_slot hslot, ← hkeyOld, TableMeta.readRow_of_length hlen', TableMeta.rawKey,
      TableMeta.rawKey]
    simp [getD_eq_getElem?_getD, getElem?_set_ne hpk]
  have hcur : ∀ r, Current t'.heap r ↔ (Current t.heap r ∧ r ≠ old) ∨ r = new := by
    intro r
    have h : _ ↔ (_ ∧ some old ≠ some r) ∨ (false = false ∧ _) := hw.current_iff hr hi r
    simpa [eq_comm] using h
  have hsame : ∀ r, Current t.heap r → t'.heap.slot? r = t.heap.slot? r :=
    fun r hcur => hw.slot_of_ne (hw.ne_of_slot hcur.slot?)
  have hall : ∀ r, Current t'.heap r → ∃ b ∈ keys, t'.heap.keyOf m .pk r = some (Key.new b) := by
    intro r hcurr
    rcases (hcur r).mp hcurr with ⟨hcurr, -⟩ | rfl
    · obtain ⟨b, hb, hbr⟩ := hc.all r hcurr
      exact ⟨b, hb, (keyOf_of_slot (hsame r hcurr)).trans hbr⟩
    · exact ⟨key, hkey, hkeyNew⟩
  have hk' := keyed_of_all hr hi' hall
  have hfind : ∀ b, Key.new b = Key.new key → (t'.index .pk).search b = some new := by
    intro b hb
    exact hk'.search_eq_some.mpr ⟨(hcur new).mpr (.inr rfl), by rw [hkeyNew, hb]⟩
  have hother : ∀ b r, Key.new b ≠ Key.new key → (t.index .pk).search b = some r →
      (t'.index .pk).search b = some r := by
    intro b r hb hbr
    obtain ⟨hcurr, hkr⟩ := hk.search_eq_some.mp hbr
    have hne : r ≠ old := by
      rintro rfl
      rw [hkeyOld, Option.some.injEq] at hkr
      exact hb hkr.symm
    exact hk'.search_eq_some.mpr
      ⟨(hcur r).mpr (.inl ⟨hcurr, hne⟩), (keyOf_of_slot (hsame r hcurr)).trans hkr⟩
  refine ⟨t', hupdate, hi', hm.write hw (fun _ h => by cases h) hr.tx_ne,
    ⟨hc.nodup, fun b hb => ?_, hall⟩, fun b hb => ?_⟩
  · by_cases hbk : Key.new b = Key.new key
    · exact ⟨new, hfind b hbk⟩
    · obtain ⟨r, hbr⟩ := hc.found b hb
      exact ⟨r, hother b r hbk hbr⟩
  · split
    case isTrue hbk =>
      have hsearch : (t.index .pk).search b = some old :=
        hk.search_eq_some.mpr ⟨hcurOld, by rw [hkeyOld, hbk]⟩
      rw [rowUnder, hfind b hbk, rowUnder, hsearch]
      simp only [bind_some, rowAt, hslot, hs₀, map_some, TableMeta.readRow_of_length hlen', updated, hv]
      rfl
    case isFalse hbk =>
      obtain ⟨r, hbr⟩ := hc.found b hb
      rw [rowUnder, hother b r hbk hbr, rowUnder, hbr, bind_some, bind_some, rowAt, rowAt,
        hsame r (hk.search_eq_some.mp hbr).1]

/-- All rows. -/
theorem updateKeys_covers (hpos : m.position column = some i) (hpk : i ≠ m.pkIndex)
    (huniq : i ∉ m.uniqueCols) (hrest : rest ⊆ keys) (hnd : (rest.map Key.new).Nodup)
    (hnew : ∀ b ∈ rest, Assignable d m i e t b)
    (ha : KeysAdmitted d m place [⟨column, e⟩] tx rest t) (n : ℕ) :
    ∃ t', updateKeys d m place [⟨column, e⟩] tx rest n t = (t', .ok (n + rest.length)) ∧
    TxInv m tx t₀ t' ∧
      Marks (some tx) t'.heap ∧ Covers m t' keys ∧
      ∀ b ∈ keys, rowUnder m t' b = if Key.new b ∈ rest.map Key.new then (rowUnder m t b).bind
        (updated d m i e)
        else rowUnder m t b := by
  induction rest generalizing t n with
  | nil => exact ⟨t, rfl, hi, hm, hc, fun b _ => by simp⟩
  | cons key rest ih =>
    obtain ⟨hkey, hrest⟩ := cons_subset.mp hrest
    obtain ⟨hout, hnd⟩ := nodup_cons.mp hnd
    obtain ⟨t₁, hupdate, hi₁, hm₁, hc₁, hrows₁⟩ :=
      updateRow_covers hplace hr hi hm hc hkey hpos hpk huniq
      (hnew key mem_cons_self) ha.1
    -- the rows still to come are as they were
    have hnew₁ : ∀ b ∈ rest, Assignable d m i e t₁ b := by
      intro b hb
      obtain ⟨row, v, hrow, hv⟩ := hnew b (mem_cons_of_mem _ hb)
      have hne : Key.new b ≠ Key.new key := fun hc => hout (hc ▸ mem_map_of_mem hb)
      exact ⟨row, v, by rw [hrows₁ b (hrest hb), if_neg hne, hrow], hv⟩
    have ha₁ := ha.2
    rw [hupdate] at ha₁
    obtain ⟨t', hloop, hi', hm', hc', hrows'⟩ := ih hi₁ hm₁ hc₁ hrest hnd hnew₁ ha₁ (n + 1)
    refine ⟨t', ?_, hi', hm', hc', fun b hb => ?_⟩
    · rw [updateKeys, hupdate]
      simp only [hloop, length_cons]
      rw [Nat.add_assoc, Nat.add_comm 1]
    · rw [hrows' b hb, hrows₁ b hb, map_cons]
      by_cases hbk : Key.new b = Key.new key
      · rw [if_neg (hbk ▸ hout), if_pos hbk, if_pos (by rw [hbk]; exact mem_cons_self)]
      · simp only [mem_cons, hbk, false_or, if_false]

end Loops

/-! ### After the commit -/

section Commit

variable {m : TableMeta} {keys : List Bytes}

theorem SameLinks.rowAt_eq {h h' : Heap Row} (hl : SameLinks h h') (m : TableMeta) (r : RowId) :
    rowAt m h' r = rowAt m h r := by
  have hslot := hl r
  cases hs : h.slot? r with
  | none => rw [rowAt, rowAt, hs, hl.slot?_eq_none.mpr hs]
  | some slot =>
    rw [hs, map_some, Option.map_eq_some_iff] at hslot
    obtain ⟨slot', hs', heq⟩ := hslot
    rw [rowAt, rowAt, hs, hs', map_some, map_some, (Prod.mk.inj heq).1]

/-- What is read once the transaction has been committed. -/
theorem dataScan_committed {s s' : State} {t : Table} (hs : Start m s)
    (hi : TxInv m (s.lastTx + 1) s.table t)
    (hm : Marks (some (s.lastTx + 1)) t.heap) (hc : Covers m t keys)
    (hs' : s' = ⟨committed (s.lastTx + 1) t, s.lastTx + 1, none⟩) {vis : VisMap}
    {snapshot : Option Snapshot} {active : List ℕ} (hreads : Reads s' snapshot active)
    (hvis : ∀ page, pageAllInvisible (vis page) snapshot = false) :
    ∃ rows, dataScan m s'.table vis snapshot active = .ok rows ∧
    rows.Perm (keys.filterMap (rowUnder m t)) ∧
      rows.length = keys.length := by
  subst hs'
  have hl := sameLinks_commitMarkVersions (s.lastTx + 1) t.recorded t.heap
  have hsettled : Settled m (s.lastTx + 1) (committed (s.lastTx + 1) t) := hs.settled.commit hi
  have hmarks : Marks none (committed (s.lastTx + 1) t).heap := hm.commit hi
  have hcovers : Covers m (committed (s.lastTx + 1) t) keys := by
    refine ⟨hc.nodup, hc.found, fun r hcur => ?_⟩
    obtain ⟨b, hb, hbr⟩ := hc.all r (hl.symm.current hcur)
    exact ⟨b, hb, (hl.keyOf_eq m .pk r).trans hbr⟩
  have hdense : (committed (s.lastTx + 1) t).heap.Dense :=
    commitMarkVersions_keeps (fun _ _ _ h => h.setHeader _ _) _ _ (hi.dense hs.dense)
  have hinv : Inv m True ⟨committed (s.lastTx + 1) t, s.lastTx + 1, none⟩ :=
    .idle hsettled fun _ => hdense
  obtain ⟨rows, hscan, hperm, hlen⟩ :=
    hcovers.dataScan (keyed_of_all hsettled.ready hsettled.ready.txInv hcovers.all)
    hsettled.wf hdense hsettled.linked hmarks (seesAll_of_reads hinv hmarks hreads nofun) hvis
  refine ⟨rows, hscan, ?_, hlen⟩
  have hrows : rowUnder m (committed (s.lastTx + 1) t) = rowUnder m t := by
    funext b
    exact Option.bind_congr fun r _ => SameLinks.rowAt_eq hl m r
  rwa [hrows] at hperm

end Commit

/-! ### The statements on every table -/

/-- A table of rows with a number. -/
def items : TableMeta where
  columns := [("id", .int), ("n", .int)]
  pkColumn := "id"
  pkIndex := 0
  notNull := [false, false]
  defaults := [none, none]
  uniqueCols := []
  secondaryIndexes := []
  pk_position := by decide

/-- The last page of the chain, or page 0. -/
def lastPage (t : Table) : Option ℕ := some (t.heap.chain.getLast?.getD 0)

theorem places_lastPage : Places lastPage := by
  intro t
  refine ⟨_, rfl, ?_⟩
  cases hlast : t.heap.chain.getLast? with
  | none =>
    rw [getLast?_eq_none_iff] at hlast
    exact .inr (by rw [hlast]; exact not_mem_nil)
  | some p => exact .inl hlast

/-- A row is inserted and committed. -/
def inserted (row : Row) : List Event := [.begin, .row (.insert (some 0) row), .commit]

theorem running_autoCommit {statement : ℕ → Table → Table × Except StorageError ℕ} {s after : State}
    {n : ℕ} (h : autoCommit statement s = (after, .ok n)) : after.running = none := by
  rw [autoCommit] at h
  split at h
  · rw [← (Prod.mk.inj h).1]
  · cases (Prod.mk.inj h).2

end RTsql.Transaction.History

import RTsql.Library.Except
import RTsql.Storage.Table

/-!
# INSERT, UPDATE and DELETE of a row

`insert.rs`, `update.rs` and `delete.rs`, for one row. A statement first checks the
row, then writes a version, records it with the transaction, and last maintains the
indexes. What it checks it checks against the indexes as they are, before it writes;
so a rejected row leaves nothing behind, while a write to an index that fails leaves
the version and the writes before it, for the transaction to roll back.

Every statement is given the page on which its version lands, or `none` if the
version cannot be written; parsing dates is a parameter.
-/

namespace RTsql.Executor

open List RTsql.Library RTsql.Storage RTsql.Transaction

/-- `parse_date` and `parse_timestamp`. -/
structure DateParser where
  parseDate : String → Option Int32
  parseTimestamp : String → Option Int64

/-- `coerce_datetime_write`. -/
def coerceDatetimeWrite (d : DateParser) : Value → ColumnType → Except StorageError Value
  | .null, .date | .null, .timestamp => .ok .null
  | .date n, .date => .ok (.date n)
  | .timestamp n, .timestamp => .ok (.timestamp n)
  | .string s, .date =>
    match d.parseDate s with
    | some n => .ok (.date n)
    | none => .error (.invalidDateTime (.string s) "DATE")
  | .string s, .timestamp =>
    match d.parseTimestamp s with
    | some n => .ok (.timestamp n)
    | none => .error (.invalidDateTime (.string s) "TIMESTAMP")
  | v, .date => .error (.invalidDateTime v "DATE")
  | v, .timestamp => .error (.invalidDateTime v "TIMESTAMP")
  | v, _ => .ok v

/-- `write_tuple_to_data_page` and `record_version`: the table and the new row id, or `none` if
there is no page for the version. -/
def write (t : Table) (page : Option ℕ) (s : Slot Row) : Option (Table × RowId) :=
  match page with
  | none => none
  | some p =>
    if t.heap.Writable p then
      some ({ t with heap := t.heap.append p s, recorded := t.heap.nextRid p :: t.recorded },
        t.heap.nextRid p)
    else none

/-- The first half of a row operation: the table with the version written, and what is to be written
to the indexes, or nothing to do. -/
abbrev RowWrite := Except StorageError (Option (Table × IndexOps))

/-- The second half: the indexes are written to. -/
def RowWrite.finish (m : TableMeta) (t : Table) : RowWrite → Table × Except StorageError Unit
  | .error e => (t, .error e)
  | .ok none => (t, .ok ())
  | .ok (some (t', ops)) => t'.maintain m ops

/-- The indexes admit what is to be written to them. -/
def RowWrite.Admitted (m : TableMeta) : RowWrite → Prop
  | .ok (some (t', ops)) => t'.Admits m ops
  | _ => True

instance (m : TableMeta) : (w : RowWrite) → Decidable (w.Admitted m)
  | .ok (some (t', ops)) => inferInstanceAs (Decidable (t'.Admits m ops))
  | .ok none | .error _ => inferInstanceAs (Decidable True)

/-! ### The checks -/

section Gates

variable (m : TableMeta) (t : Table)

/-- `NOT NULL`. -/
def notNullGate (row : Row) : Except StorageError Unit :=
  row.zipIdx.forM fun (v, i) =>
    if m.notNull.getD i false && v.isNull then .error (.nullConstraintViolation (m.columnName i))
    else .ok ()

/-- An `INT` key column takes integers and `NULL`. -/
def keyTypeGate (ct : Option ColumnType) (v : Value) : Except StorageError Unit :=
  match ct, v with
  | some .int, .int _ | some .int, .null => .ok ()
  | some .int, v => .error (.keyTypeMismatch m.pkColumn "INT" v.typeName)
  | _, _ => .ok ()

/-- The key is not in the index. -/
def freeGate (ix : IndexId) (b : Bytes) : Except StorageError Unit :=
  if ((t.index ix).search b).isSome then .error .duplicateKey else .ok ()

/-- The key, if there is one, is not in the index. -/
def freeKeyGate (ix : IndexId) : Option Bytes → Except StorageError Unit
  | some b => freeGate t ix b
  | none => .ok ()

/-- A value that is given to a `UNIQUE` column: `NULL`, or an integer that no row has. -/
def uniqueGate (n col : ℕ) (v : Value) : Except StorageError Unit :=
  if v.isNull then .ok ()
  else
    match v.toKey with
    | none => .error (.keyTypeMismatch (m.columnName col) "INT" v.typeName)
    | some b => freeGate t (.unique n) b

/-- The value, of which `actual` is what was given, has the column's type. -/
def typeGate (i : ℕ) (v : Value) (actual : String) : Except StorageError Unit :=
  match m.schema[i]? with
  | some ct =>
    if v.hasType ct then .ok () else .error (.columnTypeMismatch (m.columnName i) ct.name actual)
  | none => .error .widthMismatch

/-- `serialize_tuple` takes a value for every column. -/
def widthGate (row : Row) : Except StorageError Unit :=
  if row.length = m.columns.length then .ok () else .error .widthMismatch

end Gates

/-! ### INSERT -/

/-- What `INSERT` checks before it writes, and the row it then writes. -/
def checkInsert (d : DateParser) (m : TableMeta) (t : Table) (values : Row) :
    Except StorageError Row := do
  let coerced ← (values.zip m.schema).mapM fun (v, ct) => coerceDatetimeWrite d v ct
  let row := (coerced.zip m.schema).map fun (v, ct) => v.widen ct
  notNullGate m row
  keyTypeGate m m.schema[m.pkIndex]? (row.getD m.pkIndex .null)
  freeKeyGate t .pk (m.rawKey row .pk)
  m.uniqueCols.zipIdx.forM fun (col, n) => uniqueGate m t n col (row.getD col .null)
  row.zipIdx.forM fun (v, i) => typeGate m i v v.typeName
  widthGate m row
  pure row

/-- The entries of a new row go into the indexes. -/
def insertOps (m : TableMeta) (rid : RowId) (row : Row) (ix : IndexId) : List IndexOp :=
  ((m.rawKey row ix).map (.insert · rid)).toList

/-- `InsertExecutor::next`, for one row, up to the indexes. -/
def insertVersion (d : DateParser) (m : TableMeta) (tx : ℕ) (page : Option ℕ) (values : Row)
    (t : Table) : RowWrite :=
  match checkInsert d m t values with
  | .error e => .error e
  | .ok row =>
    match write t page ⟨.new tx, row⟩ with
    | none => .error .io
    | some (t', rid) => .ok (some (t', fun ix _ => insertOps m rid row ix))

/-- `InsertExecutor::next`, for one row. -/
def insertRow (d : DateParser) (m : TableMeta) (tx : ℕ) (page : Option ℕ) (values : Row) (t : Table) :
    Table × Except StorageError Unit :=
  (insertVersion d m tx page values t).finish m t

/-! ### UPDATE -/

/-- `UpdateAssignment`: the value may be an expression over the row. -/
structure Assignment where
  column : String
  value : Row → Except StorageError Value

/-- The column and the value of an assignment, on the row as it was. -/
def resolve (m : TableMeta) (row : Row) (a : Assignment) : Except StorageError (ℕ × Value) :=
  match m.position a.column with
  | none => .error (.columnNotFound a.column)
  | some i => (a.value row).map (i, ·)

/-- `NOT NULL`, for an assignment. -/
def assignNullGate (m : TableMeta) (a : ℕ × Value) : Except StorageError Unit :=
  if a.2.isNull && m.notNull.getD a.1 false then .error (.nullConstraintViolation (m.columnName a.1))
  else .ok ()

/-- An assignment to the primary key of the row with the given key: the new key is the same, byte
for byte, or not in the index. -/
def rekeyGate (m : TableMeta) (t : Table) (key : Bytes) (a : ℕ × Value) : Except StorageError Unit :=
  if m.columnName a.1 = m.pkColumn then do
    keyTypeGate m m.schema[a.1]? a.2
    if a.2.toKey = some key then pure () else freeKeyGate t .pk a.2.toKey
  else .ok ()

/-- The value of an assignment is coerced to the type of the column. -/
def coerceAssigned (d : DateParser) (m : TableMeta) (a : ℕ × Value) : Except StorageError (ℕ × Value) :=
  match m.schema[a.1]? with
  | some ct => (coerceDatetimeWrite d a.2 ct).map (a.1, ·)
  | none => .error .widthMismatch

/-- What `UPDATE` checks for each assignment. -/
def assignGate (d : DateParser) (m : TableMeta) (t : Table) (key : Bytes) (a : ℕ × Value) :
    Except StorageError (ℕ × Value) := do
  assignNullGate m a
  rekeyGate m t key a
  coerceAssigned d m a

/-- What `UPDATE` checks for a `UNIQUE` column: a value that changes is `NULL`, or no row has it. -/
def uniqueUpdateGate (m : TableMeta) (t : Table) (old new : Row) (n col : ℕ) :
    Except StorageError Unit :=
  if old.getD col .null = new.getD col .null then .ok ()
  else uniqueGate m t n col (new.getD col .null)

/-- The assigned columns have their types; an integer in a float column becomes a float. -/
def assignedTypeGate (m : TableMeta) (row : Row) (i : ℕ) : Except StorageError Row :=
  match m.schema[i]? with
  | some ct =>
    let v := row.getD i .null
    (typeGate m i (v.widen ct) v.typeName).map fun _ => row.set i (v.widen ct)
  | none => .error .widthMismatch

/-- What `UPDATE` checks before it writes, and the row it then writes, with the columns that were
assigned. -/
def checkUpdate (d : DateParser) (m : TableMeta) (t : Table) (key : Bytes) (old : Row)
    (assignments : List Assignment) : Except StorageError (Row × List ℕ) := do
  let resolved ← assignments.mapM (resolve m old)
  let assigned ← resolved.mapM (assignGate d m t key)
  let row := assigned.foldl (fun row a => row.set a.1 a.2) old
  m.uniqueCols.zipIdx.forM fun (col, n) => uniqueUpdateGate m t old row n col
  let cols := (assigned.map Prod.fst).eraseDups
  let row ← cols.foldlM (assignedTypeGate m) row
  widthGate m row
  pure (row, cols)

/-- How `UPDATE` maintains an index. `key` is where the row was found, `old` and `new` are the row
ids of the versions. -/
def updateOps (m : TableMeta) (key : Bytes) (old new : RowId) (oldRow newRow : Row) (cols : List ℕ) :
    IndexId → List IndexOp
  | .pk =>
    if (m.position m.pkColumn).any (· ∈ cols) then
      match m.rawKey newRow .pk with
      | none => [.delete key]
      | some b => if b = key then [.update key new] else [.delete key, .insert b new]
    else [.update key new]
  | .unique n =>
    match m.uniqueCols[n]? with
    | none => []
    | some col =>
      let oldValue := oldRow.getD col .null
      let newValue := newRow.getD col .null
      if oldValue = newValue then (newValue.toKey.map (.update · new)).toList
      else if newValue.isNull then (oldValue.toKey.map .delete).toList
      else (oldValue.toKey.map .delete).toList ++ (newValue.toKey.map (.insert · new)).toList
  | .secondary n =>
    let oldKey := m.rawKey oldRow (.secondary n)
    let newKey := m.rawKey newRow (.secondary n)
    (oldKey.map (.deleteExact · old)).toList ++ (newKey.map (.insert · new)).toList

/-- `UpdateExecutor::update_row`, up to the indexes. -/
def updateVersion (d : DateParser) (m : TableMeta) (tx : ℕ) (page : Option ℕ) (key : Bytes)
    (assignments : List Assignment) (t : Table) : RowWrite :=
  match (t.index .pk).search key with
  | none => .error .keyNotFound
  | some old =>
    match t.heap.slot? old with
    | none => .error (.slotNotFound old)
    | some s =>
      let oldRow := m.readRow s.tuple
      match checkUpdate d m t key oldRow assignments with
      | .error e => .error e
      | .ok (row, cols) =>
        match write t page ⟨(VersionHeader.new tx).withNextVersion old, row⟩ with
        | none => .error .io
        | some (t', new) => .ok (some (t', fun ix _ => updateOps m key old new oldRow row cols ix))

/-- `UpdateExecutor::update_row`. -/
def updateRow (d : DateParser) (m : TableMeta) (tx : ℕ) (page : Option ℕ) (key : Bytes)
    (assignments : List Assignment) (t : Table) : Table × Except StorageError Unit :=
  (updateVersion d m tx page key assignments t).finish m t

/-! ### DELETE -/

/-- How `DELETE` maintains an index; the row at `rid` was found under `key`. -/
def deleteOps (m : TableMeta) (key : Bytes) (rid : RowId) (row : Row) : IndexId → List IndexOp
  | .pk => [.delete key]
  | .unique n => ((m.rawKey row (.unique n)).map .delete).toList
  | .secondary n => ((m.rawKey row (.secondary n)).map (.deleteExact · rid)).toList

/-- `DeleteExecutor::delete_row`, up to the indexes: a tombstone is written, recorded, and linked to
the row. A key that is not there deletes nothing. -/
def deleteVersion (m : TableMeta) (tx : ℕ) (page : Option ℕ) (key : Bytes) (t : Table) : RowWrite :=
  match (t.index .pk).search key with
  | none => .ok none
  | some rid =>
    match t.heap.slot? rid with
    | none =>
      -- the row is not there: no tombstone, only the entry of its key goes
      .ok (some ({ t with recorded := rid :: t.recorded }, fun ix _ =>
        if ix = .pk then [.delete key] else []))
    | some s =>
      match write t page ⟨(VersionHeader.new tx).markDeleted, []⟩ with
      | none => .error .io
      | some (t', tombstone) =>
        let heap := t'.heap.setHeader tombstone ((VersionHeader.new tx).withNextVersion rid).markDeleted
        .ok (some ({ t' with heap }, fun ix _ => deleteOps m key rid (m.readRow s.tuple) ix))

/-- `DeleteExecutor::delete_row`. -/
def deleteRow (m : TableMeta) (tx : ℕ) (page : Option ℕ) (key : Bytes) (t : Table) :
    Table × Except StorageError Unit :=
  (deleteVersion m tx page key t).finish m t

/-! ### Statements -/

/-- What a statement does to one row. -/
inductive RowOp where
  | insert (page : Option ℕ) (values : Row)
  | update (page : Option ℕ) (key : Bytes) (assignments : List Assignment)
  | delete (page : Option ℕ) (key : Bytes)

/-- A row of a statement, up to the indexes. -/
def RowOp.version (d : DateParser) (m : TableMeta) (tx : ℕ) (t : Table) : RowOp → RowWrite
  | insert page values => insertVersion d m tx page values t
  | update page key assignments => updateVersion d m tx page key assignments t
  | delete page key => deleteVersion m tx page key t

/-- A row of a statement. -/
def exec (d : DateParser) (m : TableMeta) (tx : ℕ) (op : RowOp) (t : Table) :
    Table × Except StorageError Unit :=
  match op with
  | .insert page values => insertRow d m tx page values t
  | .update page key assignments => updateRow d m tx page key assignments t
  | .delete page key => deleteRow m tx page key t

/-- **The condition on a row of a statement**: the indexes admit the entries it puts into them. -/
def RowOp.Admitted (d : DateParser) (m : TableMeta) (tx : ℕ) (t : Table) (op : RowOp) : Prop :=
  (op.version d m tx t).Admitted m

instance (d : DateParser) (m : TableMeta) (tx : ℕ) (t : Table) (op : RowOp) :
    Decidable (op.Admitted d m tx t) :=
  inferInstanceAs (Decidable ((op.version d m tx t).Admitted m))

/-- Row after row, whether or not it succeeds: a statement that fails leaves its rows so far, and
the transaction goes on. -/
def execAll (d : DateParser) (m : TableMeta) (tx : ℕ) (ops : List RowOp) (t : Table) : Table :=
  ops.foldl (fun t op => (exec d m tx op t).1) t

/-- The condition on the rows of a run: the indexes admit the entries of each as it comes. -/
def AllAdmitted (d : DateParser) (m : TableMeta) (tx : ℕ) (t : Table) : List RowOp → Prop
  | [] => True
  | op :: ops => op.Admitted d m tx t ∧ AllAdmitted d m tx (exec d m tx op t).1 ops

instance decidableAllAdmitted (d : DateParser) (m : TableMeta) (tx : ℕ) :
    (t : Table) → (ops : List RowOp) → Decidable (AllAdmitted d m tx t ops)
  | _, [] => instDecidableTrue
  | t, op :: ops => @instDecidableAnd _ _ _ (decidableAllAdmitted d m tx (exec d m tx op t).1 ops)

/-! ### What the checks establish -/

section Checks

variable {d : DateParser} {m : TableMeta} {t : Table} {b key : Bytes} {ix : IndexId} {v : Value}
  {row : Row}

theorem search_of_freeGate (h : freeGate t ix b = .ok ()) : (t.index ix).search b = none := by
  unfold freeGate at h
  split at h
  case isTrue => cases h
  case isFalse hs => simpa using hs

/-- A value that passes the check of a `UNIQUE` column has no key, or a free one. -/
theorem search_of_uniqueGate {n col : ℕ} (h : uniqueGate m t n col v = .ok ())
    (hb : v.toKey = some b) : (t.index (.unique n)).search b = none := by
  unfold uniqueGate at h
  split at h
  case isTrue hnull =>
    cases v with
    | null => cases hb
    | _ => cases hnull
  case isFalse =>
    rw [hb] at h
    exact search_of_freeGate h

theorem search_of_freeKeyGate {key : Option Bytes} (h : freeKeyGate t ix key = .ok ())
    (hb : key = some b) : (t.index ix).search b = none := by
  rw [hb] at h
  exact search_of_freeGate h

theorem length_of_widthGate (h : widthGate m row = .ok ()) : row.length = m.columns.length := by
  unfold widthGate at h
  split at h
  case isTrue hlen => exact hlen
  case isFalse => cases h

/-- **What INSERT has checked**: the row is as wide as the table, and its keys are free. -/
theorem checkInsert_spec {values : Row} (h : checkInsert d m t values = .ok row) :
    row.length = m.columns.length ∧
      ∀ ix, ix.isUnique = true → ∀ b, m.rawKey row ix = some b → (t.index ix).search b = none := by
  obtain ⟨coerced, -, -, -, h⟩ := bind_bind_ok h
  obtain ⟨-, -, ⟨⟩, hpk, h⟩ := bind_bind_ok h
  obtain ⟨⟨⟩, huniq, -, -, h⟩ := bind_bind_ok h
  obtain ⟨⟨⟩, hwidth, ⟨⟩⟩ := bind_eq_ok.mp h
  refine ⟨length_of_widthGate hwidth, ?_⟩
  intro ix hix b hb
  cases ix with
  | pk => exact search_of_freeKeyGate hpk hb
  | unique n =>
    obtain ⟨col, hcol, hb⟩ := Option.bind_eq_some_iff.mp hb
    have hmem : (col, n) ∈ m.uniqueCols.zipIdx := mk_mem_zipIdx_iff_getElem?.mpr hcol
    exact search_of_uniqueGate (forM_eq_ok.mp huniq _ hmem) hb
  | secondary n => cases hix

/-- A value that has a key was not made by the coercion of dates. -/
theorem eq_of_coerceDatetimeWrite {v' : Value} {ct : ColumnType}
    (h : coerceDatetimeWrite d v ct = .ok v') (hb : v'.toKey = some b) : v' = v := by
  unfold coerceDatetimeWrite at h
  split at h <;> try (cases h; rfl)
  all_goals (try split at h) <;> cases h <;> cases hb

theorem columnName_pkIndex (m : TableMeta) : m.columnName m.pkIndex = m.pkColumn := by
  obtain ⟨hlt, hname, -⟩ := findIdx?_eq_some_iff_getElem.mp m.pk_position
  simpa [TableMeta.columnName, getElem?_eq_getElem hlt] using hname

/-- An assignment to the primary key that passes its checks gives the row no key, the key it had,
or a free one. -/
theorem assignGate_spec {a a' : ℕ × Value} (h : assignGate d m t key a = .ok a')
    (hcol : a'.1 = m.pkIndex) (hb : a'.2.toKey = some b) : b = key ∨ (t.index .pk).search b = none := by
  obtain ⟨-, -, ⟨⟩, hrekey, h⟩ := bind_bind_ok h
  have hval : a'.1 = a.1 ∧ a'.2 = a.2 := by
    unfold coerceAssigned at h
    split at h
    case h_1 ct _ =>
      cases hc : coerceDatetimeWrite d a.2 ct with
      | error e =>
        rw [hc] at h
        cases h
      | ok v =>
        rw [hc] at h
        cases h
        exact ⟨rfl, eq_of_coerceDatetimeWrite hc hb⟩
    case h_2 => cases h
  rw [hval.2] at hb
  rw [rekeyGate, if_pos (by rw [← hval.1, hcol, columnName_pkIndex])] at hrekey
  obtain ⟨-, -, hrekey⟩ := bind_eq_ok.mp hrekey
  split at hrekey
  case isTrue hkey =>
    rw [hb] at hkey
    exact .inl (Option.some.inj hkey)
  case isFalse => exact .inr (search_of_freeKeyGate hrekey hb)

/-- A value of the row after the assignments: as before, or assigned. -/
theorem getD_foldl_set (assigned : List (ℕ × Value)) (row : Row) (i : ℕ) :
    let v := (assigned.foldl (fun row a => row.set a.1 a.2) row).getD i .null
    (i ∉ assigned.map Prod.fst → v = row.getD i .null) ∧
      (i ∈ assigned.map Prod.fst → v = .null ∨ ∃ a ∈ assigned, a.1 = i ∧ a.2 = v) := by
  induction assigned generalizing row with
  | nil => simp
  | cons a rest ih =>
    obtain ⟨hno, hyes⟩ := ih (row.set a.1 a.2)
    refine ⟨fun hni => ?_, fun hi => ?_⟩
    · rw [map_cons, mem_cons, not_or] at hni
      refine (hno hni.2).trans ?_
      simp [getD_eq_getElem?_getD, getElem?_set_ne fun hc => hni.1 hc.symm]
    · by_cases hrest : i ∈ rest.map Prod.fst
      · refine (hyes hrest).imp id ?_
        rintro ⟨a', ha', hcol, hval⟩
        exact ⟨a', mem_cons_of_mem _ ha', hcol, hval⟩
      · -- the last assignment to the column is the first of the list
        obtain rfl : i = a.1 := (mem_cons.mp hi).resolve_right hrest
        by_cases hlt : a.1 < row.length
        · exact .inr ⟨a, mem_cons_self, rfl, by rw [foldl_cons, hno hrest]; simp [hlt]⟩
        · refine .inl ((hno hrest).trans ?_)
          rw [set_eq_of_length_le (by omega), getD_eq_getElem?_getD,
            getElem?_eq_none (by omega), Option.getD_none]

/-- The check of the types changes a value only into one without a key, and only where one was
assigned. -/
theorem getD_assignedTypeGate {row' : Row} {j : ℕ} (h : assignedTypeGate m row j = .ok row') (i : ℕ) :
    (i ≠ j → row'.getD i .null = row.getD i .null) ∧
      (row'.getD i .null = row.getD i .null ∨ (row'.getD i .null).toKey = none) := by
  unfold assignedTypeGate at h
  split at h
  case h_2 => cases h
  case h_1 ct _ =>
    cases hgate : typeGate m j ((row.getD j .null).widen ct) (row.getD j .null).typeName with
    | error e =>
      simp only [hgate] at h
      cases h
    | ok _ =>
      simp only [hgate] at h
      cases h
      obtain rfl | hi := eq_or_ne j i
      · refine ⟨fun hne => absurd rfl hne, ?_⟩
        by_cases hlt : j < row.length
        · have hset : (row.set j ((row.getD j .null).widen ct)).getD j .null =
            (row.getD j .null).widen ct := by
            simp [hlt]
          rw [hset]
          cases hk : ((row.getD j .null).widen ct).toKey with
          | none => exact .inr rfl
          | some b => exact .inl (Value.eq_of_toKey_widen hk)
        · exact .inl (by rw [set_eq_of_length_le (by omega)])
      · have hsame : (row.set j ((row.getD j .null).widen ct)).getD i .null = row.getD i .null := by
          simp [getD_eq_getElem?_getD, getElem?_set_ne hi]
        exact ⟨fun _ => hsame, .inl hsame⟩

/-- **What UPDATE has checked**: the new row is as wide as the table; a primary key that was not
assigned is as before, and one that was is the same or free; so is the value of a `UNIQUE`
column. -/
theorem checkUpdate_spec {old : Row} {assignments : List Assignment} {cols : List ℕ}
    (h : checkUpdate d m t key old assignments = .ok (row, cols)) :
    row.length = m.columns.length ∧
      (m.pkIndex ∉ cols → row.getD m.pkIndex .null = old.getD m.pkIndex .null) ∧
      (m.pkIndex ∈ cols → ∀ b, m.rawKey row .pk = some b → b = key ∨ (t.index .pk).search b = none) ∧
      ∀ n col, m.uniqueCols[n]? = some col → old.getD col .null = row.getD col .null ∨
        ∀ b, (row.getD col .null).toKey = some b → (t.index (.unique n)).search b = none := by
  obtain ⟨resolved, -, assigned, hassigned, h⟩ := bind_bind_ok h
  obtain ⟨⟨⟩, huniq, row', htypes, h⟩ := bind_bind_ok h
  obtain ⟨⟨⟩, hwidth, ⟨⟩⟩ := bind_eq_ok.mp h
  -- the row between the assignments and the check of the types
  generalize hset : assigned.foldl (fun row a => row.set a.1 a.2) old = row₁ at huniq htypes
  have hno : ∀ i, i ∉ (assigned.map Prod.fst).eraseDups → row.getD i .null = row₁.getD i .null := by
    intro i hi
    refine foldlM_invariant (P := fun r => r.getD i .null = row₁.getD i .null) htypes rfl ?_
    intro r j r' hj hr hgate
    exact ((getD_assignedTypeGate hgate i).1 fun hc => hi (hc ▸ hj)).trans hr
  have hyes : ∀ i, row.getD i .null = row₁.getD i .null ∨ (row.getD i .null).toKey = none := by
    intro i
    refine foldlM_invariant (P :=
      fun r => r.getD i .null = row₁.getD i .null ∨ (r.getD i .null).toKey = none)
      htypes (.inl rfl) ?_
    intro r j r' _ hr hgate
    rcases (getD_assignedTypeGate hgate i).2 with heq | hnone
    · rwa [heq]
    · exact .inr hnone
  have hfold := fun i => getD_foldl_set assigned old i
  simp only [hset] at hfold
  refine ⟨length_of_widthGate hwidth, fun hni => ?_, fun hi b hb => ?_, fun n col hcol => ?_⟩
  · refine (hno _ hni).trans ((hfold m.pkIndex).1 fun hc => hni ?_)
    exact mem_eraseDups.mpr hc
  · have hb : (row.getD m.pkIndex .null).toKey = some b := hb
    have heq := (hyes m.pkIndex).resolve_right fun hnone => absurd (hnone.symm.trans hb) nofun
    rw [heq] at hb
    rcases (hfold m.pkIndex).2 (mem_eraseDups.mp hi) with hnull | ⟨a, ha, hcol, hval⟩
    · rw [hnull] at hb
      cases hb
    · obtain ⟨a₀, -, hgate⟩ := (mem_of_mapM hassigned).1 a ha
      exact assignGate_spec hgate hcol (hval ▸ hb)
  · have hmem : (col, n) ∈ m.uniqueCols.zipIdx := mk_mem_zipIdx_iff_getElem?.mpr hcol
    have hgate := forM_eq_ok.mp huniq _ hmem
    rcases hyes col with heq | hnone
    · rw [heq]
      simp only [uniqueUpdateGate] at hgate
      split at hgate
      case isTrue hsame => exact .inl hsame
      case isFalse => exact .inr fun b hb => search_of_uniqueGate hgate hb
    · exact .inr fun b hb => absurd (hnone.symm.trans hb) nofun

end Checks

end RTsql.Executor

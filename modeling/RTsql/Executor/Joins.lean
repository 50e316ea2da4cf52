import RTsql.Executor.Comparison
import RTsql.Library.Except
import RTsql.Library.Join

/-!
# Joins

The executors of joins, `join.rs`, `sort_merge_join.rs` and `nested_loop_join.rs`, with the column
numbers that `pipeline.rs` looks up for them. A hash join and a sort-merge join compare the columns
of their conditions; a nested loop evaluates a predicate on the combined row and can keep rows that
have no partner. Each of them computes a join of its two inputs in the sense of the library. -/

namespace RTsql.Executor

open List RTsql.Library RTsql.Storage

/-- `JoinSide`. -/
inductive JoinSide where
  | left
  | right
  deriving DecidableEq, Repr

/-- The other side, for a plan with its inputs exchanged. -/
def JoinSide.flip : JoinSide → JoinSide
  | .left => .right
  | .right => .left

/-- `OutputColumn`: the table by its real name, and where the column is in the row of its side. -/
structure OutputColumn where
  table : String
  column : String
  columnIndex : ℕ
  deriving DecidableEq, Repr

/-- `ColumnRef`. -/
structure ColumnRef where
  table : Option String
  column : String
  deriving DecidableEq, Repr

/-- `JoinCondition`. -/
structure JoinCondition where
  leftColumn : ColumnRef
  rightColumn : ColumnRef
  deriving DecidableEq, Repr

/-- `NestedLoopJoinType`. -/
inductive NestedLoopJoinType where
  | inner
  | left
  | full
  deriving DecidableEq, Repr

/-- Why a query stops. -/
inductive ExecError where
  | value (e : ValueError)
  | columnOutOfBounds (index width : ℕ)
  /-- An `expect` or an index out of bounds. -/
  | panicked
  deriving DecidableEq, Repr

/-- `output_columns` with `output_sides`. -/
abbrev Output := List (OutputColumn × JoinSide)

/-! ### Where the columns of a condition are -/

/-- The key under which a column is registered with its table, in lower case as the names are. -/
def qualifiedKey (table column : String) : String := table ++ "." ++ column

/-- `extract_column_indices`: of several columns with one name the last is kept. -/
def extractColumnIndices (pairs : List (String × String)) (name : String) : Option ℕ :=
  (pairs.zipIdx.filter fun p => p.1.2 = name).getLast?.map Prod.snd

/-- `register_join_qualified_keys`: a key that more than one column has is not registered. -/
def joinQualifiedKeys (pairs : List (String × String)) (key : String) : Option ℕ :=
  match pairs.zipIdx.filter fun p => qualifiedKey p.1.1 p.1.2 = key with
  | [p] => some p.2
  | _ => none

/-- The map of an input of a join: names first, then the keys that are not names. -/
def columnIndices (pairs : List (String × String)) (name : String) : Option ℕ :=
  (extractColumnIndices pairs name).or (joinQualifiedKeys pairs name)

/-- `condition_column_index`: with its table if it has one, otherwise, or if that is not found, by
its name. -/
def conditionColumnIndex (map : String → Option ℕ) (column : ColumnRef) : Option ℕ :=
  (column.table.bind fun table => map (qualifiedKey table column.column)).or (map column.column)

/-! ### Hash join and sort-merge join -/

/-- The value of a condition's column in a row. -/
def joinValue (map : String → Option ℕ) (column : ColumnRef) (row : Row) : Except ExecError Value :=
  match (conditionColumnIndex map column).bind (row[·]?) with
  | some v => .ok v
  | none => .error .panicked

/-- `build_hash_key_left`, `build_hash_key_right`, `join_key`: a key with a `NULL` matches
nothing. -/
def joinKey (map : String → Option ℕ) (columns : List ColumnRef) (row : Row) :
    Except ExecError (Option (List Value)) :=
  (fun key => if key.any Value.isNull then none else some key) <$> columns.mapM (joinValue map · row)

/-- `collect_keyed`, before the sort. -/
def collectKeyed (map : String → Option ℕ) (columns : List ColumnRef) (rows : List Row) :
    Except ExecError (List (List Value × Row)) :=
  (fun keys => (keys.zip rows).filterMap fun p => p.1.map (·, p.2)) <$> rows.mapM (joinKey map columns)

/-- `PartialEq` of values: as `equals`, but an integer is no float. -/
def valueEq : Value → Value → Bool
  | .int _, .float _ | .float _, .int _ => false
  | v, w => equals v w

/-- `PartialEq` of keys. -/
def keyEq (k k' : List Value) : Bool := k.length = k'.length && (k.zip k').all fun p => valueEq p.1 p.2

/-- `build_output_row`. It panics where a column number is out of range, which is here a `NULL`; the
numbers that the planner gives out are in range. -/
def outputRow (output : Output) (left right : Row) : Row :=
  output.map fun o =>
    match o.2 with
    | .left => left.getD o.1.columnIndex .null
    | .right => right.getD o.1.columnIndex .null

/-- `build_padded_row`. -/
def paddedRow (output : Output) (left right : Option Row) : Row :=
  output.map fun o =>
    match o.2 with
    | .left => (left.map (·.getD o.1.columnIndex .null)).getD .null
    | .right => (right.map (·.getD o.1.columnIndex .null)).getD .null

/-- `JoinExecutor`: the table of the right rows, then for each left row those with the same key. -/
def hashJoinRows (leftMap rightMap : String → Option ℕ) (conditions : List JoinCondition)
    (output : Output) (lefts rights : List Row) : Except ExecError (List Row) := do
  let table ← collectKeyed rightMap (conditions.map JoinCondition.rightColumn) rights
  let probes ← collectKeyed leftMap (conditions.map JoinCondition.leftColumn) lefts
  pure (probes.flatMap fun l => (table.filter fun r => keyEq l.1 r.1).map fun r =>
    outputRow output l.2 r.2)

/-- `variant_rank`. -/
def variantRank : Value → ℕ
  | .null => 0
  | .bool _ => 1
  | .int _ => 2
  | .float _ => 3
  | .string _ => 4
  | .date _ => 5
  | .timestamp _ => 6

/-- `compare_floats`. -/
def compareFloats (a b : Float) : Ordering :=
  match a.isNaN, b.isNaN with
  | true, true => .eq
  | true, false => .gt
  | false, true => .lt
  | false, false => (floatCmp a b).getD .eq

/-- `compare_join_value`. -/
def compareJoinValue (v w : Value) : Ordering :=
  if variantRank v = variantRank w then
    match v, w with
    | .int a, .int b => compareOfLessAndEq a b
    | .float a, .float b => compareFloats (.ofBits a) (.ofBits b)
    | .string a, .string b => compareOfLessAndEq a.toUTF8.toList b.toUTF8.toList
    | .bool a, .bool b => compareOfLessAndEq a b
    | .date a, .date b => compareOfLessAndEq a b
    | .timestamp a, .timestamp b => compareOfLessAndEq a b
    | _, _ => .eq
  else compare (variantRank v) (variantRank w)

/-- `compare_join_keys`. -/
def compareJoinKeys : List Value → List Value → Ordering
  | v :: vs, w :: ws => if compareJoinValue v w = .eq then compareJoinKeys vs ws else compareJoinValue v w
  | vs, ws => compare vs.length ws.length

/-- `SortMergeJoinExecutor`. -/
def sortMergeJoinRows (leftMap rightMap : String → Option ℕ) (conditions : List JoinCondition)
    (output : Output) (lefts rights : List Row) : Except ExecError (List Row) := do
  let left ← collectKeyed leftMap (conditions.map JoinCondition.leftColumn) lefts
  let right ← collectKeyed rightMap (conditions.map JoinCondition.rightColumn) rights
  pure ((mergeJoin compareJoinKeys keyEq (left.insertionSort fun a b => compareJoinKeys a.1 b.1 ≠ .gt)
    (right.insertionSort fun a b => compareJoinKeys a.1 b.1 ≠ .gt)).map fun p =>
      outputRow output p.1 p.2)

/-! ### Nested loop -/

/-- `Predicate::evaluate`: what is unknown does not select. -/
def selected (predicate : Row → Except ExecError Ternary) (row : Row) : Except ExecError Bool :=
  (· == .true) <$> predicate row

/-- The loop over the left rows: what is put out, and which right rows have found a partner. -/
def nestedLoop (predicate : Row → Except ExecError Ternary) (output : Output)
    (joinType : NestedLoopJoinType)
    (rights : List Row) : List Row → List Bool → Except ExecError (List Row × List Bool)
  | [], matched => .ok ([], matched)
  | left :: lefts, matched => do
    let flags ← rights.mapM fun right => selected predicate (left ++ right)
    let pairs := ((rights.zip flags).filter Prod.snd).map fun p => outputRow output left p.1
    let padded := if joinType ≠ .inner ∧ !flags.any id then [paddedRow output (some left) none] else []
    let (rest, matched) ← nestedLoop predicate output joinType rights lefts (matched.zipWith or flags)
    pure (pairs ++ padded ++ rest, matched)

/-- `NestedLoopJoinExecutor`. After the left rows a full join puts out the right rows without a
partner. -/
def nestedLoopJoinRows (predicate : Row → Except ExecError Ternary) (output : Output)
    (joinType : NestedLoopJoinType) (lefts rights : List Row) : Except ExecError (List Row) := do
  let (rows, matched) ← nestedLoop predicate output joinType rights lefts (rights.map fun _ => false)
  let unmatched := if joinType = .full then ((rights.zip matched).filter (!·.2)).map Prod.fst else []
  pure (rows ++ unmatched.map fun right => paddedRow output none (some right))

/-! ### What they compute -/

section keys

variable {map : String → Option ℕ} {columns : List ColumnRef} (val : ColumnRef → Row → Value)

/-- The key of a row from the values of its columns. -/
def keyOf (val : ColumnRef → Row → Value) (columns : List ColumnRef) (row : Row) : Option (List Value) :=
  if (columns.map (val · row)).any Value.isNull then none else some (columns.map (val · row))

theorem joinKey_eq {row : Row} (h : ∀ c ∈ columns, joinValue map c row = .ok (val c row)) :
    joinKey map columns row = .ok (keyOf val columns row) := by
  rw [joinKey, mapM_eq_map h]
  rfl

theorem collectKeyed_eq {rows : List Row}
    (h : ∀ row ∈ rows, ∀ c ∈ columns, joinValue map c row = .ok (val c row)) :
    collectKeyed map columns rows =
      .ok (rows.filterMap fun row => (keyOf val columns row).map (·, row)) := by
  rw [collectKeyed, mapM_eq_map fun row hrow => joinKey_eq val (h row hrow)]
  refine congrArg Except.ok ?_
  clear h
  induction rows with
  | nil => rfl
  | cons row rows ih =>
    simp only [map_cons, zip_cons_cons, filterMap_cons, ih]

end keys

/-! ### A code for the order -/

/-- Any value but a float. -/
def NotFloat : Value → Prop
  | .float _ => False
  | _ => True

variable {v w : Value}

theorem NotFloat.of_hasType {c : ColumnType} (hv : v.hasType c = true) (hc : c ≠ .float) :
    NotFloat v := by
  cases v <;> first | trivial | cases c <;> first | exact absurd rfl hc | cases hv

/-- What is in a value, as a word of integers. -/
def payloadCode : Value → List ℤ
  | .int n | .timestamp n => [n.toInt]
  | .date d => [d.toInt]
  | .bool b => [b.toNat]
  | .string s => s.toUTF8.toList.map fun b => (b.toNat : ℤ)
  | .null | .float _ => []

/-- The type and what is in it. Values that are no floats are told apart by their codes and compared
as these are. -/
def orderCode (v : Value) : List ℤ := variantRank v :: payloadCode v

theorem orderCode_inj (hv : NotFloat v) (hw : NotFloat w) : orderCode v = orderCode w ↔ v = w := by
  refine ⟨fun h => ?_, fun h => h ▸ rfl⟩
  have hbytes : Function.Injective fun b : UInt8 => (b.toNat : ℤ) := fun a b h =>
    UInt8.toNat_inj.mp (Int.ofNat.inj h)
  cases v <;> first | exact absurd hv id | cases w <;> first | exact absurd hw id | skip
  case string.string => exact congrArg _ (eq_of_toUTF8_toList (hbytes.list_map (cons.inj h).2))
  case bool.bool a b => cases a <;> cases b <;> first | rfl | cases h
  all_goals simp_all [orderCode, variantRank, payloadCode, Int64.toInt_inj, Int32.toInt_inj]

/-- A comparison that a monotone code keeps. -/
theorem compareOfLessAndEq_compares {α ν : Type} [LT α] [DecidableLT α] [DecidableEq α] [LT ν]
    {a b : α} (f : α → ν) (hf : ∀ a b, a < b → f a < f b) (htri : a = b ∨ a < b ∨ b < a) :
    (compareOfLessAndEq a b).Compares (f a) (f b) := by
  unfold compareOfLessAndEq
  split_ifs with hlt heq
  · exact hf a b hlt
  · exact congrArg f heq
  · exact hf b a ((htri.resolve_left heq).resolve_left hlt)

/-- Values that are no floats are compared as their codes are. -/
theorem compareJoinValue_code (hv : NotFloat v) (hw : NotFloat w) :
    (compareJoinValue v w).Compares (orderCode v) (orderCode w) := by
  have hword (n : ℤ) {x y : ℤ} (h : x < y) : [n, x] < [n, y] :=
    cons_lt_cons_iff.mpr (.inr ⟨rfl, Lex.rel h⟩)
  cases v <;> first | exact absurd hv id | cases w <;> first | exact absurd hw id | skip
  case int.int a b | timestamp.timestamp a b =>
    exact compareOfLessAndEq_compares _ (fun a b h => hword _ (Int64.lt_iff_toInt_lt.mp h))
      (trichotomy_int a b)
  case date.date a b =>
    refine compareOfLessAndEq_compares _ (fun a b h => hword _ (Int32.lt_iff_toInt_lt.mp h)) ?_
    rw [← Int32.toInt_inj, Int32.lt_iff_toInt_lt, Int32.lt_iff_toInt_lt]
    omega
  case string.string a b =>
    refine compareOfLessAndEq_compares
      (fun bytes : List UInt8 => (4 : ℤ) :: bytes.map fun b => (b.toNat : ℤ)) ?_
      ((trichotomy_string a b).imp_left fun h => h ▸ rfl)
    exact fun a b h => cons_lt_cons_iff.mpr (.inr ⟨rfl, List.map_lt (fun _ _ h => Int.ofNat_lt.mpr h) h⟩)
  case bool.bool a b => cases a <;> cases b <;> first | exact rfl | exact hword _ (by decide)
  case null.null => exact rfl
  all_goals exact Lex.rel (by simp [variantRank])

/-- So are keys. -/
theorem compareJoinKeys_code {k k' : List Value} (hk : ∀ v ∈ k, NotFloat v) (hk' : ∀ v ∈ k',
    NotFloat v) : (compareJoinKeys k k').Compares (k.map orderCode) (k'.map orderCode) := by
  induction k generalizing k' with
  | nil =>
    cases k' with
    | nil => exact rfl
    | cons w ws => exact nil_lt_cons _ _
  | cons v vs ih =>
    cases k' with
    | nil => exact nil_lt_cons _ _
    | cons w ws =>
      obtain ⟨hv, hvs⟩ := forall_mem_cons.mp hk
      obtain ⟨hw, hws⟩ := forall_mem_cons.mp hk'
      have hhead := compareJoinValue_code hv hw
      have htail := ih hvs hws
      rw [compareJoinKeys]
      simp only [map_cons]
      cases hcmp : compareJoinValue v w with
      | lt | gt =>
        rw [hcmp] at hhead
        exact cons_lt_cons_iff.mpr (.inl hhead)
      | eq =>
        rw [hcmp] at hhead
        have hcode : orderCode v = orderCode w := hhead
        rw [hcode]
        cases hrest : compareJoinKeys vs ws with
        | lt | gt =>
          rw [hrest] at htail
          exact cons_lt_cons_iff.mpr (.inr ⟨rfl, htail⟩)
        | eq =>
          rw [hrest] at htail
          exact congrArg (orderCode w :: ·) htail

theorem valueEq_eq (hv : NotFloat v) (hw : NotFloat w) : valueEq v w = decide (v = w) := by
  cases v <;> first | exact absurd hv id | cases w <;>
    first | exact absurd hw id | simp [valueEq, equals]

theorem keyEq_forall₂ {k k' : List Value} {R : Value → Value → Prop}
    (h : ∀ v ∈ k, ∀ w ∈ k', valueEq v w = true ↔ R v w) : keyEq k k' = true ↔ Forall₂ R k k' := by
  simp only [keyEq, Bool.and_eq_true, decide_eq_true_eq, all_eq_true, forall₂_iff_zip, Prod.forall]
  exact and_congr_right fun _ => forall₃_congr fun v w hm => h v (of_mem_zip hm).1 w (of_mem_zip hm).2

section

variable {k k' : List Value} (hk : ∀ v ∈ k, NotFloat v) (hk' : ∀ v ∈ k', NotFloat v)

include hk hk'

theorem keyEq_iff : keyEq k k' = true ↔ k = k' := by
  rw [← forall₂_eq_eq_eq]
  exact keyEq_forall₂ fun v hv w hw => by rw [valueEq_eq (hk v hv) (hk' w hw), decide_eq_true_eq]

theorem keyEq_code : keyEq k k' = true ↔ k.map orderCode = k'.map orderCode := by
  rw [← forall₂_eq_eq_eq, forall₂_map_left_iff, forall₂_map_right_iff]
  refine keyEq_forall₂ fun v hv w hw => ?_
  rw [valueEq_eq (hk v hv) (hk' w hw), decide_eq_true_eq, orderCode_inj (hk v hv) (hk' w hw)]

end

theorem sorted_insertionSort {rows : List (List Value × Row)} (h : ∀ p ∈ rows, ∀ v ∈ p.1, NotFloat v) :
    (rows.insertionSort fun a b => compareJoinKeys a.1 b.1 ≠ .gt).Pairwise
      fun a b => a.1.map orderCode ≤ b.1.map orderCode := by
  rw [← pairwise_map (f := fun p : List Value × Row => p.1.map orderCode) (R := (· ≤ ·)),
    map_insertionSort _ (fun a b : List (List ℤ) => a ≤ b) _ _ fun a ha b hb => ?_]
  · exact pairwise_insertionSort _ _
  · rw [ne_eq, (compareJoinKeys_code (h a ha) (h b hb)).eq_gt, not_lt]

theorem notFloat_of_mem_keyed (val : ColumnRef → Row → Value) (columns : List ColumnRef)
    {rows : List Row} (h : ∀ row ∈ rows, ∀ c ∈ columns, NotFloat (val c row)) :
    ∀ p ∈ rows.filterMap fun row => (keyOf val columns row).map (·, row), ∀ v ∈ p.1, NotFloat v := by
  intro p hp v hv
  obtain ⟨row, hrow, hp⟩ := mem_filterMap.mp hp
  obtain ⟨k, hk, rfl⟩ := Option.map_eq_some_iff.mp hp
  rw [keyOf, Option.ite_none_left_eq_some] at hk
  obtain ⟨c, hc, rfl⟩ := mem_map.mp (Option.some.inj hk.2 ▸ hv)
  exact h row hrow c hc

section conditions

variable {leftMap rightMap : String → Option ℕ} {conditions : List JoinCondition}
  {lefts rights : List Row} {leftVal rightVal : ColumnRef → Row → Value}

/-- The rows meet the conditions: no value is `NULL`, and the values of each condition are the
same. -/
def meets (leftVal rightVal : ColumnRef → Row → Value) (conditions : List JoinCondition)
    (left right : Row) : Bool :=
  conditions.all fun c =>
    let v := leftVal c.leftColumn left
    let w := rightVal c.rightColumn right
    !v.isNull && !w.isNull && valueEq v w

theorem matchKeys_eq_meets (left right : Row) :
    matchKeys keyEq (keyOf leftVal (conditions.map JoinCondition.leftColumn) left)
        (keyOf rightVal (conditions.map JoinCondition.rightColumn) right) =
      meets leftVal rightVal conditions left right := by
  have hzip : ((conditions.map fun c => leftVal c.leftColumn left).zip
      (conditions.map fun c => rightVal c.rightColumn right)).all (fun p => valueEq p.1 p.2) =
      conditions.all fun c => valueEq (leftVal c.leftColumn left) (rightVal c.rightColumn right) := by
    rw [zip_map', all_map]
    rfl
  have hmeets : meets leftVal rightVal conditions left right = true ↔
      (∀ c ∈ conditions, (leftVal c.leftColumn left).isNull = false) ∧
        (∀ c ∈ conditions, (rightVal c.rightColumn right).isNull = false) ∧
          ∀ c ∈ conditions, valueEq (leftVal c.leftColumn left)
            (rightVal c.rightColumn right) = true := by
    simp only [meets, all_eq_true, Bool.and_eq_true, Bool.not_eq_true']
    constructor
    · exact fun h => ⟨fun c hc => (h c hc).1.1, fun c hc => (h c hc).1.2, fun c hc => (h c hc).2⟩
    · exact fun h c hc => ⟨⟨h.1 c hc, h.2.1 c hc⟩, h.2.2 c hc⟩
  rw [Bool.eq_iff_iff, hmeets]
  simp only [keyOf, map_map, Function.comp_def]
  split
  case isTrue hnull =>
    refine iff_of_false (fun h => by cases h) fun h => ?_
    obtain ⟨v, hv, hnull⟩ := any_eq_true.mp hnull
    obtain ⟨c, hc, rfl⟩ := mem_map.mp hv
    rw [h.1 c hc] at hnull
    cases hnull
  case isFalse hleft =>
    split
    case isTrue hnull =>
      refine iff_of_false (fun h => by cases h) fun h => ?_
      obtain ⟨v, hv, hnull⟩ := any_eq_true.mp hnull
      obtain ⟨c, hc, rfl⟩ := mem_map.mp hv
      rw [h.2.1 c hc] at hnull
      cases hnull
    case isFalse hright =>
      simp only [any_map, any_eq_true, not_exists, not_and, Bool.not_eq_true,
        Function.comp_apply] at hleft hright
      simp only [matchKeys, keyEq, length_map, decide_true, Bool.true_and, hzip, all_eq_true]
      exact ⟨fun h => ⟨hleft, hright, h⟩, fun h => h.2.2⟩

variable (hleft : ∀ row ∈ lefts, ∀ c ∈ conditions,
    joinValue leftMap c.leftColumn row = .ok (leftVal c.leftColumn row))
  (hright : ∀ row ∈ rights, ∀ c ∈ conditions,
    joinValue rightMap c.rightColumn row = .ok (rightVal c.rightColumn row))

include hleft hright

/-- **A hash join** is the join of its inputs under its conditions. -/
theorem hashJoinRows_eq (output : Output) :
    hashJoinRows leftMap rightMap conditions output lefts rights =
      .ok (lefts.flatMap fun l =>
        (rights.filter (meets leftVal rightVal conditions l)).map (outputRow output l)) := by
  rw [hashJoinRows, collectKeyed_eq rightVal, collectKeyed_eq leftVal]
  · refine congrArg Except.ok ?_
    rw [lookup_eq_join]
    simp only [matchKeys_eq_meets]
  · simpa using hleft
  · simpa using hright

/-- **A sort-merge join** without floats is the same join, up to the order of the rows. -/
theorem sortMergeJoinRows_perm (output : Output)
    (hkl : ∀ row ∈ lefts, ∀ c ∈ conditions, NotFloat (leftVal c.leftColumn row))
    (hkr : ∀ row ∈ rights, ∀ c ∈ conditions, NotFloat (rightVal c.rightColumn row)) :
    ∃ rows, sortMergeJoinRows leftMap rightMap conditions output lefts rights = .ok rows ∧
      rows.Perm (lefts.flatMap fun l =>
        (rights.filter (meets leftVal rightVal conditions l)).map (outputRow output l)) := by
  have hkl := notFloat_of_mem_keyed leftVal (conditions.map JoinCondition.leftColumn)
    (by simpa using hkl)
  have hkr := notFloat_of_mem_keyed rightVal (conditions.map JoinCondition.rightColumn)
    (by simpa using hkr)
  rw [sortMergeJoinRows, collectKeyed_eq leftVal (by simpa using hleft),
    collectKeyed_eq rightVal (by simpa using hright)]
  refine ⟨_, rfl, ?_⟩
  set left := lefts.filterMap fun row =>
    (keyOf leftVal (conditions.map JoinCondition.leftColumn) row).map (·, row)
  set right := rights.filterMap fun row =>
    (keyOf rightVal (conditions.map JoinCondition.rightColumn) row).map (·, row)
  have hpl := perm_insertionSort (fun a b : List Value × Row => compareJoinKeys a.1 b.1 ≠ .gt) left
  have hpr := perm_insertionSort (fun a b : List Value × Row => compareJoinKeys a.1 b.1 ≠ .gt) right
  rw [mergeJoin_eq (List.map orderCode) (fun _ _ => compareJoinKeys_code) (fun _ _ => keyEq_code)
    (fun x hx => hkl x (hpl.mem_iff.mp hx)) (fun y hy => hkr y (hpr.mem_iff.mp hy))
      (sorted_insertionSort hkl)
    (sorted_insertionSort hkr), map_flatMap]
  simp only [map_map, Function.comp_def]
  refine (hpl.flatMap_right _).trans ?_
  refine (List.Perm.flatMap_left _ fun x _ => (hpr.filter _).map _).trans (List.Perm.of_eq ?_)
  rw [lookup_eq_join]
  simp only [matchKeys_eq_meets]

end conditions

section loop

variable {predicate : Row → Except ExecError Ternary} {holds : Row → Row → Bool}
  {lefts rights : List Row}

theorem zip_map_filter (g : Row → Bool) (p : Bool → Bool) (rows : List Row) :
    ((rows.zip (rows.map g)).filter fun x => p x.2).map Prod.fst = rows.filter fun r => p (g r) := by
  induction rows with
  | nil => rfl
  | cons row rows ih => cases h : p (g row) <;> simp [h, ih]

/-- The loop over the left rows, for right rows of which those with `g` have a partner already. -/
theorem nestedLoop_eq (output : Output) (joinType : NestedLoopJoinType) (g : Row → Bool)
    (h : ∀ l ∈ lefts, ∀ r ∈ rights, selected predicate (l ++ r) = .ok (holds l r)) :
    nestedLoop predicate output joinType rights lefts (rights.map g) =
      .ok (lefts.flatMap (fun l => (rights.filter (holds l)).map (outputRow output l) ++
          if joinType ≠ .inner ∧ !rights.any (holds l) then [paddedRow output (some l) none] else []),
        rights.map fun r => g r || lefts.any (holds · r)) := by
  induction lefts generalizing g with
  | nil => simp [nestedLoop]
  | cons l ls ih =>
    obtain ⟨hl, hls⟩ := forall_mem_cons.mp h
    have hmatched : (rights.map g).zipWith or (rights.map (holds l)) = rights.map fun r =>
      g r || holds l r := by
      rw [zipWith_map, zipWith_self]
    have hpairs : ((rights.zip (rights.map (holds l))).filter Prod.snd).map
      (fun p => outputRow output l p.1) =
        (rights.filter (holds l)).map (outputRow output l) := by
      have hfilter := congrArg (List.map (outputRow output l)) (zip_map_filter (holds l) id rights)
      rwa [map_map] at hfilter
    rw [nestedLoop, mapM_eq_map hl]
    simp only [bind, Except.bind, hmatched, ih _ hls, hpairs, any_map, Function.comp_def, id, pure,
      Except.pure, flatMap_cons, any_cons, Bool.or_assoc]

/-- What a nested loop puts out, for right rows of which those with `g` have a partner already. -/
def loopRows (output : Output) (joinType : NestedLoopJoinType) (holds : Row → Row → Bool)
    (g : Row → Bool) (lefts rights : List Row) : List Row :=
  lefts.flatMap (fun l => (rights.filter (holds l)).map (outputRow output l) ++
      if joinType ≠ .inner ∧ !rights.any (holds l) then [paddedRow output (some l) none] else []) ++
    if joinType = .full then
      (rights.filter fun r => !(g r || lefts.any (holds · r))).map fun r =>
        paddedRow output none (some r)
    else []

/-- The join of the inputs that it is up to the order of the rows. -/
def joinRows (output : Output) (l r : Bool) (holds : Row → Row → Bool) : List Row → List Row →
    List Row :=
  joinLists l r holds (outputRow output) (fun l => paddedRow output (some l) none) fun r =>
  paddedRow output none (some r)

theorem loopRows_perm (output : Output) (joinType : NestedLoopJoinType) (holds : Row → Row → Bool)
    (lefts rights : List Row) : (loopRows output joinType holds (fun _ => false) lefts rights).Perm
      (joinRows output (joinType ≠ .inner) (joinType = .full) holds lefts rights) := by
  rw [loopRows, joinRows, joinLists, ← append_assoc]
  refine .append ((flatMap_append_perm _ _ _).symm.trans (.append (.refl _) (.of_eq ?_))) (.of_eq ?_)
  · by_cases htype : joinType = .inner
    · simp [htype]
    · simp only [htype, ne_eq, not_false_eq_true, true_and, decide_true, if_true]
      induction lefts with
      | nil => rfl
      | cons l ls ih =>
        rw [flatMap_cons, ih, filter_cons]
        split <;> rfl
  · simp

/-- With the inputs and the sides of the output exchanged. -/
theorem joinRows_flip (l r : Bool) (output : Output) (holds : Row → Row → Bool)
    (lefts rights : List Row) :
    (joinRows (output.map fun o => (o.1, o.2.flip)) l r holds lefts rights).Perm
      (joinRows output r l (fun r l => holds l r) rights lefts) := by
  set flipped := output.map fun o => (o.1, o.2.flip) with hflipped
  have hout : outputRow flipped = fun l r => outputRow output r l := by
    funext l r
    simp only [hflipped, outputRow, map_map]
    refine map_congr_left fun o _ => ?_
    obtain ⟨o, _ | _⟩ := o <;> rfl
  have hpad (l r : Option Row) : paddedRow flipped l r = paddedRow output r l := by
    simp only [hflipped, paddedRow, map_map]
    refine map_congr_left fun o _ => ?_
    obtain ⟨o, _ | _⟩ := o <;> rfl
  simp only [joinRows, hout, hpad]
  exact joinLists_swap _ _

theorem nestedLoopJoinRows_eq (output : Output) (joinType : NestedLoopJoinType)
    (h : ∀ l ∈ lefts, ∀ r ∈ rights, selected predicate (l ++ r) = .ok (holds l r)) :
    nestedLoopJoinRows predicate output joinType lefts rights =
      .ok (loopRows output joinType holds (fun _ => false) lefts rights) := by
  rw [nestedLoopJoinRows, nestedLoop_eq output joinType _ h]
  by_cases htype : joinType = .full
  · simp [bind, Except.bind, pure, Except.pure, htype, loopRows,
      zip_map_filter (fun r => lefts.any (holds · r)) (! ·)]
  · simp [bind, Except.bind, pure, Except.pure, htype, loopRows]

end loop

end RTsql.Executor

import RTsql.Storage.SecondaryRange
import Mathlib.Data.List.Sort

/-!
# Routing a predicate to a secondary index

`route_secondary_index` of the planner. A conjunction of comparisons of columns with literals is
taken apart into atoms. An index explains it when the atoms are about a beginning of its columns,
all but the last of which have one value; the route is then a lookup of a key, or a scan of a range
of keys. Rows without a key are not in the index: when there can be some that satisfy the predicate,
the route also looks for them in the table.

Names of tables and columns are as `to_lowercase` has them, so that comparing them without regard to
the case of ASCII letters is comparing them. -/

namespace RTsql.Parser

open RTsql.Storage RTsql.Executor

/-! ### Expressions -/

/-- `PlanError`. -/
inductive PlanError where
  | parseError (message : String)
  | unsupportedValue
  | unsupportedExpression (what : String)
  | columnNotFound (name : String)
  | value (e : ValueError)
  deriving DecidableEq, Repr

/-- A literal: what `value_from_sqlparser` makes of it, or a placeholder, which has no value yet. -/
inductive Literal where
  | value (v : Value)
  | invalid (e : PlanError)
  | placeholder
  deriving DecidableEq, Repr

inductive BinaryOperator where
  | and
  | or
  | eq
  | notEq
  | gt
  | lt
  | gtEq
  | ltEq
  | arithmetic
  deriving DecidableEq, Repr

/-- The expressions of a `WHERE` clause that the planner looks into. -/
inductive Expr where
  | identifier (name : String)
  | value (l : Literal)
  | minus (e : Expr)
  | nested (e : Expr)
  | binaryOp (left : Expr) (op : BinaryOperator) (right : Expr)
  | between (e : Expr) (negated : Bool) (low high : Expr)
  | other
  deriving Repr

/-- `value_from_sqlparser`. -/
def valueFromSqlparser : Literal → Except PlanError Value
  | .value v => .ok v
  | .invalid e => .error e
  | .placeholder => .error .unsupportedValue

/-- The negation of a literal. -/
def negate : Value → Option Value
  | .int n => some (.int (-n))
  | .float bits => some (.float (-Float.ofBits bits).toBits)
  | _ => none

/-- `convert_comparison_op`. -/
def convertComparisonOp : BinaryOperator → Option ComparisonOp
  | .eq => some .eq
  | .notEq => some .ne
  | .gt => some .gt
  | .lt => some .lt
  | .gtEq => some .ge
  | .ltEq => some .le
  | .and | .or | .arithmetic => none

section Evaluate

variable (columns : List String) (row : Row)

/-- The value of an operand: `build_expression`, and the evaluation of what it builds. An identifier
`null` is the constant. -/
def evaluateOperand : Expr → Except PlanError Value
  | .identifier name =>
    if name = "null" then .ok .null
    else
      match (columns.idxOf? name).bind (row[·]?) with
      | some v => .ok v
      | none => .error (.columnNotFound name)
  | .value l => valueFromSqlparser l
  | .minus e => do
    match negate (← evaluateOperand e) with
    | some v => .ok v
    | none => .error .unsupportedValue
  | .nested e => evaluateOperand e
  | .binaryOp .. | .between .. | .other => .error (.unsupportedExpression "EXPRESSION")

/-- A comparison. -/
def evaluateComparison (left : Expr) (op : ComparisonOp) (right : Expr) : Except PlanError Ternary := do
  let l ← evaluateOperand columns row left
  let r ← evaluateOperand columns row right
  (op.evaluate l r).mapError .value

/-- The value of a predicate: `build_where`, and the evaluation of what it builds. -/
def evaluateWhere : Expr → Except PlanError Ternary
  | .binaryOp left .and right => Ternary.and (evaluateWhere left) (evaluateWhere right)
  | .binaryOp left .or right => Ternary.or (evaluateWhere left) (evaluateWhere right)
  | .binaryOp left op right =>
    match convertComparisonOp op with
    | some op => evaluateComparison columns row left op right
    | none => .error (.unsupportedExpression "COMPARISON OPERATOR")
  | .nested e => evaluateWhere e
  | .between e negated low high =>
    let between := Ternary.and (evaluateComparison columns row e .ge low)
      (evaluateComparison columns row e .le high)
    if negated then Ternary.not <$> between else between
  | .identifier _ | .value _ | .minus _ | .other => .error (.unsupportedExpression "PREDICATE")

/-- The row is selected. -/
def satisfies (e : Expr) : Bool :=
  match evaluateWhere columns row e with
  | .ok .true => true
  | _ => false

end Evaluate

/-! ### Atoms -/

/-- `AtomKind`. -/
inductive AtomKind where
  | eq (value : Value)
  | lower (mark : BoundMark)
  | upper (mark : BoundMark)
  deriving DecidableEq, Repr

/-- `Atom`: a condition on one column. -/
structure Atom where
  column : String
  kind : AtomKind
  deriving DecidableEq, Repr

/-- `peel`. -/
def peel : Expr → Expr
  | .nested e => peel e
  | e => e

/-- `bare_column`. -/
def bareColumn (e : Expr) : Option String :=
  match peel e with
  | .identifier name => some name
  | _ => none

/-- `endpoint_value`: an unary minus is taken only where the caller allows it. -/
def endpointValue (e : Expr) (allowUnary : Bool) : Except PlanError (Option Value) :=
  match peel e with
  | .value .placeholder => .ok none
  | .value l => some <$> valueFromSqlparser l
  | .minus inner =>
    if allowUnary then
      match peel inner with
      | .value .placeholder => .ok none
      | .value l => negate <$> valueFromSqlparser l
      | _ => .ok none
    else .ok none
  | _ => .ok none

/-- The kind of a comparison with the column on the left, or on the right. -/
def atomKind (op : BinaryOperator) (columnOnLeft : Bool) : Option (Value → AtomKind) :=
  match op, columnOnLeft with
  | .eq, _ => some .eq
  | .gt, true | .lt, false => some fun value => .lower ⟨value, false⟩
  | .gtEq, true | .ltEq, false => some fun value => .lower ⟨value, true⟩
  | .lt, true | .gt, false => some fun value => .upper ⟨value, false⟩
  | .ltEq, true | .gtEq, false => some fun value => .upper ⟨value, true⟩
  | _, _ => none

def columnAtom (column : String) (op : BinaryOperator) (columnOnLeft : Bool) (literal : Expr) :
    Except PlanError (Option Atom) :=
  match atomKind op columnOnLeft with
  | some kind => (Option.map fun value => ⟨column, kind value⟩) <$> endpointValue literal (op ≠ .eq)
  | none => .ok none

/-- `comparison_atom`. -/
def comparisonAtom (e : Expr) : Except PlanError (Option Atom) :=
  match peel e with
  | .binaryOp left op right =>
    match bareColumn left, bareColumn right with
    | some column, none => columnAtom column op true right
    | none, some column => columnAtom column op false left
    | _, _ => .ok none
  | _ => .ok none

/-- `predicate_atom`. -/
def predicateAtom (e : Expr) : Except PlanError (Option (List Atom)) :=
  match peel e with
  | .between e negated low high =>
    if negated then .ok none
    else
      match bareColumn e with
      | none => .ok none
      | some column => do
        let some low ← endpointValue low true | .ok none
        let some high ← endpointValue high true | .ok none
        .ok (some [⟨column, .lower ⟨low, true⟩⟩, ⟨column, .upper ⟨high, true⟩⟩])
  | e => (Option.map fun atom => [atom]) <$> comparisonAtom e

/-- `conjunction`: the terms of the predicate. -/
def conjunction : Expr → List Expr
  | .nested e => conjunction e
  | .binaryOp left .and right => conjunction left ++ conjunction right
  | e => [e]

/-- The loop of `predicate_atoms`. -/
def collectAtoms : List Expr → Except PlanError (Option (List Atom))
  | [] => .ok (some [])
  | term :: terms => do
    let some atoms ← predicateAtom term | .ok none
    let some rest ← collectAtoms terms | .ok none
    .ok (some (atoms ++ rest))

/-- `predicate_atoms`. -/
def predicateAtoms (e : Expr) : Except PlanError (Option (List Atom)) := do
  match ← collectAtoms (conjunction e) with
  | some [] => .ok none
  | atoms => .ok atoms

/-! ### Explaining the atoms by an index -/

/-- `SecondaryIndexRegistration`. -/
structure SecondaryIndexRegistration where
  name : String
  generation : ℕ
  columns : List String
  deriving DecidableEq, Repr

/-- `ColumnAtoms`: the atoms about one column. -/
structure ColumnAtoms where
  eqs : List Value
  lowers : List BoundMark
  uppers : List BoundMark
  deriving DecidableEq, Repr

/-- `MergedColumn`, which is what the bounds are made of. -/
abbrev MergedColumn := IndexColumnBound

/-- `SecondaryRoute`. -/
inductive SecondaryRoute where
  | equality (indexName : String) (key : Key)
  | range (indexName : String) (bounds : SecondaryRangeBounds) (omittedScan : Bool)
    (indexColumnIndexes : List ℕ)
      (indexColumnTypes : List ColumnType) (generation : ℕ)
  deriving DecidableEq, Repr

/-- `IndexCandidate`. -/
structure IndexCandidate where
  prefixLen : ℕ
  omitted : Bool
  ord : ℕ
  route : SecondaryRoute

/-- `needs_omitted_scan`. -/
def needsOmittedScan (generation : ℕ) (types : List ColumnType) : Bool :=
  !(generation = 1 && types.length ≤ 4 && types.all (· = .int))

def isStringType : ColumnType → Bool
  | .string _ => true
  | _ => false

/-- `range_order_usable`. -/
def rangeOrderUsable (generation : ℕ) (types : List ColumnType) : Bool :=
  if generation = 0 then types.all isStringType else generation = 1

/-- `bound_sentinel`. -/
def boundSentinel (types : List ColumnType) (values : Row) (mark : BoundMark) (lower : Bool) :
    Option RangeSentinel := do
  let bounds ← secondaryRangeBounds types (values.map .eq ++
    [.range (if lower then some mark else none) (if lower then none else some mark)])
  if lower then bounds.lower else bounds.upper

/-- The sentinel is stricter than the best one so far. -/
def replaces (lower : Bool) (sentinel best : RangeSentinel) : Bool :=
  if best.key < sentinel.key then lower
  else if sentinel.key < best.key then !lower
  else !sentinel.inclusive && best.inclusive

/-- The loop of `strictest`. -/
def strictestFrom (types : List ColumnType) (values : Row) (lower : Bool) (bestMark : BoundMark)
    (best : RangeSentinel) : List BoundMark → Option BoundMark
  | [] => some bestMark
  | mark :: marks => do
    let sentinel ← boundSentinel types values mark lower
    if replaces lower sentinel best then strictestFrom types values lower mark sentinel marks
    else strictestFrom types values lower bestMark best marks

/-- `strictest`. -/
def strictest (types : List ColumnType) (values : Row) (lower : Bool) : List BoundMark →
    Option (Option BoundMark)
  | [] => some none
  | mark :: marks => do
    let best ← boundSentinel types values mark lower
    some <$> strictestFrom types values lower mark best marks

/-- `merge_column`. -/
def mergeColumn (types : List ColumnType) (values : Row) (raw : ColumnAtoms) : Option MergedColumn := do
  let marks : List BoundMark := raw.eqs.map (⟨·, true⟩)
  let lower ← strictest types values true (raw.lowers ++ marks)
  let upper ← strictest types values false (raw.uppers ++ marks)
  match lower, upper with
  | some l, some u =>
    if l.inclusive ∧ u.inclusive ∧ l.value = u.value then some (.eq l.value)
    else some (.range lower upper)
  | _, _ => some (.range lower upper)

/-- The loop of `explain_index` over the columns that have atoms: only the last one may be a
range. -/
def mergeColumns (types : List ColumnType) (values : Row) : List ColumnAtoms →
    Option (List IndexColumnBound)
  | [] => some []
  | slot :: slots => do
    match ← mergeColumn types values slot with
    | .eq value => (.eq value :: ·) <$> mergeColumns types (values ++ [value]) slots
    | .range lower upper => if slots = [] then some [.range lower upper] else none

def ColumnAtoms.push (slot : ColumnAtoms) : AtomKind → ColumnAtoms
  | .eq value => { slot with eqs := slot.eqs ++ [value] }
  | .lower mark => { slot with lowers := slot.lowers ++ [mark] }
  | .upper mark => { slot with uppers := slot.uppers ++ [mark] }

/-- An atom goes to its column, which has to be one of the index. -/
def placeAtom (columns : List String) (slots : List (Option ColumnAtoms)) (atom : Atom) :
    Option (List (Option ColumnAtoms)) := do
  let position ← columns.idxOf? atom.column
  some (slots.modify position fun slot => some ((slot.getD ⟨[], [], []⟩).push atom.kind))

/-- Where the columns of the index are in the table, and their types. -/
def resolveColumns (tableColumns : List String) (tableTypes : List ColumnType) (columns : List String) :
    Option (List (ℕ × ColumnType)) :=
  columns.mapM fun name => do
    let position ← tableColumns.idxOf? name
    let type ← tableTypes[position]?
    some (position, type)

/-- `explain_index`. -/
def explainIndex (tableColumns : List String) (tableTypes : List ColumnType) (ord : ℕ)
    (index : SecondaryIndexRegistration) (atoms : List Atom) : Option IndexCandidate := do
  let resolved ← resolveColumns tableColumns tableTypes index.columns
  let positions := resolved.map Prod.fst
  let types := resolved.map Prod.snd
  let byPos ← atoms.foldlM (placeAtom index.columns) (List.replicate index.columns.length none)
  let slots ← (byPos.rdropWhile Option.isNone).mapM id
  if slots = [] then none
  let bounds ← mergeColumns types [] slots
  if bounds.length = types.length ∧ bounds.all (·.value?.isSome) then
    let key ← deriveSecondaryIndexKey types (bounds.filterMap IndexColumnBound.value?) index.generation
    some ⟨bounds.length, false, ord, .equality index.name (Key.new key)⟩
  else if ¬ rangeOrderUsable index.generation types then none
  else
    let sentinels ← secondaryRangeBounds types bounds
    let omitted := needsOmittedScan index.generation types
    some ⟨bounds.length, omitted, ord,
      .range index.name sentinels omitted positions types index.generation⟩

/-- The order of the candidates: longer beginnings first, then those that need no scan, then older
indexes. -/
def IndexCandidate.Before (a b : IndexCandidate) : Prop :=
  b.prefixLen < a.prefixLen ∨ a.prefixLen = b.prefixLen ∧
    (a.omitted < b.omitted ∨ a.omitted = b.omitted ∧ a.ord ≤ b.ord)

instance : DecidableRel IndexCandidate.Before := fun a b =>
  inferInstanceAs (Decidable (b.prefixLen < a.prefixLen ∨ a.prefixLen = b.prefixLen ∧
    (a.omitted < b.omitted ∨ a.omitted = b.omitted ∧ a.ord ≤ b.ord)))

/-- What the planner knows of the tables. -/
structure PlanBuilder where
  tables : String → Option (List String)
  tableColumnTypes : String → Option (List ColumnType)
  tableSecondaryIndexes : String → Option (List SecondaryIndexRegistration)

/-- `route_secondary_index`. -/
def PlanBuilder.routeSecondaryIndex (b : PlanBuilder) (table : String) (e : Expr) :
    Except PlanError (Option SecondaryRoute) :=
  match b.tableSecondaryIndexes table with
  | none => .ok none
  | some indexes => do
    let some atoms ← predicateAtoms e | .ok none
    let some tableColumns := b.tables table | .ok none
    let some tableTypes := b.tableColumnTypes table | .ok none
    let candidates := indexes.zipIdx.filterMap fun (index, ord) =>
      explainIndex tableColumns tableTypes ord index atoms
    .ok ((candidates.insertionSort IndexCandidate.Before).head?.map IndexCandidate.route)

/-! ### The rows of a route -/

/-- The key of the row in the index, if it has one. -/
def indexKey (tableColumns : List String) (tableTypes : List ColumnType)
    (index : SecondaryIndexRegistration) (row : Row) : Option Key := do
  let resolved ← resolveColumns tableColumns tableTypes index.columns
  let values ← (resolved.map Prod.fst).mapM (row[·]?)
  let key ← deriveSecondaryIndexKey (resolved.map Prod.snd) values index.generation
  some (Key.new key)

/-- The index that the route reads. -/
def SecondaryRoute.indexName : SecondaryRoute → String
  | .equality name _ | .range name .. => name

/-- The route looks for the rows without a key in the table. -/
def SecondaryRoute.omittedScan : SecondaryRoute → Bool
  | .equality .. => false
  | .range _ _ omitted .. => omitted

/-- The row is among those that the route reads: from the index, or from the table if it has no
key. -/
def SecondaryRoute.selects (tableColumns : List String) (tableTypes : List ColumnType)
    (indexes : List SecondaryIndexRegistration) (e : Expr) (row : Row) : SecondaryRoute → Bool
  | .equality name key =>
    match indexes.find? (·.name = name) with
    | some index => indexKey tableColumns tableTypes index row = some key
    | none => false
  | .range name bounds omitted positions types generation =>
    (match indexes.find? (·.name = name) with
      | some index => (indexKey tableColumns tableTypes index row).any bounds.contains
      | none => false) ||
    (omitted &&
      (match positions.mapM (row[·]?) with
        | some values => (deriveSecondaryIndexKey types values generation).isNone
        | none => false) &&
      satisfies tableColumns row e)

end RTsql.Parser

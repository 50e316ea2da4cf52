import RTsql.Executor.Joins

/-!
# `ON` conditions

The condition of a nested loop, over the columns of the combined row: comparisons of columns and of
what is computed from columns, joined by `AND`, `OR` and `NOT`. -/

namespace RTsql.Parser

open RTsql.Executor RTsql.Storage

variable {κ : Type}

/-- An operand of a comparison: a column, or what is computed from the values of some. -/
inductive Operand (κ : Type) where
  | column (c : κ)
  | computed (columns : List κ) (f : List Value → Except ExecError Value)

/-- An `ON` condition over columns given as `κ`. -/
inductive OnExpr (κ : Type) where
  | compare (op : ComparisonOp) (left right : Operand κ)
  | and (left right : OnExpr κ)
  | or (left right : OnExpr κ)
  | not (e : OnExpr κ)
  | nested (e : OnExpr κ)
  | constant (value : Bool)
  /-- A predicate of another form, by what it computes from the values of its columns. -/
  | test (columns : List κ) (f : List Value → Except ExecError Ternary)

def Operand.eval (value : κ → Except ExecError Value) : Operand κ → Except ExecError Value
  | .column c => value c
  | .computed columns f => columns.mapM value >>= f

/-- What a condition is for given values of its columns. -/
def OnExpr.eval (value : κ → Except ExecError Value) : OnExpr κ → Except ExecError Ternary
  | .compare op left right => do
    let v ← left.eval value
    let w ← right.eval value
    (op.evaluate v w).mapError .value
  | .and left right => Ternary.and (left.eval value) (right.eval value)
  | .or left right => Ternary.or (left.eval value) (right.eval value)
  | .not e => Ternary.not <$> e.eval value
  | .nested e => e.eval value
  | .constant b => .ok (Ternary.ofBool b)
  | .test columns f => columns.mapM value >>= f

/-- `ColumnExpression::evaluate_ref`. -/
def columnAt (row : Row) (index : ℕ) : Except ExecError Value :=
  match row[index]? with
  | some v => .ok v
  | none => .error (.columnOutOfBounds index row.length)

end RTsql.Parser

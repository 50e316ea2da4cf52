import RTsql.Parser.Conditions
import RTsql.Library.Except
import Mathlib.Algebra.Order.Ring.Int

/-!
# Integer arithmetic

`BinaryArithExpression` with `Value::add` and `Value::div`, and the part of `build_expression` that
makes them. The operators `+`, `-` and `*` of an `i64` are unchecked: where a result does not fit, a
build with overflow checks panics and one without wraps around. The division `i64::MIN / -1` panics
in every build. Where the exact results of the operations that are reached fit, an expression has
its exact value, and only there has it that in every build. -/

namespace RTsql.Parser

open RTsql.Executor RTsql.Library RTsql.Storage

/-- `ArithOp`. -/
inductive ArithOp where
  | add
  | sub
  | mul
  | div

/-- The operators on floats. -/
def ArithOp.floats (a b : Float) : ArithOp → Value
  | .add => .float (a + b).toBits
  | .sub => .float (a - b).toBits
  | .mul => .float (a * b).toBits
  | .div => if b == 0 then .null else .float (a / b).toBits

/-- An integer result, given exactly and as the machine has it. With `checks` a result that does not
fit is a panic. -/
def intResult (checks : Bool) (exact : ℤ) (machine : Int64) : Except ExecError Value :=
  if checks && machine.toInt ≠ exact then .error .panicked else .ok (.int machine)

/-- `BinaryArithExpression::eval`, in a build with or without overflow checks. -/
def ArithOp.eval (checks : Bool) (op : ArithOp) : Value → Value → Except ExecError Value
  | .null, _ | _, .null => .ok .null
  | .int a, .int b =>
    match op with
    | .add => intResult checks (a.toInt + b.toInt) (a + b)
    | .sub => intResult checks (a.toInt - b.toInt) (a - b)
    | .mul => intResult checks (a.toInt * b.toInt) (a * b)
    | .div => if b = 0 then .ok .null else intResult true (a.toInt.tdiv b.toInt) (a / b)
  | .float a, .float b => .ok (op.floats (.ofBits a) (.ofBits b))
  | .int a, .float b => .ok (op.floats a.toFloat (.ofBits b))
  | .float a, .int b => .ok (op.floats (.ofBits a) b.toFloat)
  | _, _ => .error (.value .typeMismatch)

/-- `ColumnExpression`, `ConstantExpression` and `BinaryArithExpression`. -/
inductive ArithExpr where
  | column (index : ℕ)
  | constant (value : Value)
  | arith (left : ArithExpr) (op : ArithOp) (right : ArithExpr)

/-- `Expression::evaluate`. -/
def ArithExpr.evaluate (checks : Bool) (row : Row) : ArithExpr → Except ExecError Value
  | .column index => columnAt row index
  | .constant value => .ok value
  | .arith left op right => do
    let l ← left.evaluate checks row
    let r ← right.evaluate checks row
    op.eval checks l r

/-- An integer expression as it is written, with its columns by their positions. A literal has no
sign. -/
inductive IntExpr where
  | column (index : ℕ)
  | literal (n : ℕ) (fits : n < 2 ^ 63)
  | minus (e : IntExpr)
  | arith (left : IntExpr) (op : ArithOp) (right : IntExpr)

/-- `build_expression`: the operand of a minus sign must be a literal. -/
def IntExpr.build : IntExpr → Option ArithExpr
  | .column index => some (.column index)
  | .literal n _ => some (.constant (.int (.ofNat n)))
  | .minus (.literal n _) => some (.constant (.int (-.ofNat n)))
  | .minus _ => none
  | .arith left op right => do
    let l ← left.build
    let r ← right.build
    pure (.arith l op r)

/-! ### Exact values -/

def ArithOp.exact (a b : ℤ) : ArithOp → Option ℤ
  | .add => some (a + b)
  | .sub => some (a - b)
  | .mul => some (a * b)
  | .div => if b = 0 then none else some (a.tdiv b)

/-- The integer that a value is. -/
def intValue : Value → Option ℤ
  | .int n => some n.toInt
  | _ => none

/-- The exact value of an expression; without one it is `NULL`. -/
def IntExpr.exact (row : Row) : IntExpr → Option ℤ
  | .column index => row[index]?.bind intValue
  | .literal n _ => some n
  | .minus e => (-·) <$> e.exact row
  | .arith left op right => do
    let a ← left.exact row
    let b ← right.exact row
    op.exact a b

/-- The columns of an expression are in the row. -/
def IntExpr.InRow (row : Row) : IntExpr → Prop
  | .column index => index < row.length
  | .literal _ _ => True
  | .minus e => e.InRow row
  | .arith left _ right => left.InRow row ∧ right.InRow row

/-- The exact values of all operations that are reached are in the range of an `i64`. Behind a
column that is not in the row nothing is. -/
def IntExpr.Fits (row : Row) : IntExpr → Prop
  | .column _ | .literal _ _ => True
  | .minus e => e.Fits row
  | .arith left op right => left.Fits row ∧ (left.InRow row → right.Fits row) ∧
    ∀ n, (IntExpr.arith left op right).exact row = some n → -2 ^ 63 ≤ n ∧ n < 2 ^ 63

/-- The outcome is the exact value, `NULL` where there is none, or an error; the process does not
abort. -/
def ExactOrError (exact : Option ℤ) : Except ExecError Value → Prop
  | .ok v => v.hasType .int = true ∧ intValue v = exact
  | .error e => e ≠ .panicked

/-- On integers an operation is its machine result, or `NULL` where there is no exact one. -/
theorem ArithOp.eval_int (op : ArithOp) (a b : Int64) (checks : Bool) :
    (op.exact a.toInt b.toInt = none → op.eval checks (.int a) (.int b) = .ok .null) ∧
      ∀ n, op.exact a.toInt b.toInt = some n → ∃ machine : Int64, machine.toInt = n.bmod (2 ^ 64) ∧
        ∃ checks', (checks = true → checks' = true) ∧
        op.eval checks (.int a) (.int b) = intResult checks' n machine := by
  cases op with
  | add => exact ⟨by simp [exact], by rintro n ⟨⟩; exact ⟨a + b, Int64.toInt_add a b, checks, id, rfl⟩⟩
  | sub => exact ⟨by simp [exact], by rintro n ⟨⟩; exact ⟨a - b, Int64.toInt_sub a b, checks, id, rfl⟩⟩
  | mul => exact ⟨by simp [exact], by rintro n ⟨⟩; exact ⟨a * b, Int64.toInt_mul a b, checks, id, rfl⟩⟩
  | div =>
    have hzero : b = 0 ↔ b.toInt = 0 := Int64.toInt_inj.symm
    by_cases hb : b.toInt = 0
    · simp [eval, exact, hzero, hb]
    · simp only [exact, hb, if_false, reduceCtorEq, false_imp_iff, Option.some.injEq, true_and]
      rintro n rfl
      exact ⟨a / b, Int64.toInt_div a b, true, fun _ => rfl, by simp [eval, hzero, hb]⟩

/-- A machine result is the exact one if that fits, and with checks a panic if not. -/
theorem intResult_eq {exact : ℤ} {machine : Int64} (hmachine : machine.toInt = exact.bmod (2 ^ 64)) :
    (-2 ^ 63 ≤ exact ∧ exact < 2 ^ 63 → ∀ checks, intResult checks exact machine = .ok (.int machine) ∧
        machine.toInt = exact) ∧
      (¬ (-2 ^ 63 ≤ exact ∧ exact < 2 ^ 63) → intResult true exact machine = .error .panicked) := by
  constructor
  · intro h checks
    have heq : machine.toInt = exact := by
      rw [hmachine]
      exact Int.bmod_eq_of_le (by omega) (by omega)
    exact ⟨by simp [intResult, heq], heq⟩
  · intro h
    have hne : machine.toInt ≠ exact := by
      rintro rfl
      exact h ⟨machine.le_toInt, machine.toInt_lt⟩
    simp [intResult, hne]

/-- One operation on integers or `NULL`. -/
theorem ArithOp.eval_spec {op : ArithOp} {v w : Value} (hv : v.hasType .int = true)
    (hw : w.hasType .int = true) :
    ((∀ n, (do op.exact (← intValue v) (← intValue w)) = some n → -2 ^ 63 ≤ n ∧ n < 2 ^ 63) → ∀ checks,
        ∃ u, op.eval checks v w = .ok u ∧ u.hasType .int = true ∧
          intValue u = do op.exact (← intValue v) (← intValue w)) ∧
      ∀ n, (do op.exact (← intValue v) (← intValue w)) = some n → ¬ (-2 ^ 63 ≤ n ∧ n < 2 ^ 63) →
        op.eval true v w = .error .panicked := by
  cases v with
  | null => exact ⟨fun _ _ => ⟨.null, by cases w <;> rfl, rfl, rfl⟩, by simp [intValue]⟩
  | int a =>
    cases w with
    | null => exact ⟨fun _ _ => ⟨.null, rfl, rfl, rfl⟩, by simp [intValue]⟩
    | int b =>
      show ((∀ n, op.exact a.toInt b.toInt = some n → _) → ∀ checks, ∃ u, _ ∧ _ ∧
        intValue u = op.exact a.toInt b.toInt) ∧ ∀ n, op.exact a.toInt b.toInt = some n → _
      refine ⟨fun h checks => ?_, fun n hn h => ?_⟩
      · cases hn : op.exact a.toInt b.toInt with
        | none => exact ⟨.null, (op.eval_int a b checks).1 hn, rfl, rfl⟩
        | some n =>
          obtain ⟨m, hm, checks', -, heval⟩ := (op.eval_int a b checks).2 n hn
          obtain ⟨hok, heq⟩ := (intResult_eq hm).1 (h n hn) checks'
          exact ⟨.int m, heval.trans hok, rfl, congrArg some heq⟩
      · obtain ⟨m, hm, checks', htrue, heval⟩ := (op.eval_int a b true).2 n hn
        rw [heval, htrue rfl]
        exact (intResult_eq hm).2 h
    | _ => cases hw
  | _ => cases hv

section

variable {row : Row} {e : IntExpr} {c : ArithExpr}

/-- The parts of an operation that `build_expression` has made. -/
theorem IntExpr.build_arith {left right : IntExpr} {op : ArithOp}
    (h : (IntExpr.arith left op right).build = some c) :
    ∃ l, left.build = some l ∧ ∃ r, right.build = some r ∧ ArithExpr.arith l op r = c := by
  simpa [IntExpr.build, Option.bind_eq_some_iff] using h

theorem IntExpr.inRow_of_exact {n : ℤ} (h : e.exact row = some n) : e.InRow row := by
  induction e generalizing n with
  | column index =>
    obtain ⟨v, hv, -⟩ := Option.bind_eq_some_iff.mp h
    exact (List.getElem?_eq_some_iff.mp hv).1
  | literal => trivial
  | minus e ih =>
    obtain ⟨m, hm, -⟩ := Option.map_eq_some_iff.mp h
    exact ih hm
  | arith left op right ihl ihr =>
    obtain ⟨a, ha, h⟩ := Option.bind_eq_some_iff.mp h
    obtain ⟨b, hb, -⟩ := Option.bind_eq_some_iff.mp h
    exact ⟨ihl ha, ihr hb⟩

/-- Where the results fit, the value is exact; without a column of the row there is an error. -/
theorem evaluate_of_fits (hrow : ∀ v ∈ row, v.hasType .int = true) (hfits : e.Fits row)
    (hbuild : e.build = some c) (checks : Bool) :
    (e.InRow row ∧ ∃ v, c.evaluate checks row = .ok v ∧ v.hasType .int = true ∧
      intValue v = e.exact row) ∨
      (¬ e.InRow row ∧ ∃ err, c.evaluate checks row = .error err ∧ err ≠ .panicked) := by
  induction e generalizing c with
  | column index =>
    cases hbuild
    rw [ArithExpr.evaluate, columnAt, IntExpr.exact, IntExpr.InRow]
    cases h : row[index]? with
    | none => exact .inr ⟨by simpa using h, _, rfl, by simp⟩
    | some v => exact .inl ⟨(List.getElem?_eq_some_iff.mp h).1, v, rfl, hrow v (List.mem_of_getElem? h), rfl⟩
  | literal n hn =>
    cases hbuild
    exact .inl ⟨trivial, _, rfl, rfl, congrArg some (Int64.toInt_ofNat_of_lt hn)⟩
  | minus e =>
    cases e with
    | literal n hn =>
      cases hbuild
      refine .inl ⟨trivial, _, rfl, rfl, congrArg some ?_⟩
      rw [Int64.toInt_neg, Int64.toInt_ofNat_of_lt hn]
      exact Int.bmod_eq_of_le (by omega) (by omega)
    | _ => cases hbuild
  | arith left op right ihl ihr =>
    obtain ⟨hfl, hfr, hfits⟩ := hfits
    obtain ⟨l, hl, r, hr, rfl⟩ := IntExpr.build_arith hbuild
    obtain ⟨hin, v, hv, hvt, hvx⟩ | ⟨hout, err, herr, hne⟩ := ihl hfl hl
    · obtain ⟨hinr, w, hw, hwt, hwx⟩ | ⟨hout, err, herr, hne⟩ := ihr (hfr hin) hr
      · obtain ⟨u, hu, hut, hux⟩ :=
          (ArithOp.eval_spec hvt hwt).1 (by simpa [IntExpr.exact, hvx, hwx] using hfits) checks
        exact .inl ⟨⟨hin, hinr⟩, u, by simp [ArithExpr.evaluate, hv, hw, hu, bind, Except.bind], hut,
          by rw [hux, IntExpr.exact, hvx, hwx]⟩
      · exact .inr ⟨fun h => hout h.2, err, by
          simp [ArithExpr.evaluate, hv, herr, bind, Except.bind], hne⟩
    · exact .inr ⟨fun h => hout h.1, err, by simp [ArithExpr.evaluate, herr, bind, Except.bind], hne⟩

/-- Where a result does not fit, a build with checks panics. -/
theorem evaluate_of_not_fits (hrow : ∀ v ∈ row, v.hasType .int = true) (hfits : ¬ e.Fits row)
    (hbuild : e.build = some c) : c.evaluate true row = .error .panicked := by
  induction e generalizing c with
  | column | literal => exact absurd trivial hfits
  | minus e =>
    cases e with
    | literal => exact absurd trivial hfits
    | _ => cases hbuild
  | arith left op right ihl ihr =>
    obtain ⟨l, hl, r, hr, rfl⟩ := IntExpr.build_arith hbuild
    by_cases hfl : left.Fits row
    swap
    · simp [ArithExpr.evaluate, ihl hfl hl, bind, Except.bind]
    -- else the left operand has a value, since behind an error nothing is reached
    have hin : left.InRow row := by
      by_contra hout
      refine hfits ⟨hfl, fun hin => absurd hin hout, fun n hn => ?_⟩
      obtain ⟨a, ha, -⟩ := Option.bind_eq_some_iff.mp hn
      exact absurd (IntExpr.inRow_of_exact ha) hout
    obtain ⟨-, v, hv, hvt, hvx⟩ := (evaluate_of_fits hrow hfl hl true).resolve_right fun h => h.1 hin
    by_cases hfr : right.Fits row
    swap
    · simp [ArithExpr.evaluate, hv, ihr hfr hr, bind, Except.bind]
    have hn : ∃ n, (IntExpr.arith left op right).exact row = some n ∧ ¬ (-2 ^ 63 ≤ n ∧ n < 2 ^ 63) := by
      by_contra hn
      exact hfits ⟨hfl, fun _ => hfr, fun n h => by_contra fun hrange => hn ⟨n, h, hrange⟩⟩
    obtain ⟨n, hn, hrange⟩ := hn
    obtain ⟨-, w, hw, hwt, hwx⟩ := (evaluate_of_fits hrow hfr hr true).resolve_right fun h =>
      h.1 (IntExpr.inRow_of_exact hn).2
    have heval := (ArithOp.eval_spec hvt hwt).2 n (by rw [hvx, hwx]; exact hn) hrange
    simp [ArithExpr.evaluate, hv, hw, heval, bind, Except.bind]

end

/-- **Integer arithmetic is exact or an error** in builds with and without overflow checks if, and
only if, the exact value of each operation that is reached fits. -/
theorem evaluate_exact {row : Row} {e : IntExpr} {c : ArithExpr}
    (hrow : ∀ v ∈ row, v.hasType .int = true) (hbuild : e.build = some c) :
    (∀ checks, ExactOrError (e.exact row) (c.evaluate checks row)) ↔ e.Fits row := by
  constructor
  · intro h
    by_contra hfits
    have h := h true
    rw [evaluate_of_not_fits hrow hfits hbuild] at h
    exact h rfl
  · intro hfits checks
    obtain ⟨-, v, hv, h⟩ | ⟨-, err, herr, h⟩ := evaluate_of_fits hrow hfits hbuild checks
    · rwa [hv]
    · rwa [herr]

/-- `(c0 + 1) / c1`. -/
def quotientExpr : IntExpr := .arith (.arith (.column 0) .add (.literal 1 (by decide))) .div (.column 1)

theorem evaluate_exact_quotient :
    ∃ c, quotientExpr.build = some c ∧
    ExactOrError (some (-1)) (c.evaluate false [.int 5, .int (-4)]) := by
  have hfits : quotientExpr.Fits [.int 5, .int (-4)] := by
    refine ⟨⟨trivial, fun _ => trivial, ?_⟩, fun _ => trivial, ?_⟩
    all_goals
      rintro n ⟨⟩
      decide
  exact ⟨_, rfl, (evaluate_exact (by decide) rfl).mpr hfits false⟩

/-- **Arithmetic that wraps around or aborts**: `c0 + c1` on `i64::MAX` and `1`, and `c0 / c1` on
`i64::MIN` and `-1`. -/
theorem evaluate_overflows :
    (ArithExpr.arith (.column 0) .add (.column 1)).evaluate false [.int Int64.maxValue, .int 1] =
        .ok (.int Int64.minValue) ∧
      (ArithExpr.arith (.column 0) .add (.column 1)).evaluate true
        [.int Int64.maxValue, .int 1] = .error .panicked ∧
      ∀ checks, (ArithExpr.arith (.column 0) .div (.column 1)).evaluate checks [.int Int64.minValue,
        .int (-1)] = .error .panicked := by
  decide +kernel

end RTsql.Parser

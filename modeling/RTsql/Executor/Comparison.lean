import RTsql.Library.OrderedCode
import RTsql.Storage.Value
import Mathlib.Order.Compare
import Mathlib.Order.BoundedOrder.Basic

/-!
# Comparing values

The comparisons of `value.rs` and their three-valued form in `predicate.rs`. Values of one type are
compared in the order of the type, strings by their bytes; an integer and a float as floats; other
pairs are an error. A comparison with `NULL` is unknown, and a row is selected only by a predicate
that is true. -/

namespace RTsql.Executor

open List RTsql.Library RTsql.Storage

/-- `ValueError`. -/
inductive ValueError where
  | typeMismatch
  | nullComparison
  deriving DecidableEq, Repr

/-- `f64::partial_cmp`. -/
def floatCmp (a b : Float) : Option Ordering :=
  if a < b then some .lt else if b < a then some .gt else if a == b then some .eq else none

/-- The order that `gt`, `lt`, `ge` and `le` test. -/
def partialCmp : Value → Value → Except ValueError (Option Ordering)
  | .null, _ | _, .null => .error .nullComparison
  | .int a, .int b => .ok (some (compareOfLessAndEq a b))
  | .string a, .string b => .ok (some (compareOfLessAndEq a.toUTF8.toList b.toUTF8.toList))
  | .float a, .float b => .ok (floatCmp (.ofBits a) (.ofBits b))
  | .bool a, .bool b => .ok (some (compareOfLessAndEq a b))
  | .date a, .date b => .ok (some (compareOfLessAndEq a b))
  | .timestamp a, .timestamp b => .ok (some (compareOfLessAndEq a b))
  | .int a, .float b => .ok (floatCmp a.toFloat (.ofBits b))
  | .float a, .int b => .ok (floatCmp (.ofBits a) b.toFloat)
  | _, _ => .error .typeMismatch

/-- `Value::equals`. -/
def equals : Value → Value → Bool
  | .float a, .float b => Float.ofBits a == Float.ofBits b
  | .int a, .float b => a.toFloat == Float.ofBits b
  | .float a, .int b => Float.ofBits a == b.toFloat
  | a, b => a = b

/-- `ComparisonOp`. -/
inductive ComparisonOp where
  | eq
  | ne
  | gt
  | lt
  | ge
  | le
  deriving DecidableEq, Repr

/-- `Ternary`. -/
inductive Ternary where
  | true
  | false
  | unknown
  deriving DecidableEq, Repr

def Ternary.ofBool (b : Bool) : Ternary := if b then .true else .false

/-- One is a date or a timestamp, and the other is not of the same type. -/
def datetimeMismatch : Value → Value → Bool
  | .date _, .date _ | .timestamp _, .timestamp _ => false
  | .date _, _ | .timestamp _, _ | _, .date _ | _, .timestamp _ => true
  | _, _ => false

/-- `ComparisonPredicate::evaluate_ternary`, on the values of its operands. -/
def ComparisonOp.evaluate (op : ComparisonOp) (left right : Value) : Except ValueError Ternary :=
  if left.isNull || right.isNull then .ok .unknown
  else if datetimeMismatch left right then .error .typeMismatch
  else
    Ternary.ofBool <$> match op with
      | .eq => .ok (equals left right)
      | .ne => .ok (!equals left right)
      | .gt => (· == some .gt) <$> partialCmp left right
      | .lt => (· == some .lt) <$> partialCmp left right
      | .ge => (fun o => o == some .gt || o == some .eq) <$> partialCmp left right
      | .le => (fun o => o == some .lt || o == some .eq) <$> partialCmp left right

variable {ε : Type}

/-- `LogicalPredicate::evaluate_ternary` for `AND`: the right side is not evaluated when the left
one is false. -/
def Ternary.and (left right : Except ε Ternary) : Except ε Ternary :=
  match left with
  | .error e => .error e
  | .ok .false => .ok .false
  | .ok l =>
    match right with
    | .error e => .error e
    | .ok .false => .ok .false
    | .ok r => .ok (if l = .true ∧ r = .true then .true else .unknown)

/-- The same for `OR`. -/
def Ternary.or (left right : Except ε Ternary) : Except ε Ternary :=
  match left with
  | .error e => .error e
  | .ok .true => .ok .true
  | .ok l =>
    match right with
    | .error e => .error e
    | .ok .true => .ok .true
    | .ok r => .ok (if l = .false ∧ r = .false then .false else .unknown)

/-- `NotPredicate::evaluate_ternary`. -/
def Ternary.not : Ternary → Ternary
  | .true => .false
  | .false => .true
  | .unknown => .unknown

/-- A conjunction is true when both sides are. -/
theorem Ternary.and_eq_true {left right : Except ε Ternary} :
    Ternary.and left right = .ok .true ↔ left = .ok .true ∧ right = .ok .true := by
  rcases left with e | (_ | _ | _) <;> rcases right with e' | (_ | _ | _) <;> simp [Ternary.and]

/-! ### Integers and strings -/

/-- The order of integers and of strings; values of other types, or of different ones, are not
ordered. -/
def Less : Value → Value → Prop
  | .int a, .int b => a < b
  | .string a, .string b => a.toUTF8.toList < b.toUTF8.toList
  | _, _ => False

/-- An integer or a string. -/
def Keyable : Value → Prop
  | .int _ | .string _ => True
  | _ => False

theorem Less.trans {u v w : Value} (huv : Less u v) (hvw : Less v w) : Less u w := by
  cases u <;> cases v <;> first | exact absurd huv id | skip
  all_goals cases w <;> first | exact absurd hvw id | skip
  · exact Int64.lt_trans huv hvw
  · exact List.lt_trans huv hvw

theorem Less.irrefl (v : Value) : ¬ Less v v := by
  cases v with
  | int => exact Int64.lt_irrefl
  | string => exact List.lt_irrefl _
  | _ => exact id

theorem Less.keyable {v w : Value} (h : Less v w) : Keyable v ∧ Keyable w := by
  cases v <;> cases w <;> first | exact ⟨trivial, trivial⟩ | exact absurd h id

theorem Less.asymm {v w : Value} (h : Less v w) : ¬ Less w v := fun h' => Less.irrefl v (h.trans h')

variable {c : ColumnType} {v r : Value}

theorem trichotomy_int (a b : Int64) : a = b ∨ a < b ∨ b < a := by
  rw [← Int64.toInt_inj, Int64.lt_iff_toInt_lt, Int64.lt_iff_toInt_lt]
  omega

theorem trichotomy_string (a b : String) :
    a = b ∨ a.toUTF8.toList < b.toUTF8.toList ∨ b.toUTF8.toList < a.toUTF8.toList := by
  by_cases hlt : a.toUTF8.toList < b.toUTF8.toList
  · exact .inr (.inl hlt)
  · by_cases hgt : b.toUTF8.toList < a.toUTF8.toList
    · exact .inr (.inr hgt)
    · exact .inl (eq_of_toUTF8_toList (List.le_antisymm (List.not_lt.mp hgt) (List.not_lt.mp hlt)))

/-- Values of a column that are integers or strings. -/
theorem less_trichotomy (hv : Keyable v) (hr : Keyable r) (hcv : v.hasType c) (hcr : r.hasType c) :
    v = r ∨ Less v r ∨ Less r v := by
  cases v <;> first | exact absurd hv id | skip
  all_goals cases r <;> first | exact absurd hr id | skip
  · simpa [Less] using trichotomy_int _ _
  · cases c <;> simp [Value.hasType] at hcv hcr
  · cases c <;> simp [Value.hasType] at hcv hcr
  · simpa [Less] using trichotomy_string _ _

/-- What the comparison means for integers and strings. -/
def ComparisonOp.Holds (op : ComparisonOp) (left right : Value) : Prop :=
  Keyable left ∧ Keyable right ∧ match op with
    | .eq => left = right
    | .ne => left ≠ right
    | .gt => Less right left
    | .lt => Less left right
    | .ge => Less right left ∨ left = right
    | .le => Less left right ∨ left = right

theorem keyable_or_null (hv : Keyable v) (hcv : v.hasType c) (hcr : r.hasType c) : Keyable r ∨
    r = .null := by
  cases v <;> first | exact absurd hv id | skip
  all_goals cases c <;> simp [Value.hasType] at hcv
  all_goals cases r <;> simp [Value.hasType] at hcr
  all_goals simp [Keyable]

theorem compareOfLessAndEq_spec {α : Type} [LT α] [DecidableLT α] [DecidableEq α] {a b : α}
    (htri : a = b ∨ a < b ∨ b < a) (hirrefl : ¬ a < a) (hasymm : a < b → ¬ b < a) :
    (compareOfLessAndEq a b = .lt ↔ a < b) ∧ (compareOfLessAndEq a b = .gt ↔ b < a) ∧
      (compareOfLessAndEq a b = .eq ↔ a = b) := by
  unfold compareOfLessAndEq
  obtain rfl | hlt | hgt := htri
  · simp [hirrefl]
  · have hne : a ≠ b := fun h => hirrefl (h ▸ hlt)
    simp [hlt, hasymm hlt, hne]
  · have hlt : ¬ a < b := fun h => hasymm h hgt
    have hne : a ≠ b := fun h => hirrefl (h ▸ hgt)
    simp [hgt, hlt, hne]

/-- The order in which two values of a column are found. -/
theorem exists_partialCmp (hv : Keyable v) (hr : Keyable r) (hcv : v.hasType c) (hcr : r.hasType c) :
    ∃ o, partialCmp v r = .ok (some o) ∧ (o = .lt ↔ Less v r) ∧ (o = .gt ↔ Less r v) ∧
    (o = .eq ↔ v = r) := by
  cases v <;> first | exact absurd hv id | skip
  all_goals cases r <;> first | exact absurd hr id | skip
  case int.string | string.int => cases c <;> simp [Value.hasType] at hcv hcr
  case int.int a b =>
    have hspec := compareOfLessAndEq_spec (trichotomy_int a b) Int64.lt_irrefl Int64.lt_asymm
    exact ⟨_, rfl, hspec.1, hspec.2.1, by rw [hspec.2.2, Value.int.injEq]⟩
  case string.string a b =>
    have hbytes : a.toUTF8.toList = b.toUTF8.toList ↔ a = b := ⟨eq_of_toUTF8_toList, fun h => h ▸ rfl⟩
    have htri := trichotomy_string a b
    rw [← hbytes] at htri
    have hspec := compareOfLessAndEq_spec htri (List.lt_irrefl _) List.lt_asymm
    exact ⟨_, rfl, hspec.1, hspec.2.1, by rw [hspec.2.2, hbytes, Value.string.injEq]⟩

theorem equals_of_keyable (hv : Keyable v) (hr : Keyable r) : equals v r = decide (v = r) := by
  cases v <;> first | exact absurd hv id | skip
  all_goals cases r <;> first | exact absurd hr id | rfl

theorem evaluate_of_keyable (op : ComparisonOp) (hv : Keyable v) (hr : Keyable r) (hcv : v.hasType c)
    (hcr : r.hasType c) : op.evaluate v r = .ok .true ↔ op.Holds v r := by
  have hnull : (v.isNull || r.isNull) = false := by
    cases v <;> first | exact absurd hv id | cases r <;> first | exact absurd hr id | rfl
  have hdatetime : datetimeMismatch v r = false := by
    cases v <;> first | exact absurd hv id | cases r <;> first | exact absurd hr id | rfl
  obtain ⟨o, ho, hlt, hgt, heq⟩ := exists_partialCmp hv hr hcv hcr
  have hofBool : ∀ b, Ternary.ofBool b = .true ↔ b = true := by decide
  cases op
  all_goals simp [ComparisonOp.evaluate, ComparisonOp.Holds, hnull, hdatetime, ho, hv, hr, hofBool,
    equals_of_keyable, hlt, hgt, heq]

/-- The comparison of two values of a column, of which one is an integer or a string. -/
theorem evaluate_eq_true_iff (op : ComparisonOp) (hkeyable : Keyable v ∨ Keyable r) (hcv : v.hasType c)
    (hcr : r.hasType c) : op.evaluate v r = .ok .true ↔ op.Holds v r := by
  have hv : Keyable v ∨ v = .null := hkeyable.elim .inl fun hr => keyable_or_null hr hcr hcv
  have hr : Keyable r ∨ r = .null := hkeyable.elim (fun hv => keyable_or_null hv hcv hcr) .inl
  obtain hv | rfl := hv
  · obtain hr | rfl := hr
    · exact evaluate_of_keyable op hv hr hcv hcr
    · simp [ComparisonOp.evaluate, ComparisonOp.Holds, Value.isNull, Keyable]
  · simp [ComparisonOp.evaluate, ComparisonOp.Holds, Value.isNull, Keyable]

end RTsql.Executor

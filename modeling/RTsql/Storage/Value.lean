import Mathlib.Algebra.Order.Ring.Int
import Mathlib.Data.List.Basic
import Mathlib.Data.List.DropRight

/-!
# Values and index keys

`value.rs` and `key.rs`. A row is a list of values; an index stores 32-byte keys
derived from them. Only integers have a key of their own, so a row whose
primary-key value is `NULL` or no integer is stored without an entry. A secondary
index joins the keys of its columns and takes strings as well, as long as the
whole fits.

A key is compared by its 32 bytes, padded with zeros, but callers also compare the
unpadded bytes they have in hand: these are `Bytes`, and `Key.new` pads them. A
key read back from a page has lost its trailing zeros.
-/

namespace RTsql.Storage

/-- `Value`. A float is its bit pattern. -/
inductive Value where
  | int (n : Int64)
  | string (s : String)
  | null
  | float (bits : UInt64)
  | bool (b : Bool)
  | date (days : Int32)
  | timestamp (micros : Int64)
  deriving DecidableEq, Repr

/-- `ColumnType`. -/
inductive ColumnType where
  | int
  | string (maxLen : UInt16)
  | float
  | bool
  | date
  | timestamp
  deriving DecidableEq, Repr

/-- A row of a table. -/
abbrev Row := List Value

/-- The bytes a caller passes to an index. -/
abbrev Bytes := List UInt8

/-- `MAX_KEY_LEN`. -/
def maxKeyLen : ℕ := 32

/-- `Key`, as it is compared and stored: the length is not part of it. -/
structure Key where
  /-- The padded bytes. -/
  data : Bytes
  deriving DecidableEq, Repr

/-- `Key::new`. -/
def Key.new (bytes : Bytes) : Key := ⟨bytes ++ List.replicate (maxKeyLen - bytes.length) 0⟩

/-- `Key::as_bytes` of a key that `Key::deserialize` has read from a page. -/
def Key.asBytes (k : Key) : Bytes := k.data.rdropWhile (· = 0)

/-- The bytes of a key as a page gives them back are padded to the same key. -/
theorem Key.new_asBytes {k : Key} (h : k.data.length = maxKeyLen) : Key.new k.asBytes = k := by
  obtain ⟨data⟩ := k
  have hparts : data.rdropWhile (· = 0) ++ data.rtakeWhile (· = 0) = data :=
    List.rdropWhile_append_rtakeWhile
  have hzeros : data.rtakeWhile (· = 0) = List.replicate (data.rtakeWhile (· = 0)).length (0 : UInt8) :=
    List.eq_replicate_of_mem fun x hx => by simpa using List.mem_rtakeWhile_imp hx
  have hlen : (data.rtakeWhile (· = 0)).length = maxKeyLen - (data.rdropWhile (· = 0)).length := by
    have := congrArg List.length hparts
    rw [List.length_append] at this
    have h : data.length = maxKeyLen := h
    omega
  rw [Key.new, Key.asBytes, ← hlen, ← hzeros, hparts]

theorem Key.length_new {b : Bytes} (h : b.length ≤ maxKeyLen) : (Key.new b).data.length = maxKeyLen := by
  simp only [Key.new, List.length_append, List.length_replicate]
  omega

/-- `i64::to_be_bytes`. -/
def toBeBytes (n : Int64) : Bytes :=
  (List.range 8).map fun i => (n.toUInt64 >>> UInt64.ofNat (56 - 8 * i)).toUInt8

namespace Value

/-- `Value::is_null`. -/
def isNull : Value → Bool
  | null => true
  | _ => false

/-- `Value::to_key`: only integers have one. -/
def toKey : Value → Option Bytes
  | int n => some (toBeBytes n)
  | _ => none

/-- `key_value_type_name`. -/
def typeName : Value → String
  | int _ => "Int"
  | string _ => "String"
  | null => "Null"
  | float _ => "Float"
  | bool _ => "Bool"
  | date _ => "Date"
  | timestamp _ => "Timestamp"

/-- An integer written to a float column becomes a float. -/
def widen : Value → ColumnType → Value
  | int n, .float => float n.toFloat.toBits
  | v, _ => v

/-- The value may be stored in a column of this type. -/
def hasType : Value → ColumnType → Bool
  | null, _ => true
  | int _, .int => true
  | string _, .string _ => true
  | float _, .float => true
  | bool _, .bool => true
  | date _, .date => true
  | timestamp _, .timestamp => true
  | _, _ => false

/-- A value that has a key after the widening is as it was before. -/
theorem eq_of_toKey_widen {v : Value} {ct : ColumnType} {b : Bytes} (h : (v.widen ct).toKey = some b) :
    v.widen ct = v := by
  cases v with
  | int n =>
    cases ct with
    | float => cases h
    | _ => rfl
  | _ => rfl

end Value

/-- `column_type_name`. -/
def ColumnType.name : ColumnType → String
  | int => "INT"
  | string _ => "STRING"
  | float => "FLOAT"
  | bool => "BOOL"
  | date => "DATE"
  | timestamp => "TIMESTAMP"

/-! ### The keys of secondary indexes -/

/-- `encode_string_bytes`: a zero byte is escaped, and two zero bytes end the string. -/
def encodeStringBytes (s : String) : Option Bytes :=
  let raw := s.toUTF8.toList
  if raw.length > maxKeyLen - 2 then none
  else
    let encoded := raw.flatMap (fun b => if b = 0 then [0x00, 0xFF] else [b]) ++ [0x00, 0x00]
    if encoded.length > maxKeyLen then none else some encoded

/-- `Value::secondary_index_key`: the key of a single column. -/
def secondaryIndexKey : ColumnType → Value → Option Bytes
  | .int, v => v.toKey
  | .string _, .string s => encodeStringBytes s
  | _, _ => none

/-- `encode_ordered_component`: integers keep their order as bytes. -/
def encodeOrderedComponent : ColumnType → Value → Option Bytes
  | .int, .int n =>
    match toBeBytes n with
    | b :: rest => some ((b ^^^ 0x80) :: rest)
    | [] => some []
  | .string _, .string s => encodeStringBytes s
  | _, _ => none

/-- `append_ordered_component`, for one column after the other. -/
def appendOrderedComponents (buf : Bytes) : List (ColumnType × Value) → Option Bytes
  | [] => some buf
  | (column, value) :: rest =>
    match encodeOrderedComponent column value with
    | none => none
    | some part =>
      if buf.length + part.length > maxKeyLen then none else appendOrderedComponents (buf ++ part) rest

/-- `Value::derive_secondary_index_key`. -/
def deriveSecondaryIndexKey (columns : List ColumnType) (values : Row) (generation : ℕ) : Option Bytes :=
  if generation = 0 then
    match columns, values with
    | [column], [value] => secondaryIndexKey column value
    | _, _ => none
  else if generation ≠ 1 ∨ columns.length ≠ values.length ∨ columns = [] then none
  else appendOrderedComponents [] (columns.zip values)

end RTsql.Storage

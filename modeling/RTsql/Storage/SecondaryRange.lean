import RTsql.Executor.Comparison
import RTsql.Storage.BTree.Key

/-!
# Ranges of a secondary index

The keys of a secondary index are compared as bytes. The code of a column keeps the order of its
values, and no code is a beginning of another one, so that the key of a row compares with the bounds
of a range as the values of the row compare with those of the bounds. A bound is the code of the
columns it names, filled up to 32 bytes with zeros or with `FF`. -/

namespace RTsql.Storage

open List Option RTsql.Executor RTsql.Library

/-! ### Keys -/

/-- A code with `FF` behind it, up to the length of a key. -/
def Key.filled (bytes : Bytes) : Key := ⟨bytes ++ List.replicate (maxKeyLen - bytes.length) 0xFF⟩

theorem Key.lt_of_below {s t : Bytes} (h : Below s t) (x y : Bytes) :
    Key.mk (s ++ x) < Key.mk (t ++ y) := by
  have hnats := (h.append x y).map (f := UInt8.toNat) fun a b => UInt8.lt_iff_toNat_lt.mp
  exact hnats.lt

theorem Key.new_le {bytes x : Bytes} (hx : x.length = maxKeyLen - bytes.length) :
    Key.new bytes ≤ ⟨bytes ++ x⟩ := by
  show (bytes ++ List.replicate (maxKeyLen - bytes.length) 0).map UInt8.toNat ≤
    (bytes ++ x).map UInt8.toNat
  rw [map_append, map_append, map_replicate, ← hx, ← length_map UInt8.toNat]
  exact append_le_append_left _ (replicate_le (fun b => Nat.zero_le b) _)

theorem Key.le_filled {bytes x : Bytes} (hx : x.length = maxKeyLen - bytes.length) :
    (⟨bytes ++ x⟩ : Key) ≤ Key.filled bytes := by
  show (bytes ++ x).map UInt8.toNat ≤
    (bytes ++ List.replicate (maxKeyLen - bytes.length) 0xFF).map UInt8.toNat
  rw [map_append, map_append, map_replicate, ← hx, ← length_map UInt8.toNat]
  refine append_le_append_left _ (le_replicate ?_)
  rw [List.forall_mem_map]
  exact fun b _ => Nat.le_of_lt_succ b.toNat_lt

/-! ### The code of a column -/

/-- The bytes of a string, escaped. -/
def escape (raw : Bytes) : Bytes := raw.flatMap fun b => if b = 0 then [0x00, 0xFF] else [b]

theorem encodeStringBytes_eq {s : String} {code : Bytes} (h : encodeStringBytes s = some code) :
    code = escape s.toUTF8.toList ++ [0, 0] ∧ code.length ≤ maxKeyLen := by
  unfold encodeStringBytes at h
  simp only [ite_none_left_eq_some, Option.some.injEq, not_lt] at h
  obtain ⟨-, hlen, rfl⟩ := h
  exact ⟨rfl, hlen⟩

theorem below_escape {s t : Bytes} (h : s < t) : Below (escape s ++ [0, 0]) (escape t ++ [0, 0]) := by
  induction s generalizing t with
  | nil =>
    cases t with
    | nil => exact absurd h (List.lt_irrefl _)
    | cons b t =>
      obtain rfl | hb := eq_or_ne b 0
      · exact .cons 0 (.head (by decide) _ _)
      · simp only [escape, flatMap_cons, if_neg hb]
        exact .head (UInt8.pos_iff_ne_zero.mpr hb) _ _
  | cons a s ih =>
    cases t with
    | nil => exact absurd h (not_lt_nil _)
    | cons b t =>
      obtain hab | ⟨rfl, hst⟩ := cons_lt_cons_iff.mp h
      · have hb : b ≠ 0 := fun hb => UInt8.not_lt_zero (hb ▸ hab)
        by_cases ha : a = 0
        · simp only [escape, flatMap_cons, if_pos ha, if_neg hb]
          exact .head (UInt8.pos_iff_ne_zero.mpr hb) _ _
        · simp only [escape, flatMap_cons, if_neg ha, if_neg hb]
          exact .head hab _ _
      · simp only [escape, flatMap_cons, append_assoc]
        exact (ih hst).prepend _

theorem toBeBytes_eq (n : Int64) : toBeBytes n = encodeBE 8 n.toUInt64.toNat := by
  have hbyte : ∀ k j : ℕ, k < 64 → 2 ^ k = 256 ^ j →
      (n.toUInt64 >>> UInt64.ofNat k).toUInt8 = UInt8.ofNat (n.toUInt64.toNat / 256 ^ j) := by
    intro k j hk hpow
    apply UInt8.toNat_inj.mp
    simp [← hpow, Nat.shiftRight_eq_div_pow, Nat.mod_eq_of_lt hk]
  have hrange : List.range 8 = [0, 1, 2, 3, 4, 5, 6, 7] := rfl
  rw [toBeBytes, hrange]
  simp only [map_cons, map_nil, encodeBE]
  rw [hbyte _ 7 (by decide) rfl, hbyte _ 6 (by decide) rfl, hbyte _ 5 (by decide) rfl,
    hbyte _ 4 (by decide) rfl,
    hbyte _ 3 (by decide) rfl, hbyte _ 2 (by decide) rfl, hbyte _ 1 (by decide) rfl,
    hbyte _ 0 (by decide) rfl]

/-- The integer, counted from the least one. -/
def biased (n : Int64) : ℕ := (n.toInt + 2 ^ 63).toNat

theorem biased_lt (n : Int64) : biased n < 2 ^ 64 := by
  have hlt := n.toInt_lt
  rw [biased]
  omega

theorem biased_lt_biased {m n : Int64} (h : m < n) : biased m < biased n := by
  have hlt := Int64.lt_iff_toInt_lt.mp h
  have hle := m.le_toInt
  rw [biased, biased]
  omega

theorem toNat_toUInt64 (n : Int64) : (n.toUInt64.toNat + 2 ^ 63) % 2 ^ 64 = biased n := by
  have hint : n.toInt = if 2 * n.toUInt64.toNat < 2 ^ 64 then
    (n.toUInt64.toNat : ℤ) else n.toUInt64.toNat - (2 ^ 64 : ℕ) :=
    BitVec.toInt_eq_toNat_cond n.toBitVec
  have hlt := n.toUInt64.toNat_lt
  rw [biased, hint]
  split <;> omega

theorem ofNat_xor (k : ℕ) : UInt8.ofNat k ^^^ 0x80 = UInt8.ofNat (k + 128) := by
  have hall : ∀ b : Fin 256, UInt8.ofNat b.val ^^^ 0x80 = UInt8.ofNat (b.val + 128) := by decide +kernel
  have hk := hall ⟨k % 256, Nat.mod_lt _ (by decide)⟩
  have hmod : UInt8.ofNat (k % 256) = UInt8.ofNat k := UInt8.toNat_inj.mp (by simp)
  have hmod' : UInt8.ofNat (k % 256 + 128) = UInt8.ofNat (k + 128) := UInt8.toNat_inj.mp (by simp)
  rwa [hmod, hmod'] at hk

/-- The code of an integer: turning over the highest bit counts from the least integer. -/
theorem encodeOrderedComponent_int (n : Int64) :
    encodeOrderedComponent .int (.int n) = some (encodeBE 8 (biased n)) := by
  have hhigh : UInt8.ofNat (n.toUInt64.toNat / 256 ^ 7) ^^^ 0x80 = UInt8.ofNat (biased n / 256 ^ 7) := by
    rw [ofNat_xor, ← toNat_toUInt64]
    apply UInt8.toNat_inj.mp
    simp only [UInt8.toNat_ofNat']
    omega
  have hlow : encodeBE 7 n.toUInt64.toNat = encodeBE 7 (biased n) := by
    refine encodeBE_congr ?_
    rw [← toNat_toUInt64]
    omega
  simp only [encodeOrderedComponent, toBeBytes_eq]
  show some ((UInt8.ofNat (n.toUInt64.toNat / 256 ^ 7) ^^^ 0x80) :: encodeBE 7 n.toUInt64.toNat) = _
  rw [hhigh, hlow]
  rfl

variable {c : ColumnType} {v w : Value} {p q : Bytes}

theorem keyable_of_encode (h : encodeOrderedComponent c v = some p) : Keyable v ∧ v.hasType c := by
  cases c <;> cases v <;> first | exact ⟨trivial, rfl⟩ | cases h

variable (hv : encodeOrderedComponent c v = some p) (hw : encodeOrderedComponent c w = some q)

include hv hw

/-- **The code of a column keeps its order.** -/
theorem below_encode (h : Less v w) : Below p q := by
  cases c <;> cases v <;> first | cases hv; done | skip
  all_goals cases w <;> first | cases hw; done | skip
  · rw [encodeOrderedComponent_int, Option.some.injEq] at hv hw
    subst hv hw
    exact below_encodeBE (biased_lt_biased h) (biased_lt _)
  · obtain ⟨rfl, -⟩ := encodeStringBytes_eq hv
    obtain ⟨rfl, -⟩ := encodeStringBytes_eq hw
    exact below_escape h

theorem encode_trichotomy : v = w ∨ Less v w ∧ Below p q ∨ Less w v ∧ Below q p := by
  obtain ⟨hkv, htv⟩ := keyable_of_encode hv
  obtain ⟨hkw, htw⟩ := keyable_of_encode hw
  exact (less_trichotomy hkv hkw htv htw).imp_right
    (Or.imp (fun h => ⟨h, below_encode hv hw h⟩) fun h => ⟨h, below_encode hw hv h⟩)

omit hv hw

/-! ### Several columns -/

variable {buf out out' : Bytes} {cols : List ColumnType} {vs ws values : Row}
  {l l' : List (ColumnType × Value)}

theorem appendOrderedComponents_cons :
    appendOrderedComponents buf ((c, v) :: l) = some out ↔
      ∃ part, encodeOrderedComponent c v = some part ∧ buf.length + part.length ≤ maxKeyLen ∧
        appendOrderedComponents (buf ++ part) l = some out := by
  rw [appendOrderedComponents]
  cases encodeOrderedComponent c v with
  | none | some part => simp

theorem appendOrderedComponents_append :
    appendOrderedComponents buf (l ++ l') = (appendOrderedComponents buf l).bind fun b =>
    appendOrderedComponents b l' := by
  induction l generalizing buf with
  | nil => rfl
  | cons cv l ih =>
    obtain ⟨c, v⟩ := cv
    rw [cons_append, appendOrderedComponents, appendOrderedComponents]
    cases encodeOrderedComponent c v with
    | none => rfl
    | some part =>
      simp only
      split
      · rfl
      · exact ih

/-- What is appended stands behind. -/
theorem exists_append (h : appendOrderedComponents buf l = some out) : ∃ code, out = buf ++ code := by
  induction l generalizing buf with
  | nil => exact ⟨[], by simpa [appendOrderedComponents] using h.symm⟩
  | cons cv l ih =>
    obtain ⟨part, -, -, h⟩ := appendOrderedComponents_cons.mp h
    obtain ⟨code, rfl⟩ := ih h
    exact ⟨part ++ code, append_assoc ..⟩

theorem length_le_of_append (hbuf : buf.length ≤ maxKeyLen)
    (h : appendOrderedComponents buf l = some out) : out.length ≤ maxKeyLen := by
  induction l generalizing buf with
  | nil =>
    obtain rfl : buf = out := by simpa [appendOrderedComponents] using h
    exact hbuf
  | cons cv l ih =>
    obtain ⟨part, -, hlen, h⟩ := appendOrderedComponents_cons.mp h
    exact ih (by rwa [length_append]) h

/-- Where two rows first differ, their codes do. -/
theorem append_trichotomy (hlen : vs.length = ws.length) (hcols : vs.length ≤ cols.length)
    (hv : appendOrderedComponents buf (cols.zip vs) = some out)
    (hw : appendOrderedComponents buf (cols.zip ws) = some out') :
    vs = ws ∨ List.Lex Less vs ws ∧ Below out out' ∨ List.Lex Less ws vs ∧ Below out' out := by
  induction cols generalizing buf vs ws with
  | nil =>
    obtain rfl := length_eq_zero_iff.mp (Nat.le_zero.mp hcols)
    exact .inl (length_eq_zero_iff.mp hlen.symm).symm
  | cons c cols ih =>
    cases vs with
    | nil => exact .inl (length_eq_zero_iff.mp hlen.symm).symm
    | cons v vs =>
      cases ws with
      | nil => nomatch hlen
      | cons w ws =>
        obtain ⟨p, hp, -, hv⟩ := appendOrderedComponents_cons.mp hv
        obtain ⟨q, hq, -, hw⟩ := appendOrderedComponents_cons.mp hw
        obtain rfl | hne := encode_trichotomy hp hq
        · cases hp.symm.trans hq
          obtain rfl | hrest := ih (Nat.succ.inj hlen) (Nat.le_of_succ_le_succ hcols) hv hw
          · exact .inl rfl
          · exact .inr (hrest.imp (.imp_left .cons) (.imp_left .cons))
        · obtain ⟨x, rfl⟩ := exists_append hv
          obtain ⟨y, rfl⟩ := exists_append hw
          refine .inr (hne.imp (fun h => ?_) fun h => ?_)
          · exact ⟨.rel h.1, (h.2.prepend buf).append x y⟩
          · exact ⟨.rel h.1, (h.2.prepend buf).append y x⟩

/-! ### Bounds -/

/-- `BoundMark`. -/
structure BoundMark where
  value : Value
  inclusive : Bool
  deriving DecidableEq, Repr

/-- `IndexColumnBound`: what is asked of one column. -/
inductive IndexColumnBound where
  | eq (value : Value)
  | range (lower upper : Option BoundMark)
  deriving DecidableEq, Repr

/-- `RangeSentinel`. -/
structure RangeSentinel where
  key : Key
  inclusive : Bool
  deriving DecidableEq, Repr

/-- `SecondaryRangeBounds`. -/
structure SecondaryRangeBounds where
  lower : Option RangeSentinel
  upper : Option RangeSentinel
  deriving DecidableEq, Repr

/-- `range_sentinel`. -/
def rangeSentinel (code : Bytes) (inclusive isLower : Bool) : RangeSentinel where
  key := if (if isLower then !inclusive else inclusive) then Key.filled code else Key.new code
  inclusive := inclusive

/-- The value, if it is an equality. -/
def IndexColumnBound.value? : IndexColumnBound → Option Value
  | eq value => some value
  | range _ _ => none

/-- One side of a range whose last column is not an equality. -/
def sideSentinel (equalities : Bytes) (column : ColumnType) (isLower : Bool) :
    Option BoundMark → Option (Option RangeSentinel)
  | some mark => do
    let code ← appendOrderedComponents equalities [(column, mark.value)]
    some (some (rangeSentinel code mark.inclusive isLower))
  | none => some (if equalities ≠ [] then some (rangeSentinel equalities true isLower) else none)

/-- `Value::secondary_range_bounds`: all columns but the last one are equalities. -/
def secondaryRangeBounds (columns : List ColumnType) (bounds : List IndexColumnBound) :
    Option SecondaryRangeBounds := do
  let last ← bounds.getLast?
  if bounds.length > columns.length then none
  let values ← bounds.dropLast.mapM IndexColumnBound.value?
  match last with
  | .eq value =>
    let code ← appendOrderedComponents [] (columns.zip (values ++ [value]))
    if code = [] then none
    some ⟨some (rangeSentinel code true true), some (rangeSentinel code true false)⟩
  | .range lower upper =>
    if lower = none ∧ upper = none then none
    let code ← appendOrderedComponents [] (columns.zip values)
    let column ← columns[values.length]?
    let lower ← sideSentinel code column true lower
    let upper ← sideSentinel code column false upper
    if lower = none ∧ upper = none then none
    some ⟨lower, upper⟩

/-- The key is on the right side of the bound. -/
def RangeSentinel.above (s : RangeSentinel) (k : Key) : Bool :=
    if s.inclusive then s.key ≤ k else s.key < k

def RangeSentinel.below (s : RangeSentinel) (k : Key) : Bool :=
    if s.inclusive then k ≤ s.key else k < s.key

/-- The key is in the range. -/
def SecondaryRangeBounds.contains (b : SecondaryRangeBounds) (k : Key) : Bool :=
  b.lower.all (·.above k) && b.upper.all (·.below k)

/-- The value is on the right side of the mark. -/
def BoundMark.Above (m : BoundMark) (v : Value) : Prop :=
    Less m.value v ∨ m.inclusive = true ∧ v = m.value

def BoundMark.Below (m : BoundMark) (v : Value) : Prop :=
    Less v m.value ∨ m.inclusive = true ∧ v = m.value

def IndexColumnBound.Holds : IndexColumnBound → Value → Prop
  | eq value, v => v = value
  | range lower upper, v => (∀ m ∈ lower, m.Above v) ∧ ∀ m ∈ upper, m.Below v

section Sentinel

variable {code x : Bytes} {mark : BoundMark}

theorem length_of_append (hlen : (code ++ x).length = maxKeyLen) :
    x.length = maxKeyLen - code.length := by
  rw [← hlen, length_append, Nat.add_sub_cancel_left]

/-- A key that continues the code of the bound. -/
theorem rangeSentinel_of_eq (inclusive : Bool) (hx : x.length = maxKeyLen - code.length) :
    (rangeSentinel code inclusive true).above ⟨code ++ x⟩ = inclusive ∧
      (rangeSentinel code inclusive false).below ⟨code ++ x⟩ = inclusive := by
  have hnew := Key.new_le hx
  have hfilled := Key.le_filled hx
  cases inclusive <;> simp [rangeSentinel, RangeSentinel.above, RangeSentinel.below, hnew, hfilled]

/-- A key below the code of the bound, and one above it. -/
theorem rangeSentinel_of_below (inclusive : Bool) (h : Library.Below p code) :
    (rangeSentinel code inclusive true).above ⟨p ++ x⟩ = false ∧
      (rangeSentinel code inclusive false).below ⟨p ++ x⟩ = true := by
  have hfilled : (⟨p ++ x⟩ : Key) < Key.filled code := Key.lt_of_below h _ _
  have hnew : (⟨p ++ x⟩ : Key) < Key.new code := Key.lt_of_below h _ _
  cases inclusive with
  | true | false => simp [rangeSentinel, RangeSentinel.above, RangeSentinel.below, hfilled.le, hnew]

theorem rangeSentinel_of_above (inclusive : Bool) (h : Library.Below code p) :
    (rangeSentinel code inclusive true).above ⟨p ++ x⟩ = true ∧
      (rangeSentinel code inclusive false).below ⟨p ++ x⟩ = false := by
  have hfilled : Key.filled code < (⟨p ++ x⟩ : Key) := Key.lt_of_below h _ _
  have hnew : Key.new code < (⟨p ++ x⟩ : Key) := Key.lt_of_below h _ _
  cases inclusive with
  | true | false => simp [rangeSentinel, RangeSentinel.above, RangeSentinel.below, hfilled, hnew.le]

/-- The key of a row whose first columns are those of the bound. -/
theorem rangeSentinel_mark (hmark : encodeOrderedComponent c mark.value = some p)
    (hv : encodeOrderedComponent c v = some q) (hlen : (code ++ q ++ x).length = maxKeyLen) :
    ((rangeSentinel (code ++ p) mark.inclusive true).above ⟨code ++ q ++ x⟩ = true ↔ mark.Above v) ∧
      ((rangeSentinel (code ++ p) mark.inclusive false).below ⟨code ++ q ++ x⟩ = true ↔
        mark.Below v) := by
  obtain ⟨hkm, htm⟩ := keyable_of_encode hmark
  obtain ⟨hkv, htv⟩ := keyable_of_encode hv
  have hx := length_of_append hlen
  obtain heq | hlt | hgt := less_trichotomy hkm hkv htm htv
  · subst heq
    cases hmark.symm.trans hv
    rw [(rangeSentinel_of_eq _ hx).1, (rangeSentinel_of_eq _ hx).2]
    simp [BoundMark.Above, BoundMark.Below, Less.irrefl]
  · have hbelow := (below_encode hmark hv hlt).prepend code
    rw [(rangeSentinel_of_above _ hbelow).1, (rangeSentinel_of_above _ hbelow).2]
    have hne : v ≠ mark.value := fun h => Less.irrefl v (h ▸ hlt)
    simp [BoundMark.Above, BoundMark.Below, hlt, hlt.asymm, hne]
  · have hbelow := (below_encode hv hmark hgt).prepend code
    rw [(rangeSentinel_of_below _ hbelow).1, (rangeSentinel_of_below _ hbelow).2]
    have hne : v ≠ mark.value := fun h => Less.irrefl v (h ▸ hgt)
    simp [BoundMark.Above, BoundMark.Below, hgt, hgt.asymm, hne]

end Sentinel

/-! ### Rows in the range -/

section HoldAll

variable {α : Type} {P : α → Value → Prop} {as bs : List α} {r : Row}

/-- Each of the first columns is as its condition asks. -/
def HoldAll (P : α → Value → Prop) : List α → Row → Prop
  | [], _ => True
  | _ :: _, [] => False
  | a :: as, v :: r => P a v ∧ HoldAll P as r

theorem holdAll_append : HoldAll P (as ++ bs) r ↔ HoldAll P as r ∧ HoldAll P bs (r.drop as.length) := by
  induction as generalizing r with
  | nil => simp [HoldAll]
  | cons a as ih =>
    cases r with
    | nil => simp [HoldAll]
    | cons v r => simp only [cons_append, HoldAll, ih, and_assoc, length_cons, drop_succ_cons]

theorem holdAll_map_eq (hlen : values.length ≤ r.length) :
    HoldAll IndexColumnBound.Holds (values.map .eq) r ↔ r.take values.length = values := by
  induction values generalizing r with
  | nil => simp [HoldAll]
  | cons value values ih =>
    cases r with
    | nil => nomatch hlen
    | cons v r => simp [HoldAll, IndexColumnBound.Holds, ih (Nat.le_of_succ_le_succ hlen)]

end HoldAll

theorem eq_map_of_mapM {bounds : List IndexColumnBound}
    (h : bounds.mapM IndexColumnBound.value? = some values) : bounds = values.map .eq := by
  induction bounds generalizing values with
  | nil => simpa using h
  | cons b bounds ih =>
    simp only [mapM_cons, Option.bind_eq_bind, Option.bind_eq_some_iff, Option.pure_def,
      Option.some.injEq] at h
    obtain ⟨value, hvalue, values, hvalues, rfl⟩ := h
    cases b with
    | eq v =>
      cases hvalue
      rw [map_cons, ← ih hvalues]
    | range => cases hvalue

variable {columns : List ColumnType} {bounds : List IndexColumnBound} {sb : SecondaryRangeBounds}
  {r : Row} {bytes : Bytes}

/-- How the bounds were found. -/
theorem secondaryRangeBounds_eq_some (h : secondaryRangeBounds columns bounds = some sb) :
    (∃ values value code, bounds = values.map .eq ++ [.eq value] ∧ values.length < columns.length ∧
      appendOrderedComponents [] (columns.zip (values ++ [value])) = some code ∧
      sb = ⟨some (rangeSentinel code true true), some (rangeSentinel code true false)⟩) ∨
    ∃ values lower upper code column, bounds = values.map .eq ++ [.range lower upper] ∧
      columns[values.length]? = some column ∧
      appendOrderedComponents [] (columns.zip values) = some code ∧
      sideSentinel code column true lower = some sb.lower ∧
      sideSentinel code column false upper = some sb.upper := by
  unfold secondaryRangeBounds at h
  simp only [bind_eq_bind, bind_eq_some_iff] at h
  obtain ⟨last, hlast, h⟩ := h
  obtain ⟨hlen, h⟩ := ite_none_left_eq_some.mp h
  obtain ⟨values, hvalues, h⟩ := bind_eq_some_iff.mp h
  have hbounds : bounds = values.map .eq ++ [last] := by
    rw [← eq_map_of_mapM hvalues]
    exact (dropLast_append_getLast? last hlast).symm
  have hlt : values.length < columns.length := by
    rw [hbounds] at hlen
    exact Nat.lt_of_succ_le (by simpa using hlen)
  cases last with
  | eq value =>
    obtain ⟨code, hcode, h⟩ := bind_eq_some_iff.mp h
    obtain ⟨-, h⟩ := ite_none_left_eq_some.mp h
    exact .inl ⟨values, value, code, hbounds, hlt, hcode, (Option.some.inj h).symm⟩
  | range lower upper =>
    obtain ⟨-, h⟩ := ite_none_left_eq_some.mp h
    obtain ⟨code, hcode, h⟩ := bind_eq_some_iff.mp h
    obtain ⟨column, hcolumn, h⟩ := bind_eq_some_iff.mp h
    obtain ⟨l, hl, h⟩ := bind_eq_some_iff.mp h
    obtain ⟨u, hu, h⟩ := bind_eq_some_iff.mp h
    obtain ⟨-, ⟨⟩⟩ := ite_none_left_eq_some.mp h
    exact .inr ⟨values, lower, upper, code, column, hbounds, hcolumn, hcode, hl, hu⟩

/-- The key of a row, after its first columns. -/
theorem exists_split (m : ℕ) (hr : r.length = columns.length)
    (hk : appendOrderedComponents [] (columns.zip r) = some bytes) :
    ∃ code, appendOrderedComponents [] (columns.zip (r.take m)) = some code ∧
      appendOrderedComponents code ((columns.drop m).zip (r.drop m)) = some bytes := by
  have hzip : columns.zip r = columns.zip (r.take m) ++ (columns.drop m).zip (r.drop m) := by
    conv_lhs => rw [← take_append_drop m columns, ← take_append_drop m r]
    rw [zip_append (by simp [hr])]
    congr 1
    conv_rhs => rw [← take_append_drop m columns, ← append_nil (r.take m)]
    rw [zip_append (by simp [hr]), zip_nil_right, append_nil]
  rw [hzip, appendOrderedComponents_append] at hk
  exact bind_eq_some_iff.mp hk

section Side

variable {code x : Bytes} {column : ColumnType} {mark : Option BoundMark} {side : Option RangeSentinel}
  {isLower : Bool}

/-- A side of the range: the mark behind the equalities, or nothing but these. -/
theorem sideSentinel_cases (h : sideSentinel code column isLower mark = some side) :
    (∃ m p, mark = some m ∧ encodeOrderedComponent column m.value = some p ∧
      side = some (rangeSentinel (code ++ p) m.inclusive isLower)) ∨
    mark = none ∧ side = if code ≠ [] then some (rangeSentinel code true isLower) else none := by
  cases mark with
  | some mark =>
    obtain ⟨code', hcode, h⟩ := bind_eq_some_iff.mp h
    obtain ⟨p, hp, -, ⟨⟩⟩ := appendOrderedComponents_cons.mp hcode
    exact .inl ⟨mark, p, rfl, hp, (Option.some.inj h).symm⟩
  | none => exact .inr ⟨rfl, (Option.some.inj h).symm⟩

/-- For a row that has the values of the equalities. -/
theorem all_above_side (h : sideSentinel code column true mark = some side)
    (hv : encodeOrderedComponent column v = some q) (hlen : (code ++ q ++ x).length = maxKeyLen) :
    side.all (·.above ⟨code ++ q ++ x⟩) = true ↔ ∀ m ∈ mark, m.Above v := by
  obtain ⟨m, p, rfl, hp, rfl⟩ | ⟨rfl, rfl⟩ := sideSentinel_cases h
  · simpa using (rangeSentinel_mark hp hv hlen).1
  · rw [append_assoc] at hlen ⊢
    split <;> simp [(rangeSentinel_of_eq true (length_of_append hlen)).1]

theorem all_below_side (h : sideSentinel code column false mark = some side)
    (hv : encodeOrderedComponent column v = some q) (hlen : (code ++ q ++ x).length = maxKeyLen) :
    side.all (·.below ⟨code ++ q ++ x⟩) = true ↔ ∀ m ∈ mark, m.Below v := by
  obtain ⟨m, p, rfl, hp, rfl⟩ | ⟨rfl, rfl⟩ := sideSentinel_cases h
  · simpa using (rangeSentinel_mark hp hv hlen).2
  · rw [append_assoc] at hlen ⊢
    split <;> simp [(rangeSentinel_of_eq true (length_of_append hlen)).2]

/-- Either side begins with the code of the equalities. -/
theorem exists_side (h : sideSentinel code column isLower mark = some side) (hne : code ≠ []) :
    ∃ y inclusive, side = some (rangeSentinel (code ++ y) inclusive isLower) := by
  obtain ⟨m, p, -, -, rfl⟩ | ⟨-, rfl⟩ := sideSentinel_cases h
  · exact ⟨p, m.inclusive, rfl⟩
  · exact ⟨[], true, by rw [if_pos hne, append_nil]⟩

end Side

section Contains

variable {code : Bytes} (hr : r.length = columns.length)
  (hk : appendOrderedComponents [] (columns.zip r) = some bytes)
  (hcode : appendOrderedComponents [] (columns.zip values) = some code)
include hr hk hcode

/-- The key of a row begins with the code of the equalities, or with one that differs from it. -/
theorem code_cases (hlt : values.length ≤ columns.length) :
    ∃ code', appendOrderedComponents code'
      ((columns.drop values.length).zip (r.drop values.length)) = some bytes ∧
      (r.take values.length = values ∧ code' = code ∨
        r.take values.length ≠ values ∧ (Library.Below code' code ∨ Library.Below code code')) := by
  obtain ⟨code', hcode', hrest⟩ := exists_split values.length hr hk
  refine ⟨code', hrest, ?_⟩
  by_cases heq : r.take values.length = values
  · rw [heq] at hcode'
    exact .inl ⟨heq, some.inj (hcode'.symm.trans hcode)⟩
  · have htake : (r.take values.length).length = values.length := length_take_of_le (hr ▸ hlt)
    have hne := (append_trichotomy htake (htake.le.trans hlt) hcode' hcode).resolve_left heq
    exact .inr ⟨heq, hne.imp And.right And.right⟩

/-- The range of an equality on the first columns. -/
theorem contains_iff_of_eq (hlt : values.length ≤ columns.length) :
    SecondaryRangeBounds.contains
      ⟨some (rangeSentinel code true true), some (rangeSentinel code true false)⟩
      (Key.new bytes) = true ↔ r.take values.length = values := by
  have hfull := Key.length_new (length_le_of_append (Nat.zero_le _) hk)
  obtain ⟨code', hrest, hcases⟩ := code_cases hr hk hcode hlt
  obtain ⟨y, rfl⟩ := exists_append hrest
  rw [Key.new, append_assoc] at hfull ⊢
  simp only [SecondaryRangeBounds.contains, all_some, Bool.and_eq_true]
  obtain ⟨heq, rfl⟩ | ⟨hne, hbelow | hbelow⟩ := hcases
  · rw [(rangeSentinel_of_eq _ (length_of_append hfull)).1,
      (rangeSentinel_of_eq _ (length_of_append hfull)).2]
    simpa using heq
  · simp [(rangeSentinel_of_below true hbelow).1, hne]
  · simp [(rangeSentinel_of_above true hbelow).2, hne]

/-- The range of a column behind such an equality. -/
theorem contains_iff_of_range {column : ColumnType} {lower upper : Option BoundMark}
    (hcolumn : columns[values.length]? = some column)
    (hl : sideSentinel code column true lower = some sb.lower)
    (hu : sideSentinel code column false upper = some sb.upper) :
    sb.contains (Key.new bytes) = true ↔
      r.take values.length = values ∧ ∀ v ∈ r[values.length]?,
      (IndexColumnBound.range lower upper).Holds v := by
  have hfull := Key.length_new (length_le_of_append (Nat.zero_le _) hk)
  rw [Key.new] at hfull ⊢
  have hlt : values.length < columns.length := (List.getElem?_eq_some_iff.mp hcolumn).1
  obtain ⟨code', hrest, hcases⟩ := code_cases hr hk hcode hlt.le
  simp only [SecondaryRangeBounds.contains, Bool.and_eq_true]
  obtain ⟨heq, rfl⟩ | ⟨hne, hbelow⟩ := hcases
  · have hlt' : values.length < r.length := hr ▸ hlt
    rw [drop_eq_getElem_cons hlt, drop_eq_getElem_cons hlt'] at hrest
    obtain ⟨q, hq, -, hrest⟩ := appendOrderedComponents_cons.mp hrest
    obtain ⟨y, rfl⟩ := exists_append hrest
    obtain rfl : columns[values.length] = column := by simpa [getElem?_eq_getElem hlt] using hcolumn
    rw [append_assoc] at hfull ⊢
    rw [all_above_side hl hq hfull, all_below_side hu hq hfull, getElem?_eq_getElem hlt']
    simp [heq, IndexColumnBound.Holds]
  · obtain ⟨y, rfl⟩ := exists_append hrest
    have hcode : code ≠ [] := by
      rintro rfl
      obtain hbelow | hbelow := hbelow <;> cases hbelow
    rw [append_assoc]
    obtain hbelow | hbelow := hbelow
    · obtain ⟨z, inclusive, hside⟩ := exists_side hl hcode
      have hbelow' : Library.Below code' (code ++ z) := by simpa using hbelow.append [] z
      simp [hside, (rangeSentinel_of_below inclusive hbelow').1, hne]
    · obtain ⟨z, inclusive, hside⟩ := exists_side hu hcode
      have hbelow' : Library.Below (code ++ z) code' := by simpa using hbelow.append z []
      simp [hside, (rangeSentinel_of_above inclusive hbelow').2, hne]

end Contains

/-- **The keys in the range are those of the rows in it.** -/
theorem contains_iff (h : secondaryRangeBounds columns bounds = some sb) (hr : r.length = columns.length)
    (hk : appendOrderedComponents [] (columns.zip r) = some bytes) :
    sb.contains (Key.new bytes) = true ↔ HoldAll IndexColumnBound.Holds bounds r := by
  obtain ⟨values, value, code, rfl, hlt, hcode, rfl⟩ | ⟨values, lower, upper, code, column, rfl,
    hcolumn, hcode, hl, hu⟩ := secondaryRangeBounds_eq_some h
  · have hlt' : (values ++ [value]).length ≤ columns.length := by
      rwa [length_append]
    rw [contains_iff_of_eq hr hk hcode hlt', ← map_singleton, ← map_append,
      holdAll_map_eq (hlt'.trans_eq hr.symm)]
  · have hlt : values.length < r.length := hr ▸ (List.getElem?_eq_some_iff.mp hcolumn).1
    rw [contains_iff_of_range hr hk hcode hcolumn hl hu, holdAll_append, holdAll_map_eq hlt.le,
      List.length_map, List.drop_eq_getElem_cons hlt, List.getElem?_eq_getElem hlt]
    simp [HoldAll]

/-! ### The order of the keys -/

/-- A key of generation 1 is made of the codes of its columns. -/
theorem append_of_derive_one (h : deriveSecondaryIndexKey columns r 1 = some bytes) :
    r.length = columns.length ∧ appendOrderedComponents [] (columns.zip r) = some bytes := by
  obtain ⟨hshape, h⟩ := ite_none_left_eq_some.mp (show (if _ then none else _) = some bytes from h)
  simp only [not_or, not_not] at hshape
  exact ⟨hshape.2.1.symm, h⟩

theorem keyable_of_append (h : appendOrderedComponents buf l = some out) : ∀ cv ∈ l, Keyable cv.2 ∧
    cv.2.hasType cv.1 := by
  induction l generalizing buf with
  | nil => nofun
  | cons cv l ih =>
    obtain ⟨part, hpart, -, h⟩ := appendOrderedComponents_cons.mp h
    exact forall_mem_cons.mpr ⟨keyable_of_encode hpart, ih h⟩

instance : Std.Asymm Less := ⟨fun _ _ => Less.asymm⟩

/-- **The keys of generation 1 are ordered as the rows.** The indexed values are integers and
strings, of the columns' types. Two keys compare as the rows do, column by column, and only equal
rows have equal keys. Of the rows that have a key, those in a range are the ones whose values are as
its bounds ask. -/
theorem keys_ordered (columns : List ColumnType) :
    (∀ a b k k', deriveSecondaryIndexKey columns a 1 = some k →
      deriveSecondaryIndexKey columns b 1 = some k' →
      (∀ cv ∈ columns.zip a, Keyable cv.2 ∧ cv.2.hasType cv.1) ∧
      (Key.new k < Key.new k' ↔ List.Lex Less a b) ∧ (Key.new k = Key.new k' ↔ a = b)) ∧
    ∀ bounds sb, secondaryRangeBounds columns bounds = some sb → ∀ r k,
    deriveSecondaryIndexKey columns r 1 = some k →
      (sb.contains (Key.new k) = true ↔ HoldAll IndexColumnBound.Holds bounds r) := by
  refine ⟨fun a b k k' ha hb => ?_, fun bounds sb hsb r k hk => ?_⟩
  · obtain ⟨hlena, ha⟩ := append_of_derive_one ha
    obtain ⟨hlenb, hb⟩ := append_of_derive_one hb
    refine ⟨keyable_of_append ha, ?_⟩
    obtain rfl | ⟨hlex, hbelow⟩ | ⟨hlex, hbelow⟩ :=
      append_trichotomy (hlena.trans hlenb.symm) hlena.le ha hb
    · cases ha.symm.trans hb
      exact ⟨iff_of_false (lt_irrefl _) fun h => asymm h h, by simp⟩
    · have hlt : Key.new k < Key.new k' := Key.lt_of_below hbelow _ _
      exact ⟨iff_of_true hlt hlex, iff_of_false hlt.ne fun h => asymm hlex (h ▸ hlex)⟩
    · have hlt : Key.new k' < Key.new k := Key.lt_of_below hbelow _ _
      exact ⟨iff_of_false hlt.asymm (asymm hlex), iff_of_false hlt.ne' fun h => asymm hlex (h ▸ hlex)⟩
  · obtain ⟨hlen, hk⟩ := append_of_derive_one hk
    exact contains_iff hsb hlen hk

/-- The string `a` is a beginning of `ab`, and the second columns are the other way round. -/
theorem keys_ordered_strings :
    ∃ k k', deriveSecondaryIndexKey [.string 9, .int] [.string "a", .int 7] 1 = some k ∧
      deriveSecondaryIndexKey [.string 9, .int] [.string "ab", .int (-7)] 1 = some k' ∧
      Key.new k < Key.new k' := by
  have hless : Less (.string "a") (.string "ab") := show "a".toUTF8.toList < "ab".toUTF8.toList by
    decide +kernel
  obtain ⟨k, hk⟩ := isSome_iff_exists.mp
    (show (deriveSecondaryIndexKey [.string 9, .int] [.string "a", .int 7] 1).isSome by decide +kernel)
  obtain ⟨k', hk'⟩ := isSome_iff_exists.mp
    (show (deriveSecondaryIndexKey [.string 9, .int] [.string "ab", .int (-7)] 1).isSome by
      decide +kernel)
  exact ⟨k, k', hk, hk', ((keys_ordered [.string 9, .int]).1 _ _ _ _ hk hk').2.1.mpr (.rel hless)⟩

end RTsql.Storage

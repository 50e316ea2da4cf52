import RTsql.Library.Except
import RTsql.Parser.SecondaryRoute

/-!
# The rows of a route

The rows that a route to a secondary index reads are those that satisfy the predicate. The bounds of
a column are merged into the strictest ones, which say the same of a value; so the atoms say the
same of the columns of the index as the bounds, and the keys in the range are those of the rows that
meet them. A row without a key either is read from the table, or lacks a value in a column of the
index. -/

namespace RTsql.Parser

open List RTsql.Executor RTsql.Library RTsql.Storage
open Option (bind_eq_some_iff some bind_eq_bind pure_def isNone)
open Option (bind_some ite_none_left_eq_some map_eq_some_iff)

/-! ### The strictest mark -/

section Strictest

variable {types : List ColumnType} {values : Row} {lower : Bool} {mark best out : BoundMark} {v : Value}
  {s t : RangeSentinel} {marks : List BoundMark}

/-- The value is on the side that the mark is for. -/
def OnSide (lower : Bool) (m : BoundMark) (v : Value) : Prop := if lower then m.Above v else m.Below v

/-- The mark has a code in the column. -/
def Coded (types : List ColumnType) (i : ℕ) (v : Value) : Prop :=
  ∃ column part, types[i]? = some column ∧ encodeOrderedComponent column v = some part

theorem boundSentinel_eq_some (h : boundSentinel types values mark lower = some s) :
    ∃ column code part, types[values.length]? = some column ∧
      appendOrderedComponents [] (types.zip values) = some code ∧
      encodeOrderedComponent column mark.value = some part ∧
      s = rangeSentinel (code ++ part) mark.inclusive lower := by
  obtain ⟨sb, hsb, h⟩ := bind_eq_some_iff.mp h
  obtain ⟨values', _, _, heq, -⟩ | ⟨values', l, u, code, column, heq, hcolumn, hcode, hl, hu⟩ :=
    secondaryRangeBounds_eq_some hsb
  · have hlast := (append_inj' heq rfl).2
    cases lower <;> simp at hlast
  · obtain ⟨hvalues, hlast⟩ := append_inj' heq rfl
    obtain rfl := map_injective_iff.mpr (fun a b hab => IndexColumnBound.eq.inj hab) hvalues
    obtain ⟨rfl, rfl⟩ := hlast
    -- the side that is asked for has the mark
    have hside : sideSentinel code column lower (some mark) = some (some s) := by
      cases lower with
      | true => exact hl.trans (congrArg some h)
      | false => exact hu.trans (congrArg some h)
    obtain ⟨code', hcode', hs⟩ := bind_eq_some_iff.mp hside
    obtain ⟨part, hpart, -, ⟨⟩⟩ := appendOrderedComponents_cons.mp hcode'
    exact ⟨column, code, part, hcolumn, hcode, hpart, (some.inj (some.inj hs)).symm⟩

theorem new_le_filled (code : Bytes) : Key.new code ≤ Key.filled code := Key.new_le (length_replicate ..)

/-- A bound at a smaller code is the stricter one above, and not below. -/
theorem replaces_of_below {p q : Bytes} (h : Library.Below p q) (i j lower : Bool) :
    replaces lower (rangeSentinel p i lower) (rangeSentinel q j lower) = !lower ∧
      replaces lower (rangeSentinel q j lower) (rangeSentinel p i lower) = lower := by
  have hkey : (rangeSentinel p i lower).key < (rangeSentinel q j lower).key := by
    cases lower <;> cases i <;> cases j <;> exact Key.lt_of_below h _ _
  simp [replaces, hkey, hkey.not_gt]

/-- At the same value, a bound that excludes it is stricter than one that includes it. -/
theorem replaces_of_eq (code : Bytes) (i j lower : Bool) :
    replaces lower (rangeSentinel code i lower) (rangeSentinel code j lower) = (!i && j) := by
  obtain heq | hlt := (new_le_filled code).eq_or_lt
  · cases lower <;> cases i <;> cases j <;> simp [replaces, rangeSentinel, heq]
  · cases lower <;> cases i <;> cases j <;> simp [replaces, rangeSentinel, hlt, hlt.not_gt]

/-- The bound at a larger value is the stricter one below, and the other way round. -/
theorem onSide_of_less (h : Less best.value mark.value) :
    (∀ v, OnSide true mark v → OnSide true best v) ∧ ∀ v, OnSide false best v → OnSide false mark v := by
  constructor
  · rintro v (hv | ⟨-, rfl⟩)
    · exact .inl (h.trans hv)
    · exact .inl h
  · rintro v (hv | ⟨-, rfl⟩)
    · exact .inl (hv.trans h)
    · exact .inl h

theorem onSide_of_inclusive (h : best.value = mark.value) (hinclusive : best.inclusive = true ∨
    mark.inclusive = false) : ∀ v, OnSide lower mark v → OnSide lower best v := by
  intro v hv
  cases lower
  all_goals
    obtain hv | ⟨hi, rfl⟩ := hv
    · exact .inl (h ▸ hv)
    · exact .inr ⟨hinclusive.resolve_right (by simp [hi]), h.symm⟩

/-- A mark that replaces another one is stricter, and one that does not is not. -/
theorem onSide_of_replaces (hs : boundSentinel types values mark lower = some s)
    (ht : boundSentinel types values best lower = some t) :
    (replaces lower s t = true → ∀ v, OnSide lower mark v → OnSide lower best v) ∧
      (replaces lower s t = false → ∀ v, OnSide lower best v → OnSide lower mark v) := by
  obtain ⟨column, code, p, hcolumn, hcode, hp, rfl⟩ := boundSentinel_eq_some hs
  obtain ⟨column', code', q, hcolumn', hcode', hq, rfl⟩ := boundSentinel_eq_some ht
  cases hcolumn.symm.trans hcolumn'
  cases hcode.symm.trans hcode'
  obtain ⟨hkm, htm⟩ := keyable_of_encode hp
  obtain ⟨hkb, htb⟩ := keyable_of_encode hq
  obtain heq | hlt | hgt := less_trichotomy hkm hkb htm htb
  · rw [heq] at hp
    cases hp.symm.trans hq
    rw [replaces_of_eq]
    constructor
    · intro h
      simp only [Bool.and_eq_true, Bool.not_eq_true'] at h
      exact onSide_of_inclusive heq.symm (.inl h.2)
    · intro h
      simp only [Bool.and_eq_false_iff, Bool.not_eq_false'] at h
      exact onSide_of_inclusive heq h
  · rw [(replaces_of_below ((below_encode hp hq hlt).prepend code) _ _ lower).1]
    cases lower with
    | true => exact ⟨nofun, fun _ => (onSide_of_less hlt).1⟩
    | false => exact ⟨fun _ => (onSide_of_less hlt).2, nofun⟩
  · rw [(replaces_of_below ((below_encode hq hp hgt).prepend code) _ _ lower).2]
    cases lower with
    | true => exact ⟨fun _ => (onSide_of_less hgt).1, nofun⟩
    | false => exact ⟨nofun, fun _ => (onSide_of_less hgt).2⟩

theorem coded_of_boundSentinel (h : boundSentinel types values mark lower = some s) :
    Coded types values.length mark.value := by
  obtain ⟨column, -, part, hcolumn, -, hpart, -⟩ := boundSentinel_eq_some h
  exact ⟨column, part, hcolumn, hpart⟩

/-- The loop: the mark that is left says what all of them say. -/
theorem strictestFrom_spec (hs : boundSentinel types values best lower = some s)
    (h : strictestFrom types values lower best s marks = some out) :
    (∀ m ∈ marks, Coded types values.length m.value) ∧
      ∀ v, OnSide lower out v ↔ OnSide lower best v ∧ ∀ m ∈ marks, OnSide lower m v := by
  induction marks generalizing best s with
  | nil =>
    obtain rfl : best = out := by simpa [strictestFrom] using h
    simp
  | cons mark marks ih =>
    obtain ⟨t, ht, h⟩ := bind_eq_some_iff.mp h
    obtain ⟨hstrict, hweak⟩ := onSide_of_replaces ht hs
    rw [forall_mem_cons]
    split at h
    case isTrue hreplaces =>
      obtain ⟨hcoded, hout⟩ := ih ht h
      refine ⟨⟨coded_of_boundSentinel ht, hcoded⟩, fun v => ?_⟩
      rw [hout, forall_mem_cons]
      exact ⟨fun hv => ⟨hstrict hreplaces v hv.1, hv⟩, And.right⟩
    case isFalse hreplaces =>
      obtain ⟨hcoded, hout⟩ := ih hs h
      refine ⟨⟨coded_of_boundSentinel ht, hcoded⟩, fun v => ?_⟩
      rw [hout, forall_mem_cons]
      exact ⟨fun hv => ⟨hv.1, hweak (Bool.of_not_eq_true hreplaces) v hv.1, hv.2⟩, fun hv =>
        ⟨hv.1, hv.2.2⟩⟩

theorem strictest_spec {out : Option BoundMark} (h : strictest types values lower marks = some out) :
    (∀ m ∈ marks, Coded types values.length m.value) ∧
      ∀ v, (∀ m ∈ out, OnSide lower m v) ↔ ∀ m ∈ marks, OnSide lower m v := by
  cases marks with
  | nil =>
    obtain rfl : none = out := by simpa [strictest] using h
    simp
  | cons mark marks =>
    obtain ⟨s, hs, h⟩ := bind_eq_some_iff.mp h
    obtain ⟨best, hbest, rfl⟩ := map_eq_some_iff.mp h
    obtain ⟨hcoded, hout⟩ := strictestFrom_spec hs hbest
    refine ⟨forall_mem_cons.mpr ⟨coded_of_boundSentinel hs, hcoded⟩, fun v => ?_⟩
    rw [forall_mem_cons, ← hout]
    simp

end Strictest

/-! ### The bounds of the columns -/

section Merge

variable {types : List ColumnType} {values : Row} {slot : ColumnAtoms} {slots : List ColumnAtoms}
  {v x : Value}

/-- What an atom asks of the value of its column. -/
def AtomKind.Holds : AtomKind → Value → Prop
  | eq value, v => v = value
  | lower mark, v => mark.Above v
  | upper mark, v => mark.Below v

/-- The literal of an atom. -/
def AtomKind.literal : AtomKind → Value
  | eq value => value
  | lower mark | upper mark => mark.value

/-- The atoms of a column. -/
def ColumnAtoms.kinds (slot : ColumnAtoms) : List AtomKind :=
  slot.eqs.map .eq ++ slot.lowers.map .lower ++ slot.uppers.map .upper

def ColumnAtoms.Holds (slot : ColumnAtoms) (v : Value) : Prop := ∀ kind ∈ slot.kinds, kind.Holds v

theorem ColumnAtoms.holds_iff : slot.Holds v ↔
    (∀ x ∈ slot.eqs, v = x) ∧ (∀ m ∈ slot.lowers, m.Above v) ∧ ∀ m ∈ slot.uppers, m.Below v := by
  simp only [ColumnAtoms.Holds, ColumnAtoms.kinds, forall_mem_append, forall_mem_map,
    AtomKind.Holds, and_assoc]

theorem eq_iff_above_below : v = x ↔ BoundMark.Above ⟨x, true⟩ v ∧ BoundMark.Below ⟨x, true⟩ v := by
  constructor
  · rintro rfl
    exact ⟨.inr ⟨rfl, rfl⟩, .inr ⟨rfl, rfl⟩⟩
  · rintro ⟨ha | ha, hb⟩
    · obtain hb | hb := hb
      · exact absurd hb ha.asymm
      · exact hb.2
    · exact ha.2

/-- **A merged column asks what its atoms ask**, and each of them has a code. -/
theorem mergeColumn_spec {bound : IndexColumnBound} (h : mergeColumn types values slot = some bound) :
    (∀ kind ∈ slot.kinds, Coded types values.length kind.literal) ∧ ∀ v, bound.Holds v ↔
    slot.Holds v := by
  rw [mergeColumn, bind_eq_bind, bind_eq_some_iff] at h
  obtain ⟨lower, hlower, h⟩ := h
  rw [bind_eq_some_iff] at h
  obtain ⟨upper, hupper, h⟩ := h
  obtain ⟨hcl, hl⟩ := strictest_spec hlower
  obtain ⟨hcu, hu⟩ := strictest_spec hupper
  rw [forall_mem_append, forall_mem_map] at hcl hcu
  have hrange : ∀ v, (IndexColumnBound.range lower upper).Holds v ↔ slot.Holds v := by
    intro v
    have hl := hl v
    have hu := hu v
    rw [forall_mem_append, forall_mem_map] at hl hu
    rw [IndexColumnBound.Holds, ColumnAtoms.holds_iff]
    simp only [eq_iff_above_below, forall_and]
    tauto
  refine ⟨?_, ?_⟩
  · simp only [ColumnAtoms.kinds, forall_mem_append, forall_mem_map, AtomKind.literal]
    exact ⟨⟨hcl.2, hcl.1⟩, hcu.1⟩
  · have hbound : bound = .range lower upper ∨
        ∃ x, bound = .eq x ∧ lower = some ⟨x, true⟩ ∧ upper = some ⟨x, true⟩ := by
      split at h
      · split at h
        case _ l u heq =>
          obtain ⟨x, i⟩ := l
          obtain ⟨y, j⟩ := u
          obtain ⟨rfl, rfl, rfl⟩ := heq
          exact .inr ⟨x, (some.inj h).symm, rfl, rfl⟩
        case isFalse => exact .inl (some.inj h).symm
      · exact .inl (some.inj h).symm
    obtain rfl | ⟨x, rfl, rfl, rfl⟩ := hbound
    · exact hrange
    · intro v
      rw [← hrange, IndexColumnBound.Holds, eq_iff_above_below]
      simp [IndexColumnBound.Holds]

/-- The bounds of the columns ask what the atoms ask; only the last one is a range. -/
theorem mergeColumns_spec {bounds : List IndexColumnBound}
    (h : mergeColumns types values slots = some bounds) :
    (∀ i slot, slots[i]? = some slot → ∀ kind ∈ slot.kinds,
      Coded types (values.length + i) kind.literal) ∧ bounds.length = slots.length ∧
      ∀ r, HoldAll IndexColumnBound.Holds bounds r ↔ HoldAll ColumnAtoms.Holds slots r := by
  induction slots generalizing values bounds with
  | nil =>
    obtain rfl : [] = bounds := by simpa [mergeColumns] using h
    simp [HoldAll]
  | cons slot slots ih =>
    obtain ⟨bound, hbound, h⟩ := bind_eq_some_iff.mp h
    obtain ⟨hcoded, hholds⟩ := mergeColumn_spec hbound
    cases bound with
    | eq value =>
      obtain ⟨bounds, hbounds, rfl⟩ := map_eq_some_iff.mp h
      obtain ⟨hcoded', hlen, hholds'⟩ := ih hbounds
      refine ⟨?_, by simp [hlen], fun r => ?_⟩
      · rintro (_ | i) slot' hslot
        · cases hslot
          exact hcoded
        · have := hcoded' i slot' hslot
          rwa [length_append, Nat.add_right_comm] at this
      · cases r with
        | nil => simp [HoldAll]
        | cons v r => rw [HoldAll, HoldAll, hholds, hholds']
    | range lower upper =>
      obtain ⟨rfl, ⟨⟩⟩ := Option.ite_none_right_eq_some.mp h
      refine ⟨?_, rfl, fun r => ?_⟩
      · rintro (_ | i) slot' hslot
        · cases hslot
          exact hcoded
        · cases hslot
      · cases r with
        | nil => simp [HoldAll]
        | cons v r => simp only [HoldAll, hholds]

end Merge

/-! ### The atoms of the columns -/

section Place

variable {columns l : List String} {atom : Atom} {atoms : List Atom}
  {byPos byPos' : List (Option ColumnAtoms)} {Q : ℕ → AtomKind → Prop}

theorem getElem?_of_idxOf? {a : String} {i : ℕ} (h : l.idxOf? a = some i) : l[i]? = some a := by
  obtain ⟨hlt, rfl, -⟩ := idxOf?_eq_some_iff.mp h
  exact getElem?_eq_getElem hlt

/-- All the atoms that were placed are such. -/
def AllKinds (Q : ℕ → AtomKind → Prop) (byPos : List (Option ColumnAtoms)) : Prop :=
  ∀ i slot, byPos[i]? = some (some slot) → ∀ kind ∈ slot.kinds, Q i kind

theorem ColumnAtoms.mem_kinds_push {slot : ColumnAtoms} {kind kind' : AtomKind} :
    kind' ∈ (slot.push kind).kinds ↔ kind' ∈ slot.kinds ∨ kind' = kind := by
  cases kind <;> simp only [ColumnAtoms.push, ColumnAtoms.kinds, map_append, map_cons, map_nil,
    mem_append, mem_singleton, or_assoc, or_left_comm, or_comm]

theorem allKinds_placeAtom (h : placeAtom columns byPos atom = some byPos')
    (hlen : byPos.length = columns.length) :
    byPos'.length = columns.length ∧ ∃ p, columns.idxOf? atom.column = some p ∧
      (AllKinds Q byPos' ↔ AllKinds Q byPos ∧ Q p atom.kind) := by
  obtain ⟨p, hp, ⟨⟩⟩ := bind_eq_some_iff.mp h
  have hlt : p < byPos.length := hlen ▸ (List.getElem?_eq_some_iff.mp (getElem?_of_idxOf? hp)).1
  refine ⟨by simpa using hlen, p, hp, ?_⟩
  constructor
  · intro hall
    have hp := hall p ((byPos[p].getD ⟨[], [], []⟩).push atom.kind)
      (by simp [getElem?_eq_getElem hlt])
    refine ⟨fun i slot hslot kind hkind => ?_, hp _ (ColumnAtoms.mem_kinds_push.mpr (.inr rfl))⟩
    obtain rfl | hi := eq_or_ne p i
    · obtain hslot' : byPos[p] = some slot := by simpa [getElem?_eq_getElem hlt] using hslot
      exact hp kind (ColumnAtoms.mem_kinds_push.mpr (.inl (by simpa [hslot'] using hkind)))
    · exact hall i slot (by simpa [getElem?_modify, hi] using hslot) kind hkind
  · rintro ⟨hall, hQ⟩ i slot hslot kind hkind
    rw [getElem?_modify] at hslot
    split at hslot
    case isTrue hi =>
      subst hi
      rw [getElem?_eq_getElem hlt] at hslot
      obtain rfl : (byPos[p].getD ⟨[], [], []⟩).push atom.kind = slot := by simpa using hslot
      obtain hkind | rfl := ColumnAtoms.mem_kinds_push.mp hkind
      · cases hslot' : byPos[p] with
        | none =>
          rw [hslot'] at hkind
          nomatch hkind
        | some slot =>
          rw [hslot'] at hkind
          exact hall p slot (by rw [getElem?_eq_getElem hlt, hslot']) kind hkind
      · exact hQ
    case isFalse => exact hall i slot (by simpa using hslot) kind hkind

theorem allKinds_foldlM (h : atoms.foldlM (placeAtom columns) byPos = some byPos')
    (hlen : byPos.length = columns.length) :
    byPos'.length = columns.length ∧ (∀ atom ∈ atoms, ∃ p, columns.idxOf? atom.column = some p) ∧
      (AllKinds Q byPos' ↔
        AllKinds Q byPos ∧ ∀ atom ∈ atoms, ∀ p, columns.idxOf? atom.column = some p →
        Q p atom.kind) := by
  induction atoms generalizing byPos with
  | nil =>
    obtain rfl : byPos = byPos' := by simpa using h
    exact ⟨hlen, nofun, by simp⟩
  | cons atom atoms ih =>
    obtain ⟨u, hu, h⟩ := bind_eq_some_iff.mp h
    obtain ⟨hlen', p, hp, hstep⟩ := allKinds_placeAtom (Q := Q) hu hlen
    obtain ⟨hlen'', hfound, hrest⟩ := ih h hlen'
    refine ⟨hlen'', forall_mem_cons.mpr ⟨⟨p, hp⟩, hfound⟩, ?_⟩
    rw [hrest, hstep, forall_mem_cons, hp]
    simp [and_assoc]

theorem eq_map_some_of_mapM {α : Type} {l : List (Option α)} {l' : List α} (h : l.mapM id = some l') :
    l = l'.map some := by
  induction l generalizing l' with
  | nil => simpa using h
  | cons a l ih =>
    simp only [mapM_cons, id, Option.bind_eq_bind, Option.bind_eq_some_iff, Option.pure_def,
      Option.some.injEq] at h
    obtain ⟨b, rfl, l'', hl, rfl⟩ := h
    rw [map_cons, ← ih hl]

/-- The columns behind the last one that has atoms have none. -/
theorem allKinds_slots {slots : List ColumnAtoms} (h : (byPos.rdropWhile isNone).mapM id = some slots) :
    slots.length ≤ byPos.length ∧
      (AllKinds Q byPos ↔ ∀ i slot, slots[i]? = some slot → ∀ kind ∈ slot.kinds, Q i kind) := by
  have hslots := eq_map_some_of_mapM h
  have hsplit : byPos = slots.map some ++ (byPos.reverse.takeWhile isNone).reverse := by
    rw [← hslots, List.rdropWhile, ← reverse_append, takeWhile_append_dropWhile, reverse_reverse]
  have hnone : ∀ x ∈ (byPos.reverse.takeWhile isNone).reverse, x = none := fun x hx =>
    Option.isNone_iff_eq_none.mp (mem_takeWhile_imp (mem_reverse.mp hx))
  generalize (byPos.reverse.takeWhile isNone).reverse = tail at hsplit hnone
  subst hsplit
  refine ⟨by simp, ?_⟩
  have hget : ∀ (i : ℕ) (slot : ColumnAtoms), (slots.map some ++ tail)[i]? = some (some slot) ↔
    slots[i]? = some slot := by
    intro i slot
    by_cases hi : i < slots.length
    · rw [getElem?_append_left (by simpa using hi)]
      simp
    · rw [getElem?_append_right (by simpa using hi), getElem?_eq_none (not_lt.mp hi)]
      refine iff_of_false (fun hx => ?_) nofun
      nomatch hnone _ (mem_of_getElem? hx)
  simp only [AllKinds, hget]

end Place

/-! ### The atoms of a predicate -/

section Atoms

variable {columns : List String} {row : Row} {e literal left right operand low high : Expr}
  {column : String} {op : BinaryOperator} {columnOnLeft allowUnary : Bool} {atom : Atom}
  {atoms : List Atom} {v r a b l h : Value} {c : ColumnType} {kind : Value → AtomKind}
  {cmp : ComparisonOp}

/-- The value of a column in the row. -/
def columnValue (columns : List String) (row : Row) (name : String) : Option Value :=
    (columns.idxOf? name).bind (row[·]?)

/-- The atom compares a column of the table with an integer or a string of its type. -/
def Fits (columns : List String) (row : Row) (atom : Atom) : Prop :=
  ∃ r c, columnValue columns row atom.column = some r ∧ r.hasType c ∧
    Keyable atom.kind.literal ∧ atom.kind.literal.hasType c

/-- The row is as the atom asks. -/
def Atom.HoldsIn (columns : List String) (row : Row) (atom : Atom) : Prop :=
  ∀ r, columnValue columns row atom.column = some r → atom.kind.Holds r

/-- A predicate about a column called `null` is true of no row. -/
def Atom.True (columns : List String) (row : Row) (atom : Atom) : Prop :=
  atom.column ≠ "null" ∧ atom.HoldsIn columns row

theorem Atom.true_iff (hr : columnValue columns row atom.column = some r)
    (hv : Keyable atom.kind.literal) :
    atom.True columns row ↔ atom.kind.Holds (if atom.column = "null" then .null else r) := by
  rw [Atom.True, Atom.HoldsIn, hr]
  split
  case isTrue hnull =>
    refine iff_of_false (fun h => h.1 hnull) ?_
    intro h
    have hne : Value.null ≠ atom.kind.literal := fun heq => (heq ▸ hv : Keyable .null)
    cases hkind : atom.kind <;> rw [hkind] at hne h
    case eq => exact hne h
    case lower => exact h.elim (fun hless => hless.keyable.2) fun heq => hne heq.2
    case upper => exact h.elim (fun hless => hless.keyable.1) fun heq => hne heq.2
  case isFalse hnull => simp [hnull]

theorem evaluateOperand_peel (e : Expr) :
    evaluateOperand columns row (peel e) = evaluateOperand columns row e := by
  induction e with
  | nested e ih => rw [peel, ih, evaluateOperand]
  | _ => rfl

theorem evaluateWhere_peel (e : Expr) :
    evaluateWhere columns row (peel e) = evaluateWhere columns row e := by
  induction e with
  | nested e ih => rw [peel, ih, evaluateWhere]
  | _ => rfl

theorem evaluateOperand_of_bareColumn (h : bareColumn e = some column)
    (hr : columnValue columns row column = some r) :
    evaluateOperand columns row e = .ok (if column = "null" then .null else r) := by
  rw [← evaluateOperand_peel]
  unfold bareColumn at h
  split at h
  case h_1 name hpeel =>
    cases h
    unfold columnValue at hr
    rw [hpeel, evaluateOperand, hr]
    split <;> rfl
  case h_2 => cases h

theorem evaluateOperand_of_endpointValue (h : endpointValue e allowUnary = .ok (some v)) :
    evaluateOperand columns row e = .ok v := by
  rw [← evaluateOperand_peel]
  unfold endpointValue at h
  split at h
  case h_1 => cases h
  case h_2 l _ hpeel =>
    rw [hpeel, evaluateOperand]
    cases l <;> simp_all [valueFromSqlparser, Functor.map, Except.map]
  case h_3 inner hpeel =>
    rw [hpeel, evaluateOperand, ← evaluateOperand_peel]
    split at h
    · split at h
      case h_1 => cases h
      case h_2 l _ hinner =>
        rw [hinner, evaluateOperand]
        cases l <;> simp_all [valueFromSqlparser, Functor.map, Except.map, bind, Except.bind]
      case h_3 => cases h
    · cases h
  case h_4 => cases h

/-- The comparison of an atom, with the column on either side. -/
theorem holds_atomKind (h : atomKind op columnOnLeft = some kind) (hv : Keyable v) :
    ∃ cmp, convertComparisonOp op = some cmp ∧
      ∀ r, (if columnOnLeft then cmp.Holds r v else cmp.Holds v r) ↔ (kind v).Holds r := by
  cases op <;> cases columnOnLeft <;> first | cases h; done | skip
  all_goals
    cases h
    refine ⟨_, rfl, fun r => ?_⟩
    simp only [ComparisonOp.Holds, AtomKind.Holds, BoundMark.Above, BoundMark.Below]
    grind [Less.keyable]

theorem evaluate_atomKind (h : atomKind op columnOnLeft = some kind) (hv : Keyable v)
    (hcv : v.hasType c) (hcr : r.hasType c) :
    ∃ cmp, convertComparisonOp op = some cmp ∧
      ((if columnOnLeft then cmp.evaluate r v else cmp.evaluate v r) = .ok .true ↔
        (kind v).Holds r) := by
  obtain ⟨cmp, hcmp, hholds⟩ := holds_atomKind h hv
  refine ⟨cmp, hcmp, ?_⟩
  rw [← hholds r]
  split
  · exact evaluate_eq_true_iff cmp (.inr hv) hcr hcv
  · exact evaluate_eq_true_iff cmp (.inl hv) hcv hcr

theorem literal_atomKind (h : atomKind op columnOnLeft = some kind) (v : Value) :
    (kind v).literal = v := by
  cases op <;> cases columnOnLeft <;> first | cases h; done | cases h; rfl

theorem columnAtom_eq_some (h : columnAtom column op columnOnLeft literal = .ok (some atom)) :
    ∃ kind v, atomKind op columnOnLeft = some kind ∧ endpointValue literal (op ≠ .eq) = .ok (some v) ∧
      atom = ⟨column, kind v⟩ := by
  unfold columnAtom at h
  split at h
  case h_1 kind hkind =>
    obtain ⟨value, hvalue, h⟩ := map_eq_ok.mp h
    obtain ⟨v, rfl, rfl⟩ := map_eq_some_iff.mp h
    exact ⟨kind, v, hkind, hvalue, rfl⟩
  case h_2 => cases h

theorem evaluateWhere_of_convert (h : convertComparisonOp op = some cmp) :
    evaluateWhere columns row
      (.binaryOp left op right) = evaluateComparison columns row left cmp right := by
  cases op <;> first | cases h; done | cases h; rfl

theorem evaluateComparison_eq_true
    (hl : evaluateOperand columns row left = .ok a) (hr : evaluateOperand columns row right = .ok b) :
    evaluateComparison columns row left cmp right = .ok .true ↔ cmp.evaluate a b = .ok .true := by
  rw [evaluateComparison, hl, hr]
  show (cmp.evaluate a b).mapError PlanError.value = .ok .true ↔ _
  cases cmp.evaluate a b <;> simp [Except.mapError]

theorem hasType_ite (column : String) (h : r.hasType c) :
    (if column = "null" then .null else r : Value).hasType c := by
  split
  · cases c <;> rfl
  · exact h

/-- The predicate is true of the rows that are as the atom asks. -/
theorem evaluateWhere_of_comparisonAtom (h : comparisonAtom e = .ok (some atom))
    (hfits : Fits columns row atom) :
    evaluateWhere columns row e = .ok .true ↔ atom.True columns row := by
  rw [← evaluateWhere_peel]
  unfold comparisonAtom at h
  split at h
  case h_2 => cases h
  case h_1 left op right hpeel =>
    rw [hpeel]
    obtain ⟨r, c, hr, hcr, hv, hcv⟩ := hfits
    rw [Atom.true_iff hr hv]
    split at h
    case h_3 => cases h
    case' h_1 column hcolumn _ | h_2 column _ hcolumn =>
      obtain ⟨kind, v, hkind, hvalue, rfl⟩ := columnAtom_eq_some h
      rw [literal_atomKind hkind] at hv hcv
      obtain ⟨cmp, hcmp, hiff⟩ := evaluate_atomKind hkind hv hcv (hasType_ite column hcr)
      rw [evaluateWhere_of_convert hcmp]
      have hl := evaluateOperand_of_bareColumn hcolumn hr
    case h_1 => exact (evaluateComparison_eq_true hl (evaluateOperand_of_endpointValue hvalue)).trans hiff
    case h_2 => exact (evaluateComparison_eq_true (evaluateOperand_of_endpointValue hvalue) hl).trans hiff

theorem evaluateWhere_between (hcolumn : bareColumn operand = some column)
    (hlow : endpointValue low true = .ok (some l)) (hhigh : endpointValue high true = .ok (some h))
    (hfl : Fits columns row ⟨column, .lower ⟨l, true⟩⟩)
    (hfh : Fits columns row ⟨column, .upper ⟨h, true⟩⟩) :
    evaluateWhere columns row (.between operand false low high) = .ok .true ↔
      ∀ atom ∈ [Atom.mk column (.lower ⟨l, true⟩), ⟨column, .upper ⟨h, true⟩⟩],
      atom.True columns row := by
  obtain ⟨r, c, hr, hcr, hl, hcl⟩ := hfl
  obtain ⟨r', c', hr', hcr', hh, hch⟩ := hfh
  obtain rfl : r = r' := some.inj (hr.symm.trans hr')
  have hoperand := evaluateOperand_of_bareColumn hcolumn hr
  obtain ⟨cmp, hge, hlower⟩ :=
    evaluate_atomKind (show atomKind .gtEq true = some _ from rfl) hl hcl (hasType_ite column hcr)
  obtain ⟨cmp', hle, hupper⟩ :=
    evaluate_atomKind (show atomKind .ltEq true = some _ from rfl) hh hch (hasType_ite column hcr')
  cases hge
  cases hle
  rw [evaluateWhere, if_neg Bool.false_ne_true, Ternary.and_eq_true,
    evaluateComparison_eq_true hoperand (evaluateOperand_of_endpointValue hlow),
    evaluateComparison_eq_true hoperand (evaluateOperand_of_endpointValue hhigh)]
  have htrue := and_congr (Atom.true_iff hr hl) (Atom.true_iff hr' hh)
  simpa [AtomKind.literal] using (and_congr hlower hupper).trans htrue.symm

/-- The atoms of a term. -/
theorem evaluateWhere_of_predicateAtom (h : predicateAtom e = .ok (some atoms))
    (hfits : ∀ atom ∈ atoms, Fits columns row atom) :
    evaluateWhere columns row e = .ok .true ↔ ∀ atom ∈ atoms, atom.True columns row := by
  rw [← evaluateWhere_peel]
  unfold predicateAtom at h
  split at h
  case h_1 operand negated low high hpeel =>
    rw [hpeel]
    split at h
    case isTrue => cases h
    case isFalse hnegated =>
      obtain rfl := Bool.of_not_eq_true hnegated
      split at h
      case h_1 => cases h
      case h_2 column hcolumn =>
        obtain ⟨low, hlow, h⟩ := bind_eq_ok.mp h
        cases low with
        | none => cases h
        | some low =>
          obtain ⟨high, hhigh, h⟩ := bind_eq_ok.mp h
          cases high with
          | none => cases h
          | some high =>
            cases Except.ok.inj h
            exact evaluateWhere_between hcolumn hlow hhigh (hfits _ mem_cons_self)
              (hfits _ (mem_cons_of_mem _ mem_cons_self))
  case h_2 =>
    obtain ⟨atom, hatom, h⟩ := map_eq_ok.mp h
    obtain ⟨atom, rfl, rfl⟩ := map_eq_some_iff.mp h
    rw [evaluateWhere_of_comparisonAtom hatom (hfits atom mem_cons_self)]
    simp

theorem evaluateWhere_conjunction (e : Expr) :
    evaluateWhere columns row e = .ok .true ↔ ∀ term ∈ conjunction e,
    evaluateWhere columns row term = .ok .true := by
  induction e with
  | nested e ih => rw [evaluateWhere, conjunction, ih]
  | binaryOp left op right ihl ihr =>
    cases op with
    | and => rw [evaluateWhere, conjunction, Ternary.and_eq_true, ihl, ihr, forall_mem_append]
    | _ => simp [conjunction]
  | _ => simp [conjunction]

theorem evaluateWhere_of_collectAtoms {terms : List Expr} (h : collectAtoms terms = .ok (some atoms))
    (hfits : ∀ atom ∈ atoms, Fits columns row atom) :
    (∀ term ∈ terms, evaluateWhere columns row term = .ok .true) ↔ ∀ atom ∈ atoms,
    atom.True columns row := by
  induction terms generalizing atoms with
  | nil =>
    obtain rfl : [] = atoms := by simpa [collectAtoms] using h
    simp
  | cons term terms ih =>
    obtain ⟨first, hfirst, h⟩ := bind_eq_ok.mp h
    cases first with
    | none => cases h
    | some first =>
      obtain ⟨rest, hrest, h⟩ := bind_eq_ok.mp h
      cases rest with
      | none => cases h
      | some rest =>
        cases Except.ok.inj h
        rw [forall_mem_append] at hfits
        rw [forall_mem_cons, forall_mem_append, evaluateWhere_of_predicateAtom hfirst hfits.1,
          ih hrest hfits.2]

/-- **The predicate is true of the rows that are as its atoms ask.** -/
theorem satisfies_iff_atoms (h : predicateAtoms e = .ok (some atoms))
    (hfits : ∀ atom ∈ atoms, Fits columns row atom) :
    satisfies columns row e = true ↔ ∀ atom ∈ atoms, atom.True columns row := by
  obtain ⟨collected, hcollected, h⟩ := bind_eq_ok.mp h
  obtain rfl : collected = some atoms := by
    split at h
    · cases h
    · exact Except.ok.inj h
  rw [← evaluateWhere_of_collectAtoms hcollected hfits, ← evaluateWhere_conjunction]
  unfold satisfies
  split
  case h_1 heq => simp [heq]
  case h_2 hne => simpa using hne

end Atoms

/-! ### The columns of an index -/

section Columns

variable {tableColumns columns : List String} {tableTypes : List ColumnType}
  {resolved : List (ℕ × ColumnType)} {row : Row}

/-- The values of a row have the types of its columns. -/
def Typed (tableTypes : List ColumnType) (row : Row) : Prop :=
    List.Forall₂ (fun v t => v.hasType t = true) row tableTypes

theorem forall₂_of_resolveColumns (h : resolveColumns tableColumns tableTypes columns = some resolved) :
    List.Forall₂ (fun name pt => tableColumns.idxOf? name = some pt.1 ∧
      tableTypes[pt.1]? = some pt.2) columns resolved := by
  induction columns generalizing resolved with
  | nil =>
    obtain rfl : [] = resolved := by simpa [resolveColumns] using h
    exact .nil
  | cons name columns ih =>
    simp only [resolveColumns, mapM_cons, Option.bind_eq_bind, Option.bind_eq_some_iff, Option.pure_def,
      some.injEq] at h
    obtain ⟨_, ⟨p, hp, t, ht, rfl⟩, rest, hrest, rfl⟩ := h
    exact .cons ⟨hp, ht⟩ (ih hrest)

theorem Typed.exists_getElem? (h : Typed tableTypes row) {p : ℕ} {t : ColumnType}
    (ht : tableTypes[p]? = some t) : ∃ v, row[p]? = some v ∧ v.hasType t := by
  obtain ⟨hlt, rfl⟩ := List.getElem?_eq_some_iff.mp ht
  have hlt' : p < row.length := h.length_eq ▸ hlt
  exact ⟨row[p], List.getElem?_eq_getElem hlt', (List.forall₂_iff_get.mp h).2 p hlt' hlt⟩

/-- The values that an index reads from a row. -/
structure Reads (tableColumns columns : List String) (types : List ColumnType) (row r : Row) : Prop where
  length : r.length = columns.length
  typed : Typed types r
  value : ∀ (i : ℕ) (name : String), columns[i]? = some name → columnValue tableColumns row name = r[i]?

theorem exists_reads
    (h : List.Forall₂ (fun name pt => tableColumns.idxOf? name = some pt.1 ∧
      tableTypes[pt.1]? = some pt.2) columns resolved)
    (hrow : Typed tableTypes row) :
    ∃ r, (resolved.map Prod.fst).mapM (row[·]?) = some r ∧
    Reads tableColumns columns (resolved.map Prod.snd) row r := by
  induction h with
  | nil => exact ⟨[], rfl, rfl, .nil, nofun⟩
  | @cons name pt columns resolved hpt hrest ih =>
    obtain ⟨v, hv, htype⟩ := hrow.exists_getElem? hpt.2
    obtain ⟨r, hr, hlen, htyped, hvalue⟩ := ih
    refine ⟨v :: r, by simp [hv, hr], by simp [hlen], .cons htype htyped, ?_⟩
    rintro (_ | i) name' hname
    · cases hname
      simp [columnValue, hpt.1, hv]
    · exact hvalue i name' hname

end Columns

theorem holdAll_iff {α : Type} {P : α → Value → Prop} {as : List α} {r : Row}
    (hlen : as.length ≤ r.length) :
    HoldAll P as r ↔ ∀ (i : ℕ) (a : α), as[i]? = some a → ∀ v, r[i]? = some v → P a v := by
  induction as generalizing r with
  | nil => simp [HoldAll]
  | cons a as ih =>
    cases r with
    | nil => simp at hlen
    | cons v r =>
      rw [HoldAll, ih (Nat.le_of_succ_le_succ hlen)]
      constructor
      · rintro ⟨ha, has⟩ (_ | i) b hb w hw
        · cases hb
          cases hw
          exact ha
        · exact has i b hb w hw
      · intro h
        exact ⟨h 0 a rfl v rfl, fun i b hb w hw => h (i + 1) b hb w hw⟩

/-! ### Keys of rows -/

section Derive

variable {types : List ColumnType} {values r : Row} {generation : ℕ} {k k' buf : Bytes}

theorem new_ne_of_below (h : Library.Below k k') : Key.new k ≠ Key.new k' := (Key.lt_of_below h _ _).ne

theorem eq_of_secondaryIndexKey {c : ColumnType} {v w : Value} (hv : secondaryIndexKey c v = some k)
    (hw : secondaryIndexKey c w = some k') (hk : Key.new k = Key.new k') : v = w := by
  cases c <;> cases v <;> first | cases hv; done | skip
  all_goals cases w <;> first | cases hw; done | skip
  case int.int.int a b =>
    obtain rfl : toBeBytes a = k := some.inj hv
    obtain rfl : toBeBytes b = k' := some.inj hw
    rw [toBeBytes_eq, toBeBytes_eq] at hk
    have hlt : ∀ n : Int64, n.toUInt64.toNat < 256 ^ 8 := fun n => n.toUInt64.toNat_lt
    obtain h | h | h := Nat.lt_trichotomy a.toUInt64.toNat b.toUInt64.toNat
    · exact absurd hk (new_ne_of_below (below_encodeBE h (hlt b)))
    · exact congrArg (fun u => Value.int (.ofUInt64 u)) (UInt64.toNat_inj.mp h)
    · exact absurd hk (new_ne_of_below (below_encodeBE h (hlt a))).symm
  case string.string.string n a b =>
    have hv' : encodeOrderedComponent (.string n) (.string a) = some k := hv
    have hw' : encodeOrderedComponent (.string n) (.string b) = some k' := hw
    obtain h | ⟨-, h⟩ | ⟨-, h⟩ := encode_trichotomy hv' hw'
    · exact h
    · exact absurd hk (new_ne_of_below h)
    · exact absurd hk (new_ne_of_below h).symm

/-- A key is that of one row of values. -/
theorem eq_of_derive (hr : deriveSecondaryIndexKey types r generation = some k)
    (hv : deriveSecondaryIndexKey types values generation = some k') (hk : Key.new k = Key.new k') :
    r = values := by
  unfold deriveSecondaryIndexKey at hr hv
  split at hr
  · rw [if_pos ‹_›] at hv
    split at hr
    case h_1 c v =>
      split at hv
      case h_1 _ _ c' w hc =>
        obtain rfl := singleton_inj.mp hc
        rw [eq_of_secondaryIndexKey hr hv hk]
      case h_2 => cases hv
    case h_2 => cases hr
  · rw [if_neg ‹_›] at hv
    obtain ⟨hshape, hr⟩ := ite_none_left_eq_some.mp hr
    obtain ⟨hshape', hv⟩ := ite_none_left_eq_some.mp hv
    simp only [not_or, not_not] at hshape hshape'
    obtain h | ⟨-, h⟩ | ⟨-, h⟩ :=
      append_trichotomy (hshape.2.1.symm.trans hshape'.2.1) hshape.2.1.symm.le hr hv
    · exact h
    · exact absurd hk (new_ne_of_below h)
    · exact absurd hk (new_ne_of_below h).symm

/-- The key of an index that can be scanned by range. -/
theorem append_of_derive (husable : rangeOrderUsable generation types = true)
    (h : deriveSecondaryIndexKey types r generation = some k) :
    appendOrderedComponents [] (types.zip r) = some k := by
  unfold deriveSecondaryIndexKey at h
  split at h
  case isTrue hzero =>
    split at h
    case h_2 => cases h
    case h_1 c v =>
      rw [rangeOrderUsable, if_pos hzero, all_cons, Bool.and_eq_true] at husable
      cases c <;> cases husable.1
      case string n =>
        cases v <;> first | cases h | skip
        case string s =>
          have hlen := (encodeStringBytes_eq h).2
          exact appendOrderedComponents_cons.mpr
            ⟨k, h, by simpa using hlen, by simp [appendOrderedComponents]⟩
  case isFalse => exact (ite_none_left_eq_some.mp h).2

/-- A row with a key has no `NULL`. -/
theorem ne_null_of_append (hlen : r.length ≤ types.length)
    (h : appendOrderedComponents buf (types.zip r) = some k) : ∀ v ∈ r, v ≠ .null := by
  induction r generalizing types buf with
  | nil => simp
  | cons v r ih =>
    cases types with
    | nil => cases hlen
    | cons c types =>
      obtain ⟨part, hpart, -, h⟩ := appendOrderedComponents_cons.mp h
      refine forall_mem_cons.mpr ⟨?_, ih (Nat.le_of_succ_le_succ hlen) h⟩
      rintro rfl
      cases c <;> cases hpart

theorem ne_null_of_derive (h : deriveSecondaryIndexKey types r generation = some k) : ∀ v ∈ r,
    v ≠ .null := by
  unfold deriveSecondaryIndexKey at h
  split at h
  · split at h
    case h_1 c v =>
      refine forall_mem_singleton.mpr ?_
      rintro rfl
      cases c <;> cases h
    case h_2 => cases h
  · obtain ⟨hshape, h⟩ := ite_none_left_eq_some.mp h
    simp only [not_or, not_not] at hshape
    exact ne_null_of_append hshape.2.1.symm.le h

/-- Integers without `NULL` have a key, if they are at most four. -/
theorem exists_append_int (hint : ∀ t ∈ types, t = .int)
    (hlen : buf.length + 8 * types.length ≤ maxKeyLen)
    (htyped : Typed types r) (hnull : ∀ v ∈ r, v ≠ .null) : ∃ k,
    appendOrderedComponents buf (types.zip r) = some k := by
  induction htyped generalizing buf with
  | nil => exact ⟨buf, rfl⟩
  | @cons v t r types htype _ ih =>
    obtain rfl := hint t mem_cons_self
    obtain ⟨n, rfl⟩ : ∃ n, v = .int n := by
      cases v <;> simp [Value.hasType] at htype
      · exact ⟨_, rfl⟩
      · exact absurd rfl (hnull _ mem_cons_self)
    rw [length_cons] at hlen
    have hlen' : (buf ++ encodeBE 8 (biased n)).length + 8 * types.length ≤ maxKeyLen := by
      rw [length_append, length_encodeBE]
      omega
    obtain ⟨k, hk⟩ := ih (fun t ht => hint t (mem_cons_of_mem _ ht)) hlen'
      fun v hv => hnull v (mem_cons_of_mem _ hv)
    refine ⟨k, appendOrderedComponents_cons.mpr ⟨_, encodeOrderedComponent_int n, ?_, hk⟩⟩
    rw [length_encodeBE]
    omega

end Derive

section Explain

variable {tableColumns : List String} {tableTypes : List ColumnType}
  {index : SecondaryIndexRegistration} {atoms : List Atom} {resolved : List (ℕ × ColumnType)}
  {byPos : List (Option ColumnAtoms)} {slots : List ColumnAtoms} {bounds : List IndexColumnBound}
  {e : Expr} {row r : Row} {candidate : IndexCandidate} {ord : ℕ}

/-- **The bounds ask of the columns of the index what the atoms ask of the row.** -/
theorem holdAll_iff_atoms (hatoms : predicateAtoms e = .ok (some atoms))
    (hplace : atoms.foldlM (placeAtom index.columns)
      (List.replicate index.columns.length none) = some byPos)
    (hslots : (byPos.rdropWhile isNone).mapM id = some slots)
    (hbounds : mergeColumns (resolved.map Prod.snd) [] slots = some bounds)
    (hr : Reads tableColumns index.columns (resolved.map Prod.snd) row r) :
    (satisfies tableColumns row e = true ↔ ∀ atom ∈ atoms, atom.True tableColumns row) ∧
      (HoldAll IndexColumnBound.Holds bounds r ↔ ∀ atom ∈ atoms, atom.HoldsIn tableColumns row) := by
  obtain ⟨hcoded, -, hholds⟩ := mergeColumns_spec hbounds
  have hempty : ∀ Q, AllKinds Q (List.replicate index.columns.length none) := by
    intro Q i slot hslot
    nomatch (eq_of_mem_replicate (mem_of_getElem? hslot))
  have hplaced : ∀ Q : ℕ → AtomKind → Prop, AllKinds Q byPos ↔
      ∀ atom ∈ atoms, ∀ p, index.columns.idxOf? atom.column = some p → Q p atom.kind := by
    intro Q
    rw [(allKinds_foldlM hplace (length_replicate ..)).2.2, and_iff_right (hempty Q)]
  have hfound := (allKinds_foldlM (Q := fun _ _ => True) hplace (length_replicate ..)).2.1
  have hlit : ∀ atom ∈ atoms, ∀ p, index.columns.idxOf? atom.column = some p →
      Coded (resolved.map Prod.snd) p atom.kind.literal := by
    refine (hplaced fun p kind => Coded (resolved.map Prod.snd) p kind.literal).mp
      ((allKinds_slots hslots).2.mpr fun i slot hslot kind hkind => ?_)
    simpa using hcoded i slot hslot kind hkind
  have hfits : ∀ atom ∈ atoms, Fits tableColumns row atom := by
    intro atom hatom
    obtain ⟨p, hp⟩ := hfound atom hatom
    have hname := getElem?_of_idxOf? hp
    obtain ⟨t, part, ht, hpart⟩ := hlit atom hatom p hp
    obtain ⟨v, hv, htype⟩ := hr.typed.exists_getElem? ht
    obtain ⟨hkeyable, hlitType⟩ := keyable_of_encode hpart
    refine ⟨v, t, ?_, htype, hkeyable, hlitType⟩
    rw [hr.value p _ hname, hv]
  have hslen : slots.length ≤ r.length := by
    have := (allKinds_slots (Q := fun _ _ => True) hslots).1
    rw [(allKinds_foldlM (Q := fun _ _ => True) hplace (length_replicate ..)).1] at this
    exact this.trans_eq hr.length.symm
  refine ⟨satisfies_iff_atoms hatoms hfits, Iff.symm ?_⟩
  rw [hholds, holdAll_iff hslen]
  calc (∀ atom ∈ atoms, atom.HoldsIn tableColumns row)
      ↔ ∀ atom ∈ atoms, ∀ p, index.columns.idxOf? atom.column = some p → ∀ v, r[p]? = some v →
        atom.kind.Holds v := by
        refine forall₂_congr fun atom hatom => ?_
        obtain ⟨p, hp⟩ := hfound atom hatom
        simp [Atom.HoldsIn, hp, hr.value p _ (getElem?_of_idxOf? hp)]
    _ ↔ AllKinds (fun p kind => ∀ v, r[p]? = some v → kind.Holds v) byPos :=
        (hplaced fun p kind => ∀ v, r[p]? = some v → kind.Holds v).symm
    _ ↔ _ := by
        rw [(allKinds_slots hslots).2]
        exact forall₃_congr fun i slot _ =>
          ⟨fun h v hv kind hkind => h kind hkind v hv, fun h kind hkind v hv => h v hv kind hkind⟩

theorem eq_map_filterMap (h : bounds.all (·.value?.isSome) = true) :
    bounds = (bounds.filterMap IndexColumnBound.value?).map .eq := by
  induction bounds with
  | nil => rfl
  | cons bound bounds ih =>
    rw [all_cons, Bool.and_eq_true] at h
    cases bound with
    | eq value => exact congrArg (IndexColumnBound.eq value :: ·) (ih h.2)
    | range => cases h.1

/-- How an index explains the atoms. -/
theorem explainIndex_eq_some
    (h : explainIndex tableColumns tableTypes ord index atoms = some candidate) :
    ∃ resolved byPos slots bounds, resolveColumns tableColumns tableTypes index.columns = some resolved ∧
      atoms.foldlM (placeAtom index.columns) (List.replicate index.columns.length none) = some byPos ∧
      (byPos.rdropWhile isNone).mapM id = some slots ∧
      mergeColumns (resolved.map Prod.snd) [] slots = some bounds ∧
      ((∃ values key, bounds = values.map .eq ∧ values.length = resolved.length ∧
          deriveSecondaryIndexKey (resolved.map Prod.snd) values index.generation = some key ∧
          candidate.route = .equality index.name (Key.new key)) ∨
        ∃ sentinels, rangeOrderUsable index.generation (resolved.map Prod.snd) = true ∧
          secondaryRangeBounds (resolved.map Prod.snd) bounds = some sentinels ∧
          candidate.route = .range index.name sentinels
            (needsOmittedScan index.generation (resolved.map Prod.snd))
            (resolved.map Prod.fst) (resolved.map Prod.snd) index.generation) := by
  obtain ⟨resolved, hresolved, h⟩ := bind_eq_some_iff.mp h
  obtain ⟨byPos, hplace, h⟩ := bind_eq_some_iff.mp h
  obtain ⟨slots, hslots, h⟩ := bind_eq_some_iff.mp h
  obtain ⟨-, h⟩ := ite_none_left_eq_some.mp h
  obtain ⟨bounds, hbounds, h⟩ := bind_eq_some_iff.mp h
  refine ⟨resolved, byPos, slots, bounds, hresolved, hplace, hslots, hbounds, ?_⟩
  split at h
  case isTrue hfull =>
    obtain ⟨key, hkey, ⟨⟩⟩ := bind_eq_some_iff.mp h
    have heq := eq_map_filterMap hfull.2
    refine .inl ⟨bounds.filterMap IndexColumnBound.value?, key, heq, ?_, hkey, rfl⟩
    rw [← length_map IndexColumnBound.eq, ← heq, hfull.1, length_map]
  case isFalse =>
    split at h
    · cases h
    case isFalse husable =>
      obtain ⟨sentinels, hsentinels, ⟨⟩⟩ := bind_eq_some_iff.mp h
      exact .inr ⟨sentinels, by simpa using husable, hsentinels, rfl⟩

/-- The values that the index reads have no `NULL`. -/
theorem Reads.forall_ne_null (hr : Reads tableColumns index.columns (resolved.map Prod.snd) row r) :
    (∀ v ∈ r, v ≠ .null) ↔ ∀ name ∈ index.columns, columnValue tableColumns row name ≠ some .null := by
  constructor
  · intro h name hname hvalue
    obtain ⟨i, hi, rfl⟩ := mem_iff_getElem.mp hname
    rw [hr.value i _ (getElem?_eq_getElem hi)] at hvalue
    exact h _ (mem_of_getElem? hvalue) rfl
  · intro h v hv hveq
    obtain ⟨i, hi, rfl⟩ := mem_iff_getElem.mp hv
    have hi' : i < index.columns.length := hr.length ▸ hi
    have hname : index.columns[i]? = some index.columns[i] := getElem?_eq_getElem hi'
    refine h _ (mem_of_getElem? hname) ?_
    rw [hr.value i _ hname, getElem?_eq_getElem hi, hveq]

/-- Where no scan of the table is needed, a row without `NULL` in the index has a key. -/
theorem exists_derive (homitted : needsOmittedScan index.generation (resolved.map Prod.snd) = false)
    (hr : Reads tableColumns index.columns (resolved.map Prod.snd) row r) (hvalues : ∀ v ∈ r, v ≠ .null)
    (hne : resolved ≠ []) : ∃ k,
    deriveSecondaryIndexKey (resolved.map Prod.snd) r index.generation = some k := by
  simp only [needsOmittedScan, Bool.not_eq_false', Bool.and_eq_true, decide_eq_true_eq,
    all_eq_true] at homitted
  obtain ⟨⟨hgeneration, hfour⟩, hint⟩ := homitted
  have hfits : ([] : Bytes).length + 8 * (resolved.map Prod.snd).length ≤ maxKeyLen := by
    rw [length_nil, maxKeyLen]
    omega
  rw [hgeneration]
  obtain ⟨b, hb⟩ := exists_append_int hint hfits hr.typed hvalues
  exact ⟨b, by simp [deriveSecondaryIndexKey, hr.typed.length_eq, hne, hb]⟩

/-- An index whose rows the scan of a range does not look for in the table: at most four
integers. -/
def IntIndex (tableColumns : List String) (tableTypes : List ColumnType)
    (index : SecondaryIndexRegistration) : Prop :=
  index.generation = 1 ∧ index.columns.length ≤ 4 ∧
    ∀ name ∈ index.columns, (tableColumns.idxOf? name).bind (tableTypes[·]?) = some .int

theorem needsOmittedScan_eq_false
    (hresolved : resolveColumns tableColumns tableTypes index.columns = some resolved) :
    needsOmittedScan index.generation (resolved.map Prod.snd) = false ↔
    IntIndex tableColumns tableTypes index := by
  have hforall := forall₂_of_resolveColumns hresolved
  have hint : (∀ t ∈ resolved.map Prod.snd, t = .int) ↔
      ∀ name ∈ index.columns, (tableColumns.idxOf? name).bind (tableTypes[·]?) = some .int := by
    clear hresolved
    generalize index.columns = names at hforall
    induction hforall with
    | nil => simp
    | cons hpt _ ih => rw [map_cons, forall_mem_cons, forall_mem_cons, ih, hpt.1, bind_some, hpt.2, some.injEq]
  simp only [needsOmittedScan, Bool.not_eq_false', Bool.and_eq_true, decide_eq_true_eq, all_eq_true,
    hint, IntIndex, length_map, hforall.length_eq, and_assoc]

theorem indexKey_eq (hresolved : resolveColumns tableColumns tableTypes index.columns = some resolved)
    (hr : (resolved.map Prod.fst).mapM (row[·]?) = some r) :
    indexKey tableColumns tableTypes index row =
      (deriveSecondaryIndexKey (resolved.map Prod.snd) r index.generation).map Key.new := by
  simp only [indexKey, hresolved, hr, bind_eq_bind, bind_some]
  cases deriveSecondaryIndexKey (resolved.map Prod.snd) r index.generation <;> rfl

/-- **What a candidate reads**: the rows with a key that are as the atoms ask, and those without a
key if it looks for them. -/
theorem selects_iff {indexes : List SecondaryIndexRegistration}
    (hatoms : predicateAtoms e = .ok (some atoms))
    (h : explainIndex tableColumns tableTypes ord index atoms = some candidate)
    (hindex : indexes.find? (·.name = index.name) = some index) (hrow : Typed tableTypes row) :
    (satisfies tableColumns row e = true ↔ ∀ atom ∈ atoms, atom.True tableColumns row) ∧
    (candidate.route.selects tableColumns tableTypes indexes e row = true ↔
      (∃ k, indexKey tableColumns tableTypes index row = some k) ∧
      (∀ atom ∈ atoms, atom.HoldsIn tableColumns row) ∨
        candidate.route.omittedScan = true ∧ indexKey tableColumns tableTypes index row = none ∧
          satisfies tableColumns row e = true) ∧
    (satisfies tableColumns row e = true →
      ((∃ k, indexKey tableColumns tableTypes index row = some k) ∨ candidate.route.omittedScan = true ↔
        (IntIndex tableColumns tableTypes index →
          ∀ name ∈ index.columns, columnValue tableColumns row name ≠ some .null))) := by
  obtain ⟨resolved, byPos, slots, bounds, hresolved, hplace, hslots, hbounds, hroute⟩ :=
    explainIndex_eq_some h
  obtain ⟨r, hr, hreads⟩ := exists_reads (forall₂_of_resolveColumns hresolved) hrow
  obtain ⟨hsat, hholds⟩ := holdAll_iff_atoms hatoms hplace hslots hbounds hreads
  have hkey := indexKey_eq hresolved hr
  have hnull : (∃ k, indexKey tableColumns tableTypes index row = some k) →
      ∀ name ∈ index.columns, columnValue tableColumns row name ≠ some .null := by
    rintro ⟨k, hk⟩
    rw [hkey] at hk
    obtain ⟨k, hk, -⟩ := map_eq_some_iff.mp hk
    exact hreads.forall_ne_null.mp (ne_null_of_derive hk)
  refine ⟨hsat, ?_⟩
  rw [← hholds]
  obtain ⟨values, key, rfl, hvalues, hderive, hroute⟩ | ⟨sentinels, husable, hsentinels, hroute⟩ :=
    hroute
  · have hlength : values.length = r.length := by
      rw [hvalues, hreads.length, (forall₂_of_resolveColumns hresolved).length_eq]
    rw [holdAll_map_eq hlength.le, hlength, take_length] at hholds ⊢
    rw [hroute, SecondaryRoute.selects, hindex]
    refine ⟨?_, fun hs => ?_⟩
    · simp only [hkey, decide_eq_true_eq, map_eq_some_iff, SecondaryRoute.omittedScan,
        Bool.false_eq_true, false_and, or_false]
      constructor
      · rintro ⟨k, hk, heq⟩
        exact ⟨⟨_, k, hk, rfl⟩, eq_of_derive hk hderive heq⟩
      · rintro ⟨-, rfl⟩
        exact ⟨key, hderive, rfl⟩
    · obtain rfl := hholds.mpr fun atom hatom => (hsat.mp hs atom hatom).2
      have hsome : ∃ k, indexKey tableColumns tableTypes index row = some k :=
        ⟨_, by rw [hkey, hderive]; rfl⟩
      exact iff_of_true (.inl hsome) fun _ => hnull hsome
  · rw [hroute, SecondaryRoute.selects, hindex, hr, SecondaryRoute.omittedScan]
    refine ⟨?_, fun _ => ⟨fun h hint => ?_, fun h => ?_⟩⟩
    · simp only [hkey, Bool.or_eq_true, Bool.and_eq_true]
      cases hderive : deriveSecondaryIndexKey (resolved.map Prod.snd) r index.generation with
      | some k => simp [contains_iff hsentinels hreads.typed.length_eq (append_of_derive husable hderive)]
      | none => simp
    · rw [(needsOmittedScan_eq_false hresolved).mpr hint] at h
      exact hnull (h.resolve_right Bool.false_ne_true)
    · refine or_iff_not_imp_right.mpr fun homitted => ?_
      have homitted := Bool.of_not_eq_true homitted
      have hvalues := h ((needsOmittedScan_eq_false hresolved).mp homitted)
      have hne : resolved ≠ [] := by
        rintro rfl
        obtain ⟨_, _, _, _, hlt, -⟩ | ⟨_, _, _, _, _, _, hcolumn, -⟩ :=
          secondaryRangeBounds_eq_some hsentinels
        · nomatch hlt
        · nomatch hcolumn
      obtain ⟨k, hk⟩ := exists_derive homitted hreads (hreads.forall_ne_null.mpr hvalues) hne
      exact ⟨_, by rw [hkey, hk]; rfl⟩

/-- What has to hold of a row for the index to serve it as the predicate says: if it satisfies the
predicate and the index is one of integers, no column of the index is `NULL`; and if the predicate
is about a column called `null`, the row has no key or is not as the atoms ask. -/
def Serves (tableColumns : List String) (tableTypes : List ColumnType) (e : Expr)
    (index : SecondaryIndexRegistration) (atoms : List Atom) (row : Row) : Prop :=
  (IntIndex tableColumns tableTypes index → satisfies tableColumns row e = true →
    ∀ name ∈ index.columns, columnValue tableColumns row name ≠ some .null) ∧
  ((∃ atom ∈ atoms, atom.column = "null") → (∀ atom ∈ atoms, atom.HoldsIn tableColumns row) →
    indexKey tableColumns tableTypes index row = none)

/-- **The rows that a candidate reads are those that satisfy the predicate**, exactly where the
index serves them. -/
theorem selects_eq_satisfies_iff {indexes : List SecondaryIndexRegistration}
    (hatoms : predicateAtoms e = .ok (some atoms))
    (h : explainIndex tableColumns tableTypes ord index atoms = some candidate)
    (hindex : indexes.find? (·.name = index.name) = some index) (hrow : Typed tableTypes row) :
    candidate.route.selects tableColumns tableTypes indexes e row = satisfies tableColumns row e ↔
      Serves tableColumns tableTypes e index atoms row := by
  obtain ⟨hsat, hselects, hkey⟩ := selects_iff hatoms h hindex hrow
  rw [Bool.eq_iff_iff, hselects, Serves]
  by_cases hnull : ∃ atom ∈ atoms, atom.column = "null"
  · -- the predicate is true of no row
    have hfalse : satisfies tableColumns row e = false := by
      obtain ⟨atom, hatom, hname⟩ := hnull
      exact Bool.eq_false_iff.mpr fun hs => (hsat.mp hs atom hatom).1 hname
    rw [hfalse, Option.eq_none_iff_forall_ne_some]
    grind
  · have hholds : (∀ atom ∈ atoms, atom.HoldsIn tableColumns row) ↔
      satisfies tableColumns row e = true := by
      rw [hsat]
      exact forall₂_congr fun atom hatom => (and_iff_right fun hname => hnull ⟨atom, hatom, hname⟩).symm
    rw [hholds]
    cases hk : indexKey tableColumns tableTypes index row <;> rw [hk] at hkey <;> grind

end Explain

/-! ### The route that is taken -/

theorem find?_name {indexes : List SecondaryIndexRegistration} (hnodup : (indexes.map (·.name)).Nodup)
    {index : SecondaryIndexRegistration} (hmem : index ∈ indexes) :
    indexes.find? (·.name = index.name) = some index := by
  induction indexes with
  | nil => cases hmem
  | cons a indexes ih =>
    rw [map_cons, nodup_cons] at hnodup
    obtain rfl | hmem := mem_cons.mp hmem
    · simp
    · have hne : a.name ≠ index.name := fun h => hnodup.1 (h ▸ mem_map_of_mem hmem)
      rw [find?_cons_of_neg (by simpa using hne), ih hnodup.2 hmem]

theorem filter_eq_filter_iff {α : Type} {p q : α → Bool} {l : List α} : l.filter p = l.filter q ↔
    ∀ a ∈ l, p a = q a := by
  refine ⟨fun h a ha => ?_, filter_congr⟩
  have hiff : a ∈ l.filter p ↔ a ∈ l.filter q := by rw [h]
  simpa [ha, ← Bool.eq_iff_iff] using hiff

/-- Whatever route is taken for a predicate, it reads the rows that satisfy it, exactly where its
index serves every row. -/
theorem secondary_route_rows {b : PlanBuilder} {table : String} {e : Expr} {route : SecondaryRoute}
    {columns : List String} {types : List ColumnType} {indexes : List SecondaryIndexRegistration}
    {rows : List Row}
    (hcolumns : b.tables table = some columns) (htypes : b.tableColumnTypes table = some types)
    (hindexes : b.tableSecondaryIndexes table = some indexes) (hnames : (indexes.map (·.name)).Nodup)
    (hroute : b.routeSecondaryIndex table e = .ok (some route)) (hrows : ∀ row ∈ rows, Typed types row) :
    rows.filter (fun row => route.selects columns types indexes e row) = rows.filter
      (fun row => satisfies columns row e) ↔
      ∃ index ∈ indexes, index.name = route.indexName ∧ ∃ atoms, predicateAtoms e = .ok (some atoms) ∧
        ∀ row ∈ rows, Serves columns types e index atoms row := by
  simp only [PlanBuilder.routeSecondaryIndex, hindexes, hcolumns, htypes] at hroute
  obtain ⟨atoms, hatoms, hroute⟩ := bind_eq_ok.mp hroute
  cases atoms with
  | none => cases hroute
  | some atoms =>
    obtain ⟨candidate, hhead, rfl⟩ := map_eq_some_iff.mp (Except.ok.inj hroute)
    have hcandidate := (mem_insertionSort _).mp (mem_of_mem_head? hhead)
    obtain ⟨⟨index, ord⟩, hindex, hexplain⟩ := mem_filterMap.mp hcandidate
    have hmem : index ∈ indexes := (mem_zipIdx' hindex).2 ▸ getElem_mem _
    have hfind := find?_name hnames hmem
    have hname : index.name = candidate.route.indexName := by
      obtain ⟨_, _, _, _, _, _, _, _, ⟨_, _, _, _, _, hroute⟩ | ⟨_, _, _, hroute⟩⟩ :=
        explainIndex_eq_some hexplain <;>
        rw [hroute] <;> rfl
    rw [filter_eq_filter_iff]
    constructor
    · intro h
      exact ⟨index, hmem, hname, atoms, hatoms, fun row hrow =>
        (selects_eq_satisfies_iff hatoms hexplain hfind (hrows row hrow)).mp (h row hrow)⟩
    · rintro ⟨index', hmem', hname', atoms', hatoms', h⟩ row hrow
      cases hatoms.symm.trans hatoms'
      obtain rfl : index' = index := by
        have hfind' := find?_name hnames hmem'
        rw [hname', ← hname, hfind] at hfind'
        exact (some.inj hfind').symm
      exact (selects_eq_satisfies_iff hatoms hexplain hfind (hrows row hrow)).mpr (h row hrow)

/-- A table of integers `id`, `a` and `b` with an index on `a` and `b`. -/
def pairBuilder : PlanBuilder where
  tables _ := some ["id", "a", "b"]
  tableColumnTypes _ := some [.int, .int, .int]
  tableSecondaryIndexes _ := some [⟨"ab", 1, ["a", "b"]⟩]

/-- `a = 1`. -/
def aIsOne : Expr := .binaryOp (.identifier "a") .eq (.value (.value (.int 1)))

/-- Of the rows `(1, 1, -5)`, `(2, 1, 7)` and `(3, 2, NULL)`, the route for `a = 1` reads the first
two. -/
theorem secondary_route_rows_of_pair : ∃ route,
    pairBuilder.routeSecondaryIndex "t" aIsOne = .ok (some route) ∧
    [[.int 1, .int 1, .int (-5)], [.int 2, .int 1, .int 7], [.int 3, .int 2, .null]].filter
      (fun row => route.selects ["id", "a", "b"] [.int, .int, .int] [⟨"ab", 1, ["a", "b"]⟩] aIsOne row) =
      [[.int 1, .int 1, .int (-5)], [.int 2, .int 1, .int 7]] := by
  obtain ⟨route, hok, hname⟩ : ∃ route, pairBuilder.routeSecondaryIndex "t" aIsOne = .ok (some route) ∧
      "ab" = route.indexName := by decide +kernel
  refine ⟨route, hok, ?_⟩
  have htyped : ∀ row ∈ [[Value.int 1, .int 1, .int (-5)], [.int 2, .int 1, .int 7],
    [.int 3, .int 2, .null]],
      Typed [.int, .int, .int] row := by simp [Typed, Value.hasType]
  rw [(secondary_route_rows rfl rfl rfl (by simp) hok htyped).mpr ?_]
  · decide +kernel
  · refine ⟨⟨"ab", 1, ["a", "b"]⟩, mem_singleton_self _, hname, [⟨"a", .eq (.int 1)⟩], rfl,
      fun row hrow => ⟨fun _ => ?_, ?_⟩⟩
    · revert row
      decide +kernel
    · simp

/-- The row `(1, 1, NULL)` satisfies `a = 1` and is not read: it has no key in the index, and the
table is not scanned for it. -/
theorem secondary_route_misses_row :
    ∃ route, pairBuilder.routeSecondaryIndex "t" aIsOne = .ok (some route) ∧
    satisfies ["id", "a", "b"] [.int 1, .int 1, .null] aIsOne = true ∧
    route.selects ["id", "a", "b"] [.int, .int, .int] [⟨"ab", 1, ["a", "b"]⟩] aIsOne
      [.int 1, .int 1, .null] = false := by
  decide +kernel

end RTsql.Parser

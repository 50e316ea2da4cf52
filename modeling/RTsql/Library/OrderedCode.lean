import RTsql.Library.Bytes
import Mathlib.Data.List.Lex
import Mathlib.Order.Lattice

/-!
# Codes that keep an order

Words over ordered letters, compared letter by letter. `Below s t` says that `s` is smaller at a
letter that both have, so that neither is a beginning of the other: whatever is appended to them,
`s` stays smaller. A code in which smaller values have words below those of larger ones can
therefore be followed by further codes, and by padding.

The letters of a string are its bytes. `encodeBE width n` are the lowest `width` bytes of a number,
the highest first: such a code for the numbers that fit. -/

namespace RTsql.Library

open List

universe u v

variable {β : Type u} {γ : Type v}

/-- The first word is smaller where they first differ, at a letter of both. -/
inductive Below [LT β] : List β → List β → Prop
  | head {a b : β} (h : a < b) (s t : List β) : Below (a :: s) (b :: t)
  | cons (a : β) {s t : List β} (h : Below s t) : Below (a :: s) (a :: t)

namespace Below

section LT

variable [LT β] [LT γ] {s t : List β}

theorem append (h : Below s t) (s' t' : List β) : Below (s ++ s') (t ++ t') := by
  induction h with
  | head h s t => exact .head h _ _
  | cons a _ ih => exact .cons a ih

theorem prepend (p : List β) (h : Below s t) : Below (p ++ s) (p ++ t) := by
  induction p with
  | nil => exact h
  | cons a p ih => exact .cons a ih

theorem map {f : β → γ} (hf : ∀ a b, a < b → f a < f b) (h : Below s t) : Below (s.map f) (t.map f) := by
  induction h with
  | head h s t => exact .head (hf _ _ h) _ _
  | cons a _ ih => exact .cons (f a) ih

theorem lt (h : Below s t) : s < t := by
  induction h with
  | head h s t => exact List.Lex.rel h
  | cons a _ ih => exact List.Lex.cons ih

end LT

end Below

variable [LinearOrder β]

theorem append_le_append_left (p : List β) {s t : List β} (h : s ≤ t) : p ++ s ≤ p ++ t := by
  obtain rfl | hlt := h.eq_or_lt
  · exact le_rfl
  · exact (append_left_lt hlt).le

/-- Padding with the least letter gives the least word. -/
theorem replicate_le {lo : β} (hlo : ∀ b, lo ≤ b) (l : List β) : List.replicate l.length lo ≤ l := by
  induction l with
  | nil => exact le_rfl
  | cons a l ih =>
    obtain rfl | hlt := (hlo a).eq_or_lt
    · exact append_le_append_left [lo] ih
    · exact (List.Lex.rel hlt : _ < _).le

theorem le_replicate {hi : β} {l : List β} (hhi : ∀ b ∈ l, b ≤ hi) : l ≤ List.replicate l.length hi := by
  induction l with
  | nil => exact le_rfl
  | cons a l ih =>
    have htail : l ≤ List.replicate l.length hi := ih fun b hb => hhi b (mem_cons_of_mem _ hb)
    obtain rfl | hlt := (hhi a mem_cons_self).eq_or_lt
    · exact append_le_append_left [a] htail
    · exact (List.Lex.rel hlt : _ < _).le

/-! ### Strings -/

theorem toList_loop (bytes : ByteArray) (i : ℕ) (acc : List UInt8) :
    ByteArray.toList.loop bytes i acc = acc.reverse ++ bytes.data.toList.drop i := by
  fun_induction ByteArray.toList.loop bytes i acc with
  | case1 i acc hlt ih =>
    have hget : bytes.data.toList.drop i = bytes.get! i :: bytes.data.toList.drop (i + 1) := by
      rw [drop_eq_getElem_cons (by simpa using hlt)]
      simp [ByteArray.get!, hlt]
    rw [ih, hget, reverse_cons, append_assoc, singleton_append]
  | case2 i acc hge => rw [drop_eq_nil_of_le (by simpa using hge), append_nil]

/-- A string is given by its bytes. -/
theorem eq_of_toUTF8_toList {s t : String} (h : s.toUTF8.toList = t.toUTF8.toList) : s = t := by
  have hdata : ∀ bytes : ByteArray, bytes.toList = bytes.data.toList :=
    fun bytes => toList_loop bytes 0 []
  rw [hdata, hdata, Array.toList_inj] at h
  exact String.toByteArray_inj.mp (ByteArray.ext h)

/-! ### Numbers -/

/-- The lowest bytes of a number, the highest one first. -/
def encodeBE : ℕ → ℕ → List UInt8
  | 0, _ => []
  | width + 1, n => UInt8.ofNat (n / 256 ^ width) :: encodeBE width n

@[simp] theorem length_encodeBE (width n : ℕ) : (encodeBE width n).length = width := by
  induction width with
  | zero => rfl
  | succ width ih => rw [encodeBE, length_cons, ih]

/-- Only the lowest bytes matter. -/
theorem encodeBE_congr {width m n : ℕ} (h : m % 256 ^ width = n % 256 ^ width) :
    encodeBE width m = encodeBE width n := by
  induction width with
  | zero => rfl
  | succ width ih =>
    have hlow : m % 256 ^ width = n % 256 ^ width := by
      have := congrArg (· % 256 ^ width) h
      simpa [Nat.pow_succ, Nat.mod_mul_right_mod] using this
    have hhigh : m / 256 ^ width % 256 = n / 256 ^ width % 256 := by
      rw [← Nat.mod_mul_right_div_self, ← Nat.mod_mul_right_div_self, ← Nat.pow_succ, h]
    have hbyte : UInt8.ofNat (m / 256 ^ width) = UInt8.ofNat (n / 256 ^ width) := by
      apply UInt8.toNat_inj.mp
      simpa using hhigh
    rw [encodeBE, encodeBE, hbyte, ih hlow]

/-- The code keeps the order of the numbers that fit. -/
theorem below_encodeBE {width m n : ℕ} (hlt : m < n) (hn : n < 256 ^ width) :
    Below (encodeBE width m) (encodeBE width n) := by
  induction width generalizing m n with
  | zero => omega
  | succ width ih =>
    have hpos : 0 < 256 ^ width := Nat.pow_pos (by decide)
    have hsmall : ∀ k, k ≤ n → k / 256 ^ width < 256 := fun k hk => by
      rw [Nat.div_lt_iff_lt_mul hpos, Nat.mul_comm]
      exact hk.trans_lt hn
    obtain heq | hdiv := (Nat.div_le_div_right hlt.le : m / 256 ^ width ≤ n / 256 ^ width).eq_or_lt
    · -- the highest bytes agree, so the rest decides
      have hrest : m % 256 ^ width < n % 256 ^ width := by
        have hm := Nat.div_add_mod m (256 ^ width)
        have hn := Nat.div_add_mod n (256 ^ width)
        rw [heq] at hm
        omega
      rw [encodeBE, encodeBE, heq, ← encodeBE_congr (Nat.mod_mod m _),
        ← encodeBE_congr (Nat.mod_mod n _)]
      exact .cons _ (ih hrest (Nat.mod_lt _ hpos))
    · refine .head (UInt8.lt_iff_toNat_lt.mpr ?_) _ _
      simpa [Nat.mod_eq_of_lt (hsmall m hlt.le), Nat.mod_eq_of_lt (hsmall n le_rfl)] using hdiv

end RTsql.Library

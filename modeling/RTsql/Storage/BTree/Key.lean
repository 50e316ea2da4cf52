import RTsql.Library.OrderedCode
import RTsql.Storage.Value
import Mathlib.Order.BoundedOrder.Basic

/-!
# Keys of a tree

`key.rs`. A key is compared by its bytes, the shorter ones padded with zeros up to 32. The least key
is the one of no bytes at all. -/

namespace RTsql.Storage

/-- The bytes, as numbers. -/
def Key.toNats (k : Key) : List ℕ := k.data.map UInt8.toNat

theorem Key.toNats_injective : Function.Injective Key.toNats := by
  rintro ⟨a⟩ ⟨b⟩ hab
  exact congrArg Key.mk (List.map_injective_iff.mpr (fun x y => UInt8.toNat_inj.mp) hab)

/-- `Key::cmp`: byte by byte. -/
instance : LinearOrder Key := LinearOrder.lift' Key.toNats Key.toNats_injective

instance : OrderBot Key where
  bot := ⟨[]⟩
  bot_le k := by
    show ([] : List ℕ) ≤ k.toNats
    exact not_lt.mp (List.not_lt_nil k.toNats)

/-- A key at its full length: what a page holds. -/
def PaddedKey : Type := { k : Key // k.data.length = maxKeyLen }
  deriving DecidableEq

namespace PaddedKey

instance : LinearOrder PaddedKey := LinearOrder.lift' Subtype.val Subtype.val_injective

/-- `Key::new`, which takes at most 32 bytes. -/
def new (bytes : Bytes) (h : bytes.length ≤ maxKeyLen) : PaddedKey :=
  ⟨Key.new bytes, Key.length_new h⟩

/-- The key of one byte. -/
def byte (b : UInt8) : PaddedKey := new [b] (Nat.le_add_left ..)

/-- `Key::new(b"")`. -/
instance : OrderBot PaddedKey where
  bot := new [] (Nat.zero_le _)
  bot_le := by
    rintro ⟨k, hk⟩
    show (List.replicate maxKeyLen (0 : UInt8)).map UInt8.toNat ≤ k.toNats
    have hlen : k.toNats.length = maxKeyLen := by rw [Key.toNats, List.length_map, hk]
    rw [List.map_replicate, ← hlen]
    exact Library.replicate_le Nat.zero_le _

end PaddedKey

end RTsql.Storage

import Mathlib

/-!
# Times and key parts of relay processors

The values that the key programs of deduplicators and reorderers produce for one row, with the
equality and the order under which the processors compare them.
-/

namespace Nervix.Processors

abbrev Timestamp := Int

def Timestamp.max : Timestamp := 2 ^ 63 - 1

def checkedAddDurationToTimestamp (base : Timestamp) (duration : Nat) : Timestamp :=
  min (base + duration) Timestamp.max

theorem checkedAddDurationToTimestamp_mono (hs : s ≤ t) (hd : d ≤ e) :
    checkedAddDurationToTimestamp s d ≤ checkedAddDurationToTimestamp t e := by
  exact min_le_min (Int.add_le_add hs (Int.ofNat_le.mpr hd)) le_rfl

structure OrderedFloat where
  bits : UInt64
deriving DecidableEq

def OrderedFloat.order (f : OrderedFloat) : Int :=
  let magnitude : Nat := f.bits.toNat % 2 ^ 63
  if 0x7ff0000000000000 < magnitude then 2 ^ 63
  else if f.bits.toNat < 2 ^ 63 then magnitude else -magnitude

inductive ReorderKeyPart
  | null
  | boolean (value : Bool)
  | int64 (value : Int64)
  | uint64 (value : UInt64)
  | float64 (value : OrderedFloat)
  | utf8 (value : List UInt8)
  | bytes (value : List UInt8)
  | datetime (value : Int64)
deriving DecidableEq

def ReorderKeyPart.ordinal : ReorderKeyPart → ℕ ×ₗ List ℤ
  | null => toLex (0, [])
  | boolean value => toLex (1, [if value then 1 else 0])
  | int64 value => toLex (2, [value.toInt])
  | uint64 value => toLex (3, [(value.toNat : ℤ)])
  | float64 value => toLex (4, [value.order])
  | utf8 value => toLex (5, value.map fun b => (b.toNat : ℤ))
  | bytes value => toLex (6, value.map fun b => (b.toNat : ℤ))
  | datetime value => toLex (7, [value.toInt])

abbrev RowKey := List ReorderKeyPart

def RowKey.ordinal (key : RowKey) : List (ℕ ×ₗ List ℤ) := key.map ReorderKeyPart.ordinal

end Nervix.Processors

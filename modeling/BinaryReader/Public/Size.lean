import Mathlib.Data.UInt
import Mathlib.Tactic.Common

/-!
# Bit positions

`Size` counts bits in a 64-bit word, so its arithmetic wraps.  The lemmas below
state every operation on `bitCount` and leave the wrap explicit.
-/

namespace BinaryReader

structure Size where
  pos : UInt64
  deriving DecidableEq, Repr

namespace Size

def zero : Size := ⟨0⟩

def fromBytes (bytes : Nat) : Size := ⟨.ofNat bytes * 8⟩

def fromBytesAndOffset (bytes bitOffset : Nat) : Size := ⟨.ofNat bytes * 8 + .ofNat bitOffset⟩

def fromBits (bits : Nat) : Size := ⟨.ofNat bits⟩

instance : Add Size := ⟨fun a b => ⟨a.pos + b.pos⟩⟩

instance : Sub Size := ⟨fun a b => ⟨a.pos - b.pos⟩⟩

def addAssign (a b : Size) : Size := ⟨a.pos + b.pos⟩

/-- `operator-=`, which adds its operand. -/
def subAssign (a b : Size) : Size := ⟨a.pos + b.pos⟩

def bitCount (size : Size) : Nat := size.pos.toNat

def bitOffset (size : Size) : Nat := size.bitCount % 8

def byteCount (size : Size) : Nat := size.bitCount / 8

def clipToByte (size : Size) : Size := ⟨size.pos - size.pos % 8⟩

instance : LT Size := ⟨fun a b => a.bitCount < b.bitCount⟩

instance : LE Size := ⟨fun a b => a.bitCount ≤ b.bitCount⟩

instance (a b : Size) : Decidable (a < b) := inferInstanceAs (Decidable (a.bitCount < b.bitCount))

instance (a b : Size) : Decidable (a ≤ b) := inferInstanceAs (Decidable (a.bitCount ≤ b.bitCount))

theorem lt_iff (a b : Size) : a < b ↔ a.bitCount < b.bitCount := Iff.rfl

theorem le_iff (a b : Size) : a ≤ b ↔ a.bitCount ≤ b.bitCount := Iff.rfl

theorem bitCount_lt (size : Size) : size.bitCount < 2 ^ 64 := size.pos.toNat_lt

theorem bitCount_injective {a b : Size} (same : a.bitCount = b.bitCount) : a = b := by
  cases a
  cases b
  exact congrArg Size.mk (UInt64.toNat_inj.mp same)

@[simp]
theorem bitCount_zero : zero.bitCount = 0 := rfl

@[simp]
theorem bitCount_add (a b : Size) : (a + b).bitCount = (a.bitCount + b.bitCount) % 2 ^ 64 :=
  UInt64.toNat_add a.pos b.pos

@[simp]
theorem bitCount_addAssign (a b : Size) :
    (a.addAssign b).bitCount = (a.bitCount + b.bitCount) % 2 ^ 64 :=
  UInt64.toNat_add a.pos b.pos

@[simp]
theorem bitCount_subAssign (a b : Size) :
    (a.subAssign b).bitCount = (a.bitCount + b.bitCount) % 2 ^ 64 :=
  UInt64.toNat_add a.pos b.pos

theorem bitCount_sub (a b : Size) :
    (a - b).bitCount = (2 ^ 64 - b.bitCount + a.bitCount) % 2 ^ 64 :=
  UInt64.toNat_sub a.pos b.pos

theorem bitCount_sub_of_le {a b : Size} (ordered : b.bitCount ≤ a.bitCount) :
    (a - b).bitCount = a.bitCount - b.bitCount :=
  UInt64.toNat_sub_of_le a.pos b.pos (UInt64.le_iff_toNat_le.mpr ordered)

@[simp]
theorem bitCount_fromBits (bits : Nat) : (fromBits bits).bitCount = bits % 2 ^ 64 :=
  UInt64.toNat_ofNat'

theorem bitCount_fromBits_of_lt {bits : Nat} (small : bits < 2 ^ 64) :
    (fromBits bits).bitCount = bits :=
  (bitCount_fromBits bits).trans (Nat.mod_eq_of_lt small)

@[simp]
theorem fromBits_bitCount (size : Size) : fromBits size.bitCount = size :=
  bitCount_injective (bitCount_fromBits_of_lt size.bitCount_lt)

@[simp]
theorem bitCount_fromBytes (bytes : Nat) : (fromBytes bytes).bitCount = bytes * 8 % 2 ^ 64 := by
  simp [fromBytes, bitCount, Nat.mul_mod]

@[simp]
theorem bitCount_fromBytesAndOffset (bytes bits : Nat) :
    (fromBytesAndOffset bytes bits).bitCount = (bytes * 8 + bits) % 2 ^ 64 := by
  simp [fromBytesAndOffset, bitCount, Nat.mul_mod, Nat.add_mod]

@[simp]
theorem bitCount_clipToByte (size : Size) :
    size.clipToByte.bitCount = size.byteCount * 8 := by
  have eight : (size.pos % 8).toNat = size.pos.toNat % 8 := UInt64.toNat_mod size.pos 8
  have below : size.pos % 8 ≤ size.pos :=
    UInt64.le_iff_toNat_le.mpr (by rw [eight]; exact Nat.mod_le _ _)
  have difference := UInt64.toNat_sub_of_le size.pos (size.pos % 8) below
  rw [eight] at difference
  simp only [clipToByte, bitCount, byteCount, difference]
  omega

theorem byteCount_bitOffset (size : Size) :
    size.byteCount * 8 + size.bitOffset = size.bitCount := by
  unfold byteCount bitOffset
  omega

theorem bitOffset_lt (size : Size) : size.bitOffset < 8 := Nat.mod_lt _ (by decide)

theorem byteCount_clipToByte (size : Size) : size.clipToByte.byteCount = size.byteCount := by
  rw [byteCount, bitCount_clipToByte]
  exact Nat.mul_div_cancel size.byteCount (by decide)

theorem bitCount_fromBits_bitOffset (size : Size) :
    (fromBits size.bitOffset).bitCount = size.bitOffset :=
  bitCount_fromBits_of_lt (Nat.lt_trans size.bitOffset_lt (by decide))

end Size

end BinaryReader

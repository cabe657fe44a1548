import BinaryReader.Library.Unicode
import BinaryReader.Public.Codecs

/-!
# One code point

The bit operations of the converter, as arithmetic on the value of a code point.
-/

namespace BinaryReader.Utf8Converter

open Library Library.Unicode

section Bits

variable {bits : Nat}

theorem mark_toNat {marker payload : UInt32} {front : Nat}
    (markerEq : marker.toNat = front <<< bits) (bound : payload.toNat < 2 ^ bits) :
    (marker ||| payload).toNat = front * 2 ^ bits + payload.toNat := by
  rw [UInt32.toNat_or, markerEq, ← Nat.shiftLeft_add_eq_or_of_lt bound, Nat.shiftLeft_eq]

theorem mark_toUInt8 {marker payload : UInt32} {front : Nat}
    (markerEq : marker.toNat = front <<< bits) (bound : payload.toNat < 2 ^ bits) :
    (marker ||| payload).toUInt8 = .ofNat (front * 2 ^ bits + payload.toNat) := by
  rw [← mark_toNat markerEq bound, ← UInt32.toUInt8_ofNat', UInt32.ofNat_toNat]

theorem mark_toUInt16 {marker payload : UInt32} {front : Nat}
    (markerEq : marker.toNat = front <<< bits) (bound : payload.toNat < 2 ^ bits) :
    (marker ||| payload).toUInt16 = .ofNat (front * 2 ^ bits + payload.toNat) := by
  rw [← mark_toNat markerEq bound, ← UInt32.toUInt16_ofNat', UInt32.ofNat_toNat]

theorem shift_toNat {shift : UInt32} (shiftEq : shift.toNat = bits) (small : bits < 32)
    (codePoint : UInt32) : (codePoint >>> shift).toNat = codePoint.toNat / 2 ^ bits := by
  rw [UInt32.toNat_shiftRight, shiftEq, Nat.mod_eq_of_lt small, Nat.shiftRight_eq_div_pow]

theorem mask_toNat {mask : UInt32} (maskEq : mask.toNat = 2 ^ bits - 1) (codePoint : UInt32) :
    (codePoint &&& mask).toNat = codePoint.toNat % 2 ^ bits := by
  rw [UInt32.toNat_and, maskEq, Nat.and_two_pow_sub_one_eq_mod]

end Bits

/-- Away from the limit `0xffff` a code point becomes its standard code units. -/
theorem pushCodePoint_ofNat {point : Nat} (bound : point ≤ maxCodePoint)
    (standard : point ≠ 0xffff) : pushCodePoint (.ofNat point) = utf16 point := by
  unfold maxCodePoint at bound
  have value : (UInt32.ofNat point).toNat = point := by
    rw [UInt32.toNat_ofNat']
    omega
  have test : UInt32.ofNat point < 0xffff ↔ point < 0xffff := by
    rw [UInt32.lt_iff_toNat_lt, value]
    rfl
  rw [pushCodePoint, utf16]
  by_cases small : point < 0x10000
  · rw [if_pos (test.mpr (by omega)), if_pos small, UInt32.toUInt16_ofNat']
  · rw [if_neg (mt test.mp (by omega)), if_neg small]
    have offset : (UInt32.ofNat point - 0x10000).toNat = point - 0x10000 := by
      rw [UInt32.toNat_sub_of_le, value]
      · rfl
      · rw [UInt32.le_iff_toNat_le, value]
        exact Nat.le_of_not_lt small
    dsimp only
    generalize UInt32.ofNat point - 0x10000 = rest at offset ⊢
    have upper : (rest >>> 10).toNat = rest.toNat / 1024 := shift_toNat rfl (by decide) rest
    have lower : (rest &&& 0x3ff).toNat = rest.toNat % 1024 :=
      mask_toNat (show (0x3ff : UInt32).toNat = 2 ^ 10 - 1 from rfl) rest
    have high := mark_toUInt16 (show (0xd800 : UInt32).toNat = 54 <<< 10 from rfl)
      (show (rest >>> 10).toNat < 2 ^ 10 by rw [upper]; omega)
    have low := mark_toUInt16 (show (0xdc00 : UInt32).toNat = 55 <<< 10 from rfl)
      (show (rest &&& 0x3ff).toNat < 2 ^ 10 by rw [lower]; omega)
    rw [high, low, upper, lower, offset]
    rfl

theorem pushContinuation_eq (codePoint : UInt32) :
    UInt32.toUInt8 ((0x80 : UInt32) ||| (codePoint &&& 0x3f)) =
      .ofNat (0x80 + codePoint.toNat % 64) := by
  have lower : (codePoint &&& 0x3f).toNat = codePoint.toNat % 64 :=
    mask_toNat (show (0x3f : UInt32).toNat = 2 ^ 6 - 1 from rfl) codePoint
  have marked := mark_toUInt8 (show (0x80 : UInt32).toNat = 2 <<< 6 from rfl)
    (show (codePoint &&& 0x3f).toNat < 2 ^ 6 by rw [lower]; omega)
  rw [marked, lower]
  rfl

/-- The bytes of one code point are its standard encoding, also for values above
the last code point. -/
theorem pushBytes_eq {codePoint : UInt32} (bound : codePoint.toNat < 0x200000) :
    pushBytes codePoint = utf8 codePoint.toNat := by
  have six : (codePoint >>> 6).toNat = codePoint.toNat / 64 := shift_toNat rfl (by decide) _
  have twelve : (codePoint >>> 12).toNat = codePoint.toNat / 4096 :=
    shift_toNat rfl (by decide) _
  have eighteen : (codePoint >>> 18).toNat = codePoint.toNat / 262144 :=
    shift_toNat rfl (by decide) _
  have tests : (codePoint < 0x80 ↔ codePoint.toNat < 0x80) ∧
      (codePoint < 0x800 ↔ codePoint.toNat < 0x800) ∧
      (codePoint < 0x10000 ↔ codePoint.toNat < 0x10000) :=
    ⟨UInt32.lt_iff_toNat_lt, UInt32.lt_iff_toNat_lt, UInt32.lt_iff_toNat_lt⟩
  simp only [pushBytes, utf8, shortestExtra, tests, pushContinuation_eq]
  split_ifs with one two three
  · rw [form, trailing]
    simp [leadBase]
  · rw [mark_toUInt8 (show (0xc0 : UInt32).toNat = 6 <<< 5 from rfl) (by rw [six]; omega), six]
    rfl
  · rw [mark_toUInt8 (show (0xe0 : UInt32).toNat = 14 <<< 4 from rfl) (by rw [twelve]; omega),
      twelve, six]
    rfl
  · have nested : codePoint.toNat / 4096 = codePoint.toNat / 64 / 64 := by omega
    rw [mark_toUInt8 (show (0xf0 : UInt32).toNat = 30 <<< 3 from rfl) (by rw [eighteen]; omega),
      eighteen, twelve, six, nested]
    rfl

end BinaryReader.Utf8Converter

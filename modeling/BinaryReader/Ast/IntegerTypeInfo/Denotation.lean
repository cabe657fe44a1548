import BinaryReader.Ast.IntegerTypeInfo.Reading
import BinaryReader.Library.Bits

/-!
# What the bytes of an integer denote

A read of whole bytes at a byte boundary comes to the integer that the bytes
denote in the byte order and the signedness of the type.
-/

namespace BinaryReader.IntegerTypeInfo

open Library.Bytes Library.Bits

def denoted (self : IntegerTypeInfo) (bytes : List UInt8) : Int :=
  let value := if self.order = .littleEndian then littleEndian bytes else bigEndian bytes
  if self.sign = .signed then twosComplement self.size.bitCount value else value

section Whole

variable {buffer : List UInt8}

theorem pow_256 (count : Nat) : 256 ^ count = 2 ^ (8 * count) := by
  rw [Nat.pow_mul]

theorem take_concat {index : Nat} {byte : UInt8} (found : buffer[index]? = some byte) :
    buffer.take (index + 1) = buffer.take index ++ [byte] := by
  rw [List.take_add_one, found]
  rfl

theorem length_take_of_getElem? {index : Nat} {byte : UInt8} (found : buffer[index]? = some byte) :
    (buffer.take index).length = index := by
  obtain ⟨inside, -⟩ := List.getElem?_eq_some_iff.mp found
  rw [List.length_take]
  omega

theorem readWhole_bits {order : ByteOrder} (big : order ≠ .littleEndian) {count index : Nat}
    (inside : index + count ≤ buffer.length) {front : List Bool}
    (small : front.length + 8 * count ≤ 64) {value : UInt64}
    (soFar : value.toNat = number front) :
    ∃ result, readWhole order buffer count index value = .ok result ∧
      result.toNat = number (front ++ bitsOf ((buffer.drop index).take count)) := by
  induction count generalizing index front value with
  | zero => exact ⟨value, rfl, by rw [List.take_zero, soFar]; simp [bitsOf]⟩
  | succ count inductionHypothesis =>
      have found := List.getElem?_eq_getElem (show index < buffer.length by omega)
      have split := List.drop_eq_getElem_cons (show index < buffer.length by omega)
      generalize buffer[index] = byte at found split
      have below : value.toNat < 2 ^ (64 - 8) := by
        rw [soFar]
        exact (number_lt front).trans_le (Nat.pow_le_pow_right (by decide) (by omega))
      have next : ((value <<< 8) ||| byte.toUInt64).toNat = number (front ++ byteBits byte) := by
        rw [number_append, number_byteBits, length_byteBits, ← soFar]
        exact toNat_shiftLeft_or (by decide) below byte.toNat_lt
      have length : (front ++ byteBits byte).length + 8 * count ≤ 64 := by
        rw [List.length_append, length_byteBits]
        omega
      obtain ⟨result, looped, denotes⟩ :=
        inductionHypothesis (show index + 1 + count ≤ buffer.length by omega) length next
      refine ⟨result, ?_, ?_⟩
      · rw [readWhole, load_of_getElem? found, Checked.ok_bind, if_neg big]
        exact looped
      · rw [denotes, split, List.take_succ_cons, bitsOf_cons, List.append_assoc]

/-- The loop puts the next byte in front of the value of the bytes so far. -/
theorem readWhole_littleEndian {count index : Nat} (inside : index + count ≤ buffer.length)
    (small : index + count ≤ 8) {value : UInt64}
    (soFar : value.toNat = littleEndian (buffer.take index)) :
    ∃ result, readWhole .littleEndian buffer count index value = .ok result ∧
      result.toNat = littleEndian (buffer.take (index + count)) := by
  induction count generalizing index value with
  | zero => exact ⟨value, rfl, soFar⟩
  | succ count inductionHypothesis =>
      have found := List.getElem?_eq_getElem (show index < buffer.length by omega)
      generalize buffer[index] = byte at found
      have length := length_take_of_getElem? found
      have below : value.toNat < 2 ^ (8 * index) := by
        have bound := littleEndian_lt (buffer.take index)
        rwa [length, pow_256, ← soFar] at bound
      have fits : byte.toUInt64.toNat < 2 ^ (64 - 8 * index) :=
        byte.toNat_lt.trans_le (Nat.pow_le_pow_right (by decide) (by omega))
      have next : (value ||| (byte.toUInt64 <<< .ofNat (8 * index))).toNat =
          littleEndian (buffer.take (index + 1)) := by
        rw [UInt64.or_comm, toNat_shiftLeft_or (by omega) fits below, take_concat found,
          littleEndian_concat, length, pow_256, ← soFar, Nat.add_comm, Nat.mul_comm]
        rfl
      obtain ⟨result, looped, denotes⟩ :=
        inductionHypothesis (show index + 1 + count ≤ buffer.length by omega) (by omega) next
      refine ⟨result, ?_, ?_⟩
      · rw [readWhole, load_of_getElem? found, Checked.ok_bind, if_pos rfl,
          shiftLeft_ok (by omega)]
        exact looped
      · rw [denotes, Nat.add_right_comm, Nat.add_assoc]

end Whole

theorem readBits_whole {order : ByteOrder} {buffer : List UInt8} {count : Nat}
    (positive : 1 ≤ count) (small : count ≤ 8) :
    readBits order (8 * count) 0 buffer = readWhole order buffer count 0 0 := by
  have final : finalBits 0 (8 * count) = 0 := by
    unfold finalBits
    omega
  have bytes : byteCount 0 (8 * count) = count := by
    rw [byteCount_eq (by decide) (by omega)]
    omega
  have whole : wholeCount 0 (8 * count) 0 = count := by
    rw [wholeCount, if_pos final, bytes, Nat.sub_zero]
  rw [readBits, readFirst, if_pos rfl, Checked.ok_bind, bytes, if_neg (by omega), if_pos rfl, whole,
    final]
  dsimp only
  rcases readWhole order buffer count 0 0 with fault | value
  · rfl
  · rw [Checked.ok_bind, readLast, if_pos (Or.inl rfl)]

/-- A signed value with its top bit set is cut off to `size` bits and complemented;
every other one is taken as it is. -/
theorem toNumber_toInt (sign : Signedness) {size : Nat} (positive : 1 ≤ size) (small : size ≤ 64)
    (value : UInt64) :
    ∃ number, toNumber sign size value = .ok number ∧
      number.toInt? = some (if sign = .signed ∧ value.toNat.testBit (size - 1) = true then
        twosComplement size (value.toNat % 2 ^ size) else value.toNat) := by
  by_cases signed : sign = .signed
  · have top : (size + 2 ^ 64 - 1) % 2 ^ 64 = size - 1 := by omega
    have negativeIff := and_bit_ne_zero_iff value (show size - 1 < 64 by omega)
    rw [toNumber, if_pos signed, top, shiftLeft_ok (by omega), Checked.ok_bind]
    by_cases negative : value.toNat.testBit (size - 1) = true
    · have below := Nat.mod_lt value.toNat (Nat.two_pow_pos size)
      have large : 2 ^ (size - 1) ≤ value.toNat % 2 ^ size := by
        rw [← testBit_top_iff positive below, Nat.testBit_mod_two_pow, negative, Bool.and_true,
          decide_eq_true_iff]
        omega
      have complement : twosComplement size (value.toNat % 2 ^ size) =
          (value.toNat % 2 ^ size : Nat) - (2 ^ size : Nat) := if_neg (Nat.not_lt.mpr large)
      have ofSigned {word : Int64}
          (wordEq : word.toInt = twosComplement size (value.toNat % 2 ^ size)) :
          (Number.ofSigned word).toInt? =
            some (twosComplement size (value.toNat % 2 ^ size)) := by
        have below_zero : word < 0 := by
          rw [Int64.lt_iff_toInt_lt, wordEq, complement, Int64.toInt_zero]
          omega
        rw [Number.ofSigned, dif_pos below_zero, Number.toInt?, wordEq]
      have chosen : (if sign = .signed ∧ value.toNat.testBit (size - 1) = true then
          twosComplement size (value.toNat % 2 ^ size) else (value.toNat : Int)) =
            twosComplement size (value.toNat % 2 ^ size) := if_pos ⟨signed, negative⟩
      rw [chosen, if_pos (negativeIff.mpr negative)]
      by_cases full : size = 64
      · rw [if_neg (not_not.mpr full)]
        have whole : value.toNat % 2 ^ size = value.toNat := by
          rw [full, Nat.mod_eq_of_lt value.toNat_lt]
        exact ⟨_, rfl, ofSigned (by rw [toInt_toInt64, whole, full])⟩
      · rw [if_pos full, shiftLeft_ok (by omega), Checked.ok_bind]
        exact ⟨_, rfl, ofSigned (toInt_fill positive (by omega) negative)⟩
    · rw [if_neg (mt negativeIff.mp negative), if_neg (fun both => negative both.2)]
      exact ⟨_, rfl, rfl⟩
  · rw [toNumber, if_neg signed, if_neg (fun both => signed both.1)]
    exact ⟨_, rfl, rfl⟩

theorem denotes_of_lt (sign : Signedness) {size value : Nat} (positive : 1 ≤ size)
    (below : value < 2 ^ size) :
    (if sign = .signed ∧ value.testBit (size - 1) = true then
        twosComplement size (value % 2 ^ size) else value) =
      if sign = .signed then twosComplement size value else value := by
  have top := testBit_top_iff positive below
  rw [Nat.mod_eq_of_lt below]
  by_cases signed : sign = .signed
  · rw [if_pos signed]
    by_cases large : 2 ^ (size - 1) ≤ value
    · rw [if_pos ⟨signed, top.mpr large⟩]
    · rw [if_neg (fun both => large (top.mp both.2)), twosComplement,
        if_pos (Nat.not_le.mp large)]
  · rw [if_neg (fun both => signed both.1), if_neg signed]

section Value

variable {self : IntegerTypeInfo} {contents : List UInt8} {start count : Nat}

theorem endByte_whole (size : self.size.bitCount = 8 * count) (small : count ≤ 8) :
    self.endByte (8 * start) = start + count := by
  rw [endByte, byteCount_eq (Nat.mod_lt _ (by decide)) (by omega), size]
  omega

theorem not_misaligned_whole (size : self.size.bitCount = 8 * count) :
    ¬ self.Misaligned (8 * start) := by
  rintro ⟨-, offset | final⟩
  · omega
  · unfold finalBits at final
    omega

theorem valueAt_pastEnd (size : self.size.bitCount = 8 * count) (small : count ≤ 8)
    (outside : contents.length < start + count) :
    self.valueAt contents (8 * start) =
      .ok (.error (.ofKind self.debug .unexpectedEndOfStream 0)) := by
  rw [valueAt, if_neg (not_misaligned_whole size), endByte_whole size small, if_pos outside]

/-- A value inside of the file is the integer that its bytes denote. -/
theorem valueAt_denoted (size : self.size.bitCount = 8 * count) (positive : 1 ≤ count)
    (small : count ≤ 8) (inside : start + count ≤ contents.length) :
    ∃ number, self.valueAt contents (8 * start) = .ok (.ok number) ∧
      number.toInt? = some (self.denoted ((contents.drop start).take count)) := by
  have available : 0 + count ≤ (contents.drop start).length := by
    rw [List.length_drop]
    omega
  have length : ((contents.drop start).take count).length = count := by
    rw [List.length_take]
    omega
  obtain ⟨value, looped, valueEq⟩ : ∃ value,
      readWhole self.order (contents.drop start) count 0 0 = .ok value ∧
      value.toNat = if self.order = .littleEndian then
        littleEndian ((contents.drop start).take count)
      else bigEndian ((contents.drop start).take count) := by
    by_cases little : self.order = .littleEndian
    · obtain ⟨value, looped, denotes⟩ :=
        readWhole_littleEndian available (by omega) (show (0 : UInt64).toNat = _ from rfl)
      rw [Nat.zero_add] at denotes
      exact ⟨value, by rw [little, looped], by rw [if_pos little, denotes]⟩
    · have none : ([] : List Bool).length + 8 * count ≤ 64 := by simpa using by omega
      obtain ⟨value, looped, denotes⟩ :=
        readWhole_bits little available none (show (0 : UInt64).toNat = _ from rfl)
      rw [List.drop_zero, List.nil_append, number_bitsOf] at denotes
      exact ⟨value, looped, by rw [if_neg little, denotes]⟩
  have below : value.toNat < 2 ^ (8 * count) := by
    rw [← pow_256, ← length, valueEq]
    split
    · exact littleEndian_lt _
    · exact bigEndian_lt _
  obtain ⟨number, numbered, denotes⟩ :=
    toNumber_toInt self.sign (show 1 ≤ 8 * count by omega) (by omega) value
  rw [denotes_of_lt self.sign (by omega) below] at denotes
  have offset : 8 * start % 8 = 0 := by omega
  have byte : 8 * start / 8 = start := by omega
  refine ⟨number, ?_, ?_⟩
  · rw [valueAt, if_neg (not_misaligned_whole size), endByte_whole size small,
      if_neg (by omega), offset, byte, size, readBits_whole positive small, looped,
      Checked.ok_bind, numbered]
    rfl
  · rw [denotes, denoted, size, ← valueEq]

end Value

end BinaryReader.IntegerTypeInfo

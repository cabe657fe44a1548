import BinaryReader.Ast.IntegerTypeInfo.Denotation
import BinaryReader.Util.BufferedFileReader.Refinement

/-!
# Integers of any width at any bit

A read that does not end inside of a byte comes to its bits.  One that does
shifts the last byte by the number of bits it takes instead of the number it
leaves, and a read inside of the first byte that starts with it takes nothing.
`Decodes` says when that makes no difference.
-/

namespace BinaryReader.IntegerTypeInfo

open Library.Bytes Library.Bits BufferedFileReader

section Bits

variable {buffer : List UInt8} {bitOffset size : Nat}

def firstBits (bitOffset size : Nat) : Nat := if bitOffset = 0 then 0 else min size (8 - bitOffset)

theorem readFirst_field (size : Nat) (inByte : bitOffset < 8) (some : 0 < buffer.length) :
    ∃ first, readFirst size bitOffset buffer = .ok first ∧
      first.toNat = number (field buffer bitOffset (firstBits bitOffset size)) := by
  unfold readFirst firstBits
  split
  · exact ⟨0, rfl, rfl⟩
  next inside =>
    have found := List.getElem?_eq_getElem some
    generalize buffer[0] = byte at found
    refine ⟨_, by rw [shiftLeft_ok (by omega), load_of_getElem? found]; rfl, ?_⟩
    have value := number_field_byte found
      (show bitOffset + min size (8 - bitOffset) ≤ 8 by omega)
    have rest : 8 - bitOffset - min size (8 - bitOffset) = 8 - min (size + bitOffset) 8 := by omega
    have one_le : (1 : UInt64) ≤ (1 : UInt64) <<< .ofNat (8 - bitOffset) := by
      rw [UInt64.le_iff_toNat_le, toNat_one_shiftLeft (by omega), UInt64.toNat_one]
      exact Nat.two_pow_pos _
    have mask : ((1 : UInt64) <<< .ofNat (8 - bitOffset) - 1).toNat = 2 ^ (8 - bitOffset) - 1 := by
      rw [UInt64.toNat_sub_of_le _ _ one_le, toNat_one_shiftLeft (by omega), UInt64.toNat_one]
    have shift : (UInt64.ofNat (8 - min (size + bitOffset) 8)).toNat % 64 =
        8 - min (size + bitOffset) 8 := by
      rw [UInt64.toNat_ofNat']
      omega
    rw [Nat.mul_zero, Nat.zero_add, rest] at value
    rw [value, UInt64.toNat_shiftRight, shift, UInt64.toNat_and, mask,
      Nat.and_two_pow_sub_one_eq_mod, Nat.shiftRight_eq_div_pow]
    rfl

theorem readLast_or {finalBits byteCount index : Nat} {value : UInt64} {last : UInt8}
    (final : ¬ (finalBits = 0 ∨ byteCount = 1)) (small : finalBits < 8)
    (found : buffer[index]? = some last) (fits : value.toNat * 2 ^ finalBits < 2 ^ 64) :
    ∃ result, readLast finalBits byteCount index buffer value = .ok result ∧
      result.toNat = value.toNat * 2 ^ finalBits ||| last.toNat / 2 ^ finalBits := by
  have shift : (UInt64.ofNat finalBits).toNat % 64 = finalBits := by
    rw [UInt64.toNat_ofNat']
    omega
  have byteShift : (UInt8.ofNat finalBits).toNat % 8 = finalBits := by
    rw [UInt8.toNat_ofNat']
    omega
  refine ⟨value <<< .ofNat finalBits ||| (last >>> .ofNat finalBits).toUInt64, ?_, ?_⟩
  · rw [readLast, if_neg final, shiftLeft_ok (by omega), Checked.ok_bind, load_of_getElem? found]
    rfl
  · rw [UInt64.toNat_or, UInt64.toNat_shiftLeft, shift, Nat.shiftLeft_eq, Nat.mod_eq_of_lt fits,
      UInt8.toNat_toUInt64, UInt8.toNat_shiftRight, byteShift, Nat.shiftRight_eq_div_pow]

/-- What `ReadValue` makes of the bits of a value that is not little endian. -/
def assembled (buffer : List UInt8) (bitOffset size : Nat) : Nat :=
  if finalBits bitOffset size = 0 then number (field buffer bitOffset size)
  else if bitOffset + size < 8 then
    if bitOffset = 0 then 0 else number (field buffer bitOffset size)
  else
    number (field buffer bitOffset (size - finalBits bitOffset size)) *
        2 ^ finalBits bitOffset size |||
      (buffer.getD ((bitOffset + size) / 8) 0).toNat / 2 ^ finalBits bitOffset size

theorem wholeBits_eq (inByte : bitOffset < 8) (positive : 1 ≤ size) (small : size ≤ 64)
    {index count : Nat} (indexEq : index = if bitOffset = 0 then 0 else 1)
    (countEq : count = wholeCount bitOffset size index) :
    firstBits bitOffset size + 8 * count =
        (if finalBits bitOffset size = 0 then size
        else if bitOffset + size < 8 then if bitOffset = 0 then 0 else size
        else size - finalBits bitOffset size) ∧
      (count = 0 ∨ bitOffset + firstBits bitOffset size = 8 * index) ∧
      (finalBits bitOffset size ≠ 0 → 8 ≤ bitOffset + size →
        index + count = (bitOffset + size) / 8) := by
  rw [countEq, wholeCount, byteCount_eq inByte small, indexEq]
  unfold firstBits finalBits
  split_ifs <;> omega

theorem readBits_front {order : ByteOrder} (big : order ≠ .littleEndian)
    (inByte : bitOffset < 8) (positive : 1 ≤ size) (small : size ≤ 64)
    (enough : byteCount bitOffset size ≤ buffer.length) {index count : Nat}
    (indexEq : index = if bitOffset = 0 then 0 else 1)
    (countEq : count = wholeCount bitOffset size index) :
    ∃ value, readBits order size bitOffset buffer =
        readLast (finalBits bitOffset size) (byteCount bitOffset size) (index + count) buffer
          value ∧
      value.toNat = number (field buffer bitOffset (firstBits bitOffset size + 8 * count)) := by
  have bytes := byteCount_eq inByte small
  obtain ⟨total, start, -⟩ := wholeBits_eq inByte positive small indexEq countEq
  have index_le : index ≤ 1 := by
    rw [indexEq]
    split <;> omega
  have whole : index + count ≤ buffer.length := by
    rw [countEq]
    exact (wholeCount_le inByte positive small index_le).trans enough
  obtain ⟨first, firstEq, firstValue⟩ :=
    readFirst_field size inByte (show 0 < buffer.length by omega)
  have firstSmall : firstBits bitOffset size ≤ 8 - bitOffset := by
    unfold firstBits
    split <;> omega
  have firstLength := length_field
    (show bitOffset + firstBits bitOffset size ≤ 8 * buffer.length by omega)
  have fits : (field buffer bitOffset (firstBits bitOffset size)).length + 8 * count ≤ 64 := by
    rw [firstLength, total]
    split_ifs <;> omega
  obtain ⟨value, looped, valueEq⟩ := readWhole_bits big whole fits firstValue
  have bits : field buffer bitOffset (firstBits bitOffset size) ++
      bitsOf ((buffer.drop index).take count) =
        field buffer bitOffset (firstBits bitOffset size + 8 * count) := by
    rw [field_add]
    rcases start with none | behind
    · rw [none, List.take_zero, Nat.mul_zero]
      simp [field, bitsOf]
    · rw [behind, field_bytes]
  rw [bits] at valueEq
  refine ⟨value, ?_, valueEq⟩
  rw [readBits, firstEq, Checked.ok_bind, if_neg (by omega), ← indexEq]
  dsimp only
  rw [← countEq, looped]
  rfl

theorem readBits_assembled {order : ByteOrder} (big : order ≠ .littleEndian)
    (inByte : bitOffset < 8) (positive : 1 ≤ size) (small : size ≤ 64)
    (enough : byteCount bitOffset size ≤ buffer.length) :
    ∃ value, readBits order size bitOffset buffer = .ok value ∧
      value.toNat = assembled buffer bitOffset size := by
  have bytes := byteCount_eq inByte small
  obtain ⟨index, indexEq⟩ : ∃ index, index = if bitOffset = 0 then 0 else 1 := ⟨_, rfl⟩
  obtain ⟨count, countEq⟩ : ∃ count, count = wholeCount bitOffset size index := ⟨_, rfl⟩
  obtain ⟨total, -, final⟩ := wholeBits_eq inByte positive small indexEq countEq
  obtain ⟨value, read, valueEq⟩ :=
    readBits_front big inByte positive small enough indexEq countEq
  rw [total] at valueEq
  rw [read, assembled]
  by_cases aligned : finalBits bitOffset size = 0
  · rw [if_pos aligned] at valueEq ⊢
    exact ⟨value, if_pos (.inl aligned), valueEq⟩
  rw [if_neg aligned] at valueEq ⊢
  by_cases inside : bitOffset + size < 8
  · rw [if_pos inside] at valueEq ⊢
    refine ⟨value, if_pos (.inr (by omega)), ?_⟩
    rw [valueEq]
    split
    · simp [field]
    · rfl
  · rw [if_neg inside] at valueEq ⊢
    have lastInside : (bitOffset + size) / 8 < buffer.length := by
      unfold finalBits at aligned
      omega
    have found := List.getElem?_eq_getElem lastInside
    have last : buffer.getD ((bitOffset + size) / 8) 0 = buffer[(bitOffset + size) / 8] := by
      rw [List.getD_eq_getElem?_getD, found, Option.getD_some]
    rw [final aligned (by omega), last, ← valueEq]
    apply readLast_or _ (Nat.mod_lt _ (by decide)) found
    · have split : size - finalBits bitOffset size + finalBits bitOffset size = size := by
        unfold finalBits
        omega
      have bound := Nat.mul_lt_mul_of_pos_right
        (number_field_lt buffer bitOffset (size - finalBits bitOffset size))
        (Nat.two_pow_pos (finalBits bitOffset size))
      rw [← Nat.pow_add, split, ← valueEq] at bound
      exact bound.trans_le (Nat.pow_le_pow_right (by decide) small)
    · rw [not_or]
      unfold finalBits at aligned
      omega

end Bits

section Split

variable {last final count : Nat}

/-- A last byte that comes to the same shifted by either number of bits: the bits behind
the front are right, and the ones that hit the front are there already, or lie in
front of a negative value. -/
def LastAgrees (sign : Signedness) (front count final last : Nat) : Prop :=
  last / 2 ^ final % 2 ^ final = last / 2 ^ (8 - final) ∧
    (front ||| last / 2 ^ (2 * final) = front ∨
      sign = .signed ∧ front.testBit (count - 1) = true ∧
        (front ||| last / 2 ^ (2 * final)) % 2 ^ count = front)

theorem eq_iff_div_mod (value other width : Nat) :
    value = other ↔ value / 2 ^ width = other / 2 ^ width ∧
      value % 2 ^ width = other % 2 ^ width := by
  constructor
  · rintro rfl
    exact ⟨rfl, rfl⟩
  · rintro ⟨quotient, remainder⟩
    rw [← Nat.div_add_mod value (2 ^ width), quotient, remainder, Nat.div_add_mod]

theorem lastAgrees_iff (sign : Signedness) (front : Nat) (positive : 1 ≤ count) (small : last < 256)
    (inside : final < 8) :
    (front * 2 ^ final ||| last / 2 ^ final = front * 2 ^ final + last / 2 ^ (8 - final) ∨
        sign = .signed ∧
        (front * 2 ^ final ||| last / 2 ^ final).testBit (count + final - 1) = true ∧
        (front * 2 ^ final ||| last / 2 ^ final) % 2 ^ (count + final) =
          front * 2 ^ final + last / 2 ^ (8 - final)) ↔
      LastAgrees sign front count final last := by
  have power := Nat.two_pow_pos final
  have taken : last / 2 ^ (8 - final) < 2 ^ final := by
    rw [Nat.div_lt_iff_lt_mul (Nat.two_pow_pos _), ← Nat.pow_add]
    have total : final + (8 - final) = 8 := by omega
    rw [total]
    exact small
  have quotient : (front * 2 ^ final ||| last / 2 ^ final) / 2 ^ final =
      front ||| last / 2 ^ (2 * final) := by
    rw [Nat.or_div_two_pow, Nat.mul_div_cancel _ power, Nat.div_div_eq_div_mul, ← Nat.pow_add,
      Nat.two_mul]
  have remainder : (front * 2 ^ final ||| last / 2 ^ final) % 2 ^ final =
      last / 2 ^ final % 2 ^ final := by
    rw [Nat.or_mod_two_pow, Nat.mul_mod_left, Nat.zero_or]
  have rightQuotient : (front * 2 ^ final + last / 2 ^ (8 - final)) / 2 ^ final = front := by
    rw [Nat.mul_comm, Nat.mul_add_div power, Nat.div_eq_of_lt taken, Nat.add_zero]
  have rightRemainder : (front * 2 ^ final + last / 2 ^ (8 - final)) % 2 ^ final =
      last / 2 ^ (8 - final) := by
    rw [Nat.mul_comm, Nat.mul_add_mod, Nat.mod_eq_of_lt taken]
  have top : (front * 2 ^ final ||| last / 2 ^ final).testBit (count + final - 1) =
      (front ||| last / 2 ^ (2 * final)).testBit (count - 1) := by
    have index : count + final - 1 = final + (count - 1) := by omega
    rw [index, ← quotient, Nat.testBit_div_two_pow, Nat.add_comm]
  have cut : (front * 2 ^ final ||| last / 2 ^ final) % 2 ^ (count + final) / 2 ^ final =
        (front ||| last / 2 ^ (2 * final)) % 2 ^ count ∧
      (front * 2 ^ final ||| last / 2 ^ final) % 2 ^ (count + final) % 2 ^ final =
        last / 2 ^ final % 2 ^ final := by
    rw [Nat.pow_add, Nat.mul_comm (2 ^ count), Nat.mod_mul_right_div_self, quotient,
      Nat.mod_mul_right_mod, remainder]
    exact ⟨rfl, rfl⟩
  rw [eq_iff_div_mod _ (front * 2 ^ final + last / 2 ^ (8 - final)) final,
    eq_iff_div_mod _ (front * 2 ^ final + last / 2 ^ (8 - final)) final, quotient, remainder,
    rightQuotient, rightRemainder, cut.1, cut.2, top, LastAgrees]
  have kept (same : (front ||| last / 2 ^ (2 * final)) % 2 ^ count = front) :
      (front ||| last / 2 ^ (2 * final)).testBit (count - 1) = front.testBit (count - 1) := by
    have bit := congrArg (Nat.testBit · (count - 1)) same
    simp only [Nat.testBit_mod_two_pow] at bit
    rw [← bit, decide_eq_true (by omega), Bool.true_and]
  constructor
  · rintro (⟨same, bits⟩ | ⟨signed, negative, same, bits⟩)
    · exact ⟨bits, .inl same⟩
    · exact ⟨bits, .inr ⟨signed, kept same ▸ negative, same⟩⟩
  · rintro ⟨bits, same | ⟨signed, negative, same⟩⟩
    · exact .inl ⟨same, bits⟩
    · exact .inr ⟨signed, (kept same).trans negative, same, bits⟩

end Split

/-- The number made of a value is the one the right value denotes. -/
theorem denotes_iff (sign : Signedness) {size value right : Nat} (positive : 1 ≤ size)
    (below : right < 2 ^ size) :
    ((if sign = .signed ∧ value.testBit (size - 1) = true then
        twosComplement size (value % 2 ^ size) else value) =
      if sign = .signed then twosComplement size right else right) ↔
    (value = right ∨
      sign = .signed ∧ value.testBit (size - 1) = true ∧ value % 2 ^ size = right) := by
  have cut := Nat.mod_lt value (Nat.two_pow_pos size)
  by_cases signed : sign = .signed
  · by_cases negative : value.testBit (size - 1) = true
    · rw [if_pos ⟨signed, negative⟩, if_pos signed]
      constructor
      · intro same
        exact .inr ⟨signed, negative, twosComplement_injective positive cut below same⟩
      · rintro (rfl | ⟨-, -, same⟩)
        · rw [Nat.mod_eq_of_lt below]
        · rw [same]
    · rw [if_neg (fun both => negative both.2), if_pos signed, twosComplement]
      have top := testBit_top_iff positive below
      split
      next small =>
        rw [Int.natCast_inj, or_iff_left (fun both => negative both.2.1)]
      next large =>
        apply iff_of_false
        · omega
        · rintro (rfl | both)
          · exact negative (top.mpr (Nat.le_of_not_lt large))
          · exact negative both.2.1
  · rw [if_neg (fun both => signed both.1), if_neg signed, Int.natCast_inj,
      or_iff_left (fun both => signed both.1)]

def denotedAt (self : IntegerTypeInfo) (contents : List UInt8) (position : Nat) : Int :=
  let value := if self.order = .littleEndian then
      littleEndian ((contents.drop (position / 8)).take (self.size.bitCount / 8))
    else number (field contents position self.size.bitCount)
  if self.sign = .signed then twosComplement self.size.bitCount value else value

/-- The bits that a read comes to the right number for: a field that ends with a byte,
one inside of a byte that does not start with it (or has no bit set), and one of several
bytes whose last byte agrees. -/
def Decodes (self : IntegerTypeInfo) (contents : List UInt8) (position : Nat) : Prop :=
  let size := self.size.bitCount
  let final := (position + size) % 8
  final = 0 ∨
  position / 8 = (position + size) / 8 ∧
    (position % 8 ≠ 0 ∨ ∀ bit ∈ field contents position size, bit = false) ∨
  position / 8 < (position + size) / 8 ∧
    ∃ last, contents[(position + size) / 8]? = some last ∧
      LastAgrees self.sign (number (field contents position (size - final))) (size - final) final
        last.toNat

variable {self : IntegerTypeInfo} {contents : List UInt8} {position : Nat}

theorem valueAt_littleEndian (little : self.order = .littleEndian) (readable : self.Readable)
    (start : position % 8 = 0) (stop : (position + self.size.bitCount) % 8 = 0)
    (inside : position + self.size.bitCount ≤ 8 * contents.length) :
    ∃ number, self.valueAt contents position = .ok (.ok number) ∧
      number.toInt? = some (self.denotedAt contents position) := by
  obtain ⟨positive, small⟩ := readable
  have size : self.size.bitCount = 8 * (self.size.bitCount / 8) := by omega
  have whole : position = 8 * (position / 8) := by omega
  obtain ⟨number, read, denotes⟩ := valueAt_denoted size (show 1 ≤ _ by omega) (by omega)
    (show position / 8 + self.size.bitCount / 8 ≤ contents.length by omega)
  rw [← whole] at read
  refine ⟨number, read, ?_⟩
  rw [denotes, denoted, denotedAt, if_pos little, if_pos little]

theorem valueAt_assembled (big : self.order ≠ .littleEndian) (readable : self.Readable)
    (inside : position + self.size.bitCount ≤ 8 * contents.length) :
    ∃ number, self.valueAt contents position = .ok (.ok number) ∧
      number.toInt? = some (if self.sign = .signed ∧
          (assembled (contents.drop (position / 8)) (position % 8)
            self.size.bitCount).testBit (self.size.bitCount - 1) = true then
        twosComplement self.size.bitCount
          (assembled (contents.drop (position / 8)) (position % 8) self.size.bitCount %
            2 ^ self.size.bitCount)
        else assembled (contents.drop (position / 8)) (position % 8) self.size.bitCount) := by
  obtain ⟨positive, small⟩ := readable
  have inByte : position % 8 < 8 := Nat.mod_lt _ (by decide)
  have enough : byteCount (position % 8) self.size.bitCount ≤
      (contents.drop (position / 8)).length := by
    rw [byteCount_eq inByte small, List.length_drop]
    omega
  have notOutside : ¬ contents.length < self.endByte position := by
    rw [endByte, byteCount_eq inByte small]
    omega
  obtain ⟨value, bits, valueEq⟩ := readBits_assembled big inByte positive small enough
  obtain ⟨number, numbered, denotes⟩ := toNumber_toInt self.sign positive small value
  rw [valueEq] at denotes
  refine ⟨number, ?_, denotes⟩
  rw [valueAt, if_neg (fun misaligned => big misaligned.1), if_neg notOutside, bits,
    Checked.ok_bind, numbered]
  rfl

theorem number_field_split {size final : Nat} {last : UInt8}
    (found : contents[(position + size) / 8]? = some last)
    (finalEq : final = (position + size) % 8) (long : final ≤ size) :
    number (field contents position size) =
      number (field contents position (size - final)) * 2 ^ final +
        last.toNat / 2 ^ (8 - final) := by
  have inByte : final < 8 := by omega
  have split : size = size - final + final := by omega
  have start : position + (size - final) = 8 * ((position + size) / 8) + 0 := by omega
  obtain ⟨inside, -⟩ := List.getElem?_eq_some_iff.mp found
  have length : (field contents (8 * ((position + size) / 8) + 0) final).length = final :=
    length_field (by omega)
  have byte := number_field_byte found (show 0 + final ≤ 8 by omega)
  have small : last.toNat % 2 ^ (8 - 0) = last.toNat := Nat.mod_eq_of_lt last.toNat_lt
  rw [small, Nat.sub_zero] at byte
  calc number (field contents position size)
      = number (field contents position (size - final + final)) := by rw [← split]
    _ = number (field contents position (size - final)) * 2 ^ final +
          last.toNat / 2 ^ (8 - final) := by
        rw [field_add, number_append, start, length, byte]

/-- What is assembled is right, up to the signedness, exactly when the bits decode. -/
theorem assembled_iff (readable : self.Readable)
    (inside : position + self.size.bitCount ≤ 8 * contents.length) :
    (assembled (contents.drop (position / 8)) (position % 8) self.size.bitCount =
          number (field contents position self.size.bitCount) ∨
        self.sign = .signed ∧
        (assembled (contents.drop (position / 8)) (position % 8) self.size.bitCount).testBit
          (self.size.bitCount - 1) = true ∧
        assembled (contents.drop (position / 8)) (position % 8) self.size.bitCount %
            2 ^ self.size.bitCount = number (field contents position self.size.bitCount)) ↔
      self.Decodes contents position := by
  obtain ⟨positive, -⟩ := readable
  have whole : 8 * (position / 8) + position % 8 = position := Nat.div_add_mod position 8
  have finalEq : finalBits (position % 8) self.size.bitCount =
      (position + self.size.bitCount) % 8 := by
    unfold finalBits
    omega
  simp only [assembled, Decodes, finalEq, field_drop, whole]
  generalize self.size.bitCount = size at *
  by_cases aligned : (position + size) % 8 = 0
  · rw [if_pos aligned]
    exact iff_of_true (.inl rfl) (.inl aligned)
  rw [if_neg aligned]
  by_cases short : position % 8 + size < 8
  · have sameByte : position / 8 = (position + size) / 8 := by omega
    rw [if_pos short]
    by_cases atStart : position % 8 = 0
    · rw [if_pos atStart, Nat.zero_testBit]
      simp only [aligned, sameByte, atStart, lt_irrefl, false_and, false_or, and_false, or_false,
        true_and, ne_eq, not_true, Bool.false_eq_true]
      rw [eq_comm, number_eq_zero_iff]
    · rw [if_neg atStart]
      exact iff_of_true (.inl rfl) (.inr (.inl ⟨sameByte, .inl atStart⟩))
  · have long : (position + size) % 8 ≤ size := by omega
    have crosses : position / 8 < (position + size) / 8 := by omega
    have lastByte : position / 8 + (position % 8 + size) / 8 = (position + size) / 8 := by omega
    have found := List.getElem?_eq_getElem
      (show (position + size) / 8 < contents.length by omega)
    generalize contents[(position + size) / 8] = last at found
    have got : (contents.drop (position / 8)).getD ((position % 8 + size) / 8) 0 = last := by
      rw [List.getD_eq_getElem?_getD, List.getElem?_drop, lastByte, found, Option.getD_some]
    have total : size - (position + size) % 8 + (position + size) % 8 = size := by omega
    have agrees := lastAgrees_iff self.sign
      (number (field contents position (size - (position + size) % 8)))
      (show 1 ≤ size - (position + size) % 8 by omega) last.toNat_lt
      (show (position + size) % 8 < 8 by omega)
    rw [total, ← number_field_split found rfl long] at agrees
    rw [if_neg short, got, agrees]
    constructor
    · intro lastAgrees
      exact .inr (.inr ⟨crosses, last, found, lastAgrees⟩)
    · rintro (final | ⟨sameByte, -⟩ | ⟨-, other, same, lastAgrees⟩)
      · exact absurd final aligned
      · exact absurd sameByte (Nat.ne_of_lt crosses)
      · cases found.symm.trans same
        exact lastAgrees

/-- A read inside of the file comes to a number, and to the right one exactly when its
bits decode. -/
theorem valueAt_decodes_iff (readable : self.Readable)
    (whole : self.order = .littleEndian →
      position % 8 = 0 ∧ (position + self.size.bitCount) % 8 = 0)
    (inside : position + self.size.bitCount ≤ 8 * contents.length) :
    ∃ number, self.valueAt contents position = .ok (.ok number) ∧
      (number.toInt? = some (self.denotedAt contents position) ↔
        self.Decodes contents position) := by
  by_cases little : self.order = .littleEndian
  · obtain ⟨start, stop⟩ := whole little
    obtain ⟨number, read, denotes⟩ := valueAt_littleEndian little readable start stop inside
    exact ⟨number, read, iff_of_true denotes (.inl stop)⟩
  · obtain ⟨number, read, denotes⟩ := valueAt_assembled little readable inside
    have below := number_field_lt contents position self.size.bitCount
    refine ⟨number, read, ?_⟩
    rw [denotes, denotedAt, if_neg little, Option.some_inj, ← assembled_iff readable inside,
      ← denotes_iff self.sign readable.1 below]

variable {σ : Type} {fileReader : FileReader σ}

/-- In every state a run of the reader reaches, a read of bits that are there succeeds, and
yields the integer that they denote exactly when they decode. -/
theorem readValue_decodes_iff (contract : fileReader.Contract contents) {reader : σ}
    {buffer : Nat → UInt8} {errors : ErrorCollection} {calls : List Call}
    (starts : Starts fileReader reader calls) {answers : List Answer}
    {file : BufferedFileReader σ} {collected : ErrorCollection}
    (ran : (machine fileReader).run ({ reader, buffer }, errors) calls =
      .ok (answers, file, collected))
    (readable : self.Readable)
    (whole : self.order = .littleEndian → file.position.bitCount % 8 = 0 ∧
      (file.position.bitCount + self.size.bitCount) % 8 = 0)
    (inside : file.position.bitCount + self.size.bitCount ≤ 8 * contents.length)
    (result : Value) :
    ∃ number next,
      self.readValue fileReader file result collected =
        .ok (true, .number number, next, collected) ∧
      (number.toInt? = some (self.denotedAt contents file.position.bitCount) ↔
        self.Decodes contents file.position.bitCount) := by
  have tracks := run_tracks contract starts ran
  obtain ⟨outcome, next, value, read, -⟩ := readValue_spec contract readable tracks result collected
  obtain ⟨number, comesTo, decodes⟩ := valueAt_decodes_iff readable whole inside
  cases value.symm.trans comesTo
  exact ⟨number, next, read, decodes⟩

/-- Twelve bits behind the first four, of which the last four agree. -/
theorem readValue_decodes_iff_twelve :
    ∃ answers file collected number next,
      (machine (memoryFileReader [0x12, 0x34])).run ({ reader := 0, buffer := fun _ => 7 }, {})
        [.seek (.fromBits 4)] = .ok (answers, file, collected) ∧
      readValue (memoryFileReader [0x12, 0x34]) ⟨{}, "int12", .fromBits 12, .signed, .bigEndian⟩
        file .null collected = .ok (true, .number number, next, collected) ∧
      number.toInt? = some 0x234 := by
  have ran : ∃ answers file collected,
      (machine (memoryFileReader [0x12, 0x34])).run ({ reader := 0, buffer := fun _ => 7 }, {})
        [.seek (.fromBits 4)] = .ok (answers, file, collected) ∧ file.position = .fromBits 4 :=
    ⟨_, _, _, rfl, rfl⟩
  obtain ⟨answers, file, collected, ran, position⟩ := ran
  have readable : Readable ⟨{}, "int12", .fromBits 12, .signed, .bigEndian⟩ := by decide
  obtain ⟨number, next, read, decodes⟩ :=
    readValue_decodes_iff (memoryFileReader_contract [0x12, 0x34]) (.inl rfl) ran readable nofun
      (by rw [position]; decide) .null
  rw [position] at decodes
  exact ⟨answers, file, collected, number, next, ran, read, decodes.mpr (.inl (by decide))⟩

/-- Ten bits whose last byte is shifted by two instead of six, and four bits that are not
read at all. -/
theorem not_readValue_decodes :
    (∃ number next,
      readValue (memoryFileReader [0x12, 0x34]) ⟨{}, "int10", .fromBits 10, .unsigned, .bigEndian⟩
        { reader := 0 } .null {} = .ok (true, .number number, next, {}) ∧
      number.toInt? ≠ some (denotedAt ⟨{}, "int10", .fromBits 10, .unsigned, .bigEndian⟩
        [0x12, 0x34] 0)) ∧
    (∃ number next,
      readValue (memoryFileReader [0xff]) ⟨{}, "int4", .fromBits 4, .unsigned, .bigEndian⟩
        { reader := 0 } .null {} = .ok (true, .number number, next, {}) ∧
      number.toInt? ≠ some (denotedAt ⟨{}, "int4", .fromBits 4, .unsigned, .bigEndian⟩
        [0xff] 0)) := by
  refine ⟨⟨.ofUnsigned 77, _, rfl, by decide⟩, ⟨.ofUnsigned 0, _, rfl, by decide⟩⟩

end BinaryReader.IntegerTypeInfo

import BinaryReader.Library.Bytes

/-!
# Bits of a byte string

A byte string as a string of bits, most significant bit first, and the number
that a string of bits denotes.
-/

namespace Library.Bits

open Library.Bytes

/-- The bits of a byte, the most significant one first. -/
def byteBits (byte : UInt8) : List Bool :=
  (List.range 8).map fun index => byte.toNat.testBit (7 - index)

def bitsOf (bytes : List UInt8) : List Bool := bytes.flatMap byteBits

def number (bits : List Bool) : Nat := Nat.ofDigits 2 (bits.reverse.map Bool.toNat)

def field (bytes : List UInt8) (position size : Nat) : List Bool :=
  ((bitsOf bytes).drop position).take size

example : number (field [0x12, 0x34] 4 8) = 0x23 := by decide

@[simp]
theorem length_byteBits (byte : UInt8) : (byteBits byte).length = 8 := by simp [byteBits]

@[simp]
theorem bitsOf_cons (byte : UInt8) (bytes : List UInt8) :
    bitsOf (byte :: bytes) = byteBits byte ++ bitsOf bytes := List.flatMap_cons

@[simp]
theorem length_bitsOf (bytes : List UInt8) : (bitsOf bytes).length = 8 * bytes.length := by
  induction bytes with
  | nil => rfl
  | cons byte bytes inductionHypothesis =>
      rw [bitsOf_cons, List.length_append, length_byteBits, inductionHypothesis, List.length_cons]
      omega

@[simp]
theorem number_nil : number [] = 0 := rfl

theorem number_append (front back : List Bool) :
    number (front ++ back) = number front * 2 ^ back.length + number back := by
  rw [number, List.reverse_append, List.map_append, Nat.ofDigits_append, List.length_map,
    List.length_reverse, Nat.add_comm, Nat.mul_comm, number, number]

theorem number_lt (bits : List Bool) : number bits < 2 ^ bits.length := by
  have digits : ∀ digit ∈ bits.reverse.map Bool.toNat, digit < 2 :=
    List.forall_mem_map.mpr fun bit _ => bit.toNat_lt
  have bound := Nat.ofDigits_lt_base_pow_length (by decide) digits
  rwa [List.length_map, List.length_reverse] at bound

theorem number_byteBits (byte : UInt8) : number (byteBits byte) = byte.toNat := by
  have every : ∀ value : Fin 256,
      number ((List.range 8).map fun index => value.val.testBit (7 - index)) = value.val := by
    decide +kernel
  exact every ⟨byte.toNat, byte.toNat_lt⟩

/-- The front of some bits counts in units of the bits behind it. -/
theorem number_split (bits : List Bool) (count : Nat) :
    number bits =
        number (bits.take count) * 2 ^ (bits.length - count) + number (bits.drop count) ∧
      number (bits.drop count) < 2 ^ (bits.length - count) := by
  have whole := number_append (bits.take count) (bits.drop count)
  have bound := number_lt (bits.drop count)
  rw [List.take_append_drop, List.length_drop] at whole
  rw [List.length_drop] at bound
  exact ⟨whole, bound⟩

theorem number_take (bits : List Bool) (count : Nat) :
    number (bits.take count) = number bits / 2 ^ (bits.length - count) := by
  obtain ⟨whole, bound⟩ := number_split bits count
  rw [whole, Nat.mul_comm, Nat.mul_add_div (Nat.two_pow_pos _), Nat.div_eq_of_lt bound,
    Nat.add_zero]

theorem number_drop (bits : List Bool) (count : Nat) :
    number (bits.drop count) = number bits % 2 ^ (bits.length - count) := by
  obtain ⟨whole, bound⟩ := number_split bits count
  rw [whole, Nat.mul_comm, Nat.mul_add_mod, Nat.mod_eq_of_lt bound]

theorem number_eq_zero_iff (bits : List Bool) : number bits = 0 ↔ ∀ bit ∈ bits, bit = false := by
  induction bits with
  | nil => simp
  | cons bit bits inductionHypothesis =>
      have front : number [bit] = bit.toNat := by cases bit <;> rfl
      rw [← List.singleton_append, number_append, List.singleton_append, List.forall_mem_cons,
        Nat.add_eq_zero_iff, Nat.mul_eq_zero, inductionHypothesis, front]
      cases bit <;> simp

theorem bitsOf_append (front back : List UInt8) :
    bitsOf (front ++ back) = bitsOf front ++ bitsOf back := List.flatMap_append

theorem drop_bitsOf (bytes : List UInt8) (count : Nat) :
    (bitsOf bytes).drop (8 * count) = bitsOf (bytes.drop count) := by
  induction count generalizing bytes with
  | zero => rfl
  | succ count inductionHypothesis =>
      cases bytes with
      | nil => rfl
      | cons byte bytes =>
          rw [bitsOf_cons, List.drop_append, List.drop_eq_nil_of_le (by simp),
            List.nil_append, length_byteBits, List.drop_succ_cons, ← inductionHypothesis]
          congr 1

theorem take_bitsOf (bytes : List UInt8) (count : Nat) :
    (bitsOf bytes).take (8 * count) = bitsOf (bytes.take count) := by
  induction count generalizing bytes with
  | zero => rfl
  | succ count inductionHypothesis =>
      cases bytes with
      | nil => rfl
      | cons byte bytes =>
          rw [bitsOf_cons, List.take_append, List.take_of_length_le (by simp),
            length_byteBits, List.take_succ_cons, bitsOf_cons, ← inductionHypothesis]
          congr 2

theorem number_bitsOf (bytes : List UInt8) : number (bitsOf bytes) = bigEndian bytes := by
  induction bytes using List.reverseRecOn with
  | nil => rfl
  | append_singleton bytes byte inductionHypothesis =>
      rw [bitsOf_append, number_append, bigEndian_concat, inductionHypothesis, bitsOf_cons]
      simp [bitsOf, number_byteBits]

theorem field_add (bytes : List UInt8) (position front back : Nat) :
    field bytes position (front + back) =
      field bytes position front ++ field bytes (position + front) back := by
  rw [field, List.take_add, List.drop_drop, field, field]

theorem field_bytes (bytes : List UInt8) (start count : Nat) :
    field bytes (8 * start) (8 * count) = bitsOf ((bytes.drop start).take count) := by
  rw [field, drop_bitsOf, take_bitsOf]

theorem length_field {bytes : List UInt8} {position size : Nat}
    (inside : position + size ≤ 8 * bytes.length) : (field bytes position size).length = size := by
  rw [field, List.length_take, List.length_drop, length_bitsOf]
  omega

theorem number_field_lt (bytes : List UInt8) (position size : Nat) :
    number (field bytes position size) < 2 ^ size :=
  (number_lt _).trans_le (Nat.pow_le_pow_right (by decide) (List.length_take_le _ _))

theorem field_drop (bytes : List UInt8) (start position size : Nat) :
    field (bytes.drop start) position size = field bytes (8 * start + position) size := by
  rw [field, field, ← List.drop_drop, drop_bitsOf]

theorem number_field_byte {bytes : List UInt8} {start offset size : Nat} {byte : UInt8}
    (found : bytes[start]? = some byte) (inByte : offset + size ≤ 8) :
    number (field bytes (8 * start + offset) size) =
      byte.toNat % 2 ^ (8 - offset) / 2 ^ (8 - offset - size) := by
  have split : bytes.drop start = byte :: bytes.drop (start + 1) := by
    obtain ⟨inside, same⟩ := List.getElem?_eq_some_iff.mp found
    rw [List.drop_eq_getElem_cons inside, same]
  have bits : field bytes (8 * start + offset) size =
      ((byteBits byte).drop offset).take size := by
    rw [field, ← List.drop_drop, drop_bitsOf, split, bitsOf_cons, List.drop_append,
      List.take_append_of_le_length (by rw [List.length_drop, length_byteBits]; omega)]
  have length : ((byteBits byte).drop offset).length = 8 - offset := by simp
  rw [bits, number_take, number_drop, number_byteBits, length, length_byteBits]

end Library.Bits

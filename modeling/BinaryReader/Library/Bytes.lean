import Mathlib.Data.Nat.Bitwise
import Mathlib.Data.Nat.Digits.Defs
import Mathlib.Data.UInt
import Mathlib.Tactic.Common

/-!
# Integers in bytes

The natural number that bytes denote in either byte order, and the integer it
denotes as a two's complement of some width.
-/

namespace Library.Bytes

/-- The number of bytes that begin with the least significant one. -/
def littleEndian (bytes : List UInt8) : Nat := Nat.ofDigits 256 (bytes.map UInt8.toNat)

def bigEndian (bytes : List UInt8) : Nat := littleEndian bytes.reverse

/-- The integer with a two's complement of the given number of bits. -/
def twosComplement (bits value : Nat) : Int :=
  if value < 2 ^ (bits - 1) then value else value - (2 ^ bits : Nat)

example : bigEndian [1, 2] = 258 := by decide

theorem littleEndian_lt (bytes : List UInt8) : littleEndian bytes < 256 ^ bytes.length := by
  have digits : ∀ digit ∈ bytes.map UInt8.toNat, digit < 256 :=
    List.forall_mem_map.mpr fun byte _ => byte.toNat_lt
  have bound := Nat.ofDigits_lt_base_pow_length (by decide) digits
  rwa [List.length_map] at bound

theorem bigEndian_lt (bytes : List UInt8) : bigEndian bytes < 256 ^ bytes.length := by
  rw [← List.length_reverse]
  exact littleEndian_lt bytes.reverse

theorem littleEndian_concat (bytes : List UInt8) (byte : UInt8) :
    littleEndian (bytes ++ [byte]) = littleEndian bytes + 256 ^ bytes.length * byte.toNat := by
  rw [littleEndian, List.map_append, Nat.ofDigits_append, List.length_map, List.map_singleton,
    Nat.ofDigits_singleton, littleEndian]

theorem bigEndian_concat (bytes : List UInt8) (byte : UInt8) :
    bigEndian (bytes ++ [byte]) = bigEndian bytes * 256 + byte.toNat := by
  rw [bigEndian, List.reverse_concat, littleEndian, List.map_cons, Nat.ofDigits_cons, Nat.add_comm,
    Nat.mul_comm]
  rfl

section Words

theorem toNat_shiftLeft_or {high low : UInt64} {count : Nat} (small : count < 64)
    (fits : high.toNat < 2 ^ (64 - count)) (below : low.toNat < 2 ^ count) :
    ((high <<< .ofNat count) ||| low).toNat = high.toNat * 2 ^ count + low.toNat := by
  have shift : (UInt64.ofNat count).toNat % 64 = count := by
    rw [UInt64.toNat_ofNat']
    omega
  have bound : high.toNat * 2 ^ count < 2 ^ 64 := by
    have scaled := Nat.mul_lt_mul_of_pos_right fits (Nat.two_pow_pos count)
    rwa [← Nat.pow_add, Nat.sub_add_cancel (Nat.le_of_lt small)] at scaled
  rw [UInt64.toNat_or, UInt64.toNat_shiftLeft, shift, Nat.shiftLeft_eq, Nat.mod_eq_of_lt bound,
    ← Nat.shiftLeft_eq, ← Nat.shiftLeft_add_eq_or_of_lt below, Nat.shiftLeft_eq]

theorem toNat_one_shiftLeft {count : Nat} (small : count < 64) :
    ((1 : UInt64) <<< .ofNat count).toNat = 2 ^ count := by
  have shift : (UInt64.ofNat count).toNat % 64 = count := by
    rw [UInt64.toNat_ofNat']
    omega
  rw [UInt64.toNat_shiftLeft, shift, UInt64.toNat_one, Nat.shiftLeft_eq, Nat.one_mul]
  exact Nat.mod_eq_of_lt (Nat.pow_lt_pow_right (by decide) small)

theorem and_bit_ne_zero_iff (value : UInt64) {bits : Nat} (small : bits < 64) :
    value &&& ((1 : UInt64) <<< .ofNat bits) ≠ 0 ↔ value.toNat.testBit bits = true := by
  have power := Nat.two_pow_pos bits
  rw [Ne, ← UInt64.toNat_inj, UInt64.toNat_and, toNat_one_shiftLeft small, Nat.and_two_pow]
  cases value.toNat.testBit bits
  · simp
  · simp

theorem testBit_top_iff {value bits : Nat} (positive : 1 ≤ bits) (below : value < 2 ^ bits) :
    value.testBit (bits - 1) = true ↔ 2 ^ (bits - 1) ≤ value := by
  have half : 2 ^ bits = 2 * 2 ^ (bits - 1) := by
    rw [← Nat.pow_succ', Nat.succ_eq_add_one, Nat.sub_add_cancel positive]
  have quotient : value / 2 ^ (bits - 1) < 2 := by
    rw [Nat.div_lt_iff_lt_mul (Nat.two_pow_pos _), ← half]
    exact below
  rw [Nat.testBit_eq_decide_div_mod_eq, decide_eq_true_iff,
    ← Nat.one_le_div_iff (Nat.two_pow_pos _)]
  generalize value / 2 ^ (bits - 1) = top at quotient ⊢
  omega

theorem twosComplement_injective {bits value other : Nat} (positive : 1 ≤ bits)
    (below : value < 2 ^ bits) (otherBelow : other < 2 ^ bits)
    (same : twosComplement bits value = twosComplement bits other) : value = other := by
  have half : 2 ^ bits = 2 * 2 ^ (bits - 1) := by
    rw [← Nat.pow_succ', Nat.succ_eq_add_one, Nat.sub_add_cancel positive]
  unfold twosComplement at same
  split at same <;> split at same <;> omega

theorem toInt_toInt64 (value : UInt64) :
    value.toInt64.toInt = twosComplement 64 value.toNat := by
  change value.toBitVec.toInt = _
  rw [BitVec.toInt_eq_toNat_cond, UInt64.toNat_toBitVec, twosComplement]
  have bound := value.toNat_lt
  split <;> split <;> omega

theorem or_ones_shiftLeft {value bits width : Nat} (below : value < 2 ^ (bits + width)) :
    value ||| (2 ^ width - 1) <<< bits = (2 ^ width - 1) * 2 ^ bits + value % 2 ^ bits := by
  have power := Nat.two_pow_pos bits
  have high : value / 2 ^ bits < 2 ^ width := by
    rw [Nat.div_lt_iff_lt_mul power, ← Nat.pow_add, Nat.add_comm]
    exact below
  have quotient : (value ||| (2 ^ width - 1) <<< bits) / 2 ^ bits = 2 ^ width - 1 := by
    rw [Nat.or_div_two_pow, Nat.shiftLeft_eq, Nat.mul_div_cancel _ power]
    have upper := Nat.or_lt_two_pow high (Nat.sub_lt (Nat.two_pow_pos width) Nat.one_pos)
    have lower : 2 ^ width - 1 ≤ value / 2 ^ bits ||| (2 ^ width - 1) := Nat.right_le_or
    omega
  have remainder : (value ||| (2 ^ width - 1) <<< bits) % 2 ^ bits = value % 2 ^ bits := by
    rw [Nat.or_mod_two_pow, Nat.shiftLeft_eq, Nat.mul_mod_left, Nat.or_zero]
  have whole := Nat.div_add_mod' (value ||| (2 ^ width - 1) <<< bits) (2 ^ bits)
  rw [quotient, remainder] at whole
  exact whole.symm

/-- Filling the bits in front of a negative value with ones keeps the integer. -/
theorem toInt_fill {value : UInt64} {bits : Nat} (positive : 1 ≤ bits) (small : bits < 64)
    (negative : value.toNat.testBit (bits - 1) = true) :
    (value ||| ~~~((1 : UInt64) <<< .ofNat bits - 1)).toInt64.toInt =
      twosComplement bits (value.toNat % 2 ^ bits) := by
  have power : 2 ^ bits * 2 ^ (64 - bits) = 2 ^ 64 := by
    rw [← Nat.pow_add]
    congr 1
    omega
  have spare : 2 ≤ 2 ^ (64 - bits) :=
    Nat.le_self_pow (by omega) 2
  have ones : (~~~((1 : UInt64) <<< .ofNat bits - 1)).toNat =
      (2 ^ (64 - bits) - 1) <<< bits := by
    have one_le : (1 : UInt64) ≤ (1 : UInt64) <<< .ofNat bits := by
      rw [UInt64.le_iff_toNat_le, toNat_one_shiftLeft small, UInt64.toNat_one]
      exact Nat.two_pow_pos bits
    rw [UInt64.toNat_not, UInt64.toNat_sub_of_le _ _ one_le, toNat_one_shiftLeft small,
      UInt64.toNat_one, UInt64.size, Nat.shiftLeft_eq, Nat.sub_mul, Nat.one_mul, Nat.mul_comm,
      power]
    have positivePower := Nat.two_pow_pos bits
    omega
  have bounded := value.toNat_lt
  have filled : (value ||| ~~~((1 : UInt64) <<< .ofNat bits - 1)).toNat =
      2 ^ 64 - 2 ^ bits + value.toNat % 2 ^ bits := by
    rw [UInt64.toNat_or, ones, or_ones_shiftLeft (by rwa [Nat.pow_add, power]), Nat.sub_mul,
      Nat.one_mul, Nat.mul_comm, power]
  have below := Nat.mod_lt value.toNat (Nat.two_pow_pos bits)
  have top : 2 ^ (bits - 1) ≤ value.toNat % 2 ^ bits := by
    rw [← testBit_top_iff positive below, Nat.testBit_mod_two_pow, negative, Bool.and_true,
      decide_eq_true_iff]
    omega
  have half : 2 ^ bits = 2 * 2 ^ (bits - 1) := by
    rw [← Nat.pow_succ', Nat.succ_eq_add_one, Nat.sub_add_cancel positive]
  have scaled : 2 * 2 ^ bits ≤ 2 ^ 64 := by
    rw [← power, Nat.mul_comm]
    exact Nat.mul_le_mul_left _ spare
  rw [toInt_toInt64, filled, twosComplement, twosComplement, if_neg (by omega), if_neg (by omega)]
  omega

end Words

end Library.Bytes

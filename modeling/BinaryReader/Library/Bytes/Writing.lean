import BinaryReader.Library.Bytes

/-!
# Writing integers in bytes

The bytes of a number in either byte order, and the number of some bits that
stands for an integer.  Reading and writing undo each other.
-/

namespace Library.Bytes

def toLittleEndian : (count value : Nat) → List UInt8
  | 0, _ => []
  | count + 1, value => .ofNat value :: toLittleEndian count (value / 256)

def toBigEndian (count value : Nat) : List UInt8 := (toLittleEndian count value).reverse

/-- The number of some bits whose two's complement is an integer. -/
def ofTwosComplement (bits : Nat) (value : Int) : Nat := (value % (2 ^ bits : Nat)).toNat

example : toBigEndian 2 (ofTwosComplement 16 (-2)) = [0xff, 0xfe] := by decide

@[simp]
theorem length_toLittleEndian (count value : Nat) :
    (toLittleEndian count value).length = count := by
  induction count generalizing value with
  | zero => rfl
  | succ count inductionHypothesis =>
      rw [toLittleEndian, List.length_cons, inductionHypothesis]

@[simp]
theorem length_toBigEndian (count value : Nat) : (toBigEndian count value).length = count := by
  rw [toBigEndian, List.length_reverse, length_toLittleEndian]

theorem littleEndian_cons (byte : UInt8) (bytes : List UInt8) :
    littleEndian (byte :: bytes) = byte.toNat + 256 * littleEndian bytes := by
  rw [littleEndian, List.map_cons, Nat.ofDigits_cons, littleEndian]

theorem littleEndian_toLittleEndian {count value : Nat} (small : value < 256 ^ count) :
    littleEndian (toLittleEndian count value) = value := by
  induction count generalizing value with
  | zero =>
      rw [Nat.pow_zero, Nat.lt_one_iff] at small
      rw [small]
      rfl
  | succ count inductionHypothesis =>
      have quotient : value / 256 < 256 ^ count := by
        rw [Nat.div_lt_iff_lt_mul (by decide), ← Nat.pow_succ]
        exact small
      rw [toLittleEndian, littleEndian_cons, inductionHypothesis quotient, UInt8.toNat_ofNat']
      exact Nat.mod_add_div value 256

theorem toLittleEndian_littleEndian (bytes : List UInt8) :
    toLittleEndian bytes.length (littleEndian bytes) = bytes := by
  induction bytes with
  | nil => rfl
  | cons byte bytes inductionHypothesis =>
      have low := byte.toNat_lt
      have quotient : (byte.toNat + 256 * littleEndian bytes) / 256 = littleEndian bytes := by
        omega
      have remainder : UInt8.ofNat (byte.toNat + 256 * littleEndian bytes) = byte := by
        apply UInt8.toNat_inj.mp
        rw [UInt8.toNat_ofNat']
        omega
      rw [littleEndian_cons, List.length_cons, toLittleEndian, quotient, remainder,
        inductionHypothesis]

theorem bigEndian_toBigEndian {count value : Nat} (small : value < 256 ^ count) :
    bigEndian (toBigEndian count value) = value := by
  rw [bigEndian, toBigEndian, List.reverse_reverse, littleEndian_toLittleEndian small]

theorem toBigEndian_bigEndian (bytes : List UInt8) :
    toBigEndian bytes.length (bigEndian bytes) = bytes := by
  rw [toBigEndian, bigEndian, ← List.length_reverse, toLittleEndian_littleEndian,
    List.reverse_reverse]

theorem ofTwosComplement_lt (bits : Nat) (value : Int) :
    ofTwosComplement bits value < 2 ^ bits := by
  have positive := Nat.two_pow_pos bits
  rw [ofTwosComplement]
  omega

theorem ofTwosComplement_natCast {bits value : Nat} (below : value < 2 ^ bits) :
    ofTwosComplement bits value = value := by
  rw [ofTwosComplement, ← Int.natCast_emod, Int.toNat_natCast, Nat.mod_eq_of_lt below]

theorem twosComplement_ofTwosComplement {bits : Nat} {value : Int} (positive : 1 ≤ bits)
    (low : -(2 ^ (bits - 1) : Nat) ≤ value) (high : value < (2 ^ (bits - 1) : Nat)) :
    twosComplement bits (ofTwosComplement bits value) = value := by
  have half : 2 ^ bits = 2 * 2 ^ (bits - 1) := by
    rw [← Nat.pow_succ', Nat.succ_eq_add_one, Nat.sub_add_cancel positive]
  rw [twosComplement, ofTwosComplement, half]
  have residue : value % ((2 * 2 ^ (bits - 1) : Nat) : Int) =
      if 0 ≤ value then value else value + (2 * 2 ^ (bits - 1) : Nat) := by
    split_ifs with sign
    · exact Int.emod_eq_of_lt sign (by omega)
    · rw [← Int.add_emod_right]
      exact Int.emod_eq_of_lt (by omega) (by omega)
  rw [residue]
  split_ifs <;> omega

theorem twosComplement_range {bits value : Nat} (positive : 1 ≤ bits) (below : value < 2 ^ bits) :
    -(2 ^ (bits - 1) : Nat) ≤ twosComplement bits value ∧
      twosComplement bits value < (2 ^ (bits - 1) : Nat) := by
  have half : 2 ^ bits = 2 * 2 ^ (bits - 1) := by
    rw [← Nat.pow_succ', Nat.succ_eq_add_one, Nat.sub_add_cancel positive]
  rw [twosComplement]
  split_ifs
  · omega
  · omega

theorem ofTwosComplement_twosComplement {bits value : Nat} (positive : 1 ≤ bits)
    (below : value < 2 ^ bits) : ofTwosComplement bits (twosComplement bits value) = value := by
  have range := twosComplement_range positive below
  apply twosComplement_injective positive (ofTwosComplement_lt _ _) below
  exact twosComplement_ofTwosComplement positive range.1 range.2

end Library.Bytes

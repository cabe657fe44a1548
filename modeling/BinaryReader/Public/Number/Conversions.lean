import BinaryReader.Library.Bytes
import BinaryReader.Public.Number

/-!
# Clamped conversions

`as_unsigned` and `as_signed` truncate and clamp the numbers whose truncation at least
one of the two largest integer types has.  The guard of `clamp_cast` converts every
other finite double without a check.
-/

namespace BinaryReader

open Library

def clamp (low high value : Int) : Int := max low (min high value)

namespace Number

/-- The value of a number, truncated and clamped; NaN has none. -/
def clamped (low high : Int) : Number → Option Int
  | .double (.infinity negative) => some (if negative then low else high)
  | number => number.toRat?.map fun value => clamp low high (Rounding.truncate value)

/-- Both conversions return and have the clamped value. -/
def ConvertsClamped (number : Number) : Prop :=
  (∃ result, number.asUnsigned = .ok result ∧
    number.clamped 0 (2 ^ 64 - 1) = some (result.toNat : Int)) ∧
  ∃ result, number.asSigned = .ok result ∧
    number.clamped (-2 ^ 63) (2 ^ 63 - 1) = some result.toInt

/-- The number is a finite double that neither `uintmax_t` nor `intmax_t` can hold. -/
def Excessive : Number → Prop
  | .double value => ∃ held, value.toRat? = some held ∧ (2 ^ 64 ≤ held ∨ held ≤ -2 ^ 63 - 1)
  | _ => False

end Number

/-- A source value holds a finite number with this truncation. -/
structure Truncates {Source : Type} [Arithmetic Source] (src : Source) (truncated : Int) :
    Prop where
  finite : (Arithmetic.toDouble src).isFinite
  nonneg : ¬ Arithmetic.isNegative src → 0 ≤ truncated
  nonpos : ¬ Arithmetic.isPositive src → truncated ≤ 0
  exclusive : Arithmetic.isPositive src → ¬ Arithmetic.isNegative src
  toUintmax : 0 ≤ truncated → truncated < 2 ^ 64 →
    ∃ result, Arithmetic.toUintmax src = .ok result ∧ (result.toNat : Int) = truncated
  toIntmax : -2 ^ 63 ≤ truncated → truncated < 2 ^ 63 →
    ∃ result, Arithmetic.toIntmax src = .ok result ∧ result.toInt = truncated

section
variable {Source : Type} [Arithmetic Source] {src : Source} {truncated : Int}

theorem Truncates.clampCast_unsigned (truncates : Truncates src truncated)
    (least : -2 ^ 63 ≤ truncated) (most : truncated < 2 ^ 64) :
    ∃ result : UInt64, clampCast src = .ok result ∧
      (result.toNat : Int) = clamp 0 (2 ^ 64 - 1) truncated := by
  unfold clamp
  by_cases positive : Arithmetic.isPositive src
  · have notNegative := truncates.exclusive positive
    obtain ⟨result, converted, value⟩ := truncates.toUintmax (truncates.nonneg notNegative) most
    have notAbove : ¬ Integral.maxUnsigned UInt64 < result := by
      rw [UInt64.lt_iff_toNat_lt, show (Integral.maxUnsigned UInt64).toNat = 2 ^ 64 - 1 from rfl]
      omega
    refine ⟨result, ?_, by omega⟩
    rw [clampCast_positive positive notNegative truncates.finite, converted, Checked.ok_bind,
      if_neg notAbove]
    exact converted
  · have nonpos := truncates.nonpos positive
    by_cases negative : Arithmetic.isNegative src
    · obtain ⟨asSigned, converted, value⟩ := truncates.toIntmax least (by omega)
      rw [clampCast_negative negative positive truncates.finite, converted, Checked.ok_bind]
      by_cases below : asSigned < Integral.lowestSigned UInt64
      · rw [if_pos below]
        exact ⟨0, rfl, by rw [UInt64.toNat_zero]; omega⟩
      · have lowest : (Integral.lowestSigned UInt64).toInt = 0 := rfl
        have nonneg : 0 ≤ asSigned.toInt := by
          rw [Int64.lt_iff_toInt_lt, lowest] at below
          omega
        obtain ⟨result, converted, value⟩ := truncates.toUintmax (by omega) most
        rw [if_neg below]
        exact ⟨result, converted, by omega⟩
    · have nonneg := truncates.nonneg negative
      obtain ⟨result, converted, value⟩ := truncates.toUintmax nonneg most
      rw [clampCast_zero positive negative]
      exact ⟨result, converted, by omega⟩

theorem Truncates.clampCast_signed (truncates : Truncates src truncated)
    (least : -2 ^ 63 ≤ truncated) (most : truncated < 2 ^ 64) :
    ∃ result : Int64, clampCast src = .ok result ∧
      result.toInt = clamp (-2 ^ 63) (2 ^ 63 - 1) truncated := by
  unfold clamp
  by_cases positive : Arithmetic.isPositive src
  · have notNegative := truncates.exclusive positive
    have nonneg := truncates.nonneg notNegative
    obtain ⟨asUnsigned, converted, value⟩ := truncates.toUintmax nonneg most
    rw [clampCast_positive positive notNegative truncates.finite, converted, Checked.ok_bind]
    by_cases above : Integral.maxUnsigned Int64 < asUnsigned
    · rw [if_pos above]
      rw [UInt64.lt_iff_toNat_lt, show (Integral.maxUnsigned Int64).toNat = 2 ^ 63 - 1 from rfl]
        at above
      have limit : (Integral.max : Int64).toInt = 2 ^ 63 - 1 := rfl
      exact ⟨_, rfl, by omega⟩
    · rw [if_neg above]
      rw [UInt64.lt_iff_toNat_lt, show (Integral.maxUnsigned Int64).toNat = 2 ^ 63 - 1 from rfl]
        at above
      obtain ⟨result, converted, value⟩ := truncates.toIntmax least (by omega)
      exact ⟨result, converted, by omega⟩
  · have nonpos := truncates.nonpos positive
    obtain ⟨result, converted, value⟩ := truncates.toIntmax least (by omega)
    refine ⟨result, ?_, by omega⟩
    by_cases negative : Arithmetic.isNegative src
    · have notBelow : ¬ result < Integral.lowestSigned Int64 := by
        rw [Int64.lt_iff_toInt_lt,
          show (Integral.lowestSigned Int64).toInt = -2 ^ 63 from rfl]
        omega
      rw [clampCast_negative negative positive truncates.finite, converted, Checked.ok_bind,
        if_neg notBelow]
      exact converted
    · rw [clampCast_zero positive negative]
      exact converted

end

theorem truncates_unsigned (value : UInt64) : Truncates value value.toNat where
  finite := rfl
  nonneg _ := Int.natCast_nonneg _
  nonpos notPositive := by
    have zero : ¬ 0 < value := fun positive => notPositive (decide_eq_true positive)
    rw [UInt64.lt_iff_toNat_lt, UInt64.toNat_zero] at zero
    omega
  exclusive _ := nofun
  toUintmax _ _ := ⟨value, rfl, rfl⟩
  toIntmax _ small := by
    refine ⟨_, rfl, ?_⟩
    rw [Bytes.toInt_toInt64, Bytes.twosComplement, if_pos (by omega)]

theorem truncates_signed (value : Int64) : Truncates value value.toInt where
  finite := rfl
  nonneg notNegative := by
    have nonneg : ¬ value < 0 := fun negative => notNegative (decide_eq_true negative)
    rw [Int64.lt_iff_toInt_lt, Int64.toInt_zero] at nonneg
    omega
  nonpos notPositive := by
    have nonpos : ¬ 0 < value := fun positive => notPositive (decide_eq_true positive)
    rw [Int64.lt_iff_toInt_lt, Int64.toInt_zero] at nonpos
    omega
  exclusive positive negative := by
    exact Int64.lt_asymm (of_decide_eq_true positive) (of_decide_eq_true negative)
  toUintmax nonneg _ := by
    refine ⟨_, rfl, ?_⟩
    rw [Int64.toNat_toUInt64_of_le (Int64.le_iff_toInt_le.mpr nonneg)]
    exact Int.toNat_of_nonneg nonneg
  toIntmax _ _ := ⟨value, rfl, rfl⟩

theorem toRat?_zero : (Double.ofUnsigned 0).toRat? = some 0 := by
  decide +kernel

section
variable {value : Double} {held : ℚ} (finite : value.toRat? = some held)
include finite

theorem isPositive_iff : Arithmetic.isPositive value ↔ 0 < held :=
  Double.lt_iff toRat?_zero finite

theorem isNegative_iff : Arithmetic.isNegative value ↔ held < 0 :=
  Double.lt_iff finite toRat?_zero

theorem convert_eq {low high : Int} (least : low ≤ Rounding.truncate held)
    (most : Rounding.truncate held ≤ high) :
    value.convert low high = .ok (Rounding.truncate held) := by
  rw [Double.convert, finite]
  exact if_pos ⟨least, most⟩

theorem convert_error {low high : Int}
    (outside : Rounding.truncate held < low ∨ high < Rounding.truncate held) :
    value.convert low high = .error .conversion := by
  rw [Double.convert, finite]
  exact if_neg (by omega)

end

theorem truncates_double {value : Double} {held : ℚ} (finite : value.toRat? = some held) :
    Truncates value (Rounding.truncate held) where
  finite := Double.isFinite_of_toRat? finite
  nonneg notNegative := by
    rw [isNegative_iff finite, not_lt] at notNegative
    exact Rounding.truncate_nonneg notNegative
  nonpos notPositive := by
    rw [isPositive_iff finite, not_lt] at notPositive
    exact Rounding.truncate_nonpos notPositive
  exclusive positive negative :=
    lt_asymm ((isPositive_iff finite).mp positive) ((isNegative_iff finite).mp negative)
  toUintmax nonneg most := by
    have converted := convert_eq finite nonneg (Int.le_sub_one_of_lt most)
    refine ⟨_, congrArg (UInt64.ofInt <$> ·) converted, ?_⟩
    rw [UInt64.ofInt, UInt64.toNat_ofNat', Int.emod_eq_of_lt nonneg most]
    omega
  toIntmax least most := by
    have converted := convert_eq finite least (Int.le_sub_one_of_lt most)
    exact ⟨_, congrArg (Int64.ofInt <$> ·) converted, Int64.toInt_ofInt_of_le least most⟩

theorem clampCast_excessive {Dest : Type} [Integral Dest] {value : Double} {held : ℚ}
    (finite : value.toRat? = some held)
    (outside : 2 ^ 64 ≤ Rounding.truncate held ∨ Rounding.truncate held < -2 ^ 63) :
    (clampCast value : Checked Dest) = .error .conversion := by
  have truncates := truncates_double finite
  rcases outside with large | small
  · have positive : Arithmetic.isPositive value := by
      by_contra notPositive
      have nonpos := truncates.nonpos notPositive
      omega
    have undefined : value.convert 0 (2 ^ 64 - 1) = .error .conversion :=
      convert_error finite (Or.inr (Int.sub_one_lt_of_le large))
    rw [clampCast_positive positive (truncates.exclusive positive) truncates.finite]
    exact congrArg (fun converted => UInt64.ofInt <$> converted >>= _) undefined
  · have negative : Arithmetic.isNegative value := by
      by_contra notNegative
      have nonneg := truncates.nonneg notNegative
      omega
    rw [clampCast_negative negative (fun positive => truncates.exclusive positive negative)
      truncates.finite]
    have undefined : value.convert (-2 ^ 63) (2 ^ 63 - 1) = .error .conversion :=
      convert_error finite (Or.inl small)
    exact congrArg (fun converted => Int64.ofInt <$> converted >>= _) undefined

namespace Number

theorem convertsClamped_of_truncates {Source : Type} [Arithmetic Source] {src : Source}
    {truncated : Int} (truncates : Truncates src truncated) (least : -2 ^ 63 ≤ truncated)
    (most : truncated < 2 ^ 64) {number : Number} (asUnsigned : number.asUnsigned = clampCast src)
    (asSigned : number.asSigned = clampCast src)
    (value : ∀ low high, number.clamped low high = some (clamp low high truncated)) :
    ConvertsClamped number := by
  obtain ⟨unsigned, unsignedEq, unsignedValue⟩ := truncates.clampCast_unsigned least most
  obtain ⟨signed, signedEq, signedValue⟩ := truncates.clampCast_signed least most
  constructor
  · exact ⟨unsigned, asUnsigned.trans unsignedEq, by rw [value, unsignedValue]⟩
  · exact ⟨signed, asSigned.trans signedEq, by rw [value, signedValue]⟩

theorem convertsClamped_infinity (negative : Bool) :
    ConvertsClamped (.double (.infinity negative)) := by
  cases negative with
  | false => exact ⟨⟨_, rfl, rfl⟩, _, rfl, rfl⟩
  | true => exact ⟨⟨_, rfl, rfl⟩, _, rfl, rfl⟩

theorem excessive_iff {value : Double} {held : ℚ} (finite : value.toRat? = some held) :
    Excessive (.double value) ↔
      2 ^ 64 ≤ Rounding.truncate held ∨ Rounding.truncate held ≤ -2 ^ 63 - 1 := by
  have largest : ((2 ^ 64 : Int) : ℚ) = 2 ^ 64 := by norm_num
  have smallest : ((-2 ^ 63 - 1 : Int) : ℚ) = -2 ^ 63 - 1 := by norm_num
  rw [Rounding.le_truncate_iff (by decide), Rounding.truncate_le_iff (by decide), largest, smallest]
  constructor
  · rintro ⟨other, otherHeld, outside⟩
    rw [finite] at otherHeld
    cases otherHeld
    exact outside
  · exact fun outside => ⟨held, finite, outside⟩

theorem convertsClamped_double {value : Double} {held : ℚ} (finite : value.toRat? = some held) :
    ConvertsClamped (.double value) ↔ ¬ Excessive (.double value) := by
  rw [excessive_iff finite]
  constructor
  · rintro ⟨⟨result, converted, -⟩, -⟩ outside
    have undefined : asUnsigned (.double value) = .error .conversion :=
      clampCast_excessive finite (by omega)
    rw [converted] at undefined
    cases undefined
  · intro inside
    apply convertsClamped_of_truncates (truncates_double finite) (by omega) (by omega) rfl rfl
    intro low high
    cases value <;> cases finite
    rfl

/-- Both conversions are defined and clamp exactly when the number is no finite double beyond
the largest `uintmax_t` or the smallest `intmax_t`. -/
theorem convertsClamped_iff (number : Number) (known : number ≠ .double .nan) :
    ConvertsClamped number ↔ ¬ Excessive number := by
  match number, known with
  | .unsignedInt value, _ =>
      refine ⟨fun _ => id, fun _ => ?_⟩
      have below := value.toNat_lt
      apply convertsClamped_of_truncates (truncates_unsigned value) (by omega) (by omega) rfl rfl
      intro low high
      have exact := Rounding.truncate_intCast value.toNat
      rw [Int.cast_natCast] at exact
      exact congrArg (fun truncated => some (clamp low high truncated)) exact
  | .signedInt value _, _ =>
      refine ⟨fun _ => id, fun _ => ?_⟩
      have least := value.le_toInt
      have most := value.toInt_lt
      apply convertsClamped_of_truncates (truncates_signed value) (by omega) (by omega) rfl rfl
      intro low high
      have exact := Rounding.truncate_intCast value.toInt
      exact congrArg (fun truncated => some (clamp low high truncated)) exact
  | .double (.infinity negative), _ =>
      refine ⟨fun _ => ?_, fun _ => convertsClamped_infinity negative⟩
      rintro ⟨held, finite, -⟩
      cases finite
  | .double (.finite negative magnitude), _ => exact convertsClamped_double rfl
  | .double .nan, known => exact absurd rfl known

def fourAndHalf : Double := .finite false ⟨9, 1073, by decide⟩

theorem convertsClamped_iff_fourAndHalf :
    ofDouble fourAndHalf ≠ .double .nan ∧
      (ConvertsClamped (ofDouble fourAndHalf) ↔ ¬ Excessive (ofDouble fourAndHalf)) :=
  ⟨by decide, convertsClamped_iff (ofDouble fourAndHalf) (by decide)⟩

def twoPow64 : Double := .finite false ⟨2 ^ 52, 1086, by decide⟩

/-- Both conversions of `2 ^ 64` are undefined. -/
theorem not_convertsClamped :
    (ofDouble twoPow64).asUnsigned = .error .conversion ∧
      (ofDouble twoPow64).asSigned = .error .conversion ∧
      ¬ ∀ number : Number, number ≠ .double .nan → ConvertsClamped number := by
  have undefined : (ofDouble twoPow64).asUnsigned = .error .conversion := by decide +kernel
  refine ⟨undefined, by decide +kernel, fun converts => ?_⟩
  obtain ⟨⟨result, converted, -⟩, -⟩ := converts (ofDouble twoPow64) (by decide)
  rw [undefined] at converted
  cases converted

end Number

end BinaryReader

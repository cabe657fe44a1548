import BinaryReader.Library.Rounding
import Mathlib.Data.UInt

/-!
# Doubles

The values of a `double`, their comparisons, and the conversions to them that round to
the nearest one.
-/

namespace BinaryReader

open Library

/-- The absolute value of a finite `double`, `mantissa * 2 ^ (biased - 1074)`. -/
structure Magnitude where
  mantissa : Nat
  biased : Nat
  valid : mantissa < 2 ^ 53 ∧ biased ≤ 2045
  deriving DecidableEq, Repr

inductive Double where
  | nan
  | infinity (negative : Bool)
  | finite (negative : Bool) (magnitude : Magnitude)
  deriving DecidableEq, Repr

namespace Magnitude

/-- None stands for a mantissa or an exponent that is too large or too small. -/
def mk? (mantissa : Nat) (exponent : Int) : Option Magnitude :=
  if valid : mantissa < 2 ^ 53 ∧ -1074 ≤ exponent ∧ exponent ≤ 971 then
    some ⟨mantissa, (exponent + 1074).toNat, valid.1, by omega⟩
  else
    none

/-- The magnitude nearest to a 64-bit integer, the even one of two. -/
def ofNat (value : Nat) (fits : value < 2 ^ 64) : Magnitude :=
  let digits := Rounding.excess 53 value
  let mantissa := Rounding.nearest value (2 ^ digits)
  have digitsLe : digits ≤ 11 := Rounding.excess_le (by decide) fits
  if carry : mantissa = 2 ^ 53 then
    ⟨2 ^ 52, digits + 1075, by decide, by omega⟩
  else
    ⟨mantissa, digits + 1074, lt_of_le_of_ne (Rounding.nearest_excess_le value) carry, by omega⟩

def toRat (magnitude : Magnitude) : ℚ :=
  magnitude.mantissa * 2 ^ ((magnitude.biased : Int) - 1074)

theorem representable (magnitude : Magnitude) : Rounding.Representable 53 magnitude.toRat := by
  refine ⟨magnitude.mantissa, (magnitude.biased : Int) - 1074, ?_, rfl⟩
  rw [Nat.abs_cast]
  exact_mod_cast magnitude.valid.1

theorem toRat_ofNat (value : Nat) (fits : value < 2 ^ 64) :
    (ofNat value fits).toRat = Rounding.roundNat 53 value := by
  unfold ofNat
  dsimp only
  split
  · rename_i carry
    have exponent : ((Rounding.excess 53 value + 1075 : Nat) : Int) - 1074 =
        (Rounding.excess 53 value + 1 : Nat) := by omega
    rw [toRat, exponent, zpow_natCast, Rounding.roundNat, carry]
    push_cast
    ring
  · have exponent : ((Rounding.excess 53 value + 1074 : Nat) : Int) - 1074 =
        Rounding.excess 53 value := by omega
    rw [toRat, exponent, zpow_natCast, Rounding.roundNat]
    push_cast
    rfl

end Magnitude

namespace Double

def scale (numerator denominator : Nat) (exponent : Int) : Nat × Nat :=
  if exponent < 0 then (numerator * 2 ^ exponent.natAbs, denominator)
  else (numerator, denominator * 2 ^ exponent.natAbs)

/-- The exponent for which the fraction has a mantissa of 53 bits. -/
def exponentOf (numerator denominator : Nat) : Int :=
  let guess : Int := (numerator.log2 : Int) - denominator.log2 - 52
  let scaled := scale numerator denominator guess
  if scaled.1 / scaled.2 < 2 ^ 52 then guess - 1 else guess

/-- The fraction is below every normal double, also after it is rounded to 53 bits. -/
def isTiny (numerator denominator : Nat) : Bool :=
  let exponent := exponentOf numerator denominator
  let scaled := scale numerator denominator exponent
  exponent < -1075 || exponent = -1075 && Rounding.nearest scaled.1 scaled.2 < 2 ^ 53

/-- The nearest double, ties to even. None stands for `ERANGE`: the value is too large, or it
is tiny and not exact. -/
def round (numerator denominator : Nat) : Option Double :=
  let exponent := max (exponentOf numerator denominator) (-1074)
  let scaled := scale numerator denominator exponent
  let mantissa := Rounding.nearest scaled.1 scaled.2
  if isTiny numerator denominator ∧ scaled.1 % scaled.2 ≠ 0 then none
  else
    Double.finite false <$>
      if mantissa = 2 ^ 53 then Magnitude.mk? (2 ^ 52) (exponent + 1)
      else Magnitude.mk? mantissa exponent

-- Both are nearest to the least normal double, but one is below it with 53 bits too.
example : round (2 ^ 54 - 1) (2 ^ 1076) = some (.finite false ⟨2 ^ 52, 0, by decide⟩) ∧
    round (2 ^ 55 - 3) (2 ^ 1077) = none := by decide +kernel

def signed (negative : Bool) (magnitude : Magnitude) : ℚ :=
  if negative then -magnitude.toRat else magnitude.toRat

def toRat? : Double → Option ℚ
  | .finite negative magnitude => some (signed negative magnitude)
  | _ => none

def eq : Double → Double → Bool
  | .finite negative magnitude, .finite negative' magnitude' =>
      signed negative magnitude = signed negative' magnitude'
  | .infinity negative, .infinity negative' => negative = negative'
  | _, _ => false

def lt : Double → Double → Bool
  | .finite negative magnitude, .finite negative' magnitude' =>
      signed negative magnitude < signed negative' magnitude'
  | .infinity negative, .infinity negative' => negative && !negative'
  | .infinity negative, .finite .. => negative
  | .finite .., .infinity negative => !negative
  | _, _ => false

def isFinite : Double → Bool
  | .finite .. => true
  | _ => false

def ofInt (value : Int) (fits : value.natAbs < 2 ^ 64) : Double :=
  .finite (value < 0) (.ofNat value.natAbs fits)

def ofUnsigned (value : UInt64) : Double := ofInt value.toNat value.toNat_lt

def ofSigned (value : Int64) : Double :=
  ofInt value.toInt (by have := value.toInt_lt; have := value.le_toInt; omega)

theorem toRat?_ofInt (value : Int) (fits : value.natAbs < 2 ^ 64) :
    (ofInt value fits).toRat? = some (Rounding.roundInt 53 value : ℚ) := by
  rw [ofInt, toRat?, signed, Magnitude.toRat_ofNat, Rounding.roundInt]
  by_cases negative : value < 0 <;> simp [negative]

theorem representable {double : Double} {value : ℚ} (held : double.toRat? = some value) :
    Rounding.Representable 53 value := by
  rcases double with _ | _ | ⟨_ | _, magnitude⟩ <;> cases held
  · exact magnitude.representable
  · exact magnitude.representable.neg

section
variable {left right : Double} {leftValue rightValue : ℚ} (leftHeld : left.toRat? = some leftValue)
  (rightHeld : right.toRat? = some rightValue)
include leftHeld rightHeld

theorem eq_iff : left.eq right ↔ leftValue = rightValue := by
  cases left <;> cases leftHeld
  cases right <;> cases rightHeld
  exact decide_eq_true_iff

theorem lt_iff : left.lt right ↔ leftValue < rightValue := by
  cases left <;> cases leftHeld
  cases right <;> cases rightHeld
  exact decide_eq_true_iff

end

theorem isFinite_of_toRat? {double : Double} {value : ℚ} (held : double.toRat? = some value) :
    double.isFinite := by
  cases double <;> cases held
  rfl

end Double

end BinaryReader

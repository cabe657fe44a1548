import BinaryReader.Util.Double
import BinaryReader.Util.Fault

/-!
# Clamping casts

`clamp_cast` and the conversions between arithmetic types that it makes.  A conversion
from a floating type discards the fraction, and it is undefined when the integer type
does not have the result.
-/

namespace BinaryReader

open Library

/-- The comparisons with zero and the `static_cast`s of a source type. -/
class Arithmetic (Source : Type) where
  isPositive : Source → Bool
  isNegative : Source → Bool
  toDouble : Source → Double
  toUintmax : Source → Checked UInt64
  toIntmax : Source → Checked Int64

instance : Arithmetic UInt64 where
  isPositive value := 0 < value
  isNegative _ := false
  toDouble := .ofUnsigned
  toUintmax value := .ok value
  toIntmax value := .ok value.toInt64

instance : Arithmetic Int64 where
  isPositive value := 0 < value
  isNegative value := value < 0
  toDouble := .ofSigned
  toUintmax value := .ok value.toUInt64
  toIntmax value := .ok value

/-- The truncation of a double that is in a range. -/
def Double.convert (low high : Int) (value : Double) : Checked Int :=
  match value.toRat? with
  | some held =>
      let truncated := Rounding.truncate held
      if low ≤ truncated ∧ truncated ≤ high then .ok truncated else .error .conversion
  | none => .error .conversion

instance : Arithmetic Double where
  isPositive value := Double.lt (.ofUnsigned 0) value
  isNegative value := Double.lt value (.ofUnsigned 0)
  toDouble value := value
  toUintmax value := UInt64.ofInt <$> value.convert 0 (2 ^ 64 - 1)
  toIntmax value := Int64.ofInt <$> value.convert (-2 ^ 63) (2 ^ 63 - 1)

/-- The limits of an integer destination type, and the `static_cast` to it. -/
class Integral (Dest : Type) where
  lowest : Dest
  max : Dest
  /-- `static_cast<uintmax_t>(max)`. -/
  maxUnsigned : UInt64
  /-- `static_cast<intmax_t>(lowest)`. -/
  lowestSigned : Int64
  cast {Source : Type} [Arithmetic Source] : Source → Checked Dest

instance : Integral UInt64 where
  lowest := 0
  max := .ofNat (2 ^ 64 - 1)
  maxUnsigned := .ofNat (2 ^ 64 - 1)
  lowestSigned := 0
  cast := Arithmetic.toUintmax

instance : Integral Int64 where
  lowest := .ofInt (-2 ^ 63)
  max := .ofInt (2 ^ 63 - 1)
  maxUnsigned := .ofNat (2 ^ 63 - 1)
  lowestSigned := .ofInt (-2 ^ 63)
  cast := Arithmetic.toIntmax

section
open Arithmetic

def clampCast {Dest Source : Type} [Integral Dest] [Arithmetic Source] (src : Source) :
    Checked Dest := do
  if isPositive src then
    if !(toDouble src).isFinite then
      return Integral.max
    if Integral.maxUnsigned Dest < (← toUintmax src) then
      return Integral.max
  if isNegative src then
    if !(toDouble src).isFinite then
      return Integral.lowest
    if (← toIntmax src) < Integral.lowestSigned Dest then
      return Integral.lowest
  Integral.cast src

def clampCastToDouble {Source : Type} [Arithmetic Source] (src : Source) : Double := toDouble src

variable {Dest Source : Type} [Integral Dest] [Arithmetic Source] {src : Source}

theorem clampCast_positive (positive : isPositive src) (notNegative : ¬ isNegative src)
    (finite : (toDouble src).isFinite) :
    (clampCast src : Checked Dest) = toUintmax src >>= fun converted =>
      if Integral.maxUnsigned Dest < converted then .ok Integral.max else Integral.cast src := by
  unfold clampCast
  rw [if_pos positive, finite, if_neg notNegative]
  cases toUintmax src with
  | error fault => rfl
  | ok converted =>
      by_cases above : Integral.maxUnsigned Dest < converted <;> simp [above, pure, Except.pure]

theorem clampCast_negative (negative : isNegative src) (notPositive : ¬ isPositive src)
    (finite : (toDouble src).isFinite) :
    (clampCast src : Checked Dest) = toIntmax src >>= fun converted =>
      if converted < Integral.lowestSigned Dest then .ok Integral.lowest
      else Integral.cast src := by
  unfold clampCast
  rw [if_neg notPositive, if_pos negative, finite]
  cases toIntmax src with
  | error fault => rfl
  | ok converted =>
      by_cases below : converted < Integral.lowestSigned Dest <;> simp [below, pure, Except.pure]

theorem clampCast_zero (notPositive : ¬ isPositive src) (notNegative : ¬ isNegative src) :
    (clampCast src : Checked Dest) = Integral.cast src := by
  unfold clampCast
  rw [if_neg notPositive, if_neg notNegative]

end

end BinaryReader

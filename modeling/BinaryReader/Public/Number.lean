import BinaryReader.Util.Templates

/-!
# Numbers

A `Number` holds an unsigned 64-bit integer, a negative signed one or a double.
-/

namespace BinaryReader

/-- `intmax_t` is only used for negative values. -/
inductive Number where
  | unsignedInt (value : UInt64)
  | signedInt (value : Int64) (negative : value < 0)
  | double (value : Double)
  deriving DecidableEq

namespace Number

def ofUnsigned (value : UInt64) : Number := .unsignedInt value

def ofSigned (value : Int64) : Number :=
  if negative : value < 0 then .signedInt value negative else .unsignedInt value.toUInt64

def ofDouble (value : Double) : Number := .double value

def toInt? : Number → Option Int
  | .unsignedInt value => some value.toNat
  | .signedInt value _ => some value.toInt
  | .double _ => none

/-- The rational number a number holds, unless it is an infinity or NaN. -/
def toRat? : Number → Option ℚ
  | .unsignedInt value => some value.toNat
  | .signedInt value _ => some value.toInt
  | .double value => value.toRat?

def castVariantNumber {Dest : Type}
    (cast : (Source : Type) → [Arithmetic Source] → Source → Dest) : Number → Dest
  | .unsignedInt value => cast UInt64 value
  | .signedInt value _ => cast Int64 value
  | .double value => cast Double value

def asUnsigned : Number → Checked UInt64 := castVariantNumber fun _ => clampCast

def asSigned : Number → Checked Int64 := castVariantNumber fun _ => clampCast

def asDouble : Number → Double := castVariantNumber fun _ => clampCastToDouble

def equals : Number → Number → Bool
  | .unsignedInt value, .unsignedInt other => value = other
  | .unsignedInt _, .signedInt .. => false
  | .unsignedInt value, .double other => (Double.ofUnsigned value).eq other
  | .signedInt .., .unsignedInt _ => false
  | .signedInt value _, .signedInt other _ => value = other
  | .signedInt value _, .double other => (Double.ofSigned value).eq other
  | .double value, .unsignedInt other => value.eq (.ofUnsigned other)
  | .double value, .signedInt other _ => value.eq (.ofSigned other)
  | .double value, .double other => value.eq other

def less : Number → Number → Bool
  | .unsignedInt value, .unsignedInt other => value < other
  | .unsignedInt _, .signedInt .. => false
  | .unsignedInt value, .double other => (Double.ofUnsigned value).lt other
  | .signedInt .., .unsignedInt _ => true
  | .signedInt value _, .signedInt other _ => value < other
  | .signedInt value _, .double other => (Double.ofSigned value).lt other
  | .double value, .unsignedInt other => value.lt (.ofUnsigned other)
  | .double value, .signedInt other _ => value.lt (.ofSigned other)
  | .double value, .double other => value.lt other

def lessOrEqual (left right : Number) : Bool := left.equals right || left.less right

def greaterOrEqual (left right : Number) : Bool := !left.less right

def greater (left right : Number) : Bool := !left.lessOrEqual right

end Number

end BinaryReader

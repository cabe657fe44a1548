import BinaryReader.Public.Codecs
import BinaryReader.Public.Number
import Mathlib.Logic.Embedding.Basic

/-!
# Values

An object value is a shared pointer; here it is the place of the object in the
list of all objects.
-/

namespace BinaryReader

abbrev ObjectId := Nat

/-- `Value`, whose alternatives are those of `ValueType`. -/
inductive Value where
  | null
  | number (number : Number)
  | string (string : UtfString)
  | object (object : ObjectId)
  deriving DecidableEq

namespace Value

def index : Value → Nat
  | .null => 0
  | .number _ => 1
  | .string _ => 2
  | .object _ => 3

/-- `operator==` of values. Objects are compared as pointers. -/
def equals : Value → Value → Bool
  | .null, .null => true
  | .number value, .number other => value.equals other
  | .string value, .string other => value = other
  | .object value, .object other => value = other
  | _, _ => false

variable (address : ObjectId ↪ Nat)

/-- `operator<`. An earlier alternative is less than a later one. -/
def less : Value → Value → Bool
  | .null, .null => false
  | .number value, .number other => value.less other
  | .string value, .string other => value.utf16Buffer < other.utf16Buffer
  | .object value, .object other => address value < address other
  | value, other => value.index < other.index

def lessOrEqual (left right : Value) : Bool := left.equals right || left.less address right

def greaterOrEqual (left right : Value) : Bool := !left.less address right

def greater (left right : Value) : Bool := !left.lessOrEqual address right

end Value

end BinaryReader

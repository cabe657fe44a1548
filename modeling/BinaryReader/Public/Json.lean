import BinaryReader.Library.Unicode.Characters
import BinaryReader.Public.FileObject

/-!
# JSON output

The output stream has its default flags and never fails, and it is the list of
bytes written so far.  How it writes a double is a parameter.
-/

namespace BinaryReader

open Library.Unicode

/-- `JsonOptions`, where `size_t` has 64 bits. -/
structure JsonOptions where
  pretty : Bool := true
  indent : UInt64 := 2

def written (text : String) : List UInt8 := utf8Text text.toList

/-- `std::string(count, ' ')`, where memory has no end. -/
def spaces (count : UInt64) : List UInt8 := utf8Text (List.replicate count.toNat ' ')

def Number.print (formatDouble : Double → String) : Number → String
  | .double value => formatDouble value
  | .signedInt value _ => toString value.toInt
  | .unsignedInt value => toString value.toNat

namespace World

variable {σ : Type} (fileReader : FileReader σ) (hashOrder : HashOrder)
  (formatDouble : Double → String) (opts : JsonOptions)

section

variable (dumpJsonValue : List UInt8 → World σ → Value → (indent : UInt64) →
  Checked (List UInt8 × World σ))

def dumpFields (id : ObjectId) (indent : UInt64) : List String → (os : List UInt8) →
    (first : Bool) → World σ → Checked (List UInt8 × Bool × World σ)
  | [], os, first, self => .ok (os, first, self)
  | name :: names, os, first, self => do
      let os := if !first then os ++ written "," else os
      let os := if opts.pretty then os ++ written "\n" ++ spaces (indent + opts.indent) else os
      let os := os ++ written "\"" ++ written name ++ written "\":"
      let os := if opts.pretty then os ++ written " " else os
      let (value, self) ← self.fieldValue fileReader id name
      let (os, self) ← dumpJsonValue os self value (indent + opts.indent)
      dumpFields id indent names os false self

def dumpJsonObject (os : List UInt8) (self : World σ) (obj : ObjectId) (indent : UInt64) :
    Checked (List UInt8 × World σ) := do
  let os := os ++ written "\x7b"
  let object ← load self.objects obj
  let names := object.getFieldNames hashOrder
  let (os, first, self) ← dumpFields fileReader opts dumpJsonValue obj indent names os true self
  let os := if !first && opts.pretty then os ++ written "\n" ++ spaces indent else os
  let os := os ++ written "\x7d"
  let os := if opts.pretty && indent = 0 then os ++ written "\n" else os
  return (os, self)

end

/-- A value has no type but the four, so the default case of the source is left out.
Every level of nesting takes fuel. -/
def dumpJsonValue : Nat → (os : List UInt8) → World σ → (obj : Value) → (indent : UInt64) →
    Checked (List UInt8 × World σ)
  | 0, _, _, _, _ => .error .outOfFuel
  | fuel + 1, os, self, obj, indent =>
      match obj with
      | .null => .ok (os ++ written "null", self)
      | .number number => .ok (os ++ written (number.print formatDouble), self)
      | .string string => do
          let utf8 ← string.asUtf8
          return (os ++ written "\"" ++ utf8 ++ written "\"", self)
      | .object object =>
          dumpJsonObject fileReader hashOrder opts (dumpJsonValue fuel) os self object indent

end World

end BinaryReader

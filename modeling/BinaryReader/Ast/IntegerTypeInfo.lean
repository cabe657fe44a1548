import BinaryReader.Ast.TypeInfo
import BinaryReader.Util.BufferedFileReader

/-!
# Reading integers

`ReadValue` of an integer type.  It assembles the bits that start at the bit
offset of the reader: the first byte without the bits in front of the offset,
then whole bytes, then what is left of the last byte.
-/

namespace BinaryReader

namespace IntegerTypeInfo

def finalBits (bitOffset size : Nat) : Nat := (bitOffset + size) % 8

def byteCount (bitOffset size : Nat) : Nat :=
  (bitOffset + size) % 2 ^ 64 / 8 + if finalBits bitOffset size ≠ 0 then 1 else 0

/-- What the value takes of its first byte, if it starts inside of it. -/
def readFirst (size bitOffset : Nat) (buffer : List UInt8) : Checked UInt64 :=
  if bitOffset = 0 then
    .ok 0
  else do
    let mask := (← shiftLeft 1 (8 - bitOffset)) - 1
    let shift := 8 - min (size + bitOffset) 8
    let byte ← load buffer 0
    return (byte.toUInt64 &&& mask) >>> .ofNat shift

def readWhole (order : ByteOrder) (buffer : List UInt8) :
    (count index : Nat) → UInt64 → Checked UInt64
  | 0, _, value => .ok value
  | count + 1, index, value => do
      let byte ← load buffer index
      let value ←
        if order = .littleEndian then
          (value ||| ·) <$> shiftLeft byte.toUInt64 (8 * index)
        else
          .ok ((value <<< 8) ||| byte.toUInt64)
      readWhole order buffer count (index + 1) value

def readLast (finalBits byteCount index : Nat) (buffer : List UInt8) (value : UInt64) :
    Checked UInt64 :=
  if finalBits = 0 ∨ byteCount = 1 then
    .ok value
  else do
    let value ← shiftLeft value finalBits
    let byte ← load buffer index
    return value ||| (byte >>> .ofNat finalBits).toUInt64

/-- How many whole bytes the loop reads from `index` on: up to `byte_count`, or up to
the last byte if the value ends inside of it. -/
def wholeCount (bitOffset size index : Nat) : Nat :=
  (if finalBits bitOffset size = 0 then byteCount bitOffset size
    else byteCount bitOffset size - 1) - index

/-- The bits of the value. `byte_count - 1` wraps for a value without bytes, whose
loop leaves the buffer. -/
def readBits (order : ByteOrder) (size bitOffset : Nat) (buffer : List UInt8) :
    Checked UInt64 := do
  let index := if bitOffset = 0 then 0 else 1
  let value ← readFirst size bitOffset buffer
  if byteCount bitOffset size = 0 then
    throw .outOfBounds
  else
    let count := wholeCount bitOffset size index
    let value ← readWhole order buffer count index value
    readLast (finalBits bitOffset size) (byteCount bitOffset size) (index + count) buffer value

/-- The number with these bits. A negative value is filled with ones. -/
def toNumber (sign : Signedness) (size : Nat) (value : UInt64) : Checked Number :=
  if sign = .signed then do
    let top ← shiftLeft 1 ((size + 2 ^ 64 - 1) % 2 ^ 64)
    if value &&& top ≠ 0 then
      if size ≠ 64 then
        return .ofSigned (value ||| ~~~((← shiftLeft 1 size) - 1)).toInt64
      else
        return .ofSigned value.toInt64
    else
      return .ofUnsigned value
  else
    .ok (.ofUnsigned value)

variable {σ : Type} (fileReader : FileReader σ)

/-- `ReadValue`. `result` is unchanged when the read fails. -/
def readValue (self : IntegerTypeInfo) (reader : BufferedFileReader σ) (result : Value)
    (errors : ErrorCollection) :
    Checked (Bool × Value × BufferedFileReader σ × ErrorCollection) := do
  let size := self.size.bitCount
  let bitOffset := reader.position.bitOffset
  if self.order = .littleEndian ∧ (bitOffset ≠ 0 ∨ finalBits bitOffset size ≠ 0) then
    return (false, result, reader,
      errors.add (.ofKind self.debug .littleEndianAlign reader.position.byteCount))
  else
    let (ensured, reader, errors) ← reader.ensureBuffer fileReader self.size errors
    if !ensured then
      return (false, result, reader, errors)
    else
      let (buffer, reader, errors) ← reader.getBuffer fileReader errors
      match buffer with
      | none => return (false, result, reader, errors)
      | some buffer =>
          if buffer.length < byteCount bitOffset size then
            return (false, result, reader,
              errors.add (.ofKind self.debug .unexpectedEndOfStream 0))
          else
            let value ← readBits self.order size bitOffset buffer
            let number ← toNumber self.sign size value
            let (skipped, reader, errors) := reader.skip fileReader (.fromBits size) errors
            return (skipped, .number number, reader, errors)

end IntegerTypeInfo

end BinaryReader

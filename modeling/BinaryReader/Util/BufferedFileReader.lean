import BinaryReader.Public.FileSystem
import BinaryReader.Public.Size
import BinaryReader.Util.Fault

/-!
# The buffered file reader

The reader keeps a window of the file in `buffer` and its position as the start
of the window plus an offset into it.  Only the first `used` bytes of the buffer
hold file contents; the rest of the memory keeps whatever was there before.
-/

namespace BinaryReader

def kBufferSize : Nat := 64 * 1024 * 1024

structure BufferedFileReader (σ : Type) where
  /-- The state of the underlying reader. -/
  reader : σ
  buffer : Nat → UInt8 := fun _ => 0
  startPosition : Size := .zero
  bufferOffset : Size := .zero
  used : Nat := 0
  used_le : used ≤ kBufferSize := by decide

namespace BufferedFileReader

variable {σ : Type} (fileReader : FileReader σ) (self : BufferedFileReader σ)

def position : Size := self.startPosition + self.bufferOffset

def restart (position : Size) : BufferedFileReader σ :=
  { self with
    startPosition := position.clipToByte
    bufferOffset := .fromBits position.bitOffset
    used := 0
    used_le := Nat.zero_le _ }

def seek (position : Size) (errors : ErrorCollection) :
    Bool × BufferedFileReader σ × ErrorCollection :=
  if self.startPosition ≤ position ∧ position < self.startPosition + .fromBytes self.used then
    (true, { self with bufferOffset := position - self.startPosition }, errors)
  else
    match fileReader.seek self.reader position.byteCount with
    | (.ok _, reader) => (true, { self.restart position with reader }, errors)
    | (.error info, reader) => (false, { self.restart position with reader }, errors.add info)

def skip (count : Size) (errors : ErrorCollection) :
    Bool × BufferedFileReader σ × ErrorCollection :=
  self.seek fileReader (self.startPosition + self.bufferOffset + count) errors

/-- `memmove(buffer, buffer + count, kBufferSize - count)`. -/
def moveBuffer (buffer : Nat → UInt8) (count : Nat) : Checked (Nat → UInt8) :=
  if count ≤ kBufferSize then
    .ok fun index => if index < kBufferSize - count then buffer (index + count) else buffer index
  else
    .error .outOfBounds

def compact : Checked (BufferedFileReader σ) := do
  let count := self.bufferOffset.byteCount
  let buffer ← moveBuffer self.buffer count
  if self.used < count then
    throw .underflow
  else
    return { self with
      buffer
      used := self.used - count
      startPosition := self.startPosition.addAssign (.fromBytes count)
      bufferOffset := .fromBits self.bufferOffset.bitOffset
      used_le := le_trans (Nat.sub_le _ _) self.used_le }

/-- Move the window only when `size` does not fit behind the current position. -/
def makeRoom (size : Size) : Checked (BufferedFileReader σ) :=
  if .fromBytes kBufferSize < self.bufferOffset + size then self.compact else .ok self

/-- What `Read` does to the buffer behind the first `used` bytes. -/
def store (bytes : List UInt8) (reader : σ) : Checked (BufferedFileReader σ) :=
  if fits : self.used + bytes.length ≤ kBufferSize then
    .ok { self with
      reader
      buffer := fun index =>
        if self.used ≤ index then bytes.getD (index - self.used) (self.buffer index)
        else self.buffer index
      used := self.used + bytes.length
      used_le := fits }
  else
    .error .outOfBounds

/-- The reading loop.  Every iteration but the last stores a byte. -/
def fill (size : Size) (errors : ErrorCollection) :
    (fuel : Nat) → BufferedFileReader σ → Checked (Bool × BufferedFileReader σ × ErrorCollection)
  | 0, _ => .error .outOfFuel
  | fuel + 1, self =>
      if .fromBytes self.used < self.bufferOffset + size then
        match fileReader.read self.reader (kBufferSize - self.used) with
        | (.error info, reader) => .ok (false, { self with reader }, errors.add info)
        | (.ok bytes, reader) => do
            let next ← self.store bytes reader
            if bytes.length = 0 then
              return (true, next, errors)
            else
              fill size errors fuel next
      else
        .ok (true, self, errors)

def assertThat (condition : Prop) [Decidable condition] : Checked Unit :=
  if condition then .ok () else .error .assertion

def ensureBuffer (size : Size) (errors : ErrorCollection) :
    Checked (Bool × BufferedFileReader σ × ErrorCollection) := do
  assertThat (size ≤ .fromBytesAndOffset kBufferSize 7)
  assertThat (self.bufferOffset ≤ .fromBytesAndOffset kBufferSize 7)
  assertThat (self.bufferOffset ≤ .fromBytesAndOffset self.used 7)
  let room ← self.makeRoom size
  fill fileReader size errors (kBufferSize + 1) room

/-- The bytes that `GetBuffer` gives out a pointer and a size for. -/
def visible : Checked (List UInt8) :=
  let start := self.bufferOffset.byteCount
  if self.used < start then
    .error .underflow
  else
    .ok ((List.range (self.used - start)).map fun index => self.buffer (start + index))

/-- The buffer is none when `EnsureBuffer` fails. -/
def getBuffer (errors : ErrorCollection) :
    Checked (Option (List UInt8) × BufferedFileReader σ × ErrorCollection) := do
  let (ensured, next, errors) ← self.ensureBuffer fileReader (.fromBits 1) errors
  if ensured then
    return (some (← next.visible), next, errors)
  else
    return (none, next, errors)

end BufferedFileReader

end BinaryReader

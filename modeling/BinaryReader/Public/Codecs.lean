import BinaryReader.Public.Error
import BinaryReader.Util.Fault
import Mathlib.Data.UInt

/-!
# The UTF-8 converter

`decode` keeps an incomplete sequence of one call in `temp` and finishes it in
the next.  Every array access goes through `load` or `copyToTemp`, so a read
outside the chunk or outside `temp[4]` would be a fault.
-/

namespace BinaryReader

inductive Status where
  | success
  | warning
  | error
  deriving DecidableEq, Repr

structure Utf8Converter where
  temp : Vector UInt8 4 := .replicate 4 0
  tempUsed : Nat := 0

namespace Utf8Converter

def getNumBytes (head : UInt8) : Nat :=
  if head &&& 0x80 = 0 then 1
  else if head &&& 0xe0 = 0xc0 then 2
  else if head &&& 0xf0 = 0xe0 then 3
  else if head &&& 0xf8 = 0xf0 then 4
  else 0

def reset (self : Utf8Converter) : Utf8Converter := { self with tempUsed := 0 }

def pending (self : Utf8Converter) : List UInt8 := self.temp.toList.take self.tempUsed

/-- `memcpy(temp_ + temp_used_, ...)` together with the update of `temp_used_`. -/
def copyToTemp (self : Utf8Converter) (bytes : List UInt8) : Checked Utf8Converter :=
  let temp := self.temp.toList.take self.tempUsed ++ bytes ++
    self.temp.toList.drop (self.tempUsed + bytes.length)
  if size : temp.length = 4 then
    .ok { temp := ⟨temp.toArray, by simpa using size⟩, tempUsed := self.tempUsed + bytes.length }
  else
    .error .outOfBounds

/-- Byte `i` of the current sequence: held back, or in the chunk. -/
def currentByte (self : Utf8Converter) (buffer : List UInt8) (offset i : Nat) : Checked UInt8 :=
  if i < self.tempUsed then load self.temp.toList i
  else load buffer (i - self.tempUsed + offset)

def currentHead (self : Utf8Converter) (buffer : List UInt8) (offset : Nat) : Checked UInt8 :=
  if 0 < self.tempUsed then load self.temp.toList 0 else load buffer offset

/-- The loop over the continuation bytes.  A byte that is none ends it with its index. -/
def readTail (self : Utf8Converter) (buffer : List UInt8) (offset : Nat) :
    (count i : Nat) → UInt32 → Checked (Nat ⊕ UInt32)
  | 0, _, codePoint => .ok (.inr codePoint)
  | count + 1, i, codePoint => do
      let cur ← self.currentByte buffer offset i
      if cur &&& 0xc0 ≠ 0x80 then
        return .inl i
      readTail self buffer offset count (i + 1)
        ((codePoint <<< 6) ||| (cur &&& 0x3f).toUInt32)

/-- Convert to UTF-16.  An encoded surrogate is passed as-is. -/
def pushCodePoint (codePoint : UInt32) : List UInt16 :=
  if codePoint < 0xffff then
    [codePoint.toUInt16]
  else
    let codePoint := codePoint - 0x10000
    [UInt32.toUInt16 ((0xd800 : UInt32) ||| (codePoint >>> 10)),
      UInt32.toUInt16 ((0xdc00 : UInt32) ||| (codePoint &&& 0x3ff))]

structure Decoded where
  status : Status
  converter : Utf8Converter
  output : List UInt16
  error : ErrorInfo

def invalidSequence (error : ErrorInfo) (offset : Nat) : ErrorInfo :=
  { error with message := "Invalid UTF-8 byte sequence", offset := error.offset + offset }

def decodeLoop (buffer : List UInt8) :
    Nat → Utf8Converter → (offset : Nat) → List UInt16 → ErrorInfo → Checked Decoded
  | 0, _, _, _, _ => .error .outOfFuel
  | fuel + 1, self, offset, output, error =>
      if 0 < self.tempUsed ∨ offset < buffer.length then do
        let head ← self.currentHead buffer offset
        let numBytes := getNumBytes head
        if numBytes = 0 then
          return ⟨.error, self, output, invalidSequence error offset⟩
        if numBytes > buffer.length - offset + self.tempUsed then
          let self ← self.copyToTemp (buffer.drop offset)
          return ⟨.success, self, output, error⟩
        let codePoint := head.toUInt32 &&& ((1 <<< (8 - numBytes).toUInt32) - 1)
        match ← self.readTail buffer offset (numBytes - 1) 1 codePoint with
        | .inl i => return ⟨.error, self, output, invalidSequence error (offset + i)⟩
        | .inr codePoint =>
            if numBytes < self.tempUsed then
              throw .underflow
            else
              decodeLoop buffer fuel self.reset (offset + (numBytes - self.tempUsed))
                (output ++ pushCodePoint codePoint) error
      else
        return ⟨.success, self, output, error⟩

/-- Every iteration but the last consumes a byte, so the loop ends in time. -/
def decode (self : Utf8Converter) (buffer : List UInt8) (output : List UInt16)
    (error : ErrorInfo) : Checked Decoded :=
  decodeLoop buffer (buffer.length + self.tempUsed + 1) self 0 output error

def pushBytes (codePoint : UInt32) : List UInt8 :=
  if codePoint < 0x80 then
    [UInt32.toUInt8 codePoint]
  else if codePoint < 0x800 then
    [UInt32.toUInt8 ((0xc0 : UInt32) ||| (codePoint >>> 6)),
      UInt32.toUInt8 ((0x80 : UInt32) ||| (codePoint &&& 0x3f))]
  else if codePoint < 0x10000 then
    [UInt32.toUInt8 ((0xe0 : UInt32) ||| (codePoint >>> 12)),
      UInt32.toUInt8 ((0x80 : UInt32) ||| ((codePoint >>> 6) &&& 0x3f)),
      UInt32.toUInt8 ((0x80 : UInt32) ||| (codePoint &&& 0x3f))]
  else
    [UInt32.toUInt8 ((0xf0 : UInt32) ||| (codePoint >>> 18)),
      UInt32.toUInt8 ((0x80 : UInt32) ||| ((codePoint >>> 12) &&& 0x3f)),
      UInt32.toUInt8 ((0x80 : UInt32) ||| ((codePoint >>> 6) &&& 0x3f)),
      UInt32.toUInt8 ((0x80 : UInt32) ||| (codePoint &&& 0x3f))]

def isHighSurrogate (unit : UInt16) : Bool := 0xd800 ≤ unit && unit ≤ 0xdbff

def isLowSurrogate (unit : UInt16) : Bool := 0xdc00 ≤ unit && unit ≤ 0xdfff

/-- `((high & 0x3ff) << 10) | ((low & 0x3ff)) + 0x10000`: the sum binds tighter
than the bitwise or, so the carry of `0x10000` into the high half is lost. -/
def combineSurrogates (high low : UInt16) : UInt32 :=
  ((high &&& 0x3ff).toUInt32 <<< 10) ||| ((low &&& 0x3ff).toUInt32 + 0x10000)

/-- The loop of `Encode`.  Unpaired surrogates are encoded directly. -/
def encodeLoop : List UInt16 → List UInt8
  | [] => []
  | [unit] => pushBytes unit.toUInt32
  | unit :: next :: rest =>
      if isHighSurrogate unit && isLowSurrogate next then
        pushBytes (combineSurrogates unit next) ++ encodeLoop rest
      else
        pushBytes unit.toUInt32 ++ encodeLoop (next :: rest)

/-- `Encode` appends to the output; it neither reads nor changes the converter. -/
def encode (self : Utf8Converter) (buffer : List UInt16) (output : List UInt8) :
    Status × Utf8Converter × List UInt8 :=
  (.success, self, output ++ encodeLoop buffer)

end Utf8Converter

/-- `DefaultCodec<T>`, whose only instance is `T = Utf8Converter`. -/
inductive Codec where
  | utf8Converter
  deriving DecidableEq

def Codec.createCoder : Codec → Utf8Converter
  | .utf8Converter => {}

/-- `CodecCollection::codecs_`, with the latest entry for a name in front. -/
structure CodecCollection where
  codecs : List (String × Codec) := []

namespace CodecCollection

def getCodec (self : CodecCollection) (codec : String) : Option Codec := self.codecs.lookup codec

def addCodec (self : CodecCollection) (name : String) (codec : Codec) : CodecCollection :=
  { codecs := (name, codec) :: self.codecs }

def createDefaultCollection : CodecCollection :=
  let c := Codec.utf8Converter
  ((((({} : CodecCollection).addCodec "utf8" c).addCodec "utf-8" c).addCodec "UTF8" c).addCodec
    "UTF-8" c)

end CodecCollection

/-- `UtfString`: UTF-16 code units, well formed or not. -/
structure UtfString where
  utf16Buffer : List UInt16 := []
  deriving DecidableEq, Repr

namespace UtfString

def fromEncoding (bytes : List UInt8) (codec : Option Codec) (error : ErrorInfo) :
    Checked (UtfString × ErrorInfo) := do
  let codec ← deref codec
  let decoded ← codec.createCoder.decode bytes [] error
  if decoded.status = .error then
    return ({}, decoded.error)
  return (⟨decoded.output⟩, decoded.error)

def fromUtf8 (str : List UInt8) : Checked UtfString := do
  let result ← fromEncoding str (CodecCollection.createDefaultCollection.getCodec "utf8") {}
  return result.1

/-- `AsBytes`, without the error parameter, which `Encode` ignores. -/
def asBytes (self : UtfString) (codec : Option Codec) : Checked (List UInt8) := do
  let codec ← deref codec
  return (codec.createCoder.encode self.utf16Buffer []).2.2

def asUtf8 (self : UtfString) : Checked (List UInt8) :=
  self.asBytes (CodecCollection.createDefaultCollection.getCodec "utf8")

end UtfString

end BinaryReader

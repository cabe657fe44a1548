import BinaryReader.Public.Number
import BinaryReader.Util.Fault

/-!
# Conversions of number texts

`std::stoll` with base detection and `std::stod`, on the texts that a `NUMBER`
token can have.  Both read a prefix and throw when there is none or when the
value is out of range.
-/

namespace BinaryReader

def digitValue (symbol : Char) : Option Nat :=
  if '0' ≤ symbol ∧ symbol ≤ '9' then some (symbol.toNat - '0'.toNat)
  else if 'a' ≤ symbol ∧ symbol ≤ 'z' then some (symbol.toNat - 'a'.toNat + 10)
  else if 'A' ≤ symbol ∧ symbol ≤ 'Z' then some (symbol.toNat - 'A'.toNat + 10)
  else none

/-- The digits of a base in front of a text, and the text behind them. -/
def readDigits (base : Nat) : List Char → List Nat × List Char
  | [] => ([], [])
  | symbol :: text =>
      match digitValue symbol with
      | some digit =>
          if digit < base then
            let (digits, rest) := readDigits base text
            (digit :: digits, rest)
          else
            ([], symbol :: text)
      | none => ([], symbol :: text)

def ofDigits (base : Nat) (digits : List Nat) : Nat :=
  digits.foldl (fun value digit => value * base + digit) 0

/-- `std::isspace` in the C locale. -/
def isSpace (symbol : Char) : Bool :=
  symbol = ' ' || (9 ≤ symbol.toNat && symbol.toNat ≤ 13)

/-- The sign in front of a text: true for a minus. -/
def readSign : List Char → Bool × List Char
  | '-' :: text => (true, text)
  | '+' :: text => (false, text)
  | text => (false, text)

/-- The base that a prefix announces, and the digits behind it. -/
def detectBase : List Char → Nat × List Char
  | '0' :: mark :: digit :: text =>
      if (mark = 'x' ∨ mark = 'X') ∧ (readDigits 16 [digit]).1 ≠ [] then (16, digit :: text)
      else (8, '0' :: mark :: digit :: text)
  | '0' :: text => (8, '0' :: text)
  | text => (10, text)

def stoll (text : String) : Checked Int64 :=
  let (negative, unsigned) := readSign (text.toList.dropWhile isSpace)
  let (base, body) := detectBase unsigned
  match (readDigits base body).1 with
  | [] => .error (.exception "std::invalid_argument")
  | digits =>
      let value : Int := if negative then -(ofDigits base digits) else ofDigits base digits
      if -2 ^ 63 ≤ value ∧ value < 2 ^ 63 then .ok (.ofInt value)
      else .error (.exception "std::out_of_range")

def readFraction : List Char → List Nat × List Char
  | '.' :: text => readDigits 10 text
  | text => ([], text)

/-- The exponent, which counts only when it has digits. -/
def readExponent : List Char → Int
  | mark :: text =>
      if mark = 'e' ∨ mark = 'E' then
        let (negative, unsigned) := readSign text
        let exponent : Int := ofDigits 10 (readDigits 10 unsigned).1
        if negative then -exponent else exponent
      else
        0
  | [] => 0

/-- `std::stod` on a decimal text without a sign, the only ones with a point or an
exponent that a token can have. -/
def stod (text : String) : Checked Double :=
  let (whole, behind) := readDigits 10 (text.toList.dropWhile isSpace)
  let (fraction, rest) := readFraction behind
  match whole ++ fraction with
  | [] => .error (.exception "std::invalid_argument")
  | digits =>
      let exponent := readExponent rest - fraction.length
      let mantissa := ofDigits 10 digits
      let rounded :=
        if exponent < 0 then Double.round mantissa (10 ^ exponent.natAbs)
        else Double.round (mantissa * 10 ^ exponent.natAbs) 1
      match rounded with
      | some value => .ok value
      | none => .error (.exception "std::out_of_range")

def literalNumber (text : String) : Checked Number :=
  if text.toList.any fun symbol => symbol = '.' ∨ symbol = 'e' then
    Number.ofDouble <$> stod text
  else
    Number.ofSigned <$> stoll text

example : stoll "0x45" = .ok 69 ∧ stoll "017" = .ok 15 ∧ stoll "09" = .ok 0 := by decide

end BinaryReader

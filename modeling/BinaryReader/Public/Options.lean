import BinaryReader.Public.Value

/-!
# Options

The option types with the names of their values, and the `Options` that a list
of option values is turned into.
-/

namespace BinaryReader

inductive OptionType where
  | unknown
  | signedness
  | byteOrder
  deriving DecidableEq, Repr

inductive Signedness where
  | unset
  | signed
  | unsigned
  deriving DecidableEq, Repr

inductive ByteOrder where
  | unset
  | littleEndian
  | bigEndian
  deriving DecidableEq, Repr

def OptionType.toString : OptionType → String
  | .unknown => "Unknown"
  | .signedness => "signedness"
  | .byteOrder => "byte_order"

/-- The code units of a `u"..."` literal of ASCII characters. -/
def u16 (literal : String) : List UInt16 := literal.toList.map fun symbol => .ofNat symbol.toNat

def getOptionType (type : UtfString) : OptionType :=
  if type.utf16Buffer = u16 "signedness" then .signedness
  else if type.utf16Buffer = u16 "byte_order" ∨ type.utf16Buffer = u16 "order" then .byteOrder
  else .unknown

/-- The `std::any` of an option value. -/
inductive OptionValue where
  | signedness (value : Signedness)
  | byteOrder (value : ByteOrder)
  deriving DecidableEq, Repr

def OptionValue.type : OptionValue → OptionType
  | .signedness _ => .signedness
  | .byteOrder _ => .byteOrder

def kOptionData : List (OptionType × List (String × OptionValue)) :=
  [(.signedness, [("signed", .signedness .signed), ("unsigned", .signedness .unsigned)]),
    (.byteOrder, [("big", .byteOrder .bigEndian), ("network", .byteOrder .bigEndian),
      ("little", .byteOrder .littleEndian)])]

structure Options where
  signedness : Signedness := .unset
  byteOrder : ByteOrder := .unset
  deriving DecidableEq, Repr

namespace Options

inductive ParseResult where
  | success (type : OptionType) (value : OptionValue)
  | invalidValueType
  | unknownString
  | ambiguous
  deriving DecidableEq, Repr

def findValue (name : List UInt16) (values : List (String × OptionValue)) : Option OptionValue :=
  (values.find? fun value => decide (name = u16 value.1)).map Prod.snd

/-- The loop over `kOptionData`, with what has been found so far. -/
def parseLoop (types : List OptionType) (name : List UInt16) :
    List (OptionType × List (String × OptionValue)) → Option (OptionType × OptionValue) →
    ParseResult
  | [], some found => .success found.1 found.2
  | [], none => .unknownString
  | info :: infos, found =>
      if types ≠ [] ∧ info.1 ∉ types then
        parseLoop types name infos found
      else
        match findValue name info.2, found with
        | none, _ => parseLoop types name infos found
        | some _, some _ => .ambiguous
        | some value, none => parseLoop types name infos (some (info.1, value))

def parseOption (types : List OptionType) : Value → ParseResult
  | .string string => parseLoop types string.utf16Buffer kOptionData none
  | _ => .invalidValueType

def getSignedness (self : Options) (default : Signedness) : Signedness :=
  if self.signedness = .unset then default else self.signedness

def getByteOrder (self : Options) (default : ByteOrder) : ByteOrder :=
  if self.byteOrder = .unset then default else self.byteOrder

def defaultOptions : Options := { signedness := .unsigned, byteOrder := .bigEndian }

/-- `SetOption`; none when it returns false. -/
def setOption (self : Options) : OptionType → OptionValue → Option Options
  | .signedness, .signedness value => some { self with signedness := value }
  | .byteOrder, .byteOrder value => some { self with byteOrder := value }
  | _, _ => none

def named (name : List UInt16) : Option (OptionType × OptionValue) :=
  kOptionData.findSome? fun info => (findValue name info.2).map fun value => (info.1, value)

theorem exists_of_findValue {name : List UInt16} {values : List (String × OptionValue)}
    {value : OptionValue} (found : findValue name values = some value) :
    ∃ text, (text, value) ∈ values ∧ name = u16 text := by
  obtain ⟨⟨text, _⟩, foundEq, rfl⟩ := Option.map_eq_some_iff.mp found
  exact ⟨text, List.mem_of_find?_eq_some foundEq, by simpa using List.find?_some foundEq⟩

/-- No name belongs to two types. -/
theorem findValue_exclusive {name : List UInt16} {first second : OptionValue}
    (signedness : findValue name [("signed", .signedness .signed),
      ("unsigned", .signedness .unsigned)] = some first)
    (byteOrder : findValue name [("big", .byteOrder .bigEndian),
      ("network", .byteOrder .bigEndian), ("little", .byteOrder .littleEndian)] = some second) :
    False := by
  obtain ⟨text, membership, rfl⟩ := exists_of_findValue signedness
  obtain ⟨other, otherMembership, same⟩ := exists_of_findValue byteOrder
  simp only [List.mem_cons, Prod.mk.injEq, List.not_mem_nil, or_false] at membership otherMembership
  rcases membership with ⟨rfl, -⟩ | ⟨rfl, -⟩ <;>
    rcases otherMembership with ⟨rfl, -⟩ | ⟨rfl, -⟩ | ⟨rfl, -⟩ <;> exact absurd same (by decide)

/-- A string is found if its type is allowed; nothing is ever ambiguous. -/
theorem parseOption_string (types : List OptionType) (string : UtfString) :
    parseOption types (.string string) =
      match named string.utf16Buffer with
      | some found =>
          if types = [] ∨ found.1 ∈ types then .success found.1 found.2 else .unknownString
      | none => .unknownString := by
  have excluded (type : OptionType) : (types ≠ [] ∧ type ∉ types) ↔ ¬ (types = [] ∨ type ∈ types) :=
    not_or.symm
  simp only [parseOption, parseLoop, named, kOptionData, List.findSome?, excluded]
  rcases first : findValue string.utf16Buffer [("signed", .signedness .signed),
      ("unsigned", .signedness .unsigned)] with _ | value <;>
    rcases second : findValue string.utf16Buffer [("big", .byteOrder .bigEndian),
      ("network", .byteOrder .bigEndian), ("little", .byteOrder .littleEndian)] with _ | other
  · simp
  · by_cases allowed : types = [] ∨ .byteOrder ∈ types <;> simp [allowed]
  · by_cases allowed : types = [] ∨ .signedness ∈ types <;> simp [allowed]
  · exact (findValue_exclusive first second).elim

def set (self : Options) : OptionValue → Options
  | .signedness value => { self with signedness := value }
  | .byteOrder value => { self with byteOrder := value }

@[simp]
theorem setOption_type (self : Options) (value : OptionValue) :
    self.setOption value.type value = some (self.set value) := by
  cases value <;> rfl

theorem type_of_named {name : List UInt16} {type : OptionType} {value : OptionValue}
    (found : named name = some (type, value)) : value.type = type := by
  obtain ⟨info, membership, foundEq⟩ := List.exists_of_findSome?_eq_some found
  obtain ⟨_, foundValue, same⟩ := Option.map_eq_some_iff.mp foundEq
  cases same
  obtain ⟨text, textMembership, -⟩ := exists_of_findValue foundValue
  have typed : ∀ info ∈ kOptionData, ∀ entry ∈ info.2, entry.2.type = info.1 := by decide
  exact typed info membership _ textMembership

end Options

end BinaryReader

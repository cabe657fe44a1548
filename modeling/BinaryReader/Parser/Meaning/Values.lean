import BinaryReader.Library.Bytes.Writing
import BinaryReader.Parser.Meaning

/-!
# Values of a type

Integers for the paths of a type, and the bytes that hold them.  Writing the
values and reading them by their paths undo each other.
-/

namespace BinaryReader

open Library.Bytes

namespace FieldDecl

def bytes (decl : FieldDecl) (width : Nat) (value : Int) : List UInt8 :=
  if decl.isLittle then toLittleEndian width (ofTwosComplement (8 * width) value)
  else toBigEndian width (ofTwosComplement (8 * width) value)

/-- The integers that a field can hold, by its width and the sign of its built-in type. -/
def Fits (decl : FieldDecl) (format : Nat × Bool) (value : Int) : Prop :=
  if decl.isSigned format.2 then
    -(2 ^ (8 * format.1 - 1) : Nat) ≤ value ∧ value < (2 ^ (8 * format.1 - 1) : Nat)
  else 0 ≤ value ∧ value < (2 ^ (8 * format.1) : Nat)

@[simp]
theorem length_bytes (decl : FieldDecl) (width : Nat) (value : Int) :
    (decl.bytes width value).length = width := by
  rw [bytes]
  split_ifs
  · rw [length_toLittleEndian]
  · rw [length_toBigEndian]

theorem pow_bytes (width : Nat) : 2 ^ (8 * width) = 256 ^ width := Nat.pow_mul 2 8 width

theorem integer_bytes {decl : FieldDecl} {format : Nat × Bool} {value : Int}
    (positive : 1 ≤ format.1) (fits : decl.Fits format value) :
    decl.integer format.2 (decl.bytes format.1 value) = value := by
  have below := ofTwosComplement_lt (8 * format.1) value
  have read : (if decl.isLittle then littleEndian (decl.bytes format.1 value)
      else bigEndian (decl.bytes format.1 value)) = ofTwosComplement (8 * format.1) value := by
    rw [pow_bytes] at below
    rw [bytes]
    split_ifs
    · exact littleEndian_toLittleEndian below
    · exact bigEndian_toBigEndian below
  rw [integer, length_bytes, read]
  rw [Fits] at fits
  split_ifs at fits ⊢ with sign
  · exact twosComplement_ofTwosComplement (by omega) fits.1 fits.2
  · obtain ⟨count, rfl⟩ := Int.eq_ofNat_of_zero_le fits.1
    exact congrArg Nat.cast (ofTwosComplement_natCast (Int.ofNat_lt.mp fits.2))

theorem bytes_integer (decl : FieldDecl) (signed : Bool) {bytes : List UInt8}
    (positive : 1 ≤ bytes.length) :
    decl.bytes bytes.length (decl.integer signed bytes) = bytes := by
  have number : ∀ count, count < 256 ^ bytes.length →
      ofTwosComplement (8 * bytes.length)
        (if decl.isSigned signed then twosComplement (8 * bytes.length) count else count) =
          count := by
    intro count below
    rw [← pow_bytes] at below
    split_ifs
    · exact ofTwosComplement_twosComplement (by omega) below
    · exact ofTwosComplement_natCast below
  rw [FieldDecl.bytes, integer]
  by_cases little : decl.isLittle = true
  · rw [if_pos little, if_pos little, number _ (littleEndian_lt bytes),
      toLittleEndian_littleEndian]
  · rw [if_neg little, if_neg little, number _ (bigEndian_lt bytes), toBigEndian_bigEndian]

end FieldDecl

/-- An integer for every path of names. -/
abbrev Values := List String → Int

def Values.under (values : Values) (name : String) : Values := fun names => values (name :: names)

namespace Scope

/-- The bytes of a field that hold values for the paths below it. -/
def encodeField : Scope → FieldDecl → Values → List UInt8
  | [], field, values => (builtInFormats.lookup field.typeName).elim [] fun format =>
      field.bytes format.1 (values [])
  | decl :: earlier, field, values =>
      if decl.name = field.typeName then
        decl.fields.flatMap fun inner => encodeField earlier inner (values.under inner.name)
      else encodeField earlier field values

def encodeFields (earlier : Scope) (fields : List FieldDecl) (values : Values) : List UInt8 :=
  fields.flatMap fun field => encodeField earlier field (values.under field.name)

def encode : Scope → Values → List UInt8
  | [], _ => []
  | decl :: earlier, values => encodeFields earlier decl.fields values

/-- The integer field that a path leads to, with its format. -/
def leaf (scope : Scope) : List String → Option (FieldDecl × Nat × Bool)
  | [] => none
  | name :: names =>
      match scope with
      | [] => none
      | decl :: earlier =>
          match decl.fields.find? fun field => field.name = name with
          | none => none
          | some field =>
              match find earlier field.typeName with
              | [] => if names = [] then (builtInFormats.lookup field.typeName).map (field, ·)
                  else none
              | inner => leaf inner names

def AllFit (scope : Scope) (values : Values) : Prop :=
  ∀ names field format, leaf scope names = some (field, format) → field.Fits format (values names)

def FieldsDistinct (scope : Scope) : Prop :=
  ∀ decl ∈ scope, (decl.fields.map FieldDecl.name).Nodup

example : encode [⟨"b", [⟨"sbyte", [], "x"⟩, ⟨"a", [], "y"⟩]⟩,
    ⟨"a", [⟨"int16", [⟨none, "little"⟩], "z"⟩]⟩]
      (fun names => if names = ["x"] then -1 else 0x201) = [0xff, 0x01, 0x02] := by decide

theorem encodeField_eq (scope : Scope) (field : FieldDecl) (values : Values) :
    encodeField scope field values =
      match find scope field.typeName with
      | [] => (builtInFormats.lookup field.typeName).elim [] fun format =>
          field.bytes format.1 (values [])
      | inner => encode inner values := by
  induction scope with
  | nil => rfl
  | cons decl earlier inductionHypothesis =>
      rw [encodeField, find, List.dropWhile_cons]
      by_cases same : decl.name = field.typeName
      · rw [if_pos same, if_neg (by simpa using same)]
        rfl
      · rw [if_neg same, if_pos (by simpa using same)]
        exact inductionHypothesis

theorem length_flatMap_eq_sum {α β : Type} (items : List α) (parts : α → List β) (size : α → Nat)
    (sized : ∀ item ∈ items, (parts item).length = size item) :
    (items.flatMap parts).length = (items.map size).sum := by
  induction items with
  | nil => rfl
  | cons item items inductionHypothesis =>
      obtain ⟨head, tail⟩ := List.forall_mem_cons.mp sized
      rw [List.flatMap_cons, List.length_append, head, inductionHypothesis tail, List.map_cons,
        List.sum_cons]

theorem length_encodeField (scope : Scope) (field : FieldDecl) (values : Values) :
    (encodeField scope field values).length = bytesOf scope field.typeName := by
  induction scope generalizing field values with
  | nil =>
      rw [encodeField, bytesOf]
      cases builtInFormats.lookup field.typeName with
      | none => rfl
      | some format => exact field.length_bytes format.1 _
  | cons decl earlier inductionHypothesis =>
      rw [encodeField, bytesOf]
      split_ifs
      · exact length_flatMap_eq_sum _ _ _ fun inner _ => inductionHypothesis inner _
      · exact inductionHypothesis field values

end Scope

end BinaryReader

import BinaryReader.Library.Bytes
import BinaryReader.Parser.Declarations
import Mathlib.Data.List.TakeWhile

/-!
# The meaning of a definition

What a definition is for, stated on its declarations alone.  The fields of a type
lie end to end from its start, and the fields of a nested type lie where the
field does.  A path of names leads from there to an integer in the file, or to
another object.
-/

namespace BinaryReader

open Library.Bytes

/-- The built-in names with the width in bytes and whether the integer is signed. -/
def builtInFormats : List (String × Nat × Bool) :=
  [("byte", 1, false), ("sbyte", 1, true), ("int8", 1, true), ("uint8", 1, false),
    ("int16", 2, true), ("uint16", 2, false), ("int32", 4, true), ("uint32", 4, false),
    ("int64", 8, true), ("uint64", 8, false)]

namespace OptionDecl

def signed? (decl : OptionDecl) : Option Bool :=
  if decl.value = "signed" then some true
  else if decl.value = "unsigned" then some false
  else none

/-- The byte order that an option asks for, true for little endian. -/
def little? (decl : OptionDecl) : Option Bool :=
  if decl.value = "big" ∨ decl.value = "network" then some false
  else if decl.value = "little" then some true
  else none

end OptionDecl

namespace FieldDecl

/-- The last signedness option decides, or else the built-in type. -/
def isSigned (decl : FieldDecl) (builtIn : Bool) : Bool :=
  (decl.options.filterMap OptionDecl.signed?).getLast?.getD builtIn

/-- The last byte order option decides, or else the integer is big endian. -/
def isLittle (decl : FieldDecl) : Bool :=
  (decl.options.filterMap OptionDecl.little?).getLast?.getD false

def integer (decl : FieldDecl) (builtInSigned : Bool) (bytes : List UInt8) : Int :=
  let value := if decl.isLittle then littleEndian bytes else bigEndian bytes
  if decl.isSigned builtInSigned then twosComplement (8 * bytes.length) value else value

end FieldDecl

/-- Declarations, the latest first. A scope stands for the type that it declares first,
behind the others. -/
abbrev Scope := List TypeDecl

namespace Scope

/-- The scope that a name stands for, empty unless the name is declared. -/
def find (scope : Scope) (name : String) : Scope := scope.dropWhile fun decl => decl.name ≠ name

def bytesOf : Scope → String → Nat
  | [], name => (builtInFormats.lookup name).elim 0 Prod.fst
  | decl :: earlier, name =>
      if decl.name = name then (decl.fields.map fun field => bytesOf earlier field.typeName).sum
      else bytesOf earlier name

def sumOf (earlier : Scope) (fields : List FieldDecl) : Nat :=
  (fields.map fun field => bytesOf earlier field.typeName).sum

def bytes : Scope → Nat
  | [] => 0
  | decl :: earlier => sumOf earlier decl.fields

/-- The first field with a name and the byte where it starts. -/
def locate (earlier : Scope) (name : String) : List FieldDecl → (start : Nat) →
    Option (Nat × FieldDecl)
  | [], _ => none
  | field :: fields, start =>
      if field.name = name then some (start, field)
      else locate earlier name fields (start + bytesOf earlier field.typeName)

/-- The scope of the type that a name stands for at the end of a definition. -/
def root (decls : List TypeDecl) (name : String) : Scope :=
  if name = "" then decls.reverse else find decls.reverse name

theorem find_eq_nil_iff {scope : Scope} {name : String} :
    find scope name = [] ↔ name ∉ scope.map TypeDecl.name := by
  rw [find, List.dropWhile_eq_nil_iff, List.mem_map, not_exists]
  exact forall_congr' fun decl => by simp

theorem root_suffix (decls : List TypeDecl) (name : String) :
    root decls name <:+ decls.reverse := by
  rw [root]
  split
  · exact List.suffix_refl _
  · exact List.dropWhile_suffix _

theorem bytes_find {scope : Scope} {name : String} {decl : TypeDecl} {earlier : Scope}
    (found : find scope name = decl :: earlier) :
    bytes (decl :: earlier) = bytesOf scope name ∧ decl.name = name := by
  induction scope with
  | nil => cases found
  | cons head scope inductionHypothesis =>
      rw [find, List.dropWhile_cons] at found
      rw [bytesOf]
      by_cases same : head.name = name
      · rw [if_neg (by simpa using same)] at found
        cases found
        exact ⟨(if_pos same).symm, same⟩
      · rw [if_pos (by simpa using same)] at found
        rw [if_neg same]
        exact inductionHypothesis found

end Scope

inductive Meaning where
  | null
  | integer (value : Int)
  | endOfStream
  | object (scope : Scope) (start : Nat)

/-- An integer at a byte of the file, with its width and whether its built-in type is signed. -/
def integerMeaning (contents : List UInt8) (field : FieldDecl) (place : Nat)
    (format : Nat × Bool) : Meaning :=
  if contents.length < place + format.1 then .endOfStream
  else .integer (field.integer format.2 ((contents.drop place).take format.1))

def fieldMeaning (contents : List UInt8) (scope : Scope) (start : Nat) (name : String) : Meaning :=
  match scope with
  | [] => .null
  | decl :: earlier =>
      match Scope.locate earlier name decl.fields start with
      | none => .null
      | some (place, field) =>
          match Scope.find earlier field.typeName with
          | [] => (builtInFormats.lookup field.typeName).elim .null
              (integerMeaning contents field place)
          | inner => .object inner place

/-- What a path of names means. There is none that goes on behind something that is not
an object. -/
def pathMeaning (contents : List UInt8) (scope : Scope) (start : Nat) :
    List String → Option Meaning
  | [] => some (.object scope start)
  | name :: names =>
      match fieldMeaning contents scope start name with
      | .object inner place => pathMeaning contents inner place names
      | meaning => if names = [] then some meaning else none

/-- No type has 2 ^ 64 bits or more. -/
def SizesBounded (decls : List TypeDecl) : Prop :=
  ∀ decl earlier, decl :: earlier <:+ decls.reverse → 8 * Scope.bytes (decl :: earlier) < 2 ^ 64

example : pathMeaning [0xff, 0x01, 0x02]
    [⟨"b", [⟨"sbyte", [], "x"⟩, ⟨"a", [], "y"⟩]⟩, ⟨"a", [⟨"int16", [⟨none, "little"⟩], "z"⟩]⟩] 0
      ["y", "z"] = some (.integer 0x201) := rfl

end BinaryReader

import BinaryReader.Ast.OptionSet
import BinaryReader.Public.Size

/-!
# Types

A type is an integer or the definition of a record whose statements are fields.
The static size that a constructor computes and stores is a function of the
type here, so no type with another size can be built.
-/

namespace BinaryReader

structure Literal where
  debug : DebugInfo
  value : Value
  deriving DecidableEq

structure IntegerTypeInfo where
  debug : DebugInfo
  aliasName : String
  size : Size
  sign : Signedness
  order : ByteOrder
  deriving DecidableEq

mutual

inductive TypeInfoBase where
  | integer (info : IntegerTypeInfo)
  | definition (info : TypeDefinition)

inductive TypeDefinition where
  | mk (debug : DebugInfo) (name : String) (statements : List Statement)

/-- A type definition is a statement too, but no constructor of a definition takes one. -/
inductive Statement where
  | field (info : FieldInfo)
  | definition (info : TypeDefinition)

/-- The type is a pointer, which is null after an unknown type name. -/
inductive FieldInfo where
  | mk (debug : DebugInfo) (name : String) (type : Option TypeInfoBase)
      (expected : Option Literal)

end

namespace FieldInfo

def debug : FieldInfo → DebugInfo | mk debug _ _ _ => debug
def name : FieldInfo → String | mk _ name _ _ => name
def type : FieldInfo → Option TypeInfoBase | mk _ _ type _ => type
def expected : FieldInfo → Option Literal | mk _ _ _ expected => expected

end FieldInfo

namespace TypeDefinition

def debug : TypeDefinition → DebugInfo | mk debug _ _ => debug
def aliasName : TypeDefinition → String | mk _ name _ => name
def statements : TypeDefinition → List Statement | mk _ _ statements => statements

end TypeDefinition

/-- What integers have, and definitions have when the types of their fields do, all types have. -/
@[elab_as_elim]
theorem TypeInfoBase.induction {motive : TypeInfoBase → Prop}
    (integer : ∀ info, motive (.integer info))
    (definition : ∀ debug name statements,
      (∀ debug name type expected,
        Statement.field (.mk debug name (some type) expected) ∈ statements → motive type) →
      motive (.definition (.mk debug name statements)))
    (type : TypeInfoBase) : motive type := by
  apply @TypeInfoBase.rec motive (fun info => motive (.definition info))
    (fun statement => ∀ debug name type expected,
      statement = .field (.mk debug name (some type) expected) → motive type)
    (fun info => ∀ debug name type expected,
      info = .mk debug name (some type) expected → motive type)
    (fun statements => ∀ debug name type expected,
      Statement.field (.mk debug name (some type) expected) ∈ statements → motive type)
    (fun type => ∀ held, type = some held → motive held)
  · exact integer
  · intro info holds
    exact holds
  · exact definition
  · intro info holds debug name type expected same
    exact holds debug name type expected (Statement.field.inj same)
  · intro info _ debug name type expected same
    cases same
  · intro debug name type expected holds _ _ _ _ same
    cases same
    exact holds _ rfl
  · intro debug name type expected membership
    cases membership
  · intro statement statements head tail debug name type expected membership
    rcases List.mem_cons.mp membership with here | behind
    · exact head debug name type expected here.symm
    · exact tail debug name type expected behind
  · intro held missing
    cases missing
  · intro type holds held same
    cases same
    exact holds

mutual

def TypeInfoBase.staticSize : TypeInfoBase → Option Size
  | .integer info => some info.size
  | .definition info => info.staticSize

def TypeDefinition.staticSize : TypeDefinition → Option Size
  | .mk _ _ statements => sumSizes .zero statements

/-- The value of the loop of `CalculateSize`. -/
def sumSizes (size : Size) : List Statement → Option Size
  | [] => some size
  | .field (.mk _ _ none _) :: _ => none
  | .field (.mk _ _ (some type) _) :: statements =>
      match type.staticSize with
      | none => none
      | some fieldSize => sumSizes (size.addAssign fieldSize) statements
  | .definition _ :: statements => sumSizes size statements

end

/-- The loop of `CalculateSize` with its assertion. -/
def calculateSize (size : Size) : List Statement → Checked (Option Size)
  | [] => .ok (some size)
  | .field info :: statements =>
      match info.type.bind TypeInfoBase.staticSize with
      | none => .ok none
      | some fieldSize => calculateSize (size.addAssign fieldSize) statements
  | .definition _ :: _ => .error .assertion

/-- The constructor of `TypeDefinition`. -/
def TypeDefinition.make (debug : DebugInfo) (name : String) (statements : List Statement) :
    Checked TypeDefinition := do
  let _ ← calculateSize .zero statements
  return .mk debug name statements

/-- What a constructor computes is what `staticSize` says of the type it builds. -/
theorem staticSize_of_calculateSize {statements : List Statement} {size : Option Size}
    (computed : calculateSize .zero statements = .ok size) (debug : DebugInfo) (name : String) :
    (TypeDefinition.mk debug name statements).staticSize = size := by
  rw [TypeDefinition.staticSize]
  generalize Size.zero = start at computed
  fun_induction calculateSize start statements with
  | case1 start => simpa [sumSizes] using computed
  | case2 start info statements missing =>
      rcases info with ⟨_, _, _ | type, _⟩
      · simpa [sumSizes] using computed
      · have unsized : type.staticSize = none := by simpa [FieldInfo.type] using missing
        simpa [sumSizes, unsized] using computed
  | case3 start info statements fieldSize found inductionHypothesis =>
      rcases info with ⟨_, _, _ | type, _⟩
      · simp [FieldInfo.type] at found
      · have sized : type.staticSize = some fieldSize := by simpa [FieldInfo.type] using found
        simpa [sumSizes, sized] using inductionHypothesis computed
  | case4 start info statements => cases computed

namespace TypeInfoBase

def aliasName : TypeInfoBase → String
  | .integer info => info.aliasName
  | .definition info => info.aliasName

def debug : TypeInfoBase → DebugInfo
  | .integer info => info.debug
  | .definition info => info.debug

/-- One entry of `GetBuiltInTypes`. -/
def builtIn (id : String) (size : Nat) (sign : Signedness) : TypeInfoBase :=
  .integer ⟨{ filePath := "<builtin>" }, id, .fromBits size, sign, .unset⟩

def getBuiltInTypes : List TypeInfoBase :=
  [builtIn "byte" 8 .unsigned,
    builtIn "sbyte" 8 .signed,
    builtIn "int8" 8 .signed,
    builtIn "uint8" 8 .unsigned,
    builtIn "int16" 16 .signed,
    builtIn "uint16" 16 .unsigned,
    builtIn "int32" 32 .signed,
    builtIn "uint32" 32 .unsigned,
    builtIn "int64" 64 .signed,
    builtIn "uint64" 64 .unsigned]

def getOptionTypes : TypeInfoBase → List OptionType
  | .integer _ => [.signedness, .byteOrder]
  | .definition _ => []

def instantiate (debug : DebugInfo) (options : Options) : TypeInfoBase → Checked TypeInfoBase
  | .integer info =>
      .ok (.integer { info with
        debug
        sign := options.getSignedness info.sign
        order := options.getByteOrder info.order })
  | .definition info => do
      return .definition (← TypeDefinition.make debug info.aliasName info.statements)

end TypeInfoBase

end BinaryReader

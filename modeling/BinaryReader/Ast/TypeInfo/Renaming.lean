import BinaryReader.Ast.TypeInfo

/-!
# Renamed types

What a type is called, where it is defined, what its fields are expected to hold and which
options of its integers are left open can change without changing its shape: the fields with
their names, and the integers.
-/

namespace BinaryReader

/-- Other places, type names, expected values and options. -/
structure Renaming where
  place : DebugInfo → DebugInfo
  place_default : place {} = {}
  typeName : String → String
  expected : Option Literal → Option Literal
  sign : Signedness → Signedness
  sign_signed : ∀ value, sign value = .signed ↔ value = .signed
  order : ByteOrder → ByteOrder
  order_littleEndian : ∀ value, order value = .littleEndian ↔ value = .littleEndian

variable (change : Renaming)

def IntegerTypeInfo.rename (info : IntegerTypeInfo) : IntegerTypeInfo :=
  { info with
    debug := change.place info.debug
    aliasName := change.typeName info.aliasName
    sign := change.sign info.sign
    order := change.order info.order }

mutual

def TypeInfoBase.rename : TypeInfoBase → TypeInfoBase
  | .integer info => .integer (info.rename change)
  | .definition info => .definition info.rename

def TypeDefinition.rename : TypeDefinition → TypeDefinition
  | .mk debug name statements =>
      .mk (change.place debug) (change.typeName name) (renameStatements statements)

def renameStatements : List Statement → List Statement
  | [] => []
  | statement :: statements => statement.rename :: renameStatements statements

def Statement.rename : Statement → Statement
  | .field info => .field info.rename
  | .definition info => .definition info.rename

def FieldInfo.rename : FieldInfo → FieldInfo
  | .mk debug name none expected =>
      .mk (change.place debug) name none (change.expected expected)
  | .mk debug name (some type) expected =>
      .mk (change.place debug) name (some type.rename) (change.expected expected)

end

theorem TypeInfoBase.debug_rename (type : TypeInfoBase) :
    (type.rename change).debug = change.place type.debug := by
  rcases type with info | ⟨debug, name, statements⟩ <;> rfl

mutual

theorem TypeInfoBase.staticSize_rename :
    ∀ type : TypeInfoBase, (type.rename change).staticSize = type.staticSize
  | .integer _ => rfl
  | .definition info => TypeDefinition.staticSize_rename info

theorem TypeDefinition.staticSize_rename :
    ∀ type : TypeDefinition, (type.rename change).staticSize = type.staticSize
  | .mk _ _ statements => by
      rw [TypeDefinition.rename, TypeDefinition.staticSize, TypeDefinition.staticSize,
        sumSizes_rename]

theorem sumSizes_rename :
    ∀ (statements : List Statement) (size : Size),
      sumSizes size (renameStatements change statements) = sumSizes size statements
  | [], _ => rfl
  | .field (.mk _ _ none _) :: _, _ => rfl
  | .field (.mk _ _ (some type) _) :: statements, size => by
      rw [renameStatements, Statement.rename, FieldInfo.rename, sumSizes, sumSizes,
        TypeInfoBase.staticSize_rename type]
      rcases type.staticSize with _ | fieldSize
      · rfl
      · exact sumSizes_rename statements (size.addAssign fieldSize)
  | .definition _ :: statements, size => sumSizes_rename statements size

end

namespace Renaming

def identity : Renaming :=
  ⟨id, rfl, id, id, id, fun _ => Iff.rfl, id, fun _ => Iff.rfl⟩

/-- Nothing but the shape of the types is left. Open options are the default ones. -/
def shape : Renaming where
  place := fun _ => {}
  place_default := rfl
  typeName := fun _ => ""
  expected := fun _ => none
  sign := fun signedness =>
    Options.getSignedness { signedness } Options.defaultOptions.signedness
  sign_signed := by
    intro value
    cases value <;> decide
  order := fun byteOrder => Options.getByteOrder { byteOrder } Options.defaultOptions.byteOrder
  order_littleEndian := by
    intro value
    cases value <;> decide

end Renaming

mutual

theorem TypeInfoBase.rename_identity :
    ∀ type : TypeInfoBase, type.rename .identity = type
  | .integer _ => rfl
  | .definition info => congrArg TypeInfoBase.definition (TypeDefinition.rename_identity info)

theorem TypeDefinition.rename_identity :
    ∀ type : TypeDefinition, type.rename .identity = type
  | .mk debug name statements =>
      congrArg (TypeDefinition.mk debug name) (renameStatements_identity statements)

theorem renameStatements_identity :
    ∀ statements : List Statement, renameStatements .identity statements = statements
  | [] => rfl
  | statement :: statements => by
      rw [renameStatements, Statement.rename_identity statement,
        renameStatements_identity statements]

theorem Statement.rename_identity : ∀ statement : Statement, statement.rename .identity = statement
  | .field info => congrArg Statement.field (FieldInfo.rename_identity info)
  | .definition info => congrArg Statement.definition (TypeDefinition.rename_identity info)

theorem FieldInfo.rename_identity : ∀ field : FieldInfo, field.rename .identity = field
  | .mk _ _ none _ => rfl
  | .mk debug name (some type) expected =>
      congrArg (FieldInfo.mk debug name · expected)
        (congrArg some (TypeInfoBase.rename_identity type))

end

end BinaryReader

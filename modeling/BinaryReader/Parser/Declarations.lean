import BinaryReader.Parser.Names

/-!
# What a parse tree declares

The declarations of a tree are its names without their places.  A tree is
`Complete` when no child that the grammar asks for is missing, and `Walkable`
when the visitor finds every child it looks at and can convert every number.
-/

namespace BinaryReader

/-- One option of a field, with its type if it names one. -/
structure OptionDecl where
  name : Option String
  value : String
  deriving DecidableEq, Repr

structure FieldDecl where
  typeName : String := ""
  options : List OptionDecl := []
  name : String := ""
  deriving DecidableEq, Repr

structure TypeDecl where
  name : String := ""
  fields : List FieldDecl := []
  deriving DecidableEq, Repr

def tokenText (token : Option Token) : String := (token.map Token.text).getD ""

def Present {α : Type} (child : Option α) (condition : α → Prop) : Prop :=
  ∃ node, child = some node ∧ condition node

/-- A text whose conversion to a number throws no exception. -/
def Converts (text : String) : Prop := ∃ number, literalNumber text = .ok number

namespace OptionContext

def decl (ctx : OptionContext) : OptionDecl :=
  { name := ctx.name.map Token.text, value := tokenText ctx.expr }

def Walkable (ctx : OptionContext) : Prop := ctx.expr.isSome

end OptionContext

namespace OptionListContext

def optionDecl (option : Option OptionContext) : OptionDecl :=
  (option.map OptionContext.decl).getD { name := none, value := "" }

def decls : OptionListContext → List OptionDecl
  | .first option => [optionDecl option]
  | .more optionList option => optionList.decls ++ [optionDecl option]

def Walkable : OptionListContext → Prop
  | .first option => Present option OptionContext.Walkable
  | .more optionList option => optionList.Walkable ∧ Present option OptionContext.Walkable

end OptionListContext

namespace CompleteTypeContext

def options (ctx : CompleteTypeContext) : List OptionDecl :=
  (ctx.optionList.map OptionListContext.decls).getD []

def Complete (ctx : CompleteTypeContext) : Prop :=
  ctx.identifier.isSome ∧ ∀ list ∈ ctx.optionList, list.Walkable

/-- The options are only visited if the name of the type is known. -/
def Walkable (known : List String) (ctx : CompleteTypeContext) : Prop :=
  ctx.identifier.isSome ∧
    (tokenText ctx.identifier ∈ known → ∀ list ∈ ctx.optionList, list.Walkable)

end CompleteTypeContext

def ExpressionContext.Walkable (ctx : ExpressionContext) : Prop :=
  Present ctx.number fun number => Converts number.text

namespace DataFieldContext

def decl (ctx : DataFieldContext) : FieldDecl where
  typeName := (ctx.completeType.map fun type => tokenText type.identifier).getD ""
  options := (ctx.completeType.map CompleteTypeContext.options).getD []
  name := tokenText ctx.identifier

def Complete (ctx : DataFieldContext) : Prop :=
  ctx.identifier.isSome ∧ Present ctx.completeType CompleteTypeContext.Complete ∧
    ∀ expression ∈ ctx.expression, expression.number.isSome

def Walkable (known : List String) (ctx : DataFieldContext) : Prop :=
  ctx.identifier.isSome ∧ Present ctx.completeType (·.Walkable known) ∧
    ∀ expression ∈ ctx.expression, expression.Walkable

def Numeric (ctx : DataFieldContext) : Prop :=
  ∀ expression ∈ ctx.expression, ∀ number ∈ expression.number, Converts number.text

end DataFieldContext

namespace TypeMemberContext

def decl (ctx : TypeMemberContext) : FieldDecl := (ctx.dataField.map DataFieldContext.decl).getD {}

def Complete (ctx : TypeMemberContext) : Prop := Present ctx.dataField DataFieldContext.Complete

def Walkable (known : List String) (ctx : TypeMemberContext) : Prop :=
  Present ctx.dataField (·.Walkable known)

def Numeric (ctx : TypeMemberContext) : Prop := ∀ field ∈ ctx.dataField, field.Numeric

end TypeMemberContext

namespace TypeDefinitionContext

def decl (ctx : TypeDefinitionContext) : TypeDecl where
  name := tokenText ctx.identifier
  fields := ctx.typeMember.map TypeMemberContext.decl

def Complete (ctx : TypeDefinitionContext) : Prop :=
  ctx.identifier.isSome ∧ ∀ member ∈ ctx.typeMember, member.Complete

def Walkable (known : List String) (ctx : TypeDefinitionContext) : Prop :=
  ctx.identifier.isSome ∧ ∀ member ∈ ctx.typeMember, member.Walkable known

def Numeric (ctx : TypeDefinitionContext) : Prop := ∀ member ∈ ctx.typeMember, member.Numeric

end TypeDefinitionContext

namespace GlobalDefinitionContext

def decl (ctx : GlobalDefinitionContext) : TypeDecl :=
  (ctx.typeDefinition.map TypeDefinitionContext.decl).getD {}

def Complete (ctx : GlobalDefinitionContext) : Prop :=
  Present ctx.typeDefinition TypeDefinitionContext.Complete

def Walkable (known : List String) (ctx : GlobalDefinitionContext) : Prop :=
  Present ctx.typeDefinition (·.Walkable known)

def Numeric (ctx : GlobalDefinitionContext) : Prop :=
  ∀ type ∈ ctx.typeDefinition, type.Numeric

/-- The name of a definition is known behind it. -/
def WalkableAll (known : List String) : List GlobalDefinitionContext → Prop
  | [] => True
  | definition :: definitions =>
      definition.Walkable known ∧ WalkableAll (definition.decl.name :: known) definitions

end GlobalDefinitionContext

def builtInNames : List String := TypeInfoBase.getBuiltInTypes.map TypeInfoBase.aliasName

namespace MainContext

def decls (ctx : MainContext) : List TypeDecl :=
  ctx.globalDefinition.map GlobalDefinitionContext.decl

def Complete (ctx : MainContext) : Prop :=
  ∀ definition ∈ ctx.globalDefinition, definition.Complete

def Numeric (ctx : MainContext) : Prop :=
  ∀ definition ∈ ctx.globalDefinition, definition.Numeric

/-- The visitor gets through the tree. -/
def Walkable (ctx : MainContext) : Prop :=
  GlobalDefinitionContext.WalkableAll builtInNames ctx.globalDefinition

end MainContext

section Complete

variable {known : List String}

theorem DataFieldContext.Complete.walkable {ctx : DataFieldContext} (complete : ctx.Complete)
    (numeric : ctx.Numeric) : ctx.Walkable known := by
  obtain ⟨identifier, ⟨type, typeEq, typeIdentifier, options⟩, numbers⟩ := complete
  refine ⟨identifier, ⟨type, typeEq, typeIdentifier, fun _ => options⟩, ?_⟩
  intro expression membership
  obtain ⟨number, numberEq⟩ := Option.isSome_iff_exists.mp (numbers expression membership)
  exact ⟨number, numberEq, numeric expression membership number numberEq⟩

theorem TypeMemberContext.Complete.walkable {ctx : TypeMemberContext} (complete : ctx.Complete)
    (numeric : ctx.Numeric) : ctx.Walkable known := by
  obtain ⟨field, fieldEq, complete⟩ := complete
  exact ⟨field, fieldEq, complete.walkable (numeric field fieldEq)⟩

theorem GlobalDefinitionContext.Complete.walkable {ctx : GlobalDefinitionContext}
    (complete : ctx.Complete) (numeric : ctx.Numeric) : ctx.Walkable known := by
  obtain ⟨type, typeEq, identifier, complete⟩ := complete
  exact ⟨type, typeEq, identifier, fun member membership =>
    (complete member membership).walkable (numeric type typeEq member membership)⟩

/-- The visitor gets through the tree of a definition whose numbers convert. -/
theorem MainContext.Complete.walkable {ctx : MainContext} (complete : ctx.Complete)
    (numeric : ctx.Numeric) : ctx.Walkable := by
  have walkable (definitions : List GlobalDefinitionContext) (known : List String)
      (complete : ∀ definition ∈ definitions, definition.Complete)
      (numeric : ∀ definition ∈ definitions, definition.Numeric) :
      GlobalDefinitionContext.WalkableAll known definitions := by
    induction definitions generalizing known with
    | nil => trivial
    | cons definition definitions inductionHypothesis =>
        obtain ⟨first, rest⟩ := List.forall_mem_cons.mp complete
        obtain ⟨firstNumeric, restNumeric⟩ := List.forall_mem_cons.mp numeric
        exact ⟨first.walkable firstNumeric, inductionHypothesis _ rest restNumeric⟩
  exact walkable ctx.globalDefinition builtInNames complete numeric

end Complete

end BinaryReader

import BinaryReader.Ast.TypeInfo
import BinaryReader.Library.Unicode
import BinaryReader.Parser.Literals
import BinaryReader.Parser.ParseTree

/-!
# The definition parser

The visitor builds the type definitions of a parse tree.  It keeps the types
seen so far and the members of the current type, and goes on after an error it
has added.  Looking at a child that is missing dereferences a null pointer.
-/

namespace BinaryReader

def textBytes (text : String) : List UInt8 :=
  text.toList.flatMap fun symbol => Library.Unicode.utf8 symbol.toNat

structure Stack where
  types : List TypeDefinition := []
  statements : List Statement := []

namespace Stack

def getType (self : Stack) (name : String) : Option TypeInfoBase :=
  match self.types.find? fun type => type.aliasName = name with
  | some type => some (.definition type)
  | none => TypeInfoBase.getBuiltInTypes.find? fun type => type.aliasName = name

def findMember (self : Stack) (name : String) : Option FieldInfo :=
  self.statements.findSome? fun
    | .field field => if field.name = name then some field else none
    | .definition _ => none

end Stack

structure Visitor where
  path : String
  stack : Stack := {}
  defs : List TypeDefinition
  errors : ErrorCollection

namespace Visitor

def getDebugInfo (self : Visitor) (token : Token) : DebugInfo :=
  { filePath := self.path, line := token.line, column := token.charPositionInLine }

def addError (self : Visitor) (kind : ErrorKind) (arguments : List String) (token : Token)
    (level : ErrorLevel := .error) : Visitor :=
  { self with
    errors := self.errors.add (.ofArguments (self.getDebugInfo token) kind arguments level) }

/-- The type that an option names, with an error for a name that is no type. -/
def visitOptionName (self : Visitor) (start : Token) :
    Option Token → Checked (OptionType × Visitor)
  | none => .ok (.unknown, self)
  | some name => do
      let type := getOptionType (← UtfString.fromUtf8 (textBytes name.text))
      if type = .unknown then
        return (type, self.addError .unknownOptionType [name.text] start)
      else
        return (type, self)

def visitOption (self : Visitor) (ctx : OptionContext) : Checked (StaticOption × Visitor) := do
  let (type, self) ← self.visitOptionName ctx.start ctx.name
  let expr ← deref ctx.expr
  let staticValue ← UtfString.fromUtf8 (textBytes expr.text)
  return ({ debug := self.getDebugInfo ctx.start, type, staticValue }, self)

/-- What `visitOptionList` does with its option, behind the options in front of it. -/
def visitLastOption (self : Visitor) (options : OptionSet) (ctx : Option OptionContext) :
    Checked (OptionSet × Visitor) := do
  let (option, self) ← self.visitOption (← deref ctx)
  let (_, options, errors) :=
    options.addStatic option.debug option.type option.staticValue self.errors
  return (options, { self with errors })

def visitOptionList (self : Visitor) : OptionListContext → Checked (OptionSet × Visitor)
  | .first option => self.visitLastOption {} option
  | .more optionList option => do
      let (options, self) ← self.visitOptionList optionList
      self.visitLastOption options option

def visitOptions (self : Visitor) (type : TypeInfoBase) :
    Option OptionListContext → Checked (Options × Visitor)
  | none => .ok ({}, self)
  | some optionList => do
      let (set, self) ← self.visitOptionList optionList
      let (_, options, errors) ← set.buildStaticOptions type.getOptionTypes {} self.errors
      return (options, { self with errors })

/-- The type is null when its name is unknown. `Instantiate` never returns null. -/
def visitCompleteType (self : Visitor) (ctx : CompleteTypeContext) :
    Checked (Option TypeInfoBase × Visitor) := do
  let name := (← deref ctx.identifier).text
  match self.stack.getType name with
  | none => return (none, self.addError .unknownType [name] ctx.start)
  | some found =>
      let (options, self) ← self.visitOptions found ctx.optionList
      let type ← found.instantiate (self.getDebugInfo ctx.start) options
      return (some type, self)

def visitExpression (self : Visitor) (ctx : ExpressionContext) : Checked Literal := do
  let value := (← deref ctx.number).text
  return { debug := self.getDebugInfo ctx.start, value := .number (← literalNumber value) }

def visitDataField (self : Visitor) (ctx : DataFieldContext) : Checked (FieldInfo × Visitor) := do
  let debug := self.getDebugInfo ctx.start
  let name := (← deref ctx.identifier).text
  let (type, self) ← self.visitCompleteType (← deref ctx.completeType)
  let expected ← ctx.expression.mapM self.visitExpression
  return (.mk debug name type expected, self)

def visitTypeMember (self : Visitor) (ctx : TypeMemberContext) : Checked (FieldInfo × Visitor) := do
  self.visitDataField (← deref ctx.dataField)

def checkMember (self : Visitor) (identifier : Option Token) (field : FieldInfo) (start : Token) :
    Checked Visitor :=
  if (self.stack.findMember field.name).isSome then
    .ok (self.addError .shadowingMember [field.name] start)
  else if (self.stack.getType field.name).isSome then
    .ok (self.addError .shadowingType [field.name] start .warning)
  else do
    let identifier ← deref identifier
    if field.name = identifier.text then
      return self.addError .shadowingType [field.name] start .warning
    else
      return self

def visitMembers (identifier : Option Token) : List TypeMemberContext → Visitor → Checked Visitor
  | [], self => .ok self
  | member :: members, self => do
      let (field, self) ← self.visitTypeMember member
      let self ← self.checkMember identifier field member.start
      visitMembers identifier members
        { self with stack.statements := self.stack.statements ++ [.field field] }

def visitTypeDefinition (self : Visitor) (ctx : TypeDefinitionContext) :
    Checked (TypeDefinition × Visitor) := do
  let self ← visitMembers ctx.identifier ctx.typeMember self
  let statements := self.stack.statements
  let self := { self with stack.statements := [] }
  let name := (← deref ctx.identifier).text
  return (← TypeDefinition.make (self.getDebugInfo ctx.start) name statements, self)

def visitGlobalDefinition (self : Visitor) (ctx : GlobalDefinitionContext) :
    Checked (TypeDefinition × Visitor) := do
  self.visitTypeDefinition (← deref ctx.typeDefinition)

def checkType (self : Visitor) (type : TypeDefinition) (start : Token) : Visitor :=
  if (self.stack.getType type.aliasName).isSome then
    self.addError .shadowingType [type.aliasName] start
  else
    self

def visitDefinitions : List GlobalDefinitionContext → Visitor → Checked Visitor
  | [], self => .ok self
  | definition :: definitions, self => do
      let (type, self) ← self.visitGlobalDefinition definition
      let self := self.checkType type definition.start
      visitDefinitions definitions
        { self with
          stack.types := self.stack.types ++ [type]
          defs := self.defs ++ [type] }

def visitMain (self : Visitor) (ctx : MainContext) : Checked Visitor :=
  visitDefinitions ctx.globalDefinition self

end Visitor

/-- `ErrorHandler::syntaxError`. The start index of the token is given as a column. -/
def syntaxError (file : String) (errors : ErrorCollection) (notification : Notification) :
    Checked ErrorCollection := do
  let token ← deref notification.token
  return errors.add (.ofMessage
    { filePath := file, line := notification.line, column := token.startIndex } .unknown
    notification.message)

/-- The parser notifies the error handler before the visitor starts. -/
def parseDefinitionFile (recognize : Recognizer) (path : String) (buffer : List UInt8)
    (defs : List TypeDefinition) (errors : ErrorCollection) :
    Checked (Bool × List TypeDefinition × ErrorCollection) := do
  let errors ← (recognize buffer).notifications.foldlM (syntaxError path) errors
  match (recognize buffer).result with
  | .error what =>
      return (false, defs, errors.add (.ofArguments { filePath := path } .unknown [what] .error))
  | .ok main =>
      let visitor ← Visitor.visitMain { path, defs, errors } main
      return (!visitor.errors.hasErrors, visitor.defs, visitor.errors)

end BinaryReader

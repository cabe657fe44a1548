import Mathlib.Tactic.Common

/-!
# Parse trees

The contexts that the generated parser builds, with the children the visitor
looks at.  After a syntax error any child may be missing.  Every context has a
start token.
-/

namespace BinaryReader

structure Token where
  text : String
  line : Nat
  charPositionInLine : Nat
  startIndex : Nat
  deriving DecidableEq, Repr

/-- `option : name=IDENTIFIER '=' expr=IDENTIFIER | expr=IDENTIFIER`. -/
structure OptionContext where
  start : Token
  name : Option Token
  expr : Option Token

/-- `optionList : optionList ',' option | option`. -/
inductive OptionListContext where
  | first (option : Option OptionContext)
  | more (optionList : OptionListContext) (option : Option OptionContext)

/-- `completeType : IDENTIFIER '<' optionList '>' | IDENTIFIER`. -/
structure CompleteTypeContext where
  start : Token
  identifier : Option Token
  optionList : Option OptionListContext

/-- `expression : NUMBER`. -/
structure ExpressionContext where
  start : Token
  number : Option Token

/-- `dataField : completeType IDENTIFIER ('=' expression)? ';'`. -/
structure DataFieldContext where
  start : Token
  completeType : Option CompleteTypeContext
  identifier : Option Token
  expression : Option ExpressionContext

/-- `typeMember : dataField`. -/
structure TypeMemberContext where
  start : Token
  dataField : Option DataFieldContext

/-- `typeDefinition : TYPE IDENTIFIER '{' typeMember* '}'`. -/
structure TypeDefinitionContext where
  start : Token
  identifier : Option Token
  typeMember : List TypeMemberContext

/-- `globalDefinition : typeDefinition`. -/
structure GlobalDefinitionContext where
  start : Token
  typeDefinition : Option TypeDefinitionContext

/-- `main : globalDefinition* EOF`. -/
structure MainContext where
  globalDefinition : List GlobalDefinitionContext

/-- What the runtime tells an error listener; the token is null for a lexer error. -/
structure Notification where
  token : Option Token
  line : Nat
  message : String

/-- What the lexer and the parser make of a text: the errors they notify of, and the
tree, or the `antlr4::RuntimeException` with its message that ends the parse. -/
structure Recognition where
  notifications : List Notification := []
  result : Except String MainContext

/-- The ANTLR runtime with the generated lexer and parser. -/
abbrev Recognizer := (buffer : List UInt8) → Recognition

end BinaryReader

import BinaryReader.Ast.TypeInfo.Renaming

/-!
# Equal types

`operator==` of types compares what a type is called and what it is made of, and not where
it is defined.  An object is always equal to itself, so the comparison also depends on which
objects are the same.
-/

namespace BinaryReader

structure Addresses where
  types : TypeInfoBase → TypeInfoBase → Bool
  statements : Statement → Statement → Bool
  literals : Literal → Literal → Bool
  eq_of_types : ∀ {type other}, types type other = true → type = other
  eq_of_statements : ∀ {statement other}, statements statement other = true → statement = other

variable (addresses : Addresses)

def Literal.equals (self other : Literal) : Bool :=
  addresses.literals self other || self.value.equals other.value

/-- `IntegerTypeInfo::Equals`, where both have the base name `integer`. -/
def IntegerTypeInfo.equals (self other : IntegerTypeInfo) : Bool :=
  self.sign = other.sign && self.order = other.order && self.aliasName = other.aliasName &&
    self.size.bitCount = other.size.bitCount

def expectedEqual : Option Literal → Option Literal → Bool
  | some expected, some other => expected.equals addresses other
  | none, none => true
  | _, _ => false

mutual

/-- `operator==`. Only objects of one class are compared. -/
def TypeInfoBase.equals : TypeInfoBase → TypeInfoBase → Checked Bool
  | .integer info, other =>
      if addresses.types (.integer info) other then .ok true
      else
        match other with
        | .integer otherInfo => .ok (info.equals otherInfo)
        | .definition _ => .ok false
  | .definition info, other =>
      if addresses.types (.definition info) other then .ok true
      else
        match other with
        | .integer _ => .ok false
        | .definition otherInfo => info.equals otherInfo
termination_by structural type => type

/-- `Equals`. The base name of a definition is its name. -/
def TypeDefinition.equals : TypeDefinition → TypeDefinition → Checked Bool
  | .mk debug name statements, other =>
      if name = other.aliasName ∧
          (TypeDefinition.mk debug name statements).staticSize.map Size.bitCount =
            other.staticSize.map Size.bitCount ∧
          statements.length = other.statements.length then
        statementsEqual statements other.statements
      else .ok false
termination_by structural type => type

def statementsEqual : List Statement → List Statement → Checked Bool
  | statement :: statements, other :: others => do
      if !(← statement.equals other) then return false
      else statementsEqual statements others
  | _, _ => .ok true
termination_by structural statements => statements

def Statement.equals : Statement → Statement → Checked Bool
  | .field info, other =>
      if addresses.statements (.field info) other then .ok true
      else
        match other with
        | .field otherInfo => info.equals otherInfo
        | .definition _ => .ok false
  | .definition info, other =>
      if addresses.statements (.definition info) other then .ok true
      else
        match other with
        | .field _ => .ok false
        | .definition otherInfo => info.equals otherInfo
termination_by structural statement => statement

def FieldInfo.equals : FieldInfo → FieldInfo → Checked Bool
  | .mk _ name none expected, other =>
      if expectedEqual addresses expected other.expected ∧ name = other.name then
        .error .nullPointer
      else .ok false
  | .mk _ name (some type) expected, other =>
      if expectedEqual addresses expected other.expected ∧ name = other.name then do
        type.equals (← deref other.type)
      else .ok false
termination_by structural field => field

end

variable {addresses}

theorem IntegerTypeInfo.rename_of_equals {self other : IntegerTypeInfo}
    (equal : self.equals other = true) : self.rename .shape = other.rename .shape := by
  obtain ⟨debug, name, size, sign, order⟩ := self
  obtain ⟨otherDebug, otherName, otherSize, otherSign, otherOrder⟩ := other
  simp only [equals, Bool.and_eq_true, decide_eq_true_eq] at equal
  obtain ⟨⟨⟨rfl, rfl⟩, rfl⟩, sizes⟩ := equal
  obtain rfl := Size.bitCount_injective sizes
  rfl

mutual

theorem TypeInfoBase.rename_of_equals : ∀ {type other : TypeInfoBase},
    type.equals addresses other = .ok true → type.rename .shape = other.rename .shape
  | .integer info, .integer other, equal => by
      rw [TypeInfoBase.equals] at equal
      split_ifs at equal with same
      · rw [addresses.eq_of_types same]
      · exact congrArg TypeInfoBase.integer
          (IntegerTypeInfo.rename_of_equals (Except.ok.inj equal))
  | .definition info, .definition other, equal => by
      rw [TypeInfoBase.equals] at equal
      split_ifs at equal with same
      · rw [addresses.eq_of_types same]
      · exact congrArg TypeInfoBase.definition (TypeDefinition.rename_of_equals equal)
  | .integer info, .definition other, equal => by
      rw [TypeInfoBase.equals] at equal
      split_ifs at equal with same
      · cases addresses.eq_of_types same
      · cases equal
  | .definition info, .integer other, equal => by
      rw [TypeInfoBase.equals] at equal
      split_ifs at equal with same
      · cases addresses.eq_of_types same
      · cases equal

theorem TypeDefinition.rename_of_equals : ∀ {type other : TypeDefinition},
    type.equals addresses other = .ok true → type.rename .shape = other.rename .shape
  | .mk debug name statements, .mk otherDebug otherName others, equal => by
      rw [TypeDefinition.equals] at equal
      split_ifs at equal with alike
      · exact congrArg (TypeDefinition.mk {} "")
          (statementsEqual.rename_of_equals alike.2.2 equal)
      · cases equal

theorem statementsEqual.rename_of_equals : ∀ {statements others : List Statement},
    statements.length = others.length → statementsEqual addresses statements others = .ok true →
      renameStatements .shape statements = renameStatements .shape others
  | [], [], _, _ => rfl
  | statement :: statements, other :: others, long, equal => by
      rw [statementsEqual] at equal
      obtain ⟨same, compared, rest⟩ := Checked.bind_eq_ok_iff.mp equal
      cases same with
      | false => cases rest
      | true =>
          have first := Statement.rename_of_equals compared
          have behind := statementsEqual.rename_of_equals (Nat.succ.inj long) rest
          rw [renameStatements, renameStatements, first, behind]

theorem Statement.rename_of_equals : ∀ {statement other : Statement},
    statement.equals addresses other = .ok true →
      statement.rename .shape = other.rename .shape
  | .field info, .field other, equal => by
      rw [Statement.equals] at equal
      split_ifs at equal with same
      · rw [addresses.eq_of_statements same]
      · exact congrArg Statement.field (FieldInfo.rename_of_equals equal)
  | .definition info, .definition other, equal => by
      rw [Statement.equals] at equal
      split_ifs at equal with same
      · rw [addresses.eq_of_statements same]
      · exact congrArg Statement.definition (TypeDefinition.rename_of_equals equal)
  | .field info, .definition other, equal => by
      rw [Statement.equals] at equal
      split_ifs at equal with same
      · cases addresses.eq_of_statements same
      · cases equal
  | .definition info, .field other, equal => by
      rw [Statement.equals] at equal
      split_ifs at equal with same
      · cases addresses.eq_of_statements same
      · cases equal

theorem FieldInfo.rename_of_equals : ∀ {field other : FieldInfo},
    field.equals addresses other = .ok true →
      field.rename .shape = other.rename .shape
  | .mk debug name none expected, other, equal => by
      rw [FieldInfo.equals] at equal
      split_ifs at equal
      cases equal
  | .mk debug name (some type) expected, .mk otherDebug otherName otherType otherExpected,
      equal => by
      rw [FieldInfo.equals] at equal
      split_ifs at equal with alike
      · obtain ⟨pointed, dereferenced, compared⟩ := Checked.bind_eq_ok_iff.mp equal
        obtain rfl : otherType = some pointed := deref_eq_ok_iff.mp dereferenced
        obtain rfl : name = otherName := alike.2
        rw [FieldInfo.rename, FieldInfo.rename, TypeInfoBase.rename_of_equals compared]
        rfl
      · cases equal

end

end BinaryReader

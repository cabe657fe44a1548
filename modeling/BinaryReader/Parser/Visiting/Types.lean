import BinaryReader.Ast.TypeInfo.WellFormed
import BinaryReader.Parser.Visiting.Options

/-!
# Visiting types

On a walkable tree the visitor builds one type for each declaration, out of the
types in front of it, and adds no entry of level `Error` exactly when the
declarations fit.
-/

namespace BinaryReader

def FieldsOnly (statements : List Statement) : Prop :=
  ∀ statement ∈ statements, ∃ field, statement = .field field

def lookupType (types : List TypeDefinition) (name : String) : Option TypeInfoBase :=
  ({ types } : Stack).getType name

def TypeInfoBase.instantiated (debug : DebugInfo) (options : Options) :
    TypeInfoBase → TypeInfoBase
  | .integer info => .integer { info with
      debug
      sign := options.getSignedness info.sign
      order := options.getByteOrder info.order }
  | .definition info => .definition (.mk debug info.aliasName info.statements)

theorem TypeInfoBase.exactBits_instantiated (type : TypeInfoBase) (debug : DebugInfo)
    (options : Options) : (type.instantiated debug options).exactBits = type.exactBits := by
  cases type with
  | integer info => rfl
  | definition info =>
      obtain ⟨_, _, statements⟩ := info
      rfl

theorem calculateSize_ok {statements : List Statement} (fields : FieldsOnly statements)
    (size : Size) : ∃ total, calculateSize size statements = .ok total := by
  induction statements generalizing size with
  | nil => exact ⟨_, rfl⟩
  | cons statement statements inductionHypothesis =>
      obtain ⟨⟨info, rfl⟩, rest⟩ := List.forall_mem_cons.mp fields
      rw [calculateSize]
      split
      · exact ⟨_, rfl⟩
      next fieldSize _ => exact inductionHypothesis rest (size.addAssign fieldSize)

theorem make_of_fieldsOnly {statements : List Statement} (fields : FieldsOnly statements)
    (debug : DebugInfo) (name : String) :
    TypeDefinition.make debug name statements = .ok (.mk debug name statements) := by
  obtain ⟨total, computed⟩ := calculateSize_ok fields .zero
  rw [TypeDefinition.make, computed]
  rfl

theorem instantiate_eq {type : TypeInfoBase}
    (fields : ∀ definition, type = .definition definition → FieldsOnly definition.statements)
    (debug : DebugInfo) (options : Options) :
    type.instantiate debug options = .ok (type.instantiated debug options) := by
  cases type with
  | integer info => rfl
  | definition info =>
      rw [TypeInfoBase.instantiate, make_of_fieldsOnly (fields info rfl)]
      rfl

section Lookup

variable {types : List TypeDefinition} {name : String}

theorem builtIn_integer {type : TypeInfoBase} (builtIn : type ∈ TypeInfoBase.getBuiltInTypes) :
    ∃ info, type = .integer info ∧ info.Readable := by
  simp only [TypeInfoBase.getBuiltInTypes, TypeInfoBase.builtIn, List.mem_cons,
    List.not_mem_nil, or_false] at builtIn
  rcases builtIn with rfl | rfl | rfl | rfl | rfl | rfl | rfl | rfl | rfl | rfl <;>
    exact ⟨_, rfl, by decide, by decide⟩

variable (types name) in
/-- A name stands for a definition in front of it, or else for a built-in integer. -/
theorem lookupType_cases :
    (name ∈ types.map TypeDefinition.aliasName ∧ ∃ type ∈ types, type.aliasName = name ∧
        lookupType types name = some (.definition type)) ∨
      (name ∉ types.map TypeDefinition.aliasName ∧
        lookupType types name = TypeInfoBase.getBuiltInTypes.find? fun type =>
          type.aliasName = name) := by
  rw [lookupType, Stack.getType]
  dsimp only
  rcases found : types.find? fun type => type.aliasName = name with _ | type
  · refine Or.inr ⟨fun defined => ?_, by rw [found]⟩
    obtain ⟨type, membership, same⟩ := List.mem_map.mp defined
    exact List.find?_eq_none.mp found type membership (decide_eq_true same)
  · have same : type.aliasName = name := by simpa using List.find?_some found
    have membership := List.mem_of_find?_eq_some found
    exact Or.inl ⟨List.mem_map.mpr ⟨type, membership, same⟩, type, membership, same, by rw [found]⟩

theorem mem_builtInNames :
    name ∈ builtInNames ↔ ∃ type ∈ TypeInfoBase.getBuiltInTypes, type.aliasName = name := by
  rw [builtInNames, List.mem_map]

variable (types name) in
theorem optionTypesOf_eq :
    optionTypesOf (types.map TypeDefinition.aliasName) name =
      (lookupType types name).map TypeInfoBase.getOptionTypes := by
  rcases lookupType_cases types name with
    ⟨defined, type, -, -, looked⟩ | ⟨undefined, looked⟩
  · rw [optionTypesOf, if_pos defined, looked]
    rfl
  · rw [optionTypesOf, if_neg undefined, looked]
    rcases found : TypeInfoBase.getBuiltInTypes.find? fun type => type.aliasName = name
      with _ | type
    · rw [found, if_neg]
      · rfl
      · intro builtIn
        obtain ⟨type, membership, same⟩ := mem_builtInNames.mp builtIn
        exact List.find?_eq_none.mp found type membership (decide_eq_true same)
    · have membership := List.mem_of_find?_eq_some found
      obtain ⟨info, rfl, -⟩ := builtIn_integer membership
      have same : (TypeInfoBase.integer info).aliasName = name := by
        simpa using List.find?_some found
      rw [found, if_pos (mem_builtInNames.mpr ⟨_, membership, same⟩)]
      rfl

variable (types name) in
theorem lookupType_isSome :
    (lookupType types name).isSome ↔
      name ∈ types.map TypeDefinition.aliasName ∨ name ∈ builtInNames := by
  have same := congrArg Option.isSome (optionTypesOf_eq types name)
  rw [Option.isSome_map] at same
  rw [← same, optionTypesOf_isSome]

theorem mem_of_lookupType {type : TypeDefinition}
    (looked : lookupType types name = some (.definition type)) : type ∈ types := by
  rcases lookupType_cases types name with
    ⟨-, other, membership, -, found⟩ | ⟨-, found⟩
  · cases found.symm.trans looked
    exact membership
  · obtain ⟨info, isInteger, -⟩ :=
      builtIn_integer (List.mem_of_find?_eq_some (found.symm.trans looked))
    cases isInteger

theorem lookupType_concat {type : TypeDefinition}
    (fresh : type.aliasName ∉ types.map TypeDefinition.aliasName) :
    lookupType (types ++ [type]) type.aliasName = some (.definition type) := by
  have missing : types.find? (fun other => other.aliasName = type.aliasName) = none := by
    rw [List.find?_eq_none]
    intro other membership same
    exact fresh (List.mem_map.mpr ⟨other, membership, of_decide_eq_true same⟩)
  rw [lookupType, Stack.getType]
  dsimp only
  rw [List.find?_append, missing]
  simp

theorem lookupType_concat_of_ne {type : TypeDefinition} (different : type.aliasName ≠ name) :
    lookupType (types ++ [type]) name = lookupType types name := by
  rw [lookupType, lookupType, Stack.getType, Stack.getType]
  dsimp only
  rw [List.find?_append, List.find?_singleton, if_neg (by simpa using different), Option.or_none]

end Lookup

/-- A field that stands for a declaration, behind the given types. -/
def FieldBuilt (types : List TypeDefinition) (decl : FieldDecl) (field : FieldInfo) : Prop :=
  field.name = decl.name ∧ ∃ debug options,
    field.type = (lookupType types decl.typeName).map (TypeInfoBase.instantiated debug options) ∧
    (FieldFits (types.map TypeDefinition.aliasName) decl → options = appliedOptions decl.options)

def Built (types : List TypeDefinition) (decl : TypeDecl) (type : TypeDefinition) : Prop :=
  type.aliasName = decl.name ∧ ∃ fields : List FieldInfo,
    type.statements = fields.map .field ∧ List.Forall₂ (FieldBuilt types) decl.fields fields

theorem Built.fieldsOnly {types : List TypeDefinition} {decl : TypeDecl} {type : TypeDefinition}
    (built : Built types decl type) : FieldsOnly type.statements := by
  obtain ⟨-, fields, statements, -⟩ := built
  rw [statements]
  exact List.forall_mem_map.mpr fun field _ => ⟨field, rfl⟩

def BuiltAll (types : List TypeDefinition) : List TypeDecl → List TypeDefinition → Prop
  | [], built => built = []
  | decl :: decls, built => ∃ type rest, built = type :: rest ∧ Built types decl type ∧
      BuiltAll (types ++ [type]) decls rest

namespace Visitor

/-- The statements of all types so far are fields, so their size can be computed. -/
def Kept (self : Visitor) : Prop := ∀ type ∈ self.stack.types, FieldsOnly type.statements

/-- The names that stand for a type. -/
def Knows (self : Visitor) (known : List String) : Prop :=
  ∀ name, name ∈ known ↔ (self.stack.getType name).isSome

variable {self : Visitor} {known : List String}

theorem visitCompleteType_spec (kept : self.Kept) (knows : self.Knows known)
    {ctx : CompleteTypeContext} (walkable : ctx.Walkable known) (name : String) :
    ∃ type infos, self.visitCompleteType ctx = .ok (type, self.report infos) ∧
      (∃ debug options, type = (lookupType self.stack.types (tokenText ctx.identifier)).map
          (TypeInfoBase.instantiated debug options) ∧
        (FieldFits (self.stack.types.map TypeDefinition.aliasName)
          { typeName := tokenText ctx.identifier, options := ctx.options, name } →
            options = appliedOptions ctx.options)) ∧
      (NoErrors infos ↔ FieldFits (self.stack.types.map TypeDefinition.aliasName)
        { typeName := tokenText ctx.identifier, options := ctx.options, name }) := by
  obtain ⟨start, _ | identifier, list⟩ := ctx
  · cases walkable.1
  · have looked : self.stack.getType identifier.text =
        lookupType self.stack.types identifier.text := rfl
    have valid := optionTypesOf_eq self.stack.types identifier.text
    simp only [visitCompleteType, deref_some, Checked.ok_bind, looked, FieldFits, tokenText,
      Option.map_some, Option.getD_some, valid]
    rcases found : lookupType self.stack.types identifier.text with _ | type
    · obtain ⟨info, level, added⟩ :=
        self.addError_eq .unknownType [identifier.text] start .error
      refine ⟨none, [info], by rw [← added]; rfl, ⟨{}, {}, rfl, by simp⟩, ?_⟩
      simp [NoErrors, level]
    · have isKnown : identifier.text ∈ known := (knows _).mpr (by rw [looked, found]; rfl)
      obtain ⟨options, infos, visited, clean, applied⟩ :=
        self.visitOptions_spec type (walkable.2 isKnown)
      have fields (definition : TypeDefinition) (same : type = .definition definition) :
          FieldsOnly definition.statements :=
        kept definition (mem_of_lookupType (found.trans (congrArg some same)))
      refine ⟨some (type.instantiated (self.getDebugInfo start) options), infos, ?_,
        ⟨self.getDebugInfo start, options, rfl, ?_⟩, ?_⟩
      · dsimp only
        rw [visited, Checked.ok_bind]
        dsimp only
        rw [instantiate_eq fields]
        rfl
      · rintro ⟨_, ⟨⟩, fit⟩
        exact applied (clean.mpr fit)
      · rw [clean]
        constructor
        · intro fit
          exact ⟨_, rfl, fit⟩
        · rintro ⟨_, ⟨⟩, fit⟩
          exact fit

theorem visitExpressions_spec (self : Visitor) {expression : Option ExpressionContext}
    (walkable : ∀ node ∈ expression, node.Walkable) :
    ∃ expected, expression.mapM self.visitExpression = .ok expected := by
  cases expression with
  | none => exact ⟨none, rfl⟩
  | some expression =>
      obtain ⟨number, numberEq, value, converted⟩ := walkable expression rfl
      refine ⟨some { debug := self.getDebugInfo expression.start, value := .number value }, ?_⟩
      rw [Option.mapM_some, visitExpression, numberEq, deref_some, Checked.ok_bind]
      dsimp only
      rw [converted]
      rfl

theorem visitDataField_spec (kept : self.Kept) (knows : self.Knows known)
    {ctx : DataFieldContext} (walkable : ctx.Walkable known) :
    ∃ field infos, self.visitDataField ctx = .ok (field, self.report infos) ∧
      FieldBuilt self.stack.types ctx.decl field ∧
      (NoErrors infos ↔ FieldFits (self.stack.types.map TypeDefinition.aliasName) ctx.decl) := by
  obtain ⟨start, _ | type, _ | identifier, expression⟩ := ctx
  · cases walkable.1
  · obtain ⟨type, typeEq, -⟩ := walkable.2.1
    cases typeEq
  · cases walkable.1
  · obtain ⟨-, ⟨_, ⟨⟩, typeWalkable⟩, numbers⟩ := walkable
    obtain ⟨built, infos, visited, ⟨debug, options, builtEq, applied⟩, clean⟩ :=
      visitCompleteType_spec kept knows typeWalkable identifier.text
    obtain ⟨expected, converted⟩ := (self.report infos).visitExpressions_spec numbers
    refine ⟨.mk (self.getDebugInfo start) identifier.text built expected, infos, ?_,
      ⟨rfl, debug, options, builtEq, applied⟩, clean⟩
    rw [visitDataField]
    simp only [deref_some, Checked.ok_bind, visited, converted]
    rfl

theorem visitTypeMember_spec (kept : self.Kept) (knows : self.Knows known)
    {ctx : TypeMemberContext} (walkable : ctx.Walkable known) :
    ∃ field infos, self.visitTypeMember ctx = .ok (field, self.report infos) ∧
      FieldBuilt self.stack.types ctx.decl field ∧
      (NoErrors infos ↔ FieldFits (self.stack.types.map TypeDefinition.aliasName) ctx.decl) := by
  obtain ⟨start, dataField⟩ := ctx
  obtain ⟨field, rfl, fieldWalkable⟩ := walkable
  exact visitDataField_spec kept knows fieldWalkable

theorem findMember_isSome {earlier : List FieldInfo}
    (members : self.stack.statements = earlier.map .field) (name : String) :
    (self.stack.findMember name).isSome ↔ name ∈ earlier.map FieldInfo.name := by
  rw [Stack.findMember, members, List.findSome?_isSome_iff]
  simp only [List.mem_map, exists_exists_and_eq_and]
  refine exists_congr fun field => and_congr_right fun _ => ?_
  split_ifs with same <;> simp [same]

theorem checkMember_spec (self : Visitor) {earlier : List FieldInfo}
    (members : self.stack.statements = earlier.map .field) (identifier : Token)
    (field : FieldInfo) (start : Token) :
    ∃ infos, self.checkMember (some identifier) field start = .ok (self.report infos) ∧
      (NoErrors infos ↔ field.name ∉ earlier.map FieldInfo.name) := by
  have repeated := findMember_isSome members field.name
  obtain ⟨shadowing, shadowingLevel, shadowingAdded⟩ :=
    self.addError_eq .shadowingMember [field.name] start .error
  obtain ⟨warning, warningLevel, warned⟩ :=
    self.addError_eq .shadowingType [field.name] start .warning
  rw [checkMember]
  split_ifs with member type
  · refine ⟨[shadowing], by rw [shadowingAdded], ?_⟩
    simp [NoErrors, shadowingLevel, repeated.mp member]
  · refine ⟨[warning], by rw [warned], ?_⟩
    simp [NoErrors, warningLevel, mt repeated.mpr member]
  · rw [deref_some, Checked.ok_bind]
    split_ifs
    · refine ⟨[warning], by rw [warned]; rfl, ?_⟩
      simp [NoErrors, warningLevel, mt repeated.mpr member]
    · exact ⟨[], rfl, iff_of_true noErrors_nil (mt repeated.mpr member)⟩

/-- The members of a type are built in their order, behind those built before. -/
theorem visitMembers_spec (kept : self.Kept) (knows : self.Knows known) (identifier : Token)
    {members : List TypeMemberContext} (walkable : ∀ member ∈ members, member.Walkable known)
    {earlier : List FieldInfo} (statements : self.stack.statements = earlier.map .field) :
    ∃ fields infos, visitMembers (some identifier) members self =
        .ok { self.report infos with stack.statements := (earlier ++ fields).map .field } ∧
      List.Forall₂ (FieldBuilt self.stack.types) (members.map TypeMemberContext.decl) fields ∧
      (NoErrors infos ↔ FieldsFit (self.stack.types.map TypeDefinition.aliasName)
        (earlier.map FieldInfo.name) (members.map TypeMemberContext.decl)) := by
  induction members generalizing self earlier with
  | nil =>
      refine ⟨[], [], ?_, .nil, iff_of_true noErrors_nil trivial⟩
      rw [visitMembers, List.append_nil, ← statements]
      rfl
  | cons member members inductionHypothesis =>
      obtain ⟨first, rest⟩ := List.forall_mem_cons.mp walkable
      obtain ⟨field, infos, visited, built, clean⟩ := visitTypeMember_spec kept knows first
      obtain ⟨checks, checked, fresh⟩ :=
        (self.report infos).checkMember_spec statements identifier field member.start
      rw [report_report] at checked
      have grown : self.stack.statements ++ [.field field] = (earlier ++ [field]).map .field := by
        rw [statements, List.map_append, List.map_singleton]
      have nextKept : Kept { self.report (infos ++ checks) with
          stack.statements := self.stack.statements ++ [.field field] } := kept
      obtain ⟨fields, later, continued, builtRest, cleanRest⟩ :=
        inductionHypothesis nextKept knows rest grown
      refine ⟨field :: fields, infos ++ checks ++ later, ?_, .cons built builtRest, ?_⟩
      · rw [visitMembers, visited, Checked.ok_bind]
        dsimp only
        rw [checked, Checked.ok_bind]
        apply continued.trans
        rw [List.append_assoc, List.singleton_append, ← self.report_report (infos ++ checks)]
        rfl
      · rw [noErrors_append, noErrors_append, clean, fresh, cleanRest, List.map_cons, FieldsFit,
          List.map_append, List.map_singleton, built.1]
        exact and_assoc

theorem visitTypeDefinition_spec (kept : self.Kept) (knows : self.Knows known)
    (empty : self.stack.statements = []) {ctx : TypeDefinitionContext}
    (walkable : ctx.Walkable known) :
    ∃ type infos, self.visitTypeDefinition ctx = .ok (type, self.report infos) ∧
      Built self.stack.types ctx.decl type ∧
      (NoErrors infos ↔ FieldsFit (self.stack.types.map TypeDefinition.aliasName) []
        ctx.decl.fields) := by
  obtain ⟨start, _ | identifier, members⟩ := ctx
  · cases walkable.1
  · have noStatements : self.stack.statements = List.map Statement.field [] := empty
    obtain ⟨fields, infos, visited, built, clean⟩ :=
      visitMembers_spec kept knows identifier walkable.2 noStatements
    have fieldsOnly : FieldsOnly (fields.map .field) :=
      List.forall_mem_map.mpr fun field _ => ⟨field, rfl⟩
    refine ⟨.mk (self.getDebugInfo start) identifier.text (fields.map .field), infos, ?_,
      ⟨rfl, fields, rfl, built⟩, clean⟩
    rw [visitTypeDefinition, visited, Checked.ok_bind]
    dsimp only
    rw [deref_some, Checked.ok_bind, List.nil_append, make_of_fieldsOnly fieldsOnly]
    obtain ⟨path, ⟨types, statements⟩, defs, errors⟩ := self
    cases empty
    rfl

theorem visitGlobalDefinition_spec (kept : self.Kept) (knows : self.Knows known)
    (empty : self.stack.statements = []) {ctx : GlobalDefinitionContext}
    (walkable : ctx.Walkable known) :
    ∃ type infos, self.visitGlobalDefinition ctx = .ok (type, self.report infos) ∧
      Built self.stack.types ctx.decl type ∧
      (NoErrors infos ↔ FieldsFit (self.stack.types.map TypeDefinition.aliasName) []
        ctx.decl.fields) := by
  obtain ⟨start, typeDefinition⟩ := ctx
  obtain ⟨type, rfl, typeWalkable⟩ := walkable
  exact visitTypeDefinition_spec kept knows empty typeWalkable

theorem checkType_spec (self : Visitor) (type : TypeDefinition) (start : Token) :
    ∃ infos, self.checkType type start = self.report infos ∧
      (NoErrors infos ↔ type.aliasName ∉ self.stack.types.map TypeDefinition.aliasName ∧
        type.aliasName ∉ builtInNames) := by
  have repeated := lookupType_isSome self.stack.types type.aliasName
  rw [← not_or, ← repeated, checkType]
  by_cases known : (self.stack.getType type.aliasName).isSome
  · obtain ⟨info, level, added⟩ := self.addError_eq .shadowingType [type.aliasName] start .error
    refine ⟨[info], by rw [if_pos known, added], ?_⟩
    exact iff_of_false (fun none => none info (List.mem_singleton_self _) level) (not_not.mpr known)
  · exact ⟨[], by rw [if_neg known]; rfl, iff_of_true noErrors_nil known⟩

def define (self : Visitor) (infos : List ErrorInfo) (type : TypeDefinition) : Visitor :=
  { self.report infos with
    stack.types := self.stack.types ++ [type]
    defs := self.defs ++ [type] }

@[simp]
theorem define_types (self : Visitor) (infos : List ErrorInfo) (type : TypeDefinition) :
    (self.define infos type).stack.types = self.stack.types ++ [type] := rfl

@[simp]
theorem define_defs (self : Visitor) (infos : List ErrorInfo) (type : TypeDefinition) :
    (self.define infos type).defs = self.defs ++ [type] := rfl

theorem Kept.define (kept : self.Kept) {types : List TypeDefinition} {decl : TypeDecl}
    {type : TypeDefinition} (built : Built types decl type) (infos : List ErrorInfo) :
    (self.define infos type).Kept := by
  intro other membership
  rcases List.mem_append.mp membership with old | new
  · exact kept other old
  · exact List.mem_singleton.mp new ▸ built.fieldsOnly

theorem Knows.define (knows : self.Knows known) {types : List TypeDefinition} {decl : TypeDecl}
    {type : TypeDefinition} (built : Built types decl type) (infos : List ErrorInfo) :
    (self.define infos type).Knows (decl.name :: known) := by
  intro name
  have before := knows name
  change name ∈ known ↔ (lookupType self.stack.types name).isSome at before
  change _ ↔ (lookupType (self.stack.types ++ [type]) name).isSome
  rw [List.mem_cons, before, lookupType_isSome, lookupType_isSome, List.map_append,
    List.mem_append, List.map_singleton, List.mem_singleton, built.1]
  tauto

/-- The types of a definition are built in their order, behind those built before. -/
theorem visitDefinitions_spec (kept : self.Kept) (knows : self.Knows known)
    (empty : self.stack.statements = []) {definitions : List GlobalDefinitionContext}
    (walkable : GlobalDefinitionContext.WalkableAll known definitions) :
    ∃ types infos, visitDefinitions definitions self =
        .ok { self.report infos with
          stack.types := self.stack.types ++ types
          defs := self.defs ++ types } ∧
      BuiltAll self.stack.types (definitions.map GlobalDefinitionContext.decl) types ∧
      (NoErrors infos ↔ DeclsFit (self.stack.types.map TypeDefinition.aliasName)
        (definitions.map GlobalDefinitionContext.decl)) := by
  induction definitions generalizing self known with
  | nil =>
      refine ⟨[], [], ?_, rfl, iff_of_true noErrors_nil trivial⟩
      rw [visitDefinitions, List.append_nil, List.append_nil]
      rfl
  | cons definition definitions inductionHypothesis =>
      obtain ⟨first, rest⟩ := walkable
      obtain ⟨type, infos, visited, built, clean⟩ :=
        visitGlobalDefinition_spec kept knows empty first
      obtain ⟨checks, checked, fresh⟩ := (self.report infos).checkType_spec type definition.start
      rw [report_report] at checked
      obtain ⟨types, later, continued, builtRest, cleanRest⟩ :=
        inductionHypothesis (kept.define built (infos ++ checks))
          (knows.define built (infos ++ checks)) empty rest
      refine ⟨type :: types, infos ++ checks ++ later, ?_, ⟨type, types, rfl, built, builtRest⟩, ?_⟩
      · rw [visitDefinitions, visited, Checked.ok_bind]
        dsimp only
        rw [checked]
        apply continued.trans
        simp only [define_types, define_defs, List.append_assoc, List.singleton_append]
        rw [← List.append_assoc, ← self.report_report (infos ++ checks)]
        rfl
      · rw [noErrors_append, noErrors_append, clean, fresh, cleanRest, List.map_cons, DeclsFit,
          define_types, List.map_append, List.map_singleton, built.1]
        constructor
        · rintro ⟨⟨fields, old, builtIn⟩, rest⟩
          exact ⟨fields, old, builtIn, rest⟩
        · rintro ⟨fields, old, builtIn, rest⟩
          exact ⟨⟨fields, old, builtIn⟩, rest⟩

theorem knows_builtIn (path : String) (defs : List TypeDefinition) (errors : ErrorCollection) :
    Knows { path, defs, errors } builtInNames := by
  intro name
  change _ ↔ (lookupType [] name).isSome
  rw [lookupType_isSome]
  simp

end Visitor

end BinaryReader

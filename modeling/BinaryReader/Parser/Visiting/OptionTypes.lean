import BinaryReader.Ast.OptionSet.Sequences
import BinaryReader.Parser.Visiting.Walking

/-!
# Options that apply to a type

`BuildStaticOptions` is given the option types of a type, but takes an empty set
of types for all types.  A type without options therefore accepts the options
that any type has.
-/

namespace BinaryReader

/-- What an option set stores of an option, without its place. -/
def OptionDecl.stored (decl : OptionDecl) : StaticOption :=
  { debug := {}, type := decl.type, staticValue := ⟨textUnits decl.value⟩ }

theorem OptionDecl.resolve_stored (validOptions : List OptionType) (decl : OptionDecl) :
    OptionSet.resolve validOptions decl.stored = decl.resolve validOptions := resolve_key rfl

theorem OptionDecl.resolve_isSome_iff {validOptions : List OptionType} {decl : OptionDecl} :
    (decl.resolve validOptions).isSome ↔
      ∃ type, OptionSet.Resolves validOptions decl.stored type := by
  rw [← resolve_stored, Option.isSome_iff_exists]
  simp only [OptionSet.resolves_iff]
  constructor
  · rintro ⟨value, resolved⟩
    exact ⟨value.type, value, resolved, rfl⟩
  · rintro ⟨-, value, resolved, -⟩
    exact ⟨value, resolved⟩

theorem OptionSet.Resolves.any {validOptions : List OptionType} {option : StaticOption}
    {type : OptionType} (resolves : Resolves validOptions option type) :
    Resolves [] option type := by
  obtain ⟨value, typed, -, listed⟩ := resolves
  exact ⟨value, typed, Or.inl rfl, listed⟩

theorem OptionsFit.any {validOptions : List OptionType} {decls : List OptionDecl}
    (fit : OptionsFit validOptions decls) : OptionsFit [] decls where
  known := fit.known
  distinct := fit.distinct
  resolved := by
    intro decl listed
    obtain ⟨type, resolves⟩ := OptionDecl.resolve_isSome_iff.mp (fit.resolved decl listed)
    exact OptionDecl.resolve_isSome_iff.mpr ⟨type, resolves.any⟩

theorem BuiltAll.fieldsOnly {types : List TypeDefinition} {decls : List TypeDecl}
    {built : List TypeDefinition} (builtAll : BuiltAll types decls built) :
    ∀ type ∈ built, FieldsOnly type.statements := by
  induction decls generalizing types built with
  | nil =>
      cases builtAll
      exact nofun
  | cons decl decls inductionHypothesis =>
      obtain ⟨type, rest, rfl, first, behind⟩ := builtAll
      exact List.forall_mem_cons.mpr ⟨first.fieldsOnly, inductionHypothesis behind⟩

namespace Visitor

/-- The types of the visitor are those of definitions that were visited. -/
def Reached (self : Visitor) : Prop :=
  ∃ path defs errors definitions last,
    visitDefinitions definitions { path, defs, errors } = .ok last ∧
      self.stack.types = last.stack.types

theorem Reached.kept {self : Visitor} (reached : self.Reached) : self.Kept := by
  obtain ⟨path, defs, errors, definitions, last, visited, same⟩ := reached
  have kept : Kept { path, defs, errors } := nofun
  have knows := knows_builtIn path defs errors
  obtain ⟨types, infos, spec, built, -⟩ := visitDefinitions_spec kept knows rfl
    (walkableAll_of_visitDefinitions kept knows rfl visited)
  cases visited.symm.trans spec
  rw [Kept, same]
  exact built.fieldsOnly

/-- If a declaration adds no error, each of its options resolves to an option type of its type. -/
def OptionsApply (self : Visitor) (ctx : DataFieldContext) : Prop :=
  ∀ {type field next infos}, self.stack.getType ctx.decl.typeName = some type →
    self.visitDataField ctx = .ok (field, next) → next.errors = self.errors.addAll infos →
    NoErrors infos → ∀ decl ∈ ctx.decl.options,
      ∃ optionType ∈ type.getOptionTypes, OptionSet.Resolves [] decl.stored optionType

/-- The declaration adds no error where all option types are valid. -/
structure AcceptsAny (ctx : DataFieldContext) : Prop where
  complete : ctx.Complete
  numeric : ctx.Numeric
  fit : OptionsFit [] ctx.decl.options

variable {self : Visitor}

theorem knows_names (self : Visitor) :
    self.Knows (self.stack.types.map TypeDefinition.aliasName ++ builtInNames) := by
  intro name
  rw [List.mem_append]
  exact (lookupType_isSome self.stack.types name).symm

theorem complete_of_walkable {ctx : DataFieldContext} {known : List String}
    (walkable : ctx.Walkable known) (isKnown : ctx.decl.typeName ∈ known) :
    ctx.Complete ∧ ctx.Numeric := by
  obtain ⟨named, ⟨type, typeEq, typeNamed, options⟩, numbers⟩ := walkable
  rw [DataFieldContext.decl, typeEq, Option.map_some, Option.getD_some] at isKnown
  refine ⟨⟨named, ⟨type, typeEq, typeNamed, options isKnown⟩, ?_⟩, ?_⟩
  · intro expression expressionEq
    obtain ⟨number, numberEq, -⟩ := numbers expression expressionEq
    exact Option.isSome_iff_exists.mpr ⟨number, numberEq⟩
  · intro expression expressionEq number numberEq
    obtain ⟨other, otherEq, converts⟩ := numbers expression expressionEq
    cases numberEq.symm.trans otherEq
    exact converts

section

variable {ctx : DataFieldContext} {type : TypeInfoBase}
  (found : self.stack.getType ctx.decl.typeName = some type)

include found

theorem fieldFits_of_getType :
    FieldFits (self.stack.types.map TypeDefinition.aliasName) ctx.decl ↔
      OptionsFit type.getOptionTypes ctx.decl.options := by
  have looked : lookupType self.stack.types ctx.decl.typeName = some type := found
  rw [FieldFits, optionTypesOf_eq, looked, Option.map_some]
  constructor
  · rintro ⟨_, ⟨⟩, fit⟩
    exact fit
  · intro fit
    exact ⟨_, rfl, fit⟩

/-- A declaration that is visited without an error fits its type. -/
theorem fits_of_visitDataField (kept : self.Kept) {field : FieldInfo} {next : Visitor}
    (visited : self.visitDataField ctx = .ok (field, next)) {infos : List ErrorInfo}
    (added : next.errors = self.errors.addAll infos) (clean : NoErrors infos) :
    ctx.Complete ∧ ctx.Numeric ∧ OptionsFit type.getOptionTypes ctx.decl.options := by
  have knows := self.knows_names
  obtain ⟨_, ⟨⟩, walkable⟩ := walkable_of_visitTypeMember knows
    (show self.visitTypeMember ⟨ctx.start, some ctx⟩ = .ok (field, next) from visited)
  obtain ⟨other, others, spec, -, fits⟩ := visitDataField_spec kept knows walkable
  cases visited.symm.trans spec
  have same := congrArg ErrorCollection.errors added
  rw [report, ErrorCollection.addAll_errors, ErrorCollection.addAll_errors,
    List.append_cancel_left_eq] at same
  obtain ⟨complete, numeric⟩ := complete_of_walkable walkable
    ((knows _).mpr (Option.isSome_iff_exists.mpr ⟨type, found⟩))
  exact ⟨complete, numeric, (fieldFits_of_getType found).mp (fits.mp (same ▸ clean))⟩

/-- A complete declaration that fits its type adds no error. -/
theorem visitDataField_of_fits (kept : self.Kept) (complete : ctx.Complete)
    (numeric : ctx.Numeric) (fit : OptionsFit type.getOptionTypes ctx.decl.options) :
    ∃ field infos, self.visitDataField ctx = .ok (field, self.report infos) ∧ NoErrors infos := by
  obtain ⟨field, infos, visited, -, fits⟩ :=
    visitDataField_spec kept self.knows_names (complete.walkable numeric)
  exact ⟨field, infos, visited, fits.mpr ((fieldFits_of_getType found).mpr fit)⟩

/-- Options apply to their type exactly when it has option types, or when they would be in
error for every type. -/
theorem optionsApply_iff (reached : self.Reached) (listed : ctx.decl.options ≠ []) :
    self.OptionsApply ctx ↔ type.getOptionTypes ≠ [] ∨ ¬ AcceptsAny ctx := by
  have kept := reached.kept
  constructor
  · intro apply
    by_contra neither
    obtain ⟨noTypes, complete, numeric, fit⟩ := not_or.mp neither |>.imp not_not.mp not_not.mp
    obtain ⟨field, infos, visited, clean⟩ :=
      visitDataField_of_fits found kept complete numeric (noTypes.symm ▸ fit)
    obtain ⟨decl, decls, split⟩ := List.exists_cons_of_ne_nil listed
    obtain ⟨optionType, isValid, -⟩ :=
      apply found visited rfl clean decl (split ▸ List.mem_cons_self ..)
    rw [noTypes] at isValid
    cases isValid
  · intro condition other field next infos otherFound visited added clean decl declListed
    cases found.symm.trans otherFound
    obtain ⟨complete, numeric, fit⟩ := fits_of_visitDataField found kept visited added clean
    rcases condition with valid | notAny
    · obtain ⟨optionType, value, resolves⟩ :=
        OptionDecl.resolve_isSome_iff.mp (fit.resolved decl declListed)
      exact ⟨optionType, resolves.permitted.resolve_left valid,
        OptionSet.Resolves.any ⟨value, resolves⟩⟩
    · exact absurd ⟨complete, numeric, fit.any⟩ notAny

end

def bigField (typeName : String) : DataFieldContext where
  start := ⟨typeName, 1, 9, 9⟩
  completeType := some ⟨⟨typeName, 1, 9, 9⟩, some ⟨typeName, 1, 9, 9⟩,
    some (.first (some ⟨⟨"big", 1, 11, 11⟩, none, some ⟨"big", 1, 11, 11⟩⟩))⟩
  identifier := some ⟨"x", 1, 16, 16⟩
  expression := none

def behindEmptyType : Visitor where
  path := ""
  stack := { types := [.mk { line := 1 } "b" []] }
  defs := [.mk { line := 1 } "b" []]
  errors := {}

theorem behindEmptyType_reached : behindEmptyType.Reached :=
  ⟨"", [], {},
    [{ start := ⟨"type", 1, 0, 0⟩
       typeDefinition := some ⟨⟨"type", 1, 0, 0⟩, some ⟨"b", 1, 5, 5⟩, []⟩ }], _, rfl, rfl⟩

theorem optionsApply_iff_byte :
    behindEmptyType.OptionsApply (bigField "byte") ↔
      (TypeInfoBase.builtIn "byte" 8 .unsigned).getOptionTypes ≠ [] ∨
        ¬ AcceptsAny (bigField "byte") :=
  optionsApply_iff rfl behindEmptyType_reached (List.cons_ne_nil _ _)

/-- A type without options accepts the option `big`. -/
theorem not_optionsApply :
    behindEmptyType.Reached ∧ (bigField "b").decl.options ≠ [] ∧
      ¬ behindEmptyType.OptionsApply (bigField "b") := by
  refine ⟨behindEmptyType_reached, List.cons_ne_nil _ _, ?_⟩
  intro apply
  have walkable : ∀ list ∈ ((bigField "b").completeType.bind (·.optionList)), list.Walkable := by
    rintro list ⟨⟩
    exact ⟨_, rfl, rfl⟩
  have found : behindEmptyType.stack.getType (bigField "b").decl.typeName =
      some (.definition (.mk { line := 1 } "b" [])) := rfl
  obtain ⟨field, infos, visited, clean⟩ := visitDataField_of_fits found
    behindEmptyType_reached.kept ⟨rfl, ⟨_, rfl, rfl, walkable⟩, nofun⟩ nofun
    ⟨by decide, by decide, by decide⟩
  obtain ⟨optionType, isValid, -⟩ :=
    apply found visited rfl clean _ (List.mem_singleton_self _)
  cases isValid

end Visitor

end BinaryReader

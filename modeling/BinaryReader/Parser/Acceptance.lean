import BinaryReader.Parser.Malformed
import BinaryReader.Public.FileObject.Observation

/-!
# Accepted definitions

Without a syntax error a definition is accepted exactly when its names are
declared before they are used, are not declared twice, and are no built-in
names.  All types of an accepted definition are well-formed.
-/

namespace BinaryReader

theorem TypeInfoBase.WellFormed.instantiated {type : TypeInfoBase} (wellFormed : type.WellFormed)
    (debug : DebugInfo) (options : Options) : (type.instantiated debug options).WellFormed := by
  cases type with
  | integer info => exact wellFormed
  | definition info =>
      obtain ⟨_, _, statements⟩ := info
      exact wellFormed

theorem wellFormed_of_lookupType {types : List TypeDefinition}
    (earlier : ∀ type ∈ types, type.WellFormed) {name : String} {type : TypeInfoBase}
    (looked : lookupType types name = some type) : type.WellFormed := by
  cases type with
  | definition info => exact earlier info (mem_of_lookupType looked)
  | integer info =>
      rcases lookupType_cases types name with
        ⟨-, other, -, -, found⟩ | ⟨-, found⟩
      · cases found.symm.trans looked
      · obtain ⟨_, ⟨⟩, readable⟩ :=
          builtIn_integer (List.mem_of_find?_eq_some (found.symm.trans looked))
        exact readable

theorem Built.wellFormed {types : List TypeDefinition}
    (earlier : ∀ type ∈ types, type.WellFormed) {decl : TypeDecl} {type : TypeDefinition}
    (built : Built types decl type)
    (fits : ∀ field ∈ decl.fields, FieldFits (types.map TypeDefinition.aliasName) field) :
    type.WellFormed := by
  obtain ⟨debug, name, statements⟩ := type
  obtain ⟨declName, fieldDecls⟩ := decl
  obtain ⟨-, fields, rfl, built⟩ := built
  change WellFormedStatements (fields.map .field)
  change List.Forall₂ (FieldBuilt types) fieldDecls fields at built
  induction built with
  | nil => trivial
  | @cons fieldDecl field fieldDecls fields fieldBuilt _ inductionHypothesis =>
      obtain ⟨⟨validOptions, valid, -⟩, rest⟩ := List.forall_mem_cons.mp fits
      obtain ⟨fieldDebug, fieldName, fieldType, expected⟩ := field
      obtain ⟨-, typeDebug, options, typeEq, -⟩ := fieldBuilt
      rw [optionTypesOf_eq] at valid
      obtain ⟨found, looked, -⟩ := Option.map_eq_some_iff.mp valid
      rw [looked] at typeEq
      cases typeEq
      exact ⟨(wellFormed_of_lookupType earlier looked).instantiated typeDebug options,
        inductionHypothesis rest⟩

theorem BuiltAll.wellFormed {types : List TypeDefinition}
    (earlier : ∀ type ∈ types, type.WellFormed) {decls : List TypeDecl}
    {built : List TypeDefinition} (all : BuiltAll types decls built)
    (fits : DeclsFit (types.map TypeDefinition.aliasName) decls) :
    ∀ type ∈ built, type.WellFormed := by
  induction decls generalizing types built with
  | nil =>
      rw [show built = [] from all]
      exact nofun
  | cons decl decls inductionHypothesis =>
      obtain ⟨type, rest, rfl, first, restBuilt⟩ := all
      obtain ⟨fields, -, -, restFits⟩ := fits
      have wellFormed := first.wellFormed earlier (fieldsFit_iff.mp fields).1
      refine List.forall_mem_cons.mpr ⟨wellFormed, ?_⟩
      refine inductionHypothesis ?_ restBuilt ?_
      · rw [List.forall_mem_append, List.forall_mem_singleton]
        exact ⟨earlier, wellFormed⟩
      · rw [List.map_append, List.map_singleton, first.1]
        exact restFits

/-- What a user of a type that stands for a declaration relies on. -/
structure StandsFor (decl : TypeDecl) (type : TypeDefinition) : Prop where
  name : type.aliasName = decl.name
  fields : ∃ fields : List FieldInfo, type.statements = fields.map .field ∧
    fields.map FieldInfo.name = decl.fields.map FieldDecl.name ∧
    ∀ field ∈ fields, field.type.isSome
  staticSize : type.staticSize.isSome
  reparseObject : ∀ object : FileObject, object.type = type → ∀ errors,
    ∃ parsed, object.reparseObject errors = .ok (true, parsed, errors)
  readValue : ∀ {σ : Type} (fileReader : FileReader σ) (world : World σ) value errors,
    ∃ result, world.readObject fileReader type value errors = .ok result

theorem Built.fieldNames {types : List TypeDefinition} {decls : List FieldDecl}
    {fields : List FieldInfo} (built : List.Forall₂ (FieldBuilt types) decls fields) :
    fields.map FieldInfo.name = decls.map FieldDecl.name := by
  induction built with
  | nil => rfl
  | cons fieldBuilt _ inductionHypothesis =>
      rw [List.map_cons, List.map_cons, fieldBuilt.1, inductionHypothesis]

/-- Reading an object of a well-formed type finds a static size, over any reader. -/
theorem World.readObject_of_wellFormed {σ : Type} (fileReader : FileReader σ) (world : World σ)
    {type : TypeDefinition} (wellFormed : type.WellFormed) (value : Value)
    (errors : ErrorCollection) :
    ∃ result, world.readObject fileReader type value errors = .ok result := by
  rw [readObject, FileObject.reparseObject_spec wellFormed, Checked.ok_bind]
  dsimp only
  rw [wellFormed.staticSize, deref_some, Checked.ok_bind]
  exact ⟨_, rfl⟩

theorem Built.standsFor {types : List TypeDefinition} {decl : TypeDecl} {type : TypeDefinition}
    (built : Built types decl type) (wellFormed : type.WellFormed) : StandsFor decl type where
  name := built.1
  fields := by
    obtain ⟨-, fields, statements, fieldsBuilt⟩ := built
    refine ⟨fields, statements, Built.fieldNames fieldsBuilt, ?_⟩
    intro field membership
    obtain ⟨debug, name, statements'⟩ := type
    cases statements
    have typed := wellFormedStatements_iff.mp wellFormed (.field field)
      (List.mem_map_of_mem membership)
    obtain ⟨_, _, _, _, same, -⟩ := typed
    cases same
    rfl
  staticSize := by
    rw [wellFormed.staticSize]
    rfl
  reparseObject := by
    rintro object rfl errors
    exact ⟨_, FileObject.reparseObject_spec wellFormed errors⟩
  readValue := fun fileReader world value errors =>
    world.readObject_of_wellFormed fileReader wellFormed value errors

theorem BuiltAll.standFor {types : List TypeDefinition} {decls : List TypeDecl}
    {built : List TypeDefinition} (all : BuiltAll types decls built)
    (wellFormed : ∀ type ∈ built, type.WellFormed) : List.Forall₂ StandsFor decls built := by
  induction decls generalizing types built with
  | nil =>
      rw [show built = [] from all]
      exact .nil
  | cons decl decls inductionHypothesis =>
      obtain ⟨type, rest, rfl, first, restBuilt⟩ := all
      obtain ⟨typeFormed, restFormed⟩ := List.forall_mem_cons.mp wellFormed
      exact .cons (first.standsFor typeFormed) (inductionHypothesis restBuilt restFormed)

section Parse

variable {recognize : Recognizer} {path : String} {buffer : List UInt8}
  {defs : List TypeDefinition} {errors : ErrorCollection}

/-- What an accepted definition is: a tree without a syntax error whose declarations
are acceptable, and the types that stand for them. -/
theorem accepted_spec {result : List TypeDefinition} {reported : ErrorCollection}
    (accepted : parseDefinitionFile recognize path buffer defs errors =
      .ok (true, result, reported)) :
    ∃ main types, (recognize buffer).notifications = [] ∧
      (recognize buffer).result = .ok main ∧ main.Walkable ∧ result = defs ++ types ∧
      BuiltAll [] main.decls types ∧ Acceptable [] main.decls ∧
      (∀ type ∈ types, type.WellFormed) ∧ errors.hasErrors = false := by
  obtain ⟨located, walkable⟩ := recoverable_of_parseDefinitionFile accepted
  rcases tree : (recognize buffer).result with what | main
  · obtain ⟨infos, parsed, -⟩ :=
      parseDefinitionFile_exception path defs errors located tree
    cases accepted.symm.trans parsed
  · obtain ⟨types, notified, infos, parsed, unnotified, built, clean⟩ :=
      parseDefinitionFile_tree path defs errors located tree
        (walkable main tree)
    have same := accepted.symm.trans parsed
    simp only [Except.ok.injEq, Prod.mk.injEq] at same
    obtain ⟨noErrors, rfl, -⟩ := same
    rw [eq_comm, Bool.not_eq_true', ErrorCollection.addAll_hasErrors, noErrors_append] at noErrors
    have fits := clean.mp noErrors.2.2
    exact ⟨main, types, unnotified.mp noErrors.2.1, rfl, walkable main tree, rfl, built,
      declsFit_iff.mp fits, built.wellFormed (List.forall_mem_nil _) fits, noErrors.1⟩

/-- A definition that is in the grammar is accepted exactly when its names resolve and it
names no option type that does not exist. -/
theorem parseDefinitionFile_accepts_iff {main : MainContext}
    (noSyntaxError : (recognize buffer).notifications = [])
    (tree : (recognize buffer).result = .ok main) (complete : main.Complete)
    (numeric : main.Numeric) (options : OptionListsAccepted main.decls)
    (noErrors : errors.hasErrors = false) :
    ∃ accepted types reported,
      parseDefinitionFile recognize path buffer defs errors =
        .ok (accepted, defs ++ types, reported) ∧
      (accepted = true ↔ NamesResolve main.decls ∧ OptionTypesKnown main.decls) ∧
      (accepted = true → List.Forall₂ StandsFor main.decls types) := by
  have located : (recognize buffer).Located := by
    rw [Recognition.Located, noSyntaxError]
    exact nofun
  obtain ⟨types, notified, infos, parsed, unnotified, built, clean⟩ :=
    parseDefinitionFile_tree path defs errors located tree
      (complete.walkable numeric)
  have accepts : (!(errors.addAll (notified ++ infos)).hasErrors) = true ↔
      DeclsFit [] main.decls := by
    rw [Bool.not_eq_true', ErrorCollection.addAll_hasErrors, noErrors_append, unnotified, clean]
    simp [noErrors, noSyntaxError]
  refine ⟨_, types, _, parsed, accepts.trans (declsFit_iff.trans (acceptable_iff options)), ?_⟩
  intro accepted
  exact built.standFor (built.wellFormed (List.forall_mem_nil _) (accepts.mp accepted))

end Parse

/-- The tree of `type a { byte x; } type b { a y; byte z; }`. -/
def nestedTypes : MainContext :=
  let token (text : String) (column : Nat) : Token := ⟨text, 1, column, column⟩
  let field (type name : String) (column : Nat) : TypeMemberContext :=
    { start := token type column
      dataField := some {
        start := token type column
        completeType := some ⟨token type column, some (token type column), none⟩
        identifier := some (token name (column + type.length + 1))
        expression := none } }
  ⟨(oneField none 14).globalDefinition ++
    [{ start := token "type" 19
       typeDefinition := some {
         start := token "type" 19
         identifier := some (token "b" 24)
         typeMember := [field "a" "y" 28, field "byte" "z" 33] } }]⟩

/-- The options `<foo=little>`. -/
def fooLittle : OptionListContext :=
  .first (some ⟨⟨"foo", 1, 14, 14⟩, some ⟨"foo", 1, 14, 14⟩, some ⟨"little", 1, 18, 18⟩⟩)

theorem oneField_complete {options : Option OptionListContext}
    (walkable : ∀ list ∈ options, list.Walkable) (column : Nat) :
    (oneField options column).Complete ∧ (oneField options column).Numeric := by
  constructor
  · refine List.forall_mem_singleton.mpr ⟨_, rfl, rfl, List.forall_mem_singleton.mpr ?_⟩
    exact ⟨_, rfl, rfl, ⟨_, rfl, rfl, walkable⟩, nofun⟩
  · refine List.forall_mem_singleton.mpr ?_
    rintro type ⟨⟩
    refine List.forall_mem_singleton.mpr ?_
    rintro field ⟨⟩
    exact nofun

theorem forall_split_singleton {α : Type} {only : α} {property : List α → α → Prop}
    (holds : property [] only) :
    ∀ earlier current later, [only] = earlier ++ current :: later → property earlier current := by
  intro earlier current later split
  cases earlier with
  | nil =>
      cases split
      exact holds
  | cons head earlier => simp at split

theorem oneField_options {options : Option OptionListContext} {column : Nat}
    (accepted : OptionsAccepted [.signedness, .byteOrder]
      ((options.map OptionListContext.decls).getD [])) :
    OptionListsAccepted (oneField options column).decls := by
  refine forall_split_singleton (List.forall_mem_singleton.mpr ?_)
  rintro validOptions ⟨⟩
  exact accepted

theorem oneField_namesResolve (options : Option OptionListContext) (column : Nat) :
    NamesResolve (oneField options column).decls where
  distinct := List.nodup_singleton _
  notBuiltIn := List.forall_mem_singleton.mpr (show "a" ∉ builtInNames by decide)
  fieldsDistinct := List.forall_mem_singleton.mpr (List.nodup_singleton _)
  resolved := forall_split_singleton (List.forall_mem_singleton.mpr
    (Or.inr (show "byte" ∈ builtInNames by decide)))

theorem parseDefinitionFile_accepts_iff_byte :
    ∃ accepted types reported,
      parseDefinitionFile (fun _ => { result := .ok (oneField none 14) }) ""
        (textBytes "type a \x7b byte x; \x7d") [] {} = .ok (accepted, [] ++ types, reported) ∧
      (accepted = true ↔
        NamesResolve (oneField none 14).decls ∧ OptionTypesKnown (oneField none 14).decls) ∧
      (accepted = true → List.Forall₂ StandsFor (oneField none 14).decls types) := by
  have walkable : ∀ list ∈ (none : Option OptionListContext), list.Walkable := nofun
  obtain ⟨complete, numeric⟩ := oneField_complete walkable 14
  exact parseDefinitionFile_accepts_iff rfl rfl complete numeric
    (oneField_options (optionsAccepted_iff.mpr ⟨List.nodup_nil, nofun⟩)) rfl

/-- The option set takes `foo=little`, whose type it does not know, but the visitor has
added an error. -/
theorem parseDefinitionFile_rejects_unknownOptionType :
    let main := oneField (some fooLittle) 26
    main.Complete ∧ main.Numeric ∧ OptionListsAccepted main.decls ∧ NamesResolve main.decls ∧
      ∃ types reported, parseDefinitionFile (fun _ => { result := .ok main }) ""
        (textBytes "type a \x7b byte<foo=little> x; \x7d") [] {} =
          .ok (false, types, reported) := by
  have walkable : ∀ list ∈ some fooLittle, list.Walkable := by
    rintro list ⟨⟩
    exact ⟨_, rfl, rfl⟩
  refine ⟨(oneField_complete walkable 26).1, (oneField_complete walkable 26).2,
    oneField_options (optionsAccepted_iff.mpr ⟨by decide, by decide⟩),
    oneField_namesResolve _ _, _, _, rfl⟩

end BinaryReader

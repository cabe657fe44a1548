import BinaryReader.App.Main
import BinaryReader.Public.Json.Embedding
import BinaryReader.Public.Json.Meaning
import BinaryReader.Util.MemoryFileSystem

/-!
# What the tool writes

Over files that can be read, the tool exits with 0 exactly for an accepted definition
and a type of it, and then its output says what every path means.  What a file was
written with is in the output, and the file can be written again from it.
-/

namespace BinaryReader

open Library Library.Unicode

section Stages

variable {σ : Type} {fileSystem : FileSystem σ} {fileReader : FileReader σ}
  {recognize : Recognizer} {classes : IdentifierClasses}

theorem ConfiguredParser.createFromDefinition_clean {definition : List UInt8} {main : MainContext}
    (clean : (recognize definition).Clean main) (nonEmpty : main.decls ≠ [])
    (fileSystem : FileSystem σ) (format : String) :
    ∃ (parser : FileParser) (infos : List ErrorInfo), NoErrors infos ∧
      Mirrors main.decls.reverse parser.definitions ∧
      (∀ type ∈ parser.definitions, type.WellFormed) ∧
      createFromDefinition recognize fileSystem definition format
        { fileSystem := some fileSystem } (some {}) =
          .ok (some { parser with fileSystem }, some (ErrorCollection.addAll {} infos)) := by
  obtain ⟨result, created⟩ := clean.returns format {}
  rcases FileParser.createFromDefinition_cases created with
    ⟨-, -, -, unclean⟩ | ⟨-, -, earlier, -⟩ | ⟨-, -, -, -, parser, infos, rfl⟩
  · exact absurd ⟨main, clean, Or.inl nonEmpty⟩ unclean
  · cases earlier
  · obtain ⟨other, tree, mirrors, wellFormed⟩ := FileParser.created_spec created
    cases clean.tree.symm.trans tree
    have made : createFromDefinition recognize fileSystem definition format
        { fileSystem := some fileSystem } (some {}) =
          .ok (some { parser with fileSystem }, some (ErrorCollection.addAll {} infos)) := by
      rw [createFromDefinition, created]
      rfl
    obtain ⟨others, same, failed_iff⟩ := createFromDefinition_settles rfl definition format _ _ made
    have quiet : NoErrors infos := by
      by_contra some
      have infosEq := congrArg ErrorCollection.errors (Option.some.inj same)
      rw [ErrorCollection.addAll_errors, ErrorCollection.addAll_errors, List.nil_append,
        List.nil_append] at infosEq
      subst infosEq
      cases failed_iff.mpr (not_noErrors_iff.mp some)
    exact ⟨parser, infos, quiet, mirrors, wellFormed, made⟩

theorem ConfiguredParser.createFromFile_served {format : String} {definition : List UInt8}
    (served : fileSystem.Serves fileReader format definition) (filled : definition ≠ [])
    {main : MainContext} (clean : (recognize definition).Clean main)
    (nonEmpty : main.decls ≠ []) :
    ∃ (parser : FileParser) (infos : List ErrorInfo), NoErrors infos ∧
      Mirrors main.decls.reverse parser.definitions ∧
      (∀ type ∈ parser.definitions, type.WellFormed) ∧
      ∀ fuel > definition.length,
        createFromFile recognize fileSystem fileReader fuel format {} (some {}) =
          .ok (some { parser with fileSystem }, some (ErrorCollection.addAll {} infos)) := by
  obtain ⟨parser, infos, quiet, mirrors, wellFormed, made⟩ :=
    createFromDefinition_clean clean nonEmpty fileSystem format
  refine ⟨parser, infos, quiet, mirrors, wellFormed, ?_⟩
  intro fuel enough
  obtain ⟨file, states, opened, inside, contract, sized⟩ := served
  obtain ⟨next, read⟩ := contract.readFully sized filled enough inside [] (some {})
  simp only [createFromFile, Option.getD_none, opened, read, Checked.ok_bind]
  exact made

theorem Scope.Identified.mono {scope inner : Scope} (identified : scope.Identified classes)
    (subset : inner ⊆ scope) : inner.Identified classes :=
  fun decl membership => identified decl (subset membership)

/-- The root object that a name asks for is written as what its paths mean. -/
theorem ConfiguredParser.parsePath_describes {input type : String} {contents : List UInt8}
    (served : fileSystem.Serves fileReader input contents) {decls : List TypeDecl}
    (bounded : SizesBounded decls) (identified : Scope.Identified classes decls)
    {parser : FileParser} (mirrors : Mirrors decls.reverse parser.definitions)
    (wellFormed : ∀ type ∈ parser.definitions, type.WellFormed)
    (named : type = "" ∨ type ∈ decls.map TypeDecl.name) (hashOrder : HashOrder)
    (formatDouble : Double → String) (opts : JsonOptions) (memory : Nat → UInt8)
    (errors : Option ErrorCollection) :
    ∃ world bound out after, Describes contents (Scope.root decls type) 0 out ∧
      parsePath fileReader { parser with fileSystem } memory input type errors =
        .ok (some (0, world), errors) ∧
      ∀ fuel ≥ bound, World.dumpJsonObject fileReader hashOrder opts
        (World.dumpJsonValue fileReader hashOrder formatDouble opts fuel) [] world 0 0 =
          .ok (out, after) := by
  obtain ⟨file, states, opened, inside, contract, -⟩ := served
  have embeds := FileReader.restrict_embeds contract
  have restricted := FileReader.restrict_contract contract
  rcases FileParser.definitionOf_spec mirrors type with
    ⟨root, found, membership, represents, -⟩ | ⟨-, unnamed, undeclared⟩
  · obtain ⟨reader, parsed, -, sound⟩ := FileParser.parseFile_spec restricted found
      (wellFormed root membership) ⟨file, inside⟩ memory input errors
    have suffix_ := Scope.root_suffix decls type
    have placed := placed_root represents bounded
    have rootIdentified : (Scope.root decls type).Identified classes :=
      identified.mono fun decl declared => List.mem_reverse.mp (suffix_.subset declared)
    have objectFound : [FileObject.parse root .zero][0]? = some (.parse root .zero) := rfl
    obtain ⟨bound, out, after, describes, dumps⟩ := dumpJsonObject_describes restricted hashOrder
      formatDouble opts 0 rootIdentified sound objectFound placed
    let world : World { state // states state } :=
      { reader, objects := [FileObject.parse root .zero] }
    refine ⟨world.mapReader Subtype.val, bound, out, after.mapReader Subtype.val, describes, ?_, ?_⟩
    · have embedded :=
        FileParser.parseFile_mapReader embeds parser ⟨file, inside⟩ memory input type errors
      rw [parsed] at embedded
      rw [parsePath]
      dsimp only
      rw [opened]
      exact embedded
    · intro fuel enough
      refine (World.dumpJsonObject_mapReader embeds fuel [] world 0 0).trans ?_
      rw [dumps fuel enough]
      rfl
  · exact absurd named (not_or.mpr ⟨unnamed, undeclared⟩)

theorem ConfiguredParser.parsePath_missing {parser : ConfiguredParser σ} {type : String}
    (missing : parser.definitionOf type = none) {memory : Nat → UInt8} {path : String}
    {errors added : Option ErrorCollection} {made : Option (ObjectId × World σ)}
    (parsed : parser.parsePath fileReader memory path type errors = .ok (made, added)) :
    made = none := by
  rw [parsePath] at parsed
  rcases opened : parser.fileSystem.openFile path with _ | file
  · rw [opened] at parsed
    cases parsed
    rfl
  · rw [opened] at parsed
    dsimp only at parsed
    rw [FileParser.parseFile, missing] at parsed
    cases parsed
    rfl

end Stages

section Values

variable {contents : List UInt8} {scope : Scope} {start : Nat}

/-- The integers of a document, and zero for every path that does not lead to one. -/
def valuesOf (json : Json) : Values := fun names =>
  match jsonAt names json with
  | some (.number value) => value.num
  | _ => 0

/-- The integers of a document that describes a type are those that the file means. -/
theorem valuesOf_eq_decoded {json : Json}
    (denotes : ∀ names, Denotes (pathMeaning contents scope start names) (jsonAt names json)) :
    valuesOf json = Scope.decoded contents scope start := by
  funext names
  have denoted := denotes names
  rw [valuesOf, Scope.decoded]
  generalize pathMeaning contents scope start names = meaning at denoted ⊢
  generalize jsonAt names json = found at denoted ⊢
  rcases meaning with _ | _ | value | _ | ⟨inner, place⟩
  · cases found with
    | none => rfl
    | some other => cases denoted
  · cases found with
    | none => rfl
    | some other => cases denoted
  · cases found with
    | none => cases denoted
    | some other =>
        cases denoted
        exact Rat.num_intCast value
  · cases found with
    | none => rfl
    | some other =>
        cases denoted
        rfl
  · cases found with
    | none => rfl
    | some other =>
        obtain ⟨members, rfl⟩ := denoted
        rfl

theorem jsonAt_of_written {json : Json}
    (denotes : ∀ names, Denotes (pathMeaning contents scope start names) (jsonAt names json))
    {values : Values} (written : Scope.encode scope values <+: contents.drop start)
    (allFit : Scope.AllFit scope values) {names : List String} {field : FieldDecl}
    {format : Nat × Bool} (leads : Scope.leaf scope names = some (field, format)) :
    jsonAt names json = some (.number (values names)) := by
  have denoted := denotes names
  rw [Scope.pathMeaning_of_written written allFit leads] at denoted
  cases found : jsonAt names json with
  | none =>
      rw [found] at denoted
      exact denoted.elim
  | some other =>
      rw [found] at denoted
      exact congrArg some denoted

end Values

section Runs

variable {σ : Type} {fileSystem : FileSystem σ} {fileReader : FileReader σ}
  {recognize : Recognizer} {classes : IdentifierClasses} {format input type : String}
  {definition contents : List UInt8}
  (definitionServed : fileSystem.Serves fileReader format definition)
  (inputServed : fileSystem.Serves fileReader input contents)

include definitionServed

theorem ConfiguredParser.clean_of_createFromFile {fuel : Nat} {parser : ConfiguredParser σ}
    {added : Option ErrorCollection}
    (created : createFromFile recognize fileSystem fileReader fuel format {} (some {}) =
      .ok (some parser, added)) :
    ∃ main, (recognize definition).Clean main ∧ main.decls ≠ [] ∧
      Mirrors main.decls.reverse parser.definitions := by
  obtain ⟨file, states, opened, inside, contract, -⟩ := definitionServed
  simp only [createFromFile, Option.getD_none, opened] at created
  obtain ⟨⟨success, buffer, next, reported⟩, read, rest⟩ := Checked.bind_eq_ok_iff.mp created
  cases success with
  | false => cases rest
  | true =>
      obtain ⟨rfl, rfl⟩ := contract.readFully_ok inside read
      obtain ⟨⟨made, collected⟩, madeEq, last⟩ := Checked.bind_eq_ok_iff.mp rest
      cases made with
      | none => cases last
      | some made =>
          cases last
          rcases FileParser.createFromDefinition_cases madeEq with
            ⟨infos, same, -⟩ | ⟨-, -, -, infos, same, -⟩ | ⟨main, clean, -, nonEmpty, -⟩
          · cases same
          · cases same
          · obtain ⟨other, tree, mirrors, -⟩ := FileParser.created_spec madeEq
            cases clean.tree.symm.trans tree
            exact ⟨main, clean, nonEmpty, mirrors⟩

include inputServed

/-- Enough fuel gives the same exit, whose output describes the root type. -/
theorem main_run (filled : definition ≠ []) {main : MainContext}
    (clean : (recognize definition).Clean main)
    (nonEmpty : main.decls ≠ []) (bounded : SizesBounded main.decls)
    (identified : Scope.Identified classes main.decls)
    (named : type = "" ∨ type ∈ main.decls.map TypeDecl.name) (hashOrder : HashOrder)
    (formatDouble : Double → String) (memory : Nat → UInt8) :
    ∃ bound infos out, NoErrors infos ∧ Describes contents (Scope.root main.decls type) 0 out ∧
      ∀ fuel ≥ bound, BinaryReader.main recognize fileSystem fileReader hashOrder formatDouble
        memory fuel (.values format input type) =
          .ok { code := 0, out, err := utf8Text (printLines infos) } := by
  obtain ⟨parser, infos, quiet, mirrors, wellFormed, created⟩ :=
    ConfiguredParser.createFromFile_served definitionServed filled clean nonEmpty
  obtain ⟨world, bound, out, after, describes, parsed, dumped⟩ :=
    ConfiguredParser.parsePath_describes inputServed bounded identified mirrors wellFormed named
      hashOrder formatDouble {} memory (some {})
  refine ⟨max bound (definition.length + 1), infos, out, quiet, describes, ?_⟩
  intro fuel enough
  have printed : printErrors (ErrorCollection.addAll {} infos) ++ printErrors {} =
      utf8Text (printLines infos) := by
    rw [printErrors, printErrors, ErrorCollection.addAll_errors, List.nil_append]
    exact List.append_nil _
  rw [BinaryReader.main]
  simp only [CommandLine.parse, created fuel (by omega), Checked.ok_bind, deref_some]
  have cleared : (ErrorCollection.addAll {} infos).clear = {} := rfl
  rw [cleared, parsed]
  simp only [Checked.ok_bind, deref_some, dumped fuel (by omega), printed]
  rfl

end Runs

section Sample

/-- The files of the sample: the definition `type a { byte x; }` and the byte 7. -/
def sampleSystem : MemoryFileSystem :=
  .addAll {} [("f", textBytes "type a \x7b byte x; \x7d"), ("i", [7])]

def sampleRecognizer : Recognizer := fun _ => { result := .ok (oneField none 14) }

theorem sample_clean (text : List UInt8) : (sampleRecognizer text).Clean (oneField none 14) := by
  have unlisted : ∀ list ∈ (none : Option OptionListContext), list.Walkable := nofun
  obtain ⟨complete, numeric⟩ := oneField_complete unlisted 14
  refine ⟨rfl, rfl, complete.walkable numeric, ⟨?_, nofun, by decide, trivial⟩⟩
  exact ⟨⟨[.signedness, .byteOrder], rfl, ⟨nofun, by decide, nofun⟩⟩, nofun, trivial⟩

theorem sample_identified : Scope.Identified ValueTree.asciiClasses (oneField none 14).decls := by
  intro decl membership field fieldMembership
  cases List.mem_singleton.mp membership
  cases List.mem_singleton.mp fieldMembership
  exact ⟨[], 'x', [], rfl, Or.inl rfl, rfl, List.forall_mem_nil _⟩

theorem sample_definition : sampleSystem.fileSystem.Serves MemoryFileReader.fileReader "f"
    (textBytes "type a \x7b byte x; \x7d") :=
  MemoryFileSystem.serves rfl

theorem sample_input : sampleSystem.fileSystem.Serves MemoryFileReader.fileReader "i" [7] :=
  MemoryFileSystem.serves rfl

end Sample

section Written

variable {σ : Type} {fileSystem : FileSystem σ} {fileReader : FileReader σ}
  {recognize : Recognizer} {classes : IdentifierClasses} {format input type : String}
  {definition contents : List UInt8}

/-- The tool exits with 0 exactly for a definition without errors and a type that it has. -/
theorem main_succeeds_iff (definitionServed : fileSystem.Serves fileReader format definition)
    (inputServed : fileSystem.Serves fileReader input contents) (filled : definition ≠ [])
    (usable : ∀ main, (recognize definition).Clean main →
      SizesBounded main.decls ∧ Scope.Identified classes main.decls)
    (hashOrder : HashOrder) (formatDouble : Double → String) (memory : Nat → UInt8) :
    (∃ fuel exit, main recognize fileSystem fileReader hashOrder formatDouble memory fuel
        (.values format input type) = .ok exit ∧ exit.code = 0) ↔
      ∃ main, (recognize definition).Clean main ∧ main.decls ≠ [] ∧
        (type = "" ∨ type ∈ main.decls.map TypeDecl.name) := by
  constructor
  · rintro ⟨fuel, exit, ran, zero⟩
    obtain ⟨⟨parser, created⟩, createdEq, afterCreation⟩ := Checked.bind_eq_ok_iff.mp ran
    obtain ⟨errors, -, afterErrors⟩ := Checked.bind_eq_ok_iff.mp afterCreation
    cases parser with
    | none =>
        cases afterErrors
        cases zero
    | some parser =>
        obtain ⟨main, clean, nonEmpty, mirrors⟩ :=
          ConfiguredParser.clean_of_createFromFile definitionServed createdEq
        refine ⟨main, clean, nonEmpty, ?_⟩
        rcases FileParser.definitionOf_spec mirrors type with
          ⟨-, -, -, -, named⟩ | ⟨missing, -, -⟩
        · exact named
        · obtain ⟨⟨file, parsed⟩, parsedEq, afterParse⟩ := Checked.bind_eq_ok_iff.mp afterErrors
          obtain ⟨reported, -, afterReport⟩ := Checked.bind_eq_ok_iff.mp afterParse
          cases ConfiguredParser.parsePath_missing missing parsedEq
          cases afterReport
          cases zero
  · rintro ⟨main, clean, nonEmpty, named⟩
    obtain ⟨bounded, identified⟩ := usable main clean
    obtain ⟨bound, infos, out, -, -, ran⟩ := main_run definitionServed inputServed filled clean
      nonEmpty bounded identified named hashOrder formatDouble memory
    exact ⟨bound, _, ran bound (Nat.le_refl bound), rfl⟩

theorem main_succeeds_iff_sample :
    (∃ fuel exit, main sampleRecognizer sampleSystem.fileSystem MemoryFileReader.fileReader
        ValueTree.latestFirst (fun _ => "") (fun _ => 0) fuel (.values "f" "i" "a") = .ok exit ∧
        exit.code = 0) ↔
      ∃ main, (sampleRecognizer (textBytes "type a \x7b byte x; \x7d")).Clean main ∧
        main.decls ≠ [] ∧ ("a" = "" ∨ "a" ∈ main.decls.map TypeDecl.name) := by
  have usable : ∀ main, (sampleRecognizer (textBytes "type a \x7b byte x; \x7d")).Clean main →
      SizesBounded main.decls ∧ Scope.Identified ValueTree.asciiClasses main.decls := by
    intro main clean
    cases clean.tree
    exact ⟨oneField_bounded 14, sample_identified⟩
  exact main_succeeds_iff sample_definition sample_input (by decide) usable
    ValueTree.latestFirst (fun _ => "") (fun _ => 0)

/-- The output says of every path what the definition makes of the input file. -/
theorem main_describes (definitionServed : fileSystem.Serves fileReader format definition)
    (inputServed : fileSystem.Serves fileReader input contents) (filled : definition ≠ [])
    {main : MainContext} (clean : (recognize definition).Clean main) (nonEmpty : main.decls ≠ [])
    (bounded : SizesBounded main.decls) (identified : Scope.Identified classes main.decls)
    (named : type = "" ∨ type ∈ main.decls.map TypeDecl.name) (hashOrder : HashOrder)
    (formatDouble : Double → String) (memory : Nat → UInt8) :
    ∃ bound exit text json, exit.code = 0 ∧ exit.out = utf8Text text ∧ Json.Document text json ∧
      (∀ names, Denotes (pathMeaning contents (Scope.root main.decls type) 0 names)
        (jsonAt names json)) ∧
      ∀ fuel ≥ bound, BinaryReader.main recognize fileSystem fileReader hashOrder formatDouble
        memory fuel (.values format input type) = .ok exit := by
  obtain ⟨bound, infos, out, -, ⟨text, json, written, document, denotes⟩, ran⟩ :=
    main_run definitionServed inputServed filled clean nonEmpty bounded identified named
      hashOrder formatDouble memory
  exact ⟨bound, _, text, json, rfl, written, document, denotes, ran⟩

theorem main_describes_sample :
    ∃ bound exit text json, exit.code = 0 ∧ exit.out = utf8Text text ∧ Json.Document text json ∧
      (∀ names, Denotes (pathMeaning [7] (Scope.root (oneField none 14).decls "a") 0 names)
        (jsonAt names json)) ∧
      ∀ fuel ≥ bound, main sampleRecognizer sampleSystem.fileSystem MemoryFileReader.fileReader
        ValueTree.latestFirst (fun _ => "") (fun _ => 0) fuel (.values "f" "i" "a") = .ok exit :=
  main_describes sample_definition sample_input (by decide) (sample_clean _)
    (List.cons_ne_nil _ _) (oneField_bounded 14) sample_identified (Or.inr (by decide))
    ValueTree.latestFirst (fun _ => "") (fun _ => 0)

/-- Values that the input file was written with are in the output, and writing the values of the
output gives the file again, as far as the type goes. -/
theorem main_round_trip (definitionServed : fileSystem.Serves fileReader format definition)
    (inputServed : fileSystem.Serves fileReader input contents) (filled : definition ≠ [])
    {main : MainContext} (clean : (recognize definition).Clean main) (nonEmpty : main.decls ≠ [])
    (bounded : SizesBounded main.decls) (identified : Scope.Identified classes main.decls)
    (named : type = "" ∨ type ∈ main.decls.map TypeDecl.name) (hashOrder : HashOrder)
    (formatDouble : Double → String) (memory : Nat → UInt8) :
    ∃ bound exit text json, exit.code = 0 ∧ exit.out = utf8Text text ∧ Json.Document text json ∧
      (∀ values, Scope.encode (Scope.root main.decls type) values <+: contents →
        Scope.AllFit (Scope.root main.decls type) values →
        ∀ names field format, Scope.leaf (Scope.root main.decls type) names = some (field, format) →
          jsonAt names json = some (.number (values names))) ∧
      (Scope.bytes (Scope.root main.decls type) ≤ contents.length →
        Scope.encode (Scope.root main.decls type) (valuesOf json) =
          contents.take (Scope.bytes (Scope.root main.decls type))) ∧
      ∀ fuel ≥ bound, BinaryReader.main recognize fileSystem fileReader hashOrder formatDouble
        memory fuel (.values format input type) = .ok exit := by
  obtain ⟨parser, -, -, mirrors, -⟩ :=
    ConfiguredParser.createFromFile_served definitionServed filled clean nonEmpty
  have distinct : (Scope.root main.decls type).FieldsDistinct :=
    mirrors.fieldsDistinct.mono (Scope.root_suffix main.decls type)
  obtain ⟨bound, infos, out, -, ⟨text, json, written, document, denotes⟩, ran⟩ :=
    main_run definitionServed inputServed filled clean nonEmpty bounded identified named
      hashOrder formatDouble memory
  refine ⟨bound, _, text, json, rfl, written, document, ?_, ?_, ran⟩
  · intro values encoded allFit names field format leads
    exact jsonAt_of_written denotes encoded allFit leads
  · intro inside
    rw [valuesOf_eq_decoded denotes, Scope.encode_decoded distinct (by omega), List.drop_zero]

theorem main_round_trip_sample :
    ∃ bound exit text json, exit.code = 0 ∧ exit.out = utf8Text text ∧ Json.Document text json ∧
      (∀ values, Scope.encode (Scope.root (oneField none 14).decls "") values <+: [7] →
        Scope.AllFit (Scope.root (oneField none 14).decls "") values →
        ∀ names field format,
          Scope.leaf (Scope.root (oneField none 14).decls "") names = some (field, format) →
          jsonAt names json = some (.number (values names))) ∧
      (Scope.bytes (Scope.root (oneField none 14).decls "") ≤ [7].length →
        Scope.encode (Scope.root (oneField none 14).decls "") (valuesOf json) =
          List.take (Scope.bytes (Scope.root (oneField none 14).decls "")) [7]) ∧
      ∀ fuel ≥ bound, main sampleRecognizer sampleSystem.fileSystem MemoryFileReader.fileReader
        ValueTree.latestFirst (fun _ => "") (fun _ => 0) fuel (.values "f" "i" "") = .ok exit :=
  main_round_trip sample_definition sample_input (by decide) (sample_clean _)
    (List.cons_ne_nil _ _) (oneField_bounded 14) sample_identified (Or.inl rfl)
    ValueTree.latestFirst (fun _ => "") (fun _ => 0)

end Written

end BinaryReader

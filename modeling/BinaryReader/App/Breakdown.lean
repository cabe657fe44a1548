import BinaryReader.App.Output
import BinaryReader.Public.FileParser.Breakdown
import BinaryReader.Public.FileSystem.Streams
import BinaryReader.Public.Json.Breakdown

/-!
# The tool over a disk that fails

Reading the definition or the input may fail at any time.  The tool then exits with
1 and writes nothing, or it writes an object in which every number is the one that
its path means.
-/

namespace BinaryReader

open Library BufferedFileReader

section Stages

variable {σ : Type} {fileSystem : FileSystem σ} {fileReader : FileReader σ}
  {recognize : Recognizer} {classes : IdentifierClasses}

theorem ConfiguredParser.createFromFile_provided {format : String} {definition : List UInt8}
    (provided : fileSystem.Provides fileReader format definition) (filled : definition ≠ [])
    {main : MainContext} (clean : (recognize definition).Clean main)
    (nonEmpty : main.decls ≠ []) :
    ∃ (parser : FileParser), Mirrors main.decls.reverse parser.definitions ∧
      (∀ type ∈ parser.definitions, type.WellFormed) ∧
      ∀ fuel > definition.length, ∃ made added,
        createFromFile recognize fileSystem fileReader fuel format {} (some {}) =
          .ok (made, some added) ∧
        (made = none ∨ made = some { parser with fileSystem }) := by
  obtain ⟨parser, infos, -, mirrors, wellFormed, made⟩ :=
    createFromDefinition_clean clean nonEmpty fileSystem format
  refine ⟨parser, mirrors, wellFormed, ?_⟩
  intro fuel enough
  obtain ⟨τ, inner, embed, broken, file, embeds, breaks, opened, sized⟩ := provided
  obtain ⟨success, bytes, next, added, read, whole⟩ :=
    breaks.fallible.readFully sized filled enough file [] {}
  have embedded := FileReader.readFully_embed embeds fuel file [] (some {})
  rw [read] at embedded
  cases success with
  | false =>
      refine ⟨none, added, ?_, Or.inl rfl⟩
      simp only [createFromFile, Option.getD_none, opened, embedded]
      rfl
  | true =>
      obtain ⟨rfl, rfl⟩ := whole rfl
      refine ⟨_, ErrorCollection.addAll {} infos, ?_, Or.inr rfl⟩
      simp only [createFromFile, Option.getD_none, opened, embedded]
      exact made

/-- The root object is written without other numbers than the ones that its paths mean, if
the reader gets behind it. -/
theorem ConfiguredParser.parsePath_reveals {input : String} {contents : List UInt8}
    (provided : fileSystem.Provides fileReader input contents) {decls : List TypeDecl}
    (bounded : SizesBounded decls) (identified : Scope.Identified classes decls)
    {parser : FileParser} (mirrors : Mirrors decls.reverse parser.definitions)
    (wellFormed : ∀ type ∈ parser.definitions, type.WellFormed) (type : String)
    (hashOrder : HashOrder) (formatDouble : Double → String) (opts : JsonOptions)
    (memory : Nat → UInt8) (errors : ErrorCollection) :
    ∃ made added, parsePath fileReader { parser with fileSystem } memory input type (some errors) =
        .ok (made, some added) ∧
      (made = none ∨ ∃ world bound out after, made = some (0, world) ∧
        Reveals contents (Scope.root decls type) 0 out ∧
        ∀ fuel ≥ bound, World.dumpJsonObject fileReader hashOrder opts
          (World.dumpJsonValue fileReader hashOrder formatDouble opts fuel) [] world 0 0 =
            .ok (out, after)) := by
  obtain ⟨τ, inner, embed, broken, file, embeds, breaks, opened, -⟩ := provided
  have parsed := FileParser.parseFile_mapReader embeds parser file memory input type (some errors)
  rcases FileParser.definitionOf_spec mirrors type with
    ⟨root, found, membership, represents, -⟩ | ⟨missing, -, -⟩
  · obtain ⟨returned, world, added, made, -, steady, objects⟩ := FileParser.parseFile_breaks breaks
      found (wellFormed root membership) file memory input errors
    rw [made] at parsed
    cases returned with
    | false =>
        refine ⟨none, added, ?_, Or.inl rfl⟩
        rw [parsePath]
        dsimp only
        rw [opened]
        exact parsed
    | true =>
        have objectFound : world.objects[0]? = some (.parse root .zero) := by
          rw [objects]
          rfl
        have suffix_ := Scope.root_suffix decls type
        have rootIdentified : (Scope.root decls type).Identified classes :=
          identified.mono fun decl declared => List.mem_reverse.mp (suffix_.subset declared)
        obtain ⟨bound, out, after, reveals, dumps⟩ := dumpJsonObject_reveals breaks hashOrder
          formatDouble opts 0 rootIdentified steady objectFound (placed_root represents bounded)
        refine ⟨some (0, world.mapReader embed), added, ?_, Or.inr ⟨world.mapReader embed, bound,
          out, after.mapReader embed, rfl, reveals, ?_⟩⟩
        · rw [parsePath]
          dsimp only
          rw [opened]
          exact parsed
        · intro fuel enough
          refine (World.dumpJsonObject_mapReader embeds fuel [] world 0 0).trans ?_
          rw [dumps fuel enough]
          rfl
  · refine ⟨none, errors.add (.ofArguments { filePath := input } .unknownType [type] .error), ?_,
      Or.inl rfl⟩
    rw [parsePath]
    dsimp only
    rw [opened]
    dsimp only
    rw [FileParser.parseFile, missing]
    rfl

end Stages

/-- Whatever reads of the two files fail, the tool exits with 1 and writes nothing, or it
writes an object whose numbers are all what the definition means. -/
theorem main_reveals {σ : Type} {fileSystem : FileSystem σ} {fileReader : FileReader σ}
    {recognize : Recognizer} {classes : IdentifierClasses} {format input type : String}
    {definition contents : List UInt8}
    (definitionProvided : fileSystem.Provides fileReader format definition)
    (inputProvided : fileSystem.Provides fileReader input contents) (filled : definition ≠ [])
    {main : MainContext} (clean : (recognize definition).Clean main) (nonEmpty : main.decls ≠ [])
    (bounded : SizesBounded main.decls) (identified : Scope.Identified classes main.decls)
    (hashOrder : HashOrder) (formatDouble : Double → String) (memory : Nat → UInt8) :
    ∃ bound, ∀ fuel ≥ bound, ∃ exit,
      BinaryReader.main recognize fileSystem fileReader hashOrder formatDouble memory fuel
        (.values format input type) = .ok exit ∧
      (exit.code = 1 ∧ exit.out = [] ∨
        exit.code = 0 ∧ Reveals contents (Scope.root main.decls type) 0 exit.out) := by
  obtain ⟨parser, mirrors, wellFormed, created⟩ :=
    ConfiguredParser.createFromFile_provided definitionProvided filled clean nonEmpty
  obtain ⟨file, reported, parsed, shown⟩ := ConfiguredParser.parsePath_reveals inputProvided
    bounded identified mirrors wellFormed type hashOrder formatDouble {} memory {}
  have dumped : ∃ bound, ∀ fuel ≥ bound, file = none ∨ ∃ world out after,
      file = some (0, world) ∧ Reveals contents (Scope.root main.decls type) 0 out ∧
      World.dumpJsonObject fileReader hashOrder {}
        (World.dumpJsonValue fileReader hashOrder formatDouble {} fuel) [] world 0 0 =
          .ok (out, after) := by
    rcases shown with missing | ⟨world, bound, out, after, made, reveals, dumps⟩
    · exact ⟨0, fun _ _ => Or.inl missing⟩
    · exact ⟨bound, fun fuel enough => Or.inr ⟨world, out, after, made, reveals, dumps fuel enough⟩⟩
  obtain ⟨bound, dumps⟩ := dumped
  refine ⟨max bound (definition.length + 1), ?_⟩
  intro fuel enough
  obtain ⟨made, added, createdEq, outcome⟩ := created fuel (by omega)
  rw [BinaryReader.main]
  simp only [CommandLine.parse, createdEq, Checked.ok_bind, deref_some]
  rcases outcome with rfl | rfl
  · exact ⟨_, rfl, Or.inl ⟨rfl, rfl⟩⟩
  · have cleared : added.clear = {} := rfl
    dsimp only
    rw [cleared, parsed]
    simp only [Checked.ok_bind, deref_some]
    rcases dumps fuel (by omega) with rfl | ⟨world, out, after, rfl, reveals, dump⟩
    · exact ⟨_, rfl, Or.inl ⟨rfl, rfl⟩⟩
    · dsimp only
      rw [dump]
      exact ⟨_, rfl, Or.inr ⟨rfl, reveals⟩⟩

/-- The files of the sample on a disk that fails before the input is read. -/
def sampleDisk : Stdio WornStream :=
  wornDisk [("f", textBytes "type a \x7b byte x; \x7d", 2), ("i", [7], 0)]

theorem main_reveals_sample :
    ∃ bound, ∀ fuel ≥ bound, ∃ exit,
      BinaryReader.main sampleRecognizer sampleDisk.fStreamFileSystem sampleDisk.fileFileReader
        ⟨id, List.Perm.refl⟩ (fun _ => "") (fun _ => 3) fuel (.values "f" "i" "a") = .ok exit ∧
      (exit.code = 1 ∧ exit.out = [] ∨
        exit.code = 0 ∧ Reveals [7] (Scope.root (oneField none 14).decls "a") 0 exit.out) :=
  main_reveals (wornDisk_provides rfl) (wornDisk_provides rfl) (by decide) (sample_clean _)
    (List.cons_ne_nil _ _) (oneField_bounded 14) sample_identified _ _ _

end BinaryReader

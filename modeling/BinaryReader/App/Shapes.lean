import BinaryReader.App.Changes
import BinaryReader.Public.FileParser.Shapes

/-!
# Output and the shape of types

What the tool writes depends on a definition only through the shape of the type that it
is asked for.  Names of types, expected values, places in the definition and options that
say what is assumed anyway do not matter, whatever the reader of the input does.
-/

namespace BinaryReader

variable {σ : Type}

namespace ConfiguredParser

variable {recognize : Recognizer} {fileSystem : FileSystem σ} {fileReader : FileReader σ}

theorem fileSystem_of_createFromFile {fuel : Nat} {path : String} {parser : ConfiguredParser σ}
    {errors added : Option ErrorCollection}
    (created : createFromFile recognize fileSystem fileReader fuel path {} errors =
      .ok (some parser, added)) : parser.fileSystem = fileSystem := by
  rw [createFromFile] at created
  dsimp only [Option.getD_none] at created
  rcases opened : fileSystem.openFile path with _ | file
  · rw [opened] at created
    cases created
  · rw [opened] at created
    obtain ⟨⟨read, buffer, next, reported⟩, -, rest⟩ := Checked.bind_eq_ok_iff.mp created
    cases read with
    | false => cases rest
    | true =>
        obtain ⟨⟨made, collected⟩, -, last⟩ := Checked.bind_eq_ok_iff.mp rest
        cases made with
        | none => cases last
        | some made =>
            cases last
            rfl

theorem parsePath_shape {first second : ConfiguredParser σ} {type other : String}
    {firstRoot secondRoot : TypeDefinition} (shared : first.fileSystem = second.fileSystem)
    (firstFound : first.definitionOf type = some firstRoot)
    (secondFound : second.definitionOf other = some secondRoot)
    (same : firstRoot.rename .shape = secondRoot.rename .shape) (memory : Nat → UInt8)
    (path : String) (errors : Option ErrorCollection) :
    (first.parsePath fileReader memory path type errors).map
        (FileParser.relocateRoot .shape id) =
      (second.parsePath fileReader memory path other errors).map
        (FileParser.relocateRoot .shape id) := by
  rw [parsePath, parsePath, shared]
  rcases second.fileSystem.openFile path with _ | file
  · rfl
  · dsimp only
    rw [FileParser.parseFile_eq_readRoot firstFound, FileParser.parseFile_eq_readRoot secondFound]
    exact FileParser.readRoot_shape same file memory errors

end ConfiguredParser

section Written

variable (fileReader : FileReader σ) (hashOrder : HashOrder) (formatDouble : Double → String)
  (opts : JsonOptions) (fuel : Nat)

def writeRoot (made : Option (ObjectId × World σ) × Option ErrorCollection) :
    Checked (Nat × List UInt8) := do
  let _ ← deref made.2
  match made.1 with
  | none => return (1, [])
  | some (root, world) => do
      let (out, _) ← World.dumpJsonObject fileReader hashOrder opts
        (World.dumpJsonValue fileReader hashOrder formatDouble opts fuel) [] world root 0
      return (0, out)

variable {fileReader}

theorem writeRoot_carry {τ : Type} {outer : FileReader τ} {embed : σ → τ} (change : Renaming)
    (carries : fileReader.Carries outer embed change.place)
    (made : Option (ObjectId × World σ) × Option ErrorCollection) :
    writeRoot outer hashOrder formatDouble opts fuel (FileParser.relocateRoot change embed made) =
      writeRoot fileReader hashOrder formatDouble opts fuel made := by
  obtain ⟨root, _ | errors⟩ := made
  · rfl
  · rcases root with _ | ⟨root, world⟩
    · rfl
    · simp only [writeRoot, FileParser.relocateRoot, Prod.map, Option.map_some, deref_some,
        Checked.ok_bind, World.dump_carry change carries, Checked.bind_map]
      rfl

theorem main_eq_writeRoot {recognize : Recognizer} {fileSystem : FileSystem σ}
    {format : String} {parser : ConfiguredParser σ} {errors : ErrorCollection}
    (created : ConfiguredParser.createFromFile recognize fileSystem fileReader fuel format {}
      (some {}) = .ok (some parser, some errors)) (memory : Nat → UInt8) (input type : String) :
    (main recognize fileSystem fileReader hashOrder formatDouble memory fuel
        (.values format input type)).map (fun exit => (exit.code, exit.out)) =
      parser.parsePath fileReader memory input type (some {}) >>=
        writeRoot fileReader hashOrder formatDouble {} fuel := by
  have cleared : errors.clear = {} := rfl
  simp only [main, CommandLine.parse, created, Checked.ok_bind, deref_some, cleared,
    Checked.map_bind]
  congr 1
  funext made
  obtain ⟨_ | ⟨root, world⟩, _ | reported⟩ := made
  · rfl
  · rfl
  · rfl
  · simp only [writeRoot, deref_some, Checked.ok_bind, Checked.map_bind]
    rfl

end Written

/-- What the tool writes, and whether it succeeds, depends on the shape of the type that the
definition file means, whatever the reader of the input file does. -/
theorem main_shape {recognize : Recognizer} {fileSystem : FileSystem σ}
    {fileReader : FileReader σ} {fuel : Nat} {first second : String}
    {firstParser secondParser : ConfiguredParser σ} {firstErrors secondErrors : ErrorCollection}
    (firstCreated : ConfiguredParser.createFromFile recognize fileSystem fileReader fuel first {}
      (some {}) = .ok (some firstParser, some firstErrors))
    (secondCreated : ConfiguredParser.createFromFile recognize fileSystem fileReader fuel second {}
      (some {}) = .ok (some secondParser, some secondErrors))
    {type other : String} {firstRoot secondRoot : TypeDefinition}
    (firstFound : firstParser.definitionOf type = some firstRoot)
    (secondFound : secondParser.definitionOf other = some secondRoot)
    (same : firstRoot.rename .shape = secondRoot.rename .shape) (hashOrder : HashOrder)
    (formatDouble : Double → String) (memory : Nat → UInt8) (input : String) :
    (main recognize fileSystem fileReader hashOrder formatDouble memory fuel
        (.values first input type)).map (fun exit => (exit.code, exit.out)) =
      (main recognize fileSystem fileReader hashOrder formatDouble memory fuel
        (.values second input other)).map (fun exit => (exit.code, exit.out)) := by
  have carries := fileReader.carries_relocate Renaming.shape.place
  have shared : firstParser.fileSystem = secondParser.fileSystem := by
    rw [ConfiguredParser.fileSystem_of_createFromFile firstCreated,
      ConfiguredParser.fileSystem_of_createFromFile secondCreated]
  rw [main_eq_writeRoot hashOrder formatDouble fuel firstCreated,
    main_eq_writeRoot hashOrder formatDouble fuel secondCreated]
  exact Checked.bind_congr_seen
    (ConfiguredParser.parsePath_shape shared firstFound secondFound same memory input (some {}))
    (writeRoot_carry hashOrder formatDouble {} fuel .shape carries)

theorem main_shape_nested :
    let one := textBytes "type a \x7b byte x; \x7d"
    let two := textBytes "type a \x7b byte x; \x7d type b \x7b a y; byte z; \x7d"
    let recognize : Recognizer := fun text =>
      { result := .ok (if text = two then nestedTypes else oneField none 14) }
    let system : MemoryFileSystem := .addAll {} [("f", one), ("l", two), ("i", [7])]
    (main recognize system.fileSystem MemoryFileReader.fileReader ValueTree.latestFirst
        (fun _ => "") (fun _ => 0) 100 (.values "f" "i" "")).map
          (fun exit => (exit.code, exit.out)) =
      (main recognize system.fileSystem MemoryFileReader.fileReader ValueTree.latestFirst
        (fun _ => "") (fun _ => 0) 100 (.values "l" "i" "a")).map
          (fun exit => (exit.code, exit.out)) := by
  intro one two recognize system
  have created : ∃ parser errors, ConfiguredParser.createFromFile recognize system.fileSystem
      MemoryFileReader.fileReader 100 "f" {} (some {}) = .ok (some parser, some errors) ∧
      ∃ root, parser.definitionOf "" = some root ∧
        root.rename .shape = oneByte.rename .shape := ⟨_, _, rfl, _, rfl, rfl⟩
  have longerCreated : ∃ parser errors, ConfiguredParser.createFromFile recognize system.fileSystem
      MemoryFileReader.fileReader 100 "l" {} (some {}) = .ok (some parser, some errors) ∧
      ∃ root, parser.definitionOf "a" = some root ∧
        root.rename .shape = oneByte.rename .shape := ⟨_, _, rfl, _, rfl, rfl⟩
  obtain ⟨parser, errors, createdEq, root, found, shape⟩ := created
  obtain ⟨longer, longerErrors, longerEq, longerRoot, longerFound, longerShape⟩ := longerCreated
  exact main_shape createdEq longerEq found longerFound (shape.trans longerShape.symm)
    ValueTree.latestFirst (fun _ => "") (fun _ => 0) "i"

end BinaryReader

import BinaryReader.Public.Error.Printing
import BinaryReader.Public.FileParser.Settling
import BinaryReader.Public.Json.ObjectTree

/-!
# The command line tool

`main` reads a definition and a binary file and writes the root object as JSON.
The library that reads the arguments is a parameter: it hands out the values,
throws, or ends the program itself.
-/

namespace BinaryReader

open Library.Unicode

structure Exit where
  code : Nat
  out : List UInt8 := []
  err : List UInt8 := []
  deriving DecidableEq, Repr

inductive Arguments where
  | values (format input type : String)
  | thrown (error argId : String)
  | ended (exit : Exit)

structure CommandLine where
  definitionPath : String := ""
  binaryPath : String := ""
  typeName : String := ""
  jsonOptions : JsonOptions := {}

/-- `CommandLine::Parse` with what it writes to the standard output, unless it ends the program. -/
def CommandLine.parse (self : CommandLine) :
    Arguments → Except Exit (Bool × CommandLine × List UInt8)
  | .values format input type =>
      .ok (true, { self with definitionPath := format, binaryPath := input, typeName := type }, [])
  | .thrown error argId =>
      .ok (false, self, written ("FATAL ERROR: " ++ error ++ " for arg " ++ argId ++ "\n"))
  | .ended exit => .error exit

def printErrors (errors : ErrorCollection) : List UInt8 := utf8Text (printLines errors.errors)

section Main

variable {σ : Type} (recognize : Recognizer) (fileSystem : FileSystem σ)
  (fileReader : FileReader σ) (hashOrder : HashOrder) (formatDouble : Double → String)
  (memory : Nat → UInt8) (fuel : Nat)

/-- `main`. `fileSystem` is the default file system. The fuel bounds the reads of the
definition file and the nesting of the output. -/
def main (arguments : Arguments) : Checked Exit :=
  match CommandLine.parse {} arguments with
  | .error exit => .ok exit
  | .ok (false, _, out) => .ok { code := 1, out }
  | .ok (true, cmd, out) => do
      let (parser, errors) ← ConfiguredParser.createFromFile recognize fileSystem fileReader fuel
        cmd.definitionPath {} (some {})
      let errors ← deref errors
      let err := printErrors errors
      match parser with
      | none => return { code := 1, out, err }
      | some parser => do
          let (file, errors) ← parser.parsePath fileReader memory cmd.binaryPath cmd.typeName
            (some errors.clear)
          let errors ← deref errors
          let err := err ++ printErrors errors
          match file with
          | none => return { code := 1, out, err }
          | some (file, world) => do
              let (out, _) ← World.dumpJsonObject fileReader hashOrder cmd.jsonOptions
                (World.dumpJsonValue fileReader hashOrder formatDouble cmd.jsonOptions fuel)
                out world file 0
              return { code := 0, out, err }

/-- `ParseFile` of the parser for a definition file gives an object, with the world behind it. -/
def Parses (format input type : String) (file : ObjectId) (world : World σ) : Prop :=
  ∃ parser created errors parsed,
    ConfiguredParser.createFromFile recognize fileSystem fileReader fuel format {} (some {}) =
      .ok (some parser, created) ∧
    parser.parsePath fileReader memory input type errors = .ok (some (file, world), parsed)

end Main

section Exits

variable {σ : Type} {recognize : Recognizer} {fileSystem : FileSystem σ}
  {fileReader : FileReader σ} {hashOrder : HashOrder} {formatDouble : Double → String}
  {memory : Nat → UInt8} {fuel : Nat}

/-- The tool exits with 0 and writes what the parsed object shows, or exits with 1, writes
nothing and says why with an error of level `Error`. -/
theorem main_exits (reports : fileReader.ReportsErrors) {format input type : String} {exit : Exit}
    (ran : main recognize fileSystem fileReader hashOrder formatDouble memory fuel
      (.values format input type) = .ok exit) :
    ∃ infos, exit.err = utf8Text (printLines infos) ∧
      (exit.code = 0 ∧ NoErrors infos ∧ (∃ file world fields after,
          Parses recognize fileSystem fileReader memory fuel format input type file world ∧
          ObjectTree.Shows fileReader hashOrder (.node fields) world (.object file) after ∧
          exit.out = ObjectTree.text formatDouble {} 0 (.node fields) 0) ∨
        exit.code = 1 ∧ SomeError infos ∧ exit.out = []) := by
  obtain ⟨⟨parser, created⟩, createdEq, afterCreation⟩ := Checked.bind_eq_ok_iff.mp ran
  obtain ⟨early, rfl, unparsed_iff⟩ :=
    ConfiguredParser.createFromFile_settles reports rfl fuel format _ _ createdEq
  cases parser with
  | none =>
      cases afterCreation
      refine ⟨early, ?_, Or.inr ⟨rfl, unparsed_iff.mp rfl, rfl⟩⟩
      rw [printErrors, ErrorCollection.addAll_errors, List.nil_append]
  | some parser =>
      have quiet : NoErrors early := by
        by_contra some
        cases unparsed_iff.mpr (not_noErrors_iff.mp some)
      dsimp only at afterCreation
      rw [deref_some, Checked.ok_bind] at afterCreation
      obtain ⟨⟨file, parsed⟩, parsedEq, afterParse⟩ := Checked.bind_eq_ok_iff.mp afterCreation
      obtain ⟨late, rfl, unread_iff⟩ :=
        parser.parsePath_settles reports memory input type _ _ _ parsedEq
      have printed : printErrors (ErrorCollection.addAll {} early) ++
          printErrors ((ErrorCollection.addAll {} early).clear.addAll late) =
            utf8Text (printLines (early ++ late)) := by
        rw [printErrors, printErrors, ErrorCollection.addAll_errors, ErrorCollection.addAll_errors,
          ErrorCollection.clear, List.nil_append, List.nil_append, printLines, printLines,
          printLines, List.flatMap_append, utf8Text_append]
      dsimp only at afterParse
      rw [deref_some, Checked.ok_bind] at afterParse
      cases file with
      | none =>
          cases afterParse
          obtain ⟨info, membership, level⟩ := unread_iff.mp rfl
          exact ⟨early ++ late, printed,
            Or.inr ⟨rfl, ⟨info, List.mem_append_right _ membership, level⟩, rfl⟩⟩
      | some root =>
          obtain ⟨file, world⟩ := root
          have calm : NoErrors late := by
            by_contra some
            cases unread_iff.mpr (not_noErrors_iff.mp some)
          obtain ⟨⟨out, last⟩, dumped, done⟩ := Checked.bind_eq_ok_iff.mp afterParse
          cases done
          have silent : NoErrors (early ++ late) := (noErrors_append early late).mpr ⟨quiet, calm⟩
          obtain ⟨fields, shows, text⟩ := ObjectTree.text_of_dumpJsonObject dumped
          have parses : Parses recognize fileSystem fileReader memory fuel format input type file
              world :=
            ⟨parser, _, _, _, createdEq, parsedEq⟩
          exact ⟨early ++ late, printed,
            Or.inl ⟨rfl, silent, file, world, fields, last, parses, shows, text⟩⟩

theorem main_exits_broken :
    let info := brokenDisk.ioError { path := "f", fs := true, size := 10 } true
    let exit : Exit := { code := 1, err := printErrors (ErrorCollection.add {} info) }
    main (fun _ => { result := .error "" }) brokenDisk.fStreamFileSystem
        brokenDisk.fileFileReader ⟨id, List.Perm.refl⟩ (fun _ => "") (fun _ => 0) 1
        (.values "f" "i" "") = .ok exit ∧
      ∃ infos, exit.err = utf8Text (printLines infos) ∧
        (exit.code = 0 ∧ NoErrors infos ∧ (∃ file world fields after,
            Parses (fun _ => { result := .error "" }) brokenDisk.fStreamFileSystem
              brokenDisk.fileFileReader (fun _ => 0) 1 "f" "i" "" file world ∧
            ObjectTree.Shows brokenDisk.fileFileReader ⟨id, List.Perm.refl⟩ (.node fields) world
              (.object file) after ∧
            exit.out = ObjectTree.text (fun _ => "") {} 0 (.node fields) 0) ∨
          exit.code = 1 ∧ SomeError infos ∧ exit.out = []) := by
  intro info exit
  have ran : main (fun _ => { result := .error "" }) brokenDisk.fStreamFileSystem
      brokenDisk.fileFileReader ⟨id, List.Perm.refl⟩ (fun _ => "") (fun _ => 0) 1
      (.values "f" "i" "") = .ok exit := rfl
  exact ⟨ran, main_exits brokenDisk.fileFileReader_reportsErrors ran⟩

end Exits

end BinaryReader

import BinaryReader.Public.FileParser.Requests
import BinaryReader.Public.FileSystem.Stdio

/-!
# Requests without a collection

A request may come without an error collection.  It then makes one of its own,
but not before it has read a definition file.
-/

namespace BinaryReader

section Calls

variable {α β : Type}

/-- A call without a collection makes what it makes with a fresh one, and ends
abnormally only if that does. -/
structure Indifferent
    (call : Option ErrorCollection → Checked (Option α × Option ErrorCollection)) : Prop where
  makes : ∀ made, (∃ added, call none = .ok (some made, added)) ↔
    ∃ added, call (some {}) = .ok (some made, added)
  faults : ∀ fault, call none = .error fault ↔ call (some {}) = .error fault

/-- Two calls that differ at most in the collection they give back. -/
def Agree (quiet fresh : Checked (Option α × Option ErrorCollection)) : Prop :=
  quiet.map Prod.fst = fresh.map Prod.fst

theorem Agree.bind {quiet fresh : Checked (Option α × Option ErrorCollection)}
    {rest : Option α × Option ErrorCollection → Checked (Option β × Option ErrorCollection)}
    (agree : Agree quiet fresh)
    (pure : ∀ made added collected, Agree (rest (made, added)) (rest (made, collected))) :
    Agree (quiet >>= rest) (fresh >>= rest) := by
  rcases quiet with fault | ⟨made, added⟩ <;> rcases fresh with other | ⟨same, collected⟩ <;>
    cases agree
  · rfl
  · exact pure made added collected

variable {call : Option ErrorCollection → Checked (Option α × Option ErrorCollection)}

theorem Agree.indifferent (agree : Agree (call none) (call (some {}))) : Indifferent call := by
  rw [Agree] at agree
  rcases quiet : call none with fault | ⟨made, added⟩ <;>
    rcases fresh : call (some {}) with other | ⟨same, collected⟩ <;>
    rw [quiet, fresh] at agree <;> cases agree
  · exact ⟨by simp [quiet, fresh], by simp [quiet, fresh]⟩
  · exact ⟨by simp [quiet, fresh], by simp [quiet, fresh]⟩

end Calls

section Agreement

variable {recognize : Recognizer} {definition : List UInt8} {path : String}

theorem FileParser.createFromDefinition_agree :
    Agree (createFromDefinition recognize definition path none)
      (createFromDefinition recognize definition path (some {})) := by
  simp only [createFromDefinition, Option.getD_none, Option.getD_some]
  rcases parseDefinitionFile recognize path definition [] {} with
    fault | ⟨parsed, definitions, reported⟩
  · rfl
  · simp only [Checked.ok_bind]
    split
    · rfl
    · split
      · rfl
      · rfl

variable {σ : Type} {fileReader : FileReader σ}

theorem FileParser.parseFile_agree (self : FileParser) (file : σ) (memory : Nat → UInt8)
    (type : String) :
    Agree (self.parseFile fileReader file memory path type none)
      (self.parseFile fileReader file memory path type (some {})) := by
  simp only [parseFile, Option.getD_none, Option.getD_some]
  rcases self.definitionOf type with _ | definition
  · rfl
  · dsimp only
    rcases World.readObject fileReader definition { reader := { reader := file, buffer := memory } }
      .null {} with fault | ⟨success, value, world, reported⟩
    · rfl
    · simp only [Checked.ok_bind]
      split
      · cases value <;> rfl
      · rfl

variable {defaultFileSystem : FileSystem σ} {options : FileParserOptions σ}

namespace ConfiguredParser

theorem createFromDefinition_agree :
    Agree (createFromDefinition recognize defaultFileSystem definition path options none)
      (createFromDefinition recognize defaultFileSystem definition path options (some {})) :=
  FileParser.createFromDefinition_agree.bind fun _ _ _ => rfl

theorem createFromFile_agree {fuel : Nat}
    (readable : ∀ file info,
      (options.fileSystem.getD defaultFileSystem).openFile path = some file →
      ¬ fileReader.ReadsFully file (.error info)) :
    Agree (createFromFile recognize defaultFileSystem fileReader fuel path options none)
      (createFromFile recognize defaultFileSystem fileReader fuel path options (some {})) := by
  simp only [createFromFile]
  rcases opened : (options.fileSystem.getD defaultFileSystem).openFile path with _ | file
  · rfl
  · dsimp only
    rcases fileReader.readFully_spec fuel file with
      ⟨outcome, next, reads, handed⟩ | ⟨fault, faulty⟩
    · rw [handed, handed]
      cases outcome with
      | error info => exact absurd reads (readable file info opened)
      | ok bytes => exact createFromDefinition_agree
    · rw [faulty, faulty]
      rfl

end ConfiguredParser

end Agreement

namespace Request

variable {σ : Type} (recognize : Recognizer) (defaultFileSystem : FileSystem σ)
  (fileReader : FileReader σ) (memory : Nat → UInt8)

/-- A request does without a collection exactly if reading the definition file it opens
does not fail. -/
theorem indifferent_iff (request : Request σ) :
    (∀ fuel, Indifferent (request.call recognize defaultFileSystem fileReader memory fuel)) ↔
      ¬ ∃ file info, request.Opens defaultFileSystem file ∧
        fileReader.ReadsFully file (.error info) := by
  constructor
  · rintro indifferent ⟨file, info, ⟨path, options, rfl, opened⟩, reads⟩
    obtain ⟨fuel, next, handed⟩ := reads.readFully
    have quiet : call recognize defaultFileSystem fileReader memory fuel
        (.createFromFile path options) none = .error .nullPointer := by
      simp only [call, ConfiguredParser.createFromFile, opened, handed]
      rfl
    have fresh := ((indifferent fuel).faults .nullPointer).mp quiet
    simp only [call, ConfiguredParser.createFromFile, opened, handed] at fresh
    cases fresh
  · intro readable fuel
    apply Agree.indifferent
    cases request with
    | createFromFile path options =>
        apply ConfiguredParser.createFromFile_agree
        intro file info opened fails
        exact readable ⟨file, info, ⟨path, options, rfl, opened⟩, fails⟩
    | createFromDefinition definition path options =>
        exact ConfiguredParser.createFromDefinition_agree
    | parsePath parser path type =>
        simp only [call, ConfiguredParser.parsePath]
        rcases parser.fileSystem.openFile path with _ | file
        · rfl
        · exact parser.parseFile_agree file memory type
    | parseFile parser file path type => exact parser.parseFile_agree file memory type

/-- The reader of the default file system adds its error to a null collection. -/
theorem not_indifferent :
    let request : Request (FileFileReader Bool) := .createFromFile "a.def" {}
    let create := request.call (fun _ => { result := .ok ⟨[]⟩ }) brokenDisk.fStreamFileSystem
      brokenDisk.fileFileReader (fun _ => 0) 1
    create none = .error .nullPointer ∧
      create (some {}) = .ok (none, some (ErrorCollection.add {}
        (.ofArguments { filePath := "a.def" } .ioError ["5"] .error))) ∧
      ¬ Indifferent create := by
  refine ⟨rfl, rfl, ?_⟩
  intro indifferent
  cases (indifferent.faults .nullPointer).mp rfl

end Request

end BinaryReader

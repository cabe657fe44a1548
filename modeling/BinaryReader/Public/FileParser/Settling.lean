import BinaryReader.Public.FileParser.Explanations

/-!
# Requests that settle

With a collection that has no errors yet, a request makes something exactly if it
does not add an error of level `Error`.  What it adds then are warnings.
-/

namespace BinaryReader

section Calls

variable {α : Type}

/-- A call makes something exactly if it does not add an error of level `Error`. -/
def Settles (call : Option ErrorCollection → Checked (Option α × Option ErrorCollection))
    (errors : ErrorCollection) : Prop :=
  ∀ made added, call (some errors) = .ok (made, added) →
    ∃ infos, added = some (errors.addAll infos) ∧ (made = none ↔ SomeError infos)

end Calls

theorem parseDefinitionFile_ok {recognize : Recognizer} {path : String} {buffer : List UInt8}
    {defs types : List TypeDefinition} {errors reported : ErrorCollection}
    (parsed : parseDefinitionFile recognize path buffer defs errors = .ok (true, types, reported)) :
    reported.hasErrors = false := by
  obtain ⟨notified, -, rest⟩ := Checked.bind_eq_ok_iff.mp parsed
  rcases tree : (recognize buffer).result with what | main
  · rw [tree] at rest
    cases rest
  · rw [tree] at rest
    obtain ⟨visitor, -, last⟩ := Checked.bind_eq_ok_iff.mp rest
    obtain ⟨silent, same⟩ := Prod.mk.inj (Except.ok.inj last)
    rw [← (Prod.mk.inj same).2]
    simpa using silent

section Objects

variable {σ : Type} {fileReader : FileReader σ}

theorem FileObject.reparseLoop_ok {statements : List Statement} {offset : Size}
    {self object : FileObject} {errors added : ErrorCollection}
    (reparsed : reparseLoop statements offset self errors = .ok (true, object, added)) :
    added = errors := by
  induction statements generalizing offset self with
  | nil =>
      cases reparsed
      rfl
  | cons statement statements inductionHypothesis =>
      cases statement with
      | definition type => cases reparsed
      | field field =>
          obtain ⟨type, -, rest⟩ := Checked.bind_eq_ok_iff.mp reparsed
          rcases sized : type.staticSize with _ | size
          · rw [sized] at rest
            cases rest
          · rw [sized] at rest
            exact inductionHypothesis rest

theorem World.readObject_ok {type : TypeDefinition} {self world : World σ} {result value : Value}
    {errors added : ErrorCollection}
    (read : readObject fileReader type self result errors = .ok (true, value, world, added)) :
    added = errors := by
  obtain ⟨⟨reparsed, object, reported⟩, reparsedEq, rest⟩ := Checked.bind_eq_ok_iff.mp read
  cases reparsed with
  | false => cases rest
  | true =>
      cases FileObject.reparseLoop_ok reparsedEq
      obtain ⟨size, -, last⟩ := Checked.bind_eq_ok_iff.mp rest
      dsimp only at last
      rw [BufferedFileReader.seek] at last
      split_ifs at last
      · cases last
        rfl
      · rcases sought : fileReader.seek self.reader.reader
            (self.reader.position + size).byteCount with ⟨info | reached, next⟩
        · rw [sought] at last
          cases last
        · rw [sought] at last
          cases last
          rfl

theorem FileParser.parseFile_settles (reports : fileReader.ReportsErrors) (self : FileParser)
    (file : σ) (memory : Nat → UInt8) (path type : String) (errors : ErrorCollection) :
    Settles (self.parseFile fileReader file memory path type) errors := by
  intro made added parsed
  rcases self.parseFile_uniform reports file memory path type with
    ⟨fault, faulty⟩ | ⟨other, infos, returned, explained⟩
  · cases (faulty errors).symm.trans parsed
  · cases (returned errors).symm.trans parsed
    cases made with
    | none => exact ⟨infos, rfl, iff_of_true rfl (explained rfl)⟩
    | some root =>
        refine ⟨infos, rfl, iff_of_false nofun ?_⟩
        rw [parseFile] at parsed
        rcases found : self.definitionOf type with _ | definition
        · rw [found] at parsed
          cases parsed
        · rw [found] at parsed
          obtain ⟨⟨success, value, world, reported⟩, read, rest⟩ :=
            Checked.bind_eq_ok_iff.mp parsed
          cases success with
          | false => cases rest
          | true =>
              cases World.readObject_ok read
              obtain ⟨root, -, last⟩ := Checked.bind_eq_ok_iff.mp rest
              have same := congrArg ErrorCollection.errors
                (Option.some.inj (congrArg Prod.snd (Except.ok.inj last)))
              rw [ErrorCollection.addAll_errors] at same
              rw [List.self_eq_append_right.mp same]
              rintro ⟨info, membership, -⟩
              cases membership

namespace ConfiguredParser

theorem parsePath_settles (reports : fileReader.ReportsErrors) (self : ConfiguredParser σ)
    (memory : Nat → UInt8) (path type : String) (errors : ErrorCollection) :
    Settles (self.parsePath fileReader memory path type) errors := by
  intro made added parsed
  rw [parsePath] at parsed
  rcases opened : self.fileSystem.openFile path with _ | file
  · rw [opened] at parsed
    cases parsed
    exact ⟨[cannotOpen path], rfl, iff_of_true rfl (someError_singleton rfl)⟩
  · rw [opened] at parsed
    exact self.parseFile_settles reports file memory path type errors made added parsed

variable {recognize : Recognizer} {defaultFileSystem : FileSystem σ}
  {options : FileParserOptions σ}

theorem createFromDefinition_settles {errors : ErrorCollection} (fresh : errors.hasErrors = false)
    (definition : List UInt8) (path : String) :
    Settles (createFromDefinition recognize defaultFileSystem definition path options) errors := by
  intro made added created
  obtain ⟨⟨parser, reported⟩, parserEq, rest⟩ := Checked.bind_eq_ok_iff.mp created
  cases rest
  rcases FileParser.createFromDefinition_cases parserEq with
    ⟨infos, same, some, -⟩ | ⟨-, -, earlier, -⟩ | ⟨-, -, -, -, made, infos, same⟩
  · cases same
    exact ⟨infos, rfl, iff_of_true rfl some⟩
  · cases fresh.symm.trans earlier
  · cases same
    refine ⟨infos, rfl, iff_of_false nofun ?_⟩
    obtain ⟨⟨parsed, definitions, collected⟩, parsedEq, last⟩ :=
      Checked.bind_eq_ok_iff.mp parserEq
    cases parsed with
    | false => cases last
    | true =>
        dsimp only at last
        rw [if_neg (by decide)] at last
        split at last
        · have reported := parseDefinitionFile_ok parsedEq
          have same : collected = errors.addAll infos :=
            Option.some.inj (congrArg Prod.snd (Except.ok.inj last))
          rw [same, ErrorCollection.addAll_hasErrors] at reported
          exact fun some => not_noErrors_iff.mpr some reported.2
        · cases last

theorem createFromFile_settles (reports : fileReader.ReportsErrors) {errors : ErrorCollection}
    (fresh : errors.hasErrors = false) (fuel : Nat) (path : String) :
    Settles (createFromFile recognize defaultFileSystem fileReader fuel path options) errors := by
  intro made added created
  rcases opened : (options.fileSystem.getD defaultFileSystem).openFile path with _ | file
  · simp only [createFromFile, opened] at created
    cases created
    exact ⟨[cannotOpen path], rfl, iff_of_true rfl (someError_singleton rfl)⟩
  · rcases fileReader.readFully_spec fuel file with
      ⟨_ | text, next, reads, handed⟩ | ⟨fault, faulty⟩
    · simp only [createFromFile, opened, handed] at created
      cases created
      exact ⟨_, rfl, iff_of_true rfl (someError_singleton (reads.reported reports))⟩
    · rw [createFromFile_eq opened handed] at created
      exact createFromDefinition_settles fresh text path made added created
    · simp only [createFromFile, opened, faulty] at created
      cases created

end ConfiguredParser

end Objects

end BinaryReader

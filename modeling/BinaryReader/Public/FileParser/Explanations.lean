import BinaryReader.Parser.Acceptance
import BinaryReader.Public.FileParser.Requests
import BinaryReader.Public.FileSystem.Stdio

/-!
# Requests with a collection

What a request adds to the collection it gets, and what becomes of it when that
has errors already.
-/

namespace BinaryReader

def SomeError (infos : List ErrorInfo) : Prop := ∃ info ∈ infos, info.level = .error

theorem not_noErrors_iff {infos : List ErrorInfo} : ¬ NoErrors infos ↔ SomeError infos := by
  simp [NoErrors, SomeError]

theorem someError_singleton {info : ErrorInfo} (level : info.level = .error) :
    SomeError [info] :=
  ⟨info, List.mem_singleton_self info, level⟩

section Calls

variable {α β : Type} {call : Option ErrorCollection → Checked (Option α × Option ErrorCollection)}
  {errors : ErrorCollection}

def Makes (call : Option ErrorCollection → Checked (Option α × Option ErrorCollection))
    (errors : ErrorCollection) : Prop :=
  ∃ made added, call (some errors) = .ok (some made, added)

/-- A call that makes nothing has added an error of level `Error` to the collection. -/
def Explains (call : Option ErrorCollection → Checked (Option α × Option ErrorCollection))
    (errors : ErrorCollection) : Prop :=
  ∀ added, call (some errors) = .ok (none, added) →
    ∃ infos, added = some (errors.addAll infos) ∧ SomeError infos

/-- A call explains its failure, and makes something if it does with a fresh collection. -/
structure Unaffected (call : Option ErrorCollection → Checked (Option α × Option ErrorCollection))
    (errors : ErrorCollection) : Prop where
  explains : Explains call errors
  makes : Makes call errors ↔ Makes call {}

/-- The call takes the same course with every collection. -/
def Uniform (call : Option ErrorCollection → Checked (Option α × Option ErrorCollection)) : Prop :=
  (∃ fault, ∀ errors, call (some errors) = .error fault) ∨
  ∃ made infos, (∀ errors, call (some errors) = .ok (made, some (errors.addAll infos))) ∧
    (made = none → SomeError infos)

theorem Uniform.unaffected (uniform : Uniform call) (errors : ErrorCollection) :
    Unaffected call errors := by
  rcases uniform with ⟨fault, faulty⟩ | ⟨made, infos, returned, explained⟩
  · refine ⟨?_, ?_⟩
    · intro added failed
      cases (faulty errors).symm.trans failed
    · simp [Makes, faulty]
  · refine ⟨?_, ?_⟩
    · intro added failed
      cases (returned errors).symm.trans failed
      exact ⟨infos, rfl, explained rfl⟩
    · simp [Makes, returned]

theorem unaffected_map_iff (wrap : α → β) :
    Unaffected (fun errors => do
      let (made, added) ← call errors
      return (made.map wrap, added)) errors ↔ Unaffected call errors := by
  have makes_iff (errors : ErrorCollection) :
      Makes (fun errors => do
        let (made, added) ← call errors
        return (made.map wrap, added)) errors ↔ Makes call errors := by
    rw [Makes, Makes]
    rcases call (some errors) with fault | ⟨_ | made, added⟩
    · simp
    · apply iff_of_false
      · rintro ⟨made, added, same⟩
        cases same
      · rintro ⟨made, added, same⟩
        cases same
    · exact iff_of_true ⟨_, _, rfl⟩ ⟨_, _, rfl⟩
  have explains_iff : Explains (fun errors => do
        let (made, added) ← call errors
        return (made.map wrap, added)) errors ↔ Explains call errors := by
    rw [Explains, Explains]
    rcases call (some errors) with fault | ⟨_ | made, added⟩
    · simp
    · constructor
      · intro explains collected same
        cases same
        exact explains _ rfl
      · intro explains collected same
        cases same
        exact explains _ rfl
    · apply iff_of_true
      · intro added same
        cases same
      · intro added same
        cases same
  constructor
  · rintro ⟨explains, makes⟩
    rw [makes_iff, makes_iff] at makes
    exact ⟨explains_iff.mp explains, makes⟩
  · rintro ⟨explains, makes⟩
    rw [← makes_iff, ← makes_iff] at makes
    exact ⟨explains_iff.mpr explains, makes⟩

end Calls

section Objects

variable {σ : Type} {fileReader : FileReader σ}

theorem FileObject.reparseLoop_uniform (statements : List Statement) (offset : Size)
    (self : FileObject) :
    (∃ fault, ∀ errors, reparseLoop statements offset self errors = .error fault) ∨
    ∃ reparsed object infos, (∀ errors, reparseLoop statements offset self errors =
        .ok (reparsed, object, errors.addAll infos)) ∧ (reparsed = false → SomeError infos) := by
  induction statements generalizing offset self with
  | nil =>
      refine Or.inr ⟨true, self, [], fun _ => rfl, ?_⟩
      intro failed
      cases failed
  | cons statement statements inductionHypothesis =>
      cases statement with
      | definition type =>
          exact Or.inr ⟨false, self, [_], fun _ => rfl, fun _ => someError_singleton rfl⟩
      | field field =>
          simp only [reparseLoop]
          rcases field.type with _ | type
          · exact Or.inl ⟨.nullPointer, fun _ => rfl⟩
          · simp only [deref_some, Checked.ok_bind]
            rcases type.staticSize with _ | size
            · exact Or.inr ⟨false, _, [_], fun _ => rfl, fun _ => someError_singleton rfl⟩
            · exact inductionHypothesis _ _

theorem BufferedFileReader.seek_uniform (reports : fileReader.ReportsErrors)
    (self : BufferedFileReader σ) (position : Size) :
    ∃ sought next infos, (∀ errors, self.seek fileReader position errors =
      (sought, next, errors.addAll infos)) ∧ (sought = false → SomeError infos) := by
  simp only [seek]
  split
  · refine ⟨true, _, [], fun _ => rfl, ?_⟩
    intro failed
    cases failed
  · rcases called : fileReader.seek self.reader position.byteCount with ⟨info | reached, reader⟩
    · exact ⟨false, _, [info], fun _ => rfl, fun _ => someError_singleton (reports.seek called)⟩
    · refine ⟨true, _, [], fun _ => rfl, ?_⟩
      intro failed
      cases failed

theorem World.readObject_uniform (reports : fileReader.ReportsErrors) (type : TypeDefinition)
    (self : World σ) (result : Value) :
    (∃ fault, ∀ errors, readObject fileReader type self result errors = .error fault) ∨
    ∃ success value world infos, (∀ errors, readObject fileReader type self result errors =
      .ok (success, value, world, errors.addAll infos)) ∧ (success = false → SomeError infos) := by
  simp only [readObject, FileObject.reparseObject]
  rcases FileObject.reparseLoop_uniform type.statements self.reader.position
      { type, startPosition := self.reader.position } with
    ⟨fault, faulty⟩ | ⟨reparsed, object, early, returned, explained⟩
  · exact Or.inl ⟨fault, fun errors => by rw [faulty]; rfl⟩
  · cases reparsed with
    | false =>
        refine Or.inr ⟨false, result, self, early, ?_, fun _ => explained rfl⟩
        intro errors
        rw [returned]
        rfl
    | true =>
        rcases sized : type.staticSize with _ | size
        · refine Or.inl ⟨.nullPointer, ?_⟩
          intro errors
          rw [returned]
          rfl
        · obtain ⟨sought, next, late, moved, explainedLate⟩ :=
            BufferedFileReader.seek_uniform reports self.reader (self.reader.position + size)
          apply Or.inr
          refine ⟨sought, .object self.objects.length,
            { reader := next, objects := self.objects ++ [object] }, early ++ late, ?_, ?_⟩
          · intro errors
            rw [returned, ErrorCollection.addAll_append]
            simp only [Checked.ok_bind, Bool.not_true, Bool.false_eq_true, if_false, deref_some,
              moved]
            rfl
          · intro failed
            obtain ⟨info, membership, level⟩ := explainedLate failed
            exact ⟨info, List.mem_append_right _ membership, level⟩

theorem FileParser.parseFile_uniform (reports : fileReader.ReportsErrors) (self : FileParser)
    (file : σ) (memory : Nat → UInt8) (path type : String) :
    Uniform (self.parseFile fileReader file memory path type) := by
  rw [Uniform]
  simp only [parseFile]
  rcases self.definitionOf type with _ | definition
  · exact Or.inr ⟨none, [_], fun _ => rfl, fun _ => someError_singleton rfl⟩
  · dsimp only [Option.getD_some]
    rcases World.readObject_uniform reports definition
        { reader := { reader := file, buffer := memory } } .null with
      ⟨fault, faulty⟩ | ⟨success, value, world, infos, returned, explained⟩
    · exact Or.inl ⟨fault, fun errors => by rw [faulty]; rfl⟩
    · simp only [returned, Checked.ok_bind]
      cases success with
      | false => exact Or.inr ⟨none, infos, fun _ => rfl, fun _ => explained rfl⟩
      | true =>
          cases value with
          | object id =>
              refine Or.inr ⟨some (id, world), infos, fun _ => rfl, ?_⟩
              intro failed
              cases failed
          | _ => exact Or.inl ⟨.badCast, fun _ => rfl⟩

end Objects

section Definitions

/-- A text without syntax errors, whose declarations fit. -/
structure Recognition.Clean (recognition : Recognition) (main : MainContext) : Prop where
  unnotified : recognition.notifications = []
  tree : recognition.result = .ok main
  walkable : main.Walkable
  fits : DeclsFit [] main.decls

variable {recognize : Recognizer} {definition : List UInt8} {path : String}
  {errors : ErrorCollection}

theorem BuiltAll.eq_nil_iff {types built : List TypeDefinition} {decls : List TypeDecl}
    (all : BuiltAll types decls built) : built = [] ↔ decls = [] := by
  cases decls with
  | nil => exact iff_of_true all rfl
  | cons decl decls =>
      obtain ⟨type, rest, same, -⟩ := all
      simp [same]

/-- What the creation of a parser comes to, if it returns. -/
theorem FileParser.createFromDefinition_cases
    {result : Option FileParser × Option ErrorCollection}
    (created : createFromDefinition recognize definition path (some errors) = .ok result) :
    (∃ infos, result = (none, some (errors.addAll infos)) ∧ SomeError infos ∧
        ¬ ∃ main, (recognize definition).Clean main ∧
          (main.decls ≠ [] ∨ errors.hasErrors = true)) ∨
    (∃ main, (recognize definition).Clean main ∧ errors.hasErrors = true ∧
      ∃ infos, result = (none, some (errors.addAll infos)) ∧ ¬ SomeError infos) ∨
    ∃ main, (recognize definition).Clean main ∧ errors.hasErrors = false ∧ main.decls ≠ [] ∧
      ∃ parser infos, result = (some parser, some (errors.addAll infos)) := by
  obtain ⟨parse, parsed, rest⟩ := Checked.bind_eq_ok_iff.mp created
  obtain ⟨located, walkable⟩ := recoverable_of_parseDefinitionFile parsed
  rcases thrown : (recognize definition).result with what | main
  · obtain ⟨infos, returned, some⟩ := parseDefinitionFile_exception path [] errors located thrown
    cases parsed.symm.trans returned
    cases rest
    refine Or.inl ⟨infos, rfl, not_noErrors_iff.mp some, ?_⟩
    rintro ⟨main, clean, -⟩
    cases thrown.symm.trans clean.tree
  · obtain ⟨types, notified, infos, returned, unnotified, built, fits⟩ :=
      parseDefinitionFile_tree path [] errors located thrown (walkable main thrown)
    cases parsed.symm.trans returned
    dsimp only at rest
    have clean_iff (other : MainContext) :
        (recognize definition).Clean other ↔ other = main ∧ NoErrors (notified ++ infos) := by
      rw [noErrors_append, unnotified, fits]
      constructor
      · intro clean
        cases thrown.symm.trans clean.tree
        exact ⟨rfl, clean.unnotified, clean.fits⟩
      · rintro ⟨rfl, silent, fit⟩
        exact ⟨silent, thrown, walkable other thrown, fit⟩
    rcases failed : (errors.addAll (notified ++ infos)).hasErrors with _ | _
    · obtain ⟨fresh, silent⟩ := (ErrorCollection.addAll_hasErrors errors _).mp failed
      have clean := (clean_iff main).mpr ⟨rfl, silent⟩
      rw [failed, if_neg (by decide)] at rest
      by_cases empty : types = []
      · subst empty
        cases rest
        apply Or.inl
        refine ⟨notified ++ infos ++ [.ofKind { filePath := path } .noTypes 0], ?_, ?_, ?_⟩
        · rw [ErrorCollection.addAll_append errors (notified ++ infos)]
          rfl
        · exact ⟨_, List.mem_append_right _ (List.mem_singleton_self _), rfl⟩
        · rintro ⟨other, otherClean, nonEmpty | earlier⟩
          · obtain ⟨rfl, -⟩ := (clean_iff other).mp otherClean
            exact nonEmpty (built.eq_nil_iff.mp rfl)
          · cases fresh.symm.trans earlier
      · rw [List.nil_append, dif_pos empty] at rest
        cases rest
        exact Or.inr (Or.inr ⟨main, clean, fresh, mt built.eq_nil_iff.mpr empty, _, _, rfl⟩)
    · rw [failed, if_pos (by decide)] at rest
      cases rest
      by_cases silent : NoErrors (notified ++ infos)
      · refine Or.inr (Or.inl ⟨main, (clean_iff main).mpr ⟨rfl, silent⟩, ?_, _, rfl, ?_⟩)
        · rw [← Bool.not_eq_false]
          intro fresh
          rw [(ErrorCollection.addAll_hasErrors errors _).mpr ⟨fresh, silent⟩] at failed
          cases failed
        · exact fun some => not_noErrors_iff.mpr some silent
      · refine Or.inl ⟨_, rfl, not_noErrors_iff.mp silent, ?_⟩
        rintro ⟨other, clean, -⟩
        exact silent ((clean_iff other).mp clean).2

theorem Recognition.Clean.returns {main : MainContext} (clean : (recognize definition).Clean main)
    (path : String) (errors : ErrorCollection) : ∃ result,
    FileParser.createFromDefinition recognize definition path (some errors) = .ok result := by
  have located : (recognize definition).Located := by
    rw [Recognition.Located, clean.unnotified]
    exact List.forall_mem_nil _
  obtain ⟨types, notified, infos, parsed, -⟩ :=
    parseDefinitionFile_tree path [] errors located clean.tree clean.walkable
  rw [FileParser.createFromDefinition, Option.getD_some, parsed]
  simp only [Checked.ok_bind]
  split
  · exact ⟨_, rfl⟩
  · split
    · exact ⟨_, rfl⟩
    · exact ⟨_, rfl⟩

namespace FileParser

theorem makes_iff : Makes (createFromDefinition recognize definition path) errors ↔
    errors.hasErrors = false ∧ ∃ main, (recognize definition).Clean main ∧ main.decls ≠ [] := by
  constructor
  · rintro ⟨parser, added, created⟩
    rcases createFromDefinition_cases created with
      ⟨infos, same, -⟩ | ⟨main, -, -, infos, same, -⟩ | ⟨main, clean, fresh, nonEmpty, -⟩
    · cases same
    · cases same
    · exact ⟨fresh, main, clean, nonEmpty⟩
  · rintro ⟨fresh, main, clean, nonEmpty⟩
    obtain ⟨result, created⟩ := clean.returns path errors
    rcases createFromDefinition_cases created with
      ⟨-, -, -, unclean⟩ | ⟨-, -, earlier, -⟩ | ⟨-, -, -, -, parser, infos, rfl⟩
    · exact absurd ⟨main, clean, Or.inl nonEmpty⟩ unclean
    · cases fresh.symm.trans earlier
    · exact ⟨parser, _, created⟩

theorem explains_iff : Explains (createFromDefinition recognize definition path) errors ↔
    errors.hasErrors = false ∨ ¬ ∃ main, (recognize definition).Clean main := by
  constructor
  · intro explains
    by_contra neither
    rw [not_or, not_not, Bool.not_eq_false] at neither
    obtain ⟨earlier, main, clean⟩ := neither
    obtain ⟨result, created⟩ := clean.returns path errors
    rcases createFromDefinition_cases created with
      ⟨-, -, -, unclean⟩ | ⟨-, -, -, infos, rfl, none⟩ | ⟨-, -, fresh, -⟩
    · exact unclean ⟨main, clean, Or.inr earlier⟩
    · obtain ⟨others, same, some⟩ := explains _ created
      have lists := congrArg ErrorCollection.errors (Option.some.inj same)
      rw [ErrorCollection.addAll_errors, ErrorCollection.addAll_errors,
        List.append_cancel_left_eq] at lists
      exact none (lists ▸ some)
    · cases fresh.symm.trans earlier
  · intro either added created
    rcases createFromDefinition_cases created with
      ⟨infos, same, some, -⟩ | ⟨main, clean, earlier, -⟩ | ⟨-, -, -, -, parser, infos, same⟩
    · exact ⟨infos, congrArg Prod.snd same, some⟩
    · rcases either with fresh | unclean
      · cases fresh.symm.trans earlier
      · exact absurd ⟨main, clean⟩ unclean
    · cases same

theorem creation_unaffected_iff :
    Unaffected (createFromDefinition recognize definition path) errors ↔
    errors.hasErrors = false ∨ ¬ ∃ main, (recognize definition).Clean main := by
  constructor
  · intro unaffected
    exact explains_iff.mp unaffected.explains
  · intro either
    refine ⟨explains_iff.mpr either, ?_⟩
    rw [makes_iff, makes_iff]
    rcases either with fresh | unclean
    · rw [fresh]
      rfl
    · apply iff_of_false
      · rintro ⟨-, main, clean, -⟩
        exact unclean ⟨main, clean⟩
      · rintro ⟨-, main, clean, -⟩
        exact unclean ⟨main, clean⟩

end FileParser

end Definitions

namespace ConfiguredParser

variable {σ : Type} {recognize : Recognizer} {defaultFileSystem : FileSystem σ}
  {fileReader : FileReader σ} {path : String} {options : FileParserOptions σ}
  {errors : ErrorCollection}

theorem createFromDefinition_unaffected_iff {definition : List UInt8} :
    Unaffected (createFromDefinition recognize defaultFileSystem definition path options) errors ↔
      errors.hasErrors = false ∨ ¬ ∃ main, (recognize definition).Clean main :=
  (unaffected_map_iff _).trans FileParser.creation_unaffected_iff

theorem createFromFile_eq {file next : σ} {fuel : Nat} {text : List UInt8}
    (opened : (options.fileSystem.getD defaultFileSystem).openFile path = some file)
    (handed : ∀ buffer errors,
      fileReader.readFully fuel file buffer errors = .ok (true, text, next, errors)) :
    createFromFile recognize defaultFileSystem fileReader fuel path options =
      createFromDefinition recognize defaultFileSystem text path
        { fileSystem := options.fileSystem.getD defaultFileSystem } := by
  funext errors
  simp only [createFromFile, opened, handed]
  rfl

theorem createFromFile_cases (reports : fileReader.ReportsErrors) (fuel : Nat) :
    Uniform (createFromFile recognize defaultFileSystem fileReader fuel path options) ∨
    ∃ file text, (options.fileSystem.getD defaultFileSystem).openFile path = some file ∧
      fileReader.ReadsFully file (.ok text) ∧
      createFromFile recognize defaultFileSystem fileReader fuel path options =
        createFromDefinition recognize defaultFileSystem text path
          { fileSystem := options.fileSystem.getD defaultFileSystem } := by
  rcases opened : (options.fileSystem.getD defaultFileSystem).openFile path with _ | file
  · apply Or.inl
    rw [Uniform]
    simp only [createFromFile, opened]
    exact Or.inr ⟨none, [cannotOpen path], fun _ => rfl, fun _ => someError_singleton rfl⟩
  · rcases fileReader.readFully_spec fuel file with
      ⟨outcome, next, reads, handed⟩ | ⟨fault, faulty⟩
    · cases outcome with
      | error info =>
          apply Or.inl
          rw [Uniform]
          simp only [createFromFile, opened, handed]
          have level := reads.reported reports
          exact Or.inr ⟨none, [info], fun _ => rfl, fun _ => someError_singleton level⟩
      | ok text => exact Or.inr ⟨file, text, rfl, reads, createFromFile_eq opened handed⟩
    · apply Or.inl
      rw [Uniform]
      simp only [createFromFile, opened, faulty]
      exact Or.inl ⟨fault, fun _ => rfl⟩

theorem parsePath_uniform (reports : fileReader.ReportsErrors) (self : ConfiguredParser σ)
    (memory : Nat → UInt8) (path type : String) :
    Uniform (self.parsePath fileReader memory path type) := by
  rw [Uniform]
  simp only [parsePath]
  rcases self.fileSystem.openFile path with _ | file
  · exact Or.inr ⟨none, [cannotOpen path], fun _ => rfl, fun _ => someError_singleton rfl⟩
  · exact self.parseFile_uniform reports file memory path type

end ConfiguredParser

namespace Request

variable {σ : Type} {recognize : Recognizer} {defaultFileSystem : FileSystem σ}
  {fileReader : FileReader σ}

variable (defaultFileSystem fileReader) in
/-- The text of the definition that a request is given or reads. -/
def DefinedBy (request : Request σ) (text : List UInt8) : Prop :=
  (∃ path options, request = .createFromDefinition text path options) ∨
    ∃ file, request.Opens defaultFileSystem file ∧ fileReader.ReadsFully file (.ok text)

/-- The errors a collection has already do no harm exactly if there are none, or the request
does not come to a definition without errors. -/
theorem unaffected_iff (reports : fileReader.ReportsErrors) (memory : Nat → UInt8)
    (request : Request σ) (errors : ErrorCollection) :
    (∀ fuel, Unaffected (request.call recognize defaultFileSystem fileReader memory fuel) errors) ↔
      errors.hasErrors = false ∨
        ¬ ∃ text main, request.DefinedBy defaultFileSystem fileReader text ∧
          (recognize text).Clean main := by
  constructor
  · intro unaffected
    by_contra neither
    rw [not_or, not_not] at neither
    obtain ⟨earlier, text, main, defined, clean⟩ := neither
    rcases defined with ⟨path, options, rfl⟩ | ⟨file, ⟨path, options, rfl, opened⟩, reads⟩
    · rcases ConfiguredParser.createFromDefinition_unaffected_iff.mp (unaffected 0) with
        fresh | unclean
      · exact earlier fresh
      · exact unclean ⟨main, clean⟩
    · obtain ⟨fuel, next, handed⟩ := reads.readFully
      have affected := unaffected fuel
      rw [call, ConfiguredParser.createFromFile_eq opened handed] at affected
      rcases ConfiguredParser.createFromDefinition_unaffected_iff.mp affected with fresh | unclean
      · exact earlier fresh
      · exact unclean ⟨main, clean⟩
  · intro either fuel
    cases request with
    | createFromFile path options =>
        rcases ConfiguredParser.createFromFile_cases reports fuel with
          uniform | ⟨file, text, opened, reads, same⟩
        · exact uniform.unaffected errors
        · rw [call, same]
          apply ConfiguredParser.createFromDefinition_unaffected_iff.mpr
          apply either.imp_right
          rintro undefined ⟨main, clean⟩
          exact undefined ⟨text, main, Or.inr ⟨file, ⟨path, options, rfl, opened⟩, reads⟩, clean⟩
    | createFromDefinition definition path options =>
        apply ConfiguredParser.createFromDefinition_unaffected_iff.mpr
        apply either.imp_right
        rintro undefined ⟨main, clean⟩
        exact undefined ⟨definition, main, Or.inl ⟨path, options, rfl⟩, clean⟩
    | parsePath parser path type =>
        exact (parser.parsePath_uniform reports memory path type).unaffected errors
    | parseFile parser file path type =>
        exact (parser.parseFile_uniform reports file memory path type).unaffected errors

theorem unaffected_iff_warning :
    (∀ fuel, Unaffected (call (fun _ => { result := .ok (oneField none 14) })
      brokenDisk.fStreamFileSystem brokenDisk.fileFileReader (fun _ => 0) fuel
      (.createFromDefinition (textBytes "type a \x7b byte x; \x7d") "" {}))
      (ErrorCollection.add {} { level := .warning })) ↔
    (ErrorCollection.add {} { level := .warning }).hasErrors = false ∨
      ¬ ∃ text main, DefinedBy brokenDisk.fStreamFileSystem brokenDisk.fileFileReader
          (.createFromDefinition (textBytes "type a \x7b byte x; \x7d") "" {}) text ∧
        Recognition.Clean { result := .ok (oneField none 14) } main :=
  unaffected_iff brokenDisk.fileFileReader_reportsErrors (fun _ => 0) _ _

/-- An error of an earlier call rejects a definition without errors, and nothing is added. -/
theorem not_unaffected :
    let create := call (fun _ => { result := .ok (oneField none 14) }) brokenDisk.fStreamFileSystem
      brokenDisk.fileFileReader (fun _ => 0) 0
      (.createFromDefinition (textBytes "type a \x7b byte x; \x7d") "" {})
    let earlier := ErrorCollection.add {} (.ofKind {} .cannotOpen 0)
    create (some earlier) = .ok (none, some earlier) ∧ Makes create {} ∧
      ¬ Explains create earlier ∧ ¬ (Makes create earlier ↔ Makes create {}) := by
  have refused : call (fun _ => { result := .ok (oneField none 14) }) brokenDisk.fStreamFileSystem
      brokenDisk.fileFileReader (fun _ => 0) 0
      (.createFromDefinition (textBytes "type a \x7b byte x; \x7d") "" {})
      (some (ErrorCollection.add {} (.ofKind {} .cannotOpen 0))) =
        .ok (none, some (ErrorCollection.add {} (.ofKind {} .cannotOpen 0))) := rfl
  have made : Makes (call (fun _ => { result := .ok (oneField none 14) })
      brokenDisk.fStreamFileSystem brokenDisk.fileFileReader (fun _ => 0) 0
      (.createFromDefinition (textBytes "type a \x7b byte x; \x7d") "" {})) {} := ⟨_, _, rfl⟩
  refine ⟨refused, made, ?_, ?_⟩
  · intro explains
    obtain ⟨infos, same, info, membership, -⟩ := explains _ refused
    have lists := congrArg ErrorCollection.errors (Option.some.inj same)
    rw [ErrorCollection.addAll_errors, List.self_eq_append_right] at lists
    rw [lists] at membership
    cases membership
  · intro makes
    obtain ⟨parser, added, created⟩ := makes.mpr made
    cases refused.symm.trans created

end Request

end BinaryReader

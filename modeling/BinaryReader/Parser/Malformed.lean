import BinaryReader.Parser.Visiting.Walking

/-!
# Malformed definitions

For a text outside the grammar the runtime notifies the error handler or throws.
`parseDefinitionFile` then returns false with an error, unless the handler gets
no token or the visitor meets a child that is missing or a number that does not
convert.
-/

namespace BinaryReader

namespace Recognition

def Located (self : Recognition) : Prop :=
  ∀ notification ∈ self.notifications, notification.token.isSome

/-- The error handler finds its tokens, and the visitor gets through the tree. -/
def Recoverable (self : Recognition) : Prop :=
  self.Located ∧ ∀ main, self.result = .ok main → main.Walkable

def Malformed (self : Recognition) : Prop :=
  self.notifications ≠ [] ∨ ∃ what, self.result = .error what

end Recognition

theorem notify_spec (path : String) {notifications : List Notification}
    (located : ∀ notification ∈ notifications, notification.token.isSome)
    (errors : ErrorCollection) :
    ∃ infos, notifications.foldlM (syntaxError path) errors = .ok (errors.addAll infos) ∧
      infos.length = notifications.length ∧ ∀ info ∈ infos, info.level = .error := by
  induction notifications generalizing errors with
  | nil => exact ⟨[], rfl, rfl, nofun⟩
  | cons notification notifications inductionHypothesis =>
      obtain ⟨present, rest⟩ := List.forall_mem_cons.mp located
      obtain ⟨token, tokenEq⟩ := Option.isSome_iff_exists.mp present
      obtain ⟨info, level, added⟩ : ∃ info : ErrorInfo, info.level = .error ∧
          syntaxError path errors notification = .ok (errors.add info) := by
        rw [syntaxError, tokenEq]
        exact ⟨_, rfl, rfl⟩
      obtain ⟨infos, notified, count, levels⟩ := inductionHypothesis rest (errors.add info)
      refine ⟨info :: infos, ?_, congrArg Nat.succ count, List.forall_mem_cons.mpr ⟨level, levels⟩⟩
      rw [List.foldlM_cons, added]
      exact notified

theorem located_of_notify {path : String} {notifications : List Notification}
    {errors result : ErrorCollection}
    (notified : notifications.foldlM (syntaxError path) errors = .ok result) :
    ∀ notification ∈ notifications, notification.token.isSome := by
  induction notifications generalizing errors with
  | nil => exact nofun
  | cons notification notifications inductionHypothesis =>
      rw [List.foldlM_cons] at notified
      obtain ⟨next, first, rest⟩ := Checked.bind_eq_ok_iff.mp notified
      obtain ⟨token, tokenEq, -⟩ := Checked.bind_eq_ok_iff.mp first
      exact List.forall_mem_cons.mpr
        ⟨Option.isSome_iff_exists.mpr ⟨token, deref_eq_ok_iff.mp tokenEq⟩, inductionHypothesis rest⟩

section Parse

variable {recognize : Recognizer} {path : String} {buffer : List UInt8}
  {defs : List TypeDefinition} {errors : ErrorCollection}

variable (path defs errors) in
/-- A parse that reaches the end of a tree. -/
theorem parseDefinitionFile_tree {main : MainContext} (located : (recognize buffer).Located)
    (tree : (recognize buffer).result = .ok main) (walkable : main.Walkable) :
    ∃ types notified infos,
      parseDefinitionFile recognize path buffer defs errors =
        .ok (!(errors.addAll (notified ++ infos)).hasErrors, defs ++ types,
          errors.addAll (notified ++ infos)) ∧
      (NoErrors notified ↔ (recognize buffer).notifications = []) ∧
      BuiltAll [] main.decls types ∧ (NoErrors infos ↔ DeclsFit [] main.decls) := by
  obtain ⟨notified, notifiedEq, count, levels⟩ := notify_spec path located errors
  have kept : Visitor.Kept { path, defs, errors := errors.addAll notified } := nofun
  obtain ⟨types, infos, visited, built, clean⟩ :=
    Visitor.visitDefinitions_spec kept (Visitor.knows_builtIn path defs _) rfl walkable
  refine ⟨types, notified, infos, ?_, ?_, built, clean⟩
  · rw [parseDefinitionFile, notifiedEq, Checked.ok_bind, tree]
    dsimp only
    rw [Visitor.visitMain, visited, ErrorCollection.addAll_append]
    rfl
  · rw [noErrors_iff_eq_nil levels, ← List.length_eq_zero_iff, count, List.length_eq_zero_iff]

variable (path defs errors) in
theorem parseDefinitionFile_exception {what : String} (located : (recognize buffer).Located)
    (thrown : (recognize buffer).result = .error what) :
    ∃ infos, parseDefinitionFile recognize path buffer defs errors =
        .ok (false, defs, errors.addAll infos) ∧ ¬ NoErrors infos := by
  obtain ⟨notified, notifiedEq, -, -⟩ := notify_spec path located errors
  refine ⟨notified ++ [.ofArguments { filePath := path } .unknown [what] .error], ?_, ?_⟩
  · rw [parseDefinitionFile, notifiedEq, Checked.ok_bind, thrown, ErrorCollection.addAll_append]
    rfl
  · rw [noErrors_append]
    intro none
    exact none.2 _ (List.mem_singleton_self _) rfl

theorem recoverable_of_parseDefinitionFile {result : Bool × List TypeDefinition × ErrorCollection}
    (parsed : parseDefinitionFile recognize path buffer defs errors = .ok result) :
    (recognize buffer).Recoverable := by
  obtain ⟨notified, notifiedEq, rest⟩ := Checked.bind_eq_ok_iff.mp parsed
  refine ⟨located_of_notify notifiedEq, ?_⟩
  intro main tree
  rw [tree] at rest
  obtain ⟨visitor, visited, -⟩ := Checked.bind_eq_ok_iff.mp rest
  exact Visitor.visitMain_returns_iff.mp ⟨visitor, visited⟩

/-- A malformed definition is reported exactly when the error handler gets a token for
every error and the visitor gets through the tree. -/
theorem malformed_reported_iff (malformed : (recognize buffer).Malformed) :
    (∃ built reported, parseDefinitionFile recognize path buffer defs errors =
        .ok (false, built, reported) ∧ ∃ info ∈ reported.errors, info.level = .error) ↔
      (recognize buffer).Recoverable := by
  constructor
  · rintro ⟨built, reported, parsed, -⟩
    exact recoverable_of_parseDefinitionFile parsed
  · rintro ⟨located, walkable⟩
    have finish {infos : List ErrorInfo} (some : ¬ NoErrors infos) :
        (errors.addAll infos).hasErrors = true ∧
          ∃ info ∈ (errors.addAll infos).errors, info.level = .error := by
      constructor
      · rw [← Bool.not_eq_false, ErrorCollection.addAll_hasErrors]
        intro clean
        exact some clean.2
      · simp only [NoErrors, not_forall, not_not] at some
        obtain ⟨info, membership, level⟩ := some
        rw [ErrorCollection.addAll_errors]
        exact ⟨info, List.mem_append_right _ membership, level⟩
    rcases thrown : (recognize buffer).result with what | main
    · obtain ⟨infos, parsed, some⟩ := parseDefinitionFile_exception path defs errors located thrown
      exact ⟨_, _, parsed, (finish some).2⟩
    · obtain ⟨types, notified, infos, parsed, clean, -, -⟩ :=
        parseDefinitionFile_tree path defs errors located thrown (walkable main thrown)
      have some : ¬ NoErrors (notified ++ infos) := by
        rw [noErrors_append, clean]
        rcases malformed with notified | ⟨what, failed⟩
        · intro both
          exact notified both.1
        · cases thrown.symm.trans failed
      rw [(finish some).1] at parsed
      exact ⟨_, _, parsed, (finish some).2⟩

end Parse

/-- The tree of `type a { byte x; }`, with options and the column of the name behind them. -/
def oneField (options : Option OptionListContext) (column : Nat) : MainContext :=
  ⟨[{ start := ⟨"type", 1, 0, 0⟩
      typeDefinition := some {
        start := ⟨"type", 1, 0, 0⟩
        identifier := some ⟨"a", 1, 5, 5⟩
        typeMember := [{
          start := ⟨"byte", 1, 9, 9⟩
          dataField := some {
            start := ⟨"byte", 1, 9, 9⟩
            completeType := some ⟨⟨"byte", 1, 9, 9⟩, some ⟨"byte", 1, 9, 9⟩, options⟩
            identifier := some ⟨"x", 1, column, column⟩
            expression := none } }] } }]⟩

/-- What becomes of the text `type a { byte x }`: the parser goes on as if there were a `;`. -/
def missingSemicolon : Recognition where
  notifications := [⟨some ⟨"\x7d", 1, 16, 16⟩, 1, "missing ';' at '\x7d'"⟩]
  result := .ok (oneField none 14)

theorem malformed_reported_iff_missingSemicolon :
    (∃ built reported, parseDefinitionFile (fun _ => missingSemicolon) ""
        (textBytes "type a \x7b byte x \x7d") [] {} = .ok (false, built, reported) ∧
        ∃ info ∈ reported.errors, info.level = .error) ↔
      missingSemicolon.Recoverable :=
  malformed_reported_iff (show missingSemicolon.Malformed from Or.inl (by simp [missingSemicolon]))

/-- What becomes of the text `@`: an error of the lexer, which has no token. -/
def unknownSymbol : Recognition where
  notifications := [⟨none, 1, "token recognition error at: '@'"⟩]
  result := .ok ⟨[]⟩

/-- What becomes of the text `type a { byte x = ; }`: the parser makes up the number. -/
def missingNumber : Recognition where
  notifications := [⟨some ⟨";", 1, 18, 18⟩, 1, "missing NUMBER at ';'"⟩]
  result := .ok ⟨[{
    start := ⟨"type", 1, 0, 0⟩
    typeDefinition := some {
      start := ⟨"type", 1, 0, 0⟩
      identifier := some ⟨"a", 1, 5, 5⟩
      typeMember := [{
        start := ⟨"byte", 1, 9, 9⟩
        dataField := some {
          start := ⟨"byte", 1, 9, 9⟩
          completeType := some ⟨⟨"byte", 1, 9, 9⟩, some ⟨"byte", 1, 9, 9⟩, none⟩
          identifier := some ⟨"x", 1, 14, 14⟩
          expression := some ⟨⟨";", 1, 18, 18⟩, some ⟨"<missing NUMBER>", 1, 18, 18⟩⟩ } }] } }]⟩

/-- The error handler asks a token that is not there for its index, and the visitor
converts a text that is no number. -/
theorem malformed_not_reported :
    (unknownSymbol.Malformed ∧
      parseDefinitionFile (fun _ => unknownSymbol) "" (textBytes "@") [] {} =
        .error .nullPointer) ∧
    (missingNumber.Malformed ∧
      parseDefinitionFile (fun _ => missingNumber) ""
          (textBytes "type a \x7b byte x = ; \x7d") [] {} =
        .error (.exception "std::invalid_argument")) :=
  ⟨⟨Or.inl (by simp [unknownSymbol]), rfl⟩, ⟨Or.inl (by simp [missingNumber]), rfl⟩⟩

end BinaryReader

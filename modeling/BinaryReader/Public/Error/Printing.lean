import BinaryReader.Public.Error
import Mathlib.Data.List.TakeWhile

/-!
# Printed errors

An error is printed on a line with its place and its level.  A program that cuts
every line at its first colons finds the places, the levels and the messages again,
if no path looks like something else.  Such errors look alike only if they are.
-/

namespace BinaryReader

def ErrorLevel.print : ErrorLevel → String
  | .error => "error"
  | .warning => "warning"
  | .info => "info"

def ErrorInfo.print (error : ErrorInfo) : String :=
  if error.debug.filePath.isEmpty then error.level.print ++ ": " ++ error.message
  else if error.debug.line = 0 then
    error.debug.filePath ++ ": " ++ error.level.print ++ ": " ++ error.message
  else if error.debug.column = 0 then
    error.debug.filePath ++ ":" ++ toString error.debug.line ++ ": " ++ error.level.print ++ ": " ++
      error.message
  else
    error.debug.filePath ++ ":" ++ toString error.debug.line ++ ":" ++
      toString error.debug.column ++ ": " ++ error.level.print ++ ": " ++ error.message

def printLines (infos : List ErrorInfo) : List Char :=
  infos.flatMap fun info => info.print.toList ++ ['\n']

structure Diagnostic where
  path : List Char
  line : Nat
  column : Nat
  level : ErrorLevel
  message : List Char
  deriving DecidableEq, Repr

/-- What is printed of an error. There is no line without a path, and no column without a line. -/
def ErrorInfo.diagnostic (error : ErrorInfo) : Diagnostic where
  path := error.debug.filePath.toList
  line := if error.debug.filePath.isEmpty then 0 else error.debug.line
  column :=
    if error.debug.filePath.isEmpty ∨ error.debug.line = 0 then 0 else error.debug.column
  level := error.level
  message := error.message.toList

section Reading

def cut (text : List Char) : Option (List Char × List Char) :=
  match text.dropWhile (· ≠ ':') with
  | [] => none
  | _ :: behind => some (text.takeWhile (· ≠ ':'), behind)

def levelOf (name : List Char) : Option ErrorLevel :=
  [.error, .warning, .info].find? fun level => level.print.toList = name

def readMessage (path : List Char) (line column : Nat) (level : ErrorLevel) :
    List Char → Option Diagnostic
  | ' ' :: message => some { path, line, column, level, message }
  | _ => none

def readLevel (path : List Char) (line column : Nat) : List Char → Option Diagnostic
  | ' ' :: text => do
      let (name, text) ← cut text
      readMessage path line column (← levelOf name) text
  | _ => none

/-- Read a line: its level, or a path with as many numbers as there are in front of the level. -/
def readDiagnostic (text : List Char) : Option Diagnostic := do
  let (first, text) ← cut text
  match levelOf first with
  | some level => readMessage [] 0 0 level text
  | none =>
      readLevel first 0 0 text <|> do
        let (digits, text) ← cut text
        let line := Nat.ofDigitChars 10 digits 0
        readLevel first line 0 text <|> do
          let (digits, text) ← cut text
          readLevel first line (Nat.ofDigitChars 10 digits 0) text

def readDiagnostics (text : List Char) : Option (List Diagnostic) :=
  (text.splitOn '\n').dropLast.mapM readDiagnostic

/-- An error that its line is read as: a path is not taken for a level or cut at a colon. -/
structure ErrorInfo.Readable (error : ErrorInfo) : Prop where
  path : ':' ∉ error.debug.filePath.toList
  level : levelOf error.debug.filePath.toList = none

structure ErrorInfo.OneLine (error : ErrorInfo) : Prop where
  path : '\n' ∉ error.debug.filePath.toList
  message : '\n' ∉ error.message.toList

end Reading

theorem cut_append {front : List Char} (noColon : ':' ∉ front) (behind : List Char) :
    cut (front ++ ':' :: behind) = some (front, behind) := by
  have others : ∀ char ∈ front, decide (char ≠ ':') = true := by
    intro char membership
    exact decide_eq_true (ne_of_mem_of_not_mem membership noColon)
  rw [cut, List.dropWhile_append_of_pos others, List.takeWhile_append_of_pos others]
  simp

theorem levelOf_print (level : ErrorLevel) : levelOf level.print.toList = some level := by
  cases level <;> decide

theorem colon_notMem_level (level : ErrorLevel) : ':' ∉ level.print.toList := by
  cases level <;> decide

theorem newline_notMem_level (level : ErrorLevel) : '\n' ∉ level.print.toList := by
  cases level <;> decide

theorem toList_toString (value : Nat) : (toString value).toList = Nat.toDigits 10 value := by
  change value.repr.toList = Nat.toDigits 10 value
  rw [Nat.toList_repr]

theorem notMem_toDigits {char : Char} (noDigit : char.isDigit = false) (value : Nat) :
    char ∉ Nat.toDigits 10 value := by
  intro membership
  have digit := Nat.isDigit_of_mem_toDigits (Nat.succ_pos 9) (Nat.le_refl 10) membership
  cases noDigit.symm.trans digit

theorem ofDigitChars_toString (value : Nat) :
    Nat.ofDigitChars 10 (toString value).toList 0 = value := by
  rw [toList_toString, Nat.ofDigitChars_ten_toDigits]

theorem readLevel_print (path : List Char) (line column : Nat) (level : ErrorLevel)
    (message : List Char) :
    readLevel path line column (' ' :: (level.print.toList ++ ':' :: ' ' :: message)) =
      some { path, line, column, level, message } := by
  rw [readLevel, cut_append (colon_notMem_level level)]
  simp only [Option.bind_eq_bind, Option.bind_some, levelOf_print]
  rfl

theorem readLevel_toString (path : List Char) (line column value : Nat) (behind : List Char) :
    readLevel path line column ((toString value).toList ++ behind) = none := by
  have noBlank : ' ' ∉ Nat.toDigits 10 value := notMem_toDigits (by decide) value
  rw [toList_toString]
  rcases digits : Nat.toDigits 10 value with _ | ⟨first, rest⟩
  · exact absurd digits Nat.toDigits_ne_nil
  · rw [digits, List.mem_cons, not_or] at noBlank
    rw [List.cons_append, readLevel]
    rintro text same
    exact noBlank.1 (List.cons.inj same).1.symm

theorem colon_notMem_toString (value : Nat) : ':' ∉ (toString value).toList := by
  rw [toList_toString]
  exact notMem_toDigits (by decide) value

/-- The line of a readable error is read as the error. -/
theorem readDiagnostic_print {error : ErrorInfo} (readable : error.Readable) :
    readDiagnostic error.print.toList = some error.diagnostic := by
  obtain ⟨noColon, noLevel⟩ := readable
  obtain ⟨⟨path, line, column⟩, message, kind, level, offset⟩ := error
  simp only [ErrorInfo.print, ErrorInfo.diagnostic] at noColon noLevel ⊢
  by_cases unplaced : path.isEmpty
  · have noPath : path.toList = [] := by simpa using unplaced
    have split : (level.print ++ ": " ++ message).toList =
        level.print.toList ++ ':' :: ' ' :: message.toList := by simp
    rw [if_pos unplaced, split, readDiagnostic, cut_append (colon_notMem_level level)]
    simp only [Option.bind_eq_bind, Option.bind_some, levelOf_print, readMessage, unplaced, noPath,
      if_true, true_or]
  rw [if_neg unplaced]
  by_cases unlined : line = 0
  · have split : (path ++ ": " ++ level.print ++ ": " ++ message).toList =
        path.toList ++ ':' :: ' ' :: (level.print.toList ++ ':' :: ' ' :: message.toList) := by
      simp
    rw [if_pos unlined, split, readDiagnostic, cut_append noColon]
    simp only [Option.bind_eq_bind, Option.bind_some, noLevel, readLevel_print, unplaced, unlined]
    rfl
  rw [if_neg unlined]
  by_cases noColumn : column = 0
  · have split : (path ++ ":" ++ toString line ++ ": " ++ level.print ++ ": " ++ message).toList =
        path.toList ++ ':' :: ((toString line).toList ++
          ':' :: ' ' :: (level.print.toList ++ ':' :: ' ' :: message.toList)) := by
      simp
    rw [if_pos noColumn, split, readDiagnostic, cut_append noColon]
    simp only [Option.bind_eq_bind, Option.bind_some, noLevel, readLevel_toString,
      cut_append (colon_notMem_toString line), ofDigitChars_toString, readLevel_print, unplaced,
      unlined, noColumn]
    rfl
  · have split : (path ++ ":" ++ toString line ++ ":" ++ toString column ++ ": " ++ level.print ++
          ": " ++ message).toList =
        path.toList ++ ':' :: ((toString line).toList ++ ':' :: ((toString column).toList ++
          ':' :: ' ' :: (level.print.toList ++ ':' :: ' ' :: message.toList))) := by
      simp
    rw [if_neg noColumn, split, readDiagnostic, cut_append noColon]
    simp only [Option.bind_eq_bind, Option.bind_some, noLevel, readLevel_toString,
      cut_append (colon_notMem_toString line), cut_append (colon_notMem_toString column),
      ofDigitChars_toString, readLevel_print, unplaced, unlined]
    rfl

theorem cut_front {text front behind : List Char} (found : cut text = some (front, behind)) :
    ':' ∉ front := by
  rw [cut] at found
  split at found
  · cases found
  · cases found
    intro membership
    simpa using List.mem_takeWhile_imp membership

theorem path_of_readMessage {path text : List Char} {line column : Nat} {level : ErrorLevel}
    {diagnostic : Diagnostic} (read : readMessage path line column level text = some diagnostic) :
    diagnostic.path = path := by
  rw [readMessage.eq_def] at read
  split at read
  · cases read
    rfl
  · cases read

theorem path_of_readLevel {path text : List Char} {line column : Nat} {diagnostic : Diagnostic}
    (read : readLevel path line column text = some diagnostic) : diagnostic.path = path := by
  rw [readLevel.eq_def] at read
  split at read
  · obtain ⟨_, -, rest⟩ := Option.bind_eq_some_iff.mp read
    obtain ⟨_, -, message⟩ := Option.bind_eq_some_iff.mp rest
    exact path_of_readMessage message
  · cases read

theorem path_of_readDiagnostic {text : List Char} {diagnostic : Diagnostic}
    (read : readDiagnostic text = some diagnostic) :
    ':' ∉ diagnostic.path ∧ levelOf diagnostic.path = none := by
  obtain ⟨⟨first, behind⟩, found, rest⟩ := Option.bind_eq_some_iff.mp read
  dsimp only at rest
  rcases name : levelOf first with _ | level
  · have path : diagnostic.path = first := by
      rw [name] at rest
      simp only [Option.orElse_eq_orElse, Option.orElse_eq_or] at rest
      rcases Option.or_eq_some_iff.mp rest with unlined | ⟨-, lined⟩
      · exact path_of_readLevel unlined
      · obtain ⟨_, -, lineRest⟩ := Option.bind_eq_some_iff.mp lined
        rcases Option.or_eq_some_iff.mp lineRest with noColumn | ⟨-, column⟩
        · exact path_of_readLevel noColumn
        · obtain ⟨_, -, columnRest⟩ := Option.bind_eq_some_iff.mp column
          exact path_of_readLevel columnRest
    rw [path]
    exact ⟨cut_front found, name⟩
  · rw [name] at rest
    rw [path_of_readMessage rest]
    decide

theorem readDiagnostic_print_iff {error : ErrorInfo} :
    readDiagnostic error.print.toList = some error.diagnostic ↔ error.Readable := by
  refine ⟨?_, readDiagnostic_print⟩
  intro read
  obtain ⟨noColon, noLevel⟩ := path_of_readDiagnostic read
  exact ⟨noColon, noLevel⟩

theorem newline_notMem_print {error : ErrorInfo} (oneLine : error.OneLine) :
    '\n' ∉ error.print.toList := by
  have level := newline_notMem_level error.level
  have digits : ∀ value, '\n' ∉ Nat.toDigits 10 value := notMem_toDigits (by decide)
  rw [ErrorInfo.print]
  split_ifs <;> simp [level, digits, oneLine.path, oneLine.message]

theorem splitOn_printLines {infos : List ErrorInfo} (oneLine : ∀ info ∈ infos, info.OneLine) :
    (printLines infos).splitOn '\n' = infos.map (fun info => info.print.toList) ++ [[]] := by
  induction infos with
  | nil => rfl
  | cons info infos inductionHypothesis =>
      obtain ⟨head, tail⟩ := List.forall_mem_cons.mp oneLine
      have next := inductionHypothesis tail
      rw [List.splitOn] at next ⊢
      have others : ∀ char ∈ info.print.toList, (char == '\n') = false := by
        intro char membership
        exact beq_eq_false_iff_ne.mpr (ne_of_mem_of_not_mem membership (newline_notMem_print head))
      rw [printLines, List.flatMap_cons, List.append_assoc, List.singleton_append,
        List.splitOnP_append_cons_of_forall_mem others _ (beq_self_eq_true _)]
      exact congrArg _ next

theorem readDiagnostics_printLines {infos : List ErrorInfo}
    (oneLine : ∀ info ∈ infos, info.OneLine) :
    readDiagnostics (printLines infos) = some (infos.map ErrorInfo.diagnostic) ↔
      ∀ info ∈ infos, info.Readable := by
  rw [readDiagnostics, splitOn_printLines oneLine, List.dropLast_concat]
  clear oneLine
  induction infos with
  | nil => exact iff_of_true rfl (List.forall_mem_nil _)
  | cons info infos inductionHypothesis =>
      rw [List.forall_mem_cons, ← readDiagnostic_print_iff, ← inductionHypothesis, List.map_cons,
        List.mapM_cons, List.map_cons]
      generalize (infos.map fun info => info.print.toList).mapM readDiagnostic = others
      rcases readDiagnostic info.print.toList with _ | first
      · simp
      · cases others with
        | none => simp
        | some others => simp

theorem print_congr {error other : ErrorInfo} (same : error.diagnostic = other.diagnostic) :
    error.print = other.print := by
  obtain ⟨⟨path, line, column⟩, message, kind, level, offset⟩ := error
  obtain ⟨⟨otherPath, otherLine, otherColumn⟩, otherMessage, otherKind, otherLevel, otherOffset⟩ :=
    other
  simp only [ErrorInfo.diagnostic, Diagnostic.mk.injEq, String.toList_inj] at same
  obtain ⟨rfl, lines, columns, rfl, rfl⟩ := same
  simp only [ErrorInfo.print]
  by_cases unplaced : path.isEmpty
  · rw [if_pos unplaced, if_pos unplaced]
  · rw [if_neg unplaced, if_neg unplaced] at lines
    subst lines
    rw [if_neg unplaced, if_neg unplaced]
    by_cases unlined : line = 0
    · rw [if_pos unlined, if_pos unlined]
    · rw [if_neg (not_or.mpr ⟨unplaced, unlined⟩), if_neg (not_or.mpr ⟨unplaced, unlined⟩)]
        at columns
      rw [columns]

theorem printLines_congr {infos others : List ErrorInfo}
    (same : infos.map ErrorInfo.diagnostic = others.map ErrorInfo.diagnostic) :
    printLines infos = printLines others := by
  induction infos generalizing others with
  | nil =>
      rw [List.map_eq_nil_iff.mp same.symm]
  | cons info infos inductionHypothesis =>
      obtain ⟨other, rest, rfl, head, tail⟩ := List.map_eq_cons_iff.mp same.symm
      have behind := inductionHypothesis tail.symm
      rw [printLines] at behind ⊢
      rw [printLines, List.flatMap_cons, List.flatMap_cons, print_congr head.symm, behind]
      rfl

/-- The lines that are printed are read as the errors exactly if each of these is readable, and
readable errors are printed alike only if the lines say the same of them. -/
theorem printLines_read {infos : List ErrorInfo} (oneLine : ∀ info ∈ infos, info.OneLine) :
    (readDiagnostics (printLines infos) = some (infos.map ErrorInfo.diagnostic) ↔
      ∀ info ∈ infos, info.Readable) ∧
    ((∀ info ∈ infos, info.Readable) → ∀ others : List ErrorInfo,
      (∀ other ∈ others, other.OneLine ∧ other.Readable) →
      (printLines infos = printLines others ↔
        infos.map ErrorInfo.diagnostic = others.map ErrorInfo.diagnostic)) := by
  refine ⟨readDiagnostics_printLines oneLine, ?_⟩
  intro readable others othersRead
  refine ⟨?_, printLines_congr⟩
  intro same
  have read := (readDiagnostics_printLines oneLine).mpr readable
  have readOthers := (readDiagnostics_printLines fun other membership =>
    (othersRead other membership).1).mpr fun other membership => (othersRead other membership).2
  rw [same] at read
  exact Option.some.inj (read.symm.trans readOthers)

theorem printLines_read_pair :
    let infos : List ErrorInfo :=
      [{ debug := { filePath := "f", line := 2, column := 3 }, message := "a: b", kind := .unknown,
          level := .warning },
        { debug := {}, message := "", kind := .unknown, level := .error }]
    (readDiagnostics (printLines infos) = some (infos.map ErrorInfo.diagnostic) ↔
      ∀ info ∈ infos, info.Readable) ∧
    ((∀ info ∈ infos, info.Readable) → ∀ others : List ErrorInfo,
      (∀ other ∈ others, other.OneLine ∧ other.Readable) →
      (printLines infos = printLines others ↔
        infos.map ErrorInfo.diagnostic = others.map ErrorInfo.diagnostic)) := by
  intro infos
  refine printLines_read ?_
  rw [List.forall_mem_cons, List.forall_mem_singleton]
  exact ⟨⟨by decide, by decide⟩, ⟨by decide, by decide⟩⟩

end BinaryReader

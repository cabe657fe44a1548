import BinaryReader.Parser.DefinitionParser
import Mathlib.Data.List.TakeWhile

/-!
# Locations of definition errors

The visitor locates an error by the position of a token in its line, the error handler
by its position in the whole text.  They are the same on the first line only.
-/

namespace BinaryReader

/-- The number of the line that a position of a text is in, from one. -/
def lineOf (text : List Char) (index : Nat) : Nat := (text.take index).count '\n' + 1

def columnOf (text : List Char) (index : Nat) : Nat :=
  ((text.take index).reverse.takeWhile fun symbol => symbol ≠ '\n').length

/-- What the runtime says of a token of a text. -/
structure Token.Placed (text : List Char) (token : Token) : Prop where
  inside : token.startIndex ≤ text.length
  line : token.line = lineOf text token.startIndex
  charPositionInLine : token.charPositionInLine = columnOf text token.startIndex

theorem lineOf_eq_one_iff (text : List Char) (index : Nat) :
    lineOf text index = 1 ↔ '\n' ∉ text.take index := by
  rw [lineOf, Nat.add_eq_right, List.count_eq_zero]

theorem columnOf_eq_iff {text : List Char} {index : Nat} (inside : index ≤ text.length) :
    columnOf text index = index ↔ '\n' ∉ text.take index := by
  have length : (text.take index).reverse.length = index := by
    rw [List.length_reverse, List.length_take_of_le inside]
  have whole : columnOf text index = index ↔
      ((text.take index).reverse.takeWhile fun symbol => symbol ≠ '\n') =
        (text.take index).reverse := by
    constructor
    · intro same
      exact (List.takeWhile_prefix _).eq_of_length (same.trans length.symm)
    · intro same
      rw [columnOf, same, length]
  rw [whole, List.takeWhile_eq_self_iff]
  constructor
  · intro all newline
    exact absurd (all '\n' (List.mem_reverse.mpr newline)) (by decide)
  · intro none symbol membership
    refine decide_eq_true fun newline => none ?_
    rw [← newline]
    exact List.mem_reverse.mp membership

/-- A syntax error and an error of the visitor at the same token are both located at its line
and its position in that line. -/
def LocatesAlike (text : List Char) (token : Token) : Prop :=
  ∀ (visitor : Visitor) (message : String) (kind : ErrorKind) (arguments : List String)
    (level : ErrorLevel), ∃ syntactic semantic : ErrorInfo,
    syntaxError visitor.path visitor.errors ⟨some token, token.line, message⟩ =
        .ok (visitor.errors.add syntactic) ∧
      (visitor.addError kind arguments token level).errors = visitor.errors.add semantic ∧
      semantic.debug = ⟨visitor.path, lineOf text token.startIndex,
        columnOf text token.startIndex⟩ ∧
      syntactic.debug = semantic.debug

theorem ErrorCollection.add_inj {collection : ErrorCollection} {info other : ErrorInfo}
    (same : collection.add info = collection.add other) : info = other := by
  have lists := congrArg ErrorCollection.errors same
  rw [add_errors, add_errors] at lists
  exact List.singleton_inj.mp (List.append_cancel_left lists)

/-- Both errors are located alike exactly when the token is on the first line. -/
theorem locatesAlike_iff {text : List Char} {token : Token} (placed : token.Placed text) :
    LocatesAlike text token ↔ token.line = 1 := by
  rw [placed.line, lineOf_eq_one_iff, ← columnOf_eq_iff placed.inside]
  constructor
  · intro alike
    obtain ⟨syntactic, semantic, syntacticAdded, -, located, same⟩ :=
      alike { path := "", defs := [], errors := {} } "" .unknown [] .error
    have info := ErrorCollection.add_inj (Except.ok.inj syntacticAdded)
    rw [← info, located] at same
    exact (congrArg DebugInfo.column same).symm
  · intro first visitor message kind arguments level
    refine ⟨_, _, rfl, rfl, ?_, ?_⟩
    · rw [← placed.line, ← placed.charPositionInLine]
      rfl
    · show (⟨_, _, token.startIndex⟩ : DebugInfo) = ⟨_, _, token.charPositionInLine⟩
      rw [placed.charPositionInLine, first]

theorem locatesAlike_iff_name :
    Token.Placed "type a".toList ⟨"a", 1, 5, 5⟩ ∧
      (LocatesAlike "type a".toList ⟨"a", 1, 5, 5⟩ ↔ (⟨"a", 1, 5, 5⟩ : Token).line = 1) :=
  ⟨⟨by decide, by decide, by decide⟩, locatesAlike_iff ⟨by decide, by decide, by decide⟩⟩

/-- A stray semicolon at the start of the second line, which the error handler locates in
its second column. -/
theorem not_locatesAlike :
    Token.Placed "\n;".toList ⟨";", 2, 0, 1⟩ ∧
      ¬ ∀ (text : List Char) (token : Token), token.Placed text → LocatesAlike text token := by
  have placed : Token.Placed "\n;".toList ⟨";", 2, 0, 1⟩ := ⟨by decide, by decide, by decide⟩
  refine ⟨placed, fun all => ?_⟩
  obtain ⟨syntactic, semantic, syntacticAdded, semanticAdded, -, same⟩ :=
    all _ _ placed { path := "", defs := [], errors := {} } "" .unknown [] .error
  rw [← ErrorCollection.add_inj (Except.ok.inj syntacticAdded),
    ← ErrorCollection.add_inj semanticAdded] at same
  exact absurd (congrArg DebugInfo.column same) (by decide)

end BinaryReader

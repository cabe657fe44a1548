import BinaryReader.Parser.Meaning.RoundTrip

/-!
# More bytes and more declarations

What is added behind a file or behind a definition changes nothing that was there.
Only an integer that the file ends in front of may be found in a longer file.
-/

namespace BinaryReader

inductive Meaning.Extends : Meaning → Meaning → Prop where
  | same (meaning : Meaning) : Extends meaning meaning
  | complete (value : Int) : Extends .endOfStream (.integer value)

section Bytes

variable {contents : List UInt8} (more : List UInt8)

theorem integerMeaning_append {field : FieldDecl} {place : Nat} {format : Nat × Bool}
    (inside : place + format.1 ≤ contents.length) :
    integerMeaning (contents ++ more) field place format =
      integerMeaning contents field place format := by
  have longer : place + format.1 ≤ (contents ++ more).length := by
    rw [List.length_append]
    omega
  have taken : ((contents ++ more).drop place).take format.1 =
      (contents.drop place).take format.1 := by
    rw [List.drop_append_of_le_length (by omega),
      List.take_append_of_le_length (by rw [List.length_drop]; omega)]
  rw [integerMeaning, integerMeaning, if_neg (Nat.not_lt.mpr inside),
    if_neg (Nat.not_lt.mpr longer), taken]

theorem integerMeaning_extends (field : FieldDecl) (place : Nat) (format : Nat × Bool) :
    (integerMeaning contents field place format).Extends
      (integerMeaning (contents ++ more) field place format) := by
  by_cases inside : place + format.1 ≤ contents.length
  · rw [integerMeaning_append more inside]
    exact .same _
  · have cutOff : integerMeaning contents field place format = .endOfStream :=
      if_pos (Nat.not_le.mp inside)
    rw [cutOff, integerMeaning]
    split_ifs
    · exact .same _
    · exact .complete _

theorem fieldMeaning_extends (scope : Scope) (start : Nat) (name : String) :
    (fieldMeaning contents scope start name).Extends
      (fieldMeaning (contents ++ more) scope start name) := by
  rcases scope with _ | ⟨decl, earlier⟩
  · exact .same _
  rw [fieldMeaning, fieldMeaning]
  rcases Scope.locate earlier name decl.fields start with _ | ⟨place, field⟩
  · exact .same _
  dsimp only
  rcases Scope.find earlier field.typeName with _ | ⟨first, inner⟩
  · dsimp only
    rcases builtInFormats.lookup field.typeName with _ | format
    · exact .same _
    · exact integerMeaning_extends more field place format
  · exact .same _

/-- A path that has a meaning has the same one in a longer file, or was cut off. -/
theorem pathMeaning_extends (scope : Scope) (start : Nat) (names : List String) :
    Option.Rel Meaning.Extends (pathMeaning contents scope start names)
      (pathMeaning (contents ++ more) scope start names) := by
  induction names generalizing scope start with
  | nil => exact .some (.same _)
  | cons name names inductionHypothesis =>
      have field : (fieldMeaning contents scope start name).Extends _ :=
        fieldMeaning_extends more scope start name
      rw [pathMeaning, pathMeaning]
      generalize fieldMeaning contents scope start name = meaning at field ⊢
      generalize fieldMeaning (contents ++ more) scope start name = longer at field ⊢
      cases field with
      | complete value =>
          dsimp only
          split_ifs
          · exact .some (.complete value)
          · exact .none
      | same =>
          cases meaning with
          | object inner place => exact inductionHypothesis inner place
          | _ =>
              dsimp only
              split_ifs
              · exact .some (.same _)
              · exact .none

end Bytes

namespace Scope

theorem locate_inside {earlier : Scope} {name : String} {fields : List FieldDecl} {start : Nat}
    {place : Nat} {field : FieldDecl}
    (located : locate earlier name fields start = some (place, field)) :
    place + bytesOf earlier field.typeName ≤ start + sumOf earlier fields := by
  induction fields generalizing start with
  | nil => cases located
  | cons head fields inductionHypothesis =>
      rw [locate] at located
      rw [sumOf_cons]
      split_ifs at located
      · cases located
        omega
      · have behind := inductionHypothesis located
        omega

/-- Bytes behind a type do not matter. -/
theorem pathMeaning_append {contents : List UInt8} {scope : Scope} {start : Nat}
    (inside : start + bytes scope ≤ contents.length) (more : List UInt8) (names : List String) :
    pathMeaning (contents ++ more) scope start names = pathMeaning contents scope start names := by
  induction names generalizing scope start with
  | nil => rfl
  | cons name names inductionHypothesis =>
      rcases scope with _ | ⟨decl, earlier⟩
      · rfl
      rw [pathMeaning, pathMeaning, fieldMeaning, fieldMeaning]
      rcases located : locate earlier name decl.fields start with _ | ⟨place, field⟩
      · rfl
      have fieldInside : place + bytesOf earlier field.typeName ≤ contents.length :=
        (locate_inside located).trans inside
      dsimp only
      rcases type : find earlier field.typeName with _ | ⟨first, inner⟩
      · rw [bytesOf_of_find_nil type] at fieldInside
        dsimp only
        rcases lookup : builtInFormats.lookup field.typeName with _ | format
        · rfl
        · rw [lookup] at fieldInside
          rw [Option.elim, Option.elim, integerMeaning_append more fieldInside, integerMeaning]
          split_ifs <;> rfl
      · obtain ⟨size, -⟩ := bytes_find type
        exact inductionHypothesis (by rw [size]; exact fieldInside)

/-- Declarations behind the one with a name do not change what the name stands for. -/
theorem root_append {decls later : List TypeDecl} {name : String} (nonEmpty : name ≠ "")
    (fresh : name ∉ later.map TypeDecl.name) : root (decls ++ later) name = root decls name := by
  have skipped : ∀ decl ∈ later.reverse, decide (decl.name ≠ name) = true := by
    intro decl membership
    rw [decide_eq_true_iff]
    rintro rfl
    exact fresh (List.mem_map_of_mem (List.mem_reverse.mp membership))
  rw [root, root, if_neg nonEmpty, if_neg nonEmpty, find, List.reverse_append,
    List.dropWhile_append_of_pos skipped]
  rfl

end Scope

theorem SizesBounded.of_append {decls later : List TypeDecl}
    (bounded : SizesBounded (decls ++ later)) : SizesBounded decls := by
  intro decl earlier suffix_
  apply bounded decl earlier
  rw [List.reverse_append]
  exact suffix_.trans (List.suffix_append _ _)

end BinaryReader

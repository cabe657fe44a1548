import BinaryReader.Parser.Acceptance.Objects
import BinaryReader.Parser.Meaning.Fields

/-!
# File parsers

A parser holds the types of an accepted definition and makes the root object of
a file.  A null pointer to an error collection is none here.  The parser gets a
reader of the file; the file system of its options comes with the requests.
-/

namespace BinaryReader

/-- `FileParser::Impl`. Its creation refuses a definition without types. -/
structure FileParser where
  definitions : List TypeDefinition
  nonEmpty : definitions ≠ []

def Value.asObject : Value → Checked ObjectId
  | .object id => .ok id
  | _ => .error .badCast

namespace FileParser

def createFromDefinition (recognize : Recognizer) (definition : List UInt8) (path : String)
    (errors : Option ErrorCollection) :
    Checked (Option FileParser × Option ErrorCollection) := do
  let (parsed, definitions, reported) ←
    parseDefinitionFile recognize path definition [] (errors.getD {})
  if !parsed then
    return (none, errors.map fun _ => reported)
  else if nonEmpty : definitions ≠ [] then
    return (some ⟨definitions, nonEmpty⟩, errors.map fun _ => reported)
  else
    return (none, errors.map fun _ => reported.add (.ofKind { filePath := path } .noTypes 0))

/-- The definition that a name asks for, the last one if there is no name. -/
def definitionOf (self : FileParser) (type : String) : Option TypeDefinition :=
  if type = "" then some (self.definitions.getLast self.nonEmpty)
  else self.definitions.find? fun definition => definition.aliasName = type

variable {σ : Type} (fileReader : FileReader σ)

/-- `ParseFile` on a reader. `memory` is what the new buffer holds. -/
def parseFile (self : FileParser) (file : σ) (memory : Nat → UInt8) (path type : String)
    (errors : Option ErrorCollection) :
    Checked (Option (ObjectId × World σ) × Option ErrorCollection) :=
  match self.definitionOf type with
  | none =>
      .ok (none, errors.map fun collection =>
        collection.add (.ofArguments { filePath := path } .unknownType [type] .error))
  | some definition => do
      let (success, value, world, reported) ← World.readObject fileReader definition
        { reader := { reader := file, buffer := memory } } .null (errors.getD {})
      let errors := errors.map fun _ => reported
      if success then
        return (some (← value.asObject, world), errors)
      else
        return (none, errors)

section Created

variable {recognize : Recognizer} {definition : List UInt8} {path : String}
  {errors added : Option ErrorCollection} {parser : FileParser}

/-- What a parser holds: the well-formed types that mirror the declarations. -/
theorem created_spec (created : createFromDefinition recognize definition path errors =
    .ok (some parser, added)) :
    ∃ main, (recognize definition).result = .ok main ∧
      Mirrors main.decls.reverse parser.definitions ∧
      ∀ type ∈ parser.definitions, type.WellFormed := by
  obtain ⟨⟨parsed, definitions, reported⟩, parsedEq, rest⟩ := Checked.bind_eq_ok_iff.mp created
  cases parsed with
  | false => cases rest
  | true =>
      dsimp only at rest
      rw [if_neg (by decide)] at rest
      split at rest
      · cases rest
        obtain ⟨main, types, -, tree, -, same, built, acceptable, wellFormed, -⟩ :=
          accepted_spec parsedEq
        rw [List.nil_append] at same
        subst same
        have mirrors := built.mirrors .nil (declsFit_iff.mpr acceptable)
        rw [List.append_nil, List.nil_append] at mirrors
        exact ⟨main, tree, mirrors, wellFormed⟩
      · cases rest

end Created

theorem find?_eq_some_iff {types : List TypeDefinition} {name : String} {type : TypeDefinition} :
    (types.find? fun type => type.aliasName = name) = some type ↔
      lookupType types name = some (.definition type) := by
  rw [lookupType, Stack.getType]
  dsimp only
  rcases found : types.find? fun type => type.aliasName = name with _ | other
  · rw [found]
    apply iff_of_false
    · intro missing
      cases missing
    · intro builtIn
      obtain ⟨info, isInteger, -⟩ := builtIn_integer (List.mem_of_find?_eq_some builtIn)
      cases isInteger
  · rw [found]
    simp

/-- The root type of a name is the one that the definition means. -/
theorem definitionOf_spec {self : FileParser} {decls : List TypeDecl}
    (mirrors : Mirrors decls.reverse self.definitions) (name : String) :
    (∃ type, self.definitionOf name = some type ∧ type ∈ self.definitions ∧
        Represents (Scope.root decls name) type ∧ (name = "" ∨ name ∈ decls.map TypeDecl.name)) ∨
      (self.definitionOf name = none ∧ name ≠ "" ∧ name ∉ decls.map TypeDecl.name) := by
  rw [definitionOf, Scope.root]
  by_cases unnamed : name = ""
  · rw [if_pos unnamed, if_pos unnamed]
    refine Or.inl ⟨_, rfl, List.getLast_mem _, ?_, Or.inl unnamed⟩
    rcases reversed : decls.reverse with _ | ⟨decl, earlier⟩
    · rw [reversed] at mirrors
      obtain ⟨definitions, nonEmpty⟩ := self
      cases mirrors
      exact absurd rfl nonEmpty
    · rw [reversed] at mirrors
      obtain ⟨front, last, same, -, built, -⟩ := mirrors.cons_inversion
      have lastEq : self.definitions.getLast self.nonEmpty = last := by
        simp only [same, List.getLast_append_singleton]
      rw [lastEq]
      rw [same] at mirrors
      exact mirrors.represents built.1 rfl
  · rw [if_neg unnamed, if_neg unnamed]
    rcases mirrors.lookup name with ⟨decl, earlier, front, type, find, inner, typeName, looked⟩ |
      ⟨find, looked⟩
    · have found := find?_eq_some_iff.mpr looked
      refine Or.inl ⟨type, found, List.mem_of_find?_eq_some found, ?_, Or.inr ?_⟩
      · rw [find]
        exact inner.represents typeName rfl
      · by_contra undeclared
        have empty : Scope.find decls.reverse name = [] := by
          rwa [Scope.find_eq_nil_iff, List.map_reverse, List.mem_reverse]
        cases find.symm.trans empty
    · refine Or.inr ⟨?_, unnamed, ?_⟩
      · rcases found : self.definitions.find? fun type => type.aliasName = name with _ | type
        · exact found
        · rw [find?_eq_some_iff, looked] at found
          obtain ⟨_, -, builtIn⟩ := Option.map_eq_some_iff.mp found
          cases builtIn
      · rwa [Scope.find_eq_nil_iff, List.map_reverse, List.mem_reverse] at find

theorem parseFile_spec {σ : Type} {fileReader : FileReader σ} {contents : List UInt8}
    (contract : fileReader.Contract contents) {self : FileParser} {type : String}
    {root : TypeDefinition} (found : self.definitionOf type = some root)
    (wellFormed : root.WellFormed) (file : σ) (memory : Nat → UInt8) (path : String)
    (errors : Option ErrorCollection) :
    ∃ reader, self.parseFile fileReader file memory path type errors =
        .ok (some (0, { reader, objects := [FileObject.parse root .zero] }), errors) ∧
      (∃ position, reader.Tracks fileReader contents position) ∧
      World.Sound fileReader contents { reader, objects := [FileObject.parse root .zero] } := by
  have usable : BufferedFileReader.Usable fileReader contents
      { reader := file, buffer := memory } := Or.inl rfl
  have empty : World.Sound fileReader contents
      { reader := { reader := file, buffer := memory } } := ⟨usable, nofun⟩
  obtain ⟨reader, read, tracks, sound⟩ := World.readObject_spec contract empty wellFormed .null
    (errors.getD {})
  refine ⟨reader, ?_, ⟨_, tracks⟩, sound⟩
  rw [parseFile, found]
  dsimp only
  rw [read]
  cases errors with
  | none => rfl
  | some errors => rfl

end FileParser

end BinaryReader

import BinaryReader.Public.FileObject.Observation
import BinaryReader.Public.FileParser

/-!
# Paths through a parsed file

Whatever calls came before, a path of names from the root of a file leads to
what the reference layout of the definition says.
-/

namespace BinaryReader

namespace World

variable {σ : Type}

/-- What `GetFieldValue` returns, with `*value`, the world and the errors behind it. -/
abbrev Reply (σ : Type) := Bool × Value × World σ × ErrorCollection

/-- Ask for one name after another, each time the object that was returned last. There is
no reply if the path goes on behind something that is not an object. -/
def follow (fileReader : FileReader σ) (errors : ErrorCollection) :
    List String → World σ → ObjectId → Checked (Option (Reply σ))
  | [], world, id => .ok (some (true, .object id, world, errors))
  | name :: names, world, id => do
      let (returned, value, next, added) ← world.getFieldValue fileReader id name .null errors
      match returned, value with
      | true, .object child => follow fileReader errors names next child
      | _, _ => return if names = [] then some (returned, value, next, added) else none

def Shows : Meaning → Reply σ → Prop
  | .null, (returned, value, _, _) => returned = true ∧ value = .null
  | .integer integer, (returned, value, _, _) =>
      returned = true ∧ ∃ number, value = .number number ∧ number.toInt? = some integer
  | .endOfStream, (returned, _, _, errors) =>
      returned = false ∧ ∃ info, errors.errors.getLast? = some info ∧
        info.kind = .unexpectedEndOfStream
  | .object scope start, (returned, value, world, _) =>
      returned = true ∧ ∃ id object, value = .object id ∧ world.objects[id]? = some object ∧
        object.startPosition.bitCount = 8 * start ∧
        ∃ decl ∈ scope.head?, object.type.aliasName = decl.name

/-- There is a reply exactly when something is meant, and it shows it. -/
def Answers : Option Meaning → Option (Reply σ) → Prop
  | some meaning, some reply => Shows meaning reply
  | none, none => True
  | _, _ => False

theorem answers_last {meaning : Meaning} {reply : Reply σ} (shows_ : Shows meaning reply)
    (names : List String) :
    Answers (if names = [] then some meaning else none)
      (if names = [] then some reply else none) := by
  by_cases last : names = []
  · rwa [if_pos last, if_pos last]
  · rw [if_neg last, if_neg last]
    trivial

variable {fileReader : FileReader σ} {contents : List UInt8}

/-- A path from an object in a sound world leads to what it means. -/
theorem follow_spec (contract : fileReader.Contract contents) (errors : ErrorCollection)
    (names : List String) {world : World σ} (sound : world.Sound fileReader contents)
    {id : ObjectId} {object : FileObject} (found : world.objects[id]? = some object)
    {scope : Scope} {start : Nat} (placed : Placed scope start object.type object.startPosition) :
    ∃ reply, follow fileReader errors names world id = .ok reply ∧
      Answers (pathMeaning contents scope start names) reply := by
  induction names generalizing world id object scope start with
  | nil =>
      obtain ⟨decl, earlier, _, _, rfl, name, -⟩ := placed.represents
      exact ⟨_, rfl, rfl, id, object, rfl, found, placed.position, decl, rfl, name⟩
  | cons name names inductionHypothesis =>
      obtain ⟨outcome, returned, result, next, added, outcomeEq, called, reported, nextSound, -⟩ :=
        getFieldValue_spec contract sound found name .null errors
      obtain ⟨meant, meantEq, means⟩ := fieldOutcome_means contents placed name
      cases outcomeEq.symm.trans meantEq
      rw [follow, called, Checked.ok_bind, pathMeaning]
      dsimp only
      generalize fieldMeaning contents scope start name = meaning at means ⊢
      match meaning, outcome, means with
      | .null, .ok .null, _ =>
          obtain ⟨rfl, seen, -⟩ := reported
          obtain rfl := look_eq_null seen
          have shown : Shows .null (true, .null, next, added) := ⟨rfl, rfl⟩
          exact ⟨_, rfl, answers_last shown names⟩
      | .integer value, .ok (.number number), means =>
          obtain ⟨rfl, seen, -⟩ := reported
          obtain rfl := look_eq_number seen
          have shown : Shows (.integer value) (true, .number number, next, added) :=
            ⟨rfl, number, rfl, means⟩
          exact ⟨_, rfl, answers_last shown names⟩
      | .endOfStream, .error info, means =>
          obtain ⟨rfl, -, -, rfl⟩ := reported
          have shown : Shows .endOfStream (false, result, next, errors.add info) :=
            ⟨rfl, info, by simp, means⟩
          exact ⟨_, rfl, answers_last shown names⟩
      | .object inner place, .ok (.object type startPosition), means =>
          obtain ⟨rfl, seen, -⟩ := reported
          obtain ⟨child, childObject, rfl, childFound, rfl, rfl⟩ := look_eq_object seen
          exact inductionHypothesis nextSound childFound means

end World

namespace FileParser

/-- A parser makes a root object exactly for the declared names and for no name. Behind
any calls on the root and its children, every path from the root leads to what the
definition means. -/
theorem parseFile_meaning {recognize : Recognizer} {definition : List UInt8}
    {definitionPath : String} {errors added : Option ErrorCollection} {parser : FileParser}
    (created : createFromDefinition recognize definition definitionPath errors =
      .ok (some parser, added))
    {main : MainContext} (tree : (recognize definition).result = .ok main)
    (bounded : SizesBounded main.decls) {σ : Type} {fileReader : FileReader σ}
    {contents : List UInt8} (contract : fileReader.Contract contents) (file : σ)
    (memory : Nat → UInt8) (path type : String) (collection : Option ErrorCollection) :
    (type = "" ∨ type ∈ main.decls.map TypeDecl.name →
      ∃ world, parser.parseFile fileReader file memory path type collection =
          .ok (some (0, world), collection) ∧
        ∀ calls answers reached,
          (World.machine fileReader).run world calls = .ok (answers, reached) →
          ∀ names fieldErrors, ∃ reply,
            World.follow fileReader fieldErrors names reached 0 = .ok reply ∧
            World.Answers
              (pathMeaning contents (Scope.root main.decls type) 0 names) reply) ∧
    (¬ (type = "" ∨ type ∈ main.decls.map TypeDecl.name) →
      ∃ reported, parser.parseFile fileReader file memory path type collection =
        .ok (none, reported)) := by
  obtain ⟨_, sameTree, mirrors, wellFormed⟩ := created_spec created
  cases tree.symm.trans sameTree
  rcases definitionOf_spec mirrors type with ⟨root, rootEq, membership, represents, named⟩ |
    ⟨missing, unnamed, undeclared⟩
  · refine ⟨?_, fun unknown => absurd named unknown⟩
    intro _
    obtain ⟨reader, parsed, -, sound⟩ := parseFile_spec contract rootEq
      (wellFormed root membership) file memory path collection
    refine ⟨_, parsed, ?_⟩
    intro calls answers reached ran names fieldErrors
    obtain ⟨reachedSound, grows⟩ := World.run_sound contract sound ran
    obtain ⟨object, found, typeEq, startEq⟩ := grows 0 _ rfl
    apply World.follow_spec contract fieldErrors names reachedSound found
    rw [typeEq, startEq]
    obtain ⟨decl, earlier, _, _, scopeEq, -⟩ := id represents
    refine ⟨represents, rfl, ?_⟩
    have suffix_ := Scope.root_suffix main.decls type
    rw [Nat.zero_add, scopeEq]
    rw [scopeEq] at suffix_
    exact bounded decl earlier suffix_
  · refine ⟨fun known => absurd known (not_or.mpr ⟨unnamed, undeclared⟩), ?_⟩
    intro _
    rw [parseFile, missing]
    exact ⟨_, rfl⟩

theorem parseFile_meaning_nested :
    ∃ world,
      parseFile (memoryFileReader [7, 8]) ⟨[oneByte, byteAndOne], List.cons_ne_nil _ _⟩ 1
        (fun _ => 3) "file" "b" none = .ok (some (0, world), none) ∧
      ∀ calls answers reached,
        (World.machine (memoryFileReader [7, 8])).run world calls = .ok (answers, reached) →
        (∃ reply,
          World.follow (memoryFileReader [7, 8]) {} ["y", "x"] reached 0 = .ok (some reply) ∧
          World.Shows (.integer 7) reply) ∧
        ∃ reply, World.follow (memoryFileReader [7, 8]) {} ["z"] reached 0 = .ok (some reply) ∧
          World.Shows (.integer 8) reply := by
  have created : createFromDefinition (fun _ => { result := .ok nestedTypes })
      (textBytes "type a \x7b byte x; \x7d type b \x7b a y; byte z; \x7d") "" none =
        .ok (some ⟨[oneByte, byteAndOne], List.cons_ne_nil _ _⟩, none) := rfl
  obtain ⟨world, parsed, paths⟩ := (parseFile_meaning created rfl nestedTypes_bounded
    (memoryFileReader_contract [7, 8]) 1 (fun _ => 3) "file" "b" none).1 (Or.inr (by decide))
  refine ⟨world, parsed, ?_⟩
  intro calls answers reached ran
  have shown : ∀ names value, pathMeaning [7, 8] (Scope.root nestedTypes.decls "b") 0 names =
      some (.integer value) →
      ∃ reply, World.follow (memoryFileReader [7, 8]) {} names reached 0 = .ok (some reply) ∧
        World.Shows (.integer value) reply := by
    intro names value meant
    obtain ⟨reply, followed, answers⟩ := paths calls answers reached ran names {}
    rw [meant] at answers
    cases reply with
    | none => exact answers.elim
    | some reply => exact ⟨reply, followed, answers⟩
  exact ⟨shown ["y", "x"] 7 rfl, shown ["z"] 8 rfl⟩

end FileParser

end BinaryReader

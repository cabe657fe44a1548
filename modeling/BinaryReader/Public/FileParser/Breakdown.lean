import BinaryReader.Public.FileObject.Breakdown
import BinaryReader.Public.FileParser.Paths
import BinaryReader.Public.FileSystem.Streams

/-!
# Paths through a file that cannot be read

Calls of the underlying reader may fail at any time.  A path from the root then
leads to what it means, or to a call that failed and has added an error.
-/

namespace BinaryReader

open Library BufferedFileReader

variable {σ : Type} {fileReader : FileReader σ} {contents : List UInt8} {broken : σ → Prop}

namespace World

/-- A reply that shows what is meant, or one of a call that failed. -/
def Trusted (errors : ErrorCollection) (meant : Option Meaning) : Option (Reply σ) → Prop
  | some (true, value, next, added) =>
      ∃ meaning, meant = some meaning ∧ Shows meaning (true, value, next, added)
  | some (false, _, _, added) => ∃ info, added = errors.add info
  | none => True

theorem trusted_last {errors : ErrorCollection} {meaning : Meaning} {reply : Reply σ}
    (shows_ : Shows meaning reply) (succeeded : reply.1 = true) (names : List String) :
    Trusted errors (if names = [] then some meaning else none)
      (if names = [] then some reply else none) := by
  obtain ⟨returned, value, next, added⟩ := reply
  cases succeeded
  by_cases last : names = []
  · rw [if_pos last, if_pos last]
    exact ⟨meaning, rfl, shows_⟩
  · rw [if_neg last, if_neg last]
    trivial

/-- A path from an object leads to what it means unless a call fails. -/
theorem follow_breaks (breaks : fileReader.BreaksDown contents broken) (errors : ErrorCollection)
    (names : List String) {world : World σ} (steady : world.Steady fileReader contents broken)
    {id : ObjectId} {object : FileObject} (found : world.objects[id]? = some object)
    {scope : Scope} {start : Nat} (placed : Placed scope start object.type object.startPosition) :
    ∃ reply, follow fileReader errors names world id = .ok reply ∧
      Trusted errors (pathMeaning contents scope start names) reply := by
  induction names generalizing world id object scope start with
  | nil =>
      obtain ⟨decl, earlier, _, _, rfl, name, -⟩ := placed.represents
      exact ⟨_, rfl, _, rfl, rfl, id, object, rfl, found, placed.position, decl, rfl, name⟩
  | cons name names inductionHypothesis =>
      obtain ⟨returned, result, next, added, called, honest, nextSteady, -⟩ :=
        getFieldValue_breaks breaks steady found name .null errors
      rw [follow, called, Checked.ok_bind, pathMeaning]
      dsimp only
      cases returned with
      | false =>
          refine ⟨_, rfl, ?_⟩
          by_cases last : names = []
          · rw [if_pos last]
            exact honest.adds
          · rw [if_neg last]
            trivial
      | true =>
          cases honest.adds
          obtain ⟨sight, outcomeEq, seen⟩ := honest.correct rfl
          obtain ⟨meant, meantEq, means⟩ := fieldOutcome_means contents placed name
          cases outcomeEq.symm.trans meantEq
          generalize fieldMeaning contents scope start name = meaning at means ⊢
          cases sight with
          | null =>
              cases meaning <;> try exact means.elim
              obtain rfl := look_eq_null seen
              have shown : Shows .null (true, .null, next, errors) := ⟨rfl, rfl⟩
              exact ⟨_, rfl, trusted_last shown rfl names⟩
          | number number =>
              cases meaning <;> try exact means.elim
              obtain rfl := look_eq_number seen
              have shown : Shows (.integer _) (true, .number number, next, errors) :=
                ⟨rfl, number, rfl, means⟩
              exact ⟨_, rfl, trusted_last shown rfl names⟩
          | object type startPosition =>
              cases meaning <;> try exact means.elim
              obtain ⟨child, childObject, rfl, childFound, rfl, rfl⟩ := look_eq_object seen
              exact inductionHypothesis nextSteady childFound means

end World

namespace FileParser

theorem parseFile_breaks (breaks : fileReader.BreaksDown contents broken) {self : FileParser}
    {type : String} {root : TypeDefinition} (found : self.definitionOf type = some root)
    (wellFormed : root.WellFormed) (file : σ) (memory : Nat → UInt8) (path : String)
    (errors : ErrorCollection) :
    ∃ (returned : Bool) (world : World σ) (added : ErrorCollection),
      self.parseFile fileReader file memory path type (some errors) =
        .ok (if returned then some (0, world) else none, some added) ∧
      Adds returned errors added ∧ world.Steady fileReader contents broken ∧
      world.objects = [FileObject.parse root .zero] := by
  have fresh : World.Steady fileReader contents broken
      { reader := { reader := file, buffer := memory } } :=
    ⟨steady_new file memory, nofun⟩
  obtain ⟨returned, world, added, read, adds, steady, objects⟩ :=
    World.readObject_breaks breaks fresh wellFormed .null errors
  refine ⟨returned, world, added, ?_, adds, steady, objects⟩
  rw [parseFile, found]
  dsimp only [Option.getD_some]
  rw [read]
  cases returned with
  | false => rfl
  | true => rfl

/-- Whatever calls of the reader fail: a request gives the root object or adds an error, and
behind any calls every path leads to what it means or to a call that failed. -/
theorem parseFile_honest {recognize : Recognizer} {definition : List UInt8}
    {definitionPath : String} {errors added : Option ErrorCollection} {parser : FileParser}
    (created : createFromDefinition recognize definition definitionPath errors =
      .ok (some parser, added))
    {main : MainContext} (tree : (recognize definition).result = .ok main)
    (bounded : SizesBounded main.decls) (breaks : fileReader.BreaksDown contents broken) (file : σ)
    (memory : Nat → UInt8) (path type : String) (collection : ErrorCollection) :
    ∃ made collected,
      parser.parseFile fileReader file memory path type (some collection) =
        .ok (made, some collected) ∧
      Adds made.isSome collection collected ∧
      ∀ id world, made = some (id, world) → ∀ calls answers reached,
        (World.machine fileReader).run world calls = .ok (answers, reached) →
        (∀ call : World.Call, call.id < reached.objects.length →
          ∃ answer next, World.answer fileReader reached call = .ok (answer, next)) ∧
        ∀ names fieldErrors, ∃ reply,
          World.follow fileReader fieldErrors names reached id = .ok reply ∧
          World.Trusted fieldErrors
            (pathMeaning contents (Scope.root main.decls type) 0 names) reply := by
  obtain ⟨_, sameTree, mirrors, wellFormed⟩ := created_spec created
  cases tree.symm.trans sameTree
  rcases definitionOf_spec mirrors type with ⟨root, found, membership, represents, -⟩ |
    ⟨missing, -, -⟩
  · obtain ⟨returned, start, collected, parsed, adds, steady, objects⟩ :=
      parseFile_breaks breaks found (wellFormed root membership) file memory path collection
    refine ⟨_, collected, parsed, ?_, ?_⟩
    · cases returned with
      | false => exact adds
      | true => exact adds
    · rintro id world made calls answers reached ran
      cases returned with
      | false => cases made
      | true =>
          cases made
          obtain ⟨reachedSteady, grows⟩ := World.run_steady breaks steady ran
          refine ⟨?_, ?_⟩
          · intro call exists_
            obtain ⟨answer, next, answered, -⟩ := World.answer_breaks breaks reachedSteady exists_
            exact ⟨answer, next, answered⟩
          · intro names fieldErrors
            obtain ⟨object, objectFound, typeEq, startEq⟩ := grows 0 (.parse root .zero) (by
              rw [objects]
              rfl)
            apply World.follow_breaks breaks fieldErrors names reachedSteady objectFound
            rw [typeEq, startEq]
            exact placed_root represents bounded
  · refine ⟨none, collection.add (.ofArguments { filePath := path } .unknownType [type] .error),
      ?_, ⟨_, rfl⟩, nofun⟩
    rw [parseFile, missing]
    rfl

/-- The byte 7 on a disk that has failed. -/
def wornByte : (wornDisk []).Traced [7] (WornStream.Stands [7]) where
  file := { path := "file", fs := { contents := [7], reads := 0 }, size := 1 }
  place := 0
  size_eq := rfl
  place_le := by decide
  known := Or.inr ⟨rfl, rfl⟩

theorem parseFile_honest_wornByte :
    ∃ world,
      parseFile (Stdio.tracedReader (wornDisk_streams [] [7]))
        ⟨[oneByte], List.cons_ne_nil _ _⟩ wornByte (fun _ => 3) "file" "a" (some {}) =
          .ok (some (0, world), some {}) ∧
      ∃ reply, World.follow (Stdio.tracedReader (wornDisk_streams [] [7])) {} ["x"] world 0 =
          .ok reply ∧
        World.Trusted {} (pathMeaning [7] (Scope.root (oneField none 14).decls "a") 0 ["x"])
          reply := by
  have created : createFromDefinition (fun _ => { result := .ok (oneField none 14) })
      (textBytes "type a \x7b byte x; \x7d") "" none =
        .ok (some ⟨[oneByte], List.cons_ne_nil _ _⟩, none) := rfl
  obtain ⟨made, collected, parsed, -, behind⟩ := parseFile_honest created rfl
    (oneField_bounded 14) (Stdio.tracedReader_breaksDown (wornDisk_streams [] [7])) wornByte
    (fun _ => 3) "file" "a" {}
  have returned : ∃ world, parseFile (Stdio.tracedReader (wornDisk_streams [] [7]))
      ⟨[oneByte], List.cons_ne_nil _ _⟩ wornByte (fun _ => 3) "file" "a" (some {}) =
        .ok (some (0, world), some {}) := ⟨_, rfl⟩
  obtain ⟨world, succeeded⟩ := returned
  cases parsed.symm.trans succeeded
  exact ⟨world, succeeded, (behind 0 world rfl [] [] world rfl).2 ["x"] {}⟩

end FileParser

end BinaryReader

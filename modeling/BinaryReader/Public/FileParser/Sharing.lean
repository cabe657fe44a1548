import BinaryReader.Parser.Acceptance.Sizes
import BinaryReader.Public.FileObject.Sharing
import BinaryReader.Public.FileParser

/-!
# Two objects of one file reader

Two calls of `ParseFile` that get the same reader, and any order of calls on
the two objects and their children.  The first object may be used before the
second one is made.
-/

namespace BinaryReader

open Library

inductive Side where
  | first
  | second
  deriving DecidableEq, Repr

/-- What only the first object can have been asked. -/
def Side.early {α : Type} : Side → List α → List α
  | .first, items => items
  | .second, _ => []

/-- What a call of `ParseFile` gets besides the reader. -/
structure Root where
  parser : FileParser
  memory : Nat → UInt8
  path : String
  type : String
  errors : Option ErrorCollection

def FileParser.Created (self : FileParser) : Prop :=
  ∃ recognize definition path errors added,
    FileParser.createFromDefinition recognize definition path errors = .ok (some self, added)

namespace Root

variable {σ : Type} (fileReader : FileReader σ)

def parse (self : Root) (file : σ) :
    Checked (Option (ObjectId × World σ) × Option ErrorCollection) :=
  self.parser.parseFile fileReader file self.memory self.path self.type self.errors

/-- Both objects, and the underlying reader as the second call has left it. -/
def shared (worlds : Side → World σ) : σ × (Side → World σ) :=
  ((worlds .second).reader.reader, worlds)

variable {fileReader} {contents : List UInt8}

/-- A second call gives the same object wherever the reader stands. -/
theorem parse_again (contract : fileReader.Contract contents) {self : Root}
    (created : self.parser.Created) {file other : σ} {id : ObjectId} {world : World σ}
    {added : Option ErrorCollection}
    (parsed : self.parse fileReader file = .ok (some (id, world), added)) :
    ∃ alone, self.parse fileReader other = .ok (some (id, alone), added) ∧
      World.SameObjects fileReader contents world alone := by
  obtain ⟨recognize, definition, path, errors, reported, made⟩ := created
  obtain ⟨main, -, -, wellFormed⟩ := FileParser.created_spec made
  rcases found : self.parser.definitionOf self.type with _ | root
  · rw [parse, FileParser.parseFile, found] at parsed
    cases parsed
  · have membership : root ∈ self.parser.definitions := by
      rw [FileParser.definitionOf] at found
      split at found
      · cases found
        exact List.getLast_mem _
      · exact List.mem_of_find?_eq_some found
    obtain ⟨reader, parsedHere, ⟨position, tracks⟩, -⟩ := FileParser.parseFile_spec contract found
      (wellFormed root membership) file self.memory self.path self.errors
    obtain ⟨lone, parsedThere, ⟨other, loneTracks⟩, sound⟩ := FileParser.parseFile_spec contract
      found (wellFormed root membership) other self.memory self.path self.errors
    cases parsed.symm.trans parsedHere
    exact ⟨_, parsedThere, rfl, tracks.intact, loneTracks.intact, loneTracks.cursor, sound.objects⟩

/-- In every order of undisturbed calls on two objects of one reader, every call comes to
what it comes to when the other object does not exist. -/
theorem run_undisturbed (contract : fileReader.Contract contents) {roots : Side → Root}
    (created : ∀ side, (roots side).parser.Created) {file : σ} {ids : Side → ObjectId}
    {start : World σ} {worlds : Side → World σ} {added : Side → Option ErrorCollection}
    (first : (roots .first).parse fileReader file =
      .ok (some (ids .first, start), added .first))
    {early : List World.Call} {given : List World.Answer}
    (between : (World.machine fileReader).run start early = .ok (given, worlds .first))
    (second : (roots .second).parse fileReader (worlds .first).reader.reader =
      .ok (some (ids .second, worlds .second), added .second))
    {calls : List (Side × World.Call)} {answers : List World.Answer}
    {reached : σ × (Side → World σ)}
    (undisturbed : (World.component fileReader).interleave.Every
      (fun whole input _ _ =>
        ((whole.2 input.1).withFile whole.1).Undisturbed fileReader contents input.2)
      (shared worlds) calls)
    (ran : (World.component fileReader).interleave.run (shared worlds) calls =
      .ok (answers, reached)) (side : Side) :
    ∃ alone, (roots side).parse fileReader file = .ok (some (ids side, alone), added side) ∧
      ∃ last, (World.machine fileReader).run alone
            (side.early early ++ Machine.inputsOf side calls) =
          .ok (side.early given ++ Machine.outputsOf side calls answers, last) ∧
        ∀ call, ((reached.2 side).withFile reached.1).Undisturbed fileReader contents call →
          ((World.component fileReader).step (reached.1, reached.2 side) call).map Prod.fst =
            (World.answer fileReader last call).map Prod.fst := by
  have again (side : Side) : ∃ alone middle,
      (roots side).parse fileReader file = .ok (some (ids side, alone), added side) ∧
      (World.machine fileReader).run alone (side.early early) = .ok (side.early given, middle) ∧
      World.SameObjects fileReader contents (worlds side) middle := by
    cases side with
    | first =>
        obtain ⟨alone, parsed, same⟩ := parse_again contract (created .first) first
        cases first.symm.trans parsed
        exact ⟨start, worlds .first, first, between, same.run contract between⟩
    | second =>
        obtain ⟨alone, parsed, same⟩ := parse_again contract (created .second) second
        exact ⟨alone, alone, parsed, rfl, same⟩
  choose alone middle parsedAlone ranEarly same using again
  obtain ⟨last, ranBehind, sameLast⟩ := Machine.run_interleave
    (fun same undisturbed => same.alike contract undisturbed) same undisturbed ran side
  refine ⟨alone side, parsedAlone side, last,
    (World.machine fileReader).run_append (ranEarly side) ranBehind, ?_⟩
  intro call next
  exact (sameLast.alike contract next).map_fst

def pair : TypeDefinition :=
  let field (column : Nat) (name : String) : Statement :=
    .field (.mk { line := 1, column } name
      (some (.integer ⟨{ line := 1, column }, "int16", .fromBits 16, .signed, .unset⟩)) none)
  .mk { line := 1 } "pair" [field 12 "x", field 21 "y"]

def pairRoot : Root where
  parser := ⟨[pair], List.cons_ne_nil _ _⟩
  memory := fun _ => 0
  path := "file"
  type := ""
  errors := none

theorem pairRoot_created : pairRoot.parser.Created :=
  ⟨fun _ => { result := .ok ⟨[twice 1 0 "int16" "pair"]⟩ },
    textBytes "type pair \x7b int16 x; int16 y; \x7d\n", "", none, none, rfl⟩

def both (first second : World σ) : Side → World σ
  | .first => first
  | .second => second

/-- A pair in a file of four bytes, just parsed: the reader has been sought behind it. -/
def pairWorld : World (Fin (([1, 2, 3, 4] : List UInt8).length + 1)) where
  reader :=
    { reader := .last _, buffer := fun _ => 0, startPosition := .fromBytes 4
      used_le := Nat.zero_le _ }
  objects := [FileObject.parse pair .zero]

/-- The pair when its first field has been read: three bytes are buffered. -/
def pairRead : World (Fin (([1, 2, 3, 4] : List UInt8).length + 1)) :=
  match (World.machine (shortFileReader [1, 2, 3, 4] 3)).run pairWorld
    [.getFieldValue 0 "x" .null {}] with
  | .ok (_, world) => world
  | .error _ => pairWorld

theorem run_undisturbed_pair :
    ∃ alone, pairRoot.parse (shortFileReader [1, 2, 3, 4] 3) 0 = .ok (some (0, alone), none) ∧
      ∃ last, (World.machine (shortFileReader [1, 2, 3, 4] 3)).run alone
          [.getFieldValue 0 "x" .null {}, .getFieldValue 0 "x" .null {}] =
        .ok ([.getFieldValue true (.number (.ofUnsigned 258)) {},
          .getFieldValue true (.number (.ofUnsigned 258)) {}], last) := by
  have undisturbed : (World.component (shortFileReader [1, 2, 3, 4] 3)).interleave.Every
      (fun whole input _ _ => ((whole.2 input.1).withFile whole.1).Undisturbed
        (shortFileReader [1, 2, 3, 4] 3) [1, 2, 3, 4] input.2)
      (shared (both pairRead pairWorld))
      [(.second, .getFieldValue 0 "x" .null {}), (.first, .getFieldValue 0 "x" .null {})] := by
    refine ⟨Or.inl rfl, Or.inr ?_, trivial⟩
    rintro id name value errors info type ⟨⟩ ⟨object, index, found, looked, field, uncached⟩
    cases found
    cases looked
    cases field
    cases uncached
  obtain ⟨alone, parsed, last, ran, -⟩ := @run_undisturbed _ _ _
    (shortFileReader_contract [1, 2, 3, 4] (show 0 < 3 by decide)) (fun _ => pairRoot)
    (fun _ => pairRoot_created) 0 (fun _ => 0) pairWorld (both pairRead pairWorld) (fun _ => none)
    rfl [.getFieldValue 0 "x" .null {}] _ rfl rfl _ _ _ undisturbed rfl .first
  exact ⟨alone, parsed, last, ran⟩

/-- The first object has one byte of its second field when the second object moves the
reader to the end of the file. -/
theorem run_disturbed :
    (shortFileReader [1, 2, 3, 4] 3).Contract [1, 2, 3, 4] ∧ pairRoot.parser.Created ∧
    ∃ first second alone early middle reached before last,
      pairRoot.parse (shortFileReader [1, 2, 3, 4] 3) 0 = .ok (some (0, first), none) ∧
      pairRoot.parse (shortFileReader [1, 2, 3, 4] 3) first.reader.reader =
        .ok (some (0, second), none) ∧
      (World.component (shortFileReader [1, 2, 3, 4] 3)).interleave.run
          (shared (both first second))
          [(.first, .getFieldValue 0 "x" .null {}), (.second, .getFieldValue 0 "y" .null {}),
            (.first, .getFieldValue 0 "y" .null {})] =
        .ok ([early, middle, .getFieldValue false .null (ErrorCollection.add {}
          (.ofKind { line := 1, column := 21 } .unexpectedEndOfStream 0))], reached) ∧
      pairRoot.parse (shortFileReader [1, 2, 3, 4] 3) 0 = .ok (some (0, alone), none) ∧
      (World.machine (shortFileReader [1, 2, 3, 4] 3)).run alone
          [.getFieldValue 0 "x" .null {}, .getFieldValue 0 "y" .null {}] =
        .ok ([before, .getFieldValue true (.number (.ofUnsigned 772)) {}], last) :=
  ⟨shortFileReader_contract [1, 2, 3, 4] (by decide), pairRoot_created,
    _, _, _, _, _, _, _, _, rfl, rfl, rfl, rfl, rfl⟩

end Root

end BinaryReader

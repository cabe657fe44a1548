import BinaryReader.Public.FileObject.Effects
import BinaryReader.Public.FileParser

/-!
# What objects hold

A client keeps the root of a file, and objects keep their children in their caches.
Whatever the reader does, a value that was given out stays until its object is emptied,
and objects that keep each other form a forest.
-/

namespace BinaryReader

open Library

namespace World

variable {σ : Type} {fileReader : FileReader σ}

/-- No object is kept twice, and an object is only kept by older ones. -/
structure Forest (objects : List FileObject) : Prop where
  older : ∀ {id index child}, slot objects id index = some (.object child) →
    id < child ∧ child < objects.length
  once : ∀ {id index other place child}, slot objects id index = some (.object child) →
    slot objects other place = some (.object child) → other = id ∧ place = index

theorem forest_nil : Forest [] where
  older held := by cases held
  once held := by cases held

theorem Forest.requested {objects next : List FileObject} (forest : Forest objects)
    {id : ObjectId} (requested : Requested objects id next) : Forest next := by
  cases requested.fills with
  | kept same =>
      refine ⟨?_, ?_⟩
      · intro holder index child held
        rw [same] at held
        exact (forest.older held).imp_right fun inside => inside.trans_le requested.grows
      · intro holder index other place child held again
        rw [same] at held again
        exact forest.once held again
  | @filled index value inside vacant newest filled =>
      refine ⟨?_, ?_⟩
      · intro holder index child held
        rw [filled] at held
        split_ifs at held with here
        · obtain ⟨rfl, bound⟩ := newest child (Option.some.inj held)
          rw [here.1]
          exact ⟨inside, bound⟩
        · exact (forest.older held).imp_right fun inside => inside.trans_le requested.grows
      · intro holder index other place child held again
        rw [filled] at held again
        -- an object that was kept before is older than the new one
        have stale {holder : ObjectId} {index : Nat}
            (held : slot objects holder index = some (.object child)) :
            value ≠ .object child := fun same =>
          ((forest.older held).2.trans_eq (newest child same).1.symm).false
        split_ifs at held again with first second second
        · rw [first.1, first.2, second.1, second.2]
          exact ⟨rfl, rfl⟩
        · exact absurd (Option.some.inj held) (stale again)
        · exact absurd (Option.some.inj again) (stale held)
        · exact forest.once held again

theorem Forest.emptied {objects : List FileObject} (forest : Forest objects) (id : ObjectId)
    {change : FileObject → FileObject} (empty : ∀ object, (change object).Empty) :
    Forest (objects.modify id change) := by
  have earlier {holder : ObjectId} {index : Nat} {value : Value}
      (held : slot (objects.modify id change) holder index = some value) :
      slot objects holder index = some value := by
    rw [slot_emptied empty] at held
    split_ifs at held
    exact held
  refine ⟨?_, ?_⟩
  · intro holder index child held
    rw [List.length_modify]
    exact forest.older (earlier held)
  · intro holder index other place child held again
    exact forest.once (earlier held) (earlier again)

/-- The objects are a forest behind every run of calls, over any reader. -/
theorem run_forest {world final : World σ} (forest : Forest world.objects) {calls : List Call}
    {answers : List Answer}
    (ran : (machine fileReader).run world calls = .ok (answers, final)) :
    Forest final.objects := by
  refine (machine fileReader).run_preserves (fun next => Forest next.objects) ?_ ran forest
  intro current next call result currentForest stepped
  rcases answer_objects stepped with ⟨requested, -⟩ | ⟨-, change, empty, same⟩
  · exact currentForest.requested requested
  · rw [same]
    exact currentForest.emptied call.id empty

/-- The value is cached in the field of an object, or it is null and there is no field. -/
def Kept (objects : List FileObject) (id : ObjectId) (value : Value) : Option Nat → Prop
  | none => value = .null
  | some index => slot objects id index = some value

/-- A request for the field gives the value without reading. -/
def Given (objects : List FileObject) (id : ObjectId) (name : String) (value : Value) : Prop :=
  ∃ map, namesOf objects id = some map ∧ Kept objects id value (map.lookup name)

theorem ensureField_of_held {world : World σ} {id : ObjectId} {object : FileObject}
    (found : world.objects[id]? = some object) {index : Nat} {info : ParsedFieldInfo}
    (field : object.parsedFields[index]? = some info) {value : Value}
    (held : info.value = some value) (errors : ErrorCollection) :
    world.ensureField fileReader id index errors = .ok (true, world, errors) := by
  rw [ensureField, load_of_getElem? found, Checked.ok_bind, load_of_getElem? field,
    Checked.ok_bind, held]
  rfl

theorem Given.getFieldValue {world : World σ} {id : ObjectId} {name : String} {value : Value}
    (given : Given world.objects id name value) (other : Value) (errors : ErrorCollection) :
    world.getFieldValue fileReader id name other errors = .ok (true, value, world, errors) := by
  obtain ⟨map, named, cached⟩ := given
  obtain ⟨object, found, rfl⟩ := Option.map_eq_some_iff.mp named
  rw [World.getFieldValue, load_of_getElem? found, Checked.ok_bind]
  rcases looked : object.fieldNameMap.lookup name with _ | index <;> rw [looked] at cached
  · obtain rfl : value = .null := cached
    rfl
  · rw [Kept, slot_of_found found] at cached
    obtain ⟨info, field, held⟩ := Option.bind_eq_some_iff.mp cached
    dsimp only
    rw [ensureField_of_held found field held, Checked.ok_bind]
    simp only [Bool.not_true, Bool.false_eq_true, if_false, load_of_getElem? found,
      load_of_getElem? field, Checked.ok_bind, held, deref_some]
    rfl

theorem given_of_getFieldValue {world next : World σ} {id : ObjectId} {name : String}
    {other value : Value} {errors added : ErrorCollection}
    (called : world.getFieldValue fileReader id name other errors =
      .ok (true, value, next, added)) : Given next.objects id name value := by
  obtain ⟨object, loaded, rest⟩ := Checked.bind_eq_ok_iff.mp called
  have found := getElem?_of_load loaded
  have inside : id < world.objects.length := (List.getElem?_eq_some_iff.mp found).1
  have named : namesOf next.objects id = some object.fieldNameMap := by
    rw [(getFieldValue_requested called).names id inside, namesOf, found]
    rfl
  refine ⟨_, named, ?_⟩
  generalize object.fieldNameMap.lookup name = place at rest ⊢
  rcases place with _ | index
  · cases rest
    rfl
  · obtain ⟨⟨ensured, behind, reported⟩, -, last⟩ := Checked.bind_eq_ok_iff.mp rest
    cases ensured with
    | false => cases last
    | true =>
        obtain ⟨cached, cachedLoaded, afterObject⟩ := Checked.bind_eq_ok_iff.mp last
        obtain ⟨info, field, afterField⟩ := Checked.bind_eq_ok_iff.mp afterObject
        obtain ⟨_, held, done⟩ := Checked.bind_eq_ok_iff.mp afterField
        cases done
        rw [Kept, slot_of_found (getElem?_of_load cachedLoaded), getElem?_of_load field]
        exact deref_eq_ok_iff.mp held

theorem Given.requested {objects next : List FileObject} {id : ObjectId} {name : String}
    {value : Value} (given : Given objects id name value) {other : ObjectId}
    (requested : Requested objects other next) : Given next id name value := by
  obtain ⟨map, named, cached⟩ := given
  have inside : id < objects.length := by
    obtain ⟨object, found, -⟩ := Option.map_eq_some_iff.mp named
    exact (List.getElem?_eq_some_iff.mp found).1
  refine ⟨map, (requested.names id inside).trans named, ?_⟩
  generalize map.lookup name = place at cached ⊢
  cases place with
  | none => exact cached
  | some index =>
      rw [Kept] at cached ⊢
      cases requested.fills with
      | kept same => rw [same, cached]
      | filled _ vacant _ filled =>
          rw [filled, if_neg, cached]
          rintro ⟨rfl, rfl⟩
          cases vacant.symm.trans cached

theorem Given.emptied {objects : List FileObject} {id : ObjectId} {name : String} {value : Value}
    (given : Given objects id name value) {other : ObjectId} (elsewhere : other ≠ id)
    {change : FileObject → FileObject} (empty : ∀ object, (change object).Empty) :
    Given (objects.modify other change) id name value := by
  obtain ⟨map, named, cached⟩ := given
  refine ⟨map, ?_, ?_⟩
  · rwa [namesOf_modify objects other fun same => absurd same elsewhere]
  · generalize map.lookup name = place at cached ⊢
    cases place with
    | none => exact cached
    | some index => rwa [Kept, slot_emptied empty, if_neg (Ne.symm elsewhere)]

/-- Whatever the reader does, a value that was given is given again without reading, as
long as its object is not emptied. -/
theorem run_given {world next final : World σ} {id : ObjectId} {name : String}
    {other value : Value} {errors added : ErrorCollection}
    (called : world.getFieldValue fileReader id name other errors = .ok (true, value, next, added))
    {calls : List Call} (kept : ∀ call ∈ calls, call.id = id → ¬ call.Empties)
    {answers : List Answer}
    (ran : (machine fileReader).run next calls = .ok (answers, final)) (another : Value)
    (more : ErrorCollection) :
    final.getFieldValue fileReader id name another more = .ok (true, value, final, more) := by
  have given := given_of_getFieldValue called
  refine Given.getFieldValue ?_ another more
  clear called
  induction calls generalizing next answers with
  | nil =>
      cases ran
      exact given
  | cons call calls inductionHypothesis =>
      obtain ⟨answer, behind, rest, stepped, continued, -⟩ :=
        (machine fileReader).run_cons_eq_ok ran
      obtain ⟨keptHere, keptBehind⟩ := List.forall_mem_cons.mp kept
      refine inductionHypothesis keptBehind continued ?_
      rcases answer_objects stepped with ⟨requested, -⟩ | ⟨empties, change, empty, same⟩
      · exact given.requested requested
      · rw [same]
        exact given.emptied (fun here => keptHere here empties) empty

/-- One byte, in front of a reader that fails behind its first three calls. -/
def byteWorld : World (Fin (([7] : List UInt8).length + 1) × List (Option Nat)) where
  reader := { reader := (0, [none, none, none, some 0]), used_le := Nat.zero_le _ }
  objects := [FileObject.parse oneByte .zero]

theorem run_given_oneByte :
    ∃ next answers final, byteWorld.getFieldValue (scriptedFileReader [7]) 0 "x" .null {} =
        .ok (true, .number (.ofUnsigned 7), next, {}) ∧
      (machine (scriptedFileReader [7])).run next
        [.hasField 0 "x", .getFieldValue 0 "x" .null {}] = .ok (answers, final) ∧
      final.getFieldValue (scriptedFileReader [7]) 0 "x" .null {} =
        .ok (true, .number (.ofUnsigned 7), final, {}) := by
  have kept : ∀ call ∈ [Call.hasField 0 "x", .getFieldValue 0 "x" .null {}],
      call.id = 0 → ¬ call.Empties := by
    simp [Call.Empties]
  have steps : ∃ next, byteWorld.getFieldValue (scriptedFileReader [7]) 0 "x" .null {} =
        .ok (true, .number (.ofUnsigned 7), next, {}) ∧
      ∃ answers final, (machine (scriptedFileReader [7])).run next
        [.hasField 0 "x", .getFieldValue 0 "x" .null {}] = .ok (answers, final) :=
    ⟨_, rfl, _, _, rfl⟩
  obtain ⟨next, called, answers, final, ran⟩ := steps
  exact ⟨next, answers, final, called, ran, run_given called kept ran .null {}⟩

end World

/-- The objects of a file are a forest behind every run of calls, whatever the reader does. -/
theorem FileParser.parseFile_forest {σ : Type} {fileReader : FileReader σ} {self : FileParser}
    {file : σ} {memory : Nat → UInt8} {path type : String} {errors added : Option ErrorCollection}
    {id : ObjectId} {world final : World σ}
    (parsed : self.parseFile fileReader file memory path type errors =
      .ok (some (id, world), added)) {calls : List World.Call} {answers : List World.Answer}
    (ran : (World.machine fileReader).run world calls = .ok (answers, final)) :
    World.Forest final.objects := by
  refine World.run_forest ?_ ran
  rw [parseFile] at parsed
  rcases found : self.definitionOf type with _ | definition <;> rw [found] at parsed
  · cases parsed
  · obtain ⟨⟨success, value, made, reported⟩, read, rest⟩ := Checked.bind_eq_ok_iff.mp parsed
    cases success with
    | false => cases rest
    | true =>
        obtain ⟨root, -, last⟩ := Checked.bind_eq_ok_iff.mp rest
        cases last
        have requested : World.Requested [] 0 world.objects := .dropped (World.readObject_made read)
        exact World.forest_nil.requested requested

def holder : TypeDefinition :=
  .mk { line := 1 } "b" [.field (.mk { line := 1 } "y" (some (.definition oneByte)) none)]

theorem FileParser.parseFile_forest_holder :
    ∃ world answers final,
      parseFile (memoryFileReader [7]) ⟨[oneByte, holder], List.cons_ne_nil _ _⟩ 0 (fun _ => 3)
        "file" "" none = .ok (some (0, world), none) ∧
      (World.machine (memoryFileReader [7])).run world
        [.getFieldValue 0 "y" .null {}, .getFieldValue 1 "x" .null {}] = .ok (answers, final) ∧
      slot final.objects 0 0 = some (.object 1) ∧ World.Forest final.objects := by
  have steps : ∃ world, parseFile (memoryFileReader [7])
      ⟨[oneByte, holder], List.cons_ne_nil _ _⟩ 0 (fun _ => 3) "file" "" none =
        .ok (some (0, world), none) ∧
      ∃ answers final, (World.machine (memoryFileReader [7])).run world
          [.getFieldValue 0 "y" .null {}, .getFieldValue 1 "x" .null {}] = .ok (answers, final) ∧
        slot final.objects 0 0 = some (.object 1) := ⟨_, rfl, _, _, rfl, rfl⟩
  obtain ⟨world, parsed, answers, final, ran, kept⟩ := steps
  exact ⟨world, answers, final, parsed, ran, kept, parseFile_forest parsed ran⟩

end BinaryReader

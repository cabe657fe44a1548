import BinaryReader.Ast.IntegerTypeInfo.Breakdown
import BinaryReader.Public.FileObject.Observation

/-!
# Objects of a file that cannot be read

Whatever calls fail in the underlying reader, objects cache only what is in the
file.  Every call on them returns, and it gives out the outcome of the field or
adds an error.
-/

namespace BinaryReader.World

open Library BufferedFileReader

variable {σ : Type} {fileReader : FileReader σ} {contents : List UInt8} {broken : σ → Prop}

/-- What every call keeps over a reader that breaks down. -/
structure Steady (fileReader : FileReader σ) (contents : List UInt8) (broken : σ → Prop)
    (world : World σ) : Prop where
  reader : world.reader.Steady fileReader contents broken
  objects : ∀ object ∈ world.objects, object.Sound contents world.objects

theorem Steady.withReader {world : World σ} (steady : world.Steady fileReader contents broken)
    {reader : BufferedFileReader σ} (kept : reader.Steady fileReader contents broken) :
    Steady fileReader contents broken { world with reader } :=
  ⟨kept, steady.objects⟩

theorem Steady.sound {world : World σ} (steady : world.Steady fileReader contents broken) :
    Sound fileReader contents
      { reader := { reader := world.reader.reader }, objects := world.objects } :=
  ⟨Or.inl rfl, steady.objects⟩

/-- An object is made whether or not the reader gets behind it. -/
theorem readObject_breaks (breaks : fileReader.BreaksDown contents broken) {world : World σ}
    (steady : world.Steady fileReader contents broken) {type : TypeDefinition}
    (wellFormed : type.WellFormed) (result : Value) (errors : ErrorCollection) :
    ∃ returned next added, world.readObject fileReader type result errors =
        .ok (returned, .object world.objects.length, next, added) ∧
      Adds returned errors added ∧ next.Steady fileReader contents broken ∧
      next.objects = world.objects ++ [FileObject.parse type world.reader.position] := by
  obtain ⟨returned, reader, added, sought, adds, kept, -, -⟩ := steady.reader.seek breaks
    (world.reader.position + .fromBits type.exactBits) errors
  have parsed : FileObject.reparseObject { type, startPosition := world.reader.position } errors =
      .ok (true, FileObject.parse type world.reader.position, errors) :=
    FileObject.reparseObject_spec wellFormed errors
  refine ⟨returned, { reader
                      objects := world.objects ++
                        [FileObject.parse type world.reader.position] }, added, ?_, adds, ?_, rfl⟩
  · rw [readObject]
    dsimp only
    rw [parsed, Checked.ok_bind, wellFormed.staticSize]
    simp only [Bool.not_true, Bool.false_eq_true, if_false, deref_some, Checked.ok_bind, sought]
    rfl
  · refine ⟨kept, ?_⟩
    intro object membership
    rcases List.mem_append.mp membership with old | new
    · exact (steady.objects object old).mono (.of_extension (List.prefix_append _ _))
    · rw [List.mem_singleton.mp new]
      exact FileObject.parse_sound wellFormed _

theorem readValue_breaks (breaks : fileReader.BreaksDown contents broken) {world : World σ}
    (steady : world.Steady fileReader contents broken)
    (ready : world.reader.Ready fileReader contents broken) {type : TypeInfoBase}
    (wellFormed : type.WellFormed) (result : Value) (errors : ErrorCollection) :
    ∃ returned value next added,
      world.readValue fileReader result errors type = .ok (returned, value, next, added) ∧
      Adds returned errors added ∧ next.Steady fileReader contents broken ∧
      world.objects <+: next.objects ∧
      (returned = true → Correct contents next.objects type world.reader.position value) := by
  cases type with
  | integer info =>
      obtain ⟨returned, value, reader, added, read, adds, kept, gives⟩ :=
        info.readValue_breaks breaks wellFormed ready result errors
      refine ⟨returned, value, { world with reader }, added, ?_, adds, steady.withReader kept,
        List.prefix_rfl, ?_⟩
      · rw [readValue, read]
        rfl
      · intro succeeded
        obtain ⟨number, rfl, valueEq⟩ := gives succeeded
        refine ⟨.number number, ?_, rfl⟩
        rw [outcomeAt, valueEq]
        rfl
  | definition type =>
      obtain ⟨returned, next, added, read, adds, kept, objects⟩ :=
        readObject_breaks breaks steady wellFormed result errors
      refine ⟨returned, _, next, added, read, adds, kept, ?_, ?_⟩
      · rw [objects]
        exact List.prefix_append _ _
      · intro _
        refine ⟨_, rfl, ?_⟩
        rw [look, objects, List.getElem?_append_right le_rfl, Nat.sub_self]
        rfl

theorem ensureField_breaks (breaks : fileReader.BreaksDown contents broken) {world : World σ}
    (steady : world.Steady fileReader contents broken) {id : ObjectId} {object : FileObject}
    (found : world.objects[id]? = some object) {index : Nat} {info : ParsedFieldInfo}
    (field : object.parsedFields[index]? = some info) (wellFormed : info.type.WellFormed)
    (errors : ErrorCollection) :
    ∃ returned next added,
      world.ensureField fileReader id index errors = .ok (returned, next, added) ∧
      Adds returned errors added ∧ next.Steady fileReader contents broken ∧
      Grows world.objects next.objects ∧
      (returned = true → ∃ cached value, next.objects[id]? = some cached ∧
        cached.parsedFields[index]? = some { info with value := some value } ∧
        Correct contents next.objects info.type info.offset value) := by
  have objectSound := steady.objects object (List.mem_of_getElem? found)
  rcases held : info.value with _ | value
  · obtain ⟨sought, reader, collected, seekEq, seekAdds, kept, position, ready⟩ :=
      steady.reader.seek breaks info.offset errors
    cases sought with
    | false =>
        refine ⟨false, { world with reader }, collected, ?_, seekAdds, steady.withReader kept,
          .refl _, fun impossible => absurd impossible Bool.false_ne_true⟩
        rw [ensureField, load_of_getElem? found, Checked.ok_bind, load_of_getElem? field,
          Checked.ok_bind, held]
        simp only [Option.isSome_none, Bool.false_eq_true, if_false, seekEq, Bool.not_false,
          if_true]
        rfl
    | true =>
        cases seekAdds
        obtain ⟨returned, value, next, added, read, adds, nextSteady, grown, correct⟩ :=
          readValue_breaks breaks (steady.withReader kept) (ready rfl) wellFormed .null errors
        have filled := ensureField_read found field held seekEq read
        cases returned with
        | false =>
            exact ⟨false, next, added, filled, adds, nextSteady, .of_extension grown,
              fun impossible => absurd impossible Bool.false_ne_true⟩
        | true =>
            have here : Correct contents next.objects info.type info.offset value := by
              rw [← position]
              exact correct rfl
            obtain ⟨cachedSound, grows, cached, cachedFound, cachedField⟩ :=
              nextSteady.sound.cacheField (Grows.getElem?_of_extension grown found) field here
            refine ⟨true, _, added, filled, adds, ⟨nextSteady.reader, cachedSound.objects⟩,
              (Grows.of_extension grown).trans grows, ?_⟩
            intro _
            obtain ⟨sight, outcome, seen⟩ := here
            exact ⟨cached, value, cachedFound, cachedField, sight, outcome, grows.look seen⟩
  · refine ⟨true, world, errors, ?_, rfl, steady, .refl _, ?_⟩
    · rw [ensureField, load_of_getElem? found, Checked.ok_bind, load_of_getElem? field,
        Checked.ok_bind, held]
      rfl
    · intro _
      refine ⟨object, value, found, ?_,
        objectSound.cached info (List.mem_of_getElem? field) value held⟩
      rw [field, ← held]

/-- How a call on a field returns over a reader that breaks down: with its outcome, or with an
error and nothing else. -/
structure Honest (contents : List UInt8) (object : FileObject) (name : String) (value : Value)
    (errors : ErrorCollection) (returned : Bool) (result : Value) (next : List FileObject)
    (added : ErrorCollection) : Prop where
  adds : Adds returned errors added
  correct : returned = true → ∃ sight,
    fieldOutcome contents object.type object.startPosition name = .ok (.ok sight) ∧
      look next result = some sight
  unchanged : returned = false → result = value

section Honest

variable {object : FileObject} {name : String} {value result : Value} {next : List FileObject}
  {errors added : ErrorCollection}

theorem Honest.failed (adds : Adds false errors added) :
    Honest contents object name value errors false value next added where
  adds := adds
  correct := fun impossible => absurd impossible Bool.false_ne_true
  unchanged := fun _ => rfl

theorem Honest.succeeded {sight : Sight}
    (outcome : fieldOutcome contents object.type object.startPosition name = .ok (.ok sight))
    (seen : look next result = some sight) :
    Honest contents object name value errors true result next errors where
  adds := rfl
  correct := fun _ => ⟨sight, outcome, seen⟩
  unchanged := fun impossible => absurd impossible.symm Bool.false_ne_true

end Honest

theorem getFieldValue_breaks (breaks : fileReader.BreaksDown contents broken) {world : World σ}
    (steady : world.Steady fileReader contents broken) {id : ObjectId} {object : FileObject}
    (found : world.objects[id]? = some object) (name : String) (value : Value)
    (errors : ErrorCollection) :
    ∃ returned result next added,
      world.getFieldValue fileReader id name value errors = .ok (returned, result, next, added) ∧
      Honest contents object name value errors returned result next.objects added ∧
      next.Steady fileReader contents broken ∧ Grows world.objects next.objects := by
  have objectSound := steady.objects object (List.mem_of_getElem? found)
  have looked := objectSound.lookup name
  rcases last : lastIndexOf name (layOut object.startPosition object.type.statements)
    with _ | index
  · rw [last] at looked
    refine ⟨true, .null, world, errors, ?_, .succeeded ?_ rfl, steady, .refl _⟩
    · rw [getFieldValue, load_of_getElem? found, Checked.ok_bind, looked]
      rfl
    · rw [fieldOutcome, last]
  · rw [last] at looked
    obtain ⟨info, laidOut, -⟩ := getElem?_of_lastIndexOf last
    obtain ⟨held, field⟩ := objectSound.field laidOut
    have wellFormed := (FileObject.layOut_of_wellFormed objectSound.wellFormed
      (List.mem_of_getElem? laidOut)).1
    obtain ⟨returned, next, added, ensured, adds, nextSteady, grows, filled⟩ :=
      ensureField_breaks breaks steady found field wellFormed errors
    cases returned with
    | false =>
        refine ⟨false, value, next, added, ?_, .failed adds, nextSteady, grows⟩
        rw [getFieldValue, load_of_getElem? found, Checked.ok_bind, looked]
        dsimp only
        rw [ensured]
        rfl
    | true =>
        obtain ⟨cached, result, cachedFound, cachedField, sight, outcome, seen⟩ := filled rfl
        cases adds
        refine ⟨true, result, next, errors, ?_, .succeeded ?_ seen, nextSteady, grows⟩
        · rw [getFieldValue, load_of_getElem? found, Checked.ok_bind, looked]
          dsimp only
          rw [ensured, Checked.ok_bind]
          simp only [Bool.not_true, Bool.false_eq_true, if_false, load_of_getElem? cachedFound,
            load_of_getElem? cachedField, Checked.ok_bind, deref_some]
          rfl
        · rw [fieldOutcome, last]
          dsimp only
          rw [load_of_getElem? laidOut]
          exact outcome

/-- Every call on an object that exists returns. -/
theorem answer_breaks (breaks : fileReader.BreaksDown contents broken) {world : World σ}
    (steady : world.Steady fileReader contents broken) {call : Call}
    (exists_ : call.id < world.objects.length) :
    ∃ result next, answer fileReader world call = .ok (result, next) ∧
      next.Steady fileReader contents broken ∧ Grows world.objects next.objects := by
  obtain ⟨object, found⟩ : ∃ object, world.objects[call.id]? = some object :=
    ⟨_, List.getElem?_eq_getElem exists_⟩
  have cleared : (world.clearCache call.id).Steady fileReader contents broken ∧
      Grows world.objects (world.clearCache call.id).objects := by
    obtain ⟨sound, grows⟩ := clearCache_spec steady.sound call.id
    exact ⟨⟨steady.reader, sound.objects⟩, grows⟩
  cases call with
  | hasField id name =>
      have load : load world.objects id = .ok object := load_of_getElem? found
      exact ⟨_, world, by rw [answer, load]; rfl, steady, .refl _⟩
  | getFieldValue id name value errors =>
      change world.objects[id]? = some object at found
      obtain ⟨_, _, next, _, called, -, nextSteady, grows⟩ :=
        getFieldValue_breaks breaks steady found name value errors
      exact ⟨_, next, by rw [answer, called]; rfl, nextSteady, grows⟩
  | clearCache id =>
      have load : load world.objects id = .ok object := load_of_getElem? found
      exact ⟨_, _, by rw [answer, load]; rfl, cleared⟩
  | reparseObject id errors =>
      change world.objects[id]? = some object at found
      have reparsed := reparseObject_of_sound found
        (steady.objects object (List.mem_of_getElem? found)) errors
      exact ⟨_, _, by rw [answer, reparsed]; rfl, cleared⟩

theorem run_steady (breaks : fileReader.BreaksDown contents broken) {world final : World σ}
    (steady : world.Steady fileReader contents broken) {calls : List Call} {answers : List Answer}
    (ran : (machine fileReader).run world calls = .ok (answers, final)) :
    final.Steady fileReader contents broken ∧ Grows world.objects final.objects := by
  refine (machine fileReader).run_preserves
    (fun next => next.Steady fileReader contents broken ∧ Grows world.objects next.objects)
    ?_ ran ⟨steady, .refl _⟩
  rintro current next call result ⟨currentSteady, grown⟩ stepped
  obtain ⟨_, _, answered, nextSteady, grows⟩ :=
    answer_breaks breaks currentSteady (id_lt_of_answer stepped)
  cases answered.symm.trans stepped
  exact ⟨nextSteady, grown.trans grows⟩

end BinaryReader.World

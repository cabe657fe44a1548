import BinaryReader.Public.FileObject.Soundness

/-!
# Calls in a sound world

Every call returns without a fault and keeps the world sound.  What it returns
is the outcome of the field, whatever was cached and wherever the reader stood.
-/

namespace BinaryReader.World

variable {σ : Type} {fileReader : FileReader σ} {contents : List UInt8}

structure Sound (fileReader : FileReader σ) (contents : List UInt8) (world : World σ) : Prop where
  reader : world.reader.Usable fileReader contents
  objects : ∀ object ∈ world.objects, object.Sound contents world.objects

/-- How a call returns an outcome to its client. -/
def Reported (before : World σ) (value : Value) (errors : ErrorCollection) :
    Except ErrorInfo Sight → (Bool × Value × World σ × ErrorCollection) → Prop
  | .error info, (returned, result, next, added) =>
      returned = false ∧ result = value ∧ next.objects = before.objects ∧ added = errors.add info
  | .ok sight, (returned, result, next, added) =>
      returned = true ∧ look next.objects result = some sight ∧ added = errors

theorem Sound.withReader {world : World σ} (sound : world.Sound fileReader contents)
    {reader : BufferedFileReader σ} (usable : reader.Usable fileReader contents) :
    Sound fileReader contents { world with reader } where
  reader := usable
  objects := sound.objects

theorem Sound.modify {world : World σ} (sound : world.Sound fileReader contents) (id : ObjectId)
    {change : FileObject → FileObject}
    (type : ∀ object, (change object).type = object.type)
    (start : ∀ object, (change object).startPosition = object.startPosition)
    (changed : ∀ {object}, world.objects[id]? = some object →
      object.Sound contents world.objects → (change object).Sound contents world.objects) :
    Sound fileReader contents { world with objects := world.objects.modify id change } where
  reader := sound.reader
  objects := by
    intro object membership
    have grows := Grows.modify world.objects id type start
    obtain ⟨place, placed⟩ := List.mem_iff_getElem?.mp membership
    rw [List.getElem?_modify] at placed
    obtain ⟨before, found, rfl⟩ := Option.map_eq_some_iff.mp placed
    have beforeSound := sound.objects before (List.mem_of_getElem? found)
    by_cases here : id = place
    · subst here
      rw [if_pos rfl]
      exact (changed found beforeSound).mono grows
    · rw [if_neg here]
      exact beforeSound.mono grows

/-- An object is parsed where the reader stands and its exact size is skipped. -/
theorem readObject_eq {world : World σ} {type : TypeDefinition} (wellFormed : type.WellFormed)
    (result : Value) {errors : ErrorCollection} {reader : BufferedFileReader σ}
    (sought : world.reader.seek fileReader (world.reader.position + .fromBits type.exactBits)
      errors = (true, reader, errors)) :
    world.readObject fileReader type result errors =
      .ok (true, .object world.objects.length,
        { reader
          objects := world.objects ++ [FileObject.parse type world.reader.position] }, errors) := by
  have parsed : FileObject.reparseObject { type, startPosition := world.reader.position } errors =
      .ok (true, FileObject.parse type world.reader.position, errors) :=
    FileObject.reparseObject_spec wellFormed errors
  rw [readObject]
  dsimp only
  rw [parsed, Checked.ok_bind, wellFormed.staticSize]
  simp only [Bool.not_true, Bool.false_eq_true, if_false, deref_some, Checked.ok_bind, sought]
  rfl

theorem readObject_spec (contract : fileReader.Contract contents) {world : World σ}
    (sound : world.Sound fileReader contents) {type : TypeDefinition}
    (wellFormed : type.WellFormed) (result : Value) (errors : ErrorCollection) :
    ∃ reader, world.readObject fileReader type result errors =
        .ok (true, .object world.objects.length,
          { reader
            objects := world.objects ++ [FileObject.parse type world.reader.position] }, errors) ∧
      reader.Tracks fileReader contents
        ((world.reader.position.bitCount + type.exactBits) % 2 ^ 64) ∧
      Sound fileReader contents
        { reader
          objects := world.objects ++ [FileObject.parse type world.reader.position] } := by
  obtain ⟨reader, sought, tracks⟩ := sound.reader.seek contract
    (world.reader.position + .fromBits type.exactBits) errors
  refine ⟨reader, readObject_eq wellFormed result sought, ?_, ?_⟩
  · rw [Size.bitCount_add, Size.bitCount_fromBits, Nat.add_mod_mod] at tracks
    exact tracks
  · refine ⟨tracks.usable, ?_⟩
    intro object membership
    rcases List.mem_append.mp membership with old | new
    · exact (sound.objects object old).mono (.of_extension (List.prefix_append _ _))
    · rw [List.mem_singleton.mp new]
      exact FileObject.parse_sound wellFormed _

/-- Reading a type where the reader stands comes to its outcome there. A read that
succeeds moves the reader by the exact size of the type. -/
theorem readValue_spec (contract : fileReader.Contract contents) {world : World σ}
    (sound : world.Sound fileReader contents) {position : Nat}
    (tracks : world.reader.Tracks fileReader contents position) {type : TypeInfoBase}
    (wellFormed : type.WellFormed) (result : Value) (errors : ErrorCollection) :
    ∃ outcome returned value next added,
      outcomeAt contents (.fromBits position) type = .ok outcome ∧
      world.readValue fileReader result errors type = .ok (returned, value, next, added) ∧
      Reported world result errors outcome (returned, value, next, added) ∧
      next.Sound fileReader contents ∧ world.objects <+: next.objects ∧
      (returned = true →
        next.reader.Tracks fileReader contents ((position + type.exactBits) % 2 ^ 64)) := by
  cases type with
  | integer info =>
      obtain ⟨outcome, reader, valueEq, read, readerTracks⟩ :=
        info.readValue_spec contract wellFormed tracks result errors
      have positionEq : (Size.fromBits position).bitCount = position :=
        Size.bitCount_fromBits_of_lt tracks.position_lt
      have outcomeEq : outcomeAt contents (.fromBits position) (.integer info) =
          .ok (outcome.map .number) := by
        rw [outcomeAt, positionEq, valueEq]
        rfl
      have usable := sound.withReader readerTracks.usable
      cases outcome with
      | error info =>
          refine ⟨_, false, result, { world with reader }, errors.add info, outcomeEq, ?_,
            ⟨rfl, rfl, rfl, rfl⟩, usable, List.prefix_rfl, ?_⟩
          · rw [readValue, read]
            rfl
          · intro succeeded
            cases succeeded
      | ok number =>
          refine ⟨_, true, .number number, { world with reader }, errors, outcomeEq, ?_,
            ⟨rfl, rfl, rfl⟩, usable, List.prefix_rfl, fun _ => readerTracks⟩
          rw [readValue, read]
          rfl
  | definition type =>
      obtain ⟨reader, read, readerTracks, readSound⟩ :=
        readObject_spec contract sound wellFormed result errors
      rw [tracks.position_bitCount] at readerTracks
      refine ⟨_, _, _, _, _, rfl, read, ⟨rfl, ?_, rfl⟩, readSound, List.prefix_append _ _,
        fun _ => readerTracks⟩
      rw [look, List.getElem?_append_right le_rfl, Nat.sub_self, ← tracks.position_eq_fromBits]
      rfl

theorem cached_lookup {objects : List FileObject} {id : ObjectId} {object : FileObject}
    (found : objects[id]? = some object) {index : Nat} {info : ParsedFieldInfo}
    (field : object.parsedFields[index]? = some info) (value : Value) :
    (objects.modify id fun object => object.cache index value)[id]? =
        some (object.cache index value) ∧
      (object.cache index value).parsedFields[index]? = some { info with value := some value } := by
  constructor
  · simp only [List.getElem?_modify, found, if_true, Option.map_eq_map, Option.map_some]
  · simp only [FileObject.cache, List.getElem?_modify, field, if_true, Option.map_eq_map,
      Option.map_some]

theorem Sound.cacheField {world : World σ} (sound : world.Sound fileReader contents) {id : ObjectId}
    {object : FileObject} (found : world.objects[id]? = some object) {index : Nat}
    {info : ParsedFieldInfo} (field : object.parsedFields[index]? = some info) {value : Value}
    (correct : Correct contents world.objects info.type info.offset value) :
    let objects := world.objects.modify id fun object => object.cache index value
    Sound fileReader contents { world with objects } ∧ Grows world.objects objects ∧
      ∃ cached, objects[id]? = some cached ∧
        cached.parsedFields[index]? = some { info with value := some value } := by
  refine ⟨?_, .modify world.objects id (fun _ => rfl) fun _ => rfl,
    object.cache index value, cached_lookup found field value⟩
  refine sound.modify id (fun _ => rfl) (fun _ => rfl) ?_
  intro other otherFound otherSound
  cases found.symm.trans otherFound
  exact otherSound.cache field correct

theorem ensureField_read {world next : World σ} {id : ObjectId} {object : FileObject}
    (found : world.objects[id]? = some object) {index : Nat} {info : ParsedFieldInfo}
    (field : object.parsedFields[index]? = some info) (empty : info.value = none)
    {errors added : ErrorCollection} {reader : BufferedFileReader σ}
    (sought : world.reader.seek fileReader info.offset errors = (true, reader, errors))
    {returned : Bool} {value : Value}
    (read : readValue fileReader { world with reader } .null errors info.type =
      .ok (returned, value, next, added)) :
    world.ensureField fileReader id index errors =
      if !returned then
        .ok (false, next, added)
      else
        .ok (true, { next with
          objects := next.objects.modify id fun object => object.cache index value }, added) := by
  rw [ensureField, load_of_getElem? found, Checked.ok_bind, load_of_getElem? field,
    Checked.ok_bind, empty]
  simp only [Option.isSome_none, Bool.false_eq_true, if_false, sought, Bool.not_true, read,
    Checked.ok_bind]
  rfl

/-- Filling the cache of a field: it then holds the outcome, or nothing has changed. -/
theorem ensureField_spec (contract : fileReader.Contract contents) {world : World σ}
    (sound : world.Sound fileReader contents) {id : ObjectId} {object : FileObject}
    (found : world.objects[id]? = some object) {index : Nat} {info : ParsedFieldInfo}
    (field : object.parsedFields[index]? = some info) (wellFormed : info.type.WellFormed)
    (errors : ErrorCollection) :
    ∃ outcome next, outcomeAt contents info.offset info.type = .ok outcome ∧
      next.Sound fileReader contents ∧ Grows world.objects next.objects ∧
      (∀ error, outcome = .error error → next.objects = world.objects ∧
        world.ensureField fileReader id index errors = .ok (false, next, errors.add error)) ∧
      (∀ sight, outcome = .ok sight → ∃ cached value,
        world.ensureField fileReader id index errors = .ok (true, next, errors) ∧
        next.objects[id]? = some cached ∧
        cached.parsedFields[index]? = some { info with value := some value } ∧
        look next.objects value = some sight) := by
  have objectSound := sound.objects object (List.mem_of_getElem? found)
  rcases held : info.value with _ | value
  · obtain ⟨reader, sought, tracks⟩ := sound.reader.seek contract info.offset errors
    obtain ⟨outcome, returned, value, next, added, outcomeEq, read, reported, nextSound, grown,
      -⟩ :=
      readValue_spec contract (sound.withReader tracks.usable) tracks wellFormed .null errors
    rw [Size.fromBits_bitCount] at outcomeEq
    have prepare := ensureField_read found field held sought read
    rcases outcome with error | sight
    · obtain ⟨rfl, -, unchanged, rfl⟩ := reported
      refine ⟨_, next, outcomeEq, nextSound, .of_extension grown, ?_, nofun⟩
      rintro _ ⟨⟩
      exact ⟨unchanged, prepare⟩
    · obtain ⟨rfl, seen, rfl⟩ := reported
      obtain ⟨cachedSound, grows, cached, cachedFound, cachedField⟩ :=
        nextSound.cacheField (Grows.getElem?_of_extension grown found) field
          ⟨sight, outcomeEq, seen⟩
      refine ⟨_, _, outcomeEq, cachedSound, (Grows.of_extension grown).trans grows, nofun, ?_⟩
      rintro _ ⟨⟩
      exact ⟨cached, value, prepare, cachedFound, cachedField, grows.look seen⟩
  · obtain ⟨sight, outcomeEq, seen⟩ :=
      objectSound.cached info (List.mem_of_getElem? field) value held
    refine ⟨_, world, outcomeEq, sound, .refl _, nofun, ?_⟩
    rintro _ ⟨⟩
    refine ⟨object, value, ?_, found, ?_, seen⟩
    · rw [ensureField, load_of_getElem? found, Checked.ok_bind, load_of_getElem? field,
        Checked.ok_bind, held]
      rfl
    · rw [field, ← held]

/-- `GetFieldValue` returns the outcome of the field. A failing call changes no object. -/
theorem getFieldValue_spec (contract : fileReader.Contract contents) {world : World σ}
    (sound : world.Sound fileReader contents) {id : ObjectId} {object : FileObject}
    (found : world.objects[id]? = some object) (name : String) (value : Value)
    (errors : ErrorCollection) :
    ∃ outcome returned result next added,
      fieldOutcome contents object.type object.startPosition name = .ok outcome ∧
      world.getFieldValue fileReader id name value errors = .ok (returned, result, next, added) ∧
      Reported world value errors outcome (returned, result, next, added) ∧
      next.Sound fileReader contents ∧ Grows world.objects next.objects := by
  have objectSound := sound.objects object (List.mem_of_getElem? found)
  have looked := objectSound.lookup name
  rcases last : lastIndexOf name (layOut object.startPosition object.type.statements)
    with _ | index
  · rw [last] at looked
    refine ⟨.ok .null, true, .null, world, errors, ?_, ?_, ⟨rfl, rfl, rfl⟩, sound, .refl _⟩
    · rw [fieldOutcome, last]
    · rw [getFieldValue, load_of_getElem? found, Checked.ok_bind, looked]
      rfl
  · rw [last] at looked
    obtain ⟨info, laidOut, -⟩ := getElem?_of_lastIndexOf last
    obtain ⟨held, field⟩ := objectSound.field laidOut
    have wellFormed := (FileObject.layOut_of_wellFormed objectSound.wellFormed
      (List.mem_of_getElem? laidOut)).1
    obtain ⟨outcome, next, outcomeEq, nextSound, grows, failed, succeeded⟩ :=
      ensureField_spec contract sound found field wellFormed errors
    have fieldEq : fieldOutcome contents object.type object.startPosition name = .ok outcome := by
      rw [fieldOutcome, last]
      dsimp only
      rw [load_of_getElem? laidOut]
      exact outcomeEq
    rcases outcome with error | sight
    · obtain ⟨unchanged, ensured⟩ := failed error rfl
      refine ⟨_, false, value, next, errors.add error, fieldEq, ?_, ⟨rfl, rfl, unchanged, rfl⟩,
        nextSound, grows⟩
      rw [getFieldValue, load_of_getElem? found, Checked.ok_bind, looked]
      dsimp only
      rw [ensured]
      rfl
    · obtain ⟨cached, result, ensured, nextFound, nextField, seen⟩ := succeeded sight rfl
      refine ⟨_, true, result, next, errors, fieldEq, ?_, ⟨rfl, seen, rfl⟩, nextSound, grows⟩
      rw [getFieldValue, load_of_getElem? found, Checked.ok_bind, looked]
      dsimp only
      rw [ensured, Checked.ok_bind]
      simp only [Bool.not_true, Bool.false_eq_true, if_false, load_of_getElem? nextFound,
        load_of_getElem? nextField, Checked.ok_bind, deref_some]
      rfl

theorem clearCache_spec {world : World σ} (sound : world.Sound fileReader contents)
    (id : ObjectId) :
    (world.clearCache id).Sound fileReader contents ∧
      Grows world.objects (world.clearCache id).objects :=
  ⟨sound.modify id (fun _ => rfl) (fun _ => rfl) fun _ objectSound => objectSound.clearCache,
    .modify _ _ (fun _ => rfl) fun _ => rfl⟩

/-- Parsing a sound object again succeeds and only empties its cache. -/
theorem reparseObject_of_sound {world : World σ} {id : ObjectId} {object : FileObject}
    (found : world.objects[id]? = some object)
    (objectSound : object.Sound contents world.objects) (errors : ErrorCollection) :
    world.reparseObject id errors = .ok (true, world.clearCache id, errors) := by
  have set : world.objects.set id (FileObject.parse object.type object.startPosition) =
      world.objects.modify id FileObject.clearCache := by
    rw [List.modify_eq_set_getElem?, found, ← objectSound.parsed]
    rfl
  rw [reparseObject, load_of_getElem? found, Checked.ok_bind,
    FileObject.reparseObject_spec objectSound.wellFormed, Checked.ok_bind]
  dsimp only
  rw [set]
  rfl

theorem reparseObject_spec {world : World σ} (sound : world.Sound fileReader contents)
    {id : ObjectId} {object : FileObject} (found : world.objects[id]? = some object)
    (errors : ErrorCollection) :
    world.reparseObject id errors = .ok (true, world.clearCache id, errors) :=
  reparseObject_of_sound found (sound.objects object (List.mem_of_getElem? found)) errors

end BinaryReader.World

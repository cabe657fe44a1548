import BinaryReader.Public.FileObject.Observation

/-!
# What calls do to objects

Over any reader, also one that fails or lies, a request for a field fills at most one
empty field, with no other object than a new one.  Every other call leaves the objects
as they are or empties one of them.
-/

namespace BinaryReader

open Library

def FileObject.Empty (self : FileObject) : Prop := ∀ info ∈ self.parsedFields, info.value = none

def slot (objects : List FileObject) (id : ObjectId) (index : Nat) : Option Value :=
  objects[id]?.bind fun object => object.parsedFields[index]?.bind ParsedFieldInfo.value

section Slots

variable {objects : List FileObject} {id : ObjectId} {object : FileObject}

theorem FileObject.Empty.value {self : FileObject} (empty : self.Empty) (index : Nat) :
    self.parsedFields[index]?.bind ParsedFieldInfo.value = none := by
  rcases field : self.parsedFields[index]? with _ | info
  · rfl
  · exact empty info (List.mem_of_getElem? field)

theorem FileObject.clearCache_empty (self : FileObject) : self.clearCache.Empty := by
  intro info membership
  obtain ⟨_, -, rfl⟩ := List.mem_map.mp membership
  rfl

theorem slot_of_found (found : objects[id]? = some object) (index : Nat) :
    slot objects id index = object.parsedFields[index]?.bind ParsedFieldInfo.value := by
  rw [slot, found]
  rfl

theorem slot_append (objects : List FileObject) {fresh : FileObject} (empty : fresh.Empty)
    (id : ObjectId) (index : Nat) : slot (objects ++ [fresh]) id index = slot objects id index := by
  rcases lt_trichotomy id objects.length with inside | rfl | outside
  · rw [slot, slot, List.getElem?_append_left inside]
  · rw [slot_of_found List.getElem?_concat_length, empty.value, slot,
      List.getElem?_eq_none le_rfl]
    rfl
  · rw [slot, slot, List.getElem?_eq_none outside.le, List.getElem?_eq_none]
    rw [List.length_append]
    exact outside

theorem slot_cache (found : objects[id]? = some object) {index : Nat} {info : ParsedFieldInfo}
    (field : object.parsedFields[index]? = some info) (value : Value) (other : ObjectId)
    (place : Nat) :
    slot (objects.modify id fun object => object.cache index value) other place =
      if other = id ∧ place = index then some value else slot objects other place := by
  by_cases here : other = id
  · subst here
    rw [slot_of_found (World.cached_lookup found field value).1, slot_of_found found]
    simp only [FileObject.cache, List.getElem?_modify, true_and]
    by_cases there : place = index
    · subst there
      rw [if_pos rfl, field]
      simp
    · rw [if_neg there]
      simp [Ne.symm there]
  · rw [if_neg fun both => here both.1, slot, slot, List.getElem?_modify_ne _ _ (Ne.symm here)]

theorem slot_emptied {change : FileObject → FileObject} (empty : ∀ object, (change object).Empty)
    (objects : List FileObject) (id other : ObjectId) (place : Nat) :
    slot (objects.modify id change) other place =
      if other = id then none else slot objects other place := by
  by_cases here : other = id
  · subst here
    rw [if_pos rfl, slot, List.getElem?_modify_eq]
    rcases objects[other]? with _ | object
    · rfl
    · exact (empty object).value place
  · rw [if_neg here, slot, slot, List.getElem?_modify_ne _ _ (Ne.symm here)]

end Slots

def namesOf (objects : List FileObject) (id : ObjectId) : Option (List (String × Nat)) :=
  objects[id]?.map FileObject.fieldNameMap

theorem namesOf_append (objects more : List FileObject) {id : ObjectId}
    (inside : id < objects.length) : namesOf (objects ++ more) id = namesOf objects id := by
  rw [namesOf, namesOf, List.getElem?_append_left inside]

theorem namesOf_modify {change : FileObject → FileObject} (objects : List FileObject)
    (id : ObjectId) {other : ObjectId}
    (kept : id = other → ∀ object, (change object).fieldNameMap = object.fieldNameMap) :
    namesOf (objects.modify id change) other = namesOf objects other := by
  by_cases here : id = other
  · rw [namesOf, namesOf, here, List.getElem?_modify_eq]
    rcases objects[other]? with _ | object
    · rfl
    · exact congrArg some (kept here object)
  · rw [namesOf, namesOf, List.getElem?_modify_ne _ _ here]

theorem FileObject.reparseLoop_empty {statements : List Statement} {offset : Size}
    {self object : FileObject} {errors added : ErrorCollection} {returned : Bool}
    (reparsed : reparseLoop statements offset self errors = .ok (returned, object, added))
    (empty : self.Empty) : object.Empty := by
  induction statements generalizing offset self with
  | nil =>
      cases reparsed
      exact empty
  | cons statement statements inductionHypothesis =>
      cases statement with
      | definition type =>
          cases reparsed
          exact empty
      | field field =>
          obtain ⟨type, -, rest⟩ := Checked.bind_eq_ok_iff.mp reparsed
          rcases sized : type.staticSize with _ | size <;> rw [sized] at rest
          · cases rest
            exact List.forall_mem_append.mpr ⟨empty, List.forall_mem_singleton.mpr rfl⟩
          · exact inductionHypothesis rest
              (List.forall_mem_append.mpr ⟨empty, List.forall_mem_singleton.mpr rfl⟩)

theorem IntegerTypeInfo.readValue_childless {σ : Type} {fileReader : FileReader σ}
    {info : IntegerTypeInfo} {reader next : BufferedFileReader σ} {value : Value}
    {errors added : ErrorCollection} {returned : Bool}
    (read : info.readValue fileReader reader .null errors = .ok (returned, value, next, added))
    (child : ObjectId) : value ≠ .object child := by
  rw [readValue] at read
  dsimp only at read
  split_ifs at read
  · cases read
    exact Value.noConfusion
  · obtain ⟨⟨ensured, filled, collected⟩, -, afterEnsure⟩ := Checked.bind_eq_ok_iff.mp read
    cases ensured with
    | false =>
        cases afterEnsure
        exact Value.noConfusion
    | true =>
        obtain ⟨⟨buffer, shown, reported⟩, -, afterBuffer⟩ :=
          Checked.bind_eq_ok_iff.mp afterEnsure
        cases buffer with
        | none =>
            cases afterBuffer
            exact Value.noConfusion
        | some buffer =>
            dsimp only at afterBuffer
            split_ifs at afterBuffer
            · cases afterBuffer
              exact Value.noConfusion
            · obtain ⟨bits, -, afterBits⟩ := Checked.bind_eq_ok_iff.mp afterBuffer
              obtain ⟨number, -, last⟩ := Checked.bind_eq_ok_iff.mp afterBits
              cases last
              exact Value.noConfusion

namespace World

variable {σ : Type} {fileReader : FileReader σ}

/-- What a request for a field does to the objects: it may make a new one, and it may fill one
empty field of the object that was asked, with no other object than the new one. -/
inductive Fills (objects : List FileObject) (id : ObjectId) (next : List FileObject) : Prop where
  | kept : (∀ other place, slot next other place = slot objects other place) → Fills objects id next
  | filled {index : Nat} {value : Value} : id < objects.length → slot objects id index = none →
      (∀ child, value = .object child → child = objects.length ∧ child < next.length) →
      (∀ other place, slot next other place =
        if other = id ∧ place = index then some value else slot objects other place) →
      Fills objects id next

/-- The objects behind a request, which all keep their names. -/
structure Requested (objects : List FileObject) (id : ObjectId) (next : List FileObject) : Prop
    where
  fills : Fills objects id next
  grows : objects.length ≤ next.length
  names : ∀ other < objects.length, namesOf next other = namesOf objects other

theorem Requested.same (objects : List FileObject) (id : ObjectId) :
    Requested objects id objects :=
  ⟨.kept fun _ _ => rfl, le_rfl, fun _ _ => rfl⟩

def Made (objects next : List FileObject) (value : Value) : Prop :=
  next = objects ∧ (∀ child, value ≠ .object child) ∨
    ∃ fresh, next = objects ++ [fresh] ∧ fresh.Empty ∧ value = .object objects.length

theorem Requested.dropped {objects next : List FileObject} {id : ObjectId} {value : Value}
    (made : Made objects next value) : Requested objects id next := by
  rcases made with ⟨rfl, -⟩ | ⟨fresh, rfl, empty, -⟩
  · exact .same _ id
  · exact ⟨.kept (slot_append objects empty), (List.prefix_append _ _).length_le,
      fun _ inside => namesOf_append objects _ inside⟩

theorem Requested.cached {objects early : List FileObject} {id : ObjectId} {object : FileObject}
    {index : Nat} {info : ParsedFieldInfo} {value : Value} (found : objects[id]? = some object)
    (field : object.parsedFields[index]? = some info) (uncached : info.value = none)
    (made : Made objects early value) :
    Requested objects id (early.modify id fun object => object.cache index value) := by
  have inside : id < objects.length := (List.getElem?_eq_some_iff.mp found).1
  have vacant : slot objects id index = none := by
    rw [slot_of_found found, field]
    exact uncached
  have keeps (objects : List FileObject) (other : ObjectId) :
      namesOf (objects.modify id fun object => object.cache index value) other =
        namesOf objects other := namesOf_modify objects id fun _ _ => rfl
  rcases made with ⟨rfl, childless⟩ | ⟨fresh, rfl, empty, rfl⟩
  · refine ⟨.filled inside vacant (fun child same => absurd same (childless child))
      (slot_cache found field value), ?_, fun other _ => keeps early other⟩
    rw [List.length_modify]
  · have stillFound : (objects ++ [fresh])[id]? = some object := by
      rwa [List.getElem?_append_left inside]
    have newest : ∀ child, Value.object objects.length = .object child → child = objects.length ∧
        child < ((objects ++ [fresh]).modify id fun object =>
          object.cache index (.object objects.length)).length := by
      rintro child same
      cases same
      simp
    refine ⟨.filled inside vacant newest ?_, ?_, ?_⟩
    · intro other place
      rw [slot_cache stillFound field, slot_append objects empty]
    · simp
    · intro other otherInside
      rw [keeps, namesOf_append objects _ otherInside]

theorem readObject_made {world next : World σ} {type : TypeDefinition} {value : Value}
    {errors added : ErrorCollection} {returned : Bool}
    (read : world.readObject fileReader type .null errors = .ok (returned, value, next, added)) :
    Made world.objects next.objects value := by
  obtain ⟨⟨parsed, object, reported⟩, reparsed, rest⟩ := Checked.bind_eq_ok_iff.mp read
  cases parsed with
  | false =>
      cases rest
      exact Or.inl ⟨rfl, nofun⟩
  | true =>
      obtain ⟨size, -, last⟩ := Checked.bind_eq_ok_iff.mp rest
      cases last
      exact Or.inr ⟨object, rfl, FileObject.reparseLoop_empty reparsed nofun, rfl⟩

theorem readValue_made {world next : World σ} {type : TypeInfoBase} {value : Value}
    {errors added : ErrorCollection} {returned : Bool}
    (read : world.readValue fileReader .null errors type = .ok (returned, value, next, added)) :
    Made world.objects next.objects value := by
  cases type with
  | integer info =>
      obtain ⟨⟨success, number, reader, reported⟩, integerRead, last⟩ :=
        Checked.bind_eq_ok_iff.mp read
      cases last
      exact Or.inl ⟨rfl, IntegerTypeInfo.readValue_childless integerRead⟩
  | definition type => exact readObject_made read

theorem ensureField_requested {world next : World σ} {id : ObjectId} {index : Nat}
    {errors added : ErrorCollection} {returned : Bool}
    (ensured : world.ensureField fileReader id index errors = .ok (returned, next, added)) :
    Requested world.objects id next.objects := by
  obtain ⟨object, loaded, afterObject⟩ := Checked.bind_eq_ok_iff.mp ensured
  obtain ⟨info, loadedField, rest⟩ := Checked.bind_eq_ok_iff.mp afterObject
  have found := getElem?_of_load loaded
  have field := getElem?_of_load loadedField
  rcases held : info.value with _ | value
  · rw [held, if_neg (by decide)] at rest
    rcases sought : world.reader.seek fileReader info.offset errors with
      ⟨success, reader, collected⟩
    rw [sought] at rest
    cases success with
    | false =>
        cases rest
        exact .same _ id
    | true =>
        obtain ⟨⟨read, value, behind, reported⟩, readEq, last⟩ := Checked.bind_eq_ok_iff.mp rest
        have made := readValue_made readEq
        cases read with
        | false =>
            cases last
            exact .dropped made
        | true =>
            cases last
            exact .cached found field held made
  · rw [held] at rest
    cases rest
    exact .same _ id

theorem getFieldValue_requested {world next : World σ} {id : ObjectId} {name : String}
    {value result : Value} {errors added : ErrorCollection} {returned : Bool}
    (called : world.getFieldValue fileReader id name value errors =
      .ok (returned, result, next, added)) : Requested world.objects id next.objects := by
  obtain ⟨object, -, rest⟩ := Checked.bind_eq_ok_iff.mp called
  rcases looked : object.fieldNameMap.lookup name with _ | index <;> rw [looked] at rest
  · cases rest
    exact .same _ id
  · obtain ⟨⟨ensured, behind, reported⟩, ensuredEq, last⟩ := Checked.bind_eq_ok_iff.mp rest
    have requested := ensureField_requested ensuredEq
    cases ensured with
    | false =>
        cases last
        exact requested
    | true =>
        obtain ⟨_, -, afterObject⟩ := Checked.bind_eq_ok_iff.mp last
        obtain ⟨_, -, afterField⟩ := Checked.bind_eq_ok_iff.mp afterObject
        obtain ⟨_, -, done⟩ := Checked.bind_eq_ok_iff.mp afterField
        cases done
        exact requested

def Call.Empties : Call → Prop
  | .clearCache _ => True
  | .reparseObject _ _ => True
  | _ => False

/-- What a call does to the objects. -/
theorem answer_objects {world next : World σ} {call : Call} {result : Answer}
    (answered : answer fileReader world call = .ok (result, next)) :
    Requested world.objects call.id next.objects ∧ ¬ call.Empties ∨
      call.Empties ∧ ∃ change : FileObject → FileObject, (∀ object, (change object).Empty) ∧
        next.objects = world.objects.modify call.id change := by
  cases call with
  | hasField id name =>
      obtain ⟨object, -, last⟩ := Checked.bind_eq_ok_iff.mp answered
      cases last
      exact Or.inl ⟨.same _ id, fun impossible => impossible⟩
  | getFieldValue id name value errors =>
      obtain ⟨⟨returned, result, behind, reported⟩, called, last⟩ :=
        Checked.bind_eq_ok_iff.mp answered
      cases last
      exact Or.inl ⟨getFieldValue_requested called, fun impossible => impossible⟩
  | clearCache id =>
      obtain ⟨object, -, last⟩ := Checked.bind_eq_ok_iff.mp answered
      cases last
      exact Or.inr ⟨trivial, _, FileObject.clearCache_empty, rfl⟩
  | reparseObject id errors =>
      obtain ⟨⟨returned, behind, reported⟩, called, last⟩ := Checked.bind_eq_ok_iff.mp answered
      cases last
      obtain ⟨object, loaded, rest⟩ := Checked.bind_eq_ok_iff.mp called
      obtain ⟨⟨parsed, parsedObject, reported⟩, reparsed, done⟩ := Checked.bind_eq_ok_iff.mp rest
      cases done
      have empty := FileObject.reparseLoop_empty reparsed nofun
      refine Or.inr ⟨trivial, fun _ => parsedObject, fun _ => empty, ?_⟩
      rw [Call.id, List.modify_eq_set_getElem?, getElem?_of_load loaded]
      rfl

end World

end BinaryReader

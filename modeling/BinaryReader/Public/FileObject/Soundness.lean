import BinaryReader.Public.FileObject.Layout

/-!
# Sound objects

A `Sight` is what a client can tell of a value: a number, or the type and the
start of an object.  `outcomeAt` is what reading a type at an offset comes to, as
a function of the file.  In a sound world every object is parsed and caches only
values that are seen as their outcome; every call keeps the world sound.
-/

namespace BinaryReader

inductive Sight where
  | null
  | number (number : Number)
  | object (type : TypeDefinition) (startPosition : Size)

def look (objects : List FileObject) : Value → Option Sight
  | .null => some .null
  | .number number => some (.number number)
  | .string _ => none
  | .object id => objects[id]?.map fun object => .object object.type object.startPosition

section

variable {objects : List FileObject} {value : Value}

theorem look_eq_null (seen : look objects value = some .null) : value = .null := by
  cases value with
  | null => rfl
  | number number => cases seen
  | string string => cases seen
  | object id =>
      obtain ⟨object, -, same⟩ := Option.map_eq_some_iff.mp seen
      cases same

theorem look_eq_number {number : Number} (seen : look objects value = some (.number number)) :
    value = .number number := by
  cases value with
  | null => cases seen
  | number other =>
      cases seen
      rfl
  | string string => cases seen
  | object id =>
      obtain ⟨object, -, same⟩ := Option.map_eq_some_iff.mp seen
      cases same

theorem look_eq_object {type : TypeDefinition} {startPosition : Size}
    (seen : look objects value = some (.object type startPosition)) :
    ∃ id object, value = .object id ∧ objects[id]? = some object ∧ object.type = type ∧
      object.startPosition = startPosition := by
  cases value with
  | null => cases seen
  | number number => cases seen
  | string string => cases seen
  | object id =>
      obtain ⟨object, found, same⟩ := Option.map_eq_some_iff.mp seen
      cases same
      exact ⟨id, object, rfl, found, rfl, rfl⟩

end

/-- What reading a type at an offset of the file comes to. -/
def outcomeAt (contents : List UInt8) (offset : Size) :
    TypeInfoBase → Checked (Except ErrorInfo Sight)
  | .integer info => do return (← info.valueAt contents offset.bitCount).map .number
  | .definition type => .ok (.ok (.object type offset))

def fieldOutcome (contents : List UInt8) (type : TypeDefinition) (startPosition : Size)
    (name : String) : Checked (Except ErrorInfo Sight) :=
  match lastIndexOf name (layOut startPosition type.statements) with
  | none => .ok (.ok .null)
  | some index => do
      let info ← load (layOut startPosition type.statements) index
      outcomeAt contents info.offset info.type

/-- Objects may be added, and none changes its type or its start. -/
def Grows (early late : List FileObject) : Prop :=
  ∀ (id : ObjectId) (object : FileObject), early[id]? = some object →
    ∃ next, late[id]? = some next ∧ next.type = object.type ∧
      next.startPosition = object.startPosition

namespace Grows

theorem refl (objects : List FileObject) : Grows objects objects :=
  fun _ object found => ⟨object, found, rfl, rfl⟩

theorem trans {early middle late : List FileObject} (first : Grows early middle)
    (second : Grows middle late) : Grows early late := by
  intro id object found
  obtain ⟨next, nextFound, type, start⟩ := first id object found
  obtain ⟨last, lastFound, lastType, lastStart⟩ := second id next nextFound
  exact ⟨last, lastFound, lastType.trans type, lastStart.trans start⟩

theorem getElem?_of_extension {early late : List FileObject} (isPrefix : early <+: late)
    {id : ObjectId} {object : FileObject} (found : early[id]? = some object) :
    late[id]? = some object := by
  obtain ⟨added, rfl⟩ := isPrefix
  rw [List.getElem?_append_left (List.getElem?_eq_some_iff.mp found).1, found]

theorem of_extension {early late : List FileObject} (isPrefix : early <+: late) :
    Grows early late :=
  fun _ object found => ⟨object, getElem?_of_extension isPrefix found, rfl, rfl⟩

theorem modify (objects : List FileObject) (id : ObjectId) {change : FileObject → FileObject}
    (type : ∀ object, (change object).type = object.type)
    (start : ∀ object, (change object).startPosition = object.startPosition) :
    Grows objects (objects.modify id change) := by
  intro other object found
  rw [List.getElem?_modify, found]
  split_ifs
  · exact ⟨_, rfl, type object, start object⟩
  · exact ⟨_, rfl, rfl, rfl⟩

theorem look {early late : List FileObject} (grows : Grows early late) {value : Value}
    {sight : Sight} (seen : look early value = some sight) :
    BinaryReader.look late value = some sight := by
  rcases value with _ | number | string | id
  · exact seen
  · exact seen
  · exact seen
  · obtain ⟨object, found, rfl⟩ := Option.map_eq_some_iff.mp seen
    obtain ⟨next, nextFound, type, start⟩ := grows id object found
    rw [BinaryReader.look, nextFound, Option.map_some, type, start]

end Grows

def Correct (contents : List UInt8) (objects : List FileObject) (type : TypeInfoBase)
    (offset : Size) (value : Value) : Prop :=
  ∃ sight, outcomeAt contents offset type = .ok (.ok sight) ∧ look objects value = some sight

namespace FileObject

structure Sound (contents : List UInt8) (objects : List FileObject) (object : FileObject) :
    Prop where
  wellFormed : object.type.WellFormed
  parsed : object.clearCache = parse object.type object.startPosition
  cached : ∀ info ∈ object.parsedFields, ∀ value, info.value = some value →
    Correct contents objects info.type info.offset value

variable {contents : List UInt8} {objects : List FileObject} {object : FileObject}

theorem Sound.mono (sound : object.Sound contents objects) {next : List FileObject}
    (grows : Grows objects next) : object.Sound contents next where
  wellFormed := sound.wellFormed
  parsed := sound.parsed
  cached := by
    intro info membership value held
    obtain ⟨sight, outcome, seen⟩ := sound.cached info membership value held
    exact ⟨sight, outcome, grows.look seen⟩

theorem Sound.lookup (sound : object.Sound contents objects) (name : String) :
    object.fieldNameMap.lookup name =
      lastIndexOf name (layOut object.startPosition object.type.statements) := by
  have map : object.clearCache.fieldNameMap =
      (parse object.type object.startPosition).fieldNameMap := congrArg fieldNameMap sound.parsed
  rw [← parse_lookup, ← map]
  rfl

/-- A sound object has the fields of its layout, but for what they cache. -/
theorem Sound.field (sound : object.Sound contents objects) {index : Nat} {info : ParsedFieldInfo}
    (found : (layOut object.startPosition object.type.statements)[index]? = some info) :
    ∃ held, object.parsedFields[index]? = some { info with value := held } := by
  have fields : object.clearCache.parsedFields =
      layOut object.startPosition object.type.statements := congrArg parsedFields sound.parsed
  rw [← fields, clearCache, List.getElem?_map] at found
  obtain ⟨stored, storedFound, rfl⟩ := Option.map_eq_some_iff.mp found
  exact ⟨stored.value, storedFound⟩

theorem layOut_of_wellFormed {type : TypeDefinition} (wellFormed : type.WellFormed)
    {offset : Size} {info : ParsedFieldInfo}
    (membership : info ∈ layOut offset type.statements) :
    info.type.WellFormed ∧ info.value = none := by
  rcases type with ⟨debug, name, statements⟩
  exact layOut_wellFormed wellFormed membership

theorem Sound.type_wellFormed (sound : object.Sound contents objects) {index : Nat}
    {info : ParsedFieldInfo} (found : object.parsedFields[index]? = some info) :
    info.type.WellFormed := by
  have fields : object.clearCache.parsedFields =
      layOut object.startPosition object.type.statements := congrArg parsedFields sound.parsed
  have laidOut : { info with value := none } ∈
      layOut object.startPosition object.type.statements := by
    rw [← fields]
    exact List.mem_map.mpr ⟨info, List.mem_of_getElem? found, rfl⟩
  exact (layOut_of_wellFormed sound.wellFormed laidOut).1

theorem parse_sound {type : TypeDefinition} (wellFormed : type.WellFormed) (start : Size) :
    (parse type start).Sound contents objects where
  wellFormed := wellFormed
  parsed := by
    have empty : (layOut start type.statements).map (fun info => { info with value := none }) =
        layOut start type.statements := by
      refine (List.map_congr_left fun info membership => ?_).trans (List.map_id _)
      rw [← (layOut_of_wellFormed wellFormed membership).2]
      rfl
    simp only [clearCache, parse, empty]
  cached := by
    intro info membership value held
    rw [(layOut_of_wellFormed wellFormed membership).2] at held
    cases held

theorem clearCache_cache (object : FileObject) (index : Nat) (value : Value) :
    (object.cache index value).clearCache = object.clearCache := by
  have same : (object.parsedFields.modify index fun info => { info with value := some value }).map
      (fun info => { info with value := none }) =
        object.parsedFields.map fun info => { info with value := none } := by
    apply List.ext_getElem?
    intro place
    rw [List.getElem?_map, List.getElem?_modify, List.getElem?_map]
    rcases object.parsedFields[place]? with _ | info
    · rfl
    · split_ifs <;> rfl
  simp only [clearCache, cache, same]

theorem clearCache_clearCache (object : FileObject) :
    object.clearCache.clearCache = object.clearCache := by
  simp only [clearCache, List.map_map]
  rfl

theorem Sound.clearCache (sound : object.Sound contents objects) :
    object.clearCache.Sound contents objects where
  wellFormed := sound.wellFormed
  parsed := (clearCache_clearCache object).trans sound.parsed
  cached := by
    intro info membership value held
    obtain ⟨stored, -, rfl⟩ := List.mem_map.mp membership
    cases held

theorem Sound.cache (sound : object.Sound contents objects) {index : Nat} {info : ParsedFieldInfo}
    (found : object.parsedFields[index]? = some info) {value : Value}
    (correct : Correct contents objects info.type info.offset value) :
    (object.cache index value).Sound contents objects where
  wellFormed := sound.wellFormed
  parsed := (clearCache_cache object index value).trans sound.parsed
  cached := by
    intro other membership held heldEq
    obtain ⟨place, placed⟩ := List.mem_iff_getElem?.mp membership
    rw [FileObject.cache, List.getElem?_modify] at placed
    by_cases here : index = place
    · subst here
      simp only [found, if_true, Option.map_eq_map, Option.map_some, Option.some.injEq] at placed
      subst placed
      cases heldEq
      exact correct
    · simp only [here, if_false, Option.map_eq_map, Option.map_id'] at placed
      exact sound.cached other (List.mem_of_getElem? placed) held heldEq

end FileObject

end BinaryReader

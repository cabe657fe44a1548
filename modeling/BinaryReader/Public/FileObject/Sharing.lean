import BinaryReader.Library.Interleaving
import BinaryReader.Public.FileObject.Observation

/-!
# Worlds that share a file

Every root object has a buffered reader of its own, and the buffered readers of
one file share the underlying reader.  A call on an object depends on nothing
else as long as it is undisturbed: it does not go on reading at the end of its
window while the underlying reader stands elsewhere.
-/

namespace BinaryReader.World

open Library BufferedFileReader

variable {σ : Type} {fileReader : FileReader σ} {contents : List UInt8}

def Uncached (objects : List FileObject) (id : ObjectId) (name : String)
    (info : ParsedFieldInfo) : Prop :=
  ∃ object index, objects[id]? = some object ∧ object.fieldNameMap.lookup name = some index ∧
    object.parsedFields[index]? = some info ∧ info.value = none

/-- The window covers the start of a value and not its end, so that reading it adds to the
window. -/
def Refills (reader : BufferedFileReader σ) (offset : Size) (type : IntegerTypeInfo) : Prop :=
  reader.Covers offset ∧ ¬ type.Misaligned offset.bitCount ∧
    reader.windowEnd * 8 < offset.bitCount + type.size.bitCount

/-- A call adds to the window only where the underlying reader stands at its end. -/
def Undisturbed (fileReader : FileReader σ) (contents : List UInt8) (self : World σ)
    (call : Call) : Prop :=
  InStep fileReader contents self.reader ∨
    ∀ id name value errors info type, call = .getFieldValue id name value errors →
      Uncached self.objects id name info → info.type = .integer type →
      ¬ Refills self.reader info.offset type

/-- The operation does the same over every reader that shows the file and is ready for it. -/
def Settles {α : Type} (fileReader : FileReader σ) (contents : List UInt8)
    (ready : BufferedFileReader σ → Prop)
    (operation : BufferedFileReader σ → Checked (α × World σ)) : Prop :=
  (∃ fault, ∀ reader, operation reader = .error fault) ∨
  ∃ result objects, ∀ reader, reader.Intact contents → ready reader →
    ∃ next : BufferedFileReader σ, operation reader = .ok (result, { reader := next, objects }) ∧
      next.Intact contents ∧ (InStep fileReader contents reader → InStep fileReader contents next)

section
variable {α : Type} {ready : BufferedFileReader σ → Prop}
  {operation : BufferedFileReader σ → Checked (α × World σ)}

theorem Settles.of_fault {fault : Fault} (same : ∀ reader, operation reader = .error fault) :
    Settles fileReader contents ready operation :=
  Or.inl ⟨fault, same⟩

theorem Settles.of_same (result : α) (objects : List FileObject)
    (same : ∀ reader, operation reader = .ok (result, { reader, objects })) :
    Settles fileReader contents ready operation := by
  apply Or.inr
  refine ⟨result, objects, ?_⟩
  intro reader intact _
  exact ⟨reader, same reader, intact, fun inStep => inStep⟩

end

/-- Moving to a value makes reading it safe, unless it goes on at the end of the window. -/
theorem safe_of_seek {reader next : BufferedFileReader σ} {offset : Size}
    {type : IntegerTypeInfo} (intact : next.Intact contents) (target : next.position = offset)
    (steps : InStep fileReader contents reader → InStep fileReader contents next)
    (stays : reader.Covers offset → next.windowEnd = reader.windowEnd)
    (leaves : ¬ reader.Covers offset → InStep fileReader contents next)
    (undisturbed : InStep fileReader contents reader ∨ ¬ Refills reader offset type) :
    type.Safe fileReader contents next := by
  rw [IntegerTypeInfo.Safe, target]
  rcases undisturbed with inStep | whole
  · exact Or.inr (Or.inr (steps inStep))
  · by_cases covered : reader.Covers offset
    · by_cases misaligned : type.Misaligned offset.bitCount
      · exact Or.inl misaligned
      · apply Or.inr
        apply Or.inl
        rw [intact.delivers_iff, target, stays covered]
        by_contra beyond
        exact whole ⟨covered, misaligned, not_le.mp beyond⟩
    · exact Or.inr (Or.inr (leaves covered))

/-- Reading a type comes to the same over every reader that stands at the offset. -/
theorem readValue_settles (contract : fileReader.Contract contents) {type : TypeInfoBase}
    (wellFormed : type.WellFormed) (objects : List FileObject) (offset : Size)
    (errors : ErrorCollection) :
    ∃ returned result added grown, objects <+: grown ∧
      ∀ reader : BufferedFileReader σ, reader.Intact contents → reader.position = offset →
        (∀ info, type = .integer info → info.Safe fileReader contents reader) →
        ∃ next : BufferedFileReader σ,
          readValue fileReader { reader, objects } .null errors type =
            .ok (returned, result, { reader := next, objects := grown }, added) ∧
          next.Intact contents ∧
          (InStep fileReader contents reader → InStep fileReader contents next) := by
  cases type with
  | integer info =>
      have readable : info.Readable := wellFormed
      obtain ⟨outcome, valueEq⟩ := info.exists_valueAt readable contents offset.bitCount
      have settled : ∀ reader : BufferedFileReader σ, reader.Intact contents →
          reader.position = offset → info.Safe fileReader contents reader →
          ∃ next : BufferedFileReader σ, info.readValue fileReader reader .null errors =
              .ok (IntegerTypeInfo.returned .null errors next outcome) ∧
            next.Intact contents ∧
            (InStep fileReader contents reader → InStep fileReader contents next) := by
        rintro reader intact rfl safe
        obtain ⟨other, next, otherEq, read, nextIntact, -, steps⟩ :=
          info.readValue_intact contract readable intact safe .null errors
        cases valueEq.symm.trans otherEq
        exact ⟨next, read, nextIntact, steps⟩
      cases outcome with
      | error failure =>
          refine ⟨false, .null, errors.add failure, objects, List.prefix_rfl, ?_⟩
          intro reader intact here safe
          obtain ⟨next, read, kept⟩ := settled reader intact here (safe info rfl)
          refine ⟨next, ?_, kept⟩
          rw [readValue, read]
          rfl
      | ok number =>
          refine ⟨true, .number number, errors, objects, List.prefix_rfl, ?_⟩
          intro reader intact here safe
          obtain ⟨next, read, kept⟩ := settled reader intact here (safe info rfl)
          refine ⟨next, ?_, kept⟩
          rw [readValue, read]
          rfl
  | definition type =>
      refine ⟨true, .object objects.length, errors, objects ++ [.parse type offset],
        List.prefix_append _ _, ?_⟩
      rintro reader intact rfl _
      obtain ⟨next, sought, nextIntact, -, steps, -⟩ :=
        intact.seek contract (reader.position + .fromBits type.exactBits) errors
      exact ⟨next, readObject_eq wellFormed .null sought, nextIntact, steps⟩

theorem getFieldValue_read {world next : World σ} {id : ObjectId} {object : FileObject}
    (found : world.objects[id]? = some object) {name : String} {index : Nat}
    (looked : object.fieldNameMap.lookup name = some index) {info : ParsedFieldInfo}
    (field : object.parsedFields[index]? = some info) (empty : info.value = none)
    {errors added : ErrorCollection} {reader : BufferedFileReader σ}
    (sought : world.reader.seek fileReader info.offset errors = (true, reader, errors))
    {returned : Bool} {result : Value}
    (read : readValue fileReader { world with reader } .null errors info.type =
      .ok (returned, result, next, added))
    (grown : world.objects <+: next.objects) (value : Value) :
    world.getFieldValue fileReader id name value errors =
      .ok (returned, if returned then result else value,
        { next with
          objects :=
            if returned then next.objects.modify id fun object => object.cache index result
            else next.objects }, added) := by
  have ensured := ensureField_read found field empty sought read
  rw [getFieldValue, load_of_getElem? found, Checked.ok_bind, looked]
  dsimp only
  cases returned with
  | false =>
      rw [ensured]
      rfl
  | true =>
      obtain ⟨cachedFound, cachedField⟩ :=
        cached_lookup (Grows.getElem?_of_extension grown found) field result
      rw [ensured]
      simp only [Bool.not_true, Bool.false_eq_true, if_false, if_true, Checked.ok_bind,
        load_of_getElem? cachedFound, load_of_getElem? cachedField, deref_some]
      rfl

theorem getFieldValue_settles (contract : fileReader.Contract contents)
    {objects : List FileObject} (sound : ∀ object ∈ objects, object.Sound contents objects)
    (id : ObjectId) (name : String) (value : Value) (errors : ErrorCollection) :
    Settles fileReader contents
      (fun reader => Undisturbed fileReader contents { reader, objects }
        (.getFieldValue id name value errors))
      (fun reader => answer fileReader { reader, objects }
        (.getFieldValue id name value errors)) := by
  rcases found : objects[id]? with _ | object
  · apply Settles.of_fault
    intro reader
    simp only [answer, getFieldValue, load, found]
    rfl
  rcases looked : object.fieldNameMap.lookup name with _ | index
  · apply Settles.of_same (.getFieldValue true .null errors) objects
    intro reader
    simp only [answer, getFieldValue, load_of_getElem? found, Checked.ok_bind, looked]
    rfl
  rcases field : object.parsedFields[index]? with _ | info
  · apply Settles.of_fault
    intro reader
    simp only [answer, getFieldValue, ensureField, load_of_getElem? found, Checked.ok_bind, looked]
    simp only [load, field]
    rfl
  rcases held : info.value with _ | cached
  · have wellFormed := (sound object (List.mem_of_getElem? found)).type_wellFormed field
    obtain ⟨returned, result, added, grown, isPrefix, settled⟩ :=
      readValue_settles contract wellFormed objects info.offset errors
    apply Or.inr
    refine ⟨.getFieldValue returned (if returned then result else value) added,
      if returned then grown.modify id fun object => object.cache index result else grown, ?_⟩
    intro reader intact undisturbed
    obtain ⟨sought, seekEq, soughtIntact, target, steps, stays, leaves⟩ :=
      intact.seek contract info.offset errors
    obtain ⟨next, read, nextIntact, nextSteps⟩ := settled sought soughtIntact target (by
      intro type integer
      apply safe_of_seek soughtIntact target steps stays leaves
      apply undisturbed.imp_right
      intro whole
      exact whole id name value errors info type rfl ⟨object, index, found, looked, field, held⟩
        integer)
    refine ⟨next, ?_, nextIntact, fun inStep => nextSteps (steps inStep)⟩
    have before : ({ reader, objects } : World σ).objects[id]? = some object := found
    simp only [answer, getFieldValue_read before looked field held seekEq read isPrefix value]
    rfl
  · apply Settles.of_same (.getFieldValue true cached errors) objects
    intro reader
    simp only [answer, getFieldValue, ensureField, load_of_getElem? found, Checked.ok_bind, looked,
      load_of_getElem? field, held, Option.isSome_some, if_true]
    simp only [pure, Except.pure, Checked.ok_bind, Bool.not_true, Bool.false_eq_true, if_false,
      load_of_getElem? found, load_of_getElem? field, held, deref_some]

/-- Every call on sound objects is settled by them, if it is undisturbed. -/
theorem answer_settles (contract : fileReader.Contract contents)
    {objects : List FileObject} (sound : ∀ object ∈ objects, object.Sound contents objects)
    (call : Call) :
    Settles fileReader contents
      (fun reader => Undisturbed fileReader contents { reader, objects } call)
      (fun reader => answer fileReader { reader, objects } call) := by
  cases call with
  | getFieldValue id name value errors =>
      exact getFieldValue_settles contract sound id name value errors
  | hasField id name =>
      rcases found : objects[id]? with _ | object
      · apply Settles.of_fault
        intro reader
        simp only [answer, load, found]
        rfl
      · apply Settles.of_same (.hasField (object.hasField name)) objects
        intro reader
        simp only [answer, load_of_getElem? found, Checked.ok_bind]
        rfl
  | clearCache id =>
      rcases found : objects[id]? with _ | object
      · apply Settles.of_fault
        intro reader
        simp only [answer, load, found]
        rfl
      · apply Settles.of_same .clearCache (objects.modify id FileObject.clearCache)
        intro reader
        simp only [answer, load_of_getElem? found, Checked.ok_bind]
        rfl
  | reparseObject id errors =>
      rcases found : objects[id]? with _ | object
      · apply Settles.of_fault
        intro reader
        simp only [answer, reparseObject, load, found]
        rfl
      · rcases parsed : object.reparseObject errors with fault | ⟨returned, next, added⟩
        · apply Settles.of_fault
          intro reader
          simp only [answer, reparseObject, load_of_getElem? found, Checked.ok_bind, parsed]
          rfl
        · apply Settles.of_same (.reparseObject returned added) (objects.set id next)
          intro reader
          simp only [answer, reparseObject, load_of_getElem? found, Checked.ok_bind, parsed]
          rfl

def withFile (self : World σ) (file : σ) : World σ :=
  { self with reader := { self.reader with reader := file } }

/-- One root object and its children, next to others that move the underlying reader. -/
def component (fileReader : FileReader σ) : Machine (σ × World σ) Call Answer Fault where
  step := fun state call => do
    let (given, next) ← answer fileReader (state.2.withFile state.1) call
    return (given, (next.reader.reader, next))

/-- A world that shares its file, and one that does not and has the same objects. -/
structure SameObjects (fileReader : FileReader σ) (contents : List UInt8)
    (shared alone : World σ) : Prop where
  objects : shared.objects = alone.objects
  sharedIntact : shared.reader.Intact contents
  aloneIntact : alone.reader.Intact contents
  aloneInStep : InStep fileReader contents alone.reader
  sound : ∀ object ∈ alone.objects, object.Sound contents alone.objects

theorem SameObjects.alike (contract : fileReader.Contract contents) {file : σ}
    {shared alone : World σ} (same : SameObjects fileReader contents shared alone) {call : Call}
    (undisturbed : (shared.withFile file).Undisturbed fileReader contents call) :
    Machine.Alike (SameObjects fileReader contents)
      ((component fileReader).step (file, shared) call) ((machine fileReader).step alone call) := by
  obtain ⟨reader, objects⟩ := shared
  obtain ⟨lone, loneObjects⟩ := alone
  obtain ⟨rfl, intact, loneIntact, inStep, sound⟩ := same
  have moved : ({ reader with reader := file } : BufferedFileReader σ).Intact contents :=
    ⟨⟨intact.shaped.aligned, intact.shaped.position_lt, intact.shaped.offset_lt⟩, intact.holds⟩
  rcases answer_settles contract sound call with ⟨fault, faulty⟩ | ⟨given, after, settled⟩
  · have sharedFault := faulty { reader with reader := file }
    simp only [component, withFile, sharedFault, machine, faulty lone]
    exact .fault fault
  · obtain ⟨next, answered, nextIntact, -⟩ := settled _ moved undisturbed
    obtain ⟨loneNext, loneAnswered, loneNextIntact, loneSteps⟩ :=
      settled lone loneIntact (Or.inl inStep)
    have loneSound : Sound fileReader contents { reader := lone, objects } :=
      ⟨(loneIntact.tracks inStep).usable, sound⟩
    obtain ⟨_, _, loneAgain, nextSound, -⟩ :=
      answer_spec contract loneSound (id_lt_of_answer loneAnswered)
    cases loneAnswered.symm.trans loneAgain
    simp only [component, withFile, answered, machine, loneAnswered]
    exact .output given next.reader
      ⟨rfl, nextIntact, loneNextIntact, loneSteps inStep, nextSound.objects⟩

/-- A world whose file nobody else moves stays as it has to be for others to share the file. -/
theorem SameObjects.run (contract : fileReader.Contract contents) {world reached : World σ}
    (same : SameObjects fileReader contents world world) {calls : List Call}
    {answers : List Answer}
    (ran : (machine fileReader).run world calls = .ok (answers, reached)) :
    SameObjects fileReader contents reached reached := by
  refine (machine fileReader).run_preserves
    (fun world => SameObjects fileReader contents world world) ?_ ran same
  intro world next call given same answered
  have alike : Machine.Alike (SameObjects fileReader contents)
      ((component fileReader).step (world.reader.reader, world) call)
      ((machine fileReader).step world call) :=
    same.alike contract (Or.inl same.aloneInStep)
  have stepped : (component fileReader).step (world.reader.reader, world) call =
      .ok (given, (next.reader.reader, next)) := by
    change answer fileReader world call >>= _ = _
    rw [show answer fileReader world call = .ok (given, next) from answered]
    rfl
  rw [stepped, answered] at alike
  cases alike with
  | output _ _ kept => exact kept

end BinaryReader.World

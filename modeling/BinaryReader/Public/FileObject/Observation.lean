import BinaryReader.Library.Machine
import BinaryReader.Public.FileObject.Calls

/-!
# The order of observations

The calls of a client on an object and on all objects obtained from it, as a
machine over worlds.  Whatever calls came before, a call reports what a first
call on a freshly parsed object reports.
-/

namespace BinaryReader.World

open Library

inductive Call where
  | hasField (id : ObjectId) (name : String)
  | getFieldValue (id : ObjectId) (name : String) (value : Value) (errors : ErrorCollection)
  | clearCache (id : ObjectId)
  | reparseObject (id : ObjectId) (errors : ErrorCollection)

def Call.id : Call → ObjectId
  | .hasField id _ => id
  | .getFieldValue id _ _ _ => id
  | .clearCache id => id
  | .reparseObject id _ => id

inductive Answer where
  | hasField (found : Bool)
  | getFieldValue (returned : Bool) (value : Value) (errors : ErrorCollection)
  | clearCache
  | reparseObject (returned : Bool) (errors : ErrorCollection)

variable {σ : Type}

def answer (fileReader : FileReader σ) (self : World σ) : Call → Checked (Answer × World σ)
  | .hasField id name => do
      let object ← load self.objects id
      return (.hasField (object.hasField name), self)
  | .getFieldValue id name value errors => do
      let (returned, value, next, errors) ← self.getFieldValue fileReader id name value errors
      return (.getFieldValue returned value errors, next)
  | .clearCache id => do
      let _ ← load self.objects id
      return (.clearCache, self.clearCache id)
  | .reparseObject id errors => do
      let (returned, next, errors) ← self.reparseObject id errors
      return (.reparseObject returned errors, next)

def machine (fileReader : FileReader σ) : Machine (World σ) Call Answer Fault where
  step := answer fileReader

/-- What a client sees of a call: its value, or the error it added. -/
def observed : (Bool × Value × World σ × ErrorCollection) → Option (Except ErrorInfo Sight)
  | (true, value, next, _) => (look next.objects value).map .ok
  | (false, _, _, errors) => errors.errors.getLast?.map .error

/-- Parse an object where it starts, and ask it for one field. -/
def firstCall (fileReader : FileReader σ) (reader : BufferedFileReader σ) (type : TypeDefinition)
    (startPosition : Size) (name : String) : Checked (Option (Except ErrorInfo Sight)) := do
  let (_, reader, errors) := reader.seek fileReader startPosition {}
  let (_, _, world, errors) ← readObject fileReader type { reader } .null errors
  return observed (← world.getFieldValue fileReader 0 name .null errors)

variable {fileReader : FileReader σ} {contents : List UInt8}

theorem Reported.observed {before : World σ} {value : Value} {errors : ErrorCollection}
    {outcome : Except ErrorInfo Sight} {call : Bool × Value × World σ × ErrorCollection}
    (reported : before.Reported value errors outcome call) :
    World.observed call = some outcome := by
  obtain ⟨returned, result, next, added⟩ := call
  rcases outcome with error | sight
  · obtain ⟨rfl, rfl, -, rfl⟩ := reported
    simp [World.observed]
  · obtain ⟨rfl, seen, rfl⟩ := reported
    simp [World.observed, seen]

theorem firstCall_spec (contract : fileReader.Contract contents) {reader : BufferedFileReader σ}
    (usable : reader.Usable fileReader contents) {type : TypeDefinition}
    (wellFormed : type.WellFormed) (startPosition : Size) (name : String) :
    ∃ outcome, fieldOutcome contents type startPosition name = .ok outcome ∧
      firstCall fileReader reader type startPosition name = .ok (some outcome) := by
  obtain ⟨sought, seekEq, tracks⟩ := usable.seek contract startPosition {}
  have start : sought.position = startPosition :=
    Size.bitCount_injective tracks.position_bitCount
  have empty : Sound fileReader contents { reader := sought } := ⟨tracks.usable, nofun⟩
  obtain ⟨next, read, -, sound⟩ := readObject_spec contract empty wellFormed .null {}
  have root : [FileObject.parse type sought.position][0]? =
      some (.parse type sought.position) := rfl
  obtain ⟨outcome, returned, result, last, added, outcomeEq, called, reported, -, -⟩ :=
    getFieldValue_spec contract sound root name .null {}
  simp only [FileObject.parse, start] at outcomeEq
  refine ⟨outcome, outcomeEq, ?_⟩
  rw [firstCall, seekEq]
  dsimp only
  rw [read, Checked.ok_bind]
  dsimp only
  rw [called, Checked.ok_bind, reported.observed]
  rfl

/-- Every call on an object that exists returns, keeps the world sound, and keeps
the identity of every object. -/
theorem answer_spec (contract : fileReader.Contract contents) {world : World σ}
    (sound : world.Sound fileReader contents) {call : Call}
    (exists_ : call.id < world.objects.length) :
    ∃ result next, answer fileReader world call = .ok (result, next) ∧
      next.Sound fileReader contents ∧ Grows world.objects next.objects := by
  obtain ⟨object, found⟩ : ∃ object, world.objects[call.id]? = some object :=
    ⟨_, List.getElem?_eq_getElem exists_⟩
  cases call with
  | hasField id name =>
      have load : load world.objects id = .ok object := load_of_getElem? found
      exact ⟨_, world, by rw [answer, load]; rfl, sound, .refl _⟩
  | getFieldValue id name value errors =>
      change world.objects[id]? = some object at found
      obtain ⟨_, _, _, next, _, -, called, -, nextSound, grows⟩ :=
        getFieldValue_spec contract sound found name value errors
      exact ⟨_, next, by rw [answer, called]; rfl, nextSound, grows⟩
  | clearCache id =>
      have load : load world.objects id = .ok object := load_of_getElem? found
      obtain ⟨nextSound, grows⟩ := clearCache_spec sound id
      exact ⟨_, _, by rw [answer, load]; rfl, nextSound, grows⟩
  | reparseObject id errors =>
      change world.objects[id]? = some object at found
      have reparsed := reparseObject_spec sound found errors
      obtain ⟨nextSound, grows⟩ := clearCache_spec sound id
      exact ⟨_, _, by rw [answer, reparsed]; rfl, nextSound, grows⟩

theorem id_lt_of_answer {world next : World σ} {call : Call} {result : Answer}
    (answered : answer fileReader world call = .ok (result, next)) :
    call.id < world.objects.length := by
  by_contra missing
  have absent : load world.objects call.id = .error .outOfBounds := by
    rw [load, List.getElem?_eq_none (Nat.le_of_not_lt missing)]
  cases call <;> simp [answer, getFieldValue, reparseObject, Call.id] at answered absent <;>
    simp [absent] at answered

theorem run_sound (contract : fileReader.Contract contents) {world final : World σ}
    (sound : world.Sound fileReader contents) {calls : List Call} {answers : List Answer}
    (ran : (machine fileReader).run world calls = .ok (answers, final)) :
    final.Sound fileReader contents ∧ Grows world.objects final.objects := by
  refine (machine fileReader).run_preserves
    (fun next => next.Sound fileReader contents ∧ Grows world.objects next.objects)
    ?_ ran ⟨sound, .refl _⟩
  rintro current next call result ⟨currentSound, grown⟩ stepped
  obtain ⟨_, _, answered, nextSound, grows⟩ :=
    answer_spec contract currentSound (id_lt_of_answer stepped)
  cases answered.symm.trans stepped
  exact ⟨nextSound, grown.trans grows⟩

/-- Calls on an object are answered as on an object that was just parsed. -/
structure AsFirst (fileReader : FileReader σ) (contents : List UInt8) (world : World σ)
    (id : ObjectId) (object : FileObject) : Prop where
  getFieldValue : ∀ name value errors, ∃ returned result next added outcome,
    world.getFieldValue fileReader id name value errors = .ok (returned, result, next, added) ∧
    observed (returned, result, next, added) = some outcome ∧
    (∀ {τ : Type} (other : FileReader τ), other.Contract contents →
      ∀ reader : BufferedFileReader τ, reader.Usable other contents →
        firstCall other reader object.type object.startPosition name = .ok (some outcome)) ∧
    (returned = false → result = value ∧ next.objects = world.objects)
  hasField : ∀ name errors, ∃ fresh,
    FileObject.reparseObject { type := object.type, startPosition := object.startPosition } errors =
      .ok (true, fresh, errors) ∧
    object.hasField name = fresh.hasField name
  reparseObject : ∀ errors, world.reparseObject id errors = .ok (true, world.clearCache id, errors)

theorem Sound.asFirst (contract : fileReader.Contract contents) {world : World σ}
    (sound : world.Sound fileReader contents) {id : ObjectId} {object : FileObject}
    (found : world.objects[id]? = some object) :
    AsFirst fileReader contents world id object where
  getFieldValue := by
    intro name value errors
    obtain ⟨outcome, returned, result, next, added, outcomeEq, called, reported, -, -⟩ :=
      getFieldValue_spec contract sound found name value errors
    have wellFormed := (sound.objects object (List.mem_of_getElem? found)).wellFormed
    refine ⟨returned, result, next, added, outcome, called, reported.observed, ?_, ?_⟩
    · intro τ other otherContract reader usable
      obtain ⟨first, firstEq, firstCalled⟩ :=
        firstCall_spec otherContract usable wellFormed object.startPosition name
      cases outcomeEq.symm.trans firstEq
      exact firstCalled
    · rintro rfl
      rcases outcome with error | sight
      · exact ⟨reported.2.1, reported.2.2.1⟩
      · cases reported.1
  hasField := by
    intro name errors
    have objectSound := sound.objects object (List.mem_of_getElem? found)
    refine ⟨_, FileObject.reparseObject_spec objectSound.wellFormed errors, ?_⟩
    rw [FileObject.hasField, FileObject.hasField, objectSound.lookup, FileObject.parse_lookup]
  reparseObject := reparseObject_spec sound found

/-- Read an object of a well-formed type and call it and its children in any order:
every next call on an object returns, and is answered as a first one. -/
theorem run_asFirst (contract : fileReader.Contract contents) {reader : BufferedFileReader σ}
    (usable : reader.Usable fileReader contents) {type : TypeDefinition}
    (wellFormed : type.WellFormed) (result : Value) (errors : ErrorCollection) :
    ∃ world, readObject fileReader type { reader } result errors =
        .ok (true, .object 0, world, errors) ∧
      ∀ calls answers reached, (machine fileReader).run world calls = .ok (answers, reached) →
        (∃ root, reached.objects[0]? = some root ∧ root.type = type ∧
          root.startPosition = reader.position) ∧
        (∀ call, call.id < reached.objects.length →
          ∃ given next, answer fileReader reached call = .ok (given, next)) ∧
        ∀ id object, reached.objects[id]? = some object →
          AsFirst fileReader contents reached id object := by
  have empty : Sound fileReader contents { reader } := ⟨usable, nofun⟩
  obtain ⟨next, read, -, sound⟩ := readObject_spec contract empty wellFormed result errors
  refine ⟨_, read, ?_⟩
  intro calls answers reached ran
  obtain ⟨reachedSound, grows⟩ := run_sound contract sound ran
  refine ⟨grows 0 _ rfl, ?_, fun id object found => reachedSound.asFirst contract found⟩
  intro call exists_
  obtain ⟨given, next, answered, -, -⟩ := answer_spec contract reachedSound exists_
  exact ⟨given, next, answered⟩

end BinaryReader.World

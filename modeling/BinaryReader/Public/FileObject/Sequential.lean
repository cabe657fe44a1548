import BinaryReader.Public.FileObject.Observation

/-!
# Reading the fields one after another

A reader of a stream would read the fields of a type in their order, each where
the one before it ends.  An object that is asked for its fields in any order
returns what such a reader got, and reading the object leaves the file at the
same position.
-/

namespace BinaryReader.World

variable {σ : Type} (fileReader : FileReader σ)

/-- Read the fields with their `ReadValue` and without a seek in between; the values
are none when a read fails. -/
def readFields : List Statement → World σ → ErrorCollection →
    Checked (Option (List Value) × World σ × ErrorCollection)
  | [], self, errors => .ok (some [], self, errors)
  | .definition _ :: statements, self, errors => readFields statements self errors
  | .field field :: statements, self, errors => do
      let type ← deref field.type
      let (read, value, self, errors) ← self.readValue fileReader .null errors type
      if !read then
        return (none, self, errors)
      else
        let (values, self, errors) ← readFields statements self errors
        return (values.map (value :: ·), self, errors)

variable {fileReader} {contents : List UInt8}

structure InOrder (fileReader : FileReader σ) (contents : List UInt8) (position : Nat)
    (statements : List Statement) (values : List Value) (after : World σ) : Prop where
  tracks : after.reader.Tracks fileReader contents ((position + sumBits statements) % 2 ^ 64)
  seen : ∀ (index : Nat) (info : ParsedFieldInfo),
    (layOut (.fromBits position) statements)[index]? = some info →
    ∃ value sight, values[index]? = some value ∧ look after.objects value = some sight ∧
      outcomeAt contents info.offset info.type = .ok (.ok sight)

theorem InOrder.cons {position : Nat} {type : TypeInfoBase} {debug : DebugInfo} {name : String}
    {expected : Option Literal} {statements : List Statement} {value : Value}
    {values : List Value} {after : World σ} {sight : Sight}
    (rest : InOrder fileReader contents ((position + type.exactBits) % 2 ^ 64) statements values
      after)
    (outcome : outcomeAt contents (.fromBits position) type = .ok (.ok sight))
    (seen : look after.objects value = some sight) :
    InOrder fileReader contents position
      (.field (.mk debug name (some type) expected) :: statements) (value :: values) after where
  tracks := by
    have position' : ((position + type.exactBits) % 2 ^ 64 + sumBits statements) % 2 ^ 64 =
        (position + (type.exactBits + sumBits statements)) % 2 ^ 64 := by
      omega
    rw [sumBits, ← position']
    exact rest.tracks
  seen := by
    intro index info laidOut
    cases index with
    | zero =>
        cases laidOut
        exact ⟨value, sight, rfl, seen, outcome⟩
    | succ index =>
        have offset : (Size.fromBits position).addAssign (.fromBits type.exactBits) =
            .fromBits ((position + type.exactBits) % 2 ^ 64) := by
          apply Size.bitCount_injective
          simp only [Size.bitCount_addAssign, Size.bitCount_fromBits]
          omega
        rw [layOut, List.getElem?_cons_succ, offset] at laidOut
        exact rest.seen index info laidOut

theorem readFields_spec (contract : fileReader.Contract contents) {statements : List Statement}
    (wellFormed : WellFormedStatements statements) {world after : World σ} {position : Nat}
    (sound : world.Sound fileReader contents)
    (tracks : world.reader.Tracks fileReader contents position) {values : List Value}
    {errors added : ErrorCollection}
    (read : readFields fileReader statements world errors = .ok (some values, after, added)) :
    InOrder fileReader contents position statements values after ∧
      world.objects <+: after.objects := by
  induction statements generalizing world position values errors with
  | nil =>
      cases read
      refine ⟨⟨?_, nofun⟩, List.prefix_rfl⟩
      rw [sumBits, Nat.add_zero, Nat.mod_eq_of_lt tracks.position_lt]
      exact tracks
  | cons statement statements inductionHypothesis =>
      rcases statement with ⟨debug, name, _ | type, expected⟩ | _
      · exact wellFormed.elim
      · obtain ⟨outcome, returned, value, next, reported, outcomeEq, readEq, seen, nextSound,
          grown, moved⟩ := readValue_spec contract sound tracks wellFormed.1 .null errors
        rw [readFields] at read
        simp only [FieldInfo.type, deref_some, Checked.ok_bind, readEq] at read
        cases returned with
        | false => cases read
        | true =>
            simp only [Bool.not_true, Bool.false_eq_true, if_false] at read
            obtain ⟨⟨rest, final, last⟩, restEq, returnedEq⟩ := Checked.bind_eq_ok_iff.mp read
            cases rest with
            | none => cases returnedEq
            | some rest =>
                cases returnedEq
                obtain ⟨inOrder, restGrown⟩ :=
                  inductionHypothesis wellFormed.2 nextSound (moved rfl) restEq
                rcases outcome with error | sight
                · cases seen.1
                · have stays := (Grows.of_extension restGrown).look seen.2.1
                  exact ⟨inOrder.cons outcomeEq stays, grown.trans restGrown⟩
      · exact wellFormed.elim

def LastOfName (type : TypeDefinition) (index : Nat) (name : String) : Prop :=
  (∃ field, type.statements[index]? = some (.field field) ∧ field.name = name) ∧
    ∀ later field, index < later → type.statements[later]? = some (.field field) →
      field.name ≠ name

theorem LastOfName.lastIndexOf {type : TypeDefinition} (wellFormed : type.WellFormed)
    {index : Nat} {name : String} (last : LastOfName type index name) (start : Size) :
    ∃ info, (layOut start type.statements)[index]? = some info ∧
      BinaryReader.lastIndexOf name (layOut start type.statements) = some index := by
  rcases type with ⟨typeDebug, typeName, statements⟩
  obtain ⟨⟨field, found, rfl⟩, later⟩ := last
  obtain ⟨debug, name, type, expected, fieldEq, -⟩ :=
    wellFormedStatements_iff.mp wellFormed _ (List.mem_of_getElem? found)
  cases fieldEq
  have laidOut := layOut_field wellFormed start found
  refine ⟨_, laidOut, lastIndexOf_eq_some laidOut rfl ?_⟩
  intro place other behind placed
  obtain ⟨_, _, statement⟩ := statement_of_layOut placed
  exact later place _ behind statement

/-- Asking for a field in any order gives what reading the fields in theirs gave, and
reading the object leaves the file where reading the fields did. -/
theorem getFieldValue_eq_readFields (contract : fileReader.Contract contents)
    {reader : BufferedFileReader σ} {start : Nat}
    (tracks : reader.Tracks fileReader contents start) {type : TypeDefinition}
    (wellFormed : type.WellFormed) {values : List Value} {after : World σ}
    {errors added : ErrorCollection}
    (sequential : readFields fileReader type.statements { reader } errors =
      .ok (some values, after, added)) (result : Value) :
    ∃ world, readObject fileReader type { reader } result errors =
        .ok (true, .object 0, world, errors) ∧
      world.reader.position = after.reader.position ∧
      ∀ calls answers reached, (machine fileReader).run world calls = .ok (answers, reached) →
        ∀ index name, LastOfName type index name → ∀ value errors, ∃ read returned next,
          values[index]? = some read ∧
          reached.getFieldValue fileReader 0 name value errors =
            .ok (true, returned, next, errors) ∧
          (look next.objects returned).isSome ∧
          look next.objects returned = look after.objects read := by
  have empty : Sound fileReader contents { reader } := ⟨tracks.usable, nofun⟩
  obtain ⟨next, read, nextTracks, sound⟩ := readObject_spec contract empty wellFormed result errors
  obtain ⟨typeDebug, typeName, statements⟩ := type
  obtain ⟨inOrder, -⟩ := readFields_spec contract wellFormed empty tracks sequential
  refine ⟨_, read, ?_, ?_⟩
  · have same := inOrder.tracks
    rw [tracks.position_bitCount, TypeDefinition.exactBits] at nextTracks
    exact nextTracks.position_eq_fromBits.trans same.position_eq_fromBits.symm
  · intro calls answers reached ran index name last value errors
    obtain ⟨reachedSound, grows⟩ := run_sound contract sound ran
    obtain ⟨root, found, typeEq, startEq⟩ := grows 0 _ rfl
    obtain ⟨outcome, returned, result, final, reported, outcomeEq, called, seen, -, -⟩ :=
      getFieldValue_spec contract reachedSound found name value errors
    obtain ⟨info, laidOut, index_⟩ := last.lastIndexOf wellFormed reader.position
    simp only [FileObject.parse] at typeEq startEq
    rw [fieldOutcome, typeEq, startEq, index_] at outcomeEq
    dsimp only at outcomeEq
    rw [load_of_getElem? laidOut, Checked.ok_bind] at outcomeEq
    rw [tracks.position_eq_fromBits] at laidOut
    obtain ⟨read, sight, readEq, readSeen, sightEq⟩ := inOrder.seen index info laidOut
    cases outcomeEq.symm.trans sightEq
    obtain ⟨rfl, resultSeen, rfl⟩ := seen
    exact ⟨read, result, final, readEq, called, by rw [resultSeen]; rfl,
      resultSeen.trans readSeen.symm⟩

/-- A byte and a signed byte, both with the same name. -/
def namesakes : TypeDefinition :=
  .mk {} "pair" [.field (.mk {} "x" (some (.builtIn "uint8" 8 .unsigned)) none),
    .field (.mk {} "x" (some (.builtIn "int8" 8 .signed)) none)]

theorem getFieldValue_eq_readFields_last :
    ∃ world, readObject (memoryFileReader [1, 255]) namesakes { reader := { reader := 0 } } .null
        {} = .ok (true, .object 0, world, {}) ∧
      ∀ calls answers reached,
        (machine (memoryFileReader [1, 255])).run world calls = .ok (answers, reached) →
        ∃ returned next, reached.getFieldValue (memoryFileReader [1, 255]) 0 "x" .null {} =
            .ok (true, returned, next, {}) ∧
          look next.objects returned = some (.number (.ofSigned (-1))) := by
  have last : LastOfName namesakes 1 "x" := by
    refine ⟨⟨_, rfl, rfl⟩, ?_⟩
    intro later field behind found
    have length := (List.getElem?_eq_some_iff.mp found).1
    simp only [namesakes, TypeDefinition.statements, List.length_cons, List.length_nil] at length
    omega
  have readable (sign : Signedness) : (TypeInfoBase.builtIn "x" 8 sign).WellFormed :=
    show 1 ≤ 8 ∧ 8 ≤ 64 by decide
  obtain ⟨after, sequential⟩ : ∃ after,
      readFields (memoryFileReader [1, 255]) namesakes.statements { reader := { reader := 0 } } {} =
        .ok (some [.number (.ofUnsigned 1), .number (.ofSigned (-1))], after, {}) := ⟨_, rfl⟩
  have wellFormed : namesakes.WellFormed := ⟨readable .unsigned, readable .signed, trivial⟩
  obtain ⟨world, made, -, lazy⟩ := getFieldValue_eq_readFields
    (memoryFileReader_contract [1, 255]) (BufferedFileReader.tracks_start 0 (fun _ => 0) rfl)
    wellFormed sequential .null
  refine ⟨world, made, ?_⟩
  intro calls answers reached ran
  obtain ⟨read, returned, next, readEq, called, -, seen⟩ :=
    lazy calls answers reached ran 1 "x" last .null {}
  cases readEq
  exact ⟨returned, next, called, seen⟩

/-- Asking for a name that two fields have gives the second one only. -/
theorem readFields_ne_getFieldValue :
    ∃ values after added world result next,
      readFields (memoryFileReader [1, 255]) namesakes.statements { reader := { reader := 0 } } {} =
        .ok (some values, after, added) ∧
      readObject (memoryFileReader [1, 255]) namesakes { reader := { reader := 0 } } .null {} =
        .ok (true, .object 0, world, {}) ∧
      (∃ field, namesakes.statements[0]? = some (.field field) ∧ field.name = "x") ∧
      world.getFieldValue (memoryFileReader [1, 255]) 0 "x" .null {} =
        .ok (true, result, next, {}) ∧
      look next.objects result = some (.number (.ofSigned (-1))) ∧
      values[0]?.bind (look after.objects) = some (.number (.ofUnsigned 1)) :=
  ⟨_, _, _, _, _, _, rfl, rfl, ⟨_, rfl, rfl⟩, rfl, rfl, rfl⟩

end BinaryReader.World

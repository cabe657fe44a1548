import BinaryReader.Ast.TypeInfo.Equality
import BinaryReader.Public.FileObject.Renaming
import BinaryReader.Public.FileParser

/-!
# Shapes of types

What a client gets of a file depends on the shape of the type it asks for.  Types that
`operator==` calls equal have one shape, and no client can tell them apart.
-/

namespace BinaryReader

open Library

variable {σ τ : Type}

def World.opened (file : σ) (memory : Nat → UInt8) : World σ :=
  { reader := { reader := file, buffer := memory, used_le := Nat.zero_le _ } }

theorem World.carry_opened (change : Renaming) (embed : τ → σ) (file : τ) (memory : Nat → UInt8) :
    (opened file memory).carry change embed = opened (embed file) memory := rfl

namespace FileParser

section

variable (fileReader : FileReader σ)

/-- What `ParseFile` does once it has the type. -/
def readRoot (definition : TypeDefinition) (file : σ) (memory : Nat → UInt8)
    (errors : Option ErrorCollection) :
    Checked (Option (ObjectId × World σ) × Option ErrorCollection) := do
  let (success, value, world, reported) ← World.readObject fileReader definition
    (.opened file memory) .null (errors.getD {})
  let errors := errors.map fun _ => reported
  if success then
    return (some (← value.asObject, world), errors)
  else
    return (none, errors)

def callRoot (calls : List World.Call) :
    Option (ObjectId × World σ) × Option ErrorCollection →
      Checked (Option (List World.Answer) × Option ErrorCollection)
  | (none, errors) => .ok (none, errors)
  | (some (_, world), errors) => do
      let (answers, _) ← (World.machine fileReader).run world calls
      return (some answers, errors)

/-- A client that asks for the root object of a type and then makes calls. -/
def session (self : FileParser) (file : σ) (memory : Nat → UInt8) (path type : String)
    (errors : Option ErrorCollection) (calls : List World.Call) :
    Checked (Option (List World.Answer) × Option ErrorCollection) :=
  self.parseFile fileReader file memory path type errors >>= callRoot fileReader calls

end

def relocateRoot (change : Renaming) (embed : τ → σ) :
    Option (ObjectId × World τ) × Option ErrorCollection →
      Option (ObjectId × World σ) × Option ErrorCollection :=
  Prod.map (Option.map (Prod.map id (World.carry change embed)))
    (Option.map (ErrorCollection.relocate change.place))

/-- The same answers, with the errors of other places. -/
def relocateAnswers (place : DebugInfo → DebugInfo) :
    Option (List World.Answer) × Option ErrorCollection →
      Option (List World.Answer) × Option ErrorCollection :=
  Prod.map (Option.map (List.map (World.Answer.relocate place)))
    (Option.map (ErrorCollection.relocate place))

variable {fileReader : FileReader σ}

theorem parseFile_eq_readRoot {self : FileParser} {type : String} {definition : TypeDefinition}
    (found : self.definitionOf type = some definition) (file : σ) (memory : Nat → UInt8)
    (path : String) (errors : Option ErrorCollection) :
    self.parseFile fileReader file memory path type errors =
      readRoot fileReader definition file memory errors := by
  rw [parseFile, found]
  rfl

theorem readRoot_carry {inner : FileReader τ} {outer : FileReader σ} {embed : τ → σ}
    (change : Renaming) (carries : inner.Carries outer embed change.place)
    (definition : TypeDefinition) (file : τ) (memory : Nat → UInt8)
    (errors : Option ErrorCollection) :
    readRoot outer (definition.rename change) (embed file) memory
        (errors.map (.relocate change.place)) =
      (readRoot inner definition file memory errors).map (relocateRoot change embed) := by
  have given : (errors.map (.relocate change.place)).getD {} =
      (errors.getD {}).relocate change.place := by
    cases errors <;> rfl
  have read := World.readObject_carry change carries definition (.opened file memory) .null
    (errors.getD {})
  rw [← given, World.carry_opened] at read
  rw [readRoot, readRoot, read, Checked.bind_map, Checked.map_bind]
  congr 1
  funext result
  obtain ⟨success, value, world, reported⟩ := result
  cases success with
  | false => cases errors <;> rfl
  | true => cases value <;> cases errors <;> rfl

theorem callRoot_carry {inner : FileReader τ} {outer : FileReader σ} {embed : τ → σ}
    (change : Renaming) (carries : inner.Carries outer embed change.place)
    (calls : List World.Call)
    (made : Option (ObjectId × World τ) × Option ErrorCollection) :
    callRoot outer (calls.map (.relocate change.place)) (relocateRoot change embed made) =
      (callRoot inner calls made).map (relocateAnswers change.place) := by
  obtain ⟨_ | ⟨root, world⟩, errors⟩ := made
  · rfl
  · simp only [callRoot, relocateRoot, Prod.map, Option.map_some, Checked.map_bind]
    rw [World.run_carry change carries, Checked.bind_map]
    rfl

/-- A root object depends on the shape of its type. -/
theorem readRoot_shape {first second : TypeDefinition}
    (same : first.rename .shape = second.rename .shape) (file : σ) (memory : Nat → UInt8)
    (errors : Option ErrorCollection) :
    (readRoot fileReader first file memory errors).map (relocateRoot .shape id) =
      (readRoot fileReader second file memory errors).map (relocateRoot .shape id) := by
  have carries := fileReader.carries_relocate Renaming.shape.place
  have carried (type : TypeDefinition) := readRoot_carry .shape carries type file memory errors
  rw [← carried first, ← carried second, same]

/-- A client gets the same answers for types that are equal, up to the places of errors. -/
theorem session_equals {addresses : Addresses} {first second : FileParser} {type other : String}
    {firstRoot secondRoot : TypeDefinition} (firstFound : first.definitionOf type = some firstRoot)
    (secondFound : second.definitionOf other = some secondRoot)
    (equal : TypeInfoBase.equals addresses (.definition firstRoot) (.definition secondRoot) =
      .ok true) (fileReader : FileReader σ) (file : σ) (memory : Nat → UInt8) (path : String)
    (errors : Option ErrorCollection) (calls : List World.Call) :
    (first.session fileReader file memory path type errors calls).map
        (relocateAnswers fun _ => {}) =
      (second.session fileReader file memory path other errors calls).map
        (relocateAnswers fun _ => {}) := by
  have same := TypeInfoBase.definition.inj (TypeInfoBase.rename_of_equals equal)
  have carries := fileReader.carries_relocate Renaming.shape.place
  rw [session, session, parseFile_eq_readRoot firstFound, parseFile_eq_readRoot secondFound,
    Checked.map_bind, Checked.map_bind]
  exact Checked.bind_congr_seen (readRoot_shape same file memory errors)
    (callRoot_carry .shape carries calls)

def apart : Addresses := ⟨fun _ _ => false, fun _ _ => false, fun _ _ => false, nofun, nofun⟩

def movedByte : TypeDefinition :=
  .mk { line := 7 } "a" [.field (.mk { line := 8 } "x"
    (some (.integer ⟨{ line := 8 }, "byte", .fromBits 8, .unsigned, .unset⟩)) none)]

theorem session_equals_movedByte :
    (session (memoryFileReader []) ⟨[oneByte], List.cons_ne_nil _ _⟩ 0 (fun _ => 3) "i" "" none
        [.getFieldValue 0 "x" .null {}]).map (relocateAnswers fun _ => {}) =
      (session (memoryFileReader []) ⟨[movedByte], List.cons_ne_nil _ _⟩ 0 (fun _ => 3) "i" "a" none
        [.getFieldValue 0 "x" .null {}]).map (relocateAnswers fun _ => {}) := by
  have equal : TypeInfoBase.equals apart (.definition oneByte) (.definition movedByte) = .ok true :=
    rfl
  have found : definitionOf ⟨[oneByte], List.cons_ne_nil _ _⟩ "" = some oneByte := rfl
  have movedFound : definitionOf ⟨[movedByte], List.cons_ne_nil _ _⟩ "a" = some movedByte := rfl
  exact session_equals found movedFound equal (memoryFileReader []) 0 (fun _ => 3) "i" none
    [.getFieldValue 0 "x" .null {}]

end FileParser

end BinaryReader

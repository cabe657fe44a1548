import BinaryReader.Ast.TypeInfo.Renaming
import BinaryReader.Public.FileObject.Observation
import BinaryReader.Util.BufferedFileReader.Embedding

/-!
# Objects of renamed types

The calls of a client take the same course on objects of renamed types, over a reader that
carries the first one.  Only the errors are reported for other places.
-/

namespace BinaryReader

open Library

theorem load_map {α β : Type} (change : α → β) (array : List α) (index : Nat) :
    load (array.map change) index = (load array index).map change := by
  rw [load, load, List.getElem?_map]
  rcases array[index]? with _ | value <;> rfl

theorem modify_map {α β : Type} (change : α → β) (update : α → α) (carried : β → β)
    (commutes : ∀ value, carried (change value) = change (update value)) (array : List α)
    (index : Nat) :
    (array.map change).modify index carried = (array.modify index update).map change := by
  induction array generalizing index with
  | nil => cases index <;> rfl
  | cons value array inductionHypothesis =>
      cases index with
      | zero => exact congrArg (· :: array.map change) (commutes value)
      | succ index => exact congrArg (change value :: ·) (inductionHypothesis index)

variable {σ τ : Type} {inner : FileReader τ} {outer : FileReader σ} {embed : τ → σ}
  (change : Renaming)

def ParsedFieldInfo.rename (info : ParsedFieldInfo) : ParsedFieldInfo :=
  { info with type := info.type.rename change }

namespace FileObject

def rename (self : FileObject) : FileObject :=
  { self with
    type := self.type.rename change
    parsedFields := self.parsedFields.map (.rename change) }

theorem reparseLoop_rename (statements : List Statement) (offset : Size) (self : FileObject)
    (errors : ErrorCollection) :
    reparseLoop (renameStatements change statements) offset (self.rename change)
        (errors.relocate change.place) =
      (reparseLoop statements offset self errors).map
        (Prod.map id (Prod.map (rename change) (.relocate change.place))) := by
  induction statements generalizing offset self with
  | nil => rfl
  | cons statement statements inductionHypothesis =>
      rcases statement with ⟨debug, name, _ | type, expected⟩ | info
      · rfl
      · rw [renameStatements, Statement.rename, FieldInfo.rename, reparseLoop, reparseLoop]
        simp only [FieldInfo.type, FieldInfo.name, deref_some, Checked.ok_bind,
          TypeInfoBase.staticSize_rename, TypeInfoBase.debug_rename]
        have appended (info : ParsedFieldInfo) :
            { self.rename change with
              parsedFields := (self.rename change).parsedFields ++ [info.rename change]
              fieldNameMap := assign (self.rename change).fieldNameMap name
                (self.rename change).parsedFields.length } =
              ({ self with
                parsedFields := self.parsedFields ++ [info]
                fieldNameMap := assign self.fieldNameMap name self.parsedFields.length } :
                FileObject).rename change := by
          simp only [rename, List.map_append, List.map_singleton, List.length_map]
        have parsed := appended { name, type, offset }
        dsimp only [ParsedFieldInfo.rename] at parsed
        rw [parsed]
        rcases type.staticSize with _ | size
        · dsimp only
          rw [ErrorCollection.add_ofKind_relocate]
          rfl
        · exact inductionHypothesis (offset.addAssign size) _
      · rw [renameStatements, Statement.rename, reparseLoop, reparseLoop]
        dsimp only [Except.map, Prod.map]
        rw [← ErrorCollection.add_ofKind_relocate, change.place_default]
        rfl

theorem reparseObject_rename (self : FileObject) (errors : ErrorCollection) :
    (self.rename change).reparseObject (errors.relocate change.place) =
      (self.reparseObject errors).map
        (Prod.map id (Prod.map (rename change) (.relocate change.place))) := by
  obtain ⟨⟨debug, name, statements⟩, start, fields, map⟩ := self
  exact reparseLoop_rename change statements start ⟨.mk debug name statements, start, [], []⟩ errors

theorem cache_rename (self : FileObject) (index : Nat) (value : Value) :
    (self.rename change).cache index value = (self.cache index value).rename change := by
  let store (info : ParsedFieldInfo) : ParsedFieldInfo := { info with value := some value }
  have stored : (self.parsedFields.map (.rename change)).modify index store =
      (self.parsedFields.modify index store).map (.rename change) :=
    modify_map (.rename change) store store (fun _ => rfl) self.parsedFields index
  exact congrArg (fun fields => { self.rename change with parsedFields := fields }) stored

theorem clearCache_rename (self : FileObject) :
    (self.rename change).clearCache = self.clearCache.rename change := by
  simp only [clearCache, rename, List.map_map]
  rfl

end FileObject

namespace World

def carry (embed : τ → σ) (self : World τ) : World σ :=
  { reader := self.reader.mapReader embed, objects := self.objects.map (.rename change) }

theorem objects_carry (embed : τ → σ) (self : World τ) :
    (self.carry change embed).objects = self.objects.map (.rename change) := rfl

theorem reparseObject_carry (embed : τ → σ) (self : World τ) (obj : ObjectId)
    (errors : ErrorCollection) :
    (self.carry change embed).reparseObject obj (errors.relocate change.place) =
      (self.reparseObject obj errors).map
        (Prod.map id (Prod.map (carry change embed) (.relocate change.place))) := by
  simp only [reparseObject, carry, load_map, FileObject.reparseObject_rename, Checked.map_bind,
    Checked.bind_map, Prod.map, ← List.map_set]
  rfl

theorem clearCache_carry (embed : τ → σ) (self : World τ) (obj : ObjectId) :
    (self.carry change embed).clearCache obj = (self.clearCache obj).carry change embed := by
  have cleared := modify_map (FileObject.rename change) .clearCache .clearCache
    (FileObject.clearCache_rename change) self.objects obj
  simp only [clearCache, carry, cleared]

def Call.relocate (place : DebugInfo → DebugInfo) : Call → Call
  | .hasField obj name => .hasField obj name
  | .getFieldValue obj name value errors => .getFieldValue obj name value (errors.relocate place)
  | .clearCache obj => .clearCache obj
  | .reparseObject obj errors => .reparseObject obj (errors.relocate place)

def Answer.relocate (place : DebugInfo → DebugInfo) : Answer → Answer
  | .hasField found => .hasField found
  | .getFieldValue returned value errors => .getFieldValue returned value (errors.relocate place)
  | .clearCache => .clearCache
  | .reparseObject returned errors => .reparseObject returned (errors.relocate place)

end World

namespace IntegerTypeInfo

theorem readWhole_congr {order other : ByteOrder}
    (same : order = .littleEndian ↔ other = .littleEndian) (buffer : List UInt8)
    (count index : Nat) (value : UInt64) :
    readWhole order buffer count index value = readWhole other buffer count index value := by
  induction count generalizing index value with
  | zero => rfl
  | succ count inductionHypothesis =>
      simp only [readWhole, same, inductionHypothesis]

theorem readBits_congr {order other : ByteOrder}
    (same : order = .littleEndian ↔ other = .littleEndian) (size bitOffset : Nat)
    (buffer : List UInt8) :
    readBits order size bitOffset buffer = readBits other size bitOffset buffer := by
  simp only [readBits, readWhole_congr same]

theorem toNumber_congr {sign other : Signedness} (same : sign = .signed ↔ other = .signed)
    (size : Nat) (value : UInt64) : toNumber sign size value = toNumber other size value := by
  simp only [toNumber, same]

end IntegerTypeInfo

section Carried

variable (carries : inner.Carries outer embed change.place)

include carries

theorem IntegerTypeInfo.readValue_carry (self : IntegerTypeInfo) (reader : BufferedFileReader τ)
    (result : Value) (errors : ErrorCollection) :
    (self.rename change).readValue outer (reader.mapReader embed) result
        (errors.relocate change.place) =
      (self.readValue inner reader result errors).map
        (Prod.map id (Prod.map id (Prod.map (.mapReader embed) (.relocate change.place)))) := by
  rw [readValue, readValue, BufferedFileReader.mapReader_position]
  simp only [rename, change.order_littleEndian, readBits_congr (change.order_littleEndian _),
    toNumber_congr (change.sign_signed _)]
  by_cases misaligned : self.order = .littleEndian ∧
      (reader.position.bitOffset ≠ 0 ∨ finalBits reader.position.bitOffset self.size.bitCount ≠ 0)
  · rw [if_pos misaligned, if_pos misaligned, ErrorCollection.add_ofKind_relocate]
    rfl
  · rw [if_neg misaligned, if_neg misaligned, BufferedFileReader.ensureBuffer_mapReader carries,
      Checked.bind_map, Checked.map_bind]
    congr 1
    funext result
    obtain ⟨ensured, next, added⟩ := result
    cases ensured with
    | false => rfl
    | true =>
        dsimp only [Prod.map, id]
        rw [if_neg (by decide), if_neg (by decide), BufferedFileReader.getBuffer_mapReader carries,
          Checked.bind_map, Checked.map_bind]
        congr 1
        funext result
        obtain ⟨buffer, last, reported⟩ := result
        cases buffer with
        | none => rfl
        | some buffer =>
            dsimp only [Prod.map, id]
            by_cases short : buffer.length < byteCount reader.position.bitOffset self.size.bitCount
            · rw [if_pos short, if_pos short, ErrorCollection.add_ofKind_relocate]
              rfl
            · rw [if_neg short, if_neg short]
              simp only [Checked.map_bind, BufferedFileReader.skip_mapReader carries]
              rfl

namespace World

theorem readObject_carry (type : TypeDefinition) (self : World τ) (result : Value)
    (errors : ErrorCollection) :
    readObject outer (type.rename change) (self.carry change embed) result
        (errors.relocate change.place) =
      (readObject inner type self result errors).map
        (Prod.map id (Prod.map id (Prod.map (carry change embed) (.relocate change.place)))) := by
  have reparsed : FileObject.reparseObject
      { type := type.rename change, startPosition := self.reader.position }
        (errors.relocate change.place) = _ :=
    FileObject.reparseObject_rename change { type, startPosition := self.reader.position } errors
  simp only [readObject, carry, BufferedFileReader.mapReader_position, reparsed,
    TypeDefinition.staticSize_rename, Checked.map_bind, Checked.bind_map]
  congr 1
  funext result
  obtain ⟨reparsed, object, added⟩ := result
  cases reparsed with
  | false => rfl
  | true =>
      dsimp only [Prod.map, id]
      rw [if_neg (by decide), if_neg (by decide), Checked.map_bind, List.length_map]
      congr 1
      funext size
      rw [BufferedFileReader.seek_mapReader carries, ← List.map_singleton, ← List.map_append]
      rfl

theorem readValue_carry (self : World τ) (result : Value) (errors : ErrorCollection)
    (type : TypeInfoBase) :
    readValue outer (self.carry change embed) result (errors.relocate change.place)
        (type.rename change) =
      (readValue inner self result errors type).map
        (Prod.map id (Prod.map id (Prod.map (carry change embed) (.relocate change.place)))) := by
  cases type with
  | integer info =>
      simp only [TypeInfoBase.rename, readValue, carry,
        IntegerTypeInfo.readValue_carry change carries, Checked.map_bind, Checked.bind_map]
      rfl
  | definition info => exact readObject_carry change carries info self result errors

theorem ensureField_carry (self : World τ) (obj : ObjectId) (index : Nat)
    (errors : ErrorCollection) :
    ensureField outer (self.carry change embed) obj index (errors.relocate change.place) =
      (ensureField inner self obj index errors).map
        (Prod.map id (Prod.map (carry change embed) (.relocate change.place))) := by
  simp only [ensureField, carry, load_map, FileObject.rename, Checked.map_bind, Checked.bind_map]
  congr 1
  funext object
  congr 1
  funext info
  by_cases cached : info.value.isSome
  · rw [if_pos cached]
    exact if_pos cached
  · rw [if_neg cached]
    refine (if_neg cached).trans ?_
    simp only [ParsedFieldInfo.rename, BufferedFileReader.seek_mapReader carries]
    rcases self.reader.seek inner info.offset errors with ⟨sought, next, added⟩
    cases sought with
    | false => rfl
    | true =>
        have read := readValue_carry change carries { self with reader := next } .null added
          info.type
        dsimp only [carry, Prod.map, id] at read ⊢
        rw [if_neg (by decide), if_neg (by decide), read, Checked.bind_map, Checked.map_bind]
        congr 1
        funext result
        obtain ⟨success, value, last, reported⟩ := result
        cases success with
        | false => rfl
        | true =>
            have stored := modify_map (FileObject.rename change) (FileObject.cache · index value)
              (FileObject.cache · index value) (FileObject.cache_rename change · index value)
              last.objects obj
            dsimp only [Prod.map, carry, id]
            rw [if_neg (by decide), if_neg (by decide), stored]
            rfl

theorem getFieldValue_carry (self : World τ) (obj : ObjectId) (name : String) (value : Value)
    (errors : ErrorCollection) :
    (self.carry change embed).getFieldValue outer obj name value (errors.relocate change.place) =
      (self.getFieldValue inner obj name value errors).map
        (Prod.map id (Prod.map id (Prod.map (carry change embed) (.relocate change.place)))) := by
  simp only [getFieldValue, carry, load_map, Checked.map_bind, Checked.bind_map]
  congr 1
  funext object
  dsimp only [FileObject.rename]
  rcases object.fieldNameMap.lookup name with _ | index
  · rfl
  · dsimp only
    have ensured := ensureField_carry change carries self obj index errors
    rw [carry] at ensured
    rw [ensured, Checked.bind_map, Checked.map_bind]
    congr 1
    funext result
    obtain ⟨ensured, next, added⟩ := result
    cases ensured with
    | false => rfl
    | true =>
        dsimp only [Prod.map, id]
        rw [if_neg (by decide), if_neg (by decide)]
        simp only [carry, load_map, FileObject.rename, Checked.map_bind, Checked.bind_map]
        rfl

theorem fieldValue_carry (self : World τ) (obj : ObjectId) (name : String) :
    (self.carry change embed).fieldValue outer obj name =
      (self.fieldValue inner obj name).map (Prod.map id (carry change embed)) := by
  have asked : (self.carry change embed).getFieldValue outer obj name .null {} = _ :=
    getFieldValue_carry change carries self obj name .null {}
  simp only [fieldValue, asked, Checked.map_bind, Checked.bind_map]
  rfl

theorem answer_carry (self : World τ) (call : Call) :
    answer outer (self.carry change embed) (call.relocate change.place) =
      (answer inner self call).map
        (Prod.map (.relocate change.place) (carry change embed)) := by
  cases call with
  | hasField obj name =>
      simp only [Call.relocate, answer, carry, load_map, Checked.map_bind, Checked.bind_map]
      rfl
  | getFieldValue obj name value errors =>
      simp only [Call.relocate, answer, getFieldValue_carry change carries, Checked.map_bind,
        Checked.bind_map]
      rfl
  | clearCache obj =>
      simp only [Call.relocate, answer, clearCache_carry, objects_carry, load_map, Checked.map_bind,
        Checked.bind_map]
      rfl
  | reparseObject obj errors =>
      simp only [Call.relocate, answer, reparseObject_carry, Checked.map_bind,
        Checked.bind_map]
      rfl

/-- The calls take the same course, and the errors are reported for other places. -/
theorem run_carry (self : World τ) (calls : List Call) :
    (machine outer).run (self.carry change embed) (calls.map (.relocate change.place)) =
      ((machine inner).run self calls).map
        (Prod.map (List.map (.relocate change.place)) (carry change embed)) :=
  (machine inner).run_map (answer_carry change carries) self calls

end World

end Carried

end BinaryReader

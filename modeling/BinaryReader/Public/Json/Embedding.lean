import BinaryReader.Public.FileObject.Renaming
import BinaryReader.Public.FileParser.Requests
import BinaryReader.Public.Json

/-!
# Output over embedded readers

The JSON output is the same for renamed types and over a reader that carries the first
one.  Parsers take the same course over a reader that embeds another one.
-/

namespace BinaryReader

variable {σ τ : Type} {inner : FileReader τ} {outer : FileReader σ} {embed : τ → σ}

namespace World

section Dump

variable (change : Renaming) (carries : inner.Carries outer embed change.place)
  {hashOrder : HashOrder} {formatDouble : Double → String} {opts : JsonOptions}

include carries

theorem dumpFields_carry
    {innerDump : List UInt8 → World τ → Value → UInt64 → Checked (List UInt8 × World τ)}
    {outerDump : List UInt8 → World σ → Value → UInt64 → Checked (List UInt8 × World σ)}
    (dumps : ∀ os self value indent, outerDump os (self.carry change embed) value indent =
      (innerDump os self value indent).map (Prod.map id (carry change embed)))
    (obj : ObjectId) (indent : UInt64) (names : List String) (os : List UInt8) (first : Bool)
    (self : World τ) :
    dumpFields outer opts outerDump obj indent names os first (self.carry change embed) =
      (dumpFields inner opts innerDump obj indent names os first self).map
        (Prod.map id (Prod.map id (carry change embed))) := by
  induction names generalizing os first self with
  | nil => rfl
  | cons name names inductionHypothesis =>
      simp only [dumpFields, fieldValue_carry change carries, Checked.map_bind, Checked.bind_map,
        dumps, Prod.map, id, inductionHypothesis]

theorem dumpJsonObject_carry
    {innerDump : List UInt8 → World τ → Value → UInt64 → Checked (List UInt8 × World τ)}
    {outerDump : List UInt8 → World σ → Value → UInt64 → Checked (List UInt8 × World σ)}
    (dumps : ∀ os self value indent, outerDump os (self.carry change embed) value indent =
      (innerDump os self value indent).map (Prod.map id (carry change embed)))
    (os : List UInt8) (self : World τ) (obj : ObjectId) (indent : UInt64) :
    dumpJsonObject outer hashOrder opts outerDump os (self.carry change embed) obj indent =
      (dumpJsonObject inner hashOrder opts innerDump os self obj indent).map
        (Prod.map id (carry change embed)) := by
  simp only [dumpJsonObject, objects_carry, load_map, Checked.map_bind, Checked.bind_map]
  congr 1
  funext object
  have named : (object.rename change).getFieldNames hashOrder = object.getFieldNames hashOrder :=
    rfl
  rw [named, dumpFields_carry change carries dumps, Checked.bind_map]
  rfl

theorem dumpJsonValue_carry (fuel : Nat) (os : List UInt8) (self : World τ) (value : Value)
    (indent : UInt64) :
    dumpJsonValue outer hashOrder formatDouble opts fuel os (self.carry change embed) value indent =
      (dumpJsonValue inner hashOrder formatDouble opts fuel os self value indent).map
        (Prod.map id (carry change embed)) := by
  induction fuel generalizing os self value indent with
  | zero => rfl
  | succ fuel inductionHypothesis =>
      cases value with
      | null => rfl
      | number number => rfl
      | string string =>
          simp only [dumpJsonValue, Checked.map_bind]
          rfl
      | object obj =>
          exact dumpJsonObject_carry change carries inductionHypothesis os self obj indent

theorem dump_carry (fuel : Nat) (os : List UInt8) (self : World τ) (obj : ObjectId)
    (indent : UInt64) :
    dumpJsonObject outer hashOrder opts (dumpJsonValue outer hashOrder formatDouble opts fuel) os
        (self.carry change embed) obj indent =
      (dumpJsonObject inner hashOrder opts (dumpJsonValue inner hashOrder formatDouble opts fuel) os
        self obj indent).map (Prod.map id (carry change embed)) :=
  dumpJsonObject_carry change carries (dumpJsonValue_carry change carries fuel) os self obj indent

end Dump

def mapReader (embed : τ → σ) (self : World τ) : World σ :=
  { reader := self.reader.mapReader embed, objects := self.objects }

theorem carry_identity : carry .identity embed = mapReader embed := by
  funext self
  have same : FileObject.rename .identity = id := by
    funext object
    have fields : ParsedFieldInfo.rename .identity = id := by
      funext info
      rw [ParsedFieldInfo.rename, TypeInfoBase.rename_identity]
      rfl
    rw [FileObject.rename, TypeDefinition.rename_identity, fields, List.map_id]
    rfl
  rw [carry, same, List.map_id]
  rfl

theorem dumpJsonObject_mapReader (embeds : inner.Embeds outer embed) {hashOrder : HashOrder}
    {formatDouble : Double → String} {opts : JsonOptions} (fuel : Nat) (os : List UInt8)
    (self : World τ) (obj : ObjectId) (indent : UInt64) :
    dumpJsonObject outer hashOrder opts (dumpJsonValue outer hashOrder formatDouble opts fuel) os
        (self.mapReader embed) obj indent =
      (dumpJsonObject inner hashOrder opts (dumpJsonValue inner hashOrder formatDouble opts fuel) os
        self obj indent).map (Prod.map id (mapReader embed)) := by
  rw [← carry_identity]
  exact dump_carry .identity embeds.carries fuel os self obj indent

end World

theorem FileParser.parseFile_mapReader (embeds : inner.Embeds outer embed) (self : FileParser)
    (file : τ) (memory : Nat → UInt8) (path type : String) (errors : Option ErrorCollection) :
    self.parseFile outer (embed file) memory path type errors =
      (self.parseFile inner file memory path type errors).map
        (Prod.map (Option.map (Prod.map id (.mapReader embed))) id) := by
  rw [parseFile, parseFile]
  rcases self.definitionOf type with _ | definition
  · rfl
  · have relocated : ErrorCollection.relocate id = id := funext ErrorCollection.relocate_id
    have read := World.readObject_carry .identity embeds.carries definition
      { reader := { reader := file, buffer := memory } } .null (errors.getD {})
    rw [TypeDefinition.rename_identity, World.carry_identity, Renaming.identity, relocated] at read
    dsimp only [World.mapReader, BufferedFileReader.mapReader, id] at read ⊢
    rw [read]
    simp only [Checked.map_bind, Checked.bind_map]
    congr 1
    funext result
    obtain ⟨success, value, world, reported⟩ := result
    cases success with
    | false => rfl
    | true =>
        cases value <;> rfl

end BinaryReader

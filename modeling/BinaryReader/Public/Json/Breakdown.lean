import BinaryReader.Public.FileObject.Breakdown
import BinaryReader.Public.Json.Meaning

/-!
# Output for a file that cannot be read

What cannot be read is written as null.  Every number in the document is the one
that its path means.
-/

namespace BinaryReader

open Library Library.Unicode

section Shown

variable {σ : Type} {fileReader : FileReader σ} {contents : List UInt8} {broken : σ → Prop}

theorem exists_fieldGlimpsed (breaks : fileReader.BreaksDown contents broken)
    (hashOrder : HashOrder) {decl : TypeDecl} {earlier : Scope}
    (inner : ∀ scope, scope <:+ earlier → ∀ {start : Nat} {world : World σ} {id : ObjectId}
      {object : FileObject}, world.Steady fileReader contents broken →
      world.objects[id]? = some object →
      Placed scope start object.type object.startPosition →
      ∃ tree after, ValueTree.Shows fileReader hashOrder tree world (.object id) after ∧
        Glimpses contents (.object scope start) tree ∧
        after.Steady fileReader contents broken ∧ Grows world.objects after.objects)
    {start : Nat} {world : World σ} (steady : world.Steady fileReader contents broken)
    {id : ObjectId} {object : FileObject} (found : world.objects[id]? = some object)
    (placed : Placed (decl :: earlier) start object.type object.startPosition) (name : String) :
    ∃ value middle tree after, world.fieldValue fileReader id name = .ok (value, middle) ∧
      ValueTree.Shows fileReader hashOrder tree middle value after ∧
      Glimpses contents (fieldMeaning contents (decl :: earlier) start name) tree ∧
      after.Steady fileReader contents broken ∧ Grows world.objects after.objects := by
  obtain ⟨returned, result, next, added, called, honest, nextSteady, grows⟩ :=
    World.getFieldValue_breaks breaks steady found name .null {}
  have asked : world.fieldValue fileReader id name = .ok (result, next) := by
    rw [World.fieldValue, called]
    rfl
  cases returned with
  | false =>
      exact ⟨result, next, .null, next, asked, ⟨honest.unchanged rfl, rfl⟩, .null _, nextSteady,
        grows⟩
  | true =>
      obtain ⟨sight, outcomeEq, seen⟩ := honest.correct rfl
      obtain ⟨meant, meantEq, means⟩ := fieldOutcome_means contents placed name
      cases outcomeEq.symm.trans meantEq
      rcases sight with _ | number | ⟨type, startPosition⟩
      · exact ⟨result, next, .null, next, asked, ⟨look_eq_null seen, rfl⟩, .null _, nextSteady,
          grows⟩
      · rcases meaning : fieldMeaning contents (decl :: earlier) start name with
          _ | value | _ | ⟨scope, place⟩ <;> rw [meaning] at means <;> try exact means.elim
        exact ⟨result, next, .integer value, next, asked,
          ⟨number, look_eq_number seen, means, rfl⟩, .integer value, nextSteady, grows⟩
      · rcases meaning : fieldMeaning contents (decl :: earlier) start name with
          _ | value | _ | ⟨scope, place⟩ <;> rw [meaning] at means <;> try exact means.elim
        obtain ⟨child, childObject, rfl, childFound, rfl, rfl⟩ := look_eq_object seen
        obtain ⟨tree, after, shows, glimpses, afterSteady, grown⟩ :=
          inner scope (suffix_of_fieldMeaning meaning) nextSteady childFound means
        exact ⟨_, next, tree, after, asked, shows, glimpses, afterSteady, grows.trans grown⟩

/-- An object of an accepted definition shows what its fields mean, or less. -/
theorem exists_glimpsed (breaks : fileReader.BreaksDown contents broken) (hashOrder : HashOrder)
    (scope : Scope) {start : Nat} {world : World σ} {id : ObjectId} {object : FileObject}
    (steady : world.Steady fileReader contents broken)
    (found : world.objects[id]? = some object)
    (placed : Placed scope start object.type object.startPosition) :
    ∃ tree after, ValueTree.Shows fileReader hashOrder tree world (.object id) after ∧
      Glimpses contents (.object scope start) tree ∧
      after.Steady fileReader contents broken ∧ Grows world.objects after.objects := by
  induction scope using Scope.induction generalizing start world id object with
  | nil =>
      obtain ⟨_, _, _, _, missing, -⟩ := placed.represents
      cases missing
  | cons decl earlier inductionHypothesis =>
      have objectSound := steady.objects object (List.mem_of_getElem? found)
      obtain ⟨declaredEq, distinct⟩ := declaredNames_of_represents placed.represents
      have listed : (object.getFieldNames hashOrder).Perm (decl.fields.map FieldDecl.name) := by
        rw [← declaredEq] at distinct ⊢
        exact objectSound.getFieldNames_perm hashOrder distinct
      have shown : ∀ name ∈ object.getFieldNames hashOrder, ∀ {next : World σ},
          next.Steady fileReader contents broken ∧ Grows world.objects next.objects →
          ∃ value middle tree after, next.fieldValue fileReader id name = .ok (value, middle) ∧
            ValueTree.Shows fileReader hashOrder tree middle value after ∧
            Glimpses contents (fieldMeaning contents (decl :: earlier) start name) tree ∧
            after.Steady fileReader contents broken ∧ Grows world.objects after.objects := by
        rintro name membership next ⟨nextSteady, grown⟩
        obtain ⟨behind, behindFound, typeEq, startEq⟩ := grown id object found
        obtain ⟨value, middle, tree, after, asked, shows, glimpses, afterSteady, grows⟩ :=
          exists_fieldGlimpsed breaks hashOrder
            (fun scope suffix_ _ _ _ _ innerSteady innerFound innerPlaced =>
              inductionHypothesis scope suffix_ innerSteady innerFound innerPlaced)
            nextSteady behindFound (by rwa [typeEq, startEq]) name
        exact ⟨value, middle, tree, after, asked, shows, glimpses, afterSteady, grown.trans grows⟩
      obtain ⟨fields, after, names, fieldsShow, glimpsed, afterSteady, grows⟩ :=
        exists_fieldsAsked shown ⟨steady, .refl _⟩
      rw [← names] at listed
      exact ⟨.object fields, after,
        ⟨id, object, rfl, load_of_getElem? found, names, fieldsShow⟩, .object listed glimpsed,
        afterSteady, grows⟩

end Shown

section Read

variable {contents : List UInt8} {classes : IdentifierClasses}

/-- A number in a document that matches a tree is the one that its path means. -/
theorem Glimpses.number {scope : Scope} {start : Nat} {tree : ValueTree}
    (glimpses : Glimpses contents (.object scope start) tree) {json : Json}
    (agree : tree.Matches json) {names : List String} {value : ℚ}
    (found : jsonAt names json = some (.number value)) :
    ∃ int : Int, pathMeaning contents scope start names = some (.integer int) ∧ value = int := by
  induction names generalizing scope start tree json with
  | nil =>
      cases found
      cases glimpses with
      | null => cases (show Json.number value = .null from agree)
      | object =>
          obtain ⟨members, same, -⟩ := agree
          cases same
  | cons name names inductionHypothesis =>
      cases glimpses with
      | null =>
          cases (show json = .null from agree)
          cases found
      | @object decl earlier _ fields listed shown =>
          obtain ⟨members, rfl, known, fieldsMatch⟩ := agree
          obtain ⟨inner, innerFound, behind⟩ := Option.bind_eq_some_iff.mp found
          obtain ⟨field, membership, same⟩ := known _ (Json.mem_of_lastOf innerFound)
          cases String.toList_inj.mp (utf16Text_injective same)
          obtain ⟨other, otherFound, innerAgrees⟩ :=
            ValueTree.fieldsMatch_iff.mp fieldsMatch _ membership
          cases innerFound.symm.trans otherFound
          have fieldGlimpsed := shown _ membership
          rw [pathMeaning]
          generalize fieldMeaning contents (decl :: earlier) start field.1 = meaning
            at fieldGlimpsed ⊢
          generalize field.2 = innerTree at fieldGlimpsed innerAgrees
          cases fieldGlimpsed with
          | null =>
              cases (show inner = .null from innerAgrees)
              cases names <;> cases behind
          | integer count =>
              cases (show inner = .number count from innerAgrees)
              cases names with
              | nil =>
                  cases behind
                  exact ⟨count, rfl, rfl⟩
              | cons next names => cases behind
          | object innerNames innerShown =>
              exact inductionHypothesis (.object innerNames innerShown) innerAgrees behind

/-- An output is one JSON document, and every number in it is the one that its path means. -/
def Reveals (contents : List UInt8) (scope : Scope) (start : Nat) (output : List UInt8) : Prop :=
  ∃ text json, output = utf8Text text ∧ Json.Document text json ∧
    ∀ names value, jsonAt names json = some (.number value) →
      ∃ int : Int, pathMeaning contents scope start names = some (.integer int) ∧ value = int

/-- Whatever fails while an object is written, no other numbers are written. -/
theorem dumpJsonObject_reveals {σ : Type} {fileReader : FileReader σ} {broken : σ → Prop}
    (breaks : fileReader.BreaksDown contents broken) (hashOrder : HashOrder)
    (formatDouble : Double → String) (opts : JsonOptions) (indent : UInt64) {scope : Scope}
    (identified : scope.Identified classes) {start : Nat} {world : World σ}
    (steady : world.Steady fileReader contents broken) {id : ObjectId} {object : FileObject}
    (found : world.objects[id]? = some object)
    (placed : Placed scope start object.type object.startPosition) :
    ∃ bound output after, Reveals contents scope start output ∧ ∀ fuel ≥ bound, ∀ os,
      World.dumpJsonObject fileReader hashOrder opts
        (World.dumpJsonValue fileReader hashOrder formatDouble opts fuel) os world id indent =
          .ok (os ++ output, after) := by
  obtain ⟨tree, after, shows, glimpses, -⟩ := exists_glimpsed breaks hashOrder scope steady found
    placed
  have named : tree.Named classes := glimpses.named fun inner place same => by
    cases same
    exact ⟨identified, placed.represents.fieldsDistinct⟩
  have plain : ∀ condition, tree.AllCharacters condition := glimpses.allCharacters
  refine ⟨tree.depth, utf8Text (tree.formed.text opts indent), after, ?_, ?_⟩
  · obtain ⟨text, json, same, document, agree⟩ :=
      (ValueTree.faithful_text_iff named opts indent).mpr (plain _)
    exact ⟨text, json, same, document, fun names value => glimpses.number agree⟩
  · intro fuel enough os
    exact ValueTree.dumpJsonValue_shows shows (Nat.le_succ_of_le enough) os indent

end Read

end BinaryReader

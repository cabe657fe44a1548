import BinaryReader.Parser.Meaning.Fields
import BinaryReader.Parser.Meaning.RoundTrip
import BinaryReader.Public.FileObject.Calls
import BinaryReader.Public.FileObject.Names
import BinaryReader.Public.Json.Faithful

/-!
# Output that says what a file means

An object of an accepted definition shows a tree of what its fields mean.  What
is written for it is one JSON document, and following a path of names in the
document leads to what the reference layout says of the path.
-/

namespace BinaryReader

open Library Library.Unicode

/-- A tree that shows what is meant. An integer behind the end of the file is null. -/
inductive Depicts (contents : List UInt8) : Meaning → ValueTree → Prop where
  | integer (value : Int) : Depicts contents (.integer value) (.integer value)
  | endOfStream : Depicts contents .endOfStream .null
  | object {decl : TypeDecl} {earlier : Scope} {start : Nat} {fields : List (String × ValueTree)}
      (names : (fields.map Prod.fst).Perm (decl.fields.map FieldDecl.name))
      (shown : ∀ field ∈ fields,
        Depicts contents (fieldMeaning contents (decl :: earlier) start field.1) field.2) :
      Depicts contents (.object (decl :: earlier) start) (.object fields)

/-- A tree that shows what is meant as far as it could be read. -/
inductive Glimpses (contents : List UInt8) : Meaning → ValueTree → Prop where
  | null (meaning : Meaning) : Glimpses contents meaning .null
  | integer (value : Int) : Glimpses contents (.integer value) (.integer value)
  | object {decl : TypeDecl} {earlier : Scope} {start : Nat} {fields : List (String × ValueTree)}
      (names : (fields.map Prod.fst).Perm (decl.fields.map FieldDecl.name))
      (shown : ∀ field ∈ fields,
        Glimpses contents (fieldMeaning contents (decl :: earlier) start field.1) field.2) :
      Glimpses contents (.object (decl :: earlier) start) (.object fields)

theorem Depicts.glimpses {contents : List UInt8} {meaning : Meaning} {tree : ValueTree}
    (depicts : Depicts contents meaning tree) : Glimpses contents meaning tree := by
  induction depicts with
  | integer value => exact .integer value
  | endOfStream => exact .null _
  | object names _ inductionHypothesis => exact .object names inductionHypothesis

section Declared

variable {contents : List UInt8} {decl : TypeDecl} {earlier : Scope} {start : Nat}

theorem mem_of_locate {name : String} {fields : List FieldDecl} {place : Nat} {field : FieldDecl}
    (located : Scope.locate earlier name fields start = some (place, field)) : field ∈ fields := by
  induction fields generalizing start with
  | nil => cases located
  | cons head fields inductionHypothesis =>
      rw [Scope.locate] at located
      split_ifs at located
      · cases located
        exact List.mem_cons_self
      · exact List.mem_cons_of_mem _ (inductionHypothesis located)

theorem lookup_of_holds {types : List TypeDefinition} {decls : List FieldDecl}
    {fields : List FieldInfo} (holds : List.Forall₂ (Holds types) decls fields) :
    ∀ field ∈ decls, ∃ type, lookupType types field.typeName = some type := by
  induction holds with
  | nil => exact List.forall_mem_nil _
  | cons fieldHolds _ inductionHypothesis =>
      obtain ⟨_, _, found, _, looked, -⟩ := fieldHolds
      exact List.forall_mem_cons.mpr ⟨⟨found, looked⟩, inductionHypothesis⟩

theorem fieldMeaning_ne_null {type : TypeDefinition}
    (represents : Represents (decl :: earlier) type) {name : String}
    (declared : name ∈ decl.fields.map FieldDecl.name) :
    fieldMeaning contents (decl :: earlier) start name ≠ .null := by
  obtain ⟨_, _, types, fields, same, -, mirrors, -, holds, -⟩ := represents
  cases same
  rw [fieldMeaning]
  rcases located : Scope.locate earlier name decl.fields start with _ | ⟨place, field⟩
  · exact absurd declared (locate_eq_none.mp located)
  · obtain ⟨type, looked⟩ := lookup_of_holds holds field (mem_of_locate located)
    dsimp only
    rcases mirrors.lookup field.typeName with
      ⟨inner, behind, _, _, find, -⟩ | ⟨find, builtIn⟩
    · rw [find]
      intro same
      cases same
    · obtain ⟨format, lookup, -⟩ := Option.map_eq_some_iff.mp (builtIn.symm.trans looked)
      rw [find]
      dsimp only
      rw [lookup, Option.elim, integerMeaning]
      split_ifs
      · intro same
        cases same
      · intro same
        cases same

/-- The type of an object field is declared before the type of the object. -/
theorem suffix_of_fieldMeaning {name : String} {inner : Scope} {place : Nat}
    (meaning : fieldMeaning contents (decl :: earlier) start name = .object inner place) :
    inner <:+ earlier := by
  rw [fieldMeaning] at meaning
  rcases located : Scope.locate earlier name decl.fields start with _ | ⟨where_, field⟩
  · rw [located] at meaning
    cases meaning
  · rw [located] at meaning
    dsimp only at meaning
    have suffix_ := Scope.find_suffix earlier field.typeName
    rcases find : Scope.find earlier field.typeName with _ | ⟨first, behind⟩
    · rw [find] at meaning
      dsimp only at meaning
      rcases lookup : builtInFormats.lookup field.typeName with _ | format
      · rw [lookup] at meaning
        cases meaning
      · rw [lookup, Option.elim, integerMeaning] at meaning
        split_ifs at meaning
    · rw [find] at meaning suffix_
      cases meaning
      exact suffix_

theorem declaredNames_of_represents {type : TypeDefinition}
    (represents : Represents (decl :: earlier) type) :
    type.declaredNames = decl.fields.map FieldDecl.name ∧
      (decl.fields.map FieldDecl.name).Nodup := by
  obtain ⟨_, _, types, fields, same, -, -, statements, holds, distinct⟩ := represents
  cases same
  refine ⟨?_, distinct⟩
  rw [TypeDefinition.declaredNames, statements]
  generalize decl.fields = decls at holds
  clear statements distinct
  induction holds with
  | nil => rfl
  | cons fieldHolds _ inductionHypothesis =>
      obtain ⟨_, _, _, _, -, rfl⟩ := fieldHolds
      rw [List.map_cons, declaredNames, inductionHypothesis]
      rfl

end Declared

section Shown

variable {σ : Type} {fileReader : FileReader σ} {contents : List UInt8}

theorem exists_fieldDepicted (contract : fileReader.Contract contents) (hashOrder : HashOrder)
    {decl : TypeDecl} {earlier : Scope}
    (inner : ∀ scope, scope <:+ earlier → ∀ {start : Nat} {world : World σ} {id : ObjectId}
      {object : FileObject}, world.Sound fileReader contents → world.objects[id]? = some object →
      Placed scope start object.type object.startPosition →
      ∃ tree after, ValueTree.Shows fileReader hashOrder tree world (.object id) after ∧
        Depicts contents (.object scope start) tree ∧ after.Sound fileReader contents ∧
        Grows world.objects after.objects)
    {start : Nat} {world : World σ} (sound : world.Sound fileReader contents) {id : ObjectId}
    {object : FileObject} (found : world.objects[id]? = some object)
    (placed : Placed (decl :: earlier) start object.type object.startPosition) {name : String}
    (declared : name ∈ decl.fields.map FieldDecl.name) :
    ∃ value middle tree after, world.fieldValue fileReader id name = .ok (value, middle) ∧
      ValueTree.Shows fileReader hashOrder tree middle value after ∧
      Depicts contents (fieldMeaning contents (decl :: earlier) start name) tree ∧
      after.Sound fileReader contents ∧ Grows world.objects after.objects := by
  obtain ⟨outcome, returned, result, next, added, outcomeEq, called, reported, nextSound, grows⟩ :=
    World.getFieldValue_spec contract sound found name .null {}
  obtain ⟨meant, meantEq, means⟩ := fieldOutcome_means contents placed name
  cases outcomeEq.symm.trans meantEq
  have asked : world.fieldValue fileReader id name = .ok (result, next) := by
    rw [World.fieldValue, called]
    rfl
  have some : fieldMeaning contents (decl :: earlier) start name ≠ .null :=
    fieldMeaning_ne_null placed.represents declared
  rcases meaning : fieldMeaning contents (decl :: earlier) start name with
    _ | value | _ | ⟨scope, place⟩
  · exact absurd meaning some
  · rw [meaning] at means
    match outcome, means with
    | .ok (.number number), means =>
        obtain ⟨-, seen, -⟩ := reported
        exact ⟨result, next, .integer value, next, asked, ⟨number, look_eq_number seen, means, rfl⟩,
          .integer value, nextSound, grows⟩
  · rw [meaning] at means
    match outcome, means with
    | .error info, _ =>
        obtain ⟨-, unchanged, -⟩ := reported
        exact ⟨result, next, .null, next, asked, ⟨unchanged, rfl⟩, .endOfStream, nextSound, grows⟩
  · rw [meaning] at means
    match outcome, means with
    | .ok (.object type startPosition), innerPlaced =>
        obtain ⟨-, seen, -⟩ := reported
        obtain ⟨child, childObject, rfl, childFound, rfl, rfl⟩ := look_eq_object seen
        obtain ⟨tree, after, shows, depicts, afterSound, grown⟩ :=
          inner scope (suffix_of_fieldMeaning meaning) nextSound childFound innerPlaced
        exact ⟨_, next, tree, after, asked, shows, depicts, afterSound, grows.trans grown⟩

/-- When every field of an object can be asked for, all of them can, one after the other. -/
theorem exists_fieldsAsked {hashOrder : HashOrder} {kept : World σ → Prop} {id : ObjectId}
    {depicts : String → ValueTree → Prop} {names : List String}
    (shown : ∀ name ∈ names, ∀ {world : World σ}, kept world →
      ∃ value middle tree after, world.fieldValue fileReader id name = .ok (value, middle) ∧
        ValueTree.Shows fileReader hashOrder tree middle value after ∧ depicts name tree ∧
        kept after)
    {world : World σ} (start : kept world) :
    ∃ fields after, fields.map Prod.fst = names ∧
      ValueTree.FieldsShow fileReader hashOrder fields id world after ∧
      (∀ field ∈ fields, depicts field.1 field.2) ∧ kept after := by
  induction names generalizing world with
  | nil => exact ⟨[], world, rfl, rfl, List.forall_mem_nil _, start⟩
  | cons name names inductionHypothesis =>
      obtain ⟨head, tail⟩ := List.forall_mem_cons.mp shown
      obtain ⟨value, middle, tree, next, asked, shows, depicted, nextKept⟩ := head start
      obtain ⟨fields, after, listed, fieldsShow, fieldsDepicted, afterKept⟩ :=
        inductionHypothesis tail nextKept
      refine ⟨(name, tree) :: fields, after, ?_, ⟨value, middle, next, asked, shows, fieldsShow⟩,
        List.forall_mem_cons.mpr ⟨depicted, fieldsDepicted⟩, afterKept⟩
      rw [List.map_cons, listed]

/-- An object of an accepted definition shows what its fields mean. -/
theorem exists_depicted (contract : fileReader.Contract contents) (hashOrder : HashOrder)
    (scope : Scope) {start : Nat} {world : World σ} {id : ObjectId} {object : FileObject}
    (sound : world.Sound fileReader contents) (found : world.objects[id]? = some object)
    (placed : Placed scope start object.type object.startPosition) :
    ∃ tree after, ValueTree.Shows fileReader hashOrder tree world (.object id) after ∧
      Depicts contents (.object scope start) tree ∧ after.Sound fileReader contents ∧
      Grows world.objects after.objects := by
  induction scope using Scope.induction generalizing start world id object with
  | nil =>
      obtain ⟨_, _, _, _, missing, -⟩ := placed.represents
      cases missing
  | cons decl earlier inductionHypothesis =>
      have objectSound := sound.objects object (List.mem_of_getElem? found)
      obtain ⟨declaredEq, distinct⟩ := declaredNames_of_represents placed.represents
      have listed : (object.getFieldNames hashOrder).Perm (decl.fields.map FieldDecl.name) := by
        rw [← declaredEq] at distinct ⊢
        exact objectSound.getFieldNames_perm hashOrder distinct
      have shown : ∀ name ∈ object.getFieldNames hashOrder, ∀ {next : World σ},
          next.Sound fileReader contents ∧ Grows world.objects next.objects →
          ∃ value middle tree after, next.fieldValue fileReader id name = .ok (value, middle) ∧
            ValueTree.Shows fileReader hashOrder tree middle value after ∧
            Depicts contents (fieldMeaning contents (decl :: earlier) start name) tree ∧
            after.Sound fileReader contents ∧ Grows world.objects after.objects := by
        rintro name membership next ⟨nextSound, grown⟩
        obtain ⟨behind, behindFound, typeEq, startEq⟩ := grown id object found
        obtain ⟨value, middle, tree, after, asked, shows, depicts, afterSound, grows⟩ :=
          exists_fieldDepicted contract hashOrder
            (fun scope suffix_ _ _ _ _ innerSound innerFound innerPlaced =>
              inductionHypothesis scope suffix_ innerSound innerFound innerPlaced)
            nextSound behindFound (by rwa [typeEq, startEq]) (listed.mem_iff.mp membership)
        exact ⟨value, middle, tree, after, asked, shows, depicts, afterSound, grown.trans grows⟩
      obtain ⟨fields, after, names, fieldsShow, depicted, afterSound, grows⟩ :=
        exists_fieldsAsked shown ⟨sound, .refl _⟩
      rw [← names] at listed
      exact ⟨.object fields, after,
        ⟨id, object, rfl, load_of_getElem? found, names, fieldsShow⟩, .object listed depicted,
        afterSound, grows⟩

end Shown

section Read

variable {contents : List UInt8} {classes : IdentifierClasses}

/-- Every name of a field is an identifier of the grammar. -/
def Scope.Identified (classes : IdentifierClasses) (scope : Scope) : Prop :=
  ∀ decl ∈ scope, ∀ field ∈ decl.fields, classes.IsIdentifier field.name

theorem Glimpses.named {meaning : Meaning} {tree : ValueTree}
    (glimpses : Glimpses contents meaning tree)
    (identified : ∀ scope start, meaning = .object scope start →
      scope.Identified classes ∧ scope.FieldsDistinct) : tree.Named classes := by
  induction glimpses with
  | null meaning => trivial
  | integer value => trivial
  | @object decl earlier start fields names shown inductionHypothesis =>
      obtain ⟨identifiers, distinct⟩ := identified _ _ rfl
      refine ⟨names.nodup_iff.mpr (distinct decl List.mem_cons_self), ?_⟩
      apply ValueTree.fieldsNamed_iff.mpr
      intro field membership
      constructor
      · obtain ⟨declared, declaredMembership, same⟩ :=
          List.mem_map.mp (names.mem_iff.mp (List.mem_map_of_mem membership))
        rw [← same]
        exact identifiers decl List.mem_cons_self declared declaredMembership
      · apply inductionHypothesis field membership
        intro inner place meaning
        have behind := (suffix_of_fieldMeaning meaning).trans (List.suffix_cons decl earlier)
        exact ⟨fun other otherMembership => identifiers other (behind.subset otherMembership),
          distinct.mono behind⟩

theorem Glimpses.allCharacters {meaning : Meaning} {tree : ValueTree}
    (glimpses : Glimpses contents meaning tree) (condition : Char → Prop) :
    tree.AllCharacters condition := by
  induction glimpses with
  | null meaning => trivial
  | integer value => trivial
  | object names shown inductionHypothesis =>
      exact ValueTree.fieldsAllCharacters_iff.mpr inductionHypothesis

def jsonAt : List String → Json → Option Json
  | [], json => some json
  | name :: names, .object members =>
      (Json.lastOf (utf16Text name.toList) members).bind (jsonAt names)
  | _ :: _, _ => none

/-- What stands in a document where something is meant. -/
def Denotes : Option Meaning → Option Json → Prop
  | some (.integer value), some json => json = .number value
  | some .endOfStream, some json => json = .null
  | some (.object ..), some json => ∃ members, json = .object members
  | some .null, none => True
  | none, none => True
  | _, _ => False

theorem denotes_last {meaning : Meaning} {json : Json}
    (denotes : Denotes (some meaning) (some json)) (noObject : ∀ members, json ≠ .object members)
    (names : List String) :
    Denotes (if names = [] then some meaning else none) (jsonAt names json) := by
  cases names with
  | nil => exact denotes
  | cons name names =>
      rw [if_neg (List.cons_ne_nil _ _)]
      cases json with
      | object members => exact absurd rfl (noObject members)
      | _ => trivial

/-- A document that matches a tree says at every path what the tree shows. -/
theorem Depicts.denotes {scope : Scope} {start : Nat} {tree : ValueTree}
    (depicts : Depicts contents (.object scope start) tree) {json : Json}
    (agree : tree.Matches json) (names : List String) :
    Denotes (pathMeaning contents scope start names) (jsonAt names json) := by
  induction names generalizing scope start tree json with
  | nil =>
      cases depicts
      obtain ⟨members, rfl, -⟩ := agree
      exact ⟨members, rfl⟩
  | cons name names inductionHypothesis =>
      cases depicts with
      | @object decl earlier _ fields listed shown =>
          obtain ⟨members, rfl, known, fieldsMatch⟩ := agree
          rw [pathMeaning, jsonAt]
          by_cases declared : name ∈ fields.map Prod.fst
          · obtain ⟨⟨_, inner⟩, membership, rfl⟩ := List.mem_map.mp declared
            obtain ⟨value, found, valueAgrees⟩ :=
              ValueTree.fieldsMatch_iff.mp fieldsMatch _ membership
            have fieldDepicted := shown _ membership
            dsimp only at found valueAgrees fieldDepicted ⊢
            rw [found, Option.bind_some]
            generalize fieldMeaning contents (decl :: earlier) start _ = meaning
              at fieldDepicted ⊢
            cases fieldDepicted with
            | integer count =>
                have denoted : Denotes (some (.integer count)) (some value) := valueAgrees
                apply denotes_last denoted
                intro members same
                cases valueAgrees.symm.trans same
            | endOfStream =>
                have denoted : Denotes (some .endOfStream) (some value) := valueAgrees
                apply denotes_last denoted
                intro members same
                cases valueAgrees.symm.trans same
            | object innerNames innerShown =>
                exact inductionHypothesis (.object innerNames innerShown) valueAgrees
          · have absent : Json.lastOf (utf16Text name.toList) members = none := by
              apply Option.eq_none_iff_forall_ne_some.mpr
              intro value found
              obtain ⟨field, membership, same⟩ := known _ (Json.mem_of_lastOf found)
              have sameName := String.toList_inj.mp (utf16Text_injective same)
              exact declared (List.mem_map.mpr ⟨field, membership, sameName.symm⟩)
            have unmeant : fieldMeaning contents (decl :: earlier) start name = .null := by
              rw [fieldMeaning, locate_eq_none.mpr (mt listed.mem_iff.mpr declared)]
            rw [absent, unmeant]
            cases names with
            | nil => trivial
            | cons next names => trivial

theorem Mirrors.fieldsDistinct {scope : Scope} {types : List TypeDefinition}
    (mirrors : Mirrors scope types) : scope.FieldsDistinct := by
  induction mirrors with
  | nil => exact List.forall_mem_nil _
  | cons _ _ _ distinct _ inductionHypothesis =>
      exact List.forall_mem_cons.mpr ⟨distinct, inductionHypothesis⟩

theorem Represents.fieldsDistinct {scope : Scope} {type : TypeDefinition}
    (represents : Represents scope type) : scope.FieldsDistinct := by
  obtain ⟨_, _, _, _, rfl, -, mirrors, -, -, distinct⟩ := represents
  exact List.forall_mem_cons.mpr ⟨distinct, mirrors.fieldsDistinct⟩

/-- An output is one JSON document that says what every path below a type means. -/
def Describes (contents : List UInt8) (scope : Scope) (start : Nat) (output : List UInt8) : Prop :=
  ∃ text json, output = utf8Text text ∧ Json.Document text json ∧
    ∀ names, Denotes (pathMeaning contents scope start names) (jsonAt names json)

/-- What is written for an object of an accepted definition says what its paths mean. -/
theorem dumpJsonObject_describes {σ : Type} {fileReader : FileReader σ}
    (contract : fileReader.Contract contents) (hashOrder : HashOrder)
    (formatDouble : Double → String) (opts : JsonOptions) (indent : UInt64) {scope : Scope}
    (identified : scope.Identified classes) {start : Nat} {world : World σ}
    (sound : world.Sound fileReader contents) {id : ObjectId} {object : FileObject}
    (found : world.objects[id]? = some object)
    (placed : Placed scope start object.type object.startPosition) :
    ∃ bound output after, Describes contents scope start output ∧ ∀ fuel ≥ bound, ∀ os,
      World.dumpJsonObject fileReader hashOrder opts
        (World.dumpJsonValue fileReader hashOrder formatDouble opts fuel) os world id indent =
          .ok (os ++ output, after) := by
  obtain ⟨tree, after, shows, depicts, -⟩ := exists_depicted contract hashOrder scope sound found
    placed
  have named : tree.Named classes := depicts.glimpses.named fun inner place same => by
    cases same
    exact ⟨identified, placed.represents.fieldsDistinct⟩
  have plain : ∀ condition, tree.AllCharacters condition := depicts.glimpses.allCharacters
  refine ⟨tree.depth, utf8Text (tree.formed.text opts indent), after, ?_, ?_⟩
  · obtain ⟨text, json, same, document, agree⟩ :=
      (ValueTree.faithful_text_iff named opts indent).mpr (plain _)
    exact ⟨text, json, same, document, depicts.denotes agree⟩
  · intro fuel enough os
    exact ValueTree.dumpJsonValue_shows shows (Nat.le_succ_of_le enough) os indent

end Read

end BinaryReader

import BinaryReader.Public.Json.Parsing

/-!
# Values that are a tree

A JSON value is a tree when the members of its objects are taken as a map.  What
the text of a tree spells is the tree itself unless the converter has changed a
character.
-/

namespace BinaryReader

open Library Library.Json Library.Unicode

/-- The Unicode properties in the rule for `IDENTIFIER`.  Only what they say about
ASCII characters matters here. -/
structure IdentifierClasses where
  idStart : Char → Prop
  idContinue : Char → Prop
  idStart_ascii : ∀ char, char.toNat < 0x80 → (idStart char ↔ char.isAlpha)
  idContinue_ascii : ∀ char, char.toNat < 0x80 →
    (idContinue char ↔ char.isAlphanum ∨ char = '_')

/-- `IDENTIFIER : '$'? [\p{ID_Start}] [\p{ID_Continue}]*`. -/
def IdentifierClasses.IsIdentifier (classes : IdentifierClasses) (name : String) : Prop :=
  ∃ dollar first others, name.toList = dollar ++ first :: others ∧
    (dollar = [] ∨ dollar = ['$']) ∧ classes.idStart first ∧
    ∀ char ∈ others, classes.idContinue char

namespace ValueTree

mutual

/-- The fields of every object are named by different identifiers, since they are the
keys of a map. -/
def Named (classes : IdentifierClasses) : ValueTree → Prop
  | .object fields => (fields.map Prod.fst).Nodup ∧ FieldsNamed classes fields
  | _ => True

def FieldsNamed (classes : IdentifierClasses) : List (String × ValueTree) → Prop
  | [] => True
  | (name, tree) :: fields =>
      classes.IsIdentifier name ∧ tree.Named classes ∧ FieldsNamed classes fields

end

mutual

def AllCharacters (condition : Char → Prop) : ValueTree → Prop
  | .string text => ∀ char ∈ text, condition char
  | .object fields => FieldsAllCharacters condition fields
  | _ => True

def FieldsAllCharacters (condition : Char → Prop) : List (String × ValueTree) → Prop
  | [] => True
  | (_, tree) :: fields => tree.AllCharacters condition ∧ FieldsAllCharacters condition fields

end

mutual

/-- A JSON value is a tree when the members of its objects are taken as a map. -/
def Matches : ValueTree → Json → Prop
  | .null, json => json = .null
  | .integer value, json => json = .number value
  | .string text, json => json = .string (utf16Text text)
  | .object fields, json =>
      ∃ members, json = .object members ∧
        (∀ member ∈ members, ∃ field ∈ fields, member.1 = utf16Text field.1.toList) ∧
        FieldsMatch fields members

def FieldsMatch : List (String × ValueTree) → List (List UInt16 × Json) → Prop
  | [], _ => True
  | (name, tree) :: fields, members =>
      (∃ value, lastOf (utf16Text name.toList) members = some value ∧ tree.Matches value) ∧
        FieldsMatch fields members

end

variable {classes : IdentifierClasses}

theorem plain_of_word {char : Char} (word : char.isAlphanum ∨ char = '_') : Plain char := by
  have control : ∀ point < 0x20,
      ¬ ((Char.ofNat point).isAlphanum ∨ Char.ofNat point = '_') := by decide
  refine ⟨?_, ?_, ?_⟩
  · rintro rfl
    exact absurd word (by decide)
  · rintro rfl
    exact absurd word (by decide)
  · apply Nat.le_of_not_lt
    intro small
    have excluded := control char.toNat small
    rw [Char.ofNat_toNat] at excluded
    exact excluded word

theorem plain_of_idStart {char : Char} (start : classes.idStart char) : Plain char := by
  by_cases large : 0x80 ≤ char.toNat
  · exact plain_of_large large
  · have letter := (classes.idStart_ascii char (Nat.lt_of_not_le large)).mp start
    exact plain_of_word (Or.inl (Bool.or_eq_true_iff.mpr (Or.inl letter)))

theorem plain_of_idContinue {char : Char} (continued : classes.idContinue char) : Plain char := by
  by_cases large : 0x80 ≤ char.toNat
  · exact plain_of_large large
  · exact plain_of_word ((classes.idContinue_ascii char (Nat.lt_of_not_le large)).mp continued)

theorem plain_of_isIdentifier {name : String} (identifier : classes.IsIdentifier name) :
    ∀ char ∈ name.toList, Plain char := by
  obtain ⟨dollar, first, others, spelled, optional, start, continued⟩ := identifier
  intro char membership
  rw [spelled] at membership
  rcases List.mem_append.mp membership with front | behind
  · rcases optional with rfl | rfl
    · cases front
    · rw [List.mem_singleton.mp front]
      decide
  · rcases List.mem_cons.mp behind with rfl | other
    · exact plain_of_idStart start
    · exact plain_of_idContinue (continued char other)

theorem fieldsNamed_iff {fields : List (String × ValueTree)} :
    FieldsNamed classes fields ↔
      ∀ field ∈ fields, classes.IsIdentifier field.1 ∧ field.2.Named classes := by
  induction fields with
  | nil => exact iff_of_true trivial (List.forall_mem_nil _)
  | cons field fields inductionHypothesis =>
      rw [FieldsNamed, inductionHypothesis, List.forall_mem_cons, and_assoc]

theorem fieldsAllCharacters_iff {condition : Char → Prop} {fields : List (String × ValueTree)} :
    FieldsAllCharacters condition fields ↔ ∀ field ∈ fields, field.2.AllCharacters condition := by
  induction fields with
  | nil => exact iff_of_true trivial (List.forall_mem_nil _)
  | cons field fields inductionHypothesis =>
      rw [FieldsAllCharacters, inductionHypothesis, List.forall_mem_cons]

theorem fieldsMatch_iff {fields : List (String × ValueTree)}
    {members : List (List UInt16 × Json)} :
    FieldsMatch fields members ↔ ∀ field ∈ fields,
      ∃ value, lastOf (utf16Text field.1.toList) members = some value ∧ field.2.Matches value := by
  induction fields with
  | nil => exact iff_of_true trivial (List.forall_mem_nil _)
  | cons field fields inductionHypothesis =>
      rw [FieldsMatch, inductionHypothesis, List.forall_mem_cons]

/-- With identifiers for names, only strings can need escapes. -/
theorem spelled_iff {tree : ValueTree} (named : tree.Named classes) :
    tree.Spelled ↔ tree.AllCharacters Plain := by
  induction tree with
  | null => exact Iff.rfl
  | integer value => exact Iff.rfl
  | string text => exact Iff.rfl
  | object fields inductionHypothesis =>
      have entries := fieldsNamed_iff.mp named.2
      rw [Spelled, AllCharacters, fieldsSpelled_iff, fieldsAllCharacters_iff]
      constructor
      · intro spelled field membership
        exact (inductionHypothesis field membership (entries field membership).2).mp
          (spelled field membership).2
      · intro plain field membership
        exact ⟨plain_of_isIdentifier (entries field membership).1,
          (inductionHypothesis field membership (entries field membership).2).mpr
            (plain field membership)⟩

theorem fieldsFormed_eq_map (fields : List (String × ValueTree)) :
    fieldsFormed fields = fields.map fun field => (field.1, field.2.formed) := by
  induction fields with
  | nil => rfl
  | cons field fields inductionHypothesis =>
      rw [fieldsFormed, inductionHypothesis, List.map_cons]

theorem fieldsJson_eq_map (fields : List (String × ValueTree)) :
    fieldsJson fields =
      fields.map fun field => (utf16Text field.1.toList, field.2.json) := by
  induction fields with
  | nil => rfl
  | cons field fields inductionHypothesis =>
      rw [fieldsJson, inductionHypothesis, List.map_cons]

theorem formedChar_eq_iff (char : Char) :
    formedChar char = char ↔ Utf8Converter.KeepsPlane char.toNat := by
  rw [← Char.toNat_inj, toNat_formedChar]
  exact Utf8Converter.formedPoint_eq_iff _

theorem map_formedChar_eq_iff (text : List Char) :
    text.map formedChar = text ↔ ∀ char ∈ text, Utf8Converter.KeepsPlane char.toNat := by
  induction text with
  | nil => exact iff_of_true rfl (List.forall_mem_nil _)
  | cons char text inductionHypothesis =>
      rw [List.map_cons, List.cons.injEq, List.forall_mem_cons, formedChar_eq_iff,
        inductionHypothesis]

theorem lastOf_fieldsJson_formed {fields : List (String × ValueTree)}
    (distinct : (fields.map Prod.fst).Nodup) {field : String × ValueTree}
    (membership : field ∈ fields) :
    lastOf (utf16Text field.1.toList) (fieldsJson (fieldsFormed fields)) =
      some field.2.formed.json := by
  have members : fieldsJson (fieldsFormed fields) =
      fields.map fun field => (utf16Text field.1.toList, field.2.formed.json) := by
    rw [fieldsFormed_eq_map, fieldsJson_eq_map, List.map_map]
    rfl
  rw [members]
  apply lastOf_of_mem
  · have names : (fields.map fun field => (utf16Text field.1.toList, field.2.formed.json)).map
        Prod.fst = (fields.map Prod.fst).map fun name => utf16Text name.toList := by
      rw [List.map_map, List.map_map]
      rfl
    rw [names]
    exact distinct.map fun _ _ same => String.toList_inj.mp (utf16Text_injective same)
  · exact List.mem_map_of_mem (f := fun field : String × ValueTree =>
      (utf16Text field.1.toList, field.2.formed.json)) membership

/-- What is written is the tree exactly when the converter changes no character. -/
theorem matches_formed_iff {tree : ValueTree} (named : tree.Named classes) :
    tree.Matches tree.formed.json ↔
      tree.AllCharacters fun char => Utf8Converter.KeepsPlane char.toNat := by
  induction tree with
  | null => exact iff_of_true rfl trivial
  | integer value => exact iff_of_true rfl trivial
  | string text =>
      rw [Matches, AllCharacters, formed, json, Json.string.injEq, ← map_formedChar_eq_iff]
      constructor
      · exact utf16Text_injective
      · exact congrArg utf16Text
  | object fields inductionHypothesis =>
      have entries := fieldsNamed_iff.mp named.2
      rw [AllCharacters, fieldsAllCharacters_iff]
      constructor
      · rintro ⟨members, same, _, fieldsMatch⟩ field membership
        obtain ⟨value, found, agree⟩ := fieldsMatch_iff.mp fieldsMatch field membership
        cases same
        rw [lastOf_fieldsJson_formed named.1 membership] at found
        cases found
        exact (inductionHypothesis field membership (entries field membership).2).mp agree
      · intro kept
        refine ⟨fieldsJson (fieldsFormed fields), rfl, ?_, fieldsMatch_iff.mpr ?_⟩
        · intro member membership
          rw [fieldsFormed_eq_map, fieldsJson_eq_map, List.map_map] at membership
          obtain ⟨field, found, rfl⟩ := List.mem_map.mp membership
          exact ⟨field, found, rfl⟩
        · intro field membership
          exact ⟨_, lastOf_fieldsJson_formed named.1 membership,
            (inductionHypothesis field membership (entries field membership).2).mpr
              (kept field membership)⟩

end ValueTree

end BinaryReader

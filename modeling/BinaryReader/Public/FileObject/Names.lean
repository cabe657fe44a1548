import BinaryReader.Public.FileObject.Soundness

/-!
# The names of an object

`GetFieldNames` iterates over the hash table of the names.  It lists every declared name
once, and the order of the definition is not kept in the table.
-/

namespace BinaryReader

def declaredNames : List Statement → List String
  | [] => []
  | .field info :: statements => info.name :: declaredNames statements
  | .definition _ :: statements => declaredNames statements

def TypeDefinition.declaredNames (type : TypeDefinition) : List String :=
  BinaryReader.declaredNames type.statements

theorem layOut_names {statements : List Statement} (wellFormed : WellFormedStatements statements)
    (offset : Size) :
    (layOut offset statements).map ParsedFieldInfo.name = declaredNames statements := by
  induction statements generalizing offset with
  | nil => rfl
  | cons statement statements inductionHypothesis =>
      rcases statement with ⟨debug, name, _ | type, expected⟩ | _
      · exact wellFormed.elim
      · rw [layOut, List.map_cons, inductionHypothesis wellFormed.2]
        rfl
      · exact wellFormed.elim

theorem length_declaredNames {statements : List Statement}
    (wellFormed : WellFormedStatements statements) :
    (declaredNames statements).length = statements.length := by
  induction statements with
  | nil => rfl
  | cons statement statements inductionHypothesis =>
      rcases statement with ⟨debug, name, _ | type, expected⟩ | _
      · exact wellFormed.elim
      · rw [declaredNames, List.length_cons, List.length_cons, inductionHypothesis wellFormed.2]
      · exact wellFormed.elim

theorem TypeDefinition.WellFormed.length_declaredNames {type : TypeDefinition}
    (wellFormed : type.WellFormed) : type.declaredNames.length = type.statements.length := by
  rcases type with ⟨debug, name, statements⟩
  exact BinaryReader.length_declaredNames wellFormed

namespace FileObject

theorem assign_names (map : List (String × Nat)) (name : String) (index : Nat) :
    (assign map name index).map Prod.fst = name :: (map.map Prod.fst).filter (· ≠ name) := by
  rw [assign, List.map_cons, List.filter_map]
  rfl

theorem mapNames_nodup {map : List (String × Nat)} (distinct : (map.map Prod.fst).Nodup)
    (index : Nat) (infos : List ParsedFieldInfo) :
    ((mapNames map index infos).map Prod.fst).Nodup := by
  induction infos generalizing map index with
  | nil => exact distinct
  | cons info infos inductionHypothesis =>
      apply inductionHypothesis
      rw [assign_names, List.nodup_cons]
      refine ⟨?_, distinct.filter _⟩
      intro membership
      simp at membership

theorem mem_mapNames (map : List (String × Nat)) (index : Nat) (infos : List ParsedFieldInfo)
    (name : String) :
    name ∈ (mapNames map index infos).map Prod.fst ↔
      name ∈ map.map Prod.fst ∨ name ∈ infos.map ParsedFieldInfo.name := by
  induction infos generalizing map index with
  | nil => simp [mapNames]
  | cons info infos inductionHypothesis =>
      rw [mapNames, inductionHypothesis, assign_names, List.mem_cons, List.mem_filter,
        List.map_cons, List.mem_cons, decide_eq_true_eq]
      by_cases same : name = info.name
      · simp [same]
      · simp [same]

/-- Distinct names are stored in the reverse order. -/
theorem mapNames_of_nodup {map : List (String × Nat)} {infos : List ParsedFieldInfo}
    (distinct : (infos.map ParsedFieldInfo.name).Nodup)
    (new : ∀ name ∈ map.map Prod.fst, name ∉ infos.map ParsedFieldInfo.name) (index : Nat) :
    (mapNames map index infos).map Prod.fst =
      (infos.map ParsedFieldInfo.name).reverse ++ map.map Prod.fst := by
  induction infos generalizing map index with
  | nil => rfl
  | cons info infos inductionHypothesis =>
      rw [List.map_cons, List.nodup_cons] at distinct
      have kept : (map.map Prod.fst).filter (· ≠ info.name) = map.map Prod.fst := by
        apply List.filter_eq_self.mpr
        intro name membership
        rw [decide_eq_true_eq]
        rintro rfl
        exact new _ membership List.mem_cons_self
      have behind : ∀ name ∈ (assign map info.name index).map Prod.fst,
          name ∉ infos.map ParsedFieldInfo.name := by
        rw [assign_names, kept, List.forall_mem_cons]
        refine ⟨distinct.1, ?_⟩
        intro name membership later
        exact new name membership (List.mem_cons_of_mem _ later)
      rw [mapNames, inductionHypothesis distinct.2 behind, assign_names, kept, List.map_cons,
        List.reverse_cons, List.append_assoc, List.singleton_append]

variable {contents : List UInt8} {objects : List FileObject} {object : FileObject}

theorem Sound.fieldNameMap (sound : object.Sound contents objects) :
    object.fieldNameMap =
      mapNames [] 0 (layOut object.startPosition object.type.statements) :=
  congrArg FileObject.fieldNameMap sound.parsed

theorem Sound.layOut_names (sound : object.Sound contents objects) :
    (layOut object.startPosition object.type.statements).map ParsedFieldInfo.name =
      object.type.declaredNames := by
  have wellFormed := sound.wellFormed
  rcases typeEq : object.type with ⟨debug, name, statements⟩
  rw [typeEq] at wellFormed
  exact BinaryReader.layOut_names wellFormed _

theorem Sound.getFieldNames_nodup (sound : object.Sound contents objects) (hashOrder : HashOrder) :
    (object.getFieldNames hashOrder).Nodup := by
  apply ((hashOrder.perm object.fieldNameMap).map Prod.fst).nodup_iff.mpr
  rw [sound.fieldNameMap]
  have empty : (([] : List (String × Nat)).map Prod.fst).Nodup := List.nodup_nil
  exact mapNames_nodup empty 0 _

theorem Sound.mem_getFieldNames (sound : object.Sound contents objects) (hashOrder : HashOrder)
    (name : String) : name ∈ object.getFieldNames hashOrder ↔ name ∈ object.type.declaredNames := by
  rw [getFieldNames, ((hashOrder.perm object.fieldNameMap).map Prod.fst).mem_iff,
    sound.fieldNameMap, mem_mapNames, sound.layOut_names]
  simp

theorem Sound.getFieldNames_perm (sound : object.Sound contents objects) (hashOrder : HashOrder)
    (distinct : object.type.declaredNames.Nodup) :
    (object.getFieldNames hashOrder).Perm object.type.declaredNames :=
  (List.perm_ext_iff_of_nodup (sound.getFieldNames_nodup hashOrder) distinct).mpr
    (sound.mem_getFieldNames hashOrder)

/-- A table that lists the latest name first. -/
theorem Sound.getFieldNames_latest (sound : object.Sound contents objects) {hashOrder : HashOrder}
    (latest : hashOrder.entries = id) (distinct : object.type.declaredNames.Nodup) :
    object.getFieldNames hashOrder = object.type.declaredNames.reverse := by
  rw [← sound.layOut_names] at distinct ⊢
  rw [getFieldNames, latest, id, sound.fieldNameMap,
    mapNames_of_nodup distinct (List.forall_mem_nil _), List.map_nil, List.append_nil]

theorem length_le_one_of_reverse_eq {α : Type} {values : List α} (distinct : values.Nodup)
    (same : values.reverse = values) : values.length ≤ 1 := by
  by_contra long
  obtain ⟨first, second, rest, rfl⟩ : ∃ first second rest, values = first :: second :: rest := by
    rcases values with _ | ⟨first, _ | ⟨second, rest⟩⟩
    · exact absurd (Nat.zero_le 1) long
    · exact absurd le_rfl long
    · exact ⟨first, second, rest, rfl⟩
  -- The last value is the first one.
  have heads : (first :: second :: rest).getLast? = some first := by
    rw [← List.head?_reverse, same]
    rfl
  rw [List.getLast?_cons_cons] at heads
  exact (List.nodup_cons.mp distinct).1 (List.mem_of_getLast? heads)

theorem Sound.length_le_one (sound : object.Sound contents objects) {hashOrder : HashOrder}
    (latest : hashOrder.entries = id)
    (inOrder : object.getFieldNames hashOrder = object.type.declaredNames) :
    object.type.declaredNames.length ≤ 1 := by
  have distinct : object.type.declaredNames.Nodup := by
    rw [← inOrder]
    exact sound.getFieldNames_nodup hashOrder
  apply length_le_one_of_reverse_eq distinct
  rw [← sound.getFieldNames_latest latest distinct, inOrder]

theorem Sound.getFieldNames_eq (sound : object.Sound contents objects) (hashOrder : HashOrder)
    (short : object.type.declaredNames.length ≤ 1) :
    object.getFieldNames hashOrder = object.type.declaredNames := by
  rcases names : object.type.declaredNames with _ | ⟨name, _ | ⟨other, rest⟩⟩
  · have listed := sound.getFieldNames_perm hashOrder (by rw [names]; exact List.nodup_nil)
    rw [names] at listed
    exact listed.eq_nil
  · have listed := sound.getFieldNames_perm hashOrder (by rw [names]; exact List.nodup_singleton _)
    rw [names] at listed
    exact listed.eq_singleton
  · rw [names] at short
    exact absurd short (by simp)

end FileObject

end BinaryReader

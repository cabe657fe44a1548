import BinaryReader.Ast.TypeInfo.WellFormed
import BinaryReader.Public.FileObject

/-!
# The layout of an object

`ReparseObject` on a well-formed type lays the fields end to end from the start
of the object and maps each name to the last field that has it.  The parsed
object is a function of its type and its start.
-/

namespace BinaryReader

/-- The fields of statements, laid end to end from an offset. -/
def layOut (offset : Size) : List Statement → List ParsedFieldInfo
  | .field (.mk _ name (some type) _) :: statements =>
      { name, type, offset } :: layOut (offset.addAssign (.fromBits type.exactBits)) statements
  | _ => []

def lastIndexOf (name : String) : List ParsedFieldInfo → Option Nat
  | [] => none
  | info :: infos =>
      match lastIndexOf name infos with
      | some index => some (index + 1)
      | none => if info.name = name then some 0 else none

theorem layOut_field {statements : List Statement} (wellFormed : WellFormedStatements statements)
    (offset : Size) {index : Nat} {debug : DebugInfo} {name : String} {type : TypeInfoBase}
    {expected : Option Literal}
    (found : statements[index]? = some (.field (.mk debug name (some type) expected))) :
    (layOut offset statements)[index]? =
      some { name, type
             offset := .fromBits (offset.bitCount + sumBits (statements.take index)) } := by
  induction statements generalizing offset index with
  | nil => cases found
  | cons statement statements inductionHypothesis =>
      rcases statement with ⟨_, _, _ | first, _⟩ | _
      · exact wellFormed.elim
      · cases index with
        | zero =>
            cases found
            rw [List.take_zero, sumBits, Nat.add_zero, Size.fromBits_bitCount]
            rfl
        | succ index =>
            have next := inductionHypothesis wellFormed.2
              (offset.addAssign (.fromBits first.exactBits)) found
            have position : Size.fromBits ((offset.addAssign (.fromBits first.exactBits)).bitCount +
                sumBits (statements.take index)) = .fromBits (offset.bitCount +
                  (first.exactBits + sumBits (statements.take index))) := by
              apply Size.bitCount_injective
              simp only [Size.bitCount_fromBits, Size.bitCount_addAssign]
              omega
            rw [layOut, List.getElem?_cons_succ, next, position, List.take_succ_cons, sumBits]
      · exact wellFormed.elim

theorem statement_of_layOut {statements : List Statement} {offset : Size} {index : Nat}
    {info : ParsedFieldInfo} (found : (layOut offset statements)[index]? = some info) :
    ∃ debug expected,
      statements[index]? = some (.field (.mk debug info.name (some info.type) expected)) := by
  induction statements generalizing offset index with
  | nil => cases found
  | cons statement statements inductionHypothesis =>
      rcases statement with ⟨debug, name, _ | type, expected⟩ | _
      · cases found
      · cases index with
        | zero =>
            cases found
            exact ⟨debug, expected, rfl⟩
        | succ index => exact inductionHypothesis found
      · cases found

theorem layOut_wellFormed {statements : List Statement}
    (wellFormed : WellFormedStatements statements) {offset : Size} {info : ParsedFieldInfo}
    (membership : info ∈ layOut offset statements) : info.type.WellFormed ∧ info.value = none := by
  induction statements generalizing offset with
  | nil => cases membership
  | cons statement statements inductionHypothesis =>
      rcases statement with ⟨_, name, _ | type, _⟩ | _
      · exact wellFormed.elim
      · rcases List.mem_cons.mp membership with rfl | later
        · exact ⟨wellFormed.1, rfl⟩
        · exact inductionHypothesis wellFormed.2 later
      · exact wellFormed.elim

theorem getElem?_of_lastIndexOf {name : String} {infos : List ParsedFieldInfo} {index : Nat}
    (found : lastIndexOf name infos = some index) :
    ∃ info, infos[index]? = some info ∧ info.name = name := by
  induction infos generalizing index with
  | nil => cases found
  | cons info infos inductionHypothesis =>
      rw [lastIndexOf] at found
      rcases later : lastIndexOf name infos with _ | place
      · rw [later] at found
        split_ifs at found with same
        cases found
        exact ⟨info, rfl, same⟩
      · rw [later] at found
        cases found
        exact inductionHypothesis later

theorem lastIndexOf_eq_none {name : String} {infos : List ParsedFieldInfo} :
    lastIndexOf name infos = none ↔ ∀ info ∈ infos, info.name ≠ name := by
  induction infos with
  | nil => simp [lastIndexOf]
  | cons info infos inductionHypothesis =>
      rw [lastIndexOf, List.forall_mem_cons, ← inductionHypothesis]
      rcases later : lastIndexOf name infos with _ | place
      · simp
      · simp

theorem lastIndexOf_eq_some {name : String} {infos : List ParsedFieldInfo} {index : Nat}
    {info : ParsedFieldInfo} (found : infos[index]? = some info) (same : info.name = name)
    (last : ∀ later other, index < later → infos[later]? = some other → other.name ≠ name) :
    lastIndexOf name infos = some index := by
  induction infos generalizing index with
  | nil => cases found
  | cons head infos inductionHypothesis =>
      cases index with
      | zero =>
          cases found
          have absent : lastIndexOf name infos = none := by
            apply lastIndexOf_eq_none.mpr
            intro other membership
            obtain ⟨place, placed⟩ := List.mem_iff_getElem?.mp membership
            exact last (place + 1) other (Nat.succ_pos place) placed
          rw [lastIndexOf, absent]
          exact if_pos same
      | succ index =>
          rw [lastIndexOf, inductionHypothesis found fun later other behind placed =>
            last (later + 1) other (Nat.succ_lt_succ behind) placed]

namespace FileObject

theorem lookup_filter {name other : String} (different : other ≠ name)
    (map : List (String × Nat)) :
    (map.filter fun entry => entry.1 ≠ name).lookup other = map.lookup other := by
  induction map with
  | nil => rfl
  | cons entry map inductionHypothesis =>
      by_cases replaced : entry.1 = name
      · have skipped : (other == entry.1) = false :=
          beq_eq_false_iff_ne.mpr fun equal => different (equal.trans replaced)
        rw [List.filter_cons_of_neg (by simpa using replaced), inductionHypothesis,
          List.lookup_cons, skipped]
      · rw [List.filter_cons_of_pos (by simpa using replaced), List.lookup_cons,
          List.lookup_cons, inductionHypothesis]

theorem lookup_assign (map : List (String × Nat)) (name other : String) (index : Nat) :
    (assign map name index).lookup other =
      if name = other then some index else map.lookup other := by
  rw [assign, List.lookup_cons]
  by_cases same : other = name
  · rw [if_pos same.symm, beq_iff_eq.mpr same]
  · rw [if_neg (Ne.symm same), beq_eq_false_iff_ne.mpr same]
    exact lookup_filter same map

/-- The name map behind the fields from `index` on. -/
def mapNames (map : List (String × Nat)) : Nat → List ParsedFieldInfo → List (String × Nat)
  | _, [] => map
  | index, info :: infos => mapNames (assign map info.name index) (index + 1) infos

theorem lookup_mapNames (map : List (String × Nat)) (index : Nat) (infos : List ParsedFieldInfo)
    (name : String) :
    (mapNames map index infos).lookup name =
      match lastIndexOf name infos with
      | some place => some (index + place)
      | none => map.lookup name := by
  induction infos generalizing map index with
  | nil => rfl
  | cons info infos inductionHypothesis =>
      rw [mapNames, inductionHypothesis, lastIndexOf]
      rcases lastIndexOf name infos with _ | place
      · dsimp only
        rw [lookup_assign]
        split_ifs <;> rfl
      · simp only [Option.some.injEq]
        omega

def parse (type : TypeDefinition) (startPosition : Size) : FileObject where
  type := type
  startPosition := startPosition
  parsedFields := layOut startPosition type.statements
  fieldNameMap := mapNames [] 0 (layOut startPosition type.statements)

theorem parse_lookup (type : TypeDefinition) (startPosition : Size) (name : String) :
    (parse type startPosition).fieldNameMap.lookup name =
      lastIndexOf name (layOut startPosition type.statements) := by
  rw [parse, lookup_mapNames]
  rcases lastIndexOf name (layOut startPosition type.statements) with _ | place
  · rfl
  · exact congrArg some (Nat.zero_add place)

/-- The loop appends the layout of the statements and maps their names. -/
theorem reparseLoop_spec {statements : List Statement}
    (wellFormed : WellFormedStatements statements) (offset : Size) (self : FileObject)
    (errors : ErrorCollection) :
    reparseLoop statements offset self errors =
      .ok (true, { self with
        parsedFields := self.parsedFields ++ layOut offset statements
        fieldNameMap := mapNames self.fieldNameMap self.parsedFields.length
          (layOut offset statements) }, errors) := by
  induction statements generalizing offset self with
  | nil => simp only [reparseLoop, layOut, mapNames, List.append_nil]
  | cons statement statements inductionHypothesis =>
      rcases statement with ⟨_, name, _ | type, _⟩ | _
      · exact wellFormed.elim
      · simp only [reparseLoop, FieldInfo.type, FieldInfo.name, deref_some, Checked.ok_bind,
          wellFormed.1.staticSize, inductionHypothesis wellFormed.2, layOut, mapNames,
          List.append_assoc, List.singleton_append, List.length_append, List.length_singleton]
      · exact wellFormed.elim

/-- Parsing a well-formed type succeeds, whatever the object held before. -/
theorem reparseObject_spec {self : FileObject} (wellFormed : self.type.WellFormed)
    (errors : ErrorCollection) :
    self.reparseObject errors = .ok (true, parse self.type self.startPosition, errors) := by
  rcases self with ⟨⟨debug, name, statements⟩, startPosition, parsedFields, fieldNameMap⟩
  exact reparseLoop_spec wellFormed startPosition
    { type := .mk debug name statements, startPosition } errors

end FileObject

end BinaryReader

import BinaryReader.Parser.Acceptance.Objects

/-!
# Sizes in accepted definitions

Sizes and offsets are the exact sums of the field sizes modulo 2 ^ 64.  They are
the sums themselves for a type of less than 2 ^ 64 bits.  A definition whose
types each hold the one in front of them twice exceeds every bound.
-/

namespace BinaryReader

theorem layOut_length {statements : List Statement} (wellFormed : WellFormedStatements statements)
    (offset : Size) : (layOut offset statements).length = statements.length := by
  induction statements generalizing offset with
  | nil => rfl
  | cons statement statements inductionHypothesis =>
      rcases statement with ⟨_, _, _ | type, _⟩ | _
      · exact wellFormed.elim
      · exact congrArg Nat.succ (inductionHypothesis wellFormed.2 _)
      · exact wellFormed.elim

theorem sumBits_append (early late : List Statement) :
    sumBits (early ++ late) = sumBits early + sumBits late := by
  induction early with
  | nil => exact (Nat.zero_add _).symm
  | cons statement early inductionHypothesis =>
      rcases statement with ⟨_, _, _ | type, _⟩ | _
      · exact inductionHypothesis
      · simp only [List.cons_append, sumBits, inductionHypothesis, Nat.add_assoc]
      · exact inductionHypothesis

theorem sumBits_take_le (statements : List Statement) (count : Nat) :
    sumBits (statements.take count) ≤ sumBits statements := by
  conv_rhs => rw [← List.take_append_drop count statements]
  rw [sumBits_append]
  exact Nat.le_add_right _ _

theorem sumBits_take_succ {statements : List Statement} {index : Nat} {debug : DebugInfo}
    {name : String} {type : TypeInfoBase} {expected : Option Literal}
    (found : statements[index]? = some (.field (.mk debug name (some type) expected))) :
    sumBits (statements.take (index + 1)) = sumBits (statements.take index) + type.exactBits := by
  rw [List.take_add_one, found, sumBits_append]
  rfl

theorem sumBits_take_mono (statements : List Statement) {early late : Nat}
    (ordered : early ≤ late) :
    sumBits (statements.take early) ≤ sumBits (statements.take late) := by
  have nested := sumBits_take_le (statements.take late) early
  rwa [List.take_take, Nat.min_eq_left ordered] at nested

def TypeDefinition.exactOffset (type : TypeDefinition) (index : Nat) : Nat :=
  sumBits (type.statements.take index)

theorem TypeDefinition.exactOffset_le (type : TypeDefinition) (index : Nat) :
    type.exactOffset index ≤ type.exactBits := by
  obtain ⟨_, _, statements⟩ := type
  exact sumBits_take_le statements index

/-- Fields that lie one behind the other without overlap. -/
def EndToEnd (infos : List ParsedFieldInfo) : Prop :=
  ∀ (early late : Nat) (first second : ParsedFieldInfo), early < late →
    infos[early]? = some first → infos[late]? = some second →
    first.offset.bitCount + first.type.exactBits ≤ second.offset.bitCount

theorem EndToEnd.offset_lt {infos : List ParsedFieldInfo} (endToEnd : EndToEnd infos)
    {early late : Nat} {first second : ParsedFieldInfo} (ordered : early < late)
    (firstFound : infos[early]? = some first) (secondFound : infos[late]? = some second)
    (nonEmpty : 0 < first.type.exactBits) : first.offset < second.offset := by
  have apart := endToEnd early late first second ordered firstFound secondFound
  rw [Size.lt_iff]
  omega

section WellFormed

variable {type : TypeDefinition} (wellFormed : type.WellFormed)

include wellFormed

theorem TypeDefinition.WellFormed.offset {index : Nat} {info : ParsedFieldInfo}
    (found : (layOut .zero type.statements)[index]? = some info) :
    info.offset.bitCount = type.exactOffset index % 2 ^ 64 ∧
      type.exactOffset index + info.type.exactBits = type.exactOffset (index + 1) := by
  obtain ⟨_, _, statements⟩ := type
  obtain ⟨debug, expected, placed⟩ := statement_of_layOut found
  have laidOut := found.symm.trans (layOut_field wellFormed .zero placed)
  refine ⟨?_, (sumBits_take_succ placed).symm⟩
  rw [congrArg ParsedFieldInfo.offset (Option.some.inj laidOut), Size.bitCount_fromBits,
    Size.bitCount_zero, Nat.zero_add]
  rfl

theorem TypeDefinition.WellFormed.offset_of_bounded (bounded : type.exactBits < 2 ^ 64)
    {index : Nat} {info : ParsedFieldInfo}
    (found : (layOut .zero type.statements)[index]? = some info) :
    info.offset.bitCount = type.exactOffset index := by
  rw [(wellFormed.offset found).1]
  exact Nat.mod_eq_of_lt (Nat.lt_of_le_of_lt (type.exactOffset_le index) bounded)

theorem TypeDefinition.WellFormed.endToEnd (bounded : type.exactBits < 2 ^ 64) :
    EndToEnd (layOut .zero type.statements) := by
  intro early late first second ordered firstFound secondFound
  rw [wellFormed.offset_of_bounded bounded firstFound,
    wellFormed.offset_of_bounded bounded secondFound, (wellFormed.offset firstFound).2]
  exact sumBits_take_mono type.statements ordered

end WellFormed

/-- What `CalculateSize` and `ReparseObject` compute for the types of an accepted definition:
exact sums modulo 2 ^ 64, and for a type of less than 2 ^ 64 bits the exact sums. -/
theorem accepted_sizes {recognize : Recognizer} {path : String} {buffer : List UInt8}
    {defs types : List TypeDefinition} {errors reported : ErrorCollection}
    (accepted : parseDefinitionFile recognize path buffer defs errors =
      .ok (true, defs ++ types, reported)) {type : TypeDefinition} (membership : type ∈ types) :
    ∃ (size : Size) (object : FileObject), type.staticSize = some size ∧
      FileObject.reparseObject { type, startPosition := .zero } {} = .ok (true, object, {}) ∧
      object.parsedFields.length = type.statements.length ∧
      size.bitCount = type.exactBits % 2 ^ 64 ∧
      (∀ (index : Nat) (info : ParsedFieldInfo), object.parsedFields[index]? = some info →
        info.offset.bitCount = type.exactOffset index % 2 ^ 64) ∧
      (size.bitCount = type.exactBits ↔ type.exactBits < 2 ^ 64) ∧
      (type.exactBits < 2 ^ 64 →
        (∀ (index : Nat) (info : ParsedFieldInfo), object.parsedFields[index]? = some info →
          info.offset.bitCount = type.exactOffset index) ∧
        EndToEnd object.parsedFields ∧
        ∀ (early late : Nat) (first second : ParsedFieldInfo), early < late →
          object.parsedFields[early]? = some first → object.parsedFields[late]? = some second →
          0 < first.type.exactBits → first.offset < second.offset) := by
  have wellFormed := wellFormed_of_accepted accepted type membership
  have size := Size.bitCount_fromBits type.exactBits
  refine ⟨_, _, wellFormed.staticSize, FileObject.reparseObject_spec wellFormed {}, ?_, size,
    fun index info found => (wellFormed.offset found).1, ?_, ?_⟩
  · obtain ⟨_, _, statements⟩ := type
    exact layOut_length wellFormed .zero
  · rw [size]
    omega
  · intro bounded
    have endToEnd := wellFormed.endToEnd bounded
    exact ⟨fun index info found => wellFormed.offset_of_bounded bounded found, endToEnd,
      fun early late first second ordered => endToEnd.offset_lt ordered⟩

theorem accepted_sizes_nested :
    ∃ (size : Size) (object : FileObject), byteAndOne.staticSize = some size ∧
      FileObject.reparseObject { type := byteAndOne, startPosition := .zero } {} =
        .ok (true, object, {}) ∧
      size.bitCount = byteAndOne.exactBits ∧ EndToEnd object.parsedFields := by
  obtain ⟨size, object, sized, reparsed, -, -, -, exact_, bounded⟩ :=
    accepted_sizes parse_nestedTypes (List.mem_cons_of_mem _ (List.mem_singleton_self byteAndOne))
  have small : byteAndOne.exactBits < 2 ^ 64 := by decide
  exact ⟨size, object, sized, reparsed, exact_.mpr small, (bounded small).2.1⟩

section Doubling

def levelName (level : Nat) : String := String.ofList (List.replicate (level + 1) 'a')

/-- The tree of `type name { previous x; previous y; }` on a line of its own. -/
def twice (line start : Nat) (previous name : String) : GlobalDefinitionContext :=
  let token (text : String) (column : Nat) : Token := ⟨text, line, column, start + column⟩
  let field (column : Nat) (name : String) : TypeMemberContext :=
    { start := token previous column
      dataField := some {
        start := token previous column
        completeType := some ⟨token previous column, some (token previous column), none⟩
        identifier := some (token name (column + previous.length + 1))
        expression := none } }
  { start := token "type" 0
    typeDefinition := some {
      start := token "type" 0
      identifier := some (token name 5)
      typeMember := [field (name.length + 8) "x",
        field (name.length + previous.length + 12) "y"] } }

/-- Types that each hold the one in front of them twice, from a level on. -/
def doublings : (count level start : Nat) → (previous : String) → List GlobalDefinitionContext
  | 0, _, _, _ => []
  | count + 1, level, start, previous =>
      twice (level + 1) start previous (levelName level) ::
        doublings count (level + 1) (start + (levelName level).length + 2 * previous.length + 18)
          (levelName level)

def doublingsText : (count level : Nat) → (previous : String) → String
  | 0, _, _ => ""
  | count + 1, level, previous =>
      "type " ++ levelName level ++ " \x7b " ++ previous ++ " x; " ++ previous ++ " y; \x7d\n" ++
        doublingsText count (level + 1) (levelName level)

def TypeDefinition.IsPair (type : TypeDefinition) (bits : Nat) : Prop :=
  ∃ firstDebug secondDebug first second firstExpected secondExpected,
    type.statements = [.field (.mk firstDebug "x" (some first) firstExpected),
      .field (.mk secondDebug "y" (some second) secondExpected)] ∧
    first.exactBits = bits ∧ second.exactBits = bits

theorem TypeDefinition.IsPair.exactBits {type : TypeDefinition} {bits : Nat}
    (pair : type.IsPair bits) : type.exactBits = 2 * bits := by
  obtain ⟨debug, name, statements⟩ := type
  obtain ⟨_, _, first, second, _, _, rfl, firstBits, secondBits⟩ := pair
  simp only [TypeDefinition.exactBits, sumBits, firstBits, secondBits]
  omega

theorem levelName_injective {early late : Nat} (same : levelName early = levelName late) :
    early = late := by
  have lengths := congrArg (fun name => name.toList.length) same
  simpa [levelName] using lengths

theorem levelName_not_builtIn (level : Nat) : levelName level ∉ builtInNames := by
  intro builtIn
  have heads : ∀ name ∈ builtInNames, name.toList.head? ≠ some 'a' := by decide
  exact heads _ builtIn (by simp [levelName, List.replicate_succ])

theorem twice_decl (line start : Nat) (previous name : String) :
    (twice line start previous name).decl =
      ⟨name, [⟨previous, [], "x"⟩, ⟨previous, [], "y"⟩]⟩ := rfl

theorem doublings_complete (count level start : Nat) (previous : String) :
    MainContext.Complete ⟨doublings count level start previous⟩ ∧
      MainContext.Numeric ⟨doublings count level start previous⟩ := by
  induction count generalizing level start previous with
  | zero => exact ⟨nofun, nofun⟩
  | succ count inductionHypothesis =>
      obtain ⟨complete, numeric⟩ := inductionHypothesis (level + 1)
        (start + (levelName level).length + 2 * previous.length + 18) (levelName level)
      refine ⟨List.forall_mem_cons.mpr ⟨⟨_, rfl, rfl, ?_⟩, complete⟩,
        List.forall_mem_cons.mpr ⟨?_, numeric⟩⟩
      · have field {ctx : TypeMemberContext} (same : ∃ start type name, ctx = ⟨start, some
            ⟨start, some ⟨start, some type, none⟩, some name, none⟩⟩) : ctx.Complete := by
          obtain ⟨start, type, name, rfl⟩ := same
          exact ⟨_, rfl, rfl, ⟨_, rfl, rfl, nofun⟩, nofun⟩
        exact List.forall_mem_cons.mpr ⟨field ⟨_, _, _, rfl⟩,
          List.forall_mem_singleton.mpr (field ⟨_, _, _, rfl⟩)⟩
      · rintro type ⟨⟩
        refine List.forall_mem_cons.mpr ⟨?_, List.forall_mem_singleton.mpr ?_⟩
        · rintro field ⟨⟩
          exact nofun
        · rintro field ⟨⟩
          exact nofun

theorem doublings_fit (count level start : Nat) {previous : String} {defined : List String}
    (lower : ∀ name ∈ defined, ∃ other < level, name = levelName other)
    (known : previous ∈ defined ∨ previous ∈ builtInNames) :
    DeclsFit defined ((doublings count level start previous).map GlobalDefinitionContext.decl) := by
  induction count generalizing level start previous defined with
  | zero => trivial
  | succ count inductionHypothesis =>
      rw [doublings, List.map_cons, twice_decl, DeclsFit]
      refine ⟨?_, ?_, levelName_not_builtIn level, inductionHypothesis _ _ ?_ ?_⟩
      · obtain ⟨validOptions, valid⟩ := Option.isSome_iff_exists.mp (optionTypesOf_isSome.mpr known)
        have fits (name : String) : FieldFits defined ⟨previous, [], name⟩ :=
          ⟨validOptions, valid, List.forall_mem_nil _, List.nodup_nil, List.forall_mem_nil _⟩
        exact ⟨fits "x", List.not_mem_nil, fits "y", (by decide : "y" ∉ ["x"]), trivial⟩
      · intro repeated
        obtain ⟨other, below, same⟩ := lower _ repeated
        exact absurd (levelName_injective same) (Nat.ne_of_gt below)
      · rw [List.forall_mem_append, List.forall_mem_singleton]
        refine ⟨?_, level, Nat.lt_succ_self level, rfl⟩
        intro name membership
        obtain ⟨other, below, same⟩ := lower name membership
        exact ⟨other, Nat.lt_succ_of_lt below, same⟩
      · exact Or.inl (List.mem_append_right _ (List.mem_singleton_self _))

theorem Built.isPair {types : List TypeDefinition} {previous name : String}
    {type : TypeDefinition}
    (built : Built types ⟨name, [⟨previous, [], "x"⟩, ⟨previous, [], "y"⟩]⟩ type)
    {found : TypeInfoBase} (looked : lookupType types previous = some found) :
    type.IsPair found.exactBits := by
  obtain ⟨-, fields, statements, fieldsBuilt⟩ := built
  have held {name : String} {field : FieldInfo}
      (fieldBuilt : FieldBuilt types ⟨previous, [], name⟩ field) :
      ∃ debug held expected, field = .mk debug name (some held) expected ∧
        held.exactBits = found.exactBits := by
    obtain ⟨debug, fieldName, fieldType, expected⟩ := field
    obtain ⟨nameEq, typeDebug, options, typeEq, -⟩ := fieldBuilt
    cases nameEq
    rw [looked] at typeEq
    cases typeEq
    exact ⟨_, _, _, rfl, found.exactBits_instantiated typeDebug options⟩
  cases fieldsBuilt with
  | @cons _ first _ _ firstBuilt rest =>
      cases rest with
      | @cons _ second _ _ secondBuilt none =>
          cases none
          obtain ⟨_, _, _, rfl, firstBits⟩ := held firstBuilt
          obtain ⟨_, _, _, rfl, secondBits⟩ := held secondBuilt
          exact ⟨_, _, _, _, _, _, statements, firstBits, secondBits⟩

theorem doublings_isPair {types : List TypeDefinition} (count level start : Nat)
    {previous : String} {found : TypeInfoBase} (looked : lookupType types previous = some found)
    (lower : ∀ name ∈ types.map TypeDefinition.aliasName, ∃ other < level, name = levelName other)
    {built : List TypeDefinition}
    (all : BuiltAll types
      ((doublings count level start previous).map GlobalDefinitionContext.decl) built) :
    built.length = count ∧ ∀ (index : Nat) (type : TypeDefinition),
      built[index]? = some type → type.IsPair (found.exactBits * 2 ^ index) := by
  induction count generalizing types level start previous found built with
  | zero =>
      rw [show built = [] from all]
      exact ⟨rfl, nofun⟩
  | succ count inductionHypothesis =>
      rw [doublings, List.map_cons, twice_decl] at all
      obtain ⟨type, rest, rfl, first, restBuilt⟩ := all
      have pair := first.isPair looked
      have name : type.aliasName = levelName level := first.1
      have fresh : type.aliasName ∉ types.map TypeDefinition.aliasName := by
        intro repeated
        obtain ⟨other, below, same⟩ := lower _ repeated
        exact absurd (levelName_injective (name.symm.trans same)) (Nat.ne_of_gt below)
      have next := lookupType_concat fresh
      rw [name] at next
      obtain ⟨length, levels⟩ := inductionHypothesis (level + 1) _ next (by
        rw [List.map_append, List.map_singleton, name, List.forall_mem_append,
          List.forall_mem_singleton]
        refine ⟨?_, level, Nat.lt_succ_self level, rfl⟩
        intro other membership
        obtain ⟨lowerLevel, below, same⟩ := lower other membership
        exact ⟨lowerLevel, Nat.lt_succ_of_lt below, same⟩) restBuilt
      refine ⟨congrArg Nat.succ length, ?_⟩
      intro index reached membership
      cases index with
      | zero =>
          cases membership
          rwa [Nat.pow_zero, Nat.mul_one]
      | succ index =>
          have later := levels index reached membership
          rw [TypeInfoBase.exactBits, pair.exactBits] at later
          rwa [Nat.pow_succ, ← Nat.mul_assoc, Nat.mul_right_comm, Nat.mul_comm _ 2]

/-- Doublings are accepted in any number, so sizes grow exponentially. -/
theorem doublings_accepted (count : Nat) :
    ∃ types reported,
      parseDefinitionFile (fun _ => { result := .ok ⟨doublings count 0 0 "int64"⟩ }) ""
        (textBytes (doublingsText count 0 "int64")) [] {} = .ok (true, types, reported) ∧
      types.length = count ∧ ∀ (index : Nat) (type : TypeDefinition),
        types[index]? = some type → type.WellFormed ∧ type.IsPair (64 * 2 ^ index) := by
  obtain ⟨complete, numeric⟩ := doublings_complete count 0 0 "int64"
  let recognize : Recognizer := fun _ => { result := .ok ⟨doublings count 0 0 "int64"⟩ }
  let text := textBytes (doublingsText count 0 "int64")
  have located : (recognize text).Located := nofun
  have tree : (recognize text).result = .ok ⟨doublings count 0 0 "int64"⟩ := rfl
  have fits : DeclsFit [] (MainContext.decls ⟨doublings count 0 0 "int64"⟩) :=
    doublings_fit count 0 0 nofun (Or.inr (by decide))
  obtain ⟨types, notified, infos, parsed, unnotified, built, clean⟩ :=
    parseDefinitionFile_tree "" [] {} located tree (complete.walkable numeric)
  have noErrors : (ErrorCollection.addAll {} (notified ++ infos)).hasErrors = false := by
    rw [ErrorCollection.addAll_hasErrors, noErrors_append, unnotified, clean]
    exact ⟨rfl, rfl, fits⟩
  rw [noErrors] at parsed
  have wellFormed := built.wellFormed (List.forall_mem_nil _) fits
  have looked : lookupType [] "int64" = some (.builtIn "int64" 64 .signed) := rfl
  obtain ⟨length, levels⟩ := doublings_isPair count 0 0 looked nofun built
  exact ⟨types, _, parsed, length, fun index type found =>
    ⟨wellFormed type (List.mem_of_getElem? found), levels index type found⟩⟩

/-- The 59th doubling has 2 ^ 65 bits, a static size of no bits, and two fields that are not
empty at the same offset. -/
theorem accepted_sizes_wrap :
    ∃ types reported type size object first second,
      parseDefinitionFile (fun _ => { result := .ok ⟨doublings 59 0 0 "int64"⟩ }) ""
        (textBytes (doublingsText 59 0 "int64")) [] {} = .ok (true, types, reported) ∧
      type ∈ types ∧ type.staticSize = some size ∧ size.bitCount ≠ type.exactBits ∧
      FileObject.reparseObject { type, startPosition := .zero } {} = .ok (true, object, {}) ∧
      object.parsedFields[0]? = some first ∧ object.parsedFields[1]? = some second ∧
      0 < first.type.exactBits ∧ second.offset = first.offset := by
  obtain ⟨types, reported, parsed, length, levels⟩ := doublings_accepted 59
  obtain ⟨type, found⟩ : ∃ type, types[58]? = some type :=
    ⟨_, List.getElem?_eq_getElem (by omega)⟩
  obtain ⟨wellFormed, pair⟩ := levels 58 type found
  have bits := pair.exactBits
  obtain ⟨_, _, first, second, _, _, statements, firstBits, secondBits⟩ := pair
  have laidOut : layOut .zero type.statements =
      [{ name := "x", type := first, offset := .zero },
        { name := "y", type := second, offset := .zero }] := by
    rw [statements]
    simp only [layOut, firstBits]
    rfl
  refine ⟨types, reported, type, _, _, _, _, parsed, List.mem_of_getElem? found,
    wellFormed.staticSize, ?_, FileObject.reparseObject_spec wellFormed {},
    congrArg (fun infos => infos[0]?) laidOut, congrArg (fun infos => infos[1]?) laidOut, ?_, rfl⟩
  · rw [Size.bitCount_fromBits, bits]
    decide
  · rw [firstBits]
    decide

end Doubling

end BinaryReader

import BinaryReader.Parser.Meaning.Mirrors
import BinaryReader.Public.FileObject.Soundness

/-!
# Fields come to what they mean

An object of an accepted definition comes, for each name, to what the reference
layout says of the field: the offsets are the exact ones and the integers are
those that the bytes denote.
-/

namespace BinaryReader

theorem Mirrors.cons_inversion {decl : TypeDecl} {earlier : Scope} {all : List TypeDefinition}
    (mirrors : Mirrors (decl :: earlier) all) :
    ∃ types type, all = types ++ [type] ∧ Mirrors earlier types ∧ Built types decl type ∧
      (∀ field ∈ decl.fields, FieldFits (types.map TypeDefinition.aliasName) field) ∧
      (decl.fields.map FieldDecl.name).Nodup := by
  cases mirrors with
  | cons mirrors built fits distinct fresh => exact ⟨_, _, rfl, mirrors, built, fits, distinct⟩

/-- A type that has the fields of the first declaration of a scope. -/
def Represents (scope : Scope) (type : TypeDefinition) : Prop :=
  ∃ decl earlier types fields, scope = decl :: earlier ∧ type.aliasName = decl.name ∧
    Mirrors earlier types ∧ type.statements = fields.map .field ∧
    List.Forall₂ (Holds types) decl.fields fields ∧ (decl.fields.map FieldDecl.name).Nodup

theorem Mirrors.represents {decl : TypeDecl} {earlier : Scope} {front : List TypeDefinition}
    {original type : TypeDefinition} (mirrors : Mirrors (decl :: earlier) (front ++ [original]))
    (name : type.aliasName = decl.name) (statements : type.statements = original.statements) :
    Represents (decl :: earlier) type := by
  obtain ⟨types, last, same, earlierMirrors, built, fits, distinct⟩ := mirrors.cons_inversion
  obtain ⟨fields, lastStatements, holds⟩ := built.holds fits
  obtain ⟨rfl, lastEq⟩ := List.append_inj' same rfl
  cases lastEq
  exact ⟨decl, earlier, front, fields, rfl, name, earlierMirrors, statements.trans lastStatements,
    holds, distinct⟩

/-- An object that lies at a byte and ends in front of the last bit that can be addressed. -/
structure Placed (scope : Scope) (start : Nat) (type : TypeDefinition) (startPosition : Size) :
    Prop where
  represents : Represents scope type
  position : startPosition.bitCount = 8 * start
  bounded : 8 * (start + Scope.bytes scope) < 2 ^ 64

theorem placed_root {decls : List TypeDecl} {name : String} {type : TypeDefinition}
    (represents : Represents (Scope.root decls name) type) (bounded : SizesBounded decls) :
    Placed (Scope.root decls name) 0 type .zero := by
  refine ⟨represents, rfl, ?_⟩
  have suffix_ := Scope.root_suffix decls name
  obtain ⟨decl, earlier, _, _, scopeEq, -⟩ := id represents
  rw [scopeEq] at suffix_
  rw [Nat.zero_add, scopeEq]
  exact bounded decl earlier suffix_

def Means : Meaning → Except ErrorInfo Sight → Prop
  | .null, .ok .null => True
  | .integer value, .ok (.number number) => number.toInt? = some value
  | .endOfStream, .error info => info.kind = .unexpectedEndOfStream
  | .object scope start, .ok (.object type startPosition) => Placed scope start type startPosition
  | _, _ => False

theorem locate_eq_none {earlier : Scope} {name : String} {decls : List FieldDecl} {start : Nat} :
    Scope.locate earlier name decls start = none ↔ name ∉ decls.map FieldDecl.name := by
  induction decls generalizing start with
  | nil => exact iff_of_true rfl nofun
  | cons decl decls inductionHypothesis =>
      rw [Scope.locate, List.map_cons, List.mem_cons, not_or]
      by_cases same : decl.name = name
      · simp [same]
      · rw [if_neg same, inductionHypothesis]
        exact ⟨fun absent => ⟨Ne.symm same, absent⟩, And.right⟩

section Located

variable {types : List TypeDefinition} {earlier : Scope}

structure FieldAt (types : List TypeDefinition) (earlier : Scope) (infos : List ParsedFieldInfo)
    (name : String) (place : Nat) (decl : FieldDecl) (index : Nat) (info : ParsedFieldInfo) :
    Prop where
  last : lastIndexOf name infos = some index
  found : infos[index]? = some info
  position : info.offset.bitCount = 8 * place
  type : ∃ debug held, lookupType types decl.typeName = some held ∧
    info.type = held.instantiated debug (appliedOptions decl.options)

theorem FieldAt.later {infos : List ParsedFieldInfo} {name : String} {place : Nat}
    {decl : FieldDecl} {index : Nat} {info : ParsedFieldInfo}
    (field : FieldAt types earlier infos name place decl index info) (first : ParsedFieldInfo) :
    FieldAt types earlier (first :: infos) name place decl (index + 1) info where
  last := by rw [lastIndexOf, field.last]
  found := field.found
  position := field.position
  type := field.type

/-- Every name is found at its place in the reference layout, or nowhere. -/
theorem layOut_located (sizes : SizesMirror types earlier) {decls : List FieldDecl}
    {fields : List FieldInfo} (holds : List.Forall₂ (Holds types) decls fields)
    (distinct : (decls.map FieldDecl.name).Nodup) {offset : Size} {start : Nat}
    (position : offset.bitCount = 8 * start)
    (bounded : 8 * (start + Scope.sumOf earlier decls) < 2 ^ 64) (name : String) :
    (Scope.locate earlier name decls start = none →
      lastIndexOf name (layOut offset (fields.map .field)) = none) ∧
    ∀ place decl, Scope.locate earlier name decls start = some (place, decl) →
      place + Scope.bytesOf earlier decl.typeName ≤ start + Scope.sumOf earlier decls ∧
      ∃ index info, FieldAt types earlier (layOut offset (fields.map .field)) name place decl
        index info := by
  induction holds generalizing offset start with
  | nil =>
      constructor
      · intro _
        rfl
      · intro place decl located
        cases located
  | @cons decl field decls fields fieldHolds _ inductionHypothesis =>
      obtain ⟨_, debug, held, _, looked, rfl⟩ := fieldHolds
      obtain ⟨unique, restDistinct⟩ := List.nodup_cons.mp distinct
      have sum : Scope.sumOf earlier (decl :: decls) =
          Scope.bytesOf earlier decl.typeName + Scope.sumOf earlier decls := by
        rw [Scope.sumOf, List.map_cons, List.sum_cons, Scope.sumOf]
      rw [sum, ← Nat.add_assoc] at bounded
      have size := sizes _ _ looked
      have next : (offset.addAssign (.fromBits (held.instantiated debug
          (appliedOptions decl.options)).exactBits)).bitCount =
            8 * (start + Scope.bytesOf earlier decl.typeName) := by
        rw [Size.bitCount_addAssign, Size.bitCount_fromBits, held.exactBits_instantiated, size,
          position]
        omega
      obtain ⟨missing, located⟩ := inductionHypothesis restDistinct next bounded
      rw [List.map_cons, layOut, sum, ← Nat.add_assoc]
      by_cases same : decl.name = name
      · have absent := missing (locate_eq_none.mpr (same ▸ unique))
        rw [Scope.locate, if_pos same]
        constructor
        · intro missing
          cases missing
        · intro place other found
          cases found
          refine ⟨Nat.le_add_right _ _, 0, _, ?_, rfl, position, debug, held, looked, rfl⟩
          rw [lastIndexOf, absent]
          exact if_pos same
      · rw [Scope.locate, if_neg same]
        constructor
        · intro none
          rw [lastIndexOf, missing none]
          exact if_neg same
        · intro place other found
          obtain ⟨inside, index, info, field⟩ := located place other found
          exact ⟨inside, index + 1, info, field.later _⟩

end Located

theorem instantiated_builtIn (field : FieldDecl) (debug : DebugInfo) (name : String)
    {format : Nat × Bool} (small : format.1 ≤ 8) :
    ∃ info, (builtInOf name format).instantiated debug (appliedOptions field.options) =
        .integer info ∧ info.size.bitCount = 8 * format.1 ∧
      ∀ bytes, bytes.length = format.1 → info.denoted bytes = field.integer format.2 bytes := by
  obtain ⟨width, signed⟩ := format
  have size : (Size.fromBits (8 * width)).bitCount = 8 * width :=
    Size.bitCount_fromBits_of_lt (by omega)
  refine ⟨_, rfl, size, ?_⟩
  intro bytes length
  simp only [IntegerTypeInfo.denoted, FieldDecl.integer, getSignedness_applied,
    getByteOrder_applied, size, length]
  cases field.isSigned signed with
  | true => rfl
  | false => rfl

/-- What an object comes to for a name is what the reference layout says of the name. -/
theorem fieldOutcome_means (contents : List UInt8) {scope : Scope} {start : Nat}
    {type : TypeDefinition} {startPosition : Size}
    (placed : Placed scope start type startPosition) (name : String) :
    ∃ outcome, fieldOutcome contents type startPosition name = .ok outcome ∧
      Means (fieldMeaning contents scope start name) outcome := by
  obtain ⟨decl, earlier, types, fields, rfl, -, mirrors, statements, holds, distinct⟩ :=
    placed.represents
  have bounded := placed.bounded
  rw [Scope.bytes] at bounded
  obtain ⟨missing, located⟩ :=
    layOut_located mirrors.sizes holds distinct placed.position bounded name
  rw [← statements] at missing located
  rw [fieldOutcome, fieldMeaning]
  rcases at_ : Scope.locate earlier name decl.fields start with _ | ⟨place, field⟩
  · rw [missing at_]
    exact ⟨_, rfl, trivial⟩
  · obtain ⟨inside, index, info, found⟩ := located place field at_
    rw [found.last]
    dsimp only
    rw [load_of_getElem? found.found, Checked.ok_bind]
    obtain ⟨debug, held, looked, typeEq⟩ := found.type
    rw [typeEq]
    rcases mirrors.lookup field.typeName with
      ⟨inner, innerEarlier, front, original, find, innerMirrors, innerName, innerLooked⟩ |
      ⟨find, builtIn⟩
    · cases innerLooked.symm.trans looked
      obtain ⟨bytes, -⟩ := Scope.bytes_find find
      rw [find]
      refine ⟨_, rfl, innerMirrors.represents innerName rfl, found.position, ?_⟩
      rw [bytes]
      omega
    · obtain ⟨format, formatEq, rfl⟩ := Option.map_eq_some_iff.mp (builtIn.symm.trans looked)
      obtain ⟨positive, small⟩ := width_of_lookup formatEq
      obtain ⟨info, infoEq, size, denoted⟩ :=
        instantiated_builtIn field debug field.typeName small
      rw [find, formatEq, infoEq, outcomeAt, found.position]
      dsimp only [Option.elim, integerMeaning]
      by_cases outside : contents.length < place + format.1
      · rw [if_pos outside, IntegerTypeInfo.valueAt_pastEnd size small outside]
        exact ⟨_, rfl, rfl⟩
      · obtain ⟨number, value, denotes⟩ :=
          IntegerTypeInfo.valueAt_denoted size positive small (Nat.le_of_not_lt outside)
        rw [if_neg outside, value]
        refine ⟨_, rfl, denotes.trans (congrArg some (denoted _ ?_))⟩
        rw [List.length_take, List.length_drop]
        omega

end BinaryReader

import BinaryReader.Ast.IntegerTypeInfo.Denotation
import BinaryReader.Parser.Acceptance
import BinaryReader.Parser.Meaning

/-!
# Types mirror their declarations

The types that the visitor builds for an accepted definition hold what the
declarations say: the same names, the exact sizes and the formats of integers.
-/

namespace BinaryReader

section Formats

def builtInOf (name : String) (format : Nat × Bool) : TypeInfoBase :=
  .builtIn name (8 * format.1) (if format.2 then .signed else .unsigned)

theorem getBuiltInTypes_eq :
    TypeInfoBase.getBuiltInTypes = builtInFormats.map fun entry => builtInOf entry.1 entry.2 := rfl

theorem find_builtIn (name : String) :
    (TypeInfoBase.getBuiltInTypes.find? fun type => type.aliasName = name) =
      (builtInFormats.lookup name).map (builtInOf name) := by
  rw [getBuiltInTypes_eq]
  induction builtInFormats with
  | nil => rfl
  | cons entry formats inductionHypothesis =>
      obtain ⟨id, format⟩ := entry
      have alias_ : (builtInOf id format).aliasName = id := rfl
      rw [List.map_cons, List.find?_cons, List.lookup_cons, alias_]
      by_cases same : id = name
      · subst same
        simp
      · have different : (name == id) = false := beq_eq_false_iff_ne.mpr (Ne.symm same)
        simp only [same, decide_false, different]
        exact inductionHypothesis

theorem width_of_lookup {name : String} {format : Nat × Bool}
    (found : builtInFormats.lookup name = some format) : 1 ≤ format.1 ∧ format.1 ≤ 8 := by
  have bounds : ∀ entry ∈ builtInFormats, 1 ≤ entry.2.1 ∧ entry.2.1 ≤ 8 := by decide
  obtain ⟨id, membership⟩ : ∃ id, (id, format) ∈ builtInFormats := by
    generalize builtInFormats = formats at found
    induction formats with
    | nil => cases found
    | cons entry formats inductionHypothesis =>
        rw [List.lookup_cons] at found
        split at found
        · cases found
          exact ⟨entry.1, List.mem_cons_self ..⟩
        · obtain ⟨id, membership⟩ := inductionHypothesis found
          exact ⟨id, List.mem_cons_of_mem _ membership⟩
  exact bounds _ membership

end Formats

section Options

theorem namedValue_cases (decl : OptionDecl) :
    (∃ signed : Bool, decl.signed? = some signed ∧ decl.little? = none ∧
        namedValue decl.value = some (.signedness (if signed then .signed else .unsigned))) ∨
      (∃ little : Bool, decl.signed? = none ∧ decl.little? = some little ∧
        namedValue decl.value = some (.byteOrder (if little then .littleEndian else .bigEndian))) ∨
      (decl.signed? = none ∧ decl.little? = none ∧ namedValue decl.value = none) := by
  unfold OptionDecl.signed? OptionDecl.little? namedValue
  by_cases signed : decl.value = "signed"
  · exact Or.inl ⟨true, by simp [signed]⟩
  by_cases unsigned : decl.value = "unsigned"
  · exact Or.inl ⟨false, by simp [unsigned]⟩
  by_cases big : decl.value = "big" ∨ decl.value = "network"
  · exact Or.inr (Or.inl ⟨false, by simp [signed, unsigned, big]⟩)
  by_cases little : decl.value = "little"
  · exact Or.inr (Or.inl ⟨true, by simp [little]⟩)
  · exact Or.inr (Or.inr (by simp [signed, unsigned, big, little]))

theorem getLast?_cons_elim {α β : Type} (value : α) (values : List α) (default : β)
    (next : α → β) :
    (value :: values).getLast?.elim default next = values.getLast?.elim (next value) next := by
  rw [List.getLast?_cons]
  cases values.getLast? with
  | none => rfl
  | some last => rfl

theorem foldl_set (decls : List OptionDecl) (options : Options) :
    ((decls.filterMap fun decl => namedValue decl.value).foldl Options.set options).signedness =
        (decls.filterMap OptionDecl.signed?).getLast?.elim options.signedness
          (fun signed => if signed then .signed else .unsigned) ∧
      ((decls.filterMap fun decl => namedValue decl.value).foldl Options.set options).byteOrder =
        (decls.filterMap OptionDecl.little?).getLast?.elim options.byteOrder
          (fun little => if little then .littleEndian else .bigEndian) := by
  induction decls generalizing options with
  | nil => exact ⟨rfl, rfl⟩
  | cons decl decls inductionHypothesis =>
      rcases namedValue_cases decl with ⟨value, signed, little, named⟩ |
        ⟨value, signed, little, named⟩ | ⟨signed, little, named⟩
      · simp only [List.filterMap_cons, signed, little, named, List.foldl_cons, getLast?_cons_elim]
        exact inductionHypothesis (options.set _)
      · simp only [List.filterMap_cons, signed, little, named, List.foldl_cons, getLast?_cons_elim]
        exact inductionHypothesis (options.set _)
      · simp only [List.filterMap_cons, signed, little, named]
        exact inductionHypothesis options

theorem getSignedness_applied (field : FieldDecl) (builtIn : Bool) :
    (appliedOptions field.options).getSignedness (if builtIn then .signed else .unsigned) =
      if field.isSigned builtIn then .signed else .unsigned := by
  rw [Options.getSignedness, appliedOptions, (foldl_set field.options {}).1, FieldDecl.isSigned]
  rcases (field.options.filterMap OptionDecl.signed?).getLast? with _ | _ | _ <;> rfl

theorem getByteOrder_applied (field : FieldDecl) :
    (appliedOptions field.options).getByteOrder .unset = .littleEndian ↔ field.isLittle = true := by
  rw [Options.getByteOrder, appliedOptions, (foldl_set field.options {}).2, FieldDecl.isLittle]
  rcases (field.options.filterMap OptionDecl.little?).getLast? with _ | _ | _ <;> decide

end Options

/-- The types of a definition mirror its declarations, the latest of which is the first one
of the scope. -/
inductive Mirrors : Scope → List TypeDefinition → Prop where
  | nil : Mirrors [] []
  | cons {earlier : Scope} {types : List TypeDefinition} {decl : TypeDecl}
      {type : TypeDefinition} (mirrors : Mirrors earlier types) (built : Built types decl type)
      (fits : ∀ field ∈ decl.fields, FieldFits (types.map TypeDefinition.aliasName) field)
      (distinct : (decl.fields.map FieldDecl.name).Nodup)
      (fresh : decl.name ∉ types.map TypeDefinition.aliasName) :
      Mirrors (decl :: earlier) (types ++ [type])

/-- A field that holds the type of its declaration with the options of the declaration. -/
def Holds (types : List TypeDefinition) (decl : FieldDecl) (field : FieldInfo) : Prop :=
  ∃ debug typeDebug found expected, lookupType types decl.typeName = some found ∧
    field = .mk debug decl.name
      (some (found.instantiated typeDebug (appliedOptions decl.options))) expected

theorem FieldBuilt.holds {types : List TypeDefinition} {decl : FieldDecl} {field : FieldInfo}
    (built : FieldBuilt types decl field)
    (fits : FieldFits (types.map TypeDefinition.aliasName) decl) : Holds types decl field := by
  obtain ⟨debug, name, type, expected⟩ := field
  obtain ⟨rfl, typeDebug, options, typeEq, applied⟩ := built
  obtain ⟨validOptions, valid, -⟩ := id fits
  rw [optionTypesOf_eq] at valid
  obtain ⟨found, looked, -⟩ := Option.map_eq_some_iff.mp valid
  have typed : type = some (found.instantiated typeDebug (appliedOptions decl.options)) := by
    rw [← applied fits]
    exact typeEq.trans (by rw [looked]; rfl)
  exact ⟨debug, typeDebug, found, expected, looked, by rw [typed]⟩

theorem Built.holds {types : List TypeDefinition} {decl : TypeDecl} {type : TypeDefinition}
    (built : Built types decl type)
    (fits : ∀ field ∈ decl.fields, FieldFits (types.map TypeDefinition.aliasName) field) :
    ∃ fields : List FieldInfo, type.statements = fields.map .field ∧
      List.Forall₂ (Holds types) decl.fields fields := by
  obtain ⟨-, fields, statements, fieldsBuilt⟩ := built
  refine ⟨fields, statements, ?_⟩
  generalize decl.fields = decls at fits fieldsBuilt
  clear statements
  induction fieldsBuilt with
  | nil => exact .nil
  | cons fieldBuilt _ inductionHypothesis =>
      obtain ⟨first, rest⟩ := List.forall_mem_cons.mp fits
      exact .cons (fieldBuilt.holds first) (inductionHypothesis rest)

/-- The declarations of an accepted definition are mirrored by its types. -/
theorem BuiltAll.mirrors {scope : Scope} {types : List TypeDefinition}
    (mirrors : Mirrors scope types) {decls : List TypeDecl} {built : List TypeDefinition}
    (all : BuiltAll types decls built)
    (fits : DeclsFit (types.map TypeDefinition.aliasName) decls) :
    Mirrors (decls.reverse ++ scope) (types ++ built) := by
  induction decls generalizing scope types built with
  | nil =>
      rw [show built = [] from all, List.append_nil]
      exact mirrors
  | cons decl decls inductionHypothesis =>
      obtain ⟨type, rest, rfl, first, restBuilt⟩ := all
      obtain ⟨fields, fresh, -, restFits⟩ := fits
      obtain ⟨fieldFits, distinct, -⟩ := fieldsFit_iff.mp fields
      have next := mirrors.cons first fieldFits distinct fresh
      rw [← first.1] at restFits
      rw [← List.map_singleton, ← List.map_append] at restFits
      have last := inductionHypothesis next restBuilt restFits
      rwa [List.append_assoc, List.singleton_append, List.append_cons, ← List.reverse_cons] at last

/-- A name stands for the latest declaration that has it, or for a built-in type. -/
theorem Mirrors.lookup {scope : Scope} {types : List TypeDefinition}
    (mirrors : Mirrors scope types) (name : String) :
    (∃ decl earlier front type, Scope.find scope name = decl :: earlier ∧
        Mirrors (decl :: earlier) (front ++ [type]) ∧ type.aliasName = decl.name ∧
        lookupType types name = some (.definition type)) ∨
      (Scope.find scope name = [] ∧
        lookupType types name = (builtInFormats.lookup name).map (builtInOf name)) := by
  induction mirrors with
  | nil => exact Or.inr ⟨rfl, find_builtIn name⟩
  | @cons earlier types decl type mirrors built fits distinct fresh inductionHypothesis =>
      by_cases same : decl.name = name
      · subst same
        refine Or.inl ⟨decl, earlier, types, type, ?_, mirrors.cons built fits distinct fresh,
          built.1, ?_⟩
        · rw [Scope.find, List.dropWhile_cons, if_neg (by simp)]
        · rw [← built.1] at fresh ⊢
          exact lookupType_concat fresh
      · have find : Scope.find (decl :: earlier) name = Scope.find earlier name := by
          rw [Scope.find, List.dropWhile_cons, if_pos (by simpa using same), Scope.find]
        rw [find, lookupType_concat_of_ne (built.1.trans_ne same)]
        exact inductionHypothesis

section Sizes

variable {types : List TypeDefinition} {earlier : Scope}

def SizesMirror (types : List TypeDefinition) (scope : Scope) : Prop :=
  ∀ name type, lookupType types name = some type → type.exactBits = 8 * Scope.bytesOf scope name

theorem sumBits_of_holds (sizes : SizesMirror types earlier) {decls : List FieldDecl}
    {fields : List FieldInfo} (holds : List.Forall₂ (Holds types) decls fields) :
    sumBits (fields.map .field) = 8 * Scope.sumOf earlier decls := by
  induction holds with
  | nil => rfl
  | @cons decl field decls fields fieldHolds _ inductionHypothesis =>
      obtain ⟨_, typeDebug, found, _, looked, rfl⟩ := fieldHolds
      rw [List.map_cons, sumBits, found.exactBits_instantiated, sizes _ _ looked,
        inductionHypothesis, Scope.sumOf, Scope.sumOf, List.map_cons, List.sum_cons, Nat.mul_add]

theorem Built.exactBits {decl : TypeDecl} {type : TypeDefinition}
    (sizes : SizesMirror types earlier) (built : Built types decl type)
    (fits : ∀ field ∈ decl.fields, FieldFits (types.map TypeDefinition.aliasName) field) :
    type.exactBits = 8 * Scope.bytes (decl :: earlier) := by
  obtain ⟨fields, statements, holds⟩ := built.holds fits
  obtain ⟨_, _, _⟩ := type
  cases statements
  exact sumBits_of_holds sizes holds

theorem Mirrors.sizes {scope : Scope} (mirrors : Mirrors scope types) :
    SizesMirror types scope := by
  induction mirrors with
  | nil =>
      intro name type looked
      have found : (builtInFormats.lookup name).map (builtInOf name) = some type :=
        (find_builtIn name).symm.trans looked
      obtain ⟨format, formatEq, rfl⟩ := Option.map_eq_some_iff.mp found
      have width := width_of_lookup formatEq
      rw [Scope.bytesOf, formatEq]
      change (Size.fromBits (8 * format.1)).bitCount = 8 * format.1
      exact Size.bitCount_fromBits_of_lt (by omega)
  | @cons earlier types decl type _ built fits _ fresh inductionHypothesis =>
      intro name found looked
      rw [Scope.bytesOf]
      by_cases same : decl.name = name
      · subst same
        rw [← built.1] at fresh looked
        rw [lookupType_concat fresh] at looked
        cases looked
        rw [if_pos rfl]
        exact built.exactBits inductionHypothesis fits
      · rw [lookupType_concat_of_ne (built.1.trans_ne same)] at looked
        rw [if_neg same]
        exact inductionHypothesis name found looked

end Sizes

theorem oneField_bounded (column : Nat) : SizesBounded (oneField none column).decls := by
  rintro decl earlier ⟨front, split⟩
  cases front with
  | nil =>
      cases split
      show 8 * Scope.bytes [⟨"a", [⟨"byte", [], "x"⟩]⟩] < 2 ^ 64
      decide
  | cons head front => simp [MainContext.decls, oneField] at split

theorem nestedTypes_decls :
    nestedTypes.decls =
      [⟨"a", [⟨"byte", [], "x"⟩]⟩, ⟨"b", [⟨"a", [], "y"⟩, ⟨"byte", [], "z"⟩]⟩] := rfl

theorem nestedTypes_bounded : SizesBounded nestedTypes.decls := by
  rw [nestedTypes_decls]
  rintro decl earlier suffix_
  rcases List.suffix_cons_iff.mp suffix_ with same | behind
  · cases same
    decide
  · rcases List.suffix_cons_iff.mp behind with same | none
    · cases same
      decide
    · cases List.suffix_nil.mp none

end BinaryReader

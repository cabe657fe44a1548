import BinaryReader.Parser.Declarations

/-!
# Which declarations are accepted

A declaration fits behind the type names that are defined in front of it.  What
fits depends on the declarations alone, and not on their places in the text.
-/

namespace BinaryReader

namespace OptionDecl

def type (decl : OptionDecl) : OptionType := (decl.name.map namedType).getD .unknown

def NameKnown (decl : OptionDecl) : Prop := ∀ name ∈ decl.name, namedType name ≠ .unknown

instance (decl : OptionDecl) : Decidable decl.NameKnown :=
  inferInstanceAs (Decidable (∀ name ∈ decl.name, namedType name ≠ .unknown))

def key (decl : OptionDecl) : OptionType × UtfString := (decl.type, ⟨textUnits decl.value⟩)

def resolve (validOptions : List OptionType) (decl : OptionDecl) : Option OptionValue :=
  match namedValue decl.value with
  | some value =>
      if (decl.type = .unknown ∨ decl.type = value.type) ∧
          (validOptions = [] ∨ value.type ∈ validOptions) then some value else none
  | none => none

end OptionDecl

def explicitTypes (decls : List OptionDecl) : List OptionType :=
  (decls.map OptionDecl.type).filter fun type => decide (type ≠ .unknown)

/-- An option list without an error, where the given option types are valid. -/
structure OptionsFit (validOptions : List OptionType) (decls : List OptionDecl) : Prop where
  known : ∀ decl ∈ decls, decl.NameKnown
  distinct : (explicitTypes decls).Nodup
  resolved : ∀ decl ∈ decls, (decl.resolve validOptions).isSome

/-- Offer options to a set one after another: whether each was taken, and the set. -/
def offerAll : List OptionDecl → OptionSet → Bool × OptionSet
  | [], set => (true, set)
  | decl :: decls, set =>
      let (taken, set, _) := set.addStatic {} decl.type ⟨textUnits decl.value⟩ {}
      let (rest, set) := offerAll decls set
      (taken && rest, set)

/-- A new option set takes every option of a list, and builds the options of a type. -/
def OptionsAccepted (validOptions : List OptionType) (decls : List OptionDecl) : Prop :=
  (offerAll decls {}).1 = true ∧ ∃ options errors,
    (offerAll decls {}).2.buildStaticOptions validOptions {} {} = .ok (true, options, errors)

theorem offerAll_spec (decls : List OptionDecl) (set : OptionSet) :
    ((offerAll decls set).1 = true ↔ (explicitTypes decls).Nodup ∧
        ∀ type ∈ explicitTypes decls, type ∉ set.optionTypes) ∧
      ((offerAll decls set).1 = true → (offerAll decls set).2.options =
        set.options ++ decls.map fun decl => ⟨{}, decl.type, ⟨textUnits decl.value⟩⟩) := by
  induction decls generalizing set with
  | nil => simp [offerAll, explicitTypes]
  | cons decl decls inductionHypothesis =>
      rw [offerAll, OptionSet.addStatic]
      by_cases untyped : decl.type = .unknown
      · have same : explicitTypes (decl :: decls) = explicitTypes decls := by
          simp [explicitTypes, untyped]
        obtain ⟨taken, stored⟩ := inductionHypothesis { set with
          options := set.options ++ [⟨{}, decl.type, ⟨textUnits decl.value⟩⟩] }
        rw [same, if_pos untyped]
        dsimp only
        rw [Bool.true_and]
        refine ⟨taken, ?_⟩
        intro all
        rw [stored all, List.append_assoc]
        rfl
      · have typed : explicitTypes (decl :: decls) = decl.type :: explicitTypes decls := by
          simp [explicitTypes, untyped]
        rw [typed, if_neg untyped, List.nodup_cons, List.forall_mem_cons]
        by_cases duplicate : decl.type ∈ set.optionTypes
        · rw [if_pos duplicate]
          simp [duplicate]
        · obtain ⟨taken, stored⟩ := inductionHypothesis
            { options := set.options ++ [⟨{}, decl.type, ⟨textUnits decl.value⟩⟩]
              optionTypes := decl.type :: set.optionTypes }
          rw [if_neg duplicate]
          dsimp only
          rw [Bool.true_and]
          refine ⟨taken.trans ?_, ?_⟩
          · simp only [List.mem_cons, not_or]
            constructor
            · rintro ⟨distinct, apart⟩
              exact ⟨⟨fun again => (apart _ again).1 rfl, distinct⟩, duplicate,
                fun type membership => (apart type membership).2⟩
            · rintro ⟨⟨fresh, distinct⟩, -, apart⟩
              refine ⟨distinct, fun type membership => ⟨?_, apart type membership⟩⟩
              rintro rfl
              exact fresh membership
          · intro all
            rw [stored all, List.append_assoc]
            rfl

/-- The option set accepts a list whose explicit types differ and whose options resolve. -/
theorem optionsAccepted_iff {validOptions : List OptionType} {decls : List OptionDecl} :
    OptionsAccepted validOptions decls ↔
      (explicitTypes decls).Nodup ∧ ∀ decl ∈ decls, (decl.resolve validOptions).isSome := by
  obtain ⟨taken, stored⟩ := offerAll_spec decls {}
  have distinct : (offerAll decls {}).1 = true ↔ (explicitTypes decls).Nodup := by
    simpa using taken
  obtain ⟨infos, -, resolved, built⟩ :=
    (offerAll decls {}).2.buildStaticOptions_spec validOptions {} {}
  rw [OptionsAccepted, built, distinct]
  apply and_congr_right
  intro nodup
  rw [stored (distinct.mpr nodup), List.nil_append, List.forall_mem_map] at resolved
  have accepted : (∃ options errors, (Except.ok (infos.isEmpty, OptionSet.applied validOptions
      (offerAll decls {}).2.options {}, ErrorCollection.addAll {} infos) :
        Checked (Bool × Options × ErrorCollection)) = .ok (true, options, errors)) ↔
      infos = [] := by
    rw [← List.isEmpty_iff]
    simp
  rw [accepted, resolved]
  apply forall₂_congr
  intro decl _
  rw [OptionSet.resolve, OptionDecl.resolve, named_text]
  rcases namedValue decl.value with _ | value <;> rfl

theorem optionsFit_iff {validOptions : List OptionType} {decls : List OptionDecl}
    (accepted : OptionsAccepted validOptions decls) :
    OptionsFit validOptions decls ↔ ∀ decl ∈ decls, decl.NameKnown :=
  ⟨OptionsFit.known, fun known =>
    ⟨known, (optionsAccepted_iff.mp accepted).1, (optionsAccepted_iff.mp accepted).2⟩⟩

def optionTypesOf (defined : List String) (name : String) : Option (List OptionType) :=
  if name ∈ defined then some []
  else if name ∈ builtInNames then some [.signedness, .byteOrder]
  else none

def FieldFits (defined : List String) (decl : FieldDecl) : Prop :=
  ∃ validOptions, optionTypesOf defined decl.typeName = some validOptions ∧
    OptionsFit validOptions decl.options

def FieldsFit (defined earlier : List String) : List FieldDecl → Prop
  | [] => True
  | decl :: decls =>
      FieldFits defined decl ∧ decl.name ∉ earlier ∧
        FieldsFit defined (earlier ++ [decl.name]) decls

def DeclsFit (defined : List String) : List TypeDecl → Prop
  | [] => True
  | decl :: decls =>
      FieldsFit defined [] decl.fields ∧ decl.name ∉ defined ∧ decl.name ∉ builtInNames ∧
        DeclsFit (defined ++ [decl.name]) decls

theorem fieldsFit_iff {defined earlier : List String} {decls : List FieldDecl} :
    FieldsFit defined earlier decls ↔
      (∀ decl ∈ decls, FieldFits defined decl) ∧ (decls.map FieldDecl.name).Nodup ∧
        ∀ decl ∈ decls, decl.name ∉ earlier := by
  induction decls generalizing earlier with
  | nil => simp [FieldsFit]
  | cons decl decls inductionHypothesis =>
      rw [FieldsFit, inductionHypothesis, List.forall_mem_cons, List.forall_mem_cons,
        List.map_cons, List.nodup_cons]
      simp only [List.mem_append, List.mem_singleton, not_or, List.mem_map, not_exists, not_and]
      constructor
      · rintro ⟨fits, fresh, rest, distinct, apart⟩
        exact ⟨⟨fits, rest⟩, ⟨fun other membership => (apart other membership).2, distinct⟩, fresh,
          fun other membership => (apart other membership).1⟩
      · rintro ⟨⟨fits, rest⟩, ⟨different, distinct⟩, fresh, apart⟩
        exact ⟨fits, fresh, rest, distinct,
          fun other membership => ⟨apart other membership, different other membership⟩⟩

structure Acceptable (defined : List String) (decls : List TypeDecl) : Prop where
  distinct : (decls.map TypeDecl.name).Nodup
  fresh : ∀ decl ∈ decls, decl.name ∉ defined ∧ decl.name ∉ builtInNames
  fieldsDistinct : ∀ decl ∈ decls, (decl.fields.map FieldDecl.name).Nodup
  fits : ∀ earlier decl later, decls = earlier ++ decl :: later →
    ∀ field ∈ decl.fields, FieldFits (defined ++ earlier.map TypeDecl.name) field

theorem declsFit_iff {defined : List String} {decls : List TypeDecl} :
    DeclsFit defined decls ↔ Acceptable defined decls := by
  induction decls generalizing defined with
  | nil => exact iff_of_true trivial ⟨List.nodup_nil, nofun, nofun, by simp⟩
  | cons decl decls inductionHypothesis =>
      rw [DeclsFit, fieldsFit_iff, inductionHypothesis]
      constructor
      · rintro ⟨⟨fields, fieldsDistinct, -⟩, fresh, notBuiltIn, rest⟩
        refine ⟨?_, ?_, ?_, ?_⟩
        · rw [List.map_cons, List.nodup_cons]
          refine ⟨?_, rest.distinct⟩
          intro repeated
          obtain ⟨other, membership, same⟩ := List.mem_map.mp repeated
          exact (rest.fresh other membership).1 (by simp [same])
        · refine List.forall_mem_cons.mpr ⟨⟨fresh, notBuiltIn⟩, fun other membership => ?_⟩
          obtain ⟨apart, otherBuiltIn⟩ := rest.fresh other membership
          exact ⟨fun old => apart (List.mem_append_left _ old), otherBuiltIn⟩
        · exact List.forall_mem_cons.mpr ⟨fieldsDistinct, rest.fieldsDistinct⟩
        · intro earlier current later split
          cases earlier with
          | nil =>
              cases split
              simpa using fields
          | cons head earlier =>
              cases split
              have next := rest.fits earlier current later rfl
              simpa using next
      · intro acceptable
        have fields := acceptable.fits [] decl decls rfl
        obtain ⟨unique, distinct⟩ := List.nodup_cons.mp acceptable.distinct
        obtain ⟨⟨fresh, notBuiltIn⟩, apart⟩ := List.forall_mem_cons.mp acceptable.fresh
        obtain ⟨fieldsDistinct, restDistinct⟩ := List.forall_mem_cons.mp acceptable.fieldsDistinct
        refine ⟨⟨by simpa using fields, fieldsDistinct, nofun⟩, fresh, notBuiltIn, distinct, ?_,
          restDistinct, ?_⟩
        · intro other membership
          obtain ⟨old, otherBuiltIn⟩ := apart other membership
          refine ⟨?_, otherBuiltIn⟩
          intro either
          rcases List.mem_append.mp either with defined | same
          · exact old defined
          · exact unique (List.mem_map.mpr ⟨other, membership, List.mem_singleton.mp same⟩)
        · intro earlier current later split
          have next := acceptable.fits (decl :: earlier) current later (by rw [split]; rfl)
          simpa using next

/-- Names that are not reused, and types that are named behind their definitions. -/
structure NamesResolve (decls : List TypeDecl) : Prop where
  distinct : (decls.map TypeDecl.name).Nodup
  notBuiltIn : ∀ decl ∈ decls, decl.name ∉ builtInNames
  fieldsDistinct : ∀ decl ∈ decls, (decl.fields.map FieldDecl.name).Nodup
  resolved : ∀ earlier decl later, decls = earlier ++ decl :: later →
    ∀ field ∈ decl.fields,
      field.typeName ∈ earlier.map TypeDecl.name ∨ field.typeName ∈ builtInNames

def OptionTypesKnown (decls : List TypeDecl) : Prop :=
  ∀ decl ∈ decls, ∀ field ∈ decl.fields, ∀ option ∈ field.options, option.NameKnown

def OptionListsAccepted (decls : List TypeDecl) : Prop :=
  ∀ earlier decl later, decls = earlier ++ decl :: later → ∀ field ∈ decl.fields,
    ∀ validOptions ∈ optionTypesOf (earlier.map TypeDecl.name) field.typeName,
      OptionsAccepted validOptions field.options

theorem optionTypesOf_isSome {defined : List String} {name : String} :
    (optionTypesOf defined name).isSome ↔ name ∈ defined ∨ name ∈ builtInNames := by
  rw [optionTypesOf]
  split_ifs <;> simp [*]

theorem fieldFits_iff {defined : List String} {field : FieldDecl}
    (accepted : ∀ validOptions ∈ optionTypesOf defined field.typeName,
      OptionsAccepted validOptions field.options) :
    FieldFits defined field ↔ (field.typeName ∈ defined ∨ field.typeName ∈ builtInNames) ∧
      ∀ option ∈ field.options, option.NameKnown := by
  rw [← optionTypesOf_isSome, Option.isSome_iff_exists, FieldFits]
  constructor
  · rintro ⟨validOptions, valid, fit⟩
    exact ⟨⟨validOptions, valid⟩, fit.known⟩
  · rintro ⟨⟨validOptions, valid⟩, known⟩
    exact ⟨validOptions, valid, (optionsFit_iff (accepted validOptions valid)).mpr known⟩

theorem acceptable_iff {decls : List TypeDecl} (accepted : OptionListsAccepted decls) :
    Acceptable [] decls ↔ NamesResolve decls ∧ OptionTypesKnown decls := by
  constructor
  · intro acceptable
    refine ⟨⟨acceptable.distinct, fun decl membership => (acceptable.fresh decl membership).2,
      acceptable.fieldsDistinct, ?_⟩, ?_⟩
    · intro earlier decl later split field membership
      have fits := acceptable.fits earlier decl later split field membership
      exact ((fieldFits_iff (accepted earlier decl later split field membership)).mp fits).1
    · intro decl membership field fieldMembership
      obtain ⟨earlier, later, split⟩ := List.append_of_mem membership
      have fits := acceptable.fits earlier decl later split field fieldMembership
      exact ((fieldFits_iff (accepted earlier decl later split field fieldMembership)).mp fits).2
  · rintro ⟨resolve, known⟩
    refine ⟨resolve.distinct, fun decl membership => ⟨nofun, resolve.notBuiltIn decl membership⟩,
      resolve.fieldsDistinct, ?_⟩
    intro earlier decl later split field membership
    have declared : decl ∈ decls := by
      rw [split]
      exact List.mem_append_right _ (List.mem_cons_self ..)
    exact (fieldFits_iff (accepted earlier decl later split field membership)).mpr
      ⟨resolve.resolved earlier decl later split field membership,
        known decl declared field membership⟩

end BinaryReader

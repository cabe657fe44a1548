import BinaryReader.Parser.Resolution

/-!
# Visiting options

On a walkable option list the visitor returns the options that the declared
texts stand for, and adds no entry of level `Error` exactly when they fit.
-/

namespace BinaryReader

def NoErrors (infos : List ErrorInfo) : Prop := ∀ info ∈ infos, info.level ≠ .error

@[simp]
theorem noErrors_nil : NoErrors [] := nofun

@[simp]
theorem noErrors_append (early late : List ErrorInfo) :
    NoErrors (early ++ late) ↔ NoErrors early ∧ NoErrors late := List.forall_mem_append

theorem noErrors_iff_eq_nil {infos : List ErrorInfo}
    (levels : ∀ info ∈ infos, info.level = .error) : NoErrors infos ↔ infos = [] := by
  constructor
  · intro none
    exact List.eq_nil_iff_forall_not_mem.mpr fun info membership =>
      none info membership (levels info membership)
  · rintro rfl
    exact noErrors_nil

theorem ErrorCollection.addAll_hasErrors (errors : ErrorCollection) (infos : List ErrorInfo) :
    (errors.addAll infos).hasErrors = false ↔ errors.hasErrors = false ∧ NoErrors infos := by
  rw [hasErrors, addAll_hasError, Bool.or_eq_false_iff, List.any_eq_false]
  simp [NoErrors, hasErrors]

namespace OptionDecl

theorem resolve_key {validOptions : List OptionType} {option : StaticOption} {decl : OptionDecl}
    (same : (option.type, option.staticValue) = decl.key) :
    OptionSet.resolve validOptions option = decl.resolve validOptions := by
  obtain ⟨typeEq, valueEq⟩ := Prod.mk.injEq _ _ _ _ ▸ same
  simp only [OptionSet.resolve, valueEq, named_text, typeEq, resolve]
  rcases namedValue decl.value with _ | value
  · rfl
  · rfl

end OptionDecl

def appliedOptions (decls : List OptionDecl) : Options :=
  (decls.filterMap fun decl => namedValue decl.value).foldl Options.set {}

theorem resolve_eq_namedValue {validOptions : List OptionType} {decl : OptionDecl}
    (resolved : (decl.resolve validOptions).isSome) :
    decl.resolve validOptions = namedValue decl.value := by
  obtain ⟨value, valueEq⟩ := Option.isSome_iff_exists.mp resolved
  rw [valueEq]
  unfold OptionDecl.resolve at valueEq
  split at valueEq
  next found named =>
    split_ifs at valueEq
    rw [named, valueEq]
  next => cases valueEq

namespace Visitor

def report (self : Visitor) (infos : List ErrorInfo) : Visitor :=
  { self with errors := self.errors.addAll infos }

theorem report_report (self : Visitor) (early late : List ErrorInfo) :
    (self.report early).report late = self.report (early ++ late) := by
  rw [report, report, report, ErrorCollection.addAll_append]

theorem addError_eq (self : Visitor) (kind : ErrorKind) (arguments : List String) (token : Token)
    (level : ErrorLevel) :
    ∃ info : ErrorInfo, info.level = level ∧
      self.addError kind arguments token level = self.report [info] :=
  ⟨_, rfl, rfl⟩

theorem visitOptionName_spec (self : Visitor) (start : Token) (name : Option Token) :
    ∃ infos, self.visitOptionName start name =
        .ok (((name.map Token.text).map namedType).getD .unknown, self.report infos) ∧
      (NoErrors infos ↔ ∀ text ∈ name.map Token.text, namedType text ≠ .unknown) := by
  cases name with
  | none => exact ⟨[], rfl, by simp⟩
  | some name =>
      simp only [visitOptionName, fromUtf8_text, Checked.ok_bind, getOptionType_text,
        Option.map_some, Option.getD_some]
      by_cases unknown : namedType name.text = .unknown
      · obtain ⟨info, level, added⟩ :=
          self.addError_eq .unknownOptionType [name.text] start .error
        refine ⟨[info], ?_, ?_⟩
        · rw [if_pos unknown, added]
          rfl
        · simp [NoErrors, level, unknown]
      · exact ⟨[], by rw [if_neg unknown]; rfl, by simp [unknown]⟩

theorem visitOption_spec (self : Visitor) {ctx : OptionContext} (walkable : ctx.Walkable) :
    ∃ option infos, self.visitOption ctx = .ok (option, self.report infos) ∧
      (option.type, option.staticValue) = ctx.decl.key ∧
      (NoErrors infos ↔ ctx.decl.NameKnown) := by
  obtain ⟨start, name, _ | expr⟩ := ctx
  · cases walkable
  · obtain ⟨infos, named, known⟩ := self.visitOptionName_spec start name
    refine ⟨{ debug := self.getDebugInfo start
              type := ((name.map Token.text).map namedType).getD .unknown
              staticValue := ⟨textUnits expr.text⟩ }, infos, ?_, ?_, known⟩
    · rw [visitOption]
      dsimp only
      rw [named, Checked.ok_bind]
      dsimp only
      rw [deref_some, Checked.ok_bind, fromUtf8_text]
      rfl
    · rfl

structure Collected (set : OptionSet) (infos : List ErrorInfo) (decls : List OptionDecl) :
    Prop where
  types : ∀ type, type ∈ set.optionTypes ↔ type ∈ explicitTypes decls
  clean : NoErrors infos ↔ (∀ decl ∈ decls, decl.NameKnown) ∧ (explicitTypes decls).Nodup
  stored : NoErrors infos →
    set.options.map (fun option => (option.type, option.staticValue)) = decls.map OptionDecl.key

theorem Collected.exists_stored {set : OptionSet} {infos : List ErrorInfo}
    {decls : List OptionDecl} (collected : Collected set infos decls) (none : NoErrors infos)
    {decl : OptionDecl} (membership : decl ∈ decls) :
    ∃ option ∈ set.options, (option.type, option.staticValue) = decl.key := by
  have listed := List.mem_map_of_mem (f := OptionDecl.key) membership
  rw [← collected.stored none] at listed
  exact List.mem_map.mp listed

theorem Collected.exists_decl {set : OptionSet} {infos : List ErrorInfo}
    {decls : List OptionDecl} (collected : Collected set infos decls) (none : NoErrors infos)
    {option : StaticOption} (membership : option ∈ set.options) :
    ∃ decl ∈ decls, (option.type, option.staticValue) = decl.key := by
  have listed := List.mem_map_of_mem (f := fun option : StaticOption =>
    (option.type, option.staticValue)) membership
  rw [collected.stored none] at listed
  obtain ⟨decl, declared, same⟩ := List.mem_map.mp listed
  exact ⟨decl, declared, same.symm⟩

theorem Collected.filterMap_resolve {set : OptionSet} {infos : List ErrorInfo}
    {decls : List OptionDecl} (collected : Collected set infos decls) (none : NoErrors infos)
    (validOptions : List OptionType) :
    set.options.filterMap (OptionSet.resolve validOptions) =
      decls.filterMap (OptionDecl.resolve validOptions) := by
  have keys := congrArg (List.filterMap fun key : OptionType × UtfString =>
    OptionSet.resolve validOptions ⟨{}, key.1, key.2⟩) (collected.stored none)
  rw [List.filterMap_map, List.filterMap_map] at keys
  exact keys.trans (List.filterMap_congr fun decl _ => OptionDecl.resolve_key rfl)

theorem explicitTypes_append (decls : List OptionDecl) (decl : OptionDecl) :
    explicitTypes (decls ++ [decl]) =
      explicitTypes decls ++ if decl.type = .unknown then [] else [decl.type] := by
  rw [explicitTypes, explicitTypes, List.map_append, List.filter_append]
  by_cases unknown : decl.type = .unknown <;> simp [unknown]

section Collected

variable {set : OptionSet} {early infos : List ErrorInfo} {decls : List OptionDecl}
  {decl : OptionDecl} {option : StaticOption}

theorem nameKnown_append :
    (∀ other ∈ decls ++ [decl], other.NameKnown) ↔
      (∀ other ∈ decls, other.NameKnown) ∧ decl.NameKnown := by
  rw [List.forall_mem_append, List.forall_mem_singleton]

theorem Collected.stored_append (collected : Collected set early decls)
    (keyEq : (option.type, option.staticValue) = decl.key) (none : NoErrors (early ++ infos)) :
    (set.options ++ [option]).map (fun option => (option.type, option.staticValue)) =
      (decls ++ [decl]).map OptionDecl.key := by
  have before := collected.stored ((noErrors_append early infos).mp none).1
  rw [List.map_append, List.map_append, before, List.map_singleton, List.map_singleton, keyEq]

theorem Collected.untyped (collected : Collected set early decls)
    (keyEq : (option.type, option.staticValue) = decl.key)
    (known : NoErrors infos ↔ decl.NameKnown) (unknown : option.type = .unknown) :
    Collected { set with options := set.options ++ [option] } (early ++ infos)
      (decls ++ [decl]) := by
  have typeEq : option.type = decl.type := congrArg Prod.fst keyEq
  have types : explicitTypes (decls ++ [decl]) = explicitTypes decls := by
    rw [explicitTypes_append, ← typeEq, if_pos unknown, List.append_nil]
  refine ⟨?_, ?_, collected.stored_append keyEq⟩
  · intro type
    rw [types, collected.types]
  · rw [noErrors_append, collected.clean, known, nameKnown_append, types]
    tauto

theorem Collected.duplicate (collected : Collected set early decls)
    (keyEq : (option.type, option.staticValue) = decl.key) (typed : option.type ≠ .unknown)
    (old : option.type ∈ set.optionTypes) {info : ErrorInfo} (level : info.level = .error) :
    Collected set (early ++ infos ++ [info]) (decls ++ [decl]) := by
  have typeEq : option.type = decl.type := congrArg Prod.fst keyEq
  have types : explicitTypes (decls ++ [decl]) = explicitTypes decls ++ [option.type] := by
    rw [explicitTypes_append, ← typeEq, if_neg typed]
  have failed : ¬ NoErrors (early ++ infos ++ [info]) := by
    intro none
    exact none info (List.mem_append_right _ (List.mem_singleton_self _)) level
  refine ⟨?_, ?_, fun none => absurd none failed⟩
  · intro type
    rw [types, List.mem_append, ← collected.types, List.mem_singleton]
    constructor
    · exact Or.inl
    · rintro (listed | rfl)
      · exact listed
      · exact old
  · apply iff_of_false failed
    rintro ⟨-, distinct⟩
    rw [types, List.nodup_append] at distinct
    exact distinct.2.2 _ ((collected.types _).mp old) _ (List.mem_singleton_self _) rfl

theorem Collected.typed (collected : Collected set early decls)
    (keyEq : (option.type, option.staticValue) = decl.key)
    (known : NoErrors infos ↔ decl.NameKnown) (typed : option.type ≠ .unknown)
    (new : option.type ∉ set.optionTypes) :
    Collected { options := set.options ++ [option], optionTypes := option.type :: set.optionTypes }
      (early ++ infos) (decls ++ [decl]) := by
  have typeEq : option.type = decl.type := congrArg Prod.fst keyEq
  have types : explicitTypes (decls ++ [decl]) = explicitTypes decls ++ [option.type] := by
    rw [explicitTypes_append, ← typeEq, if_neg typed]
  have fresh : option.type ∉ explicitTypes decls := mt (collected.types _).mpr new
  refine ⟨?_, ?_, collected.stored_append keyEq⟩
  · intro type
    rw [types, List.mem_append, ← collected.types, List.mem_singleton, List.mem_cons, or_comm]
  · rw [noErrors_append, collected.clean, known, nameKnown_append, types, List.nodup_append]
    constructor
    · rintro ⟨⟨allKnown, distinct⟩, lastKnown⟩
      refine ⟨⟨allKnown, lastKnown⟩, distinct, List.nodup_singleton _, ?_⟩
      rintro type membership other isOther rfl
      exact fresh (List.mem_singleton.mp isOther ▸ membership)
    · rintro ⟨⟨allKnown, lastKnown⟩, distinct, -, -⟩
      exact ⟨⟨allKnown, distinct⟩, lastKnown⟩

end Collected

theorem visitLastOption_spec (self : Visitor) {set : OptionSet} {early : List ErrorInfo}
    {decls : List OptionDecl} (collected : Collected set early decls)
    {ctx : Option OptionContext} (walkable : Present ctx OptionContext.Walkable) :
    ∃ next infos, (self.report early).visitLastOption set ctx = .ok (next, self.report infos) ∧
      Collected next infos (decls ++ [OptionListContext.optionDecl ctx]) := by
  obtain ⟨ctx, rfl, walkable⟩ := walkable
  obtain ⟨option, infos, visited, keyEq, known⟩ := (self.report early).visitOption_spec walkable
  have prepare : (self.report early).visitLastOption set (some ctx) =
      .ok ((set.addStatic option.debug option.type option.staticValue
          (self.report (early ++ infos)).errors).2.1,
        { self with errors := (set.addStatic option.debug option.type option.staticValue
          (self.report (early ++ infos)).errors).2.2 }) := by
    rw [visitLastOption, deref_some, Checked.ok_bind, visited, report_report]
    rfl
  change ∃ next infos, _ ∧ Collected next infos (decls ++ [ctx.decl])
  rw [prepare]
  by_cases unknown : option.type = .unknown
  · refine ⟨_, _, ?_, collected.untyped keyEq known unknown⟩
    simp only [OptionSet.addStatic, unknown, if_true]
    rw [← unknown]
    rfl
  · by_cases old : option.type ∈ set.optionTypes
    · let info : ErrorInfo :=
        .ofArguments option.debug .duplicateOption [option.type.toString] .error
      have level : info.level = .error := rfl
      refine ⟨set, early ++ infos ++ [info], ?_,
        collected.duplicate keyEq unknown old level⟩
      simp only [OptionSet.addStatic, unknown, old, if_true, if_false]
      rw [← self.report_report (early ++ infos)]
      rfl
    · refine ⟨_, _, ?_, collected.typed keyEq known unknown old⟩
      simp only [OptionSet.addStatic, unknown, old, if_false]
      rfl

theorem visitOptionList_spec (self : Visitor) {list : OptionListContext}
    (walkable : list.Walkable) :
    ∃ set infos, self.visitOptionList list = .ok (set, self.report infos) ∧
      Collected set infos list.decls := by
  have empty : Collected {} [] [] := ⟨by simp [explicitTypes], by simp [explicitTypes], by simp⟩
  induction list with
  | first option => exact self.visitLastOption_spec empty walkable
  | more list option inductionHypothesis =>
      obtain ⟨set, infos, visited, collected⟩ := inductionHypothesis walkable.1
      obtain ⟨next, all, last, lastCollected⟩ := self.visitLastOption_spec collected walkable.2
      refine ⟨next, all, ?_, lastCollected⟩
      rw [visitOptionList, visited, Checked.ok_bind]
      exact last

/-- The options of a field are those its list applies, and there is no error when the
list fits. -/
theorem visitOptions_spec (self : Visitor) (type : TypeInfoBase)
    {list : Option OptionListContext} (walkable : ∀ options ∈ list, options.Walkable) :
    ∃ options infos, self.visitOptions type list = .ok (options, self.report infos) ∧
      (NoErrors infos ↔
        OptionsFit type.getOptionTypes ((list.map OptionListContext.decls).getD [])) ∧
      (NoErrors infos →
        options = appliedOptions ((list.map OptionListContext.decls).getD [])) := by
  cases list with
  | none =>
      exact ⟨{}, [], rfl, iff_of_true noErrors_nil ⟨nofun, List.nodup_nil, nofun⟩, fun _ => rfl⟩
  | some list =>
      obtain ⟨set, infos, visited, collected⟩ := self.visitOptionList_spec (walkable list rfl)
      obtain ⟨late, levels, resolved, built⟩ :=
        set.buildStaticOptions_spec type.getOptionTypes {} (self.report infos).errors
      refine ⟨OptionSet.applied type.getOptionTypes set.options {}, infos ++ late, ?_, ?_, ?_⟩
      · rw [visitOptions, visited, Checked.ok_bind]
        dsimp only
        rw [built, ← report_report]
        rfl
      · rw [noErrors_append, noErrors_iff_eq_nil levels, resolved, collected.clean]
        constructor
        · rintro ⟨⟨known, distinct⟩, allResolved⟩
          refine ⟨known, distinct, ?_⟩
          intro decl membership
          obtain ⟨option, stored, same⟩ :=
            collected.exists_stored (collected.clean.mpr ⟨known, distinct⟩) membership
          rw [← OptionDecl.resolve_key same]
          exact allResolved option stored
        · intro fit
          refine ⟨⟨fit.known, fit.distinct⟩, ?_⟩
          intro option stored
          obtain ⟨decl, membership, same⟩ :=
            collected.exists_decl (collected.clean.mpr ⟨fit.known, fit.distinct⟩) stored
          rw [OptionDecl.resolve_key same]
          exact fit.resolved decl membership
      · intro none
        obtain ⟨early, later⟩ := (noErrors_append _ _).mp none
        have fit : ∀ decl ∈ list.decls, (decl.resolve type.getOptionTypes).isSome := by
          intro decl membership
          obtain ⟨option, stored, same⟩ := collected.exists_stored early membership
          rw [← OptionDecl.resolve_key same]
          exact resolved.mp ((noErrors_iff_eq_nil levels).mp later) option stored
        rw [OptionSet.applied, collected.filterMap_resolve early]
        exact congrArg (List.foldl Options.set {}) (List.filterMap_congr fun decl membership =>
          resolve_eq_namedValue (fit decl membership))

end Visitor

end BinaryReader

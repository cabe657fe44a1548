import BinaryReader.Ast.OptionSet

/-!
# Sequences of options

A set is filled by any number of `AddStatic` calls and then applied to some
options.  What comes out is described through the table of option values alone:
`ResolvesTo` names neither the parser of an option value nor the loop over the
set.
-/

namespace BinaryReader

namespace Options

/-- `GetOption`; none for an empty `std::any`. -/
def getOption (self : Options) (type : OptionType) (defaults : Options) : Option OptionValue :=
  match type with
  | .signedness =>
      some (.signedness (if self.signedness = .unset then defaults.signedness else self.signedness))
  | .byteOrder =>
      some (.byteOrder (if self.byteOrder = .unset then defaults.byteOrder else self.byteOrder))
  | .unknown => none

def Lists (type : OptionType) (name : List UInt16) (value : OptionValue) : Prop :=
  ∃ info ∈ kOptionData, info.1 = type ∧ ∃ entry ∈ info.2, name = u16 entry.1 ∧ entry.2 = value

theorem getOption_set (self : Options) (value : OptionValue) (type : OptionType) :
    (self.set value).getOption type {} =
      if value.type = type then some value else self.getOption type {} := by
  cases value with
  | signedness value => cases type <;> cases value <;> rfl
  | byteOrder value => cases type <;> cases value <;> rfl

theorem set_comm (self : Options) {first second : OptionValue}
    (different : first.type ≠ second.type) :
    (self.set first).set second = (self.set second).set first := by
  cases first with
  | signedness first =>
      cases second with
      | signedness second => exact absurd rfl different
      | byteOrder second => rfl
  | byteOrder first =>
      cases second with
      | signedness second => rfl
      | byteOrder second => exact absurd rfl different

theorem named_eq_some_iff {name : List UInt16} {type : OptionType} {value : OptionValue} :
    named name = some (type, value) ↔ Lists type name value := by
  constructor
  · intro found
    obtain ⟨info, listed, valueFound⟩ := List.exists_of_findSome?_eq_some found
    obtain ⟨_, inTable, same⟩ := Option.map_eq_some_iff.mp valueFound
    cases same
    obtain ⟨text, textListed, nameEq⟩ := exists_of_findValue inTable
    exact ⟨info, listed, rfl, _, textListed, nameEq, rfl⟩
  · rintro ⟨info, listed, rfl, entry, entryListed, rfl, rfl⟩
    have every : ∀ info ∈ kOptionData, ∀ entry ∈ info.2,
        named (u16 entry.1) = some (info.1, entry.2) := by decide
    exact every info listed entry entryListed

theorem getOption_foldl_of_forall_ne {values : List OptionValue} {type : OptionType}
    (others : ∀ value ∈ values, value.type ≠ type) (self : Options) :
    (values.foldl set self).getOption type {} = self.getOption type {} := by
  induction values generalizing self with
  | nil => rfl
  | cons value values inductionHypothesis =>
      obtain ⟨other, rest⟩ := List.forall_mem_cons.mp others
      rw [List.foldl_cons, inductionHypothesis rest, getOption_set, if_neg other]

end Options

namespace OptionSet

/-- The types that a set of valid option types permits; the empty set permits all. -/
def Permits (validOptions : List OptionType) (type : OptionType) : Prop :=
  validOptions = [] ∨ type ∈ validOptions

structure ResolvesTo (validOptions : List OptionType) (option : StaticOption) (type : OptionType)
    (value : OptionValue) : Prop where
  typed : option.type = .unknown ∨ option.type = type
  permitted : Permits validOptions type
  listed : Options.Lists type option.staticValue.utf16Buffer value

def Resolves (validOptions : List OptionType) (option : StaticOption) (type : OptionType) : Prop :=
  ∃ value, ResolvesTo validOptions option type value

section

variable {validOptions : List OptionType} {option : StaticOption} {type : OptionType}
  {value : OptionValue}

theorem resolve_eq_some_iff :
    resolve validOptions option = some value ↔
      ResolvesTo validOptions option value.type value := by
  unfold resolve
  rcases found : Options.named option.staticValue.utf16Buffer with _ | ⟨type, other⟩
  · apply iff_of_false nofun
    intro resolves
    rw [Options.named_eq_some_iff.mpr resolves.listed] at found
    cases found
  · have typed := Options.type_of_named found
    subst typed
    dsimp only
    split_ifs with allowed
    · constructor
      · rintro ⟨⟩
        exact ⟨allowed.1, allowed.2, Options.named_eq_some_iff.mp found⟩
      · intro resolves
        rw [Options.named_eq_some_iff.mpr resolves.listed] at found
        have same : value = other := congrArg Prod.snd (Option.some.inj found)
        rw [same]
    · apply iff_of_false nofun
      intro resolves
      rw [Options.named_eq_some_iff.mpr resolves.listed] at found
      have same : value = other := congrArg Prod.snd (Option.some.inj found)
      subst same
      exact allowed ⟨resolves.typed, resolves.permitted⟩

theorem ResolvesTo.type_eq (resolves : ResolvesTo validOptions option type value) :
    value.type = type := Options.type_of_named (Options.named_eq_some_iff.mpr resolves.listed)

theorem ResolvesTo.resolve_eq (resolves : ResolvesTo validOptions option type value) :
    resolve validOptions option = some value := by
  have typed := resolves.type_eq
  subst typed
  exact resolve_eq_some_iff.mpr resolves

theorem resolves_iff :
    Resolves validOptions option type ↔
      ∃ value, resolve validOptions option = some value ∧ value.type = type := by
  constructor
  · rintro ⟨value, resolves⟩
    exact ⟨value, resolves.resolve_eq, resolves.type_eq⟩
  · rintro ⟨value, resolved, rfl⟩
    exact ⟨value, resolve_eq_some_iff.mp resolved⟩

/-- No option resolves to two types, so resolving to one type is resolving to exactly one. -/
theorem existsUnique_resolves_iff :
    (∃! type, Resolves validOptions option type) ↔ (resolve validOptions option).isSome := by
  rw [Option.isSome_iff_exists]
  constructor
  · rintro ⟨type, resolves, -⟩
    obtain ⟨value, resolved, -⟩ := resolves_iff.mp resolves
    exact ⟨value, resolved⟩
  · rintro ⟨value, resolved⟩
    refine ⟨value.type, resolves_iff.mpr ⟨value, resolved, rfl⟩, ?_⟩
    intro other otherResolves
    obtain ⟨otherValue, otherResolved, rfl⟩ := resolves_iff.mp otherResolves
    cases resolved.symm.trans otherResolved
    rfl

instance : Decidable (∃! type, Resolves validOptions option type) :=
  decidable_of_iff _ existsUnique_resolves_iff.symm

end

abbrev Call := StaticOption

/-- `AddStatic` calls one after the other: their results, and the set and the errors behind them. -/
def addStatics : List Call → OptionSet → ErrorCollection → List Bool × OptionSet × ErrorCollection
  | [], self, errors => ([], self, errors)
  | call :: calls, self, errors =>
      let (added, self, errors) := self.addStatic call.debug call.type call.staticValue errors
      let (rest, self, errors) := addStatics calls self errors
      (added :: rest, self, errors)

def Refused (seen : List OptionType) (call : Call) : Prop :=
  call.type ≠ .unknown ∧ call.type ∈ seen

instance (seen : List OptionType) (call : Call) : Decidable (Refused seen call) :=
  inferInstanceAs (Decidable (_ ∧ _))

def seenBehind (seen : List OptionType) (call : Call) : List OptionType :=
  if call.type = .unknown then seen else call.type :: seen

/-- The calls that are stored behind calls with the given explicit types. -/
def stored (seen : List OptionType) : List Call → List StaticOption
  | [] => []
  | call :: calls =>
      if Refused seen call then stored seen calls else call :: stored (seenBehind seen call) calls

theorem addStatic_refused (self : OptionSet) {call : Call} (errors : ErrorCollection)
    (refused : Refused self.optionTypes call) :
    self.addStatic call.debug call.type call.staticValue errors =
      (false, self, errors.add
        (.ofArguments call.debug .duplicateOption [call.type.toString] .error)) := by
  rw [addStatic, if_neg refused.1, if_pos refused.2]

theorem addStatic_stored (self : OptionSet) {call : Call} (errors : ErrorCollection)
    (accepted : ¬ Refused self.optionTypes call) :
    self.addStatic call.debug call.type call.staticValue errors =
      (true, { options := self.options ++ [call],
               optionTypes := seenBehind self.optionTypes call }, errors) := by
  rw [addStatic, seenBehind]
  by_cases untyped : call.type = .unknown
  · rw [if_pos untyped, if_pos untyped]
  · have fresh : call.type ∉ self.optionTypes := fun old => accepted ⟨untyped, old⟩
    rw [if_neg untyped, if_neg untyped, if_neg fresh]

/-- The explicit types of the set are those of its options. -/
def Tracks (self : OptionSet) : Prop :=
  ∀ type, type ∈ self.optionTypes ↔
    type ≠ .unknown ∧ ∃ option ∈ self.options, option.type = type

theorem Tracks.addStatic {self : OptionSet} (tracks : self.Tracks) (call : Call)
    (errors : ErrorCollection) :
    (self.addStatic call.debug call.type call.staticValue errors).2.1.Tracks := by
  by_cases refused : Refused self.optionTypes call
  · rw [self.addStatic_refused errors refused]
    exact tracks
  · rw [self.addStatic_stored errors refused]
    intro type
    dsimp only
    simp only [List.mem_append, List.mem_singleton, or_and_right, exists_or, exists_eq_left]
    rw [seenBehind]
    split_ifs with untyped
    · rw [tracks, untyped]
      constructor
      · rintro ⟨known, listed⟩
        exact ⟨known, Or.inl listed⟩
      · rintro ⟨known, listed | same⟩
        · exact ⟨known, listed⟩
        · exact absurd same.symm known
    · rw [List.mem_cons, tracks]
      constructor
      · rintro (rfl | ⟨known, listed⟩)
        · exact ⟨untyped, Or.inr rfl⟩
        · exact ⟨known, Or.inl listed⟩
      · rintro ⟨known, listed | same⟩
        · exact Or.inr ⟨known, listed⟩
        · exact Or.inl same.symm

theorem Tracks.addStatics {self : OptionSet} (tracks : self.Tracks) (calls : List Call)
    (errors : ErrorCollection) : (addStatics calls self errors).2.1.Tracks := by
  induction calls generalizing self errors with
  | nil => exact tracks
  | cons call calls inductionHypothesis =>
      exact inductionHypothesis (tracks.addStatic call errors) _

theorem addStatics_options (calls : List Call) (self : OptionSet) (errors : ErrorCollection) :
    (addStatics calls self errors).2.1.options = self.options ++ stored self.optionTypes calls := by
  induction calls generalizing self errors with
  | nil => exact (List.append_nil _).symm
  | cons call calls inductionHypothesis =>
      rw [addStatics, stored]
      by_cases refused : Refused self.optionTypes call
      · rw [if_pos refused, self.addStatic_refused errors refused]
        exact inductionHypothesis _ _
      · rw [if_neg refused, self.addStatic_stored errors refused]
        exact (inductionHypothesis _ _).trans (List.append_assoc _ _ _)

theorem mem_seenBehind {seen : List OptionType} {call : Call} {type : OptionType} :
    type ∈ seenBehind seen call ↔ type ∈ seen ∨ type ≠ .unknown ∧ type = call.type := by
  rw [seenBehind]
  split_ifs with untyped
  · constructor
    · exact Or.inl
    · rintro (old | ⟨known, rfl⟩)
      · exact old
      · exact absurd untyped known
  · rw [List.mem_cons]
    constructor
    · rintro (rfl | old)
      · exact Or.inr ⟨untyped, rfl⟩
      · exact Or.inl old
    · rintro (old | ⟨-, rfl⟩)
      · exact Or.inr old
      · exact Or.inl rfl

theorem stored_congr {seen other : List OptionType} (same : ∀ type, type ∈ seen ↔ type ∈ other)
    (calls : List Call) : stored seen calls = stored other calls := by
  induction calls generalizing seen other with
  | nil => rfl
  | cons call calls inductionHypothesis =>
      have refused : Refused seen call ↔ Refused other call := by rw [Refused, Refused, same]
      have behind : ∀ type, type ∈ seenBehind seen call ↔ type ∈ seenBehind other call := by
        intro type
        rw [mem_seenBehind, mem_seenBehind, same]
      simp only [stored, refused, inductionHypothesis same, inductionHypothesis behind]

theorem stored_cons (seen : List OptionType) (call : Call) (calls : List Call) :
    stored seen (call :: calls) =
      (if Refused seen call then [] else [call]) ++ stored (seenBehind seen call) calls := by
  rw [stored]
  split_ifs with refused
  · apply stored_congr
    intro type
    rw [mem_seenBehind]
    constructor
    · exact Or.inl
    · rintro (old | ⟨-, rfl⟩)
      · exact old
      · exact refused.2
  · rfl

theorem stored_append (seen : List OptionType) (before after : List Call) :
    stored seen (before ++ after) =
      stored seen before ++ stored (before.foldl seenBehind seen) after := by
  induction before generalizing seen with
  | nil => rfl
  | cons call before inductionHypothesis =>
      rw [List.cons_append, stored_cons, stored_cons, inductionHypothesis, List.append_assoc,
        List.foldl_cons]

/-- Calls that do not name the same type, and options that do not resolve to the same type. -/
structure Apart (validOptions : List OptionType) (first second : Call) : Prop where
  named : first.type = second.type → first.type = .unknown
  resolved : ∀ type, ¬ (Resolves validOptions first type ∧ Resolves validOptions second type)

theorem refused_behind {seen : List OptionType} {first second : Call}
    (named : first.type = second.type → first.type = .unknown) :
    Refused (seenBehind seen first) second ↔ Refused seen second := by
  rw [Refused, Refused, mem_seenBehind]
  constructor
  · rintro ⟨known, old | ⟨-, same⟩⟩
    · exact ⟨known, old⟩
    · exact absurd (same.trans (named same.symm)) known
  · rintro ⟨known, old⟩
    exact ⟨known, Or.inl old⟩

theorem applied_append (validOptions : List OptionType) (front back : List StaticOption)
    (options : Options) :
    applied validOptions (front ++ back) options =
      applied validOptions back (applied validOptions front options) := by
  rw [applied, List.filterMap_append, List.foldl_append]
  rfl

section Apart

variable {validOptions : List OptionType} {first second : Call}
  (apart : Apart validOptions first second)

include apart

theorem applied_pair (options : Options) :
    applied validOptions [first, second] options =
      applied validOptions [second, first] options := by
  rcases firstResolved : resolve validOptions first with _ | value <;>
    rcases secondResolved : resolve validOptions second with _ | other
  · simp [applied, firstResolved, secondResolved]
  · simp [applied, firstResolved, secondResolved]
  · simp [applied, firstResolved, secondResolved]
  · have different : value.type ≠ other.type := by
      intro same
      exact apart.resolved value.type ⟨resolves_iff.mpr ⟨value, firstResolved, rfl⟩,
        resolves_iff.mpr ⟨other, secondResolved, same.symm⟩⟩
    simpa [applied, firstResolved, secondResolved] using options.set_comm different

/-- Two neighbouring calls that are apart can change places. -/
theorem applied_stored_swap (before after : List Call) (options : Options) :
    applied validOptions (stored [] (before ++ first :: second :: after)) options =
      applied validOptions (stored [] (before ++ second :: first :: after)) options := by
  have reversed : second.type = first.type → second.type = .unknown := by
    intro same
    exact same.trans (apart.named same.symm)
  have behind : ∀ seen, stored (seenBehind (seenBehind seen first) second) after =
      stored (seenBehind (seenBehind seen second) first) after := by
    intro seen
    apply stored_congr
    intro type
    rw [mem_seenBehind, mem_seenBehind, mem_seenBehind, mem_seenBehind, or_right_comm]
  rw [stored_append, stored_append]
  simp only [stored_cons, refused_behind apart.named, refused_behind reversed, behind,
    applied_append]
  generalize applied validOptions (stored [] before) options = start
  congr 1
  split_ifs
  · rfl
  · rfl
  · rfl
  · rw [← applied_append, ← applied_append]
    exact applied_pair apart start

end Apart

structure AddsStatic (self : OptionSet) (call : Call) (errors : ErrorCollection) : Prop where
  fails_iff : (self.addStatic call.debug call.type call.staticValue errors).1 = false ↔
    call.type ≠ .unknown ∧ ∃ option ∈ self.options, option.type = call.type
  failed : (self.addStatic call.debug call.type call.staticValue errors).1 = false →
    ∃ info : ErrorInfo, info.level = .error ∧
      self.addStatic call.debug call.type call.staticValue errors = (false, self, errors.add info)
  added : (self.addStatic call.debug call.type call.staticValue errors).1 = true →
    (self.addStatic call.debug call.type call.staticValue errors).2.1.options =
        self.options ++ [call] ∧
      (self.addStatic call.debug call.type call.staticValue errors).2.2 = errors

theorem Tracks.addsStatic {self : OptionSet} (tracks : self.Tracks) (call : Call)
    (errors : ErrorCollection) : self.AddsStatic call errors := by
  have again : Refused self.optionTypes call ↔
      call.type ≠ .unknown ∧ ∃ option ∈ self.options, option.type = call.type := by
    rw [Refused, tracks]
    exact ⟨fun refused => refused.2, fun listed => ⟨listed.1, listed⟩⟩
  by_cases refused : Refused self.optionTypes call
  · have failed := self.addStatic_refused errors refused
    refine ⟨?_, fun _ => ⟨_, rfl, failed⟩, ?_⟩
    · rw [failed]
      exact iff_of_true rfl (again.mp refused)
    · rw [failed]
      exact nofun
  · have added := self.addStatic_stored errors refused
    refine ⟨?_, ?_, ?_⟩
    · rw [added]
      exact iff_of_false nofun (mt again.mpr refused)
    · rw [added]
      exact nofun
    · rw [added]
      exact fun _ => ⟨rfl, rfl⟩

structure Builds (validOptions : List OptionType) (stored : List StaticOption)
    (start result : Options) (ret : Bool) (infos : List ErrorInfo) : Prop where
  returns : ret = true ↔ ∀ option ∈ stored, ∃! type, Resolves validOptions option type
  last : ∀ {before option after type value}, stored = before ++ option :: after →
    ResolvesTo validOptions option type value →
    (∀ later ∈ after, ¬ Resolves validOptions later type) →
    result.getOption type {} = some value
  kept : ∀ {type}, (∀ option ∈ stored, ¬ Resolves validOptions option type) →
    result.getOption type {} = start.getOption type {}
  failed : ∀ option ∈ stored, (¬ ∃! type, Resolves validOptions option type) →
    ∀ options errors, ∃ info : ErrorInfo, info.level = .error ∧
      addOption option validOptions options errors = .ok (false, options, errors.add info)
  levels : ∀ info ∈ infos, info.level = .error
  count : infos.length =
    (stored.filter fun option => ¬ ∃! type, Resolves validOptions option type).length

theorem forall_type_ne {validOptions : List OptionType} {type : OptionType}
    {stored : List StaticOption} (none : ∀ option ∈ stored, ¬ Resolves validOptions option type) :
    ∀ value ∈ stored.filterMap (resolve validOptions), value.type ≠ type := by
  intro value membership same
  obtain ⟨option, listed, resolved⟩ := List.mem_filterMap.mp membership
  exact none option listed (resolves_iff.mpr ⟨value, resolved, same⟩)

theorem buildStaticOptions_builds (self : OptionSet) (validOptions : List OptionType)
    (start : Options) (errors : ErrorCollection) :
    ∃ ret infos,
      self.buildStaticOptions validOptions start errors =
        .ok (ret, applied validOptions self.options start, errors.addAll infos) ∧
      Builds validOptions self.options start (applied validOptions self.options start) ret
        infos := by
  obtain ⟨infos, levels, count, looped⟩ :=
    buildLoop_spec validOptions self.options true start errors
  have unresolved : (self.options.filter fun option =>
      ¬ ∃! type, Resolves validOptions option type) =
      self.options.filter fun option => (resolve validOptions option).isNone := by
    apply List.filter_congr
    intro option _
    rw [← Option.not_isSome, decide_not]
    simp only [existsUnique_resolves_iff, Bool.decide_eq_true]
  refine ⟨true && infos.isEmpty, infos, looped, ?_, ?_, ?_, ?_, levels, ?_⟩
  · rw [Bool.true_and, List.isEmpty_iff, ← List.length_eq_zero_iff, count,
      List.length_eq_zero_iff, List.filter_eq_nil_iff]
    apply forall₂_congr
    intro option _
    rw [existsUnique_resolves_iff, Bool.not_eq_true, Option.isNone_eq_false_iff]
  · intro before option after type value split resolves others
    have here : applied validOptions (option :: after)
        (applied validOptions before start) =
        (after.filterMap (resolve validOptions)).foldl Options.set
          ((applied validOptions before start).set value) := by
      rw [applied, List.filterMap_cons, resolves.resolve_eq]
      rfl
    rw [split, applied_append, here,
      Options.getOption_foldl_of_forall_ne (forall_type_ne others), Options.getOption_set,
      if_pos resolves.type_eq]
  · intro type none
    exact Options.getOption_foldl_of_forall_ne (forall_type_ne none) start
  · intro option _ fails options reported
    obtain ⟨info, level, added⟩ := addOption_spec option validOptions options reported
    rw [existsUnique_resolves_iff, Option.not_isSome_iff_eq_none] at fails
    rw [fails] at added
    exact ⟨info, level, added⟩
  · rw [unresolved, count]

end OptionSet

end BinaryReader

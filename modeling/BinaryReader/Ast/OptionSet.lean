import BinaryReader.Public.Error
import BinaryReader.Public.Options

/-!
# Option sets

The options a definition lists for one field.  `AddStatic` refuses a type that
is named twice, and `BuildStaticOptions` applies every option that is allowed.
-/

namespace BinaryReader

/-- `OptionSet::OptionValue`. -/
structure StaticOption where
  debug : DebugInfo
  type : OptionType
  staticValue : UtfString
  deriving DecidableEq

structure OptionSet where
  options : List StaticOption := []
  optionTypes : List OptionType := []

namespace OptionSet

/-- `std::string{AsUtf8()}` as the text of an error argument.  Only a value with a U+FFFF gives
bytes that are not UTF-8, and an option value is an identifier, which has none. -/
def utf8Text (string : UtfString) : Checked String := do
  let bytes ← string.asUtf8
  return (String.fromUTF8? ⟨bytes.toArray⟩).getD ""

def addOption (option : StaticOption) (validOptions : List OptionType) (options : Options)
    (errors : ErrorCollection) : Checked (Bool × Options × ErrorCollection) := do
  let fail kind arguments :=
    (false, options, errors.add (.ofArguments option.debug kind arguments .error))
  let types := if option.type = .unknown then validOptions else [option.type]
  match Options.parseOption types (.string option.staticValue) with
  | .invalidValueType =>
      if option.type = .unknown then
        return fail .optionMustBeString []
      else
        return fail .optionMustBeStringTyped [option.type.toString]
  | .unknownString =>
      if option.type = .unknown then
        return fail .unknownOptionValue [← utf8Text option.staticValue]
      else
        return fail .unknownOptionValueTyped
          [← utf8Text option.staticValue, option.type.toString]
  | .ambiguous =>
      return fail .ambiguousOption [← utf8Text option.staticValue]
  | .success realType realValue =>
      if validOptions ≠ [] ∧ realType ∉ validOptions then
        return fail .optionInvalidForType [realType.toString]
      match options.setOption realType realValue with
      | none => return fail .unknown []
      | some options => return (true, options, errors)

def addStatic (self : OptionSet) (debug : DebugInfo) (type : OptionType) (value : UtfString)
    (errors : ErrorCollection) : Bool × OptionSet × ErrorCollection :=
  let added := { self with options := self.options ++ [⟨debug, type, value⟩] }
  if type = .unknown then
    (true, added, errors)
  else if type ∈ self.optionTypes then
    (false, self,
      errors.add (.ofArguments debug .duplicateOption [type.toString] .error))
  else
    (true, { added with optionTypes := type :: self.optionTypes }, errors)

def buildLoop (validOptions : List OptionType) :
    List StaticOption → Bool → Options → ErrorCollection →
    Checked (Bool × Options × ErrorCollection)
  | [], ret, options, errors => .ok (ret, options, errors)
  | option :: rest, ret, options, errors => do
      let (added, options, errors) ← addOption option validOptions options errors
      buildLoop validOptions rest (ret && added) options errors

def buildStaticOptions (self : OptionSet) (validOptions : List OptionType) (options : Options)
    (errors : ErrorCollection) : Checked (Bool × Options × ErrorCollection) :=
  buildLoop validOptions self.options true options errors

def resolve (validOptions : List OptionType) (option : StaticOption) : Option OptionValue :=
  match Options.named option.staticValue.utf16Buffer with
  | some (type, value) =>
      if (option.type = .unknown ∨ option.type = type) ∧
          (validOptions = [] ∨ type ∈ validOptions) then some value else none
  | none => none

theorem utf8Text_eq (string : UtfString) : ∃ text, utf8Text string = .ok text := ⟨_, rfl⟩

/-- An option is set when it resolves, and otherwise adds one error. -/
theorem addOption_spec (option : StaticOption) (validOptions : List OptionType)
    (options : Options) (errors : ErrorCollection) :
    ∃ info : ErrorInfo, info.level = .error ∧
      addOption option validOptions options errors =
        match resolve validOptions option with
        | some value => .ok (true, options.set value, errors)
        | none => .ok (false, options, errors.add info) := by
  obtain ⟨text, textEq⟩ := utf8Text_eq option.staticValue
  simp only [addOption, resolve, Options.parseOption_string, textEq, Checked.ok_bind]
  rcases found : Options.named option.staticValue.utf16Buffer with _ | ⟨type, value⟩
  · by_cases untyped : option.type = .unknown <;> simp only [untyped, if_true, if_false]
    · exact ⟨_, rfl, rfl⟩
    · exact ⟨_, rfl, rfl⟩
  · have typed := Options.type_of_named found
    subst typed
    have invalid : (validOptions ≠ [] ∧ value.type ∉ validOptions) ↔
        ¬ (validOptions = [] ∨ value.type ∈ validOptions) := not_or.symm
    by_cases untyped : option.type = .unknown
    · by_cases valid : validOptions = [] ∨ value.type ∈ validOptions
      · refine ⟨.ofMessage {} .unknown "", rfl, ?_⟩
        simp only [untyped, valid, invalid, if_true, if_false, true_or, and_self,
          not_true_eq_false, Options.setOption_type]
        rfl
      · simp only [untyped, valid, if_true, if_false, and_false]
        exact ⟨_, rfl, rfl⟩
    · by_cases same : option.type = value.type
      · have known : value.type ≠ .unknown := by
          cases value <;> simp [OptionValue.type]
        have allowed : [value.type] = [] ∨ value.type ∈ [value.type] :=
          Or.inr (List.mem_singleton_self _)
        by_cases valid : validOptions = [] ∨ value.type ∈ validOptions
        · refine ⟨.ofMessage {} .unknown "", rfl, ?_⟩
          simp only [same, known, allowed, valid, invalid, if_true, if_false, or_true, and_self,
            not_true_eq_false, Options.setOption_type]
          rfl
        · simp only [same, known, allowed, valid, invalid, if_true, if_false, and_false,
            not_false_eq_true]
          exact ⟨_, rfl, rfl⟩
      · have refused : ¬ ([option.type] = [] ∨ value.type ∈ [option.type]) := by
          simpa using Ne.symm same
        simp only [untyped, refused, same, if_false, or_self, false_and]
        exact ⟨_, rfl, rfl⟩

/-- The options that a list of option values sets, the last one of a type winning. -/
def applied (validOptions : List OptionType) (stored : List StaticOption) (options : Options) :
    Options := (stored.filterMap (resolve validOptions)).foldl Options.set options

theorem buildLoop_spec (validOptions : List OptionType) (stored : List StaticOption) (ret : Bool)
    (options : Options) (errors : ErrorCollection) :
    ∃ infos : List ErrorInfo, (∀ info ∈ infos, info.level = .error) ∧
      infos.length = (stored.filter fun option => (resolve validOptions option).isNone).length ∧
      buildLoop validOptions stored ret options errors =
        .ok (ret && infos.isEmpty, applied validOptions stored options, errors.addAll infos) := by
  induction stored generalizing ret options errors with
  | nil => exact ⟨[], by simp, rfl, by simp [buildLoop, applied]⟩
  | cons option stored inductionHypothesis =>
      obtain ⟨info, level, added⟩ := addOption_spec option validOptions options errors
      rcases resolved : resolve validOptions option with _ | value
      · obtain ⟨infos, levels, count, looped⟩ :=
          inductionHypothesis (ret && false) options (errors.add info)
        refine ⟨info :: infos, List.forall_mem_cons.mpr ⟨level, levels⟩, by simp [resolved, count],
          ?_⟩
        rw [resolved] at added
        rw [buildLoop, added, Checked.ok_bind]
        dsimp only
        rw [looped]
        simp [applied, resolved]
      · obtain ⟨infos, levels, count, looped⟩ :=
          inductionHypothesis (ret && true) (options.set value) errors
        refine ⟨infos, levels, by simp [resolved, count], ?_⟩
        rw [resolved] at added
        rw [buildLoop, added, Checked.ok_bind]
        dsimp only
        rw [looped]
        simp [applied, resolved]

/-- `BuildStaticOptions` succeeds exactly when every option resolves. -/
theorem buildStaticOptions_spec (self : OptionSet) (validOptions : List OptionType)
    (options : Options) (errors : ErrorCollection) :
    ∃ infos : List ErrorInfo, (∀ info ∈ infos, info.level = .error) ∧
      (infos = [] ↔ ∀ option ∈ self.options, (resolve validOptions option).isSome) ∧
      self.buildStaticOptions validOptions options errors =
        .ok (infos.isEmpty, applied validOptions self.options options, errors.addAll infos) := by
  obtain ⟨infos, levels, count, looped⟩ :=
    buildLoop_spec validOptions self.options true options errors
  refine ⟨infos, levels, ?_, looped⟩
  rw [← List.length_eq_zero_iff, count, List.length_eq_zero_iff, List.filter_eq_nil_iff]
  simp [Option.isSome_iff_ne_none]

end OptionSet

end BinaryReader

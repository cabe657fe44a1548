import BinaryReader.Parser.Literals.Integers
import BinaryReader.Parser.Malformed

/-!
# What integer literals mean

An integer token is turned into a number by a signed conversion that detects
octal digits and throws when they are too many, so a literal does not always
mean what it says.
-/

namespace BinaryReader

def MainContext.numbers (ctx : MainContext) : List Token :=
  ctx.globalDefinition.flatMap fun definition =>
    definition.typeDefinition.toList.flatMap fun type =>
      type.typeMember.flatMap fun member =>
        member.dataField.toList.flatMap fun field =>
          field.expression.toList.flatMap fun expression => expression.number.toList

theorem MainContext.numeric_iff {ctx : MainContext} :
    ctx.Numeric ↔ ∀ number ∈ ctx.numbers, Converts number.text := by
  simp only [Numeric, GlobalDefinitionContext.Numeric, TypeDefinitionContext.Numeric,
    TypeMemberContext.Numeric, DataFieldContext.Numeric, numbers, List.mem_flatMap,
    Option.mem_toList, forall_exists_index, and_imp]
  constructor
  · intro numeric number definition listed type typeEq member memberListed field fieldEq expression
      expressionEq numberEq
    exact numeric definition listed type typeEq member memberListed field fieldEq expression
      expressionEq number numberEq
  · intro numeric definition listed type typeEq member memberListed field fieldEq expression
      expressionEq number numberEq
    exact numeric number definition listed type typeEq member memberListed field fieldEq expression
      expressionEq numberEq

/-- A definition of the grammar with a number of the given text, whose other numbers throw no
exception.  Errors of the recognizer have tokens. -/
structure Hosts (recognition : Recognition) (main : MainContext) (text : String) : Prop where
  located : recognition.Located
  tree : recognition.result = .ok main
  complete : main.Complete
  present : ∃ number ∈ main.numbers, number.text = text
  others : ∀ number ∈ main.numbers, number.text = text ∨ Converts number.text

/-- What a literal promises: the visitor makes its value of it if that is an unsigned number
of 64 bits, the parser returns, and a value that is too large is reported. -/
structure LiteralMeans (text : String) : Prop where
  yields : denotedValue text < 2 ^ 64 → ∀ (self : Visitor) {ctx : ExpressionContext} {number},
    ctx.number = some number → number.text = text →
    ∃ literal, self.visitExpression ctx = .ok literal ∧
      literal.value = .number (.ofUnsigned (.ofNat (denotedValue text)))
  returns : ∀ {recognize : Recognizer} {buffer main}, Hosts (recognize buffer) main text →
    ∀ path defs errors, ∃ result, parseDefinitionFile recognize path buffer defs errors = .ok result
  reports : 2 ^ 64 ≤ denotedValue text → ∀ {recognize : Recognizer} {path buffer defs errors main},
    Hosts (recognize buffer) main text → ∀ {accepted types reported},
    parseDefinitionFile recognize path buffer defs errors = .ok (accepted, types, reported) →
    ∃ infos, reported = errors.addAll infos ∧ ∃ info ∈ infos, info.level = .error

theorem ofSigned_ofNat {value : Nat} (bound : value < 2 ^ 63) :
    Number.ofSigned (.ofInt value) = .ofUnsigned (.ofNat value) := by
  have nonnegative : ¬ Int64.ofInt value < 0 := by
    rw [Int64.lt_iff_toInt_lt, Int64.toInt_ofInt_of_le (by omega) (by omega), Int64.toInt_zero]
    omega
  rw [Number.ofSigned, dif_neg nonnegative, Int64.ofInt_eq_ofNat]
  rfl

section Token

variable {decimal : DecimalClass} {text : String} (token : IntegerToken decimal text)

include token

theorem literalNumber_token :
    literalNumber text =
      if readValue text < 2 ^ 63 then .ok (.ofUnsigned (.ofNat (readValue text)))
      else .error (.exception "std::out_of_range") := by
  have whole : ¬ text.toList.any (fun symbol => symbol = '.' ∨ symbol = 'e') := by
    simpa [not_or] using token.whole
  rw [literalNumber, if_neg whole, stoll_token token]
  split_ifs with bound
  · exact congrArg Except.ok (ofSigned_ofNat bound)
  · rfl

theorem converts_token_iff : Converts text ↔ readValue text < 2 ^ 63 := by
  rw [Converts, literalNumber_token token]
  split_ifs with bound
  · exact iff_of_true ⟨_, rfl⟩ bound
  · apply iff_of_false _ bound
    rintro ⟨_, ⟨⟩⟩

theorem visitExpression_token (self : Visitor) {ctx : ExpressionContext} {number : Token}
    (present : ctx.number = some number) (same : number.text = text)
    (bound : readValue text < 2 ^ 63) :
    self.visitExpression ctx =
      .ok ⟨self.getDebugInfo ctx.start, .number (.ofUnsigned (.ofNat (readValue text)))⟩ := by
  rw [Visitor.visitExpression, present, deref_some, Checked.ok_bind, same]
  dsimp only
  rw [literalNumber_token token, if_pos bound]
  rfl

end Token

theorem Hosts.numeric {recognition : Recognition} {main : MainContext} {text : String}
    (hosts : Hosts recognition main text) : main.Numeric ↔ Converts text := by
  rw [MainContext.numeric_iff]
  constructor
  · intro numeric
    obtain ⟨number, listed, rfl⟩ := hosts.present
    exact numeric number listed
  · intro converts number listed
    rcases hosts.others number listed with rfl | other
    · exact converts
    · exact other

/-- The tree of `type a { byte x = ...; }`. -/
def expectedNumber (text : String) : MainContext :=
  ⟨[{ start := ⟨"type", 1, 0, 0⟩
      typeDefinition := some {
        start := ⟨"type", 1, 0, 0⟩
        identifier := some ⟨"a", 1, 5, 5⟩
        typeMember := [{
          start := ⟨"byte", 1, 9, 9⟩
          dataField := some {
            start := ⟨"byte", 1, 9, 9⟩
            completeType := some ⟨⟨"byte", 1, 9, 9⟩, some ⟨"byte", 1, 9, 9⟩, none⟩
            identifier := some ⟨"x", 1, 14, 14⟩
            expression := some ⟨⟨text, 1, 18, 18⟩, some ⟨text, 1, 18, 18⟩⟩ } }] } }]⟩

def alwaysTree (main : MainContext) : Recognizer := fun _ => { result := .ok main }

theorem expectedNumber_hosts (text : String) :
    Hosts (alwaysTree (expectedNumber text) []) (expectedNumber text) text where
  located := nofun
  tree := rfl
  complete := by
    refine List.forall_mem_singleton.mpr ⟨_, rfl, rfl, List.forall_mem_singleton.mpr ?_⟩
    refine ⟨_, rfl, rfl, ⟨_, rfl, rfl, nofun⟩, ?_⟩
    rintro expression ⟨⟩
    rfl
  present := ⟨_, List.mem_singleton_self _, rfl⟩
  others := List.forall_mem_singleton.mpr (Or.inl rfl)

theorem expectedNumber_fits (text : String) : DeclsFit [] (expectedNumber text).decls := by
  have fits : FieldFits [] { typeName := "byte", name := "x" } :=
    ⟨[.signedness, .byteOrder], by decide, ⟨nofun, List.nodup_nil, nofun⟩⟩
  exact ⟨⟨fits, nofun, trivial⟩, nofun, show "a" ∉ builtInNames by decide, trivial⟩

theorem expectedNumber_noErrors {text : String} (converts : Converts text) :
    ∃ accepted types infos,
      parseDefinitionFile (alwaysTree (expectedNumber text)) "" [] [] {} =
        .ok (accepted, types, ErrorCollection.addAll {} infos) ∧ NoErrors infos := by
  have hosts := expectedNumber_hosts text
  have walkable := hosts.complete.walkable (hosts.numeric.mpr converts)
  obtain ⟨types, notified, infos, parsed, unnotified, -, clean⟩ :=
    parseDefinitionFile_tree "" [] {} hosts.located hosts.tree walkable
  refine ⟨_, _, _, parsed, (noErrors_append _ _).mpr ⟨unnotified.mpr rfl, ?_⟩⟩
  exact clean.mpr (expectedNumber_fits text)

section Token

variable {decimal : DecimalClass} {text : String} (token : IntegerToken decimal text)

include token

theorem LiteralMeans.readAsDenoted (means : LiteralMeans text) : ReadAsDenoted text := by
  have hosts := expectedNumber_hosts text
  obtain ⟨result, parsed⟩ := means.returns hosts "" [] {}
  have converts : Converts text := by
    have walkable := (recoverable_of_parseDefinitionFile parsed).2 _ hosts.tree
    obtain ⟨⟨_, ⟨⟩, _, members⟩, -⟩ := walkable
    obtain ⟨_, ⟨⟩, _, _, numbers⟩ := members _ (List.mem_singleton_self _)
    obtain ⟨_, ⟨⟩, converts⟩ := numbers _ rfl
    exact converts
  have bound := (converts_token_iff token).mp converts
  -- A value that is too large would have to be reported in a definition without an error.
  have fits : denotedValue text < 2 ^ 64 := by
    by_contra excess
    obtain ⟨accepted, types, infos, returned, clean⟩ := expectedNumber_noErrors converts
    obtain ⟨others, same, info, listed, level⟩ :=
      means.reports (Nat.le_of_not_lt excess) hosts returned
    have sameInfos := congrArg ErrorCollection.errors same
    rw [ErrorCollection.addAll_errors, ErrorCollection.addAll_errors, List.nil_append,
      List.nil_append] at sameInfos
    exact clean info (sameInfos ▸ listed) level
  have same : readValue text = denotedValue text := by
    obtain ⟨literal, visited, value⟩ :=
      means.yields fits { path := "", defs := [], errors := {} }
        (show (ExpressionContext.mk ⟨text, 1, 18, 18⟩ (some ⟨text, 1, 18, 18⟩)).number = _ from rfl)
        rfl
    rw [visitExpression_token token _ rfl rfl bound] at visited
    cases visited
    have numbers := Number.unsignedInt.inj (Value.number.inj value)
    have units := congrArg UInt64.toNat numbers
    have wide : readValue text < 2 ^ 64 := bound.trans (by decide)
    rwa [UInt64.toNat_ofNat_of_lt' wide, UInt64.toNat_ofNat_of_lt' fits] at units
  rcases readValue_cases token with ⟨-, plain⟩ | ⟨less, -⟩
  · exact ⟨same ▸ bound, plain⟩
  · omega

theorem readValue_of_readAsDenoted (denoted : ReadAsDenoted text) :
    readValue text = denotedValue text := by
  rcases readValue_cases token with ⟨same, -⟩ | ⟨-, unmarked, zero, large⟩
  · exact same
  · rcases denoted.2 with marked | front | few
    · exact absurd marked unmarked
    · exact absurd zero front
    · exact absurd few (Nat.not_lt_of_le large)

/-- A literal means what it says exactly when its value has 63 bits and no zero in front of it
makes it octal. -/
theorem literalMeans_iff : LiteralMeans text ↔ ReadAsDenoted text := by
  constructor
  · exact LiteralMeans.readAsDenoted token
  · intro denoted
    have same := readValue_of_readAsDenoted token denoted
    have bound : readValue text < 2 ^ 63 := same ▸ denoted.1
    refine ⟨?_, ?_, ?_⟩
    · intro _ self ctx number present textEq
      refine ⟨_, visitExpression_token token self present textEq bound, ?_⟩
      rw [same]
    · intro recognize buffer main hosts path defs errors
      have converts := (converts_token_iff token).mpr bound
      have walkable := hosts.complete.walkable (hosts.numeric.mpr converts)
      obtain ⟨types, notified, infos, parsed, -⟩ :=
        parseDefinitionFile_tree path defs errors hosts.located hosts.tree walkable
      exact ⟨_, parsed⟩
    · intro large
      exact absurd (denoted.1.trans (by decide)) (Nat.not_lt_of_le large)

end Token

def asciiDecimal : DecimalClass where
  member := fun symbol => symbol.isDigit
  ascii := fun _ _ => Iff.rfl

theorem integerToken_digits {text : String} (nonempty : text.toList ≠ [])
    (all : (text.toList.all Char.isDigit) = true) : IntegerToken asciiDecimal text := by
  have digits : ∀ symbol ∈ text.toList, symbol.isDigit := by simpa using all
  refine ⟨?_, ?_, ?_⟩
  · have token := NumberToken.whole nonempty digits (Or.inl rfl)
      (ExponentPart.none : ExponentPart asciiDecimal [])
    rwa [List.append_nil, List.append_nil] at token
  · intro symbol membership
    have bounds := toNat_of_isDigit (digits symbol membership)
    omega
  · intro symbol membership
    have digit := digits symbol membership
    constructor
    · rintro rfl
      exact absurd digit (by decide)
    · rintro rfl
      exact absurd digit (by decide)

theorem literalMeans_iff_twelve : LiteralMeans "12" ↔ ReadAsDenoted "12" :=
  literalMeans_iff (integerToken_digits (by decide) (by decide))

/-- `010` is read as 8, and the conversion of 2^63 throws an exception. -/
theorem not_literalMeans :
    (IntegerToken asciiDecimal "010" ∧ ¬ LiteralMeans "010") ∧
      IntegerToken asciiDecimal "9223372036854775808" ∧ ¬ LiteralMeans "9223372036854775808" := by
  have octal := integerToken_digits (show "010".toList ≠ [] by decide) (by decide)
  have wide := integerToken_digits (show "9223372036854775808".toList ≠ [] by decide) (by decide)
  refine ⟨⟨octal, ?_⟩, wide, ?_⟩
  · intro means
    exact absurd (means.readAsDenoted octal) (by decide)
  · intro means
    exact absurd (means.readAsDenoted wide) (by decide)

end BinaryReader

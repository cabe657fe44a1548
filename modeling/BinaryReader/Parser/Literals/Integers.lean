import BinaryReader.Library.Numerals
import BinaryReader.Parser.Literals

/-!
# Integer literals

The tokens that the rule `NUMBER` of the grammar makes of ASCII characters
without a point and an exponent, what they denote, and what `std::stoll` with
base detection reads of them.
-/

namespace BinaryReader

open Library

/-- A set of characters with `Numeric_Type=Decimal`, whose ASCII members are the ten digits. -/
structure DecimalClass where
  member : Char → Prop
  ascii : ∀ symbol : Char, symbol.toNat < 128 → (member symbol ↔ symbol.isDigit)

/-- The part `('e' [-+]? DIGIT+)?` of a number. -/
inductive ExponentPart (decimal : DecimalClass) : List Char → Prop where
  | none : ExponentPart decimal []
  | exponent {sign digits : List Char} : sign ∈ [[], ['-'], ['+']] → digits ≠ [] →
      (∀ digit ∈ digits, decimal.member digit) →
      ExponentPart decimal ('e' :: sign ++ digits)

/-- `NUMBER : '0' [xX] DIGIT+ | DIGIT* '.' DIGIT+ ('e' [-+]? DIGIT+)?
| DIGIT+ ('.' DIGIT*)? ('e' [-+]? DIGIT+)?`. -/
inductive NumberToken (decimal : DecimalClass) : List Char → Prop where
  | hexadecimal {mark : Char} {digits : List Char} : mark = 'x' ∨ mark = 'X' → digits ≠ [] →
      (∀ digit ∈ digits, decimal.member digit) → NumberToken decimal ('0' :: mark :: digits)
  | fraction {whole fraction exponent : List Char} : (∀ digit ∈ whole, decimal.member digit) →
      fraction ≠ [] → (∀ digit ∈ fraction, decimal.member digit) →
      ExponentPart decimal exponent → NumberToken decimal (whole ++ '.' :: fraction ++ exponent)
  | whole {whole fraction exponent : List Char} : whole ≠ [] →
      (∀ digit ∈ whole, decimal.member digit) →
      (fraction = [] ∨ ∃ digits, fraction = '.' :: digits ∧ ∀ digit ∈ digits,
        decimal.member digit) →
      ExponentPart decimal exponent → NumberToken decimal (whole ++ fraction ++ exponent)

/-- A number token of ASCII characters without `.` and `e`. -/
structure IntegerToken (decimal : DecimalClass) (text : String) : Prop where
  token : NumberToken decimal text.toList
  ascii : ∀ symbol ∈ text.toList, symbol.toNat < 128
  whole : ∀ symbol ∈ text.toList, symbol ≠ '.' ∧ symbol ≠ 'e'

def hexadecimalDigits : List Char → Option (List Char)
  | '0' :: mark :: digits => if mark = 'x' ∨ mark = 'X' then some digits else none
  | _ => none

def decimalDigit (symbol : Char) : Nat := symbol.toNat - '0'.toNat

/-- What an integer token denotes: base 16 behind `0x`, and base 10 otherwise. -/
def denotedValue (text : String) : Nat :=
  match hexadecimalDigits text.toList with
  | some digits => Numerals.value 16 (digits.map decimalDigit)
  | none => Numerals.value 10 (text.toList.map decimalDigit)

def ReadAsDenoted (text : String) : Prop :=
  denotedValue text < 2 ^ 63 ∧
    ((hexadecimalDigits text.toList).isSome ∨ text.toList.head? ≠ some '0' ∨ denotedValue text < 8)

instance (text : String) : Decidable (ReadAsDenoted text) := inferInstanceAs (Decidable (_ ∧ _))

theorem IntegerToken.cases {decimal : DecimalClass} {text : String}
    (token : IntegerToken decimal text) :
    (∃ mark digits, text.toList = '0' :: mark :: digits ∧ (mark = 'x' ∨ mark = 'X') ∧
      digits ≠ [] ∧ ∀ digit ∈ digits, digit.isDigit) ∨
    (text.toList ≠ [] ∧ ∀ digit ∈ text.toList, digit.isDigit) := by
  obtain ⟨number, ascii, whole⟩ := token
  generalize text.toList = symbols at number ascii whole
  have digit {symbol : Char} (membership : symbol ∈ symbols) (member : decimal.member symbol) :
      symbol.isDigit := (decimal.ascii symbol (ascii symbol membership)).mp member
  have noExponent {front exponent : List Char} (part : ExponentPart decimal exponent)
      (split : symbols = front ++ exponent) : exponent = [] := by
    cases part with
    | none => rfl
    | exponent => exact absurd rfl (whole 'e' (by simp [split])).2
  cases number with
  | @hexadecimal mark digits isMark nonempty all =>
      apply Or.inl
      refine ⟨mark, digits, rfl, isMark, nonempty, ?_⟩
      intro symbol membership
      exact digit (by simp [membership]) (all symbol membership)
  | fraction => exact absurd rfl (whole '.' (by simp)).1
  | @whole digits fraction exponent nonempty all point part =>
      cases noExponent part rfl
      rcases point with rfl | ⟨behind, rfl, -⟩
      · apply Or.inr
        rw [List.append_nil, List.append_nil] at digit ⊢
        exact ⟨nonempty, fun symbol membership => digit membership (all symbol membership)⟩
      · exact absurd rfl (whole '.' (by simp)).1

section Stoll

theorem digitValue_of_isDigit {symbol : Char} (digit : symbol.isDigit) :
    digitValue symbol = some (decimalDigit symbol) := by
  have bounds : '0' ≤ symbol ∧ symbol ≤ '9' := by
    simpa [Char.isDigit, Char.le_def] using digit
  rw [digitValue, if_pos bounds, decimalDigit]

theorem readDigits_digits (base : Nat) {symbols : List Char}
    (all : ∀ symbol ∈ symbols, symbol.isDigit) :
    (readDigits base symbols).1 = Numerals.digitsBelow base (symbols.map decimalDigit) := by
  induction symbols with
  | nil => rfl
  | cons symbol symbols inductionHypothesis =>
      obtain ⟨digit, rest⟩ := List.forall_mem_cons.mp all
      rw [readDigits, digitValue_of_isDigit digit, List.map_cons, Numerals.digitsBelow]
      dsimp only
      by_cases fits : decimalDigit symbol < base
      · rw [if_pos fits, List.takeWhile_cons_of_pos (by simpa using fits)]
        exact congrArg _ (inductionHypothesis rest)
      · rw [if_neg fits, List.takeWhile_cons_of_neg (by simpa using fits)]

theorem toNat_of_isDigit {symbol : Char} (digit : symbol.isDigit) :
    48 ≤ symbol.toNat ∧ symbol.toNat ≤ 57 := by
  simp only [Char.isDigit, Bool.and_eq_true, decide_eq_true_eq] at digit
  exact ⟨digit.1, digit.2⟩

theorem decimalDigit_lt {symbol : Char} (digit : symbol.isDigit) : decimalDigit symbol < 10 := by
  have bounds := toNat_of_isDigit digit
  unfold decimalDigit
  have zero : '0'.toNat = 48 := rfl
  omega

theorem readDigits_all {base : Nat} (large : 10 ≤ base) {symbols : List Char}
    (all : ∀ symbol ∈ symbols, symbol.isDigit) :
    (readDigits base symbols).1 = symbols.map decimalDigit := by
  rw [readDigits_digits base all]
  apply Numerals.digitsBelow_eq_self
  rw [List.forall_mem_map]
  exact fun symbol membership => (decimalDigit_lt (all symbol membership)).trans_le large

theorem readSign_digit {symbol : Char} (digit : symbol.isDigit) (symbols : List Char) :
    readSign ((symbol :: symbols).dropWhile isSpace) = (false, symbol :: symbols) := by
  have bounds := toNat_of_isDigit digit
  have visible : ¬ isSpace symbol := by
    have space : symbol ≠ ' ' := by
      rintro rfl
      exact absurd digit (by decide)
    simp only [isSpace, space, decide_false, Bool.false_or, Bool.and_eq_true, decide_eq_true_eq]
    omega
  rw [List.dropWhile_cons_of_neg visible]
  unfold readSign
  split
  next same =>
    cases same
    exact absurd digit (by decide)
  next same =>
    cases same
    exact absurd digit (by decide)
  next => rfl

def readValue (text : String) : Nat :=
  match hexadecimalDigits text.toList with
  | some digits => Numerals.value 16 (digits.map decimalDigit)
  | none =>
      if text.toList.head? = some '0' then
        Numerals.value 8 (Numerals.digitsBelow 8 (text.toList.map decimalDigit))
      else
        Numerals.value 10 (text.toList.map decimalDigit)

theorem stoll_of_digits {text : String} {unsigned body : List Char} {base : Nat}
    {digits : List Nat} (signed : readSign (text.toList.dropWhile isSpace) = (false, unsigned))
    (detected : detectBase unsigned = (base, body)) (read : (readDigits base body).1 = digits)
    (nonempty : digits ≠ []) :
    stoll text =
      if Numerals.value base digits < 2 ^ 63 then .ok (.ofInt (Numerals.value base digits))
      else .error (.exception "std::out_of_range") := by
  simp only [stoll, signed, detected, read]
  obtain ⟨first, rest, rfl⟩ := List.exists_cons_of_ne_nil nonempty
  have same : ofDigits base (first :: rest) = Numerals.value base (first :: rest) := rfl
  have range : (-2 ^ 63 ≤ ((Numerals.value base (first :: rest) : Nat) : Int) ∧
      ((Numerals.value base (first :: rest) : Nat) : Int) < 2 ^ 63) ↔
      Numerals.value base (first :: rest) < 2 ^ 63 := by omega
  simp only [same, Bool.false_eq_true, if_false, range]

theorem not_hexadecimal {symbols : List Char} (all : ∀ symbol ∈ symbols, symbol.isDigit) :
    hexadecimalDigits symbols = none := by
  unfold hexadecimalDigits
  split
  next mark digits =>
    apply if_neg
    rintro (rfl | rfl)
    · exact absurd (all 'x' (by simp)) (by decide)
    · exact absurd (all 'X' (by simp)) (by decide)
  next => rfl

/-- Digits without a mark are octal behind a zero, and decimal otherwise. -/
theorem detectBase_digits {first : Char} {rest : List Char}
    (all : ∀ symbol ∈ first :: rest, symbol.isDigit) :
    detectBase (first :: rest) = (if first = '0' then 8 else 10, first :: rest) := by
  by_cases zero : first = '0'
  · subst zero
    rw [if_pos rfl]
    rcases rest with _ | ⟨mark, _ | ⟨digit, rest⟩⟩
    · rfl
    · rfl
    · rw [detectBase]
      apply if_neg
      rintro ⟨rfl | rfl, -⟩
      · exact absurd (all 'x' (by simp)) (by decide)
      · exact absurd (all 'X' (by simp)) (by decide)
  · rw [if_neg zero]
    unfold detectBase
    split
    next same =>
      cases same
      exact absurd rfl zero
    next same =>
      cases same
      exact absurd rfl zero
    next => rfl

theorem stoll_hexadecimal {text : String} {mark : Char} {digits : List Char}
    (split : text.toList = '0' :: mark :: digits) (isMark : mark = 'x' ∨ mark = 'X')
    (nonempty : digits ≠ []) (all : ∀ digit ∈ digits, digit.isDigit) :
    stoll text =
      if readValue text < 2 ^ 63 then .ok (.ofInt (readValue text))
      else .error (.exception "std::out_of_range") := by
  have value : readValue text = Numerals.value 16 (digits.map decimalDigit) := by
    rw [readValue, split, hexadecimalDigits, if_pos isMark]
  obtain ⟨first, rest, rfl⟩ := List.exists_cons_of_ne_nil nonempty
  have firstDigit : ∀ symbol ∈ [first], symbol.isDigit :=
    List.forall_mem_singleton.mpr (all first (List.mem_cons_self ..))
  have detected : detectBase ('0' :: mark :: first :: rest) = (16, first :: rest) := by
    rw [detectBase, readDigits_all (by decide) firstDigit]
    exact if_pos ⟨isMark, by simp⟩
  rw [value]
  have signed : readSign (text.toList.dropWhile isSpace) =
      (false, '0' :: mark :: first :: rest) := by
    rw [split]
    exact readSign_digit rfl _
  exact stoll_of_digits signed detected (readDigits_all (by decide) all) (by simp)

theorem stoll_digits {text : String} (nonempty : text.toList ≠ [])
    (all : ∀ symbol ∈ text.toList, symbol.isDigit) :
    stoll text =
      if readValue text < 2 ^ 63 then .ok (.ofInt (readValue text))
      else .error (.exception "std::out_of_range") := by
  obtain ⟨first, rest, split⟩ := List.exists_cons_of_ne_nil nonempty
  have value : readValue text = if some first = some '0' then
      Numerals.value 8 (Numerals.digitsBelow 8 (text.toList.map decimalDigit))
    else Numerals.value 10 (text.toList.map decimalDigit) := by
    rw [readValue, not_hexadecimal all, split, List.head?_cons]
  rw [split] at all value
  have signed : readSign (text.toList.dropWhile isSpace) = (false, first :: rest) := by
    rw [split]
    exact readSign_digit (all first (List.mem_cons_self ..)) rest
  have detected := detectBase_digits all
  by_cases zero : first = '0'
  · subst zero
    rw [if_pos rfl] at value detected
    rw [value]
    apply stoll_of_digits signed detected (readDigits_digits 8 all)
    rw [List.map_cons, Numerals.digitsBelow, List.takeWhile_cons_of_pos rfl]
    exact List.cons_ne_nil _ _
  · rw [if_neg zero] at detected
    rw [if_neg (by simpa using zero)] at value
    rw [value]
    exact stoll_of_digits signed detected (readDigits_all (le_refl 10) all) (by simp)

end Stoll

section Token

variable {decimal : DecimalClass} {text : String} (token : IntegerToken decimal text)

include token

theorem stoll_token :
    stoll text =
      if readValue text < 2 ^ 63 then .ok (.ofInt (readValue text))
      else .error (.exception "std::out_of_range") := by
  rcases token.cases with ⟨mark, digits, split, isMark, nonempty, all⟩ | ⟨nonempty, all⟩
  · exact stoll_hexadecimal split isMark nonempty all
  · exact stoll_digits nonempty all

/-- Without a zero in front a token is read as what it denotes, and with one as less unless it
denotes a digit of base 8. -/
theorem readValue_cases :
    (readValue text = denotedValue text ∧
      ((hexadecimalDigits text.toList).isSome ∨ text.toList.head? ≠ some '0' ∨
        denotedValue text < 8)) ∨
    (readValue text < denotedValue text ∧ ¬ (hexadecimalDigits text.toList).isSome ∧
      text.toList.head? = some '0' ∧ 8 ≤ denotedValue text) := by
  rcases token.cases with ⟨mark, digits, split, isMark, nonempty, all⟩ | ⟨nonempty, all⟩
  · have marked : hexadecimalDigits text.toList = some digits := by
      rw [split, hexadecimalDigits, if_pos isMark]
    apply Or.inl
    rw [readValue, denotedValue, marked]
    exact ⟨rfl, Or.inl rfl⟩
  · rw [readValue, denotedValue, not_hexadecimal all]
    dsimp only
    by_cases zero : text.toList.head? = some '0'
    · rw [if_pos zero]
      obtain ⟨same, less⟩ := Numerals.value_digitsBelow (show 0 < 8 by decide)
        (show 8 < 10 by decide) (text.toList.map decimalDigit)
      rcases Nat.lt_or_ge (Numerals.value 10 (text.toList.map decimalDigit)) 8 with small | large
      · exact Or.inl ⟨same small, Or.inr (Or.inr small)⟩
      · exact Or.inr ⟨less large, by simp, zero, large⟩
    · rw [if_neg zero]
      exact Or.inl ⟨rfl, Or.inr (Or.inl zero)⟩

end Token

example : readValue "0123" = 83 ∧ readValue "09" = 0 ∧ readValue "0x45" = 69 := by decide

end BinaryReader

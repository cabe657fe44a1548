import BinaryReader.Library.Json

/-!
# Texts that are read as they stand

Plain characters, decimal integers and lists of members are read back as what
they spell, whatever white space stands around them.
-/

namespace Library.Json

open Unicode

def Blank (text : List Char) : Prop := ∀ char ∈ text, isBlank char

/-- A text that does not continue a number. -/
def Follows (text : List Char) : Prop :=
  ∀ char ∈ text.head?, ¬ char.isDigit ∧ char ≠ '.' ∧ char ≠ 'e' ∧ char ≠ 'E'

theorem skip_append {blanks : List Char} (blank : Blank blanks) (text : List Char) :
    skip (blanks ++ text) = skip text := List.dropWhile_append_of_pos blank

theorem skip_cons {char : Char} (visible : ¬ isBlank char) (text : List Char) :
    skip (char :: text) = char :: text := List.dropWhile_cons_of_neg visible

theorem follows_nil : Follows [] := by
  intro char membership
  cases membership

theorem follows_cons {char : Char}
    (ends : ¬ char.isDigit ∧ char ≠ '.' ∧ char ≠ 'e' ∧ char ≠ 'E') (text : List Char) :
    Follows (char :: text) := by
  intro first membership
  cases Option.mem_some_iff.mp membership
  exact ends

theorem follows_cons_of_blank {char : Char} (blank : isBlank char) (text : List Char) :
    Follows (char :: text) := by
  apply follows_cons
  simp only [isBlank, Bool.or_eq_true, decide_eq_true_eq] at blank
  rcases blank with ((rfl | rfl) | rfl) | rfl <;> decide

theorem follows_append {blanks text : List Char} (blank : Blank blanks) (follows : Follows text) :
    Follows (blanks ++ text) := by
  cases blanks with
  | nil => exact follows
  | cons char blanks => exact follows_cons_of_blank (List.forall_mem_cons.mp blank).1 _

section

variable {rest : List Char} (follows : Follows rest)

include follows

theorem parseDigits_append {digits : List Char} (nonempty : digits ≠ [])
    (all : ∀ char ∈ digits, char.isDigit) :
    parseDigits (digits ++ rest) = some (digits, rest) := by
  have stop : rest.takeWhile Char.isDigit = [] ∧ rest.dropWhile Char.isDigit = rest := by
    cases rest with
    | nil => exact ⟨rfl, rfl⟩
    | cons char rest =>
        have other := (follows char (Option.mem_some_self char)).1
        exact ⟨List.takeWhile_cons_of_neg other, List.dropWhile_cons_of_neg other⟩
  rw [parseDigits, List.takeWhile_append_of_pos all, List.dropWhile_append_of_pos all, stop.1,
    stop.2, List.append_nil, if_neg nonempty]

theorem parseFraction_of_follows : parseFraction rest = some ([], rest) := by
  unfold parseFraction
  split
  · exact absurd rfl (follows '.' (Option.mem_some_self '.')).2.1
  · rfl

theorem parseExponent_of_follows : parseExponent rest = some (0, rest) := by
  unfold parseExponent
  split
  · exact absurd rfl (follows 'e' (Option.mem_some_self 'e')).2.2.1
  · exact absurd rfl (follows 'E' (Option.mem_some_self 'E')).2.2.2
  · rfl

end

theorem isDigit_of_mem_toDigits {value : Nat} {char : Char}
    (membership : char ∈ Nat.toDigits 10 value) : char.isDigit :=
  Nat.isDigit_of_mem_toDigits (Nat.succ_pos 9) (Nat.le_refl 10) membership

theorem toDigits_head {value : Nat} (positive : 0 < value) :
    ∃ first behind, Nat.toDigits 10 value = first :: behind ∧ first ≠ '0' := by
  induction value using Nat.strong_induction_on with
  | _ value inductionHypothesis =>
      by_cases small : value < 10
      · refine ⟨_, [], Nat.toDigits_of_lt_base small, ?_⟩
        interval_cases value <;> decide
      · have large : 10 ≤ value := Nat.le_of_not_lt small
        obtain ⟨first, behind, digits, differs⟩ :=
          inductionHypothesis (value / 10) (by omega) (by omega)
        refine ⟨first, behind ++ [Nat.digitChar (value % 10)], ?_, differs⟩
        rw [Nat.toDigits_of_base_le (by decide) large, digits, List.cons_append]

theorem parseInteger_toDigits (value : Nat) {rest : List Char} (follows : Follows rest) :
    parseInteger (Nat.toDigits 10 value ++ rest) = some (Nat.toDigits 10 value, rest) := by
  rcases Nat.eq_zero_or_pos value with rfl | positive
  · rw [Nat.toDigits_zero]
    rfl
  · obtain ⟨first, behind, digits, differs⟩ := toDigits_head positive
    have whole := parseDigits_append follows Nat.toDigits_ne_nil
      fun char => @isDigit_of_mem_toDigits value char
    rw [digits] at whole ⊢
    unfold parseInteger
    split
    · rename_i same
      exact absurd (List.cons.inj same).1 differs
    · exact whole

theorem parseUnsigned_toDigits (value : Nat) {rest : List Char} (follows : Follows rest) :
    parseUnsigned (Nat.toDigits 10 value ++ rest) = some ((value : ℚ), rest) := by
  rw [parseUnsigned, parseInteger_toDigits value follows]
  simp only [Option.bind_eq_bind, Option.bind_some, parseFraction_of_follows follows,
    parseExponent_of_follows follows, List.append_nil, Nat.ofDigitChars_ten_toDigits,
    List.length_nil, Nat.cast_zero, sub_zero, zpow_zero, mul_one]
  rfl

theorem parseNumber_of_unsigned {char : Char} (differs : char ≠ '-') (text : List Char) :
    parseNumber (char :: text) = parseUnsigned (char :: text) := by
  unfold parseNumber
  split
  · rename_i same
    exact absurd (List.cons.inj same).1 differs
  · rfl

theorem toString_negSucc (value : Nat) :
    (toString (Int.negSucc value)).toList = '-' :: Nat.toDigits 10 (value + 1) :=
  String.toList_append.trans (congrArg _ Nat.toList_repr)

theorem toString_ofNat (value : Nat) :
    (toString (Int.ofNat value)).toList = Nat.toDigits 10 value := Nat.toList_repr

theorem toString_characters (value : Int) :
    ∀ char ∈ (toString value).toList, char.isDigit ∨ char = '-' := by
  intro char membership
  cases value with
  | ofNat value =>
      rw [toString_ofNat] at membership
      exact Or.inl (isDigit_of_mem_toDigits membership)
  | negSucc value =>
      rw [toString_negSucc] at membership
      rcases List.mem_cons.mp membership with sign | digit
      · exact Or.inr sign
      · exact Or.inl (isDigit_of_mem_toDigits digit)

theorem parseNumber_toString (value : Int) {rest : List Char} (follows : Follows rest) :
    ∃ first behind, (toString value).toList = first :: behind ∧ (first.isDigit ∨ first = '-') ∧
      parseNumber (first :: behind ++ rest) = some ((value : ℚ), rest) := by
  cases value with
  | ofNat value =>
      have parsed := parseUnsigned_toDigits value follows
      rw [toString_ofNat]
      cases spelled : Nat.toDigits 10 value with
      | nil => exact absurd spelled Nat.toDigits_ne_nil
      | cons first behind =>
          have digit : first.isDigit := isDigit_of_mem_toDigits (by
            rw [spelled]
            exact List.mem_cons_self)
          have differs : first ≠ '-' := by
            rintro rfl
            exact absurd digit (by decide)
          rw [spelled] at parsed
          exact ⟨first, behind, rfl, Or.inl digit, (parseNumber_of_unsigned differs _).trans parsed⟩
  | negSucc value =>
      refine ⟨_, _, toString_negSucc value, Or.inr rfl, ?_⟩
      have parsed := parseUnsigned_toDigits (value + 1) follows
      have negative : -((value + 1 : Nat) : ℚ) = ((Int.negSucc value : Int) : ℚ) :=
        (Int.cast_negSucc value).symm
      rw [List.cons_append, parseNumber, parsed, Option.map_some, negative]

theorem not_isBlank_of_number {char : Char} (start : char.isDigit ∨ char = '-') :
    ¬ isBlank char := by
  intro blank
  simp only [isBlank, Bool.or_eq_true, decide_eq_true_eq] at blank
  rcases blank with ((rfl | rfl) | rfl) | rfl <;> exact absurd start (by decide)

theorem parseString_plain {text : List Char} (plain : ∀ char ∈ text, Plain char)
    (rest : List Char) : parseString (text ++ '"' :: rest) = some (utf16Text text, rest) := by
  induction text with
  | nil => exact parseString_quote rest
  | cons char text inductionHypothesis =>
      rcases List.forall_mem_cons.mp plain with ⟨⟨quote, solidus, printable⟩, others⟩
      rw [List.cons_append, parseString_self quote solidus, if_neg (Nat.not_lt_of_le printable),
        inductionHypothesis others, utf16Text_cons]
      rfl

theorem parseMember_plain {name : List Char} (plain : ∀ char ∈ name, Plain char)
    {parser : List Char → Option (Json × List Char)} {text rest : List Char} {value : Json}
    (parsed : parser (skip text) = some (value, rest)) :
    parseMember parser ('"' :: name ++ '"' :: ':' :: text) =
      some ((utf16Text name, value), rest) := by
  apply parseMember_eq_some_iff.mpr
  exact ⟨_, _, text, rfl, parseString_plain plain _, skip_cons (by decide) text, parsed⟩

section

variable {Item : Type} {parseItem : List Char → Option (Item × List Char)} {close : Char}
  {text behind : List Char} {item : Item} (parsed : parseItem (skip text) = some (item, behind))

include parsed

theorem parseItems_last {rest : List Char} (closed : skip behind = close :: rest) (fuel : Nat) :
    parseItems parseItem close (fuel + 1) text = some ([item], rest) := by
  exact parseItems_eq_some_iff.mpr ⟨item, behind, parsed, Or.inl ⟨closed, rfl⟩⟩

theorem parseItems_more {following rest : List Char} {items : List Item} {fuel : Nat}
    (differs : close ≠ ',') (comma : skip behind = ',' :: following)
    (more : parseItems parseItem close fuel following = some (items, rest)) :
    parseItems parseItem close (fuel + 1) text = some (item :: items, rest) := by
  exact parseItems_eq_some_iff.mpr
    ⟨item, behind, parsed, Or.inr ⟨differs, following, items, comma, more, rfl⟩⟩

end

theorem parseValue_number {char : Char} (spelled : char.isDigit ∨ char = '-') (text : List Char)
    (fuel : Nat) :
    parseValue (fuel + 1) (char :: text) =
      (parseNumber (char :: text)).map fun parsed => (.number parsed.1, parsed.2) := by
  have differs : ∀ other : Char, ¬ other.isDigit → other ≠ '-' → char ≠ other := by
    rintro other letter sign rfl
    rcases spelled with digit | minus
    · exact letter digit
    · exact sign minus
  rw [parseValue, if_neg (differs '"' (by decide) (by decide)),
    if_neg (differs '[' (by decide) (by decide)), if_neg (differs '{' (by decide) (by decide)),
    if_neg (differs 'n' (by decide) (by decide)), if_neg (differs 't' (by decide) (by decide)),
    if_neg (differs 'f' (by decide) (by decide))]

end Library.Json

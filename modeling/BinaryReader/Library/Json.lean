import BinaryReader.Library.Unicode.Characters
import Mathlib.Algebra.Field.Rat
import Mathlib.Data.List.Nodup

/-!
# JSON texts

The grammar of RFC 8259, read as a parser with fuel.  An escape stands for one
UTF-16 code unit, so a string is a list of code units.  The members of an object
stay in the order of the text; as a map, the last member of a name counts.
-/

namespace Library

inductive Json where
  | null
  | bool (value : Bool)
  | number (value : ℚ)
  | string (units : List UInt16)
  | array (elements : List Json)
  | object (members : List (List UInt16 × Json))

namespace Json

open Unicode

/-- The member of a name when the members are taken as a map. -/
def lastOf (name : List UInt16) (members : List (List UInt16 × Json)) : Option Json :=
  members.reverse.lookup name

theorem mem_of_lastOf {name : List UInt16} {members : List (List UInt16 × Json)} {value : Json}
    (found : lastOf name members = some value) : (name, value) ∈ members := by
  obtain ⟨front, behind, split, _⟩ := List.lookup_eq_some_iff.mp found
  apply List.mem_reverse.mp
  rw [split]
  exact List.mem_append_right _ List.mem_cons_self

theorem lastOf_of_mem {members : List (List UInt16 × Json)}
    (distinct : (members.map Prod.fst).Nodup) {name : List UInt16} {value : Json}
    (membership : (name, value) ∈ members) : lastOf name members = some value := by
  obtain ⟨front, behind, split⟩ := List.append_of_mem (List.mem_reverse.mpr membership)
  refine List.lookup_eq_some_iff.mpr ⟨front, behind, split, ?_⟩
  rw [← List.nodup_reverse, ← List.map_reverse, split, List.map_append, List.nodup_append]
    at distinct
  intro entry early
  apply bne_iff_ne.mpr
  intro same
  exact distinct.2.2 entry.1 (List.mem_map_of_mem early) name List.mem_cons_self same.symm

def isBlank (char : Char) : Bool := char = ' ' || char = '\t' || char = '\n' || char = '\r'

def skip (text : List Char) : List Char := text.dropWhile isBlank

def expect (char : Char) : List Char → Option (List Char)
  | [] => none
  | first :: rest => if first = char then some rest else none

theorem expect_eq_some_iff {char : Char} {text rest : List Char} :
    expect char text = some rest ↔ text = char :: rest := by
  cases text with
  | nil => simp [expect]
  | cons first text => simp [expect]

def expectAll : List Char → List Char → Option (List Char)
  | [], text => some text
  | char :: chars, text => (expect char text).bind (expectAll chars)

theorem expectAll_eq_some_iff {chars text rest : List Char} :
    expectAll chars text = some rest ↔ text = chars ++ rest := by
  induction chars generalizing text with
  | nil => simp [expectAll]
  | cons char chars inductionHypothesis =>
      simp only [expectAll, Option.bind_eq_some_iff, expect_eq_some_iff, inductionHypothesis]
      constructor
      · rintro ⟨_, rfl, rfl⟩
        rfl
      · intro textEq
        exact ⟨_, textEq, rfl⟩

def parseDigits (text : List Char) : Option (List Char × List Char) :=
  if text.takeWhile Char.isDigit = [] then none
  else some (text.takeWhile Char.isDigit, text.dropWhile Char.isDigit)

def parseInteger : List Char → Option (List Char × List Char)
  | '0' :: text => some (['0'], text)
  | text => parseDigits text

def parseFraction : List Char → Option (List Char × List Char)
  | '.' :: text => parseDigits text
  | text => some ([], text)

def parsePower : List Char → Option (Int × List Char)
  | '-' :: text => (parseDigits text).map fun parsed =>
      (-(Nat.ofDigitChars 10 parsed.1 0 : Int), parsed.2)
  | '+' :: text => (parseDigits text).map fun parsed =>
      ((Nat.ofDigitChars 10 parsed.1 0 : Int), parsed.2)
  | text => (parseDigits text).map fun parsed =>
      ((Nat.ofDigitChars 10 parsed.1 0 : Int), parsed.2)

def parseExponent : List Char → Option (Int × List Char)
  | 'e' :: text => parsePower text
  | 'E' :: text => parsePower text
  | text => some (0, text)

def parseUnsigned (text : List Char) : Option (ℚ × List Char) := do
  let (whole, text) ← parseInteger text
  let (fraction, text) ← parseFraction text
  let (exponent, rest) ← parseExponent text
  let mantissa := Nat.ofDigitChars 10 (whole ++ fraction) 0
  return ((mantissa : ℚ) * 10 ^ (exponent - fraction.length), rest)

def parseNumber : List Char → Option (ℚ × List Char)
  | '-' :: text => (parseUnsigned text).map fun parsed => (-parsed.1, parsed.2)
  | text => parseUnsigned text

def hexValue (char : Char) : Option Nat :=
  if char.isDigit then some (char.toNat - '0'.toNat)
  else if 'a' ≤ char ∧ char ≤ 'f' then some (char.toNat - 'a'.toNat + 10)
  else if 'A' ≤ char ∧ char ≤ 'F' then some (char.toNat - 'A'.toNat + 10)
  else none

def hexUnit (first second third fourth : Char) : Option UInt16 := do
  let first ← hexValue first
  let second ← hexValue second
  let third ← hexValue third
  let fourth ← hexValue fourth
  return .ofNat (((first * 16 + second) * 16 + third) * 16 + fourth)

def escaped : Char → Option UInt16
  | '"' => some 0x22
  | '\\' => some 0x5c
  | '/' => some 0x2f
  | 'b' => some 0x08
  | 'f' => some 0x0c
  | 'n' => some 0x0a
  | 'r' => some 0x0d
  | 't' => some 0x09
  | _ => none

def prepend (units : List UInt16) (parsed : Option (List UInt16 × List Char)) :
    Option (List UInt16 × List Char) :=
  parsed.map fun parsed => (units ++ parsed.1, parsed.2)

def parseString : List Char → Option (List UInt16 × List Char)
  | [] => none
  | char :: text =>
      if char = '"' then some ([], text)
      else if char = '\\' then
        match text with
        | 'u' :: first :: second :: third :: fourth :: text =>
            (hexUnit first second third fourth).bind fun unit => prepend [unit] (parseString text)
        | letter :: text => (escaped letter).bind fun unit => prepend [unit] (parseString text)
        | [] => none
      else if char.toNat < 0x20 then none
      else prepend (utf16 char.toNat) (parseString text)

/-- A character that may stand for itself in a string. -/
def Plain (char : Char) : Prop := char ≠ '"' ∧ char ≠ '\\' ∧ 0x20 ≤ char.toNat

instance : DecidablePred Plain := fun _ => inferInstanceAs (Decidable (_ ∧ _ ∧ _))

theorem plain_of_large {char : Char} (large : 0x80 ≤ char.toNat) : Plain char := by
  refine ⟨?_, ?_, Nat.le_trans (by decide) large⟩
  · rintro rfl
    exact absurd large (by decide)
  · rintro rfl
    exact absurd large (by decide)

theorem parseString_quote (text : List Char) : parseString ('"' :: text) = some ([], text) := by
  rw [parseString.eq_def]
  rfl

theorem parseString_unicode (first second third fourth : Char) (text : List Char) :
    parseString ('\\' :: 'u' :: first :: second :: third :: fourth :: text) =
      (hexUnit first second third fourth).bind fun unit => prepend [unit] (parseString text) := by
  rw [parseString.eq_def]
  rfl

theorem parseString_letter {letter : Char} {text : List Char}
    (other : ∀ first second third fourth behind, letter = 'u' →
      text = first :: second :: third :: fourth :: behind → False) :
    parseString ('\\' :: letter :: text) =
      (escaped letter).bind fun unit => prepend [unit] (parseString text) := by
  rw [parseString.eq_def]
  dsimp only
  rw [if_neg (by decide), if_pos rfl]
  split
  · rename_i same
    cases same
    exact (other _ _ _ _ _ rfl rfl).elim
  · rename_i same
    cases same
    rfl
  · rename_i same
    cases same

theorem parseString_self {char : Char} (quote : char ≠ '"') (solidus : char ≠ '\\')
    (text : List Char) :
    parseString (char :: text) =
      if char.toNat < 0x20 then none else prepend (utf16 char.toNat) (parseString text) := by
  rw [parseString.eq_def]
  dsimp only
  rw [if_neg quote, if_neg solidus]

section

variable {Item : Type} (parseItem : List Char → Option (Item × List Char)) (close : Char)

def parseItems : Nat → List Char → Option (List Item × List Char)
  | 0, _ => none
  | fuel + 1, text => do
      let (item, text) ← parseItem (skip text)
      match skip text with
      | [] => none
      | char :: text =>
          if char = close then some ([item], text)
          else if char = ',' then
            (parseItems fuel text).map fun parsed => (item :: parsed.1, parsed.2)
          else none

/-- Any number of items with commas between them, up to the closing character. -/
def parseList (fuel : Nat) (text : List Char) : Option (List Item × List Char) :=
  match expect close (skip text) with
  | some rest => some ([], rest)
  | none => parseItems parseItem close fuel text

end

section

variable {Item : Type} {parseItem : List Char → Option (Item × List Char)} {close : Char}
  {text rest : List Char} {items : List Item}

theorem parseItems_eq_some_iff {fuel : Nat} :
    parseItems parseItem close (fuel + 1) text = some (items, rest) ↔
      ∃ item behind, parseItem (skip text) = some (item, behind) ∧
        (skip behind = close :: rest ∧ items = [item] ∨
          close ≠ ',' ∧ ∃ following others, skip behind = ',' :: following ∧
            parseItems parseItem close fuel following = some (others, rest) ∧
            items = item :: others) := by
  constructor
  · intro found
    obtain ⟨⟨item, behind⟩, itemFound, found⟩ := Option.bind_eq_some_iff.mp found
    refine ⟨item, behind, itemFound, ?_⟩
    dsimp only at found
    split at found
    · cases found
    · rename_i char following skipped
      split_ifs at found with closed comma
      · cases found
        exact Or.inl ⟨closed ▸ skipped, rfl⟩
      · obtain ⟨⟨others, left⟩, othersFound, same⟩ := Option.map_eq_some_iff.mp found
        cases same
        refine Or.inr ⟨?_, following, others, comma ▸ skipped, othersFound, rfl⟩
        intro isComma
        exact closed (comma.trans isComma.symm)
  · rintro ⟨item, behind, itemFound, ⟨closed, rfl⟩ |
      ⟨differs, following, others, comma, othersFound, rfl⟩⟩
    · simp only [parseItems, itemFound, Option.bind_eq_bind, Option.bind_some, closed, if_true]
    · simp only [parseItems, itemFound, Option.bind_eq_bind, Option.bind_some, comma,
        if_neg differs.symm, if_true, othersFound, Option.map_some]

theorem parseList_eq_some_iff {fuel : Nat} :
    parseList parseItem close fuel text = some (items, rest) ↔
      skip text = close :: rest ∧ items = [] ∨
        (∀ behind, skip text ≠ close :: behind) ∧
          parseItems parseItem close fuel text = some (items, rest) := by
  unfold parseList
  cases closed : expect close (skip text) with
  | some behind =>
      rw [expect_eq_some_iff] at closed
      constructor
      · intro same
        cases same
        exact Or.inl ⟨closed, rfl⟩
      · rintro (⟨same, rfl⟩ | ⟨differs, _⟩)
        · rw [closed] at same
          cases same
          rfl
        · exact absurd closed (differs behind)
  | none =>
      have differs : ∀ behind, skip text ≠ close :: behind := by
        intro behind same
        rw [expect_eq_some_iff.mpr same] at closed
        cases closed
      constructor
      · intro found
        exact Or.inr ⟨differs, found⟩
      · rintro (⟨same, _⟩ | ⟨_, found⟩)
        · exact absurd same (differs rest)
        · exact found

end

def parseMember (parseValue : List Char → Option (Json × List Char)) (text : List Char) :
    Option ((List UInt16 × Json) × List Char) := do
  let text ← expect '"' text
  let (name, text) ← parseString text
  let text ← expect ':' (skip text)
  let (value, rest) ← parseValue (skip text)
  return ((name, value), rest)

theorem parseMember_eq_some_iff {parser : List Char → Option (Json × List Char)}
    {text rest : List Char} {member : List UInt16 × Json} :
    parseMember parser text = some (member, rest) ↔
      ∃ quoted behind following, text = '"' :: quoted ∧
        parseString quoted = some (member.1, behind) ∧ skip behind = ':' :: following ∧
        parser (skip following) = some (member.2, rest) := by
  constructor
  · intro found
    obtain ⟨quoted, quote, found⟩ := Option.bind_eq_some_iff.mp found
    obtain ⟨⟨name, behind⟩, nameFound, found⟩ := Option.bind_eq_some_iff.mp found
    obtain ⟨following, colon, found⟩ := Option.bind_eq_some_iff.mp found
    obtain ⟨⟨value, left⟩, valueFound, found⟩ := Option.bind_eq_some_iff.mp found
    cases found
    exact ⟨quoted, behind, following, expect_eq_some_iff.mp quote, nameFound,
      expect_eq_some_iff.mp colon, valueFound⟩
  · rintro ⟨quoted, behind, following, rfl, nameFound, colon, valueFound⟩
    have quote : expect '"' ('"' :: quoted) = some quoted := expect_eq_some_iff.mpr rfl
    simp only [parseMember, quote, nameFound, expect_eq_some_iff.mpr colon, valueFound,
      Option.bind_eq_bind, Option.bind_some]
    rfl

/-- A value without the white space around it.  Every level of nesting takes fuel. -/
def parseValue : Nat → List Char → Option (Json × List Char)
  | 0, _ => none
  | _ + 1, [] => none
  | fuel + 1, char :: text =>
      if char = '"' then (parseString text).map fun parsed => (.string parsed.1, parsed.2)
      else if char = '[' then
        (parseList (parseValue fuel) ']' fuel text).map fun parsed => (.array parsed.1, parsed.2)
      else if char = '{' then
        (parseList (parseMember (parseValue fuel)) '}' fuel text).map fun parsed =>
          (.object parsed.1, parsed.2)
      else if char = 'n' then (expectAll ['u', 'l', 'l'] text).map fun rest => (.null, rest)
      else if char = 't' then (expectAll ['r', 'u', 'e'] text).map fun rest => (.bool true, rest)
      else if char = 'f' then
        (expectAll ['a', 'l', 's', 'e'] text).map fun rest => (.bool false, rest)
      else (parseNumber (char :: text)).map fun parsed => (.number parsed.1, parsed.2)

def Document (text : List Char) (json : Json) : Prop :=
  ∃ fuel rest, parseValue fuel (skip text) = some (json, rest) ∧ skip rest = []

example : (parseValue 3 ['{', '"', '\\', 'n', '"', ':', ' ', '[', '{', '}', ']', '}']).isSome := by
  decide

example : (parseValue 3 ['[', '1', ',', ']']).isNone := by decide

end Json

end Library

import BinaryReader.Library.Json
import Mathlib.Algebra.Order.BigOperators.Group.List
import Mathlib.Data.List.Perm.Subperm

/-!
# What a text spends on its strings

Every code unit that cannot stand for itself in a string costs a reverse
solidus, and a `\u` escape costs two characters of weight one.  So the weight of
a text bounds the weight of the code units in the value it is parsed to.
-/

namespace Library.Json

open Unicode

def charWeight (char : Char) : Nat := if char = '\\' ∨ char = 'u' then 1 else 0

def weight (text : List Char) : Nat := (text.map charWeight).sum

/-- What the escape of a code unit weighs, if it needs one. -/
def unitWeight (unit : UInt16) : Nat :=
  if unit = 0x5c then 2 else if unit = 0x75 ∨ unit = 0x22 ∨ unit < 0x20 then 1 else 0

def unitsWeight (units : List UInt16) : Nat := (units.map unitWeight).sum

mutual

def measure : Json → Nat
  | .null => 1
  | .bool value => if value then 1 else 0
  | .number _ => 0
  | .string units => unitsWeight units
  | .array elements => measureElements elements
  | .object members => measureMembers members

def measureElements : List Json → Nat
  | [] => 0
  | element :: elements => measure element + measureElements elements

def measureMembers : List (List UInt16 × Json) → Nat
  | [] => 0
  | (name, value) :: members => unitsWeight name + measure value + measureMembers members

end

@[simp]
theorem weight_nil : weight [] = 0 := rfl

@[simp]
theorem weight_cons (char : Char) (text : List Char) :
    weight (char :: text) = charWeight char + weight text := List.sum_cons

@[simp]
theorem weight_append (first second : List Char) :
    weight (first ++ second) = weight first + weight second := by
  rw [weight, List.map_append, List.sum_append]
  rfl

theorem unitsWeight_singleton (unit : UInt16) : unitsWeight [unit] = unitWeight unit := rfl

@[simp]
theorem unitsWeight_append (first second : List UInt16) :
    unitsWeight (first ++ second) = unitsWeight first + unitsWeight second := by
  rw [unitsWeight, List.map_append, List.sum_append]
  rfl

theorem weight_le_of_suffix {rest text : List Char} (suffix : rest <:+ text) :
    weight rest ≤ weight text := by
  obtain ⟨front, rfl⟩ := suffix
  rw [weight_append]
  exact Nat.le_add_left _ _

/-- A parser spends at least the weight of what it returns. -/
def Pays {Item : Type} (cost : Item → Nat)
    (parser : List Char → Option (Item × List Char)) : Prop :=
  ∀ {text item rest}, parser text = some (item, rest) → cost item + weight rest ≤ weight text

theorem skip_suffix (text : List Char) : skip text <:+ text := List.dropWhile_suffix _

theorem weight_skip_le (text : List Char) : weight (skip text) ≤ weight text :=
  weight_le_of_suffix (skip_suffix text)

/-- A parser leaves the end of its text. -/
def LeavesEnd {Item : Type} (parser : List Char → Option (Item × List Char)) : Prop :=
  ∀ {text item rest}, parser text = some (item, rest) → rest <:+ text

theorem parseDigits_leavesEnd : LeavesEnd parseDigits := by
  intro text digits rest parsed
  rw [parseDigits] at parsed
  split_ifs at parsed
  cases parsed
  exact List.dropWhile_suffix _

theorem parseInteger_leavesEnd : LeavesEnd parseInteger := by
  intro text digits rest parsed
  unfold parseInteger at parsed
  split at parsed
  · cases parsed
    exact List.suffix_cons _ _
  · exact parseDigits_leavesEnd parsed

theorem parseFraction_leavesEnd : LeavesEnd parseFraction := by
  intro text digits rest parsed
  unfold parseFraction at parsed
  split at parsed
  · exact (parseDigits_leavesEnd parsed).trans (List.suffix_cons _ _)
  · cases parsed
    exact List.suffix_rfl

theorem LeavesEnd.map {Item Other : Type} {parser : List Char → Option (Item × List Char)}
    (leavesEnd : LeavesEnd parser) {change : Item × List Char → Other × List Char}
    {text rest : List Char} {item : Other} (parsed : (parser text).map change = some (item, rest))
    (same : ∀ parsed, (change parsed).2 = parsed.2) : rest <:+ text := by
  obtain ⟨found, parsedFound, changed⟩ := Option.map_eq_some_iff.mp parsed
  have restEq : found.2 = rest := (same found).symm.trans (congrArg Prod.snd changed)
  rw [← restEq]
  exact leavesEnd parsedFound

theorem parsePower_leavesEnd : LeavesEnd parsePower := by
  intro text power rest parsed
  unfold parsePower at parsed
  split at parsed
  · exact (parseDigits_leavesEnd.map parsed fun _ => rfl).trans (List.suffix_cons _ _)
  · exact (parseDigits_leavesEnd.map parsed fun _ => rfl).trans (List.suffix_cons _ _)
  · exact parseDigits_leavesEnd.map parsed fun _ => rfl

theorem parseExponent_leavesEnd : LeavesEnd parseExponent := by
  intro text exponent rest parsed
  unfold parseExponent at parsed
  split at parsed
  · exact (parsePower_leavesEnd parsed).trans (List.suffix_cons _ _)
  · exact (parsePower_leavesEnd parsed).trans (List.suffix_cons _ _)
  · cases parsed
    exact List.suffix_rfl

theorem parseUnsigned_leavesEnd : LeavesEnd parseUnsigned := by
  intro text value rest parsed
  obtain ⟨⟨whole, first⟩, wholeParsed, parsed⟩ := Option.bind_eq_some_iff.mp parsed
  obtain ⟨⟨fraction, second⟩, fractionParsed, parsed⟩ := Option.bind_eq_some_iff.mp parsed
  obtain ⟨⟨exponent, third⟩, exponentParsed, parsed⟩ := Option.bind_eq_some_iff.mp parsed
  cases parsed
  exact (parseExponent_leavesEnd exponentParsed).trans
    ((parseFraction_leavesEnd fractionParsed).trans (parseInteger_leavesEnd wholeParsed))

theorem parseNumber_leavesEnd : LeavesEnd parseNumber := by
  intro text value rest parsed
  unfold parseNumber at parsed
  split at parsed
  · exact (parseUnsigned_leavesEnd.map parsed fun _ => rfl).trans (List.suffix_cons _ _)
  · exact parseUnsigned_leavesEnd parsed

theorem unitWeight_le (unit : UInt16) : unitWeight unit ≤ 2 := by
  unfold unitWeight
  split_ifs <;> decide

theorem charWeight_of_large {char : Char} (large : 0x80 ≤ char.toNat) : charWeight char = 0 := by
  rw [charWeight, if_neg]
  rintro (rfl | rfl)
  · exact absurd large (by decide)
  · exact absurd large (by decide)

theorem unitWeight_of_large {unit : UInt16} (large : 0x80 ≤ unit.toNat) : unitWeight unit = 0 := by
  simp only [unitWeight, ← UInt16.toNat_inj, UInt16.lt_iff_toNat_lt, UInt16.reduceToNat]
  rw [if_neg (by omega), if_neg (by omega)]

theorem unitWeight_escaped {letter : Char} {unit : UInt16} (found : escaped letter = some unit) :
    unitWeight unit ≤ 1 + charWeight letter := by
  unfold escaped at found
  split at found <;> cases found <;> decide

theorem unitsWeight_utf16_small {char : Char} (small : char.toNat < 0x10000) :
    unitsWeight (utf16 char.toNat) = charWeight char + if Plain char then 0 else 1 := by
  have value : (UInt16.ofNat char.toNat).toNat = char.toNat := by
    rw [UInt16.toNat_ofNat', Nat.mod_eq_of_lt small]
  have solidus : char = '\\' ↔ char.toNat = 0x5c := Char.toNat_inj.symm
  have letter : char = 'u' ↔ char.toNat = 0x75 := Char.toNat_inj.symm
  have quote : char = '"' ↔ char.toNat = 0x22 := Char.toNat_inj.symm
  rw [utf16, if_pos small, unitsWeight_singleton]
  simp only [unitWeight, charWeight, Plain, ne_eq, solidus, letter, quote,
    ← UInt16.toNat_inj, UInt16.lt_iff_toNat_lt, value, UInt16.reduceToNat]
  generalize char.toNat = point
  split_ifs <;> omega

theorem unitsWeight_utf16_large {char : Char} (large : 0x10000 ≤ char.toNat) :
    unitsWeight (utf16 char.toNat) = charWeight char + if Plain char then 0 else 1 := by
  have bound := toNat_bound char
  unfold maxCodePoint at bound
  have high : 0x80 ≤ (UInt16.ofNat (0xd800 + (char.toNat - 0x10000) / 1024)).toNat := by
    rw [UInt16.toNat_ofNat']
    omega
  have low : 0x80 ≤ (UInt16.ofNat (0xdc00 + (char.toNat - 0x10000) % 1024)).toNat := by
    rw [UInt16.toNat_ofNat']
    omega
  have plain := plain_of_large (Nat.le_trans (by decide) large)
  have light := charWeight_of_large (Nat.le_trans (by decide) large)
  rw [utf16, if_neg (Nat.not_lt_of_le large), if_pos plain, light]
  simp only [unitsWeight, List.map_cons, List.map_nil, List.sum_cons, List.sum_nil,
    unitWeight_of_large high, unitWeight_of_large low, Nat.add_zero]

theorem unitsWeight_utf16 (char : Char) :
    unitsWeight (utf16 char.toNat) = charWeight char + if Plain char then 0 else 1 := by
  by_cases small : char.toNat < 0x10000
  · exact unitsWeight_utf16_small small
  · exact unitsWeight_utf16_large (Nat.le_of_not_lt small)

/-- A text spends what its code units weigh exactly when it needs no escape. -/
theorem weight_le_unitsWeight (text : List Char) :
    weight text ≤ unitsWeight (utf16Text text) ∧
      (unitsWeight (utf16Text text) ≤ weight text → ∀ char ∈ text, Plain char) := by
  induction text with
  | nil => exact ⟨Nat.le_refl 0, fun _ => List.forall_mem_nil _⟩
  | cons char text inductionHypothesis =>
      rcases inductionHypothesis with ⟨bound, plain⟩
      rw [utf16Text_cons, unitsWeight_append, unitsWeight_utf16, weight_cons]
      constructor
      · omega
      · intro spent
        by_cases here : Plain char
        · rw [if_pos here] at spent
          exact List.forall_mem_cons.mpr ⟨here, plain (by omega)⟩
        · rw [if_neg here] at spent
          omega

theorem weight_eq_zero {text : List Char} (solidus : '\\' ∉ text) (letter : 'u' ∉ text) :
    weight text = 0 := by
  induction text with
  | nil => rfl
  | cons char text inductionHypothesis =>
      rw [List.mem_cons, not_or] at solidus letter
      have head : charWeight char = 0 := if_neg (not_or.mpr ⟨Ne.symm solidus.1, Ne.symm letter.1⟩)
      rw [weight_cons, head, inductionHypothesis solidus.2 letter.2]

theorem pays_prepend {units : List UInt16} {text front behind : List Char}
    {parsed : Option (List UInt16 × List Char)}
    (tail : ∀ {more rest}, parsed = some (more, rest) →
      unitsWeight more + weight rest ≤ weight behind)
    (paid : unitsWeight units ≤ weight front) (textEq : text = front ++ behind)
    {more : List UInt16} {rest : List Char} (found : prepend units parsed = some (more, rest)) :
    unitsWeight more + weight rest ≤ weight text := by
  obtain ⟨⟨added, left⟩, parsedEq, same⟩ := Option.map_eq_some_iff.mp found
  cases same
  have bound := tail parsedEq
  rw [textEq, weight_append, unitsWeight_append, Nat.add_assoc]
  exact Nat.add_le_add paid bound

theorem parseString_pays : Pays unitsWeight parseString := by
  intro text
  induction text using parseString.induct with
  | case1 =>
      intro units rest parsed
      cases parsed
  | case2 text =>
      intro units rest parsed
      rw [parseString_quote] at parsed
      cases parsed
      rw [weight_cons]
      exact Nat.add_le_add_right (Nat.zero_le _) _
  | case3 first second third fourth text _ inductionHypothesis =>
      intro units rest parsed
      rw [parseString_unicode] at parsed
      obtain ⟨unit, _, parsed⟩ := Option.bind_eq_some_iff.mp parsed
      have paid : unitsWeight [unit] ≤ weight ['\\', 'u', first, second, third, fourth] := by
        have escape : charWeight '\\' = 1 ∧ charWeight 'u' = 1 := ⟨rfl, rfl⟩
        have bound := unitWeight_le unit
        simp only [unitsWeight_singleton, weight_cons, escape]
        omega
      exact pays_prepend inductionHypothesis paid rfl parsed
  | case4 letter text other _ inductionHypothesis =>
      intro units rest parsed
      rw [parseString_letter other] at parsed
      obtain ⟨unit, found, parsed⟩ := Option.bind_eq_some_iff.mp parsed
      have paid : unitsWeight [unit] ≤ weight ['\\', letter] := by
        rw [unitsWeight_singleton]
        exact unitWeight_escaped found
      exact pays_prepend inductionHypothesis paid rfl parsed
  | case5 _ =>
      intro units rest parsed
      cases parsed
  | case6 char text quote solidus control =>
      intro units rest parsed
      rw [parseString_self quote solidus, if_pos control] at parsed
      cases parsed
  | case7 char text quote solidus control inductionHypothesis =>
      intro units rest parsed
      rw [parseString_self quote solidus, if_neg control] at parsed
      have paid : unitsWeight (utf16 char.toNat) ≤ weight [char] := by
        rw [unitsWeight_utf16, if_pos ⟨quote, solidus, Nat.le_of_not_lt control⟩]
        exact Nat.le_refl _
      exact pays_prepend inductionHypothesis paid rfl parsed

theorem parseItems_pays {Item : Type} {cost : Item → Nat}
    {parseItem : List Char → Option (Item × List Char)} (pays : Pays cost parseItem) (close : Char)
    (fuel : Nat) : Pays (fun items => (items.map cost).sum) (parseItems parseItem close fuel) := by
  induction fuel with
  | zero =>
      intro text items rest parsed
      cases parsed
  | succ fuel inductionHypothesis =>
      intro text items rest parsed
      obtain ⟨item, behind, itemParsed, ending⟩ := parseItems_eq_some_iff.mp parsed
      have itemBound := (pays itemParsed).trans (weight_skip_le text)
      have behindBound := weight_skip_le behind
      rcases ending with ⟨closed, rfl⟩ | ⟨_, following, others, comma, othersParsed, rfl⟩
      · rw [closed, weight_cons] at behindBound
        simp only [List.map_cons, List.map_nil, List.sum_cons, List.sum_nil]
        omega
      · have othersBound := inductionHypothesis othersParsed
        rw [comma, weight_cons] at behindBound
        simp only [List.map_cons, List.sum_cons] at othersBound ⊢
        omega

theorem parseList_pays {Item : Type} {cost : Item → Nat}
    {parseItem : List Char → Option (Item × List Char)} (pays : Pays cost parseItem) (close : Char)
    (fuel : Nat) : Pays (fun items => (items.map cost).sum) (parseList parseItem close fuel) := by
  intro text items rest parsed
  rcases parseList_eq_some_iff.mp parsed with ⟨closed, rfl⟩ | ⟨_, itemsParsed⟩
  · have skipped := weight_skip_le text
    rw [closed, weight_cons] at skipped
    exact (Nat.le_of_eq (Nat.zero_add _)).trans ((Nat.le_add_left _ _).trans skipped)
  · exact parseItems_pays pays close fuel itemsParsed

theorem parseMember_pays {parser : List Char → Option (Json × List Char)}
    (pays : Pays measure parser) :
    Pays (fun member => unitsWeight member.1 + measure member.2) (parseMember parser) := by
  intro text member rest parsed
  obtain ⟨quoted, behind, following, rfl, name, colon, value⟩ := parseMember_eq_some_iff.mp parsed
  have nameBound := parseString_pays name
  have colonBound := weight_skip_le behind
  have valueBound := (pays value).trans (weight_skip_le following)
  rw [colon, weight_cons] at colonBound
  rw [weight_cons]
  dsimp only
  omega

theorem measureElements_eq_sum (elements : List Json) :
    measureElements elements = (elements.map measure).sum := by
  induction elements with
  | nil => rfl
  | cons element elements inductionHypothesis =>
      rw [measureElements, inductionHypothesis, List.map_cons, List.sum_cons]

theorem measureMembers_eq_sum (members : List (List UInt16 × Json)) :
    measureMembers members =
      (members.map fun member => unitsWeight member.1 + measure member.2).sum := by
  induction members with
  | nil => rfl
  | cons member members inductionHypothesis =>
      rw [measureMembers, inductionHypothesis, List.map_cons, List.sum_cons]

theorem pays_name {name text rest : List Char} {char : Char} {json value : Json}
    (parsed : ((expectAll name text).map fun rest => (json, rest)) = some (value, rest))
    (paid : measure json ≤ weight name) :
    measure value + weight rest ≤ weight (char :: text) := by
  obtain ⟨left, found, same⟩ := Option.map_eq_some_iff.mp parsed
  cases same
  rw [expectAll_eq_some_iff.mp found, weight_cons, weight_append]
  omega

theorem measureMembers_le {entries members : List (List UInt16 × Json)}
    (distinct : entries.Nodup) (subset : entries ⊆ members) :
    measureMembers entries ≤ measureMembers members := by
  obtain ⟨rearranged, perm, sublist⟩ := List.subperm_of_subset distinct subset
  rw [measureMembers_eq_sum, measureMembers_eq_sum, ← (perm.map _).sum_eq]
  exact (sublist.map _).sum_le_sum fun _ _ => Nat.zero_le _

/-- What a text spends bounds what its value weighs. -/
theorem parseValue_pays (fuel : Nat) : Pays measure (parseValue fuel) := by
  induction fuel with
  | zero =>
      intro text json rest parsed
      cases parsed
  | succ fuel inductionHypothesis =>
      intro text json rest parsed
      cases text with
      | nil => cases parsed
      | cons char text =>
          rw [parseValue] at parsed
          split_ifs at parsed
          · obtain ⟨found, stringParsed, same⟩ := Option.map_eq_some_iff.mp parsed
            cases same
            exact (parseString_pays stringParsed).trans (Nat.le_add_left _ _)
          · obtain ⟨found, listParsed, same⟩ := Option.map_eq_some_iff.mp parsed
            cases same
            have bound := parseList_pays inductionHypothesis _ _ listParsed
            rw [measure, measureElements_eq_sum]
            exact bound.trans (Nat.le_add_left _ _)
          · obtain ⟨found, listParsed, same⟩ := Option.map_eq_some_iff.mp parsed
            cases same
            have bound := parseList_pays (parseMember_pays inductionHypothesis) _ _ listParsed
            rw [measure, measureMembers_eq_sum]
            exact bound.trans (Nat.le_add_left _ _)
          · exact pays_name parsed (Nat.le_refl 1)
          · exact pays_name parsed (Nat.le_refl 1)
          · exact pays_name parsed (Nat.zero_le _)
          · obtain ⟨found, numberParsed, same⟩ := Option.map_eq_some_iff.mp parsed
            cases same
            rw [measure, Nat.zero_add]
            exact weight_le_of_suffix (parseNumber_leavesEnd numberParsed)

theorem measure_le_of_document {text : List Char} {json : Json} (document : Document text json) :
    measure json ≤ weight text := by
  obtain ⟨fuel, rest, parsed, _⟩ := document
  have bound := (parseValue_pays fuel parsed).trans (weight_skip_le text)
  exact (Nat.le_add_right _ _).trans bound

end Library.Json

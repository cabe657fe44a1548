import BinaryReader.Public.Options
import Mathlib.Data.List.Nodup

/-!
# Tables of option values

The program checks its table of option values in a test.  Over every table that passes
the check, an option value is parsed as the types with its name say, in whatever order
the table lists them.
-/

namespace BinaryReader.Options

/-- The values of one type, whose names must be distinct. `seen` are the names in front. -/
def checkValueNames (type : OptionType) :
    List (String × OptionValue) → (seen : List (List UInt16)) → Bool × String
  | [], _ => (true, "")
  | value :: values, seen =>
      if u16 value.1 ∈ seen then
        (false, "Duplicate option value " ++ value.1 ++ " for type " ++ type.toString ++ "\n")
      else checkValueNames type values (u16 value.1 :: seen)

/-- `CheckOptionData` of a table, with what it prints. `seen` are the types in front. -/
def checkOptionData : List (OptionType × List (String × OptionValue)) →
    (seen : List OptionType) → Bool × String
  | [], _ => (true, "")
  | info :: infos, seen =>
      if info.1 ∈ seen then (false, "Duplicate option type " ++ info.1.toString ++ "\n")
      else
        match checkValueNames info.1 info.2 [] with
        | (true, _) => checkOptionData infos (info.1 :: seen)
        | failed => failed

def Fresh {α β : Type} (key : α → β) (seen : List β) (entries : List α) : Prop :=
  (entries.map key).Nodup ∧ ∀ entry ∈ entries, key entry ∉ seen

theorem fresh_cons {α β : Type} {key : α → β} {seen : List β} {entry : α} {entries : List α} :
    Fresh key seen (entry :: entries) ↔
      key entry ∉ seen ∧ Fresh key (key entry :: seen) entries := by
  simp only [Fresh, List.map_cons, List.nodup_cons, List.mem_map, List.mem_cons, forall_eq_or_imp,
    not_or]
  constructor
  · rintro ⟨⟨alone, distinct⟩, first, others⟩
    exact ⟨first, distinct, fun other membership =>
      ⟨fun same => alone ⟨other, membership, same⟩, others other membership⟩⟩
  · rintro ⟨first, distinct, others⟩
    refine ⟨⟨?_, distinct⟩, first, fun other membership => (others other membership).2⟩
    rintro ⟨other, membership, same⟩
    exact (others other membership).1 same

theorem checkValueNames_iff (type : OptionType) {values : List (String × OptionValue)}
    {seen : List (List UInt16)} :
    (checkValueNames type values seen).1 = true ↔ Fresh (fun value => u16 value.1) seen values := by
  induction values generalizing seen with
  | nil => simp [checkValueNames, Fresh]
  | cons value values inductionHypothesis =>
      rw [checkValueNames, fresh_cons]
      split_ifs with repeated
      · exact iff_of_false nofun fun fresh => fresh.1 repeated
      · rw [inductionHypothesis, and_iff_right repeated]

/-- The check passes exactly if no type and no name of a type is repeated. -/
theorem checkOptionData_iff {table : List (OptionType × List (String × OptionValue))}
    {seen : List OptionType} :
    (checkOptionData table seen).1 = true ↔
      Fresh Prod.fst seen table ∧
        ∀ info ∈ table, Fresh (fun value => u16 value.1) [] info.2 := by
  induction table generalizing seen with
  | nil => simp [checkOptionData, Fresh]
  | cons info infos inductionHypothesis =>
      rw [checkOptionData, fresh_cons, List.forall_mem_cons, ← checkValueNames_iff info.1]
      split_ifs with repeated
      · exact iff_of_false nofun fun fresh => fresh.1.1 repeated
      · rcases checkValueNames info.1 info.2 [] with ⟨_ | _, text⟩
        · exact iff_of_false nofun fun fresh => Bool.false_ne_true fresh.2.1
        · dsimp only
          rw [inductionHypothesis, and_iff_right repeated, eq_self, true_and]

/-- The types that may be meant, each with its first value of the name. -/
def candidates (types : List OptionType) (name : List UInt16)
    (table : List (OptionType × List (String × OptionValue))) : List (OptionType × OptionValue) :=
  table.filterMap fun info =>
    if types = [] ∨ info.1 ∈ types then (findValue name info.2).map fun value => (info.1, value)
    else none

def resultOf : List (OptionType × OptionValue) → ParseResult
  | [] => .unknownString
  | [found] => .success found.1 found.2
  | _ => .ambiguous

theorem parseLoop_eq (types : List OptionType) (name : List UInt16)
    (table : List (OptionType × List (String × OptionValue)))
    (found : Option (OptionType × OptionValue)) :
    parseLoop types name table found =
      resultOf (found.toList ++ candidates types name table) := by
  induction table generalizing found with
  | nil => cases found <;> rfl
  | cons info infos inductionHypothesis =>
      unfold parseLoop
      rw [candidates, List.filterMap_cons]
      by_cases allowed : types = [] ∨ info.1 ∈ types
      · rw [if_neg (not_and_or.mpr (allowed.imp not_not_intro not_not_intro)), if_pos allowed]
        rcases findValue name info.2 with _ | value
        · exact inductionHypothesis found
        · cases found with
          | none => exact inductionHypothesis (some (info.1, value))
          | some earlier => rfl
      · rw [if_pos (not_or.mp allowed), if_neg allowed]
        exact inductionHypothesis found

theorem candidates_sublist (types : List OptionType) (name : List UInt16)
    (table : List (OptionType × List (String × OptionValue))) :
    ((candidates types name table).map Prod.fst).Sublist (table.map Prod.fst) := by
  induction table with
  | nil => exact .slnil
  | cons info infos inductionHypothesis =>
      rw [candidates, List.filterMap_cons]
      split_ifs
      · rcases findValue name info.2 with _ | value
        · exact .cons info.1 inductionHypothesis
        · exact .cons_cons info.1 inductionHypothesis
      · exact .cons info.1 inductionHypothesis

/-- The table lists a value of the type under the text. -/
def HasEntry (table : List (OptionType × List (String × OptionValue))) (type : OptionType)
    (text : String) (value : OptionValue) : Prop :=
  ∃ values, (type, values) ∈ table ∧ (text, value) ∈ values

def Means (table : List (OptionType × List (String × OptionValue))) (types : List OptionType)
    (name : List UInt16) (type : OptionType) (value : OptionValue) : Prop :=
  (types = [] ∨ type ∈ types) ∧ ∃ text, HasEntry table type text value ∧ name = u16 text

theorem findValue_eq_some_iff {name : List UInt16} {values : List (String × OptionValue)}
    (distinct : (values.map fun value => u16 value.1).Nodup) {value : OptionValue} :
    findValue name values = some value ↔ ∃ text, (text, value) ∈ values ∧ name = u16 text := by
  refine ⟨exists_of_findValue, ?_⟩
  rintro ⟨text, membership, rfl⟩
  rcases found : findValue (u16 text) values with _ | other
  · rw [findValue, Option.map_eq_none_iff, List.find?_eq_none] at found
    exact absurd (decide_eq_true rfl) (found _ membership)
  · obtain ⟨otherText, otherMembership, same⟩ := exists_of_findValue found
    have entry := List.inj_on_of_nodup_map distinct membership otherMembership same
    rw [← (Prod.mk.inj entry).2]

section Checked

variable {table : List (OptionType × List (String × OptionValue))}
  (checked : (checkOptionData table []).1 = true) (types : List OptionType) (name : List UInt16)

include checked

theorem mem_candidates {type : OptionType} {value : OptionValue} :
    (type, value) ∈ candidates types name table ↔ Means table types name type value := by
  have fresh := (checkOptionData_iff.mp checked).2
  rw [candidates, List.mem_filterMap, Means]
  constructor
  · rintro ⟨info, membership, meant⟩
    split_ifs at meant with allowed
    obtain ⟨_, found, same⟩ := Option.map_eq_some_iff.mp meant
    cases same
    obtain ⟨text, textMembership, named⟩ := exists_of_findValue found
    exact ⟨allowed, text, ⟨info.2, membership, textMembership⟩, named⟩
  · rintro ⟨allowed, text, ⟨values, membership, textMembership⟩, named⟩
    have found := (findValue_eq_some_iff (fresh _ membership).1).mpr ⟨text, textMembership, named⟩
    refine ⟨_, membership, ?_⟩
    rw [if_pos allowed, found]
    rfl

theorem candidates_distinct : ((candidates types name table).map Prod.fst).Nodup :=
  (checkOptionData_iff.mp checked).1.1.sublist (candidates_sublist types name table)

theorem parseLoop_eq_success_iff {type : OptionType} {value : OptionValue} :
    parseLoop types name table none = .success type value ↔
      Means table types name type value ∧
        ∀ other second, Means table types name other second → other = type := by
  have distinct := candidates_distinct checked types name
  simp only [← mem_candidates checked]
  rw [parseLoop_eq, Option.toList_none, List.nil_append]
  generalize candidates types name table = meant at distinct ⊢
  rcases meant with _ | ⟨⟨first, firstValue⟩, _ | ⟨⟨second, secondValue⟩, rest⟩⟩
  · exact iff_of_false nofun fun found => absurd found.1 List.not_mem_nil
  · simp only [resultOf, List.mem_singleton, Prod.mk.injEq, ParseResult.success.injEq]
    constructor
    · rintro ⟨rfl, rfl⟩
      exact ⟨⟨rfl, rfl⟩, fun _ _ same => same.1⟩
    · rintro ⟨⟨rfl, rfl⟩, -⟩
      exact ⟨rfl, rfl⟩
  · refine iff_of_false nofun ?_
    rintro ⟨-, only⟩
    obtain rfl := only first firstValue List.mem_cons_self
    obtain rfl := only second secondValue (List.mem_cons_of_mem _ List.mem_cons_self)
    simp at distinct

theorem parseLoop_eq_ambiguous_iff :
    parseLoop types name table none = .ambiguous ↔
      ∃ type value other second, type ≠ other ∧ Means table types name type value ∧
        Means table types name other second := by
  have distinct := candidates_distinct checked types name
  simp only [← mem_candidates checked]
  rw [parseLoop_eq, Option.toList_none, List.nil_append]
  generalize candidates types name table = meant at distinct ⊢
  rcases meant with _ | ⟨⟨first, value⟩, _ | ⟨⟨second, other⟩, rest⟩⟩
  · exact iff_of_false nofun (by simp)
  · refine iff_of_false nofun ?_
    simp only [List.mem_singleton, Prod.mk.injEq]
    rintro ⟨_, _, _, _, different, ⟨rfl, -⟩, rfl, -⟩
    exact different rfl
  · refine iff_of_true rfl ⟨first, value, second, other, ?_, List.mem_cons_self,
      List.mem_cons_of_mem _ List.mem_cons_self⟩
    rintro rfl
    simp at distinct

theorem parseLoop_eq_unknownString_iff :
    parseLoop types name table none = .unknownString ↔
      ∀ type value, ¬ Means table types name type value := by
  simp only [← mem_candidates checked]
  rw [parseLoop_eq, Option.toList_none, List.nil_append]
  rcases candidates types name table with _ | ⟨⟨first, value⟩, _ | ⟨second, rest⟩⟩
  · simp [resultOf]
  all_goals exact iff_of_false nofun fun unmeant => unmeant first value List.mem_cons_self

/-- Over a table that passes the check, a name is parsed as the value of the only allowed type
that has it, is ambiguous if two of them have it, and is unknown if none has it.  Another
table of the same values, in any order, parses it alike. -/
theorem parseLoop_checked :
    (∀ type value, parseLoop types name table none = .success type value ↔
      Means table types name type value ∧
        ∀ other second, Means table types name other second → other = type) ∧
    (parseLoop types name table none = .ambiguous ↔
      ∃ type value other second, type ≠ other ∧ Means table types name type value ∧
        Means table types name other second) ∧
    (parseLoop types name table none = .unknownString ↔
      ∀ type value, ¬ Means table types name type value) ∧
    ∀ reordered, (checkOptionData reordered []).1 = true →
      (∀ type text value, HasEntry table type text value ↔ HasEntry reordered type text value) →
      parseLoop types name table none = parseLoop types name reordered none := by
  refine ⟨fun _ _ => parseLoop_eq_success_iff checked types name,
    parseLoop_eq_ambiguous_iff checked types name,
    parseLoop_eq_unknownString_iff checked types name, ?_⟩
  intro reordered otherChecked listed
  have same (type value) : Means table types name type value ↔
      Means reordered types name type value := by
    simp only [Means, listed]
  have valid : parseLoop types name table none ≠ .invalidValueType := by
    rw [parseLoop_eq]
    rcases none.toList ++ candidates types name table with _ | ⟨_, _ | _⟩ <;> nofun
  rcases parsed : parseLoop types name table none with ⟨type, value⟩ | _ | _ | _
  · rw [parseLoop_eq_success_iff checked] at parsed
    simp only [same] at parsed
    exact ((parseLoop_eq_success_iff otherChecked types name).mpr parsed).symm
  · exact absurd parsed valid
  · rw [parseLoop_eq_unknownString_iff checked] at parsed
    simp only [same] at parsed
    exact ((parseLoop_eq_unknownString_iff otherChecked types name).mpr parsed).symm
  · rw [parseLoop_eq_ambiguous_iff checked] at parsed
    simp only [same] at parsed
    exact ((parseLoop_eq_ambiguous_iff otherChecked types name).mpr parsed).symm

end Checked

theorem kOptionData_checked : checkOptionData kOptionData [] = (true, "") := by decide

theorem parseLoop_checked_little :
    parseLoop [] (u16 "little") kOptionData none = .success .byteOrder (.byteOrder .littleEndian) ∧
    parseLoop [] (u16 "little") kOptionData.reverse none =
      .success .byteOrder (.byteOrder .littleEndian) := by
  have checked : (checkOptionData kOptionData []).1 = true := by rw [kOptionData_checked]
  have reversed : (checkOptionData kOptionData.reverse []).1 = true := by decide
  obtain ⟨-, -, -, reordered⟩ := parseLoop_checked checked [] (u16 "little")
  have parsed : parseLoop [] (u16 "little") kOptionData none =
      .success .byteOrder (.byteOrder .littleEndian) := by decide
  refine ⟨parsed, (reordered kOptionData.reverse reversed ?_).symm.trans parsed⟩
  intro type text value
  simp only [HasEntry, List.mem_reverse]

end BinaryReader.Options

import BinaryReader.Public.Number.Order
import BinaryReader.Public.Value

/-!
# The order of values

Values are ordered by their type first, then as numbers, strings or pointers.  Only numbers
can keep a set of values from being sorted, and only NaN makes the operators disagree.
-/

namespace BinaryReader.Value

open Library

variable {address : ObjectId ↪ Nat}

theorem less_of_index_ne {left right : Value} (different : left.index ≠ right.index) :
    left.less address right = decide (left.index < right.index) := by
  cases left <;> cases right <;> first | rfl | exact absurd rfl different

theorem index_le_of_less {left right : Value} (less : left.less address right) :
    left.index ≤ right.index := by
  by_cases same : left.index = right.index
  · exact same.le
  · rw [less_of_index_ne same] at less
    exact (of_decide_eq_true less).le

theorem less_irrefl (value : Value) : ¬ value.less address value := by
  cases value with
  | null => exact Bool.false_ne_true
  | number number => exact Number.isStrictOrder.irrefl number
  | string string => exact fun less => List.lt_irrefl _ (of_decide_eq_true less)
  | object object => exact fun less => Nat.lt_irrefl _ (of_decide_eq_true less)

theorem less_trans {a b c : Value} (first : a.less address b) (second : b.less address c) :
    a.less address c := by
  have early := index_le_of_less first
  have late := index_le_of_less second
  by_cases apart : a.index < c.index
  · rw [less_of_index_ne apart.ne]
    exact decide_eq_true apart
  · -- All three values are of one type.
    have same : a.index = b.index ∧ b.index = c.index := by omega
    cases a <;> cases b <;> cases same.1 <;> cases c <;> cases same.2
    case null.null.refl.null.refl => cases first
    case number.number.refl.number.refl => exact Number.isStrictOrder.trans _ _ _ first second
    case string.string.refl.string.refl =>
      exact decide_eq_true (List.lt_trans (of_decide_eq_true first) (of_decide_eq_true second))
    case object.object.refl.object.refl =>
      exact decide_eq_true ((of_decide_eq_true first).trans (of_decide_eq_true second))

/-- Two values that `operator<` does not tell apart. -/
theorem eq_or_numbers_of_not_less {left right : Value} (notLess : ¬ left.less address right)
    (notGreater : ¬ right.less address left) :
    left = right ∨ ∃ number other, left = .number number ∧ right = .number other ∧
      ¬ number.less other ∧ ¬ other.less number := by
  have same : left.index = right.index := by
    by_contra different
    rw [less_of_index_ne different] at notLess
    rw [less_of_index_ne (Ne.symm different)] at notGreater
    simp only [decide_eq_true_eq] at notLess notGreater
    omega
  cases left <;> cases right <;> cases same
  case null.null.refl => exact Or.inl rfl
  case number.number.refl number other =>
    exact Or.inr ⟨number, other, rfl, rfl, notLess, notGreater⟩
  case string.string.refl string other =>
    have units := List.le_antisymm (mt decide_eq_true notGreater) (mt decide_eq_true notLess)
    exact Or.inl (congrArg Value.string (congrArg UtfString.mk units))
  case object.object.refl object other =>
    have places : address object = address other := by
      simp only [less, decide_eq_true_eq] at notLess notGreater
      omega
    exact Or.inl (congrArg Value.object (address.injective places))

/-- Two numbers, of which one is NaN. -/
def Unordered (left right : Value) : Prop :=
  ∃ number other, left = .number number ∧ right = .number other ∧
    (number = .double .nan ∨ other = .double .nan)

theorem equals_numbers_iff {number other : Number}
    (ordered : ¬ Unordered (.number number) (.number other)) :
    number.equals other ↔ ¬ number.less other ∧ ¬ other.less number := by
  apply Number.equals_iff_not_less
  · exact fun nan => ordered ⟨number, other, rfl, rfl, Or.inl nan⟩
  · exact fun nan => ordered ⟨number, other, rfl, rfl, Or.inr nan⟩

theorem eq_or_numbers_of_equals {left right : Value} (equal : left.equals right) :
    left = right ∨ ∃ number other, left = .number number ∧ right = .number other := by
  cases left <;> cases right
  case null.null => exact Or.inl rfl
  case number.number number other => exact Or.inr ⟨number, other, rfl, rfl⟩
  case string.string => exact Or.inl (congrArg Value.string (of_decide_eq_true equal))
  case object.object => exact Or.inl (congrArg Value.object (of_decide_eq_true equal))
  all_goals exact absurd equal Bool.false_ne_true

theorem equals_self {value : Value} (ordered : ¬ Unordered value value) : value.equals value := by
  cases value with
  | null => rfl
  | number number =>
      have irreflexive := Number.isStrictOrder.irrefl number
      exact (equals_numbers_iff ordered).mpr ⟨irreflexive, irreflexive⟩
  | string string => exact decide_eq_true rfl
  | object object => exact decide_eq_true rfl

/-- Values are equal when neither is less than the other, unless one is NaN. -/
theorem equals_iff_not_less {left right : Value} (ordered : ¬ Unordered left right) :
    left.equals right ↔ ¬ left.less address right ∧ ¬ right.less address left := by
  constructor
  · intro equal
    rcases eq_or_numbers_of_equals equal with rfl | ⟨number, other, rfl, rfl⟩
    · exact ⟨less_irrefl left, less_irrefl left⟩
    · exact (equals_numbers_iff ordered).mp equal
  · rintro ⟨notLess, notGreater⟩
    rcases eq_or_numbers_of_not_less notLess notGreater with rfl | ⟨number, other, rfl, rfl, -⟩
    · exact equals_self ordered
    · exact (equals_numbers_iff ordered).mpr ⟨notLess, notGreater⟩

/-- The other operators follow from `operator<` as they do for numbers on a line. -/
def OperatorsAgree (address : ObjectId ↪ Nat) (left right : Value) : Prop :=
  (left.equals right ↔ ¬ left.less address right ∧ ¬ right.less address left) ∧
    left.greater address right = right.less address left ∧
    left.greaterOrEqual address right = right.lessOrEqual address left

theorem not_equals_of_unordered {left right : Value} (unordered : Unordered left right) :
    ¬ left.equals right ∧ ¬ left.less address right ∧ ¬ right.less address left := by
  obtain ⟨number, other, rfl, rfl, rfl | rfl⟩ := unordered
  · refine ⟨?_, ?_, ?_⟩
    · exact fun equal => Precision.not_unordered_same _ ((Number.equals_iff _ _).mp equal)
    · exact fun less => Precision.not_unordered_before _ ((Number.less_iff _ _).mp less)
    · exact fun less => Precision.not_before_unordered _ ((Number.less_iff _ _).mp less)
  · refine ⟨?_, ?_, ?_⟩
    · exact fun equal => Precision.not_same_unordered _ ((Number.equals_iff _ _).mp equal)
    · exact fun less => Precision.not_before_unordered _ ((Number.less_iff _ _).mp less)
    · exact fun less => Precision.not_unordered_before _ ((Number.less_iff _ _).mp less)

theorem Unordered.symm {left right : Value} (unordered : Unordered left right) :
    Unordered right left := by
  obtain ⟨number, other, rfl, rfl, nan⟩ := unordered
  exact ⟨other, number, rfl, rfl, nan.symm⟩

theorem operatorsAgree_iff (left right : Value) :
    OperatorsAgree address left right ↔ ¬ Unordered left right := by
  constructor
  · rintro ⟨equals, -, -⟩ unordered
    obtain ⟨different, notLess⟩ := not_equals_of_unordered unordered
    exact different (equals.mpr notLess)
  · intro ordered
    have equals : left.equals right ↔ ¬ left.less address right ∧ ¬ right.less address left :=
      equals_iff_not_less ordered
    have equals' : right.equals left ↔ ¬ right.less address left ∧ ¬ left.less address right :=
      equals_iff_not_less (mt Unordered.symm ordered)
    have asymmetric : left.less address right → ¬ right.less address left :=
      fun less greater => less_irrefl left (less_trans less greater)
    refine ⟨equals, ?_, ?_⟩
    · unfold greater lessOrEqual
      revert equals asymmetric
      cases left.equals right <;> cases left.less address right <;>
        cases right.less address left <;> decide
    · unfold greaterOrEqual lessOrEqual
      revert equals' asymmetric
      cases right.equals left <;> cases left.less address right <;>
        cases right.less address left <;> decide

theorem isStrictOrder : IsStrictOrder Value fun left right => left.less address right where
  irrefl := less_irrefl
  trans _ _ _ := less_trans

/-- Only the numbers of a set can keep it from being sorted. -/
theorem isStrictWeakOrder_iff (values : Set Value) :
    IsStrictWeakOrder values (fun left right => left.1.less address right.1) ↔
      ¬ Number.Bridged {number | .number number ∈ values} := by
  rw [← Number.isStrictWeakOrder_iff]
  constructor
  · intro weak
    exact
      { irrefl := fun number => Number.isStrictOrder.irrefl number.1
        trans := fun _ _ _ => Number.isStrictOrder.trans _ _ _
        incomp_trans := fun first second third =>
          weak.incomp_trans ⟨_, first.2⟩ ⟨_, second.2⟩ ⟨_, third.2⟩ }
  · intro weak
    refine
      { irrefl := fun value => less_irrefl value.1
        trans := fun _ _ _ => less_trans
        incomp_trans := ?_ }
    rintro ⟨a, aMem⟩ ⟨b, bMem⟩ ⟨c, cMem⟩ first second
    rcases eq_or_numbers_of_not_less first.1 first.2 with rfl | ⟨x, y, rfl, rfl, firstNumbers⟩
    · exact second
    · rcases eq_or_numbers_of_not_less second.1 second.2 with rfl | ⟨_, z, same, rfl, secondNumbers⟩
      · exact first
      · cases same
        exact weak.incomp_trans ⟨x, aMem⟩ ⟨y, bMem⟩ ⟨z, cMem⟩ firstNumbers secondNumbers

/-- `operator<` is a strict order of all values. It is the strict weak order that a sort or a
search tree needs exactly on the sets whose numbers have no bridge, and the other operators
agree with it exactly on the pairs without NaN. -/
theorem less_orders (address : ObjectId ↪ Nat) :
    IsStrictOrder Value (fun left right => left.less address right) ∧
      (∀ values : Set Value,
        IsStrictWeakOrder values (fun left right => left.1.less address right.1) ↔
          ¬ Number.Bridged {number | .number number ∈ values}) ∧
      ∀ left right, OperatorsAgree address left right ↔ ¬ Unordered left right :=
  ⟨isStrictOrder, isStrictWeakOrder_iff, operatorsAgree_iff⟩

end BinaryReader.Value

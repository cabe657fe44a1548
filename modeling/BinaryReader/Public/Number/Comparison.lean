import BinaryReader.Public.Number

/-!
# Comparison by value

The comparison operators order numbers by the rational numbers they hold, as long as
no integer becomes equal to a double by its conversion.
-/

namespace BinaryReader

open Library

namespace Number

theorem equals_double (number : Number) (value : Double) :
    number.equals (.double value) = number.asDouble.eq value := by
  cases number <;> rfl

theorem double_equals (value : Double) (number : Number) :
    equals (.double value) number = value.eq number.asDouble := by
  cases number <;> rfl

theorem less_double (number : Number) (value : Double) :
    number.less (.double value) = number.asDouble.lt value := by
  cases number <;> rfl

theorem double_less (value : Double) (number : Number) :
    less (.double value) number = value.lt number.asDouble := by
  cases number <;> rfl

/-- A signed integer is negative, so it differs from every unsigned one. -/
theorem equals_integers {left right : Number} {leftValue rightValue : Int}
    (leftHeld : left.toInt? = some leftValue) (rightHeld : right.toInt? = some rightValue) :
    left.equals right ↔ leftValue = rightValue := by
  match left, right, leftHeld, rightHeld with
  | .unsignedInt value, .unsignedInt other, rfl, rfl =>
      rw [Int.natCast_inj, UInt64.toNat_inj]
      exact decide_eq_true_iff
  | .unsignedInt value, .signedInt other negative, rfl, rfl =>
      have below : other.toInt < 0 := Int64.lt_iff_toInt_lt.mp negative
      refine ⟨nofun, fun same => ?_⟩
      omega
  | .signedInt value negative, .unsignedInt other, rfl, rfl =>
      have below : value.toInt < 0 := Int64.lt_iff_toInt_lt.mp negative
      refine ⟨nofun, fun same => ?_⟩
      omega
  | .signedInt value _, .signedInt other _, rfl, rfl =>
      rw [Int64.toInt_inj]
      exact decide_eq_true_iff

theorem less_integers {left right : Number} {leftValue rightValue : Int}
    (leftHeld : left.toInt? = some leftValue) (rightHeld : right.toInt? = some rightValue) :
    left.less right ↔ leftValue < rightValue := by
  match left, right, leftHeld, rightHeld with
  | .unsignedInt value, .unsignedInt other, rfl, rfl =>
      rw [Int.ofNat_lt, ← UInt64.lt_iff_toNat_lt]
      exact decide_eq_true_iff
  | .unsignedInt value, .signedInt other negative, rfl, rfl =>
      have below : other.toInt < 0 := Int64.lt_iff_toInt_lt.mp negative
      refine ⟨nofun, fun less => ?_⟩
      omega
  | .signedInt value negative, .unsignedInt other, rfl, rfl =>
      have below : value.toInt < 0 := Int64.lt_iff_toInt_lt.mp negative
      refine ⟨fun _ => ?_, fun _ => rfl⟩
      omega
  | .signedInt value _, .signedInt other _, rfl, rfl =>
      rw [← Int64.lt_iff_toInt_lt]
      exact decide_eq_true_iff

/-- An integer is compared with a double after it is rounded. -/
theorem toRat?_asDouble {number : Number} {value : Int} (held : number.toInt? = some value) :
    number.asDouble.toRat? = some (Rounding.roundInt 53 value : ℚ) := by
  cases number <;> cases held <;> exact Double.toRat?_ofInt _ _

theorem toRat?_of_toInt? {number : Number} {value : Int} (held : number.toInt? = some value) :
    number.toRat? = some (value : ℚ) := by
  cases number <;> cases held <;> rfl

end Number

/-- A number that is no infinity and not NaN, with the value it holds. -/
structure FiniteNumber where
  number : Number
  value : ℚ
  holds : number.toRat? = some value

/-- The numbers of a set are compared by the values they hold. -/
structure ComparesByValue (numbers : Set FiniteNumber) : Prop where
  equals_iff : ∀ a ∈ numbers, ∀ b ∈ numbers, a.number.equals b.number ↔ a.value = b.value
  less_iff : ∀ a ∈ numbers, ∀ b ∈ numbers, a.number.less b.number ↔ a.value < b.value
  equivalence : Equivalence fun a b : numbers => a.1.number.equals b.1.number
  less_irrefl : ∀ a ∈ numbers, ¬ a.number.less a.number
  less_trans : ∀ a ∈ numbers, ∀ b ∈ numbers, ∀ c ∈ numbers,
    a.number.less b.number → b.number.less c.number → a.number.less c.number
  trichotomy : ∀ a ∈ numbers, ∀ b ∈ numbers,
    a.number.less b.number ∨ a.number.equals b.number ∨ b.number.less a.number
  compatible : ∀ a ∈ numbers, ∀ b ∈ numbers, ∀ c ∈ numbers, a.number.equals b.number →
    a.number.less c.number = b.number.less c.number ∧
      c.number.less a.number = c.number.less b.number
  lessOrEqual_iff : ∀ a ∈ numbers, ∀ b ∈ numbers,
    a.number.lessOrEqual b.number ↔ a.number.less b.number ∨ a.number.equals b.number
  greater_iff : ∀ a ∈ numbers, ∀ b ∈ numbers, a.number.greater b.number ↔ b.number.less a.number
  greaterOrEqual_iff : ∀ a ∈ numbers, ∀ b ∈ numbers,
    a.number.greaterOrEqual b.number ↔ b.number.less a.number ∨ a.number.equals b.number

namespace FiniteNumber

def IsInteger (finite : FiniteNumber) (value : Int) : Prop := finite.number.toInt? = some value

def IsDouble (finite : FiniteNumber) : Prop := finite.number.toInt? = none

theorem value_of_isInteger {finite : FiniteNumber} {value : Int}
    (integer : finite.IsInteger value) : finite.value = value := by
  have held := Number.toRat?_of_toInt? integer
  rw [finite.holds] at held
  exact Option.some.inj held

theorem number_of_isDouble {finite : FiniteNumber} (double : finite.IsDouble) :
    ∃ value, finite.number = .double value ∧ value.toRat? = some finite.value := by
  obtain ⟨number, value, holds⟩ := finite
  cases number with
  | double held => exact ⟨held, rfl, holds⟩
  | unsignedInt | signedInt => cases double

theorem isInteger_or_isDouble (finite : FiniteNumber) :
    (∃ value, finite.IsInteger value) ∨ finite.IsDouble := by
  unfold IsInteger IsDouble
  cases finite.number.toInt? with
  | none => exact Or.inr rfl
  | some value => exact Or.inl ⟨value, rfl⟩

end FiniteNumber

/-- An integer of the set, rounded to 53 binary digits, is a double of the set but not itself. -/
def RoundsAway (numbers : Set FiniteNumber) : Prop :=
  ∃ a ∈ numbers, ∃ b ∈ numbers, ∃ integer, a.IsInteger integer ∧ b.IsDouble ∧
    b.value = Rounding.roundInt 53 integer ∧ b.value ≠ integer

theorem compares_pair {numbers : Set FiniteNumber} (faithful : ¬ RoundsAway numbers)
    {a b : FiniteNumber} (aMem : a ∈ numbers) (bMem : b ∈ numbers) :
    (a.number.equals b.number ↔ a.value = b.value) ∧
      (a.number.less b.number ↔ a.value < b.value) := by
  have apart : ∀ c ∈ numbers, ∀ d ∈ numbers, ∀ integer, c.IsInteger integer → d.IsDouble →
      (Rounding.roundInt 53 integer : ℚ) = d.value → (integer : ℚ) = d.value := by
    intro c cMem d dMem integer isInteger isDouble same
    by_contra different
    exact faithful ⟨c, cMem, d, dMem, integer, isInteger, isDouble, same.symm, Ne.symm different⟩
  rcases a.isInteger_or_isDouble with ⟨x, aInteger⟩ | aDouble <;>
    rcases b.isInteger_or_isDouble with ⟨y, bInteger⟩ | bDouble
  · rw [FiniteNumber.value_of_isInteger aInteger, FiniteNumber.value_of_isInteger bInteger,
      Int.cast_inj, Int.cast_lt]
    exact ⟨Number.equals_integers aInteger bInteger, Number.less_integers aInteger bInteger⟩
  · obtain ⟨right, bNumber, bHeld⟩ := FiniteNumber.number_of_isDouble bDouble
    have rounded := Number.toRat?_asDouble aInteger
    have agree := apart a aMem b bMem x aInteger bDouble
    have representable := Double.representable bHeld
    have exact : (x : ℚ) = b.value → (Rounding.roundInt 53 x : ℚ) = b.value :=
      Rounding.roundInt_of_representable (by decide) representable
    rw [bNumber, Number.equals_double, Number.less_double, Double.eq_iff rounded bHeld,
      Double.lt_iff rounded bHeld, FiniteNumber.value_of_isInteger aInteger]
    exact ⟨⟨agree, exact⟩, Rounding.roundInt_lt_iff (by decide) representable agree⟩
  · obtain ⟨left, aNumber, aHeld⟩ := FiniteNumber.number_of_isDouble aDouble
    have rounded := Number.toRat?_asDouble bInteger
    have agree := apart b bMem a aMem y bInteger aDouble
    have representable := Double.representable aHeld
    have exact : (y : ℚ) = a.value → (Rounding.roundInt 53 y : ℚ) = a.value :=
      Rounding.roundInt_of_representable (by decide) representable
    rw [aNumber, Number.double_equals, Number.double_less, Double.eq_iff aHeld rounded,
      Double.lt_iff aHeld rounded, FiniteNumber.value_of_isInteger bInteger,
      eq_comm (a := a.value), eq_comm (a := a.value)]
    exact ⟨⟨agree, exact⟩, Rounding.lt_roundInt_iff (by decide) representable agree⟩
  · obtain ⟨left, aNumber, aHeld⟩ := FiniteNumber.number_of_isDouble aDouble
    obtain ⟨right, bNumber, bHeld⟩ := FiniteNumber.number_of_isDouble bDouble
    rw [aNumber, bNumber]
    exact ⟨Double.eq_iff aHeld bHeld, Double.lt_iff aHeld bHeld⟩

theorem comparesByValue_of_not_roundsAway {numbers : Set FiniteNumber}
    (faithful : ¬ RoundsAway numbers) : ComparesByValue numbers := by
  have equalsIff : ∀ {a b}, a ∈ numbers → b ∈ numbers →
      (a.number.equals b.number ↔ a.value = b.value) :=
    fun aMem bMem => (compares_pair faithful aMem bMem).1
  have lessIff : ∀ {a b}, a ∈ numbers → b ∈ numbers →
      (a.number.less b.number ↔ a.value < b.value) :=
    fun aMem bMem => (compares_pair faithful aMem bMem).2
  have lessOrEqualIff : ∀ {a b}, a ∈ numbers → b ∈ numbers →
      (a.number.lessOrEqual b.number ↔ a.value ≤ b.value) := by
    intro a b aMem bMem
    rw [Number.lessOrEqual, Bool.or_eq_true, equalsIff aMem bMem, lessIff aMem bMem, or_comm,
      le_iff_lt_or_eq]
  refine {
    equals_iff := fun a aMem b bMem => equalsIff aMem bMem
    less_iff := fun a aMem b bMem => lessIff aMem bMem
    equivalence := ⟨?_, ?_, ?_⟩
    less_irrefl := ?_
    less_trans := ?_
    trichotomy := ?_
    compatible := ?_
    lessOrEqual_iff := ?_
    greater_iff := ?_
    greaterOrEqual_iff := ?_ }
  · intro a
    exact (equalsIff a.2 a.2).mpr rfl
  · intro a b same
    exact (equalsIff b.2 a.2).mpr ((equalsIff a.2 b.2).mp same).symm
  · intro a b c first second
    exact (equalsIff a.2 c.2).mpr
      (((equalsIff a.2 b.2).mp first).trans ((equalsIff b.2 c.2).mp second))
  · intro a aMem
    rw [lessIff aMem aMem]
    exact lt_irrefl _
  · intro a aMem b bMem c cMem first second
    exact (lessIff aMem cMem).mpr
      (((lessIff aMem bMem).mp first).trans ((lessIff bMem cMem).mp second))
  · intro a aMem b bMem
    rw [lessIff aMem bMem, equalsIff aMem bMem, lessIff bMem aMem]
    exact lt_trichotomy _ _
  · intro a aMem b bMem c cMem same
    have values := (equalsIff aMem bMem).mp same
    constructor
    · rw [Bool.eq_iff_iff, lessIff aMem cMem, lessIff bMem cMem, values]
    · rw [Bool.eq_iff_iff, lessIff cMem aMem, lessIff cMem bMem, values]
  · intro a aMem b bMem
    rw [lessOrEqualIff aMem bMem, lessIff aMem bMem, equalsIff aMem bMem]
    exact le_iff_lt_or_eq
  · intro a aMem b bMem
    rw [Number.greater, Bool.not_eq_true', Bool.eq_false_iff, Ne, lessOrEqualIff aMem bMem,
      lessIff bMem aMem]
    exact not_le
  · intro a aMem b bMem
    rw [Number.greaterOrEqual, Bool.not_eq_true', Bool.eq_false_iff, Ne, lessIff aMem bMem,
      lessIff bMem aMem, equalsIff aMem bMem, not_lt, le_iff_lt_or_eq, eq_comm]

/-- An integer that its conversion makes equal to another double is compared as that double. -/
theorem equals_of_roundsAway {numbers : Set FiniteNumber} (away : RoundsAway numbers) :
    ∃ a ∈ numbers, ∃ b ∈ numbers, a.number.equals b.number ∧ a.value ≠ b.value := by
  obtain ⟨a, aMem, b, bMem, integer, isInteger, isDouble, rounded, different⟩ := away
  refine ⟨a, aMem, b, bMem, ?_, ?_⟩
  · obtain ⟨right, number, held⟩ := FiniteNumber.number_of_isDouble isDouble
    rw [number, Number.equals_double, Double.eq_iff (Number.toRat?_asDouble isInteger) held,
      rounded]
  · rw [FiniteNumber.value_of_isInteger isInteger]
    exact different.symm

/-- The operators compare the numbers of a set by value exactly when none of its integers is
rounded to a double of the set that is not equal to it. -/
theorem comparesByValue_iff (numbers : Set FiniteNumber) :
    ComparesByValue numbers ↔ ¬ RoundsAway numbers := by
  constructor
  · intro compares away
    obtain ⟨a, aMem, b, bMem, equal, different⟩ := equals_of_roundsAway away
    exact different ((compares.equals_iff a aMem b bMem).mp equal)
  · exact comparesByValue_of_not_roundsAway

def finiteUnsigned (value : UInt64) : FiniteNumber := ⟨.ofUnsigned value, value.toNat, rfl⟩

def twoPow53 : FiniteNumber :=
  ⟨.ofDouble (.finite false ⟨2 ^ 52, 1075, by decide⟩), 2 ^ 53, by decide +kernel⟩

/-- `2 ^ 53` and `2 ^ 53 + 1` are both equal to the same double, but not to each other. -/
theorem not_comparesByValue :
    (finiteUnsigned (2 ^ 53)).number.equals twoPow53.number ∧
      twoPow53.number.equals (finiteUnsigned (2 ^ 53 + 1)).number ∧
      ¬ (finiteUnsigned (2 ^ 53)).number.equals (finiteUnsigned (2 ^ 53 + 1)).number ∧
      ¬ ComparesByValue Set.univ := by
  have equal : twoPow53.number.equals (finiteUnsigned (2 ^ 53 + 1)).number := by decide +kernel
  refine ⟨by decide +kernel, equal, by decide +kernel, ?_⟩
  intro compares
  have same := (compares.equals_iff _ (Set.mem_univ _) _ (Set.mem_univ _)).mp equal
  exact absurd same (by decide +kernel)

end BinaryReader

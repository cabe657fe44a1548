import BinaryReader.Library.Precision
import BinaryReader.Public.Number.Comparison
import Mathlib.Order.WithBot

/-!
# The order of numbers

`operator<` puts numbers in a strict order, doubles that are no number included.  The
numbers of a set can be sorted by it exactly when the set has no bridge: a NaN, or a
double that two different integers are rounded to.
-/

namespace BinaryReader

open Library

/-- The rational numbers between the two infinities. -/
abbrev Place := WithBot (WithTop ℚ)

namespace Double

def place? : Double → Option Place
  | .nan => none
  | .infinity true => some ⊥
  | .infinity false => some ⊤
  | .finite negative magnitude => some ((signed negative magnitude : WithTop ℚ) : Place)

theorem place?_of_toRat? {double : Double} {value : ℚ} (held : double.toRat? = some value) :
    double.place? = some ((value : WithTop ℚ) : Place) := by
  cases double <;> cases held
  rfl

theorem toRat?_of_place? {double : Double} {value : ℚ}
    (placed : double.place? = some ((value : WithTop ℚ) : Place)) :
    double.toRat? = some value := by
  match double, placed with
  | .infinity true, placed => exact absurd (Option.some.inj placed) WithBot.bot_ne_coe
  | .infinity false, placed =>
      exact absurd (WithBot.coe_injective (Option.some.inj placed)) WithTop.top_ne_coe
  | .finite negative magnitude, placed =>
      exact congrArg some (WithTop.coe_injective (WithBot.coe_injective (Option.some.inj placed)))

theorem eq_nan (value : Double) : value.eq .nan = false := by cases value <;> rfl

theorem lt_nan (value : Double) : value.lt .nan = false := by cases value <;> rfl

theorem nan_of_place? {double : Double} (unplaced : double.place? = none) : double = .nan := by
  match double, unplaced with
  | .nan, _ => rfl
  | .infinity true, unplaced | .infinity false, unplaced | .finite .., unplaced => cases unplaced

section
variable {left right : Double} {leftPlace rightPlace : Place}
  (leftPlaced : left.place? = some leftPlace) (rightPlaced : right.place? = some rightPlace)
include leftPlaced rightPlaced

theorem eq_iff_place : left.eq right ↔ leftPlace = rightPlace := by
  rcases left with _ | ⟨_ | _⟩ | ⟨negative, magnitude⟩ <;> cases leftPlaced <;>
    rcases right with _ | ⟨_ | _⟩ | ⟨negative', magnitude'⟩ <;> cases rightPlaced <;>
    simp [Double.eq]

theorem lt_iff_place : left.lt right ↔ leftPlace < rightPlace := by
  rcases left with _ | ⟨_ | _⟩ | ⟨negative, magnitude⟩ <;> cases leftPlaced <;>
    rcases right with _ | ⟨_ | _⟩ | ⟨negative', magnitude'⟩ <;> cases rightPlaced <;>
    simp [Double.lt]
  -- A finite double is before the positive infinity.
  exact WithBot.coe_lt_coe.mpr (WithTop.coe_lt_top _)

end

end Double

namespace Number

def roundPlace (value : Int) : Place := (((Rounding.roundInt 53 value : Int) : ℚ) : WithTop ℚ)

theorem roundPlace_mono {less more : Int} (ordered : less ≤ more) :
    roundPlace less ≤ roundPlace more := by
  have rounded : Rounding.roundInt 53 less ≤ Rounding.roundInt 53 more :=
    Rounding.roundInt_mono (by decide) ordered
  exact WithBot.coe_le_coe.mpr (WithTop.coe_le_coe.mpr (Int.cast_le.mpr rounded))

/-- What the operators compare: an integer, or the place of a double. -/
def key : Number → Precision.Key Int Place
  | .unsignedInt value => .exact value.toNat
  | .signedInt value _ => .exact value.toInt
  | .double value =>
      match value.place? with
      | some place => .rounded place
      | none => .unordered

theorem key_of_toInt? {number : Number} {value : Int} (held : number.toInt? = some value) :
    number.key = .exact value := by
  cases number <;> cases held <;> rfl

theorem toInt?_of_key {number : Number} {value : Int} (exact : number.key = .exact value) :
    number.toInt? = some value := by
  cases number with
  | unsignedInt | signedInt =>
      cases exact
      rfl
  | double held =>
      rw [key] at exact
      split at exact <;> cases exact

theorem key_of_place? {value : Double} {place : Place} (placed : value.place? = some place) :
    (double value).key = .rounded place := by
  rw [key, placed]

theorem place?_asDouble {number : Number} {value : Int} (held : number.toInt? = some value) :
    number.asDouble.place? = some (roundPlace value) :=
  Double.place?_of_toRat? (toRat?_asDouble held)

/-- A number is an integer, a placed double or NaN. -/
theorem cases_key (number : Number) :
    (∃ value, number.toInt? = some value) ∨
      (∃ value place, number = .double value ∧ value.place? = some place) ∨
      number = .double .nan := by
  cases number with
  | unsignedInt | signedInt => exact Or.inl ⟨_, rfl⟩
  | double value =>
      rcases placed : value.place? with _ | place
      · exact Or.inr (Or.inr (congrArg double (Double.nan_of_place? placed)))
      · exact Or.inr (Or.inl ⟨value, place, rfl, placed⟩)

theorem key_nan : (double .nan).key = .unordered := rfl

theorem key_eq_unordered {number : Number} (unordered : number.key = .unordered) :
    number = .double .nan := by
  rcases number.cases_key with ⟨value, held⟩ | ⟨value, place, rfl, placed⟩ | nan
  · rw [key_of_toInt? held] at unordered
    cases unordered
  · rw [key_of_place? placed] at unordered
    cases unordered
  · exact nan

theorem less_iff (left right : Number) :
    left.less right ↔ Precision.Before roundPlace left.key right.key := by
  rcases right.cases_key with ⟨other, rightHeld⟩ | ⟨other, rightPlace, rfl, rightPlaced⟩ | rfl
  · rw [key_of_toInt? rightHeld]
    rcases left.cases_key with ⟨value, leftHeld⟩ | ⟨value, leftPlace, rfl, leftPlaced⟩ | rfl
    · rw [key_of_toInt? leftHeld]
      exact less_integers leftHeld rightHeld
    · rw [key_of_place? leftPlaced, double_less]
      exact Double.lt_iff_place leftPlaced (place?_asDouble rightHeld)
    · exact iff_of_false (by rw [double_less]; exact Bool.false_ne_true)
        (Precision.not_unordered_before _)
  · rw [key_of_place? rightPlaced, less_double]
    rcases left.cases_key with ⟨value, leftHeld⟩ | ⟨value, leftPlace, rfl, leftPlaced⟩ | rfl
    · rw [key_of_toInt? leftHeld]
      exact Double.lt_iff_place (place?_asDouble leftHeld) rightPlaced
    · rw [key_of_place? leftPlaced]
      exact Double.lt_iff_place leftPlaced rightPlaced
    · exact iff_of_false Bool.false_ne_true (Precision.not_unordered_before _)
  · rw [less_double, Double.lt_nan]
    exact iff_of_false Bool.false_ne_true (Precision.not_before_unordered _)

theorem equals_iff (left right : Number) :
    left.equals right ↔ Precision.Same roundPlace left.key right.key := by
  rcases right.cases_key with ⟨other, rightHeld⟩ | ⟨other, rightPlace, rfl, rightPlaced⟩ | rfl
  · rw [key_of_toInt? rightHeld]
    rcases left.cases_key with ⟨value, leftHeld⟩ | ⟨value, leftPlace, rfl, leftPlaced⟩ | rfl
    · rw [key_of_toInt? leftHeld]
      exact equals_integers leftHeld rightHeld
    · rw [key_of_place? leftPlaced, double_equals]
      exact Double.eq_iff_place leftPlaced (place?_asDouble rightHeld)
    · exact iff_of_false (by rw [double_equals]; exact Bool.false_ne_true)
        (Precision.not_unordered_same _)
  · rw [key_of_place? rightPlaced, equals_double]
    rcases left.cases_key with ⟨value, leftHeld⟩ | ⟨value, leftPlace, rfl, leftPlaced⟩ | rfl
    · rw [key_of_toInt? leftHeld]
      exact Double.eq_iff_place (place?_asDouble leftHeld) rightPlaced
    · rw [key_of_place? leftPlaced]
      exact Double.eq_iff_place leftPlaced rightPlaced
    · exact iff_of_false Bool.false_ne_true (Precision.not_unordered_same _)
  · rw [equals_double, Double.eq_nan]
    exact iff_of_false Bool.false_ne_true (Precision.not_same_unordered _)

theorem isStrictOrder : IsStrictOrder Number fun left right => left.less right where
  irrefl number less := Precision.before_irrefl _ ((less_iff number number).mp less)
  trans _ _ _ first second := (less_iff _ _).mpr
    (Precision.before_trans (fun _ _ => roundPlace_mono) ((less_iff _ _).mp first)
      ((less_iff _ _).mp second))

theorem key_ne_unordered {number : Number} (known : number ≠ .double .nan) :
    number.key ≠ .unordered :=
  fun unordered => known (key_eq_unordered unordered)

/-- Two numbers are equal when neither is less than the other. -/
theorem equals_iff_not_less {left right : Number} (leftKnown : left ≠ .double .nan)
    (rightKnown : right ≠ .double .nan) :
    left.equals right ↔ ¬ left.less right ∧ ¬ right.less left := by
  rw [equals_iff, less_iff, less_iff]
  exact Precision.same_iff (key_ne_unordered leftKnown) (key_ne_unordered rightKnown)

/-- Two numbers of a set are in order, and beside them is a NaN, or they are two integers and
the double that both are rounded to is beside them. -/
def Bridged (numbers : Set Number) : Prop :=
  ∃ first ∈ numbers, ∃ second ∈ numbers, first.less second ∧
    (.double .nan ∈ numbers ∨
      ∃ less more value, first.toInt? = some less ∧ second.toInt? = some more ∧
        Rounding.roundInt 53 less = Rounding.roundInt 53 more ∧ .double value ∈ numbers ∧
          value.toRat? = some (Rounding.roundInt 53 less : ℚ))

/-- `2 ^ 53` and `2 ^ 53 + 1` beside the double of `2 ^ 53`. -/
example :
    Bridged {.ofUnsigned (2 ^ 53), .ofUnsigned (2 ^ 53 + 1), .double (.ofUnsigned (2 ^ 53))} :=
  ⟨.ofUnsigned (2 ^ 53), .inl rfl, .ofUnsigned (2 ^ 53 + 1), .inr (.inl rfl), by decide,
    .inr ⟨2 ^ 53, 2 ^ 53 + 1, _, rfl, rfl, by decide, .inr (.inr rfl), by decide +kernel⟩⟩

theorem roundPlace_inj {less more : Int} :
    roundPlace less = roundPlace more ↔
      Rounding.roundInt 53 less = Rounding.roundInt 53 more := by
  rw [roundPlace, roundPlace, WithBot.coe_inj, WithTop.coe_inj, Int.cast_inj]

theorem bridged_iff (numbers : Set Number) :
    Precision.Bridged roundPlace (Set.range fun number : numbers => number.1.key) ↔
      Bridged numbers := by
  constructor
  · rintro ⟨_, ⟨first, rfl⟩, _, ⟨second, rfl⟩, before, bridge⟩
    refine ⟨first, first.2, second, second.2, (less_iff _ _).mpr before, ?_⟩
    rcases bridge with ⟨number, unordered⟩ | ⟨less, more, lessKey, moreKey, same, number, placed⟩
    · exact Or.inl (key_eq_unordered unordered ▸ number.2)
    · refine Or.inr ⟨less, more, ?_⟩
      dsimp only at placed
      rcases number.1.cases_key with ⟨value, held⟩ | ⟨value, place, double, valuePlaced⟩ | nan
      · rw [key_of_toInt? held] at placed
        cases placed
      · rw [double, key_of_place? valuePlaced] at placed
        cases placed
        exact ⟨value, toInt?_of_key lessKey, toInt?_of_key moreKey, roundPlace_inj.mp same,
          double ▸ number.2, Double.toRat?_of_place? valuePlaced⟩
      · rw [nan] at placed
        cases placed
  · rintro ⟨first, firstMem, second, secondMem, before, bridge⟩
    refine ⟨_, ⟨⟨first, firstMem⟩, rfl⟩, _, ⟨⟨second, secondMem⟩, rfl⟩,
      (less_iff _ _).mp before, ?_⟩
    rcases bridge with nan | ⟨less, more, value, lessHeld, moreHeld, same, valueMem, held⟩
    · exact Or.inl ⟨⟨_, nan⟩, key_nan⟩
    · exact Or.inr ⟨less, more, key_of_toInt? lessHeld, key_of_toInt? moreHeld,
        roundPlace_inj.mpr same, ⟨_, valueMem⟩, key_of_place? (Double.place?_of_toRat? held)⟩

theorem isStrictWeakOrder_iff (numbers : Set Number) :
    IsStrictWeakOrder numbers (fun left right => left.1.less right.1) ↔ ¬ Bridged numbers := by
  have compares : (fun left right : numbers => (left.1.less right.1 : Prop)) =
      fun left right => Precision.Before roundPlace left.1.key right.1.key := by
    funext left right
    exact propext (less_iff left.1 right.1)
  rw [compares, Precision.isStrictWeakOrder_iff (fun _ _ => roundPlace_mono),
    bridged_iff]

end Number

end BinaryReader

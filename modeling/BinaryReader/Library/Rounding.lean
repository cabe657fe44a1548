import Mathlib.Algebra.Order.Field.Power
import Mathlib.Algebra.Order.Field.Rat
import Mathlib.Data.Rat.Floor
import Mathlib.Tactic.Common
import Mathlib.Tactic.Linarith
import Mathlib.Tactic.Positivity
import Mathlib.Tactic.Ring

/-!
# Rounding to a mantissa of bounded length

The value that an integer has after it is rounded to `precision` binary digits, the even
one of two nearest mantissas.  Rounding never crosses a value that has such a mantissa
already, so it keeps the order to all of them, and it never turns two values around.
-/

namespace Library.Rounding

def nearest (numerator denominator : Nat) : Nat :=
  let floor := numerator / denominator
  let rest := numerator % denominator
  if 2 * rest < denominator ∨ 2 * rest = denominator ∧ floor % 2 = 0 then floor else floor + 1

theorem div_le_nearest (numerator denominator : Nat) :
    numerator / denominator ≤ nearest numerator denominator := by
  unfold nearest
  dsimp only
  split
  · exact Nat.le_refl _
  · exact Nat.le_succ _

theorem nearest_le {numerator denominator bound : Nat} (positive : 0 < denominator)
    (most : numerator ≤ bound * denominator) : nearest numerator denominator ≤ bound := by
  have floorLe : numerator / denominator ≤ bound :=
    Nat.div_le_of_le_mul (by rwa [Nat.mul_comm] at most)
  unfold nearest
  dsimp only
  split
  · exact floorLe
  · rename_i far
    apply Nat.succ_le_of_lt
    apply lt_of_le_of_ne floorLe
    intro same
    -- A quotient that reaches the bound is exact, and then it is the nearest integer.
    have exact : numerator % denominator = 0 := by
      have parts := Nat.div_add_mod numerator denominator
      rw [same, Nat.mul_comm] at parts
      omega
    exact far (Or.inl (by rw [exact]; exact positive))

theorem nearest_le_succ (numerator denominator : Nat) :
    nearest numerator denominator ≤ numerator / denominator + 1 := by
  unfold nearest
  dsimp only
  split
  · exact Nat.le_succ _
  · exact Nat.le_refl _

theorem nearest_mono {less more : Nat} (denominator : Nat) (ordered : less ≤ more) :
    nearest less denominator ≤ nearest more denominator := by
  have floors := Nat.div_le_div_right (c := denominator) ordered
  rcases floors.lt_or_eq with below | same
  · exact (nearest_le_succ less denominator).trans
      ((Nat.succ_le_of_lt below).trans (div_le_nearest more denominator))
  · -- With one quotient the larger number has the larger rest.
    have lessParts := Nat.div_add_mod less denominator
    have moreParts := Nat.div_add_mod more denominator
    rw [same] at lessParts
    unfold nearest
    dsimp only
    rw [same]
    split <;> split <;> omega

@[simp]
theorem nearest_one (numerator : Nat) : nearest numerator 1 = numerator := by
  simp [nearest, Nat.mod_one]

def excess (precision value : Nat) : Nat := value.log2 + 1 - precision

def roundNat (precision value : Nat) : Nat :=
  nearest value (2 ^ excess precision value) * 2 ^ excess precision value

def roundInt (precision : Nat) (value : Int) : Int :=
  if value < 0 then -roundNat precision value.natAbs else roundNat precision value.natAbs

/-- The rational numbers with a mantissa of `precision` binary digits. -/
def Representable (precision : Nat) (value : ℚ) : Prop :=
  ∃ mantissa exponent : Int, |mantissa| < 2 ^ precision ∧ value = mantissa * 2 ^ exponent

def truncate (value : ℚ) : Int := if value < 0 then ⌈value⌉ else ⌊value⌋

theorem truncate_of_nonneg {value : ℚ} (nonneg : 0 ≤ value) : truncate value = ⌊value⌋ :=
  if_neg (not_lt.mpr nonneg)

theorem truncate_of_neg {value : ℚ} (negative : value < 0) : truncate value = ⌈value⌉ :=
  if_pos negative

theorem truncate_intCast (value : Int) : truncate value = value := by
  unfold truncate
  split
  · exact Int.ceil_intCast value
  · exact Int.floor_intCast value

theorem truncate_nonneg {value : ℚ} (nonneg : 0 ≤ value) : 0 ≤ truncate value := by
  rw [truncate_of_nonneg nonneg]
  exact Int.floor_nonneg.mpr nonneg

theorem truncate_nonpos {value : ℚ} (nonpos : value ≤ 0) : truncate value ≤ 0 := by
  rcases nonpos.lt_or_eq with negative | rfl
  · rw [truncate_of_neg negative]
    exact Int.ceil_le.mpr (by exact_mod_cast nonpos)
  · rw [truncate_of_nonneg le_rfl, Int.floor_zero]

theorem le_truncate_iff {limit : Int} (positive : 0 < limit) {value : ℚ} :
    limit ≤ truncate value ↔ (limit : ℚ) ≤ value := by
  rcases lt_or_ge value 0 with negative | nonneg
  · have truncated := truncate_nonpos negative.le
    have below : value < limit := negative.trans (by exact_mod_cast positive)
    constructor
    · intro large
      omega
    · intro large
      exact absurd large (not_le.mpr below)
  · rw [truncate_of_nonneg nonneg, Int.le_floor]

theorem truncate_le_iff {limit : Int} (negative : limit < 0) {value : ℚ} :
    truncate value ≤ limit ↔ value ≤ limit := by
  rcases lt_or_ge value 0 with below | nonneg
  · rw [truncate_of_neg below, Int.ceil_le]
  · have truncated := truncate_nonneg nonneg
    have above : (limit : ℚ) < value := lt_of_lt_of_le (by exact_mod_cast negative) nonneg
    constructor
    · intro small
      omega
    · intro small
      exact absurd small (not_le.mpr above)

section
variable {precision : Nat}

theorem lt_pow_excess (value : Nat) : value < 2 ^ precision * 2 ^ excess precision value := by
  rw [← Nat.pow_add]
  apply lt_of_lt_of_le Nat.lt_log2_self
  apply Nat.pow_le_pow_right Nat.two_pos
  unfold excess
  omega

theorem excess_le (positive : 0 < precision) {digits value : Nat} (fits : value < 2 ^ digits) :
    excess precision value ≤ digits - precision := by
  unfold excess
  by_cases zero : value = 0
  · rw [zero, Nat.log2_zero]
    omega
  · have bound := (Nat.log2_lt zero).mpr fits
    omega

theorem pow_mul_pow_le (positive : 0 < precision) {value : Nat}
    (excessive : 0 < excess precision value) :
    2 ^ (precision - 1) * 2 ^ excess precision value ≤ value := by
  have nonzero : value ≠ 0 := by
    rintro rfl
    rw [excess, Nat.log2_zero] at excessive
    omega
  have exponent : precision - 1 + excess precision value = value.log2 := by
    unfold excess at excessive ⊢
    omega
  rw [← Nat.pow_add, exponent]
  exact Nat.log2_self_le nonzero

theorem nearest_excess_le (value : Nat) :
    nearest value (2 ^ excess precision value) ≤ 2 ^ precision :=
  nearest_le (Nat.two_pow_pos _) (lt_pow_excess value).le

theorem excess_mono {less more : Nat} (ordered : less ≤ more) :
    excess precision less ≤ excess precision more := by
  by_cases zero : less = 0
  · rw [zero, excess, excess, Nat.log2_zero]
    omega
  · have digits : less.log2 ≤ more.log2 :=
      (Nat.le_log2 (by omega)).mpr ((Nat.log2_self_le zero).trans ordered)
    unfold excess
    omega

theorem roundNat_of_excess_eq_zero {value : Nat} (fits : excess precision value = 0) :
    roundNat precision value = value := by
  rw [roundNat, fits, Nat.pow_zero, nearest_one, Nat.mul_one]

theorem Representable.neg {value : ℚ} (representable : Representable precision value) :
    Representable precision (-value) := by
  obtain ⟨mantissa, exponent, bound, rfl⟩ := representable
  refine ⟨-mantissa, exponent, by rwa [abs_neg], ?_⟩
  push_cast
  ring

theorem scaled_eq {mantissa exponent : Int} {digits : Nat} (large : (digits : Int) ≤ exponent) :
    (mantissa : ℚ) * 2 ^ exponent =
      ((mantissa * 2 ^ (exponent - digits).toNat : Int) : ℚ) * 2 ^ digits := by
  have parts : exponent = ((exponent - digits).toNat : Int) + (digits : Int) := by omega
  rw [Int.cast_mul, mul_assoc]
  congr 1
  conv_lhs => rw [parts, zpow_add₀ two_ne_zero, zpow_natCast, zpow_natCast]
  push_cast
  rfl

theorem lt_pow_mul {mantissa exponent : Int} (bound : |mantissa| < 2 ^ precision) :
    (mantissa : ℚ) * 2 ^ exponent < 2 ^ precision * 2 ^ exponent := by
  apply mul_lt_mul_of_pos_right _ (zpow_pos two_pos exponent)
  exact_mod_cast lt_of_le_of_lt (le_abs_self mantissa) bound

theorem le_roundNat (positive : 0 < precision) {value : Nat} {other : ℚ}
    (representable : Representable precision other) (below : other ≤ value) :
    other ≤ roundNat precision value := by
  rcases Nat.eq_zero_or_pos (excess precision value) with fits | excessive
  · rwa [roundNat_of_excess_eq_zero fits]
  · obtain ⟨mantissa, exponent, bound, rfl⟩ := representable
    have floor : value / 2 ^ excess precision value * 2 ^ excess precision value ≤
        roundNat precision value := Nat.mul_le_mul_right _ (div_le_nearest _ _)
    apply le_trans _ (Nat.cast_le.mpr floor)
    rcases le_or_gt (excess precision value : Int) exponent with large | small
    · -- The other value has the last digit of the rounded one.
      rw [scaled_eq large] at below ⊢
      generalize mantissa * 2 ^ (exponent - (excess precision value : Int)).toNat = whole
        at below ⊢
      have wholeBelow : whole * (2 ^ excess precision value : Nat) ≤ (value : Int) := by
        exact_mod_cast below
      have quotient : whole ≤ ((value / 2 ^ excess precision value : Nat) : Int) := by
        rw [Int.natCast_div]
        exact Int.le_ediv_of_mul_le (by positivity) wholeBelow
      generalize value / 2 ^ excess precision value = floor at quotient ⊢
      have scaled := mul_le_mul_of_nonneg_right quotient
        (Int.natCast_nonneg (2 ^ excess precision value))
      exact_mod_cast scaled
    · -- The other value is below every value with as many digits.
      have digits := Nat.le_div_iff_mul_le (Nat.two_pow_pos _) |>.mpr
        (pow_mul_pow_le positive excessive)
      apply le_trans (lt_pow_mul bound).le
      have power : (2 : ℚ) ^ precision * 2 ^ exponent ≤
          2 ^ (precision - 1) * 2 ^ excess precision value := by
        rw [← zpow_natCast, ← zpow_natCast, ← zpow_natCast, ← zpow_add₀ two_ne_zero,
          ← zpow_add₀ two_ne_zero]
        apply zpow_le_zpow_right₀ one_le_two
        omega
      apply le_trans power
      exact_mod_cast Nat.mul_le_mul_right (2 ^ excess precision value) digits

theorem roundNat_le (positive : 0 < precision) {value : Nat} {other : ℚ}
    (representable : Representable precision other) (above : (value : ℚ) ≤ other) :
    (roundNat precision value : ℚ) ≤ other := by
  rcases Nat.eq_zero_or_pos (excess precision value) with fits | excessive
  · rwa [roundNat_of_excess_eq_zero fits]
  · obtain ⟨mantissa, exponent, bound, rfl⟩ := representable
    have large : (excess precision value : Int) ≤ exponent := by
      have digits : (2 : ℚ) ^ (precision - 1) * 2 ^ excess precision value ≤ value := by
        exact_mod_cast pow_mul_pow_le positive excessive
      have between := lt_of_le_of_lt (digits.trans above) (lt_pow_mul bound)
      rw [← zpow_natCast, ← zpow_natCast, ← zpow_natCast, ← zpow_add₀ two_ne_zero,
        ← zpow_add₀ two_ne_zero, zpow_lt_zpow_iff_right₀ one_lt_two] at between
      omega
    rw [scaled_eq large] at above ⊢
    generalize mantissa * 2 ^ (exponent - (excess precision value : Int)).toNat = whole
      at above ⊢
    have wholeAbove : (value : Int) ≤ whole * (2 ^ excess precision value : Nat) := by
      exact_mod_cast above
    obtain ⟨whole, rfl⟩ := Int.eq_ofNat_of_zero_le (nonneg_of_mul_nonneg_left
      ((Int.natCast_nonneg value).trans wholeAbove) (by positivity))
    have nearestLe := nearest_le (Nat.two_pow_pos _) (by exact_mod_cast wholeAbove)
    exact_mod_cast Nat.mul_le_mul_right (2 ^ excess precision value) nearestLe

theorem pow_mul_pow_le_roundNat (positive : 0 < precision) {value : Nat}
    (excessive : 0 < excess precision value) :
    2 ^ (precision - 1) * 2 ^ excess precision value ≤ roundNat precision value := by
  have digits := Nat.le_div_iff_mul_le (Nat.two_pow_pos _) |>.mpr
    (pow_mul_pow_le positive excessive)
  exact Nat.mul_le_mul_right _ (digits.trans (div_le_nearest _ _))

theorem roundNat_mono (positive : 0 < precision) {less more : Nat} (ordered : less ≤ more) :
    roundNat precision less ≤ roundNat precision more := by
  have digits : excess precision less ≤ excess precision more := excess_mono ordered
  rcases digits.lt_or_eq with shorter | same
  · -- A power of two with fewer digits than the larger value is between the two.
    calc roundNat precision less
      _ ≤ 2 ^ precision * 2 ^ excess precision less :=
          Nat.mul_le_mul_right _ (nearest_excess_le less)
      _ ≤ 2 ^ (precision - 1) * 2 ^ excess precision more := by
          rw [← Nat.pow_add, ← Nat.pow_add]
          exact Nat.pow_le_pow_right Nat.two_pos (by omega)
      _ ≤ roundNat precision more := pow_mul_pow_le_roundNat positive (by omega)
  · unfold roundNat
    rw [same]
    exact Nat.mul_le_mul_right _ (nearest_mono _ ordered)

@[simp]
theorem roundNat_zero : roundNat precision 0 = 0 := by
  have none : nearest 0 (2 ^ excess precision 0) ≤ 0 :=
    nearest_le (Nat.two_pow_pos _) (Nat.zero_le _)
  rw [roundNat, Nat.le_zero.mp none, Nat.zero_mul]

@[simp]
theorem roundInt_natCast (value : Nat) : roundInt precision value = roundNat precision value := by
  rw [roundInt, if_neg (by omega), Int.natAbs_natCast]

@[simp]
theorem roundInt_neg (value : Int) : roundInt precision (-value) = -roundInt precision value := by
  unfold roundInt
  rw [Int.natAbs_neg]
  rcases lt_trichotomy value 0 with negative | rfl | positive
  · rw [if_neg (by omega), if_pos negative, neg_neg]
  · rw [Int.natAbs_zero, roundNat_zero]
    rfl
  · rw [if_pos (by omega), if_neg (by omega)]

theorem roundInt_mono (positive : 0 < precision) {less more : Int} (ordered : less ≤ more) :
    roundInt precision less ≤ roundInt precision more := by
  unfold roundInt
  split <;> split
  · exact neg_le_neg (Int.ofNat_le.mpr (roundNat_mono positive (by omega)))
  · exact (neg_nonpos.mpr (Int.natCast_nonneg _)).trans (Int.natCast_nonneg _)
  · omega
  · exact Int.ofNat_le.mpr (roundNat_mono positive (by omega))

theorem le_roundInt (positive : 0 < precision) {value : Int} {other : ℚ}
    (representable : Representable precision other) (below : other ≤ value) :
    other ≤ roundInt precision value := by
  obtain ⟨magnitude, rfl | rfl⟩ := Int.eq_nat_or_neg value
  · rw [roundInt_natCast]
    exact le_roundNat positive representable below
  · rw [roundInt_neg, roundInt_natCast]
    have above : (magnitude : ℚ) ≤ -other := by
      rw [le_neg]
      exact_mod_cast below
    have rounded := roundNat_le positive representable.neg above
    rw [le_neg] at rounded
    exact_mod_cast rounded

theorem roundInt_le (positive : 0 < precision) {value : Int} {other : ℚ}
    (representable : Representable precision other) (above : (value : ℚ) ≤ other) :
    (roundInt precision value : ℚ) ≤ other := by
  have below : -other ≤ ((-value : Int) : ℚ) := by
    rw [Int.cast_neg]
    exact neg_le_neg above
  have rounded := le_roundInt positive representable.neg below
  rw [roundInt_neg, Int.cast_neg] at rounded
  exact neg_le_neg_iff.mp rounded

theorem roundInt_of_representable (positive : 0 < precision) {value : Int} {other : ℚ}
    (representable : Representable precision other) (same : (value : ℚ) = other) :
    (roundInt precision value : ℚ) = other :=
  le_antisymm (roundInt_le positive representable same.le)
    (le_roundInt positive representable same.ge)

/-- Rounding compares an integer with a representable value as the integer compares, unless it
makes the two equal. -/
theorem roundInt_lt_iff (positive : 0 < precision) {value : Int} {other : ℚ}
    (representable : Representable precision other)
    (apart : (roundInt precision value : ℚ) = other → (value : ℚ) = other) :
    (roundInt precision value : ℚ) < other ↔ (value : ℚ) < other := by
  constructor
  · intro less
    by_contra notLess
    exact not_lt_of_ge (le_roundInt positive representable (not_lt.mp notLess)) less
  · intro less
    apply lt_of_le_of_ne (roundInt_le positive representable less.le)
    intro same
    exact less.ne (apart same)

theorem lt_roundInt_iff (positive : 0 < precision) {value : Int} {other : ℚ}
    (representable : Representable precision other)
    (apart : (roundInt precision value : ℚ) = other → (value : ℚ) = other) :
    other < (roundInt precision value : ℚ) ↔ other < (value : ℚ) := by
  constructor
  · intro less
    by_contra notLess
    exact not_lt_of_ge (roundInt_le positive representable (not_lt.mp notLess)) less
  · intro less
    apply lt_of_le_of_ne (le_roundInt positive representable less.le)
    intro same
    exact less.ne (apart same.symm).symm

end

example : roundInt 53 (2 ^ 53 + 1) = 2 ^ 53 ∧ roundInt 53 (-(2 ^ 53) - 3) = -(2 ^ 53) - 4 := by
  decide

end Library.Rounding

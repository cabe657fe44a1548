import Mathlib.Data.List.Induction
import Mathlib.Data.List.TakeWhile
import Mathlib.Tactic.Common

/-!
# Numerals

The value of a list of digits, the most significant one first, and what becomes
of it when the digits are read in a smaller base up to the first one that is too
large.
-/

namespace Library.Numerals

def value (base : Nat) (digits : List Nat) : Nat :=
  digits.foldl (fun value digit => value * base + digit) 0

@[simp]
theorem value_nil (base : Nat) : value base [] = 0 := rfl

@[simp]
theorem value_append_singleton (base : Nat) (digits : List Nat) (digit : Nat) :
    value base (digits ++ [digit]) = value base digits * base + digit := by
  rw [value, List.foldl_append]
  rfl

theorem le_value_of_mem {base digit : Nat} (positive : 0 < base) {digits : List Nat}
    (membership : digit ∈ digits) : digit ≤ value base digits := by
  induction digits using List.reverseRecOn with
  | nil => cases membership
  | append_singleton digits last inductionHypothesis =>
      rw [value_append_singleton]
      rcases List.mem_append.mp membership with early | isLast
      · have grows := Nat.le_mul_of_pos_right (value base digits) positive
        exact ((inductionHypothesis early).trans grows).trans (Nat.le_add_right _ _)
      · rw [List.mem_singleton.mp isLast]
        exact Nat.le_add_left _ _

/-- The digits that a smaller base has, up to the first one that it does not have. -/
def digitsBelow (base : Nat) (digits : List Nat) : List Nat :=
  digits.takeWhile fun digit => decide (digit < base)

theorem digitsBelow_eq_self {base : Nat} {digits : List Nat}
    (all : ∀ digit ∈ digits, digit < base) : digitsBelow base digits = digits :=
  List.takeWhile_eq_self_iff.mpr (by simpa using all)

theorem digitsBelow_append {base : Nat} {digits : List Nat}
    (some : ¬ ∀ digit ∈ digits, digit < base) (behind : List Nat) :
    digitsBelow base (digits ++ behind) = digitsBelow base digits := by
  have shorter : (digits.takeWhile fun digit => decide (digit < base)).length ≠ digits.length := by
    intro same
    have whole := (List.takeWhile_prefix _).eq_of_length same
    exact some (by simpa using List.takeWhile_eq_self_iff.mp whole)
  rw [digitsBelow, List.takeWhile_append, if_neg shorter]
  rfl

/-- Reading a numeral in a smaller base keeps its value when it is a digit of that base, and
makes it smaller otherwise. -/
theorem value_digitsBelow {small large : Nat} (positive : 0 < small) (smaller : small < large)
    (digits : List Nat) :
    (value large digits < small → value small (digitsBelow small digits) = value large digits) ∧
      (small ≤ value large digits →
        value small (digitsBelow small digits) < value large digits) := by
  induction digits using List.reverseRecOn with
  | nil => exact ⟨fun _ => rfl, fun isLarge => absurd isLarge (Nat.not_le_of_lt positive)⟩
  | append_singleton digits digit inductionHypothesis =>
      obtain ⟨same, less⟩ := inductionHypothesis
      have grows : value large digits ≤ value large digits * large :=
        Nat.le_mul_of_pos_right _ (positive.trans smaller)
      have bound : value small (digitsBelow small digits) ≤ value large digits := by
        rcases Nat.lt_or_ge (value large digits) small with isSmall | isLarge
        · exact (same isSmall).le
        · exact (less isLarge).le
      rw [value_append_singleton]
      by_cases all : ∀ other ∈ digits, other < small
      · rw [digitsBelow_eq_self all] at bound
        by_cases fits : digit < small
        · have kept : digitsBelow small (digits ++ [digit]) = digits ++ [digit] := by
            apply digitsBelow_eq_self
            rw [List.forall_mem_append, List.forall_mem_singleton]
            exact ⟨all, fits⟩
          rw [kept, value_append_singleton]
          rcases Nat.eq_zero_or_pos (value large digits) with zero | nonzero
          · rw [zero, Nat.le_zero] at bound
            rw [zero, bound]
            omega
          · have scaled : value small digits * small < value large digits * large :=
              Nat.mul_lt_mul_of_le_of_lt bound smaller nonzero
            have once : large ≤ value large digits * large := Nat.le_mul_of_pos_left _ nonzero
            omega
        · have cut : digitsBelow small (digits ++ [digit]) = digits := by
            rw [digitsBelow, List.takeWhile_append_of_pos (by simpa using all),
              List.takeWhile_cons_of_neg (by simpa using fits), List.append_nil]
          rw [cut]
          omega
      · obtain ⟨other, membership, excess⟩ : ∃ other ∈ digits, small ≤ other := by
          simpa using all
        have most := le_value_of_mem (positive.trans smaller) membership
        have behind := less (excess.trans most)
        rw [digitsBelow_append all]
        omega

example : value 8 (digitsBelow 8 [0, 1, 7]) = 15 := by decide

end Library.Numerals

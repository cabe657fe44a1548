import BinaryReader.Public.Size

/-!
# Size as a bit counter

A `Step` moves a `Size` by one of the four operators.  A run of steps counts
when every position it passes is the start moved by the signed sum of the
operands so far, modulo the word, and every compound operator gives what its
plain form gives.
-/

namespace BinaryReader.Size

inductive Step where
  | add (operand : Size)
  | addAssign (operand : Size)
  | sub (operand : Size)
  | subAssign (operand : Size)
  deriving DecidableEq

namespace Step

def apply (size : Size) : Step → Size
  | add operand => size + operand
  | addAssign operand => size.addAssign operand
  | sub operand => size - operand
  | subAssign operand => size.subAssign operand

def plain : Step → Step
  | add operand | addAssign operand => add operand
  | sub operand | subAssign operand => sub operand

def change : Step → Int
  | add operand | addAssign operand => operand.bitCount
  | sub operand | subAssign operand => -operand.bitCount

/-- Twice the operand of a compound subtraction is a multiple of the word. -/
def Harmless : Step → Prop
  | subAssign operand => operand.bitCount = 0 ∨ operand.bitCount = 2 ^ 63
  | _ => True

end Step

def run (start : Size) (steps : List Step) : Size := steps.foldl Step.apply start

def change (steps : List Step) : Int := (steps.map Step.change).sum

structure FaithfulCounter (start : Size) (steps : List Step) : Prop where
  counted : ∀ prior, prior <+: steps →
    ((start.run prior).bitCount : Int) = (start.bitCount + change prior) % 2 ^ 64
  compound : ∀ prior step, prior ++ [step] <+: steps →
    step.apply (start.run prior) = step.plain.apply (start.run prior)
  split : ∀ size : Size, fromBytesAndOffset size.byteCount size.bitOffset = size
  clip : ∀ size : Size, size.clipToByte + fromBits size.bitOffset = size

theorem bitCount_plain_apply (step : Step) (size : Size) :
    ((step.plain.apply size).bitCount : Int) = (size.bitCount + step.change) % 2 ^ 64 := by
  have bound := size.bitCount_lt
  cases step with
  | add operand | addAssign operand => simp [Step.plain, Step.apply, Step.change]
  | sub operand | subAssign operand =>
      have operandBound := operand.bitCount_lt
      simp only [Step.plain, Step.apply, Step.change, bitCount_sub]
      omega

/-- A compound subtraction agrees with the plain one exactly when adding the
operand twice comes back to the start. -/
theorem subAssign_eq_sub_iff (size operand : Size) :
    size.subAssign operand = size - operand ↔
      operand.bitCount = 0 ∨ operand.bitCount = 2 ^ 63 := by
  have bound := size.bitCount_lt
  have operandBound := operand.bitCount_lt
  have counts : size.subAssign operand = size - operand ↔
      (size.subAssign operand).bitCount = (size - operand).bitCount :=
    ⟨congrArg bitCount, bitCount_injective⟩
  rw [counts, bitCount_subAssign, bitCount_sub]
  omega

theorem apply_eq_plain_iff (step : Step) (size : Size) :
    step.apply size = step.plain.apply size ↔ step.Harmless := by
  cases step with
  | add operand => simp [Step.plain, Step.Harmless]
  | sub operand => simp [Step.plain, Step.Harmless]
  | addAssign operand => exact ⟨fun _ => trivial, fun _ => rfl⟩
  | subAssign operand => exact subAssign_eq_sub_iff size operand

theorem run_append (start : Size) (prior : List Step) (step : Step) :
    start.run (prior ++ [step]) = step.apply (start.run prior) := by
  simp [run]

theorem change_append (prior : List Step) (step : Step) :
    change (prior ++ [step]) = change prior + step.change := by
  simp [change]

/-- Steps that agree with their plain forms count. -/
theorem bitCount_run (start : Size) (steps : List Step)
    (harmless : ∀ step ∈ steps, step.Harmless) :
    ((start.run steps).bitCount : Int) = (start.bitCount + change steps) % 2 ^ 64 := by
  induction steps using List.reverseRecOn with
  | nil =>
      have bound := start.bitCount_lt
      simp only [run, change, List.foldl_nil, List.map_nil, List.sum_nil]
      omega
  | append_singleton steps step inductionHypothesis =>
      have earlier := inductionHypothesis fun step member =>
        harmless step (List.mem_append_left _ member)
      have agrees := (apply_eq_plain_iff step (start.run steps)).mpr (harmless step (by simp))
      rw [run_append, change_append, agrees, bitCount_plain_apply, earlier, Int.emod_add_emod,
        add_assoc]

theorem fromBytesAndOffset_byteCount_bitOffset (size : Size) :
    fromBytesAndOffset size.byteCount size.bitOffset = size := by
  apply bitCount_injective
  rw [bitCount_fromBytesAndOffset, byteCount_bitOffset]
  exact Nat.mod_eq_of_lt size.bitCount_lt

theorem clipToByte_add_bitOffset (size : Size) :
    size.clipToByte + fromBits size.bitOffset = size := by
  apply bitCount_injective
  rw [bitCount_add, bitCount_clipToByte, bitCount_fromBits_bitOffset, byteCount_bitOffset]
  exact Nat.mod_eq_of_lt size.bitCount_lt

/-- A sequence of steps counts exactly when none of its compound subtractions
moves the position. -/
theorem faithfulCounter_iff (start : Size) (steps : List Step) :
    FaithfulCounter start steps ↔
      ∀ operand, Step.subAssign operand ∈ steps →
        operand.bitCount = 0 ∨ operand.bitCount = 2 ^ 63 := by
  constructor
  · intro faithful operand member
    obtain ⟨prior, later, rfl⟩ := List.append_of_mem member
    have agrees := faithful.compound prior (.subAssign operand) ⟨later, by simp⟩
    exact (apply_eq_plain_iff _ _).mp agrees
  · intro harmless
    have every : ∀ step ∈ steps, step.Harmless := by
      intro step member
      cases step with
      | subAssign operand => exact harmless operand member
      | add operand | addAssign operand | sub operand => trivial
    refine ⟨?_, ?_, fromBytesAndOffset_byteCount_bitOffset, clipToByte_add_bitOffset⟩
    · intro prior isPrefix
      exact bitCount_run start prior fun step member => every step (isPrefix.subset member)
    · intro prior step isPrefix
      exact (apply_eq_plain_iff _ _).mpr (every step (isPrefix.subset (by simp)))

/-- Eight bits less one bit by the compound operator are nine bits. -/
theorem not_faithfulCounter_subAssign :
    ¬ FaithfulCounter (fromBits 8) [.subAssign (fromBits 1)] := by
  intro faithful
  have counted := faithful.counted _ List.prefix_rfl
  revert counted
  decide

end BinaryReader.Size

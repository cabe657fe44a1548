import Mathlib.Data.List.Forall2

/-!
# Incremental scanners

A scanner looks at the front of its input and either finds a complete item,
finds that no continuation of the input can start with one, or asks for more
input. Its laws say that more input never changes a decided answer, so cutting
the input into chunks cannot be observed: `run_append` resumes a run from the
symbols the first chunk left pending.
-/

namespace Library

universe u v w

inductive Scan (Output : Type v) (Failure : Type w) where
  | incomplete
  | failed (failure : Failure)
  | item (output : Output) (size : Nat)

/-- A scanner together with the laws that make it incremental. -/
structure Scanner (Symbol : Type u) (Output : Type v) (Failure : Type w) where
  scan : List Symbol → Scan Output Failure
  item_size : ∀ {input output size}, scan input = .item output size →
    0 < size ∧ size ≤ input.length
  item_local : ∀ {input output size}, scan input = .item output size →
    ∀ more, scan (input.take size ++ more) = .item output size
  failed_append : ∀ {input failure}, scan input = .failed failure →
    ∀ more, scan (input ++ more) = .failed failure

/-- How a run ends, with the number of symbols in front of the item that is
unfinished or failed. -/
inductive Ending (Symbol : Type u) (Failure : Type w) where
  | pending (index : Nat) (rest : List Symbol)
  | failed (index : Nat) (failure : Failure)

namespace Ending

variable {Symbol : Type u} {Failure : Type w}

def shift (count : Nat) : Ending Symbol Failure → Ending Symbol Failure
  | .pending index rest => .pending (count + index) rest
  | .failed index failure => .failed (count + index) failure

@[simp]
theorem shift_pending (count index : Nat) (rest : List Symbol) :
    (Ending.pending index rest : Ending Symbol Failure).shift count =
      .pending (count + index) rest := rfl

@[simp]
theorem shift_failed (count index : Nat) (failure : Failure) :
    (Ending.failed index failure : Ending Symbol Failure).shift count =
      .failed (count + index) failure := rfl

@[simp]
theorem shift_shift (first second : Nat) (ending : Ending Symbol Failure) :
    (ending.shift second).shift first = ending.shift (first + second) := by
  cases ending <;> simp [Nat.add_assoc]

@[simp]
theorem shift_zero (ending : Ending Symbol Failure) : ending.shift 0 = ending := by
  cases ending <;> simp

end Ending

namespace Scanner

variable {Symbol : Type u} {Output : Type v} {Failure : Type w}
variable (scanner : Scanner Symbol Output Failure)

theorem scan_append_of_item {input : List Symbol} {output : Output} {size : Nat}
    (found : scanner.scan input = .item output size) (more : List Symbol) :
    scanner.scan (input ++ more) = .item output size := by
  have unchanged := scanner.item_local found (input.drop size ++ more)
  rwa [← List.append_assoc, List.take_append_drop] at unchanged

def run (input : List Symbol) : List Output × Ending Symbol Failure :=
  match _found : scanner.scan input with
  | .incomplete => ([], .pending 0 input)
  | .failed failure => ([], .failed 0 failure)
  | .item output size =>
      let rest := run (input.drop size)
      (output :: rest.1, rest.2.shift size)
termination_by input.length
decreasing_by
  have bounds := scanner.item_size _found
  simp only [List.length_drop]
  omega

theorem run_incomplete {input : List Symbol} (found : scanner.scan input = .incomplete) :
    scanner.run input = ([], .pending 0 input) := by
  unfold run
  split <;> simp_all

theorem run_failed {input : List Symbol} {failure : Failure}
    (found : scanner.scan input = .failed failure) :
    scanner.run input = ([], .failed 0 failure) := by
  unfold run
  split <;> simp_all

theorem run_item {input : List Symbol} {output : Output} {size : Nat}
    (found : scanner.scan input = .item output size) :
    scanner.run input =
      (output :: (scanner.run (input.drop size)).1,
        (scanner.run (input.drop size)).2.shift size) := by
  rw [run]
  split
  next absent => simp [found] at absent
  next failure absent => simp [found] at absent
  next output' size' found' =>
    rw [found] at found'
    cases found'
    rfl

/-- Go on from the ending of a run when `more` input arrives. -/
def resume (started : List Output × Ending Symbol Failure) (more : List Symbol) :
    List Output × Ending Symbol Failure :=
  match started.2 with
  | .failed _ _ => started
  | .pending index rest =>
      (started.1 ++ (scanner.run (rest ++ more)).1, (scanner.run (rest ++ more)).2.shift index)

/-- Scanning `input ++ more` is scanning `input` and resuming on `more`. -/
theorem run_append (input more : List Symbol) :
    scanner.run (input ++ more) = scanner.resume (scanner.run input) more := by
  fun_induction scanner.run input with
  | case1 input found => simp [resume]
  | case2 input failure found =>
      simp [resume, scanner.run_failed (scanner.failed_append found more)]
  | case3 input output size found rest inductionHypothesis =>
      have bounds := scanner.item_size found
      rw [scanner.run_item (scanner.scan_append_of_item found more),
        List.drop_append_of_le_length bounds.2, inductionHypothesis]
      rcases tail : scanner.run (input.drop size) with ⟨outputs, index | index⟩ <;>
        simp [rest, tail, resume]

/-- An input splits into complete items followed by `rest`. -/
inductive Splits : List Symbol → List Output → List Symbol → Prop where
  | done (rest : List Symbol) : Splits rest [] rest
  | item {front input rest : List Symbol} {output : Output} {outputs : List Output} :
      scanner.scan front = .item output front.length →
      Splits input outputs rest → Splits (front ++ input) (output :: outputs) rest

variable {scanner}

theorem Splits.exists_front {input rest : List Symbol} {outputs : List Output}
    (splits : scanner.Splits input outputs rest) : ∃ front, input = front ++ rest := by
  induction splits with
  | done rest => exact ⟨[], rfl⟩
  | @item head input rest output outputs found _ inductionHypothesis =>
      obtain ⟨front, rfl⟩ := inductionHypothesis
      exact ⟨head ++ front, (List.append_assoc _ _ _).symm⟩

/-- Completeness: complete items in front of an input are found one by one. -/
theorem Splits.run_eq {input rest : List Symbol} {outputs : List Output}
    (splits : scanner.Splits input outputs rest) :
    ∃ count, count + rest.length = input.length ∧
      scanner.run input =
        (outputs ++ (scanner.run rest).1, (scanner.run rest).2.shift count) := by
  induction splits with
  | done rest => exact ⟨0, by simp, by simp⟩
  | @item front input rest output outputs found _ inductionHypothesis =>
      rcases inductionHypothesis with ⟨count, length, result⟩
      refine ⟨front.length + count, by simp only [List.length_append]; omega, ?_⟩
      rw [scanner.run_item (scanner.scan_append_of_item found input), List.drop_left, result]
      simp

/-- Soundness: a run that does not fail has split its input. -/
theorem splits_of_run {input rest : List Symbol} {outputs : List Output} {index : Nat}
    (result : scanner.run input = (outputs, .pending index rest)) :
    scanner.Splits input outputs rest ∧ scanner.scan rest = .incomplete := by
  revert outputs index
  fun_induction scanner.run input with
  | case1 input found =>
      intro outputs index result
      simp only [Prod.mk.injEq, Ending.pending.injEq] at result
      rcases result with ⟨rfl, _, rfl⟩
      exact ⟨.done input, found⟩
  | case2 input failure found => simp
  | case3 input output size found tail =>
      rename_i inductionHypothesis
      intro outputs index result
      have bounds := scanner.item_size found
      rcases tailEq : scanner.run (input.drop size) with ⟨later, inner | inner⟩
      · simp only [tail, tailEq, Ending.shift_pending, Prod.mk.injEq,
          Ending.pending.injEq] at result
        rcases result with ⟨rfl, _, rfl⟩
        have split := inductionHypothesis tailEq
        have front : scanner.scan (input.take size) = .item output (input.take size).length := by
          rw [List.length_take_of_le bounds.2]
          simpa using scanner.item_local found []
        have joined := Splits.item front split.1
        rw [List.take_append_drop] at joined
        exact ⟨joined, split.2⟩
      · simp [tail, tailEq] at result

theorem pending_of_run {input rest : List Symbol} {outputs : List Output} {index : Nat}
    (result : scanner.run input = (outputs, .pending index rest)) :
    ∃ front, front.length = index ∧ input = front ++ rest := by
  obtain ⟨splits, unfinished⟩ := splits_of_run result
  obtain ⟨front, input_eq⟩ := splits.exists_front
  obtain ⟨count, length, ran⟩ := splits.run_eq
  rw [scanner.run_incomplete unfinished, result, Ending.shift_pending, Nat.add_zero] at ran
  cases (Prod.mk.inj ran).2
  refine ⟨front, ?_, input_eq⟩
  rw [input_eq, List.length_append] at length
  omega

theorem failed_of_run {input : List Symbol} {outputs : List Output} {index : Nat}
    {failure : Failure} (result : scanner.run input = (outputs, .failed index failure)) :
    ∃ front rest, front.length = index ∧ input = front ++ rest ∧
      scanner.Splits input outputs rest ∧ scanner.scan rest = .failed failure := by
  revert outputs index
  fun_induction scanner.run input with
  | case1 input found => simp
  | case2 input other found =>
      intro outputs index result
      cases result
      exact ⟨[], input, rfl, rfl, .done input, found⟩
  | case3 input output size found tail =>
      rename_i inductionHypothesis
      intro outputs index result
      have bounds := scanner.item_size found
      rcases tailEq : scanner.run (input.drop size) with ⟨later, inner | ⟨inner, other⟩⟩
      · simp [tail, tailEq] at result
      · simp only [tail, tailEq, Ending.shift_failed] at result
        cases result
        obtain ⟨front, rest, length, dropped, splits, failed⟩ := inductionHypothesis tailEq
        have head : scanner.scan (input.take size) = .item output (input.take size).length := by
          rw [List.length_take_of_le bounds.2]
          simpa using scanner.item_local found []
        have joined := Splits.item head splits
        rw [List.take_append_drop] at joined
        refine ⟨input.take size ++ front, rest, ?_, ?_, joined, failed⟩
        · rw [List.length_append, List.length_take_of_le bounds.2, length]
        · rw [List.append_assoc, ← dropped, List.take_append_drop]

/-- A run ends without a failure exactly when its input is a sequence of
complete items and one unfinished item. -/
theorem run_pending_iff {input rest : List Symbol} {outputs : List Output} :
    (∃ index, scanner.run input = (outputs, .pending index rest)) ↔
      scanner.Splits input outputs rest ∧ scanner.scan rest = .incomplete := by
  constructor
  · rintro ⟨index, result⟩
    exact splits_of_run result
  · rintro ⟨splits, unfinished⟩
    rcases splits.run_eq with ⟨count, _, result⟩
    rw [scanner.run_incomplete unfinished] at result
    exact ⟨count, by simpa using result⟩

end Scanner

end Library

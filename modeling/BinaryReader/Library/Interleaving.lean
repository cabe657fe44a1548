import BinaryReader.Library.Machine
import Mathlib.Logic.Function.Basic

/-!
# Interleaving

Components of one kind share a resource and move one at a time.  A component is
not disturbed by the others if each of its steps is answered as it would answer
alone; the projection of a run to the component is then a run of its own.
-/

namespace Library.Machine

universe u

variable {Resource State Lone Input Output Fault Index : Type u} [DecidableEq Index]

/-- The component that an input names takes a step with the resource. -/
def interleave (machine : Machine (Resource × State) Input Output Fault) :
    Machine (Resource × (Index → State)) (Index × Input) Output Fault where
  step := fun whole input =>
    match machine.step (whole.1, whole.2 input.1) input.2 with
    | .error fault => .error fault
    | .ok (output, next) => .ok (output, (next.1, Function.update whole.2 input.1 next.2))

def inputsOf (index : Index) : List (Index × Input) → List Input
  | [] => []
  | input :: inputs =>
      if input.1 = index then input.2 :: inputsOf index inputs else inputsOf index inputs

def outputsOf (index : Index) : List (Index × Input) → List Output → List Output
  | input :: inputs, output :: outputs =>
      if input.1 = index then output :: outputsOf index inputs outputs
      else outputsOf index inputs outputs
  | _, _ => []

/-- Two steps end in the same fault, or give the same output and related states. -/
inductive Alike (related : State → Lone → Prop) :
    Except Fault (Output × (Resource × State)) → Except Fault (Output × Lone) → Prop where
  | fault (fault : Fault) : Alike related (.error fault) (.error fault)
  | output (output : Output) (resource : Resource) {state : State} {lone : Lone} :
      related state lone → Alike related (.ok (output, (resource, state))) (.ok (output, lone))

theorem Alike.map_fst {related : State → Lone → Prop}
    {first : Except Fault (Output × (Resource × State))} {second : Except Fault (Output × Lone)}
    (alike : Alike related first second) : first.map Prod.fst = second.map Prod.fst := by
  cases alike with
  | fault fault => rfl
  | output output resource kept => rfl

variable {machine : Machine (Resource × State) Input Output Fault}
  {alone : Machine Lone Input Output Fault} {related : State → Lone → Prop}
  {condition : Resource → State → Input → Prop}

/-- When every step of an interleaved run is taken under a condition that makes it alike
the step of a lone component, every component runs as it would alone. -/
theorem run_interleave
    (alike : ∀ {resource state lone input}, related state lone → condition resource state input →
      Alike related (machine.step (resource, state) input) (alone.step lone input))
    {whole reached : Resource × (Index → State)} {inputs : List (Index × Input)}
    {outputs : List Output} {lones : Index → Lone}
    (start : ∀ index, related (whole.2 index) (lones index))
    (safe : machine.interleave.Every
      (fun whole input _ _ => condition whole.1 (whole.2 input.1) input.2) whole inputs)
    (ran : machine.interleave.run whole inputs = .ok (outputs, reached)) (index : Index) :
    ∃ last, alone.run (lones index) (inputsOf index inputs) =
        .ok (outputsOf index inputs outputs, last) ∧ related (reached.2 index) last := by
  induction inputs generalizing whole outputs lones with
  | nil =>
      cases ran
      exact ⟨lones index, rfl, start index⟩
  | cons input inputs inductionHypothesis =>
      obtain ⟨output, next, rest, stepped, continued, rfl⟩ := run_cons_eq_ok _ ran
      rw [Every, stepped] at safe
      have same := alike (start input.1) safe.1
      simp only [interleave] at stepped
      rcases mine : machine.step (whole.1, whole.2 input.1) input.2 with
        fault | ⟨given, resource, state⟩
      · rw [mine] at stepped
        cases stepped
      · rw [mine] at stepped same
        cases stepped
        rcases own : alone.step (lones input.1) input.2 with fault | ⟨other, lone⟩
        · rw [own] at same
          cases same
        · rw [own] at same
          cases same with
          | output _ _ kept =>
              have started (other : Index) :
                  related (Function.update whole.2 input.1 state other)
                    (Function.update lones input.1 lone other) := by
                by_cases here : other = input.1
                · subst here
                  rw [Function.update_self, Function.update_self]
                  exact kept
                · rw [Function.update_of_ne here, Function.update_of_ne here]
                  exact start other
              obtain ⟨last, ranAlone, relatedLast⟩ :=
                inductionHypothesis started safe.2 continued
              refine ⟨last, ?_, relatedLast⟩
              rw [inputsOf, outputsOf]
              by_cases here : input.1 = index
              · rw [if_pos here, if_pos here]
                subst here
                rw [Function.update_self] at ranAlone
                exact alone.run_cons own ranAlone
              · rw [if_neg here, if_neg here]
                rwa [Function.update_of_ne (Ne.symm here)] at ranAlone

end Library.Machine

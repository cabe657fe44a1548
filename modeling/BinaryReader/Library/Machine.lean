import Mathlib.Tactic.Common

/-!
# Machines and their specifications

A machine answers one input after the other and may fault.  A specification
says which inputs are allowed in an abstract state and which answers may be
given there.  A simulation is a relation that every allowed step preserves; it
turns runs of the machine into traces of the specification, and no run faults.
-/

namespace Library

universe u v w

structure Machine (State Input Output Fault : Type u) where
  step : State → Input → Except Fault (Output × State)

structure Specification (Abstract : Type v) (Input Output : Type u) where
  allowed : Abstract → Input → Prop
  answers : Abstract → Input → Output → Abstract → Prop

namespace Machine

variable {State Input Output Fault : Type u} (machine : Machine State Input Output Fault)

def run : State → List Input → Except Fault (List Output × State)
  | state, [] => .ok ([], state)
  | state, input :: inputs =>
      match machine.step state input with
      | .error fault => .error fault
      | .ok (output, next) =>
          match run next inputs with
          | .error fault => .error fault
          | .ok (outputs, final) => .ok (output :: outputs, final)

theorem run_cons {state next final : State} {input : Input} {inputs : List Input}
    {output : Output} {outputs : List Output}
    (stepped : machine.step state input = .ok (output, next))
    (continued : machine.run next inputs = .ok (outputs, final)) :
    machine.run state (input :: inputs) = .ok (output :: outputs, final) := by
  simp only [run, stepped, continued]

theorem run_cons_eq_ok {state final : State} {input : Input} {inputs : List Input}
    {outputs : List Output} (ran : machine.run state (input :: inputs) = .ok (outputs, final)) :
    ∃ output next rest, machine.step state input = .ok (output, next) ∧
      machine.run next inputs = .ok (rest, final) ∧ outputs = output :: rest := by
  rw [run] at ran
  split at ran
  · cases ran
  next output next stepped =>
    split at ran
    · cases ran
    next rest last continued =>
      cases ran
      exact ⟨output, next, rest, stepped, continued, rfl⟩

theorem run_append {state middle final : State} {inputs more : List Input}
    {outputs others : List Output} (ran : machine.run state inputs = .ok (outputs, middle))
    (continued : machine.run middle more = .ok (others, final)) :
    machine.run state (inputs ++ more) = .ok (outputs ++ others, final) := by
  induction inputs generalizing state outputs with
  | nil =>
      cases ran
      exact continued
  | cons input inputs inductionHypothesis =>
      obtain ⟨output, next, rest, stepped, behind, rfl⟩ := machine.run_cons_eq_ok ran
      exact machine.run_cons stepped (inductionHypothesis behind)

theorem run_map {State' Input' Output' : Type u} {other : Machine State' Input' Output' Fault}
    {state : State → State'} {input : Input → Input'} {output : Output → Output'}
    (commutes : ∀ start given, other.step (state start) (input given) =
      (machine.step start given).map (Prod.map output state))
    (start : State) (inputs : List Input) :
    other.run (state start) (inputs.map input) =
      (machine.run start inputs).map (Prod.map (List.map output) state) := by
  induction inputs generalizing start with
  | nil => rfl
  | cons given inputs inductionHypothesis =>
      rw [List.map_cons, run, run, commutes]
      rcases machine.step start given with fault | ⟨answer, next⟩
      · rfl
      · dsimp only [Except.map, Prod.map]
        rw [inductionHypothesis]
        rcases machine.run next inputs with fault | ⟨answers, final⟩ <;> rfl

/-- What every step preserves holds behind every run. -/
theorem run_preserves (invariant : State → Prop)
    (preserved : ∀ {state next : State} {input : Input} {output : Output}, invariant state →
      machine.step state input = .ok (output, next) → invariant next)
    {state final : State} {inputs : List Input} {outputs : List Output}
    (ran : machine.run state inputs = .ok (outputs, final)) (start : invariant state) :
    invariant final := by
  induction inputs generalizing state outputs with
  | nil =>
      cases ran
      exact start
  | cons input inputs inductionHypothesis =>
      obtain ⟨output, next, rest, stepped, continued, -⟩ := machine.run_cons_eq_ok ran
      exact inductionHypothesis continued (preserved start stepped)

/-- Every step of a run satisfies `holds`, up to the first fault. -/
def Every (holds : State → Input → Output → State → Prop) : State → List Input → Prop
  | _, [] => True
  | state, input :: inputs =>
      match machine.step state input with
      | .error _ => True
      | .ok (output, next) => holds state input output next ∧ Every holds next inputs

/-- When every step of a run is taken under `condition`, it is enough to look at
steps from states that satisfy an invariant. -/
theorem every_of_invariant {condition : State → Input → Prop}
    {holds : State → Input → Output → State → Prop} (invariant : State → Prop)
    (preserved : ∀ {state next : State} {input : Input} {output : Output}, invariant state →
      condition state input → machine.step state input = .ok (output, next) →
      invariant next ∧ holds state input output next)
    {state : State} {inputs : List Input} (start : invariant state)
    (safe : machine.Every (fun state input _ _ => condition state input) state inputs) :
    machine.Every holds state inputs := by
  induction inputs generalizing state with
  | nil => trivial
  | cons input inputs inductionHypothesis =>
      rw [Every] at safe ⊢
      rcases stepped : machine.step state input with fault | ⟨output, next⟩
      · trivial
      · rw [stepped] at safe
        obtain ⟨kept, held⟩ := preserved start safe.1 stepped
        exact ⟨held, inductionHypothesis kept safe.2⟩

theorem every_mono {given holds : State → Input → Output → State → Prop}
    (implies : ∀ {state next : State} {input : Input} {output : Output},
      given state input output next → holds state input output next)
    {state : State} {inputs : List Input} (every : machine.Every given state inputs) :
    machine.Every holds state inputs := by
  induction inputs generalizing state with
  | nil => trivial
  | cons input inputs inductionHypothesis =>
      rw [Every] at every ⊢
      rcases stepped : machine.step state input with fault | ⟨output, next⟩
      · trivial
      · rw [stepped] at every
        exact ⟨implies every.1, inductionHypothesis every.2⟩

theorem every_congr {given first second : State → Input → Output → State → Prop} {state : State}
    {inputs : List Input} (every : machine.Every given state inputs)
    (same : ∀ {state next : State} {input : Input} {output : Output},
      given state input output next →
      (first state input output next ↔ second state input output next)) :
    machine.Every first state inputs ↔ machine.Every second state inputs := by
  induction inputs generalizing state with
  | nil => exact Iff.rfl
  | cons input inputs inductionHypothesis =>
      rw [Every, Every]
      rw [Every] at every
      rcases stepped : machine.step state input with fault | ⟨output, next⟩
      · exact Iff.rfl
      · rw [stepped] at every
        exact and_congr (same every.1) (inductionHypothesis every.2)

end Machine

namespace Specification

variable {Abstract : Type v} {Input Output : Type u}
variable (specification : Specification Abstract Input Output)

/-- Every input is allowed in every state its predecessors can lead to. -/
def Admits : Abstract → List Input → Prop
  | _, [] => True
  | abstract, input :: inputs =>
      specification.allowed abstract input ∧
        ∀ output next, specification.answers abstract input output next → Admits next inputs

/-- Answers the specification permits, one for each input. -/
inductive Trace : Abstract → List Input → List Output → Abstract → Prop where
  | done (abstract : Abstract) : Trace abstract [] [] abstract
  | step {abstract next last : Abstract} {input : Input} {inputs : List Input}
      {output : Output} {outputs : List Output} :
      specification.answers abstract input output next → Trace next inputs outputs last →
      Trace abstract (input :: inputs) (output :: outputs) last

end Specification

/-- Every allowed step of the machine is answered as the specification permits. -/
structure Simulates {State Input Output Fault : Type u} {Abstract : Type v}
    (machine : Machine State Input Output Fault)
    (specification : Specification Abstract Input Output)
    (related : State → Abstract → Prop) : Prop where
  step : ∀ {state abstract input}, related state abstract →
    specification.allowed abstract input →
    ∃ output next following, machine.step state input = .ok (output, next) ∧
      specification.answers abstract input output following ∧ related next following

/-- A run of admitted inputs does not fault and is a trace of the specification. -/
theorem Simulates.run {State Input Output Fault : Type u} {Abstract : Type v}
    {machine : Machine State Input Output Fault}
    {specification : Specification Abstract Input Output} {related : State → Abstract → Prop}
    (simulates : Simulates machine specification related) {state : State} {abstract : Abstract}
    (start : related state abstract) {inputs : List Input}
    (admits : specification.Admits abstract inputs) :
    ∃ outputs final last, machine.run state inputs = .ok (outputs, final) ∧
      specification.Trace abstract inputs outputs last ∧ related final last := by
  induction inputs generalizing state abstract with
  | nil => exact ⟨[], state, abstract, rfl, .done abstract, start⟩
  | cons input inputs inductionHypothesis =>
      obtain ⟨output, next, following, stepped, answered, continued⟩ :=
        simulates.step start admits.1
      obtain ⟨outputs, final, last, ran, trace, ended⟩ :=
        inductionHypothesis continued (admits.2 output following answered)
      exact ⟨output :: outputs, final, last, machine.run_cons stepped ran,
        .step answered trace, ended⟩

theorem Simulates.every {State Input Output Fault : Type u} {Abstract : Type v}
    {machine : Machine State Input Output Fault}
    {specification : Specification Abstract Input Output} {related : State → Abstract → Prop}
    (simulates : Simulates machine specification related)
    {holds : State → Input → Output → State → Prop}
    (each : ∀ {state abstract input output next}, related state abstract →
      specification.allowed abstract input → machine.step state input = .ok (output, next) →
      holds state input output next)
    {state : State} {abstract : Abstract} (start : related state abstract) {inputs : List Input}
    (admits : specification.Admits abstract inputs) : machine.Every holds state inputs := by
  induction inputs generalizing state abstract with
  | nil => trivial
  | cons input inputs inductionHypothesis =>
      obtain ⟨output, next, following, stepped, answered, continued⟩ :=
        simulates.step start admits.1
      rw [Machine.Every, stepped]
      exact ⟨each start admits.1 stepped,
        inductionHypothesis continued (admits.2 output following answered)⟩

end Library

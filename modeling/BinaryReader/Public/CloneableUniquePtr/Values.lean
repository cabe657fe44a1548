import BinaryReader.Public.CloneableUniquePtr
import Mathlib.Data.Set.Insert

/-!
# Values of cloneable pointers

What the variables hold, what every operation is meant to do to that, and what
it does: the assignments release the destination first, so an assignment of a
variable to itself leaves null.
-/

namespace BinaryReader.CloneableUniquePtr

open Library Library.Heap

/-- A value for each variable: `none` outside its lifetime, `some none` for null. -/
abbrev Values (Variable T : Type) := Variable → Option (Option T)

variable {Variable T : Type}

namespace Memory

def pointers (memory : Memory Variable T) (self : Variable) : Option Address :=
  (memory.slots self).join

def values (memory : Memory Variable T) : Values Variable T := fun self =>
  (memory.slots self).map (·.bind memory.heap.read)

/-- Every live object is held by exactly one variable, and no variable holds another one. -/
def Owned (memory : Memory Variable T) : Prop := Library.Owned memory.heap memory.pointers

theorem Owned.existsUnique {memory : Memory Variable T} (owned : memory.Owned)
    {address : Address} (live : (memory.heap.read address).isSome) :
    ∃! self, memory.slots self = some (some address) := by
  simpa only [pointers, Option.join_eq_some_iff] using Library.Owned.existsUnique owned live

end Memory

namespace Operation

variable [DecidableEq Variable]

def meaning (values : Values Variable T) : Operation Variable T → Values Variable T
  | construct self object | reset self object => Function.update values self (some object)
  | copyConstruct self other | copyAssign self other =>
      Function.update values self (values other)
  | moveConstruct self other =>
      Function.update (Function.update values self (values other)) other (some none)
  | moveAssign self other =>
      if self = other then values
      else Function.update (Function.update values self (values other)) other (some none)
  | destroy self => Function.update values self none

/-- What the operations do: `other` is read behind the release of `self`. -/
def effect (values : Values Variable T) : Operation Variable T → Values Variable T
  | copyAssign self other =>
      if self = other then Function.update values self (some none)
      else Function.update values self (values other)
  | moveAssign self other =>
      Function.update (Function.update values self (values other)) other (some none)
  | operation => operation.meaning values

def SelfAssigns (values : Values Variable T) : Operation Variable T → Prop
  | copyAssign self other | moveAssign self other =>
      self = other ∧ ∃ object, values self = some (some object)
  | _ => False

/-- Constructors take a variable before its lifetime, everything else one in it. -/
def Allowed (alive : Set Variable) : Operation Variable T → Prop
  | construct self _ => self ∉ alive
  | copyConstruct self other | moveConstruct self other => self ∉ alive ∧ other ∈ alive
  | copyAssign self other | moveAssign self other => self ∈ alive ∧ other ∈ alive
  | reset self _ | destroy self => self ∈ alive

def survivors (alive : Set Variable) : Operation Variable T → Set Variable
  | construct self _ | copyConstruct self _ | moveConstruct self _ => insert self alive
  | destroy self => alive \ {self}
  | copyAssign _ _ | moveAssign _ _ | reset _ _ => alive

end Operation

def living (values : Values Variable T) : Set Variable := {self | (values self).isSome}

/-- Which operations may follow each other. -/
def lifetimes (Variable T : Type) : Specification (Set Variable) (Operation Variable T) Unit where
  allowed alive operation := operation.Allowed alive
  answers alive operation _ next := next = operation.survivors alive

def InLifetimes (operations : List (Operation Variable T)) : Prop :=
  (lifetimes Variable T).Admits ∅ operations

section

variable [DecidableEq Variable] {values : Values Variable T}

theorem update_null_eq_iff {self : Variable} (alive : self ∈ living values) :
    Function.update values self (some none) = values ↔
      ¬ ∃ object, values self = some (some object) := by
  rw [Function.update_eq_self_iff]
  rcases held : values self with _ | _ | object
  · simp [living, held] at alive
  · simp
  · simp

/-- The effect is the meant one unless an object is assigned to itself. -/
theorem effect_eq_meaning_iff {operation : Operation Variable T}
    (allowed : operation.Allowed (living values)) :
    operation.effect values = operation.meaning values ↔ ¬ operation.SelfAssigns values := by
  cases operation with
  | copyAssign self other | moveAssign self other =>
      by_cases same : self = other
      · subst other
        simpa [Operation.effect, Operation.meaning, Operation.SelfAssigns] using
          update_null_eq_iff allowed.1
      · simp [Operation.effect, Operation.meaning, Operation.SelfAssigns, same]
  | construct | copyConstruct | moveConstruct | reset | destroy =>
      simp [Operation.effect, Operation.SelfAssigns]

theorem living_update_some (values : Values Variable T) (self : Variable) (object : Option T) :
    living (Function.update values self (some object)) = insert self (living values) := by
  ext other
  by_cases same : other = self <;> simp [living, same]

theorem living_update_none (values : Values Variable T) (self : Variable) :
    living (Function.update values self none) = living values \ {self} := by
  ext other
  by_cases same : other = self <;> simp [living, same]

theorem living_update_of_living {self other : Variable} (alive : other ∈ living values) :
    living (Function.update values self (values other)) = insert self (living values) := by
  obtain ⟨object, held⟩ := Option.isSome_iff_exists.mp alive
  rw [held, living_update_some]

/-- No operation has an effect on a lifetime that it is not meant to have. -/
theorem living_effect {operation : Operation Variable T}
    (allowed : operation.Allowed (living values)) :
    living (operation.effect values) = operation.survivors (living values) := by
  cases operation with
  | construct self object => exact living_update_some values self object
  | copyConstruct self other => exact living_update_of_living allowed.2
  | moveConstruct self other =>
      rw [Operation.effect, Operation.meaning, living_update_some,
        living_update_of_living allowed.2]
      · exact Set.insert_eq_of_mem (Set.mem_insert_of_mem self allowed.2)
      all_goals nofun
  | copyAssign self other =>
      rw [Operation.effect]
      split_ifs
      · exact (living_update_some values self none).trans (Set.insert_eq_of_mem allowed.1)
      · exact (living_update_of_living allowed.2).trans (Set.insert_eq_of_mem allowed.1)
  | moveAssign self other =>
      rw [Operation.effect, living_update_some, living_update_of_living allowed.2,
        Set.insert_eq_of_mem allowed.1, Set.insert_eq_of_mem allowed.2]
      rfl
  | reset self object =>
      exact (living_update_some values self object).trans (Set.insert_eq_of_mem allowed)
  | destroy self => exact living_update_none values self

end

structure HasValueSemantics [DecidableEq Variable] (operations : List (Operation Variable T)) :
    Prop where
  returns : ∃ outputs final, (machine Variable T).run .initial operations = .ok (outputs, final)
  owned : (machine Variable T).Every (fun _ _ _ next => next.Owned) .initial operations
  meant : (machine Variable T).Every
    (fun memory operation _ next => next.values = operation.meaning memory.values)
    .initial operations

end BinaryReader.CloneableUniquePtr

import BinaryReader.Public.CloneableUniquePtr.Values

/-!
# What the operations do

One specification lemma for each member function, in a memory whose objects are
owned: it returns, the objects stay owned, and it has its effect on the values.
-/

namespace BinaryReader.CloneableUniquePtr

open Library Library.Heap

variable {Variable T : Type}

/-- The call returns with the objects still owned and these values. -/
def Yields (result : Checked (Memory Variable T)) (values : Values Variable T) : Prop :=
  ∃ next, result = .ok next ∧ next.Owned ∧ next.values = values

namespace Memory

theorem pointers_of_slots {memory : Memory Variable T} {self : Variable} {ptr : Option Address}
    (slot : memory.slots self = some ptr) : memory.pointers self = ptr := by
  simp [pointers, slot]

theorem ptr_of_slots {memory : Memory Variable T} {self : Variable} {ptr : Option Address}
    (slot : memory.slots self = some ptr) : memory.ptr self = .ok ptr := by
  simp [Memory.ptr, slot]

theorem values_eq (memory : Memory Variable T) :
    memory.values = fun self =>
      (memory.slots self).map fun _ => contents memory.heap memory.pointers self := by
  funext self
  cases slot : memory.slots self <;> simp [values, contents, pointers, slot]

@[simp]
theorem slots_argument (memory : Memory Variable T) (object : Option T) :
    (memory.argument object).2.slots = memory.slots := by
  cases object <;> rfl

variable {memory : Memory Variable T}

theorem delete_argument {deleted : Memory Variable T} {ptr : Option Address}
    (gone : memory.delete ptr = .ok deleted) (object : Option T) :
    (memory.argument object).2.delete ptr = .ok (deleted.argument object).2 ∧
      (deleted.argument object).1 = (memory.argument object).1 := by
  cases ptr with
  | none =>
      cases gone
      exact ⟨rfl, rfl⟩
  | some address =>
      rw [delete] at gone
      split at gone
      next heap released =>
        cases gone
        cases object with
        | none => simp [argument, delete, released]
        | some object =>
            simp [argument, delete, new, release_allocate released, fresh_of_release released]
      · cases gone

theorem clone_argument (owned : memory.Owned) {other : Variable} {address : Address}
    (slot : memory.slots other = some (some address)) :
    ∃ object, memory.values other = some (some object) ∧
      memory.clone address = .ok (memory.new object) := by
  obtain ⟨object, live⟩ := Option.isSome_iff_exists.mp (owned.live (pointers_of_slots slot))
  exact ⟨object, by simp [values, slot, live], by simp [clone, live]⟩

variable [DecidableEq Variable]

@[simp]
theorem slots_setPtr (memory : Memory Variable T) (self : Variable) (ptr : Option Address) :
    (memory.setPtr self ptr).slots = Function.update memory.slots self (some ptr) := rfl

@[simp]
theorem heap_setPtr (memory : Memory Variable T) (self : Variable) (ptr : Option Address) :
    (memory.setPtr self ptr).heap = memory.heap := rfl

@[simp]
theorem pointers_setPtr (memory : Memory Variable T) (self : Variable) (ptr : Option Address) :
    (memory.setPtr self ptr).pointers = Function.update memory.pointers self ptr := by
  funext other
  by_cases same : other = self <;> simp [pointers, same]

theorem values_setPtr {memory next : Memory Variable T} {self : Variable} {ptr : Option Address}
    {object : Option T} (slots : next.slots = Function.update memory.slots self (some ptr))
    (held : contents next.heap next.pointers =
      Function.update (contents memory.heap memory.pointers) self object) :
    next.values = Function.update memory.values self (some object) := by
  rw [values_eq, values_eq, slots, held]
  funext other
  by_cases same : other = self
  · subst other
    simp
  · simp [same]

theorem setPtr_null {memory : Memory Variable T} (owned : memory.Owned) {self : Variable}
    (free : memory.pointers self = none) :
    (memory.setPtr self none).Owned ∧
      (memory.setPtr self none).values = Function.update memory.values self (some none) := by
  have same : (memory.setPtr self none).pointers = memory.pointers := by
    rw [pointers_setPtr, Function.update_eq_self_iff, free]
  refine ⟨?_, values_setPtr (memory.slots_setPtr self none) ?_⟩
  · rw [Owned, same]
    exact owned
  · rw [same]
    exact (Function.update_eq_self_iff.mpr (by rw [contents, free]; rfl)).symm

theorem setPtr_argument {memory : Memory Variable T} (owned : memory.Owned) {self : Variable}
    (free : memory.pointers self = none) (object : Option T) :
    ((memory.argument object).2.setPtr self (memory.argument object).1).Owned ∧
      ((memory.argument object).2.setPtr self (memory.argument object).1).values =
        Function.update memory.values self (some object) := by
  cases object with
  | none => exact setPtr_null owned free
  | some object =>
      obtain ⟨stillOwned, held⟩ := Library.Owned.allocate owned free object
      have pointers : ((memory.argument (some object)).2.setPtr self
          (memory.argument (some object)).1).pointers =
          Function.update memory.pointers self (some memory.heap.fresh) :=
        pointers_setPtr _ _ _
      refine ⟨?_, values_setPtr (slots_setPtr _ _ _) ?_⟩
      · rw [Owned, pointers]
        exact stillOwned
      · rw [pointers]
        exact held

theorem setPtr_handOver {memory : Memory Variable T} (owned : memory.Owned)
    {self other : Variable} {source : Option Address} (different : self ≠ other)
    (free : memory.pointers self = none) (slot : memory.slots other = some source) :
    ((memory.setPtr self source).setPtr other none).Owned ∧
      ((memory.setPtr self source).setPtr other none).values =
        Function.update (Function.update memory.values self (memory.values other)) other
          (some none) := by
  have given := pointers_of_slots slot
  obtain ⟨stillOwned, held⟩ := Library.Owned.handOver owned different free
  rw [given] at stillOwned held
  have pointers : ((memory.setPtr self source).setPtr other none).pointers =
      Function.update (Function.update memory.pointers self source) other none := by
    rw [pointers_setPtr, pointers_setPtr]
  refine ⟨by rw [Owned, pointers]; exact stillOwned, ?_⟩
  funext target
  by_cases emptied : target = other
  · simp [values, emptied]
  · by_cases received : target = self
    · simp [values, received, different, slot]
    · simp [values, emptied, received]

/-- `next` is `memory` behind a release of what a variable held. -/
structure Emptied (memory : Memory Variable T) (holder : Variable) (next : Memory Variable T) :
    Prop where
  owned : next.Owned
  slots : next.slots = Function.update memory.slots holder (some none)
  values : next.values = Function.update memory.values holder (some none)

theorem reset_null (owned : memory.Owned) {self : Variable} {ptr : Option Address}
    (slot : memory.slots self = some ptr) :
    ∃ next, memory.reset self none = .ok next ∧ memory.Emptied self next := by
  have holds := pointers_of_slots slot
  cases ptr with
  | none =>
      obtain ⟨stillOwned, values⟩ := setPtr_null owned holds
      refine ⟨memory.setPtr self none, ?_, stillOwned, rfl, values⟩
      simp only [reset, ptr_of_slots slot, delete, Checked.ok_bind]
  | some address =>
      obtain ⟨heap, released, stillOwned, held⟩ := Library.Owned.release owned holds
      refine ⟨{ memory with heap }.setPtr self none, ?_, ?_, rfl, values_setPtr rfl ?_⟩
      · simp only [reset, ptr_of_slots slot, delete, released, Checked.ok_bind]
      · rw [Owned, pointers_setPtr]
        exact stillOwned
      · rw [pointers_setPtr]
        exact held

namespace Emptied

variable {next : Memory Variable T} {self : Variable} (emptied : memory.Emptied self next)
include emptied

theorem slot : next.slots self = some none := by
  rw [emptied.slots, Function.update_self]

theorem free : next.pointers self = none := pointers_of_slots emptied.slot

theorem slot_of_ne {other : Variable} (different : self ≠ other) :
    next.slots other = memory.slots other := by
  rw [emptied.slots, Function.update_of_ne (Ne.symm different)]

theorem value_of_ne {other : Variable} (different : self ≠ other) :
    next.values other = memory.values other := by
  rw [emptied.values, Function.update_of_ne (Ne.symm different)]

theorem update_values (value : Option (Option T)) :
    Function.update next.values self value = Function.update memory.values self value := by
  rw [emptied.values, Function.update_idem]

end Emptied

@[simp]
theorem setPtr_setPtr (memory : Memory Variable T) (self : Variable)
    (first second : Option Address) :
    (memory.setPtr self first).setPtr self second = memory.setPtr self second := by
  simp [setPtr]

theorem argument_setPtr (memory : Memory Variable T) (self : Variable) (ptr : Option Address)
    (object : Option T) :
    (memory.setPtr self ptr).argument object =
      ((memory.argument object).1, (memory.argument object).2.setPtr self ptr) := by
  cases object <;> rfl

/-- A caller's object is allocated before the old one is deleted, to the same effect. -/
theorem reset_argument {next : Memory Variable T} {self : Variable}
    (emptied : memory.reset self none = .ok next) (object : Option T) :
    (memory.argument object).2.reset self (memory.argument object).1 =
      .ok ((next.argument object).2.setPtr self (next.argument object).1) := by
  rw [reset, Checked.bind_eq_ok_iff] at emptied
  obtain ⟨old, held, emptied⟩ := emptied
  obtain ⟨deleted, gone, set⟩ := Checked.bind_eq_ok_iff.mp emptied
  cases set
  obtain ⟨goneLater, sameArgument⟩ := delete_argument gone object
  have stillHeld : (memory.argument object).2.ptr self = .ok old := by
    rw [← held, Memory.ptr, Memory.ptr, slots_argument]
  rw [reset, stillHeld, Checked.ok_bind, goneLater, Checked.ok_bind, argument_setPtr,
    setPtr_setPtr, sameArgument]

theorem construct_argument (owned : memory.Owned) {self : Variable}
    (unborn : memory.slots self = none) (object : Option T) :
    Yields ((memory.argument object).2.construct self (memory.argument object).1)
      (Function.update memory.values self (some object)) := by
  have free : memory.pointers self = none := by simp [pointers, unborn]
  refine ⟨_, ?_, setPtr_argument owned free object⟩
  simp [construct, unborn]

theorem copyConstruct_spec (owned : memory.Owned) {self other : Variable}
    {source : Option Address} (unborn : memory.slots self = none)
    (slot : memory.slots other = some source) :
    Yields (memory.copyConstruct self other)
      (Function.update memory.values self (memory.values other)) := by
  rw [copyConstruct, ptr_of_slots slot, Checked.ok_bind]
  cases source with
  | none =>
      have null : memory.values other = some none := by simp [values, slot]
      rw [null]
      exact construct_argument owned unborn none
  | some address =>
      obtain ⟨object, value, cloned⟩ := clone_argument owned slot
      simp only [cloned, Checked.ok_bind, value]
      exact construct_argument owned unborn (some object)

theorem moveConstruct_spec (owned : memory.Owned) {self other : Variable}
    {source : Option Address} (unborn : memory.slots self = none)
    (slot : memory.slots other = some source) :
    Yields (memory.moveConstruct self other)
      (Function.update (Function.update memory.values self (memory.values other)) other
        (some none)) := by
  have free : memory.pointers self = none := by simp [pointers, unborn]
  have different : self ≠ other := by
    rintro rfl
    simp [unborn] at slot
  refine ⟨_, ?_, setPtr_handOver owned different free slot⟩
  simp [moveConstruct, ptr_of_slots slot, construct, unborn]

theorem copyAssign_spec (owned : memory.Owned) {self other : Variable}
    {ptr source : Option Address} (slot : memory.slots self = some ptr)
    (otherSlot : memory.slots other = some source) :
    Yields (memory.copyAssign self other)
      (if self = other then Function.update memory.values self (some none)
        else Function.update memory.values self (memory.values other)) := by
  obtain ⟨next, reset, emptied⟩ := reset_null owned slot
  rw [copyAssign, reset, Checked.ok_bind]
  split_ifs with same
  · rw [← same, ptr_of_slots emptied.slot, Checked.ok_bind]
    exact ⟨next, rfl, emptied.owned, emptied.values⟩
  · have nextSlot := (emptied.slot_of_ne same).trans otherSlot
    rw [ptr_of_slots nextSlot, Checked.ok_bind, ← emptied.value_of_ne same]
    cases source with
    | none =>
        have null : next.values other = some none := by simp [Memory.values, nextSlot]
        rw [null]
        exact ⟨next, rfl, emptied.owned, emptied.values⟩
    | some address =>
        obtain ⟨object, value, cloned⟩ := clone_argument emptied.owned nextSlot
        simp only [cloned, Checked.ok_bind]
        rw [value, ← emptied.update_values]
        exact ⟨_, rfl, setPtr_argument emptied.owned emptied.free (some object)⟩

theorem moveAssign_spec (owned : memory.Owned) {self other : Variable}
    {ptr source : Option Address} (slot : memory.slots self = some ptr)
    (otherSlot : memory.slots other = some source) :
    Yields (memory.moveAssign self other)
      (Function.update (Function.update memory.values self (memory.values other)) other
        (some none)) := by
  obtain ⟨next, reset, emptied⟩ := reset_null owned slot
  rw [moveAssign, reset, Checked.ok_bind]
  by_cases same : self = other
  · subst other
    obtain ⟨finalOwned, finalValues⟩ := setPtr_null emptied.owned emptied.free
    refine ⟨next.setPtr self none, ?_, finalOwned, ?_⟩
    · rw [ptr_of_slots emptied.slot, Checked.ok_bind, setPtr_setPtr]
    · rw [finalValues, emptied.update_values, Function.update_eq_self]
  · have nextSlot := (emptied.slot_of_ne same).trans otherSlot
    rw [ptr_of_slots nextSlot, Checked.ok_bind]
    obtain ⟨finalOwned, finalValues⟩ :=
      setPtr_handOver emptied.owned same emptied.free nextSlot
    refine ⟨_, rfl, finalOwned, ?_⟩
    rw [finalValues, emptied.value_of_ne same, emptied.update_values]

theorem reset_spec (owned : memory.Owned) {self : Variable} {ptr : Option Address}
    (slot : memory.slots self = some ptr) (object : Option T) :
    Yields ((memory.argument object).2.reset self (memory.argument object).1)
      (Function.update memory.values self (some object)) := by
  obtain ⟨next, reset, emptied⟩ := reset_null owned slot
  rw [← emptied.update_values]
  exact ⟨_, reset_argument reset object, setPtr_argument emptied.owned emptied.free object⟩

theorem destroy_spec (owned : memory.Owned) {self : Variable} {ptr : Option Address}
    (slot : memory.slots self = some ptr) :
    Yields (memory.destroy self) (Function.update memory.values self none) := by
  obtain ⟨next, reset, emptied⟩ := reset_null owned slot
  refine ⟨{ next with slots := Function.update next.slots self none }, ?_, ?_, ?_⟩
  · rw [destroy, reset, Checked.ok_bind]
  · have same : pointers { next with slots := Function.update next.slots self none } =
        next.pointers := by
      funext other
      by_cases equal : other = self <;> simp [pointers, equal, emptied.slot]
    rw [Owned, same]
    exact emptied.owned
  · rw [← emptied.update_values]
    funext other
    by_cases equal : other = self <;> simp [Memory.values, equal]

end Memory

/-! ### Runs -/

variable {memory : Memory Variable T}

theorem exists_slot_of_living {self : Variable} (alive : self ∈ living memory.values) :
    ∃ ptr, memory.slots self = some ptr := by
  cases slot : memory.slots self with
  | none => simp [living, Memory.values, slot] at alive
  | some ptr => exact ⟨ptr, rfl⟩

theorem slot_of_not_living {self : Variable} (unborn : self ∉ living memory.values) :
    memory.slots self = none := by
  cases slot : memory.slots self with
  | none => rfl
  | some ptr => simp [living, Memory.values, slot] at unborn

theorem related_initial : Memory.Owned (Memory.initial : Memory Variable T) ∧
    living (Memory.initial : Memory Variable T).values = ∅ :=
  ⟨Library.Owned.empty, by simp [living, Memory.values, Memory.initial]⟩

variable [DecidableEq Variable]

/-- Every operation in its place returns, keeps the objects owned and has its effect. -/
theorem apply_spec (owned : memory.Owned) {operation : Operation Variable T}
    (allowed : operation.Allowed (living memory.values)) :
    Yields (operation.apply memory) (operation.effect memory.values) := by
  cases operation with
  | construct self object =>
      exact Memory.construct_argument owned (slot_of_not_living allowed) object
  | copyConstruct self other =>
      obtain ⟨source, slot⟩ := exists_slot_of_living allowed.2
      exact Memory.copyConstruct_spec owned (slot_of_not_living allowed.1) slot
  | moveConstruct self other =>
      obtain ⟨source, slot⟩ := exists_slot_of_living allowed.2
      exact Memory.moveConstruct_spec owned (slot_of_not_living allowed.1) slot
  | copyAssign self other =>
      obtain ⟨ptr, slot⟩ := exists_slot_of_living allowed.1
      obtain ⟨source, otherSlot⟩ := exists_slot_of_living allowed.2
      exact Memory.copyAssign_spec owned slot otherSlot
  | moveAssign self other =>
      obtain ⟨ptr, slot⟩ := exists_slot_of_living allowed.1
      obtain ⟨source, otherSlot⟩ := exists_slot_of_living allowed.2
      exact Memory.moveAssign_spec owned slot otherSlot
  | reset self object =>
      obtain ⟨ptr, slot⟩ := exists_slot_of_living allowed
      exact Memory.reset_spec owned slot object
  | destroy self =>
      obtain ⟨ptr, slot⟩ := exists_slot_of_living allowed
      exact Memory.destroy_spec owned slot

theorem simulates : Simulates (machine Variable T) (lifetimes Variable T)
    fun memory alive => memory.Owned ∧ living memory.values = alive where
  step := by
    rintro memory alive operation ⟨owned, rfl⟩ allowed
    obtain ⟨next, applied, nextOwned, values⟩ := apply_spec owned allowed
    refine ⟨(), next, _, by simp only [machine, applied]; rfl, rfl, nextOwned, ?_⟩
    rw [values]
    exact living_effect allowed

/-- Operations in their places return, whatever is assigned to what. -/
theorem run_returns {operations : List (Operation Variable T)}
    (inLifetimes : InLifetimes operations) :
    ∃ outputs final, (machine Variable T).run .initial operations = .ok (outputs, final) := by
  obtain ⟨outputs, final, _, ran, _⟩ := simulates.run related_initial inLifetimes
  exact ⟨outputs, final, ran⟩

theorem every_step {operations : List (Operation Variable T)}
    (inLifetimes : InLifetimes operations) :
    (machine Variable T).Every
      (fun memory operation _ next => operation.Allowed (living memory.values) ∧ next.Owned ∧
        next.values = operation.effect memory.values)
      .initial operations := by
  apply simulates.every ?_ related_initial inLifetimes
  rintro memory alive operation output next ⟨owned, rfl⟩ allowed stepped
  obtain ⟨following, applied, followingOwned, values⟩ := apply_spec owned allowed
  have same : following = next := by
    simp only [machine, applied] at stepped
    cases stepped
    rfl
  exact ⟨allowed, same ▸ followingOwned, same ▸ values⟩

/-- Whatever is assigned to what, every live object always has exactly one owner. -/
theorem every_existsUnique {operations : List (Operation Variable T)}
    (inLifetimes : InLifetimes operations) :
    (machine Variable T).Every
      (fun _ _ _ next => ∀ address, (next.heap.read address).isSome →
        ∃! self, next.slots self = some (some address))
      .initial operations := by
  apply (machine Variable T).every_mono ?_ (every_step inLifetimes)
  rintro memory next operation output ⟨-, owned, -⟩ address live
  exact owned.existsUnique live

/-- A run has value semantics exactly when it assigns no object to itself. -/
theorem hasValueSemantics_iff {operations : List (Operation Variable T)}
    (inLifetimes : InLifetimes operations) :
    HasValueSemantics operations ↔
      (machine Variable T).Every
        (fun memory operation _ _ => ¬ operation.SelfAssigns memory.values)
        .initial operations := by
  have steps := every_step inLifetimes
  have meant : (machine Variable T).Every
      (fun memory operation _ next => next.values = operation.meaning memory.values)
      .initial operations ↔
      (machine Variable T).Every
        (fun memory operation _ _ => ¬ operation.SelfAssigns memory.values)
        .initial operations := by
    apply (machine Variable T).every_congr steps
    rintro memory next operation output ⟨allowed, -, values⟩
    rw [values, effect_eq_meaning_iff allowed]
  constructor
  · intro faithful
    exact meant.mp faithful.meant
  · intro harmless
    exact ⟨run_returns inLifetimes, (machine Variable T).every_mono (fun step => step.2.1) steps,
      meant.mpr harmless⟩

theorem hasValueSemantics_sample :
    HasValueSemantics ([.construct 0 (some 5), .copyConstruct 1 0, .moveAssign 0 1,
      .copyAssign 1 1] : List (Operation Nat Nat)) := by
  refine (hasValueSemantics_iff ?_).mpr ?_
  · simp [InLifetimes, Specification.Admits, lifetimes, Operation.Allowed, Operation.survivors]
  · refine ⟨id, id, ?_, ?_, trivial⟩
    · rintro ⟨different, -⟩
      cases different
    · rintro ⟨-, object, held⟩
      cases held

/-- The variable holds an object and then none. -/
theorem not_hasValueSemantics_selfAssignment :
    InLifetimes ([.construct 0 (some 5), .copyAssign 0 0] : List (Operation Nat Nat)) ∧
      ¬ HasValueSemantics
        ([.construct 0 (some 5), .copyAssign 0 0] : List (Operation Nat Nat)) := by
  refine ⟨?_, fun faithful => ?_⟩
  · simp [InLifetimes, Specification.Admits, lifetimes, Operation.Allowed, Operation.survivors]
  · obtain ⟨-, second, -⟩ := faithful.meant
    exact absurd (congrFun second 0) (by decide)

end BinaryReader.CloneableUniquePtr

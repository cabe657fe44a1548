import BinaryReader.Library.Heap
import BinaryReader.Library.Machine
import BinaryReader.Util.Fault

/-!
# Cloneable pointers

The member functions of `cloneable_unique_ptr<T>` on variables in one heap.  A
variable is its `ptr_` during its lifetime.  Copying an object with `new T` gives
an equal object; allocation does not fail.
-/

namespace BinaryReader.CloneableUniquePtr

open Library Library.Heap

/-- The variables, `none` outside their lifetime, and the heap they point into. -/
structure Memory (Variable T : Type) where
  slots : Variable → Option (Option Address)
  heap : Heap T

namespace Memory

variable {Variable T : Type} [DecidableEq Variable]

def initial : Memory Variable T := ⟨fun _ => none, .empty⟩

def ptr (memory : Memory Variable T) (self : Variable) : Checked (Option Address) :=
  match memory.slots self with
  | some ptr => .ok ptr
  | none => .error .lifetime

def setPtr (memory : Memory Variable T) (self : Variable) (ptr : Option Address) :
    Memory Variable T :=
  { memory with slots := Function.update memory.slots self (some ptr) }

def new (memory : Memory Variable T) (object : T) : Address × Memory Variable T :=
  (memory.heap.fresh, { memory with heap := memory.heap.allocate object })

def clone (memory : Memory Variable T) (address : Address) :
    Checked (Address × Memory Variable T) :=
  match memory.heap.read address with
  | some object => .ok (memory.new object)
  | none => .error .lifetime

def delete (memory : Memory Variable T) : Option Address → Checked (Memory Variable T)
  | none => .ok memory
  | some address =>
      match memory.heap.release address with
      | some heap => .ok { memory with heap }
      | none => .error .lifetime

/-- The pointer a caller passes: to a fresh object, or null. -/
def argument (memory : Memory Variable T) : Option T → Option Address × Memory Variable T
  | none => (none, memory)
  | some object => (some (memory.new object).1, (memory.new object).2)

def reset (memory : Memory Variable T) (self : Variable) (ptr : Option Address) :
    Checked (Memory Variable T) := do
  let old ← memory.ptr self
  let memory ← memory.delete old
  .ok (memory.setPtr self ptr)

/-- The constructors from nothing, from a `T*` and from a `std::unique_ptr`, which
gives its pointer up. -/
def construct (memory : Memory Variable T) (self : Variable) (ptr : Option Address) :
    Checked (Memory Variable T) :=
  match memory.slots self with
  | none => .ok (memory.setPtr self ptr)
  | some _ => .error .lifetime

def copyConstruct (memory : Memory Variable T) (self other : Variable) :
    Checked (Memory Variable T) := do
  match ← memory.ptr other with
  | some address =>
      let (copy, memory) ← memory.clone address
      memory.construct self (some copy)
  | none => memory.construct self none

def moveConstruct (memory : Memory Variable T) (self other : Variable) :
    Checked (Memory Variable T) := do
  let source ← memory.ptr other
  let memory ← memory.construct self source
  .ok (memory.setPtr other none)

def copyAssign (memory : Memory Variable T) (self other : Variable) :
    Checked (Memory Variable T) := do
  let memory ← memory.reset self none
  match ← memory.ptr other with
  | some address =>
      let (copy, memory) ← memory.clone address
      .ok (memory.setPtr self (some copy))
  | none => .ok memory

def moveAssign (memory : Memory Variable T) (self other : Variable) :
    Checked (Memory Variable T) := do
  let memory ← memory.reset self none
  let source ← memory.ptr other
  .ok ((memory.setPtr self source).setPtr other none)

def destroy (memory : Memory Variable T) (self : Variable) : Checked (Memory Variable T) := do
  let memory ← memory.reset self none
  .ok { memory with slots := Function.update memory.slots self none }

end Memory

inductive Operation (Variable T : Type) where
  | construct (self : Variable) (object : Option T)
  | copyConstruct (self other : Variable)
  | moveConstruct (self other : Variable)
  | copyAssign (self other : Variable)
  | moveAssign (self other : Variable)
  | reset (self : Variable) (object : Option T)
  | destroy (self : Variable)

namespace Operation

variable {Variable T : Type} [DecidableEq Variable]

def apply (memory : Memory Variable T) : Operation Variable T → Checked (Memory Variable T)
  | construct self object =>
      let (ptr, memory) := memory.argument object
      memory.construct self ptr
  | copyConstruct self other => memory.copyConstruct self other
  | moveConstruct self other => memory.moveConstruct self other
  | copyAssign self other => memory.copyAssign self other
  | moveAssign self other => memory.moveAssign self other
  | reset self object =>
      let (ptr, memory) := memory.argument object
      memory.reset self ptr
  | destroy self => memory.destroy self

end Operation

def machine (Variable T : Type) [DecidableEq Variable] :
    Machine (Memory Variable T) (Operation Variable T) Unit Fault where
  step memory operation := (operation.apply memory).map fun next => ((), next)

end BinaryReader.CloneableUniquePtr

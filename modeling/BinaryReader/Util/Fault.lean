import Mathlib.Data.UInt
import Mathlib.Tactic.Common

/-!
# Abnormal termination

The library reports errors by returning `false` and adding to a collection.
A `Fault` is everything else that can end a call: a failed assertion, an
undefined access, or an exception nobody catches.  Model functions that can end
so return in `Checked`.
-/

namespace BinaryReader

inductive Fault where
  /-- An access outside an array or a copy past its end. -/
  | outOfBounds
  /-- A null pointer or an empty `std::optional` is dereferenced. -/
  | nullPointer
  | assertion
  /-- An unsigned subtraction below zero. -/
  | underflow
  /-- A shift by at least the width of its operand. -/
  | shift
  /-- A `std::get` or `as` of the wrong alternative. -/
  | badCast
  /-- A floating value is converted to an integer type that does not have its truncation. -/
  | conversion
  /-- A variable or a `new` object is used or destroyed outside its lifetime. -/
  | lifetime
  /-- A standard exception that is not an `antlr4::RuntimeException`. -/
  | exception (what : String)
  /-- The iteration bound of the model is used up; every loop is proved not to end so. -/
  | outOfFuel
  deriving DecidableEq, Repr

abbrev Checked := Except Fault

def deref {α : Type} : Option α → Checked α
  | some value => .ok value
  | none => .error .nullPointer

def load {α : Type} (array : List α) (index : Nat) : Checked α :=
  match array[index]? with
  | some value => .ok value
  | none => .error .outOfBounds

/-- `value << count` for a 64-bit value. -/
def shiftLeft (value : UInt64) (count : Nat) : Checked UInt64 :=
  if count < 64 then .ok (value <<< .ofNat count) else .error .shift

@[simp]
theorem deref_some {α : Type} (value : α) : deref (some value) = .ok value := rfl

theorem deref_eq_ok_iff {α : Type} {pointer : Option α} {value : α} :
    deref pointer = .ok value ↔ pointer = some value := by
  cases pointer <;> simp [deref]

theorem load_of_getElem? {α : Type} {array : List α} {index : Nat} {value : α}
    (found : array[index]? = some value) : load array index = .ok value := by
  simp [load, found]

theorem getElem?_of_load {α : Type} {array : List α} {index : Nat} {value : α}
    (loaded : load array index = .ok value) : array[index]? = some value := by
  rw [load] at loaded
  split at loaded
  next other found =>
    cases loaded
    exact found
  · cases loaded

namespace Checked

variable {α β γ : Type}

@[simp]
theorem ok_bind (value : α) (next : α → Checked β) :
    (Except.ok value >>= next : Checked β) = next value := rfl

@[simp]
theorem error_bind (fault : Fault) (next : α → Checked β) :
    (Except.error fault >>= next : Checked β) = .error fault := rfl

theorem bind_eq_ok_iff {first : Checked α} {next : α → Checked β} {result : β} :
    first >>= next = .ok result ↔ ∃ value, first = .ok value ∧ next value = .ok result := by
  cases first <;> simp

theorem map_bind (first : Checked α) (next : α → Checked β) (change : β → γ) :
    (first >>= next).map change = first >>= fun value => (next value).map change := by
  cases first <;> rfl

theorem bind_map (first : Checked α) (change : α → β) (next : β → Checked γ) :
    first.map change >>= next = first >>= fun value => next (change value) := by
  cases first <;> rfl

/-- A continuation that depends on what is seen of a value does not tell calls apart. -/
theorem bind_congr_seen {first second : Checked α} {seen : α → β}
    (same : first.map seen = second.map seen) {next : α → Checked γ} {carried : β → Checked γ}
    (carries : ∀ value, carried (seen value) = next value) : first >>= next = second >>= next :=
  calc first >>= next
    _ = first.map seen >>= carried := by simp only [bind_map, carries]
    _ = second.map seen >>= carried := by rw [same]
    _ = second >>= next := by simp only [bind_map, carries]

end Checked

end BinaryReader

import Mathlib.Logic.Function.Basic
import Mathlib.Tactic.Common

/-!
# Heaps and owners

A heap of objects whose addresses are never given out again, and owners that
hold at most one address each.  A heap is owned when every address an owner
holds is live, no two owners hold one address, and every live object has an
owner.  Releasing, allocating and handing over through an owner keep that.
-/

namespace Library

universe u v

/-- The objects by address, `none` for a released one. -/
structure Heap (Object : Type u) where
  objects : List (Option Object)

namespace Heap

variable {Object : Type u}

abbrev Address := Nat

def empty : Heap Object := ⟨[]⟩

def read (heap : Heap Object) (address : Address) : Option Object :=
  heap.objects[address]?.join

def fresh (heap : Heap Object) : Address := heap.objects.length

def allocate (heap : Heap Object) (object : Object) : Heap Object :=
  ⟨heap.objects ++ [some object]⟩

def release (heap : Heap Object) (address : Address) : Option (Heap Object) :=
  match heap.read address with
  | some _ => some ⟨heap.objects.set address none⟩
  | none => none

@[simp]
theorem read_empty (address : Address) : (empty : Heap Object).read address = none := rfl

@[simp]
theorem read_fresh (heap : Heap Object) : heap.read heap.fresh = none := by
  simp [read, fresh]

theorem read_allocate (heap : Heap Object) (object : Object) (address : Address) :
    (heap.allocate object).read address =
      if address = heap.fresh then some object else heap.read address := by
  rcases Nat.lt_trichotomy address heap.objects.length with below | rfl | above
  · simp [read, allocate, fresh, List.getElem?_append_left below, Nat.ne_of_lt below]
  · simp [read, allocate, fresh]
  · have beyond : (heap.objects ++ [some object])[address]? = none :=
      List.getElem?_eq_none (by rw [List.length_append]; exact above)
    have beyondOld : heap.objects[address]? = none :=
      List.getElem?_eq_none (Nat.le_of_lt above)
    simp [read, allocate, fresh, Nat.ne_of_gt above, beyond, beyondOld]

theorem read_of_release {heap next : Heap Object} {address : Address}
    (released : heap.release address = some next) (other : Address) :
    next.read other = if other = address then none else heap.read other := by
  rw [release] at released
  split at released
  · cases released
    by_cases same : other = address
    · simp only [same, read, List.getElem?_set, if_true]
      split_ifs <;> rfl
    · simp [same, read, Ne.symm same]
  · cases released

theorem fresh_of_release {heap next : Heap Object} {address : Address}
    (released : heap.release address = some next) : next.fresh = heap.fresh := by
  rw [release] at released
  split at released
  · cases released
    simp [fresh]
  · cases released

theorem release_allocate {heap next : Heap Object} {address : Address}
    (released : heap.release address = some next) (object : Object) :
    (heap.allocate object).release address = some (next.allocate object) := by
  rw [release] at released
  split at released
  next held live =>
    cases released
    have old : address < heap.objects.length := by
      by_contra beyond
      simp [read, Nat.le_of_not_lt beyond] at live
    have stillLive : (heap.allocate object).read address = some held := by
      rw [read_allocate, if_neg (show address ≠ heap.fresh from Nat.ne_of_lt old), live]
    rw [release, stillLive]
    simp [allocate, old]
  · cases released

end Heap

open Heap

variable {Object : Type u} {Owner : Type v}

structure Owned (heap : Heap Object) (pointers : Owner → Option Address) : Prop where
  live : ∀ {owner address}, pointers owner = some address → (heap.read address).isSome
  unique : ∀ {first second address}, pointers first = some address →
    pointers second = some address → first = second
  reachable : ∀ {address}, (heap.read address).isSome → ∃ owner, pointers owner = some address

def contents (heap : Heap Object) (pointers : Owner → Option Address) (owner : Owner) :
    Option Object := (pointers owner).bind heap.read

namespace Owned

variable {heap : Heap Object} {pointers : Owner → Option Address}

theorem empty : Owned (Heap.empty : Heap Object) (fun _ : Owner => none) where
  live := nofun
  unique := nofun
  reachable := by simp

/-- Every live object has exactly one owner. -/
theorem existsUnique (owned : Owned heap pointers) {address : Address}
    (live : (heap.read address).isSome) : ∃! owner, pointers owner = some address := by
  obtain ⟨owner, holds⟩ := owned.reachable live
  exact ⟨owner, holds, fun other otherHolds => owned.unique otherHolds holds⟩

variable [DecidableEq Owner]

private theorem update_eq_some_iff {owner other : Owner} {value : Option Address}
    {address : Address} :
    Function.update pointers owner value other = some address ↔
      (other = owner ∧ value = some address) ∨ (other ≠ owner ∧ pointers other = some address) := by
  by_cases same : other = owner <;> simp [same]

theorem release (owned : Owned heap pointers) {owner : Owner} {address : Address}
    (holds : pointers owner = some address) :
    ∃ next, heap.release address = some next ∧
      Owned next (Function.update pointers owner none) ∧
      contents next (Function.update pointers owner none) =
        Function.update (contents heap pointers) owner none := by
  obtain ⟨object, live⟩ := Option.isSome_iff_exists.mp (owned.live holds)
  obtain ⟨next, released⟩ : ∃ next, heap.release address = some next := by simp [Heap.release, live]
  have read := read_of_release released
  have others : ∀ {other target}, other ≠ owner → pointers other = some target →
      target ≠ address := by
    rintro other target different held rfl
    exact different (owned.unique held holds)
  refine ⟨next, released, ⟨?_, ?_, ?_⟩, ?_⟩
  · intro other target held
    obtain ⟨_, impossible⟩ | ⟨different, before⟩ := update_eq_some_iff.mp held
    · cases impossible
    · rw [read, if_neg (others different before)]
      exact owned.live before
  · intro first second target firstHeld secondHeld
    obtain ⟨_, impossible⟩ | ⟨_, firstBefore⟩ := update_eq_some_iff.mp firstHeld
    · cases impossible
    · obtain ⟨_, impossible⟩ | ⟨_, secondBefore⟩ := update_eq_some_iff.mp secondHeld
      · cases impossible
      · exact owned.unique firstBefore secondBefore
  · intro target stillLive
    rw [read] at stillLive
    split_ifs at stillLive with released
    · cases stillLive
    · obtain ⟨other, held⟩ := owned.reachable stillLive
      refine ⟨other, update_eq_some_iff.mpr (.inr ⟨?_, held⟩)⟩
      rintro rfl
      exact released (Option.some.inj (held.symm.trans holds))
  · funext other
    by_cases same : other = owner
    · simp [same, contents]
    · rw [Function.update_of_ne same, contents, contents, Function.update_of_ne same]
      cases held : pointers other with
      | none => rfl
      | some target => simp [read, others same held]

theorem allocate (owned : Owned heap pointers) {owner : Owner} (free : pointers owner = none)
    (object : Object) :
    Owned (heap.allocate object) (Function.update pointers owner (some heap.fresh)) ∧
      contents (heap.allocate object) (Function.update pointers owner (some heap.fresh)) =
        Function.update (contents heap pointers) owner (some object) := by
  have read := heap.read_allocate object
  have old : ∀ {other target}, pointers other = some target → target ≠ heap.fresh := by
    rintro other target held rfl
    simpa using owned.live held
  refine ⟨⟨?_, ?_, ?_⟩, ?_⟩
  · intro other target held
    obtain ⟨_, new⟩ | ⟨_, before⟩ := update_eq_some_iff.mp held
    · simp [read, Option.some.inj new]
    · rw [read, if_neg (old before)]
      exact owned.live before
  · intro first second target firstHeld secondHeld
    have firstCases := update_eq_some_iff.mp firstHeld
    have secondCases := update_eq_some_iff.mp secondHeld
    have unique := @owned.unique first second target
    grind
  · intro target live
    rw [read] at live
    split_ifs at live with new
    · exact ⟨owner, by simp [new]⟩
    · obtain ⟨other, held⟩ := owned.reachable live
      refine ⟨other, update_eq_some_iff.mpr (.inr ⟨?_, held⟩)⟩
      rintro rfl
      simp [free] at held
  · funext other
    by_cases same : other = owner
    · simp [same, contents, read]
    · rw [Function.update_of_ne same, contents, contents, Function.update_of_ne same]
      cases held : pointers other with
      | none => rfl
      | some target => simp [read, old held]

theorem handOver (owned : Owned heap pointers) {giver receiver : Owner}
    (different : receiver ≠ giver) (free : pointers receiver = none) :
    Owned heap (Function.update (Function.update pointers receiver (pointers giver)) giver none) ∧
      contents heap
          (Function.update (Function.update pointers receiver (pointers giver)) giver none) =
        Function.update
          (Function.update (contents heap pointers) receiver (contents heap pointers giver))
          giver none := by
  have holder : ∀ {other target},
      Function.update (Function.update pointers receiver (pointers giver)) giver none other =
          some target ↔
        other = receiver ∧ pointers giver = some target ∨
          other ≠ receiver ∧ other ≠ giver ∧ pointers other = some target := by
    intro other target
    rw [update_eq_some_iff, update_eq_some_iff]
    grind
  refine ⟨⟨?_, ?_, ?_⟩, ?_⟩
  · intro other target held
    obtain ⟨_, given⟩ | ⟨_, _, kept⟩ := holder.mp held
    · exact owned.live given
    · exact owned.live kept
  · intro first second target firstHeld secondHeld
    have firstCases := holder.mp firstHeld
    have secondCases := holder.mp secondHeld
    have unique := @owned.unique
    grind
  · intro target live
    obtain ⟨other, held⟩ := owned.reachable live
    by_cases given : other = giver
    · exact ⟨receiver, holder.mpr (.inl ⟨rfl, given ▸ held⟩)⟩
    · refine ⟨other, holder.mpr (.inr ⟨?_, given, held⟩)⟩
      rintro rfl
      simp [free] at held
  · funext other
    by_cases given : other = giver
    · simp [given, contents]
    · by_cases received : other = receiver
      · simp [received, different, contents]
      · simp [given, received, contents]

end Owned

end Library

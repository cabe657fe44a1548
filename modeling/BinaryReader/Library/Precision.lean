import Mathlib.Data.Set.Operations
import Mathlib.Order.Defs.Unbundled
import Mathlib.Order.Lattice
import Mathlib.Order.Monotone.Defs
import Mathlib.Tactic.Common

/-!
# Comparisons across two precisions

Two exact keys are compared as they are; an exact key is rounded before it is compared
with a rounded one; and a value without a key comes neither in front of nor behind
another.  This is a strict order, but not always a weak one: two exact keys in order may
both look like one rounded key between them.
-/

namespace Library.Precision

inductive Key (Exact Rounded : Type*) where
  | exact (value : Exact)
  | rounded (value : Rounded)
  | unordered

section

variable {Exact Rounded : Type*} (round : Exact → Rounded)

def Same : Key Exact Rounded → Key Exact Rounded → Prop
  | .exact value, .exact other => value = other
  | .exact value, .rounded other => round value = other
  | .rounded value, .exact other => value = round other
  | .rounded value, .rounded other => value = other
  | _, _ => False

variable {round}

theorem not_same_unordered (key : Key Exact Rounded) : ¬ Same round key .unordered := by
  cases key <;> exact id

theorem not_unordered_same (key : Key Exact Rounded) : ¬ Same round .unordered key := by
  cases key <;> exact id

end

variable {Exact Rounded : Type*} [LinearOrder Exact] [LinearOrder Rounded]
  (round : Exact → Rounded)

def Before : Key Exact Rounded → Key Exact Rounded → Prop
  | .exact value, .exact other => value < other
  | .exact value, .rounded other => round value < other
  | .rounded value, .exact other => value < round other
  | .rounded value, .rounded other => value < other
  | _, _ => False

/-- Two keys of a set are in order, and a third key of it is in order with neither of them. -/
def Bridged (keys : Set (Key Exact Rounded)) : Prop :=
  ∃ first ∈ keys, ∃ second ∈ keys, Before round first second ∧
    (.unordered ∈ keys ∨ ∃ less more, first = .exact less ∧ second = .exact more ∧
      round less = round more ∧ .rounded (round less) ∈ keys)

variable {round}

@[simp]
theorem not_before_unordered (key : Key Exact Rounded) : ¬ Before round key .unordered := by
  cases key <;> exact id

@[simp]
theorem not_unordered_before (key : Key Exact Rounded) : ¬ Before round .unordered key := by
  cases key <;> exact id

theorem before_irrefl (key : Key Exact Rounded) : ¬ Before round key key := by
  cases key with
  | exact value => exact lt_irrefl value
  | rounded value => exact lt_irrefl value
  | unordered => exact id

theorem before_trans (mono : Monotone round) {a b c : Key Exact Rounded}
    (first : Before round a b) (second : Before round b c) : Before round a c := by
  cases a <;> cases b <;> cases c <;> dsimp only [Before] at first second ⊢
  case exact.exact.exact => exact first.trans second
  case exact.exact.rounded => exact (mono first.le).trans_lt second
  case exact.rounded.exact => exact mono.reflect_lt (first.trans second)
  case rounded.exact.exact => exact first.trans_le (mono second.le)
  all_goals exact first.trans second

theorem same_iff {a b : Key Exact Rounded} (left : a ≠ .unordered) (right : b ≠ .unordered) :
    Same round a b ↔ ¬ Before round a b ∧ ¬ Before round b a := by
  cases a <;> cases b
  case unordered.exact | unordered.rounded | unordered.unordered => exact absurd rfl left
  case exact.unordered | rounded.unordered => exact absurd rfl right
  all_goals
    dsimp only [Same, Before]
    rw [not_lt, not_lt, and_comm, le_antisymm_iff]

/-- What comes between two keys in order without being in order with them. -/
theorem between {a b c : Key Exact Rounded} (first : Same round a b) (second : Same round b c)
    (before : Before round a c) :
    ∃ less more, a = .exact less ∧ c = .exact more ∧ round less = round more ∧
      b = .rounded (round less) := by
  cases a <;> cases b <;> cases c <;> dsimp only [Same, Before] at first second before
  case exact.rounded.exact less middle more =>
    exact ⟨less, more, rfl, rfl, first.trans second, congrArg Key.rounded first.symm⟩
  all_goals
    subst_vars
    exact absurd before (lt_irrefl _)

/-- The keys of a set can be sorted exactly when none is a bridge between two others. -/
theorem isStrictWeakOrder_iff (mono : Monotone round) {Index : Type*}
    (key : Index → Key Exact Rounded) :
    IsStrictWeakOrder Index (fun i j => Before round (key i) (key j)) ↔
      ¬ Bridged round (Set.range key) := by
  constructor
  · rintro weak ⟨_, ⟨i, rfl⟩, _, ⟨k, rfl⟩, before, ⟨j, bridge⟩ | bridge⟩
    · exact (weak.incomp_trans i j k (by simp [bridge]) (by simp [bridge])).1 before
    · obtain ⟨less, more, first, second, same, j, bridge⟩ := bridge
      refine (weak.incomp_trans i j k ?_ ?_).1 before
      · rw [first, bridge]
        exact ⟨lt_irrefl _, lt_irrefl _⟩
      · rw [second, bridge, same]
        exact ⟨lt_irrefl _, lt_irrefl _⟩
  · intro free
    -- A key that is in order with neither of two others does not let them be in order.
    have apart (i j k : Index)
        (first : ¬ Before round (key i) (key j) ∧ ¬ Before round (key j) (key i))
        (second : ¬ Before round (key j) (key k) ∧ ¬ Before round (key k) (key j)) :
        ¬ Before round (key i) (key k) := by
      intro before
      refine free ⟨_, ⟨i, rfl⟩, _, ⟨k, rfl⟩, before, ?_⟩
      by_cases unknown : key j = .unordered
      · exact Or.inl ⟨j, unknown⟩
      · have left : key i ≠ .unordered := fun none => by simp [none] at before
        have right : key k ≠ .unordered := fun none => by simp [none] at before
        obtain ⟨less, more, first, second, same, bridge⟩ :=
          between ((same_iff left unknown).mpr first) ((same_iff unknown right).mpr second) before
        exact Or.inr ⟨less, more, first, second, same, j, bridge⟩
    exact
      { irrefl := fun i => before_irrefl (key i)
        trans := fun i j k => before_trans mono
        incomp_trans := fun i j k first second =>
          ⟨apart i j k first second, apart k j i second.symm first.symm⟩ }

end Library.Precision

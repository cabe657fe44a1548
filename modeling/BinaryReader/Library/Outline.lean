import Mathlib.Data.List.Basic
import Mathlib.Order.MinMax
import Mathlib.Tactic.Common

/-!
# Outlines

Trees with labels on the children of a node, and their rendering with a line break in
front of every child and every closing mark.  What the breaks contribute to the number
of a symbol is a weight, which tells apart two ways to break lines.
-/

namespace Library

universe u v w

inductive Outline (Label : Type u) (Leaf : Type v) where
  | leaf (value : Leaf)
  | node (children : List (Label × Outline Label Leaf))

namespace Outline

variable {Label : Type u} {Leaf : Type v} {Symbol : Type w}

@[elab_as_elim, induction_eliminator]
theorem induction {motive : Outline Label Leaf → Prop} (leaf : ∀ value, motive (.leaf value))
    (node : ∀ children, (∀ child ∈ children, motive child.2) → motive (.node children))
    (outline : Outline Label Leaf) : motive outline := by
  apply @Outline.rec Label Leaf motive (fun children => ∀ child ∈ children, motive child.2)
    (fun child => motive child.2)
  · exact leaf
  · exact node
  · exact List.forall_mem_nil _
  · intro child children head tail
    exact List.forall_mem_cons.mpr ⟨head, tail⟩
  · intro label outline motiveHolds
    exact motiveHolds

mutual

def levels : Outline Label Leaf → Nat
  | .leaf _ => 0
  | .node children => childrenLevels children

def childrenLevels : List (Label × Outline Label Leaf) → Nat
  | [] => 0
  | (_, outline) :: children => max (outline.levels + 1) (childrenLevels children)

end

theorem levels_lt_of_mem {children : List (Label × Outline Label Leaf)}
    {child : Label × Outline Label Leaf} (membership : child ∈ children) :
    child.2.levels < childrenLevels children := by
  induction children with
  | nil => cases membership
  | cons head children inductionHypothesis =>
      rcases List.mem_cons.mp membership with rfl | behind
      · exact Nat.le_max_left _ _
      · exact Nat.lt_of_lt_of_le (inductionHypothesis behind) (Nat.le_max_right _ _)

theorem exists_of_lt_childrenLevels {children : List (Label × Outline Label Leaf)} {level : Nat}
    (below : level < childrenLevels children) :
    ∃ child ∈ children, level ≤ child.2.levels := by
  induction children with
  | nil => cases below
  | cons head children inductionHypothesis =>
      rcases lt_max_iff.mp below with here | behind
      · exact ⟨head, List.mem_cons_self, Nat.le_of_lt_succ here⟩
      · obtain ⟨child, membership, bound⟩ := inductionHypothesis behind
        exact ⟨child, List.mem_cons_of_mem _ membership, bound⟩

structure Frame (Label : Type u) (Leaf : Type v) (Symbol : Type w) where
  leaf : Leaf → List Symbol
  label : Label → List Symbol
  opening : List Symbol
  separator : List Symbol
  closing : List Symbol

section
variable (frame : Frame Label Leaf Symbol) (line close : Nat → List Symbol)

mutual

/-- `line` stands in front of every child and of the closing mark, and `close` behind it. -/
def render : Outline Label Leaf → (depth : Nat) → List Symbol
  | .leaf value, _ => frame.leaf value
  | .node children, depth =>
      frame.opening ++ renderChildren children (depth + 1) true ++
        (if children.isEmpty then [] else line depth) ++ frame.closing ++ close depth

def renderChildren : List (Label × Outline Label Leaf) → (depth : Nat) → (first : Bool) →
    List Symbol
  | [], _, _ => []
  | (label, outline) :: children, depth, first =>
      (if first then [] else frame.separator) ++ line depth ++ frame.label label ++
        outline.render depth ++ renderChildren children depth false

end

end

section
variable {frame : Frame Label Leaf Symbol} {line close line' close' : Nat → List Symbol}

theorem render_node_congr {children : List (Label × Outline Label Leaf)} {depth : Nat}
    (outer : line depth = line' depth) (inner : line (depth + 1) = line' (depth + 1))
    (behind : close depth = close' depth)
    (same : ∀ child ∈ children, child.2.render frame line close (depth + 1) =
      child.2.render frame line' close' (depth + 1)) :
    (node children).render frame line close depth =
      (node children).render frame line' close' depth := by
  have all : ∀ first, renderChildren frame line close children (depth + 1) first =
      renderChildren frame line' close' children (depth + 1) first := by
    clear outer behind
    induction children with
    | nil => exact fun _ => rfl
    | cons child children inductionHypothesis =>
        rcases List.forall_mem_cons.mp same with ⟨head, tail⟩
        intro first
        rw [renderChildren, renderChildren, inner, head, inductionHypothesis tail]
  rw [render, render, all, outer, behind]

theorem render_congr {bound : Nat} (lines : ∀ depth ≤ bound, line depth = line' depth)
    (closes : ∀ depth ≤ bound, close depth = close' depth) {outline : Outline Label Leaf}
    {depth : Nat} (enough : depth + outline.levels ≤ bound) :
    outline.render frame line close depth = outline.render frame line' close' depth := by
  induction outline generalizing depth with
  | leaf value => rfl
  | node children inductionHypothesis =>
      rw [levels] at enough
      by_cases empty : children = []
      · subst empty
        rw [render, render, closes depth (by omega)]
        rfl
      · obtain ⟨child, membership⟩ := List.exists_mem_of_ne_nil children empty
        have below := levels_lt_of_mem membership
        apply render_node_congr (lines depth (by omega)) (lines (depth + 1) (by omega))
          (closes depth (by omega))
        intro other otherMem
        have otherBelow := levels_lt_of_mem otherMem
        exact inductionHypothesis other otherMem (by omega)

end

section
variable (line close : Nat → Nat)

mutual

/-- What the breaks contribute when each one counts by its depth. -/
def weigh : Outline Label Leaf → (depth : Nat) → Nat
  | .leaf _, _ => 0
  | .node children, depth =>
      weighChildren children (depth + 1) + (if children.isEmpty then 0 else line depth) +
        close depth

def weighChildren : List (Label × Outline Label Leaf) → (depth : Nat) → Nat
  | [], _ => 0
  | (_, outline) :: children, depth =>
      line depth + outline.weigh depth + weighChildren children depth

end

end

theorem count_render [BEq Symbol] (frame : Frame Label Leaf Symbol) (line close : Nat → List Symbol)
    (symbol : Symbol) (outline : Outline Label Leaf) (depth : Nat) :
    (outline.render frame line close depth).count symbol =
      (outline.render frame (fun _ => []) (fun _ => []) depth).count symbol +
        outline.weigh (fun depth => (line depth).count symbol)
          (fun depth => (close depth).count symbol) depth := by
  induction outline generalizing depth with
  | leaf value => rfl
  | node children inductionHypothesis =>
      have all : ∀ first,
          (renderChildren frame line close children (depth + 1) first).count symbol =
            (renderChildren frame (fun _ => []) (fun _ => []) children (depth + 1) first).count
                symbol +
              weighChildren (fun depth => (line depth).count symbol)
                (fun depth => (close depth).count symbol) children (depth + 1) := by
        induction children with
        | nil => exact fun _ => rfl
        | cons child children childrenHypothesis =>
            rcases List.forall_mem_cons.mp inductionHypothesis with ⟨head, tail⟩
            intro first
            simp only [renderChildren, weighChildren, List.count_append, head,
              childrenHypothesis tail, List.count_nil]
            omega
      simp only [render, weigh, List.count_append, all, List.count_nil]
      cases children with
      | nil =>
          simp only [List.isEmpty_nil, if_true, List.count_nil]
          omega
      | cons child children =>
          simp only [List.isEmpty_cons, Bool.false_eq_true, if_false, List.count_nil]
          omega

/-- Outlines that look the same have breaks of the same weight. -/
theorem weigh_eq_of_render_eq [BEq Symbol] {frame : Frame Label Leaf Symbol}
    {line close line' close' : Nat → List Symbol} {outline : Outline Label Leaf} {depth : Nat}
    (same : outline.render frame line close depth = outline.render frame line' close' depth)
    (symbol : Symbol) :
    outline.weigh (fun depth => (line depth).count symbol)
        (fun depth => (close depth).count symbol) depth =
      outline.weigh (fun depth => (line' depth).count symbol)
        (fun depth => (close' depth).count symbol) depth := by
  have counts := congrArg (List.count symbol) same
  rw [count_render frame line close, count_render frame line' close'] at counts
  exact Nat.add_left_cancel counts

section
variable {line close line' close' : Nat → Nat} (lineLe : ∀ depth, line depth ≤ line' depth)
include lineLe

theorem weighChildren_le {children : List (Label × Outline Label Leaf)} {depth : Nat}
    (heads : ∀ child ∈ children,
      child.2.weigh line close depth ≤ child.2.weigh line' close' depth) :
    weighChildren line close children depth ≤ weighChildren line' close' children depth := by
  induction children with
  | nil => exact Nat.le_refl 0
  | cons child children inductionHypothesis =>
      rcases List.forall_mem_cons.mp heads with ⟨head, tail⟩
      exact Nat.add_le_add (Nat.add_le_add (lineLe _) head) (inductionHypothesis tail)

variable (closeLe : ∀ depth, close depth ≤ close' depth)
include closeLe

theorem weigh_le (outline : Outline Label Leaf) (depth : Nat) :
    outline.weigh line close depth ≤ outline.weigh line' close' depth := by
  induction outline generalizing depth with
  | leaf value => exact Nat.le_refl 0
  | node children inductionHypothesis =>
      have all := weighChildren_le lineLe fun child membership =>
        inductionHypothesis child membership (depth + 1)
      apply Nat.add_le_add (Nat.add_le_add all _) (closeLe depth)
      split
      · exact Nat.le_refl 0
      · exact lineLe depth

theorem weighChildren_eq {children : List (Label × Outline Label Leaf)} {depth : Nat}
    (same : weighChildren line close children depth = weighChildren line' close' children depth) :
    ∀ child ∈ children, line depth = line' depth ∧
      child.2.weigh line close depth = child.2.weigh line' close' depth := by
  induction children with
  | nil => exact List.forall_mem_nil _
  | cons child children inductionHypothesis =>
      have lines := lineLe depth
      have head := weigh_le lineLe closeLe child.2 depth
      have tail := weighChildren_le lineLe fun (other : Label × Outline Label Leaf)
        (_ : other ∈ children) => weigh_le lineLe closeLe other.2 depth
      rw [weighChildren, weighChildren] at same
      exact List.forall_mem_cons.mpr
        ⟨⟨by omega, by omega⟩, inductionHypothesis (by omega)⟩

theorem weigh_node_eq {children : List (Label × Outline Label Leaf)} {depth : Nat}
    (same : (node children).weigh line close depth = (node children).weigh line' close' depth) :
    close depth = close' depth ∧ ∀ child ∈ children, line (depth + 1) = line' (depth + 1) ∧
      child.2.weigh line close (depth + 1) = child.2.weigh line' close' (depth + 1) := by
  have all := weighChildren_le lineLe fun (child : Label × Outline Label Leaf)
    (_ : child ∈ children) => weigh_le lineLe closeLe child.2 (depth + 1)
  have outer : (if children.isEmpty then 0 else line depth) ≤
      if children.isEmpty then 0 else line' depth := by
    split
    · exact Nat.le_refl 0
    · exact lineLe depth
  have behind := closeLe depth
  rw [weigh, weigh] at same
  exact ⟨by omega, weighChildren_eq lineLe closeLe (by omega)⟩

theorem line_eq_of_weigh_eq {outline : Outline Label Leaf} {depth : Nat}
    (same : outline.weigh line close depth = outline.weigh line' close' depth) {level : Nat}
    (below : level < outline.levels) :
    line (depth + level + 1) = line' (depth + level + 1) := by
  induction outline generalizing depth level with
  | leaf value => cases below
  | node children inductionHypothesis =>
      obtain ⟨child, membership, enough⟩ := exists_of_lt_childrenLevels below
      obtain ⟨here, inside⟩ := (weigh_node_eq lineLe closeLe same).2 child membership
      cases level with
      | zero => exact here
      | succ level =>
          have deeper := inductionHypothesis child membership inside enough
          rwa [Nat.add_right_comm depth 1 level] at deeper

end

end Outline

end Library

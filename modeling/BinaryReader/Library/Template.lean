import Mathlib.Data.List.Forall2
import Mathlib.Tactic.Common

/-!
# Templates

A template is a text with holes.  `fill` puts the arguments into the holes from
left to right; a hole behind the last argument stays empty and arguments behind
the last hole are not used.
-/

namespace Library

universe u v

inductive Piece (Symbol : Type u) where
  | literal (symbol : Symbol)
  | hole
  deriving DecidableEq, Repr

abbrev Template (Symbol : Type u) := List (Piece Symbol)

namespace Template

variable {Symbol : Type u} {Code : Type v}

def holes : Template Symbol → Nat
  | [] => 0
  | .literal _ :: template => holes template
  | .hole :: template => holes template + 1

def literals : Template Symbol → Nat
  | [] => 0
  | .literal _ :: template => literals template + 1
  | .hole :: template => literals template

def fill : Template Symbol → List (List Symbol) → List Symbol
  | [], _ => []
  | .literal symbol :: template, arguments => symbol :: fill template arguments
  | .hole :: template, arguments => arguments.headD [] ++ fill template arguments.tail

def encode (code : Symbol → List Code) : Template Symbol → Template Code
  | [] => []
  | .literal symbol :: template => (code symbol).map .literal ++ encode code template
  | .hole :: template => .hole :: encode code template

theorem length_fill (template : Template Symbol) (arguments : List (List Symbol)) :
    (template.fill arguments).length =
      template.literals + (arguments.take template.holes).flatten.length := by
  induction template generalizing arguments with
  | nil => simp [fill, holes, literals]
  | cons piece template inductionHypothesis =>
      cases piece with
      | literal symbol =>
          simp only [fill, holes, literals, List.length_cons, inductionHypothesis]
          omega
      | hole =>
          cases arguments with
          | nil => simp [fill, literals, inductionHypothesis]
          | cons argument arguments =>
              simp only [fill, holes, literals, List.headD_cons, List.tail_cons, List.length_append,
                inductionHypothesis, List.take_succ_cons, List.flatten_cons]
              omega

theorem mem_fill {template : Template Symbol} {arguments : List (List Symbol)} {symbol : Symbol} :
    symbol ∈ template.fill arguments ↔
      .literal symbol ∈ template ∨
        ∃ argument ∈ arguments.take template.holes, symbol ∈ argument := by
  induction template generalizing arguments with
  | nil => simp [fill, holes]
  | cons piece template inductionHypothesis =>
      cases piece with
      | literal other => simp [fill, holes, inductionHypothesis, or_assoc]
      | hole =>
          cases arguments with
          | nil => simp [fill, inductionHypothesis]
          | cons argument arguments =>
              simp only [fill, holes, List.headD_cons, List.tail_cons, List.mem_append,
                inductionHypothesis, List.take_succ_cons, List.mem_cons, exists_eq_or_imp,
                reduceCtorEq, false_or]
              exact or_left_comm

theorem fill_take (template : Template Symbol) (arguments : List (List Symbol)) :
    template.fill (arguments.take template.holes) = template.fill arguments := by
  induction template generalizing arguments with
  | nil => rfl
  | cons piece template inductionHypothesis =>
      cases piece with
      | literal symbol => simp only [fill, holes, inductionHypothesis]
      | hole =>
          cases arguments with
          | nil => simp
          | cons argument arguments => simp [fill, holes, inductionHypothesis]

theorem fill_append_replicate (template : Template Symbol) (arguments : List (List Symbol))
    (count : Nat) :
    template.fill (arguments ++ List.replicate count []) = template.fill arguments := by
  induction template generalizing arguments count with
  | nil => rfl
  | cons piece template inductionHypothesis =>
      cases piece with
      | literal symbol => simp only [fill, inductionHypothesis]
      | hole =>
          cases arguments with
          | cons argument arguments => simp [fill, inductionHypothesis]
          | nil =>
              have rest := inductionHypothesis [] (count - 1)
              cases count with
              | zero => rfl
              | succ count => simpa [fill, List.replicate_succ] using rest

private theorem length_le_of_forall₂ {short long : List (List Symbol)}
    (prefixes : List.Forall₂ (· <+: ·) short long) :
    short.flatten.length ≤ long.flatten.length := by
  induction prefixes with
  | nil => exact Nat.le_refl _
  | cons isPrefix _ inductionHypothesis =>
      rw [List.flatten_cons, List.flatten_cons, List.length_append, List.length_append]
      exact Nat.add_le_add isPrefix.length_le inductionHypothesis

private theorem eq_of_forall₂_prefix {short long : List (List Symbol)}
    (prefixes : List.Forall₂ (· <+: ·) short long)
    (total : short.flatten.length = long.flatten.length) : short = long := by
  induction prefixes with
  | nil => rfl
  | @cons head other tail others isPrefix prefixes inductionHypothesis =>
      have headLength := isPrefix.length_le
      have tailLength := length_le_of_forall₂ prefixes
      simp only [List.flatten_cons, List.length_append] at total
      have same : head = other := isPrefix.eq_of_length (by omega)
      rw [same, inductionHypothesis (by omega)]

/-- Filled with prefixes of the arguments, a template gives the same text only
when the prefixes are the arguments. -/
theorem fill_prefix_injective {template : Template Symbol} {short long : List (List Symbol)}
    (prefixes : List.Forall₂ (· <+: ·) short long) (used : short.length ≤ template.holes)
    (same : template.fill short = template.fill long) : short = long := by
  have longUsed : long.length ≤ template.holes := prefixes.length_eq ▸ used
  have lengths := congrArg List.length same
  rw [length_fill, length_fill, List.take_of_length_le used,
    List.take_of_length_le longUsed] at lengths
  exact eq_of_forall₂_prefix prefixes (Nat.add_left_cancel lengths)

theorem fill_map_literal_append (symbols : List Symbol) (template : Template Symbol)
    (arguments : List (List Symbol)) :
    fill (symbols.map .literal ++ template) arguments = symbols ++ template.fill arguments := by
  induction symbols with
  | nil => rfl
  | cons symbol symbols inductionHypothesis => simp [fill, inductionHypothesis]

/-- Encoding a filled template is filling its code with the encoded arguments. -/
theorem flatMap_fill (code : Symbol → List Code) (template : Template Symbol)
    (arguments : List (List Symbol)) :
    (template.fill arguments).flatMap code =
      (template.encode code).fill (arguments.map (·.flatMap code)) := by
  induction template generalizing arguments with
  | nil => rfl
  | cons piece template inductionHypothesis =>
      cases piece with
      | literal symbol => simp [fill, encode, fill_map_literal_append, inductionHypothesis]
      | hole => cases arguments <;> simp [fill, encode, inductionHypothesis]

end Template

end Library

import BinaryReader.Public.Json.Tree

/-!
# Layout of pretty output

How the output should be laid out, with indentations that are natural numbers.  The code
recognises the outermost object by its indentation, which is the one of every object
when nothing is indented, and it adds indentations up in 64 bits.
-/

namespace BinaryReader.ObjectTree

open Library Library.Unicode
open ValueTree (latestFirst)

def layoutLine (indent depth : Nat) : List UInt8 :=
  written "\n" ++ utf8Text (List.replicate (depth * indent) ' ')

/-- One newline behind the outermost brace, and nothing behind the others. -/
def layoutClose (depth : Nat) : List UInt8 := if depth = 0 then written "\n" else []

/-- Every field on its own line behind one indentation for each object around it, and the
closing brace of an object with fields on a line of its own. -/
def layout (formatDouble : Double → String) (indent : Nat) (tree : ObjectTree) : List UInt8 :=
  tree.render (jsonFrame formatDouble true) (layoutLine indent) layoutClose 0

/-- No field is an object, or something is indented, and the largest indentation fits. -/
structure Indents (indent : UInt64) (fields : List (String × ObjectTree)) : Prop where
  nested : indent = 0 → ∀ field ∈ fields, ∃ scalar, field.2 = .leaf scalar
  fits : Outline.childrenLevels fields * indent.toNat < 2 ^ 64

theorem utf8Text_replicate (count : Nat) :
    utf8Text (List.replicate count ' ') = List.replicate count 32 := by
  induction count with
  | zero => rfl
  | succ count inductionHypothesis =>
      rw [List.replicate_succ, utf8Text_cons, inductionHypothesis]
      rfl

theorem toNat_indentAt (opts : JsonOptions) (depth : Nat) :
    (indentAt opts 0 depth).toNat = depth * opts.indent.toNat % 2 ^ 64 := by
  simp [indentAt, Nat.mul_mod]

section
variable {opts : JsonOptions} (pretty : opts.pretty = true)
include pretty

theorem jsonLine_eq (depth : Nat) :
    jsonLine opts 0 depth = 10 :: List.replicate (depth * opts.indent.toNat % 2 ^ 64) 32 := by
  rw [jsonLine, if_pos pretty, spaces, utf8Text_replicate, toNat_indentAt]
  rfl

theorem jsonClose_eq (depth : Nat) :
    jsonClose opts 0 depth = if depth * opts.indent.toNat % 2 ^ 64 = 0 then [10] else [] := by
  have zero : indentAt opts 0 depth = 0 ↔ depth * opts.indent.toNat % 2 ^ 64 = 0 := by
    rw [← toNat_indentAt, ← UInt64.toNat_inj, UInt64.toNat_zero]
  rw [jsonClose, pretty, Bool.true_and]
  simp only [decide_eq_true_eq, zero]
  rfl

end

theorem layoutLine_eq (indent depth : Nat) :
    layoutLine indent depth = 10 :: List.replicate (depth * indent) 32 := by
  rw [layoutLine, utf8Text_replicate]
  rfl

theorem layoutClose_eq (depth : Nat) : layoutClose depth = if depth = 0 then [10] else [] := rfl

theorem count_newline (count : Nat) : (10 :: List.replicate count (32 : UInt8)).count 10 = 1 := by
  rw [List.count_cons_self, List.count_replicate, if_neg (by decide)]

theorem count_blank (count : Nat) :
    (10 :: List.replicate count (32 : UInt8)).count 32 = count := by
  rw [List.count_cons_of_ne (by decide), List.count_replicate_self]

section
variable {formatDouble : Double → String} {opts : JsonOptions} (pretty : opts.pretty = true)
  {fields : List (String × ObjectTree)}
include pretty

/-- The output has the newlines of the layout only when no nested object ends a line. -/
theorem nested_of_text_eq (same : text formatDouble opts 0 (.node fields) 0 =
    layout formatDouble opts.indent.toNat (.node fields)) (unindented : opts.indent = 0) :
    ∀ field ∈ fields, ∃ scalar, field.2 = .leaf scalar := by
  rw [text, layout, pretty] at same
  have newlines := Outline.weigh_eq_of_render_eq same.symm 10
  have lines : ∀ depth, (layoutLine opts.indent.toNat depth).count 10 ≤
      (jsonLine opts 0 depth).count 10 := by
    intro depth
    rw [layoutLine_eq, jsonLine_eq pretty, count_newline, count_newline]
  have ended : ∀ depth, jsonClose opts 0 depth = [10] := by
    intro depth
    rw [jsonClose_eq pretty, unindented, UInt64.toNat_zero, Nat.mul_zero]
    rfl
  have closes : ∀ depth, (layoutClose depth).count 10 ≤ (jsonClose opts 0 depth).count 10 := by
    intro depth
    rw [ended, layoutClose_eq]
    split <;> decide
  intro field membership
  have inside := ((Outline.weigh_node_eq lines closes newlines).2 field membership).2
  rcases fieldEq : field.2 with scalar | fields
  · exact ⟨scalar, rfl⟩
  · rw [fieldEq] at inside
    have closing := (Outline.weigh_node_eq lines closes inside).1
    rw [ended] at closing
    exact absurd closing (by decide)

/-- The output has the blanks of the layout only when no indentation wraps. -/
theorem fits_of_text_eq (same : text formatDouble opts 0 (.node fields) 0 =
    layout formatDouble opts.indent.toNat (.node fields)) :
    Outline.childrenLevels fields * opts.indent.toNat < 2 ^ 64 := by
  rw [text, layout, pretty] at same
  have blanks := Outline.weigh_eq_of_render_eq same 32
  have lines : ∀ depth, (jsonLine opts 0 depth).count 32 ≤
      (layoutLine opts.indent.toNat depth).count 32 := by
    intro depth
    rw [layoutLine_eq, jsonLine_eq pretty, count_blank, count_blank]
    exact Nat.mod_le _ _
  have closes : ∀ depth, (jsonClose opts 0 depth).count 32 ≤ (layoutClose depth).count 32 := by
    intro depth
    rw [jsonClose_eq pretty]
    split
    · exact Nat.zero_le _
    · exact Nat.zero_le _
  rcases levels : Outline.childrenLevels fields with _ | level
  · rw [Nat.zero_mul]
    decide
  · have below : level < (Outline.node fields).levels := by
      rw [Outline.levels, levels]
      exact Nat.lt_succ_self level
    have deepest := Outline.line_eq_of_weigh_eq lines closes blanks below
    rw [layoutLine_eq, jsonLine_eq pretty, count_blank, count_blank, Nat.zero_add] at deepest
    rw [← deepest]
    exact Nat.mod_lt _ (by decide)

theorem text_eq_of_indents (indents : Indents opts.indent fields) :
    text formatDouble opts 0 (.node fields) 0 =
      layout formatDouble opts.indent.toNat (.node fields) := by
  rw [text, layout, pretty]
  have lines : ∀ depth ≤ Outline.childrenLevels fields,
      jsonLine opts 0 depth = layoutLine opts.indent.toNat depth := by
    intro depth bound
    have fits := lt_of_le_of_lt (Nat.mul_le_mul_right opts.indent.toNat bound) indents.fits
    rw [jsonLine_eq pretty, layoutLine_eq, Nat.mod_eq_of_lt fits]
  by_cases unindented : opts.indent = 0
  · have unindentedLine : ∀ depth, jsonLine opts 0 depth = layoutLine opts.indent.toNat depth := by
      intro depth
      rw [jsonLine_eq pretty, layoutLine_eq, unindented, UInt64.toNat_zero, Nat.mul_zero,
        Nat.zero_mod]
    apply Outline.render_node_congr (unindentedLine 0) (unindentedLine 1)
    · rw [jsonClose_eq pretty, Nat.zero_mul]
      rfl
    · intro field membership
      obtain ⟨scalar, fieldEq⟩ := indents.nested unindented field membership
      rw [fieldEq]
      rfl
  · apply Outline.render_congr lines _ (Nat.zero_add _).le
    intro depth bound
    have fits := lt_of_le_of_lt (Nat.mul_le_mul_right opts.indent.toNat bound) indents.fits
    have positive : opts.indent.toNat ≠ 0 := by
      rwa [Ne, ← UInt64.toNat_zero, UInt64.toNat_inj]
    rw [jsonClose_eq pretty, layoutClose_eq, Nat.mod_eq_of_lt fits]
    simp [positive]

/-- Pretty output is laid out line by line exactly when no field is an object or something is
indented, and no indentation wraps. -/
theorem text_eq_layout_iff :
    text formatDouble opts 0 (.node fields) 0 =
        layout formatDouble opts.indent.toNat (.node fields) ↔ Indents opts.indent fields :=
  ⟨fun same => ⟨nested_of_text_eq pretty same, fits_of_text_eq pretty same⟩,
    text_eq_of_indents pretty⟩

end

/-- `DumpJsonObject` writes a text for every tree of objects, and this is when it is laid out as
it should be. -/
theorem dumpJsonObject_layout_iff {σ : Type} {fileReader : FileReader σ} {hashOrder : HashOrder}
    {fields : List (String × ObjectTree)} {before after : World σ} {id : ObjectId}
    (shows : Shows fileReader hashOrder (.node fields) before (.object id) after)
    (formatDouble : Double → String) {opts : JsonOptions} (pretty : opts.pretty = true) :
    ∃ output, (∀ fuel ≥ Outline.childrenLevels fields, ∀ os,
        World.dumpJsonObject fileReader hashOrder opts
          (World.dumpJsonValue fileReader hashOrder formatDouble opts fuel) os before id 0 =
            .ok (os ++ output, after)) ∧
      (output = layout formatDouble opts.indent.toNat (.node fields) ↔
        Indents opts.indent fields) := by
  refine ⟨text formatDouble opts 0 (.node fields) 0, ?_, text_eq_layout_iff pretty⟩
  intro fuel enough os
  exact dumpJsonObject_shows shows enough os

/-- An object with one field, an object without fields. -/
def nestedWorld : World (Fin (([] : List UInt8).length + 1)) where
  reader := { reader := .last _, used_le := Nat.zero_le _ }
  objects :=
    [{ type := .mk {} "b" []
       startPosition := .zero
       parsedFields :=
        [{ name := "a"
           type := .definition (.mk {} "c" [])
           offset := .zero
           value := some (.object 1) }]
       fieldNameMap := [("a", 0)] },
      { type := .mk {} "c" [], startPosition := .zero }]

theorem nestedWorld_shows :
    Shows (memoryFileReader []) latestFirst (.node [("a", .node [])]) nestedWorld (.object 0)
      nestedWorld :=
  ⟨0, _, rfl, rfl, rfl, _, _, _, rfl, ⟨1, _, rfl, rfl, rfl, rfl⟩, rfl⟩

theorem dumpJsonObject_layout_iff_nested :
    ∃ output, (∀ fuel ≥ 1, ∀ os,
        World.dumpJsonObject (memoryFileReader []) latestFirst {}
          (World.dumpJsonValue (memoryFileReader []) latestFirst (fun _ => "") {} fuel) os
          nestedWorld 0 0 = .ok (os ++ output, nestedWorld)) ∧
      (output = layout (fun _ => "") 2 (.node [("a", .node [])]) ↔
        Indents 2 [("a", .node [])]) :=
  dumpJsonObject_layout_iff nestedWorld_shows (fun _ => "") rfl

/-- Without indentation an empty line follows the nested object. -/
theorem not_dumpJsonObject_layout :
    Shows (memoryFileReader []) latestFirst (.node [("a", .node [])]) nestedWorld (.object 0)
        nestedWorld ∧
      World.dumpJsonObject (memoryFileReader []) latestFirst { indent := 0 }
          (World.dumpJsonValue (memoryFileReader []) latestFirst (fun _ => "") { indent := 0 } 1) []
          nestedWorld 0 0 = .ok (written "\x7b\n\"a\": \x7b\x7d\n\n\x7d\n", nestedWorld) ∧
      layout (fun _ => "") 0 (.node [("a", .node [])]) =
        written "\x7b\n\"a\": \x7b\x7d\n\x7d\n" ∧
      written "\x7b\n\"a\": \x7b\x7d\n\n\x7d\n" ≠
        written "\x7b\n\"a\": \x7b\x7d\n\x7d\n" := by
  refine ⟨nestedWorld_shows, ?_, by decide +kernel, by decide +kernel⟩
  have spelled : text (fun _ => "") { indent := 0 } 0 (.node [("a", .node [])]) 0 =
      written "\x7b\n\"a\": \x7b\x7d\n\n\x7d\n" := by decide +kernel
  rw [← spelled]
  exact dumpJsonObject_shows nestedWorld_shows (Nat.le_refl 1) []

end BinaryReader.ObjectTree

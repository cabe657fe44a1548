import BinaryReader.Library.Outline
import BinaryReader.Public.Json

/-!
# Trees of objects

What a client sees that asks every object below a value for all its fields.  The output
is a rendering of this tree, for every number and every string that its values can be.
-/

namespace BinaryReader

open Library

inductive Scalar where
  | null
  | number (number : Number)
  | string (string : UtfString)

def Scalar.value : Scalar → Value
  | .null => .null
  | .number held => .number held
  | .string held => .string held

/-- The fields of an object are in the order of `GetFieldNames`. -/
abbrev ObjectTree := Outline String Scalar

namespace ObjectTree

section

variable {σ : Type} (fileReader : FileReader σ) (hashOrder : HashOrder)

mutual

/-- A value shows a tree to a client that starts in one world and ends in another. -/
def Shows : ObjectTree → (before : World σ) → Value → (after : World σ) → Prop
  | .leaf scalar, before, value, after => value = scalar.value ∧ after = before
  | .node fields, before, value, after =>
      ∃ id object, value = .object id ∧ load before.objects id = .ok object ∧
        fields.map Prod.fst = object.getFieldNames hashOrder ∧ FieldsShow fields id before after

def FieldsShow : List (String × ObjectTree) → ObjectId → (before after : World σ) → Prop
  | [], _, before, after => after = before
  | (name, tree) :: fields, id, before, after =>
      ∃ value middle next, before.fieldValue fileReader id name = .ok (value, middle) ∧
        Shows tree middle value next ∧ FieldsShow fields id next after

end

end

def scalarText (formatDouble : Double → String) : Scalar → List UInt8
  | .null => written "null"
  | .number number => written (number.print formatDouble)
  | .string string => written "\"" ++ Utf8Converter.encodeLoop string.utf16Buffer ++ written "\""

def jsonFrame (formatDouble : Double → String) (pretty : Bool) :
    Outline.Frame String Scalar UInt8 where
  leaf := scalarText formatDouble
  label name := written "\"" ++ written name ++ written "\":" ++
    if pretty then written " " else []
  opening := written "\x7b"
  separator := written ","
  closing := written "\x7d"

/-- The indentation at a depth, which the code adds up. -/
def indentAt (opts : JsonOptions) (indent : UInt64) (depth : Nat) : UInt64 :=
  indent + .ofNat depth * opts.indent

def jsonLine (opts : JsonOptions) (indent : UInt64) (depth : Nat) : List UInt8 :=
  if opts.pretty then written "\n" ++ spaces (indentAt opts indent depth) else []

def jsonClose (opts : JsonOptions) (indent : UInt64) (depth : Nat) : List UInt8 :=
  if opts.pretty && indentAt opts indent depth = 0 then written "\n" else []

def text (formatDouble : Double → String) (opts : JsonOptions) (indent : UInt64)
    (tree : ObjectTree) (depth : Nat) : List UInt8 :=
  tree.render (jsonFrame formatDouble opts.pretty) (jsonLine opts indent) (jsonClose opts indent)
    depth

theorem indentAt_zero (opts : JsonOptions) (indent : UInt64) : indentAt opts indent 0 = indent := by
  simp [indentAt]

theorem indentAt_succ (opts : JsonOptions) (indent : UInt64) (depth : Nat) :
    indentAt opts indent (depth + 1) = indentAt opts indent depth + opts.indent := by
  rw [indentAt, indentAt, UInt64.ofNat_add, UInt64.add_mul, UInt64.add_assoc]
  simp

section

variable {σ : Type} {fileReader : FileReader σ} {hashOrder : HashOrder}
  {formatDouble : Double → String} {opts : JsonOptions}

theorem dumpJsonValue_scalar (scalar : Scalar) (fuel : Nat) (os : List UInt8) (world : World σ)
    (indent : UInt64) :
    World.dumpJsonValue fileReader hashOrder formatDouble opts (fuel + 1) os world scalar.value
      indent = .ok (os ++ scalarText formatDouble scalar, world) := by
  cases scalar with
  | null | number => rfl
  | string string =>
      rw [scalarText, ← List.append_assoc, ← List.append_assoc]
      rfl

theorem append_if (condition : Bool) (os part : List UInt8) :
    (if condition then os ++ part else os) = os ++ if condition then part else [] := by
  cases condition with
  | false => exact (List.append_nil os).symm
  | true => rfl

theorem jsonLine_written (os : List UInt8) (indent : UInt64) (depth : Nat) :
    (if opts.pretty then os ++ written "\n" ++ spaces (indentAt opts indent depth) else os) =
      os ++ jsonLine opts indent depth := by
  rw [jsonLine, ← append_if, List.append_assoc]

theorem closing_written (fields : List (String × ObjectTree)) (os : List UInt8) (indent : UInt64)
    (depth : Nat) :
    (if !(true && fields.isEmpty) && opts.pretty then
      os ++ written "\n" ++ spaces (indentAt opts indent depth) else os) =
      os ++ if fields.isEmpty then [] else jsonLine opts indent depth := by
  cases fields with
  | nil => exact (List.append_nil os).symm
  | cons field fields => exact jsonLine_written os indent depth

/-- When a dump writes the text of every field value, the loop writes the fields. -/
theorem dumpFields_show {dump : List UInt8 → World σ → Value → UInt64 →
      Checked (List UInt8 × World σ)} {indent : UInt64} {fields : List (String × ObjectTree)}
    {depth : Nat}
    (dumps : ∀ field ∈ fields, ∀ {before value after}, ∀ os,
      Shows fileReader hashOrder field.2 before value after →
      dump os before value (indentAt opts indent (depth + 1)) =
        .ok (os ++ text formatDouble opts indent field.2 (depth + 1), after))
    {id : ObjectId} {before after : World σ}
    (shows : FieldsShow fileReader hashOrder fields id before after) (os : List UInt8)
    (first : Bool) :
    World.dumpFields fileReader opts dump id (indentAt opts indent depth) (fields.map Prod.fst)
        os first before =
      .ok (os ++ Outline.renderChildren (jsonFrame formatDouble opts.pretty)
          (jsonLine opts indent) (jsonClose opts indent) fields (depth + 1) first,
        first && fields.isEmpty, after) := by
  induction fields generalizing before os first with
  | nil =>
      cases shows
      rw [Outline.renderChildren, List.append_nil, List.isEmpty_nil, Bool.and_true]
      rfl
  | cons field fields inductionHypothesis =>
      rcases List.forall_mem_cons.mp dumps with ⟨head, tail⟩
      obtain ⟨value, middle, next, found, fieldShows, behind⟩ := shows
      have separator : (if !first then written "," else []) =
          if first then [] else written "," := by
        cases first <;> rfl
      simp only [List.map_cons, World.dumpFields, ← indentAt_succ, found, Checked.ok_bind,
        append_if, jsonLine_written, separator, head _ fieldShows, inductionHypothesis tail behind]
      simp only [Outline.renderChildren, List.isEmpty_cons, Bool.and_false, Bool.false_and, text,
        jsonFrame, List.append_assoc]

/-- The output for a value is the text of the tree it shows. -/
theorem dumpJsonValue_shows {tree : ObjectTree} {before after : World σ} {value : Value}
    (shows : Shows fileReader hashOrder tree before value after) {fuel : Nat}
    (enough : tree.levels < fuel) (os : List UInt8) (indent : UInt64) (depth : Nat) :
    World.dumpJsonValue fileReader hashOrder formatDouble opts fuel os before value
      (indentAt opts indent depth) =
        .ok (os ++ text formatDouble opts indent tree depth, after) := by
  induction tree using Outline.induction generalizing before after value fuel os depth with
  | leaf scalar =>
      obtain ⟨fuel, rfl⟩ := Nat.exists_eq_add_of_lt enough
      obtain ⟨rfl, rfl⟩ := shows
      exact dumpJsonValue_scalar scalar _ os _ _
  | node fields inductionHypothesis =>
      obtain ⟨fuel, rfl⟩ : ∃ less, fuel = less + 1 := Nat.exists_eq_add_one_of_ne_zero (by omega)
      obtain ⟨id, object, rfl, loaded, names, fieldsShow⟩ := shows
      have looped := dumpFields_show (fun field membership before value after os shows =>
        have less := Outline.levels_lt_of_mem membership
        inductionHypothesis field membership shows (less.trans_le (Nat.le_of_lt_succ enough)) os
          (depth + 1)) fieldsShow (os ++ written "\x7b") true
      simp only [World.dumpJsonValue, World.dumpJsonObject, loaded, Checked.ok_bind, ← names,
        looped, closing_written, append_if]
      simp only [text, Outline.render, jsonFrame, jsonClose, List.append_assoc]
      rfl

theorem dumpJsonObject_shows {fields : List (String × ObjectTree)} {before after : World σ}
    {id : ObjectId} (shows : Shows fileReader hashOrder (.node fields) before (.object id) after)
    {fuel : Nat} (enough : Outline.childrenLevels fields ≤ fuel) (os : List UInt8) :
    World.dumpJsonObject fileReader hashOrder opts
        (World.dumpJsonValue fileReader hashOrder formatDouble opts fuel) os before id 0 =
      .ok (os ++ text formatDouble opts 0 (.node fields) 0, after) := by
  have dumped : World.dumpJsonValue fileReader hashOrder formatDouble opts (fuel + 1) os before
      (.object id) (indentAt opts 0 0) = _ :=
    dumpJsonValue_shows shows (Nat.lt_succ_of_le enough) os 0 0
  rwa [indentAt_zero] at dumped

/-- When every dump that returns shows a tree, a loop that returns shows the fields. -/
theorem fieldsShow_of_dumpFields {dump : List UInt8 → World σ → Value → UInt64 →
      Checked (List UInt8 × World σ)} {levels : Nat}
    (dumps : ∀ {os before value indent out after},
      dump os before value indent = .ok (out, after) →
      ∃ tree : ObjectTree, Shows fileReader hashOrder tree before value after ∧
        tree.levels < levels)
    {id : ObjectId} {indent : UInt64} {names : List String} {os out : List UInt8}
    {first last : Bool} {before after : World σ}
    (looped : World.dumpFields fileReader opts dump id indent names os first before =
      .ok (out, last, after)) :
    ∃ fields, fields.map Prod.fst = names ∧
      FieldsShow fileReader hashOrder fields id before after ∧
      Outline.childrenLevels fields ≤ levels := by
  induction names generalizing os first before with
  | nil =>
      cases looped
      exact ⟨[], rfl, rfl, Nat.zero_le levels⟩
  | cons name names inductionHypothesis =>
      obtain ⟨⟨value, middle⟩, asked, rest⟩ := Checked.bind_eq_ok_iff.mp looped
      obtain ⟨⟨longer, next⟩, dumped, tail⟩ := Checked.bind_eq_ok_iff.mp rest
      obtain ⟨tree, shows, below⟩ := dumps dumped
      obtain ⟨fields, listed, fieldsShow, enough⟩ := inductionHypothesis tail
      refine ⟨(name, tree) :: fields, ?_, ⟨value, middle, next, asked, shows, fieldsShow⟩,
        max_le below enough⟩
      rw [List.map_cons, listed]

theorem shows_of_dumpJsonObject {dump : List UInt8 → World σ → Value → UInt64 →
      Checked (List UInt8 × World σ)} {levels : Nat}
    (dumps : ∀ {os before value indent out after},
      dump os before value indent = .ok (out, after) →
      ∃ tree : ObjectTree, Shows fileReader hashOrder tree before value after ∧
        tree.levels < levels)
    {id : ObjectId} {indent : UInt64} {os out : List UInt8} {before after : World σ}
    (dumped : World.dumpJsonObject fileReader hashOrder opts dump os before id indent =
      .ok (out, after)) :
    ∃ fields, Shows fileReader hashOrder (.node fields) before (.object id) after ∧
      Outline.childrenLevels fields ≤ levels := by
  obtain ⟨object, loaded, rest⟩ := Checked.bind_eq_ok_iff.mp dumped
  obtain ⟨⟨behind, first, next⟩, looped, last⟩ := Checked.bind_eq_ok_iff.mp rest
  cases last
  obtain ⟨fields, names, fieldsShow, enough⟩ := fieldsShow_of_dumpFields dumps looped
  exact ⟨fields, ⟨id, object, rfl, loaded, names, fieldsShow⟩, enough⟩

theorem shows_of_dumpJsonValue {fuel : Nat} {os out : List UInt8} {before after : World σ}
    {value : Value} {indent : UInt64}
    (dumped : World.dumpJsonValue fileReader hashOrder formatDouble opts fuel os before value
      indent = .ok (out, after)) :
    ∃ tree : ObjectTree, Shows fileReader hashOrder tree before value after ∧
      tree.levels < fuel := by
  induction fuel generalizing os before value indent out after with
  | zero => cases dumped
  | succ fuel inductionHypothesis =>
      cases value with
      | null =>
          cases dumped
          exact ⟨.leaf .null, ⟨rfl, rfl⟩, Nat.succ_pos fuel⟩
      | number number =>
          cases dumped
          exact ⟨.leaf (.number number), ⟨rfl, rfl⟩, Nat.succ_pos fuel⟩
      | string string =>
          cases dumped
          exact ⟨.leaf (.string string), ⟨rfl, rfl⟩, Nat.succ_pos fuel⟩
      | object id =>
          obtain ⟨fields, shows, enough⟩ := shows_of_dumpJsonObject inductionHypothesis dumped
          exact ⟨.node fields, shows, Nat.lt_succ_of_le enough⟩

/-- The output of a dump that returns is the text of what the object shows. -/
theorem text_of_dumpJsonObject {fuel : Nat} {os out : List UInt8} {before after : World σ}
    {id : ObjectId}
    (dumped : World.dumpJsonObject fileReader hashOrder opts
      (World.dumpJsonValue fileReader hashOrder formatDouble opts fuel) os before id 0 =
        .ok (out, after)) :
    ∃ fields, Shows fileReader hashOrder (.node fields) before (.object id) after ∧
      out = os ++ text formatDouble opts 0 (.node fields) 0 := by
  obtain ⟨fields, shows, enough⟩ := shows_of_dumpJsonObject shows_of_dumpJsonValue dumped
  have written : _ = Except.ok (os ++ text formatDouble opts 0 (.node fields) 0, after) :=
    dumpJsonObject_shows shows enough os
  cases dumped.symm.trans written
  exact ⟨fields, shows, rfl⟩

end

end ObjectTree

end BinaryReader

import BinaryReader.Public.Codecs.Encoding
import BinaryReader.Public.Json.ObjectTree

/-!
# Trees of values

A client that asks every object below a value for all its fields sees a tree.
The output is a function of this tree, except that the converter may change
characters of strings.
-/

namespace BinaryReader

open Library Library.Unicode

/-- The fields of an object are in the order of `GetFieldNames`. -/
inductive ValueTree where
  | null
  | integer (value : Int)
  | string (text : List Char)
  | object (fields : List (String × ValueTree))

namespace ValueTree

@[elab_as_elim, induction_eliminator]
theorem induction {motive : ValueTree → Prop} (null : motive .null)
    (integer : ∀ value, motive (.integer value)) (string : ∀ text, motive (.string text))
    (object : ∀ fields, (∀ field ∈ fields, motive field.2) → motive (.object fields))
    (tree : ValueTree) : motive tree := by
  apply @ValueTree.rec motive (fun fields => ∀ field ∈ fields, motive field.2)
    (fun field => motive field.2)
  · exact null
  · exact integer
  · exact string
  · exact object
  · exact List.forall_mem_nil _
  · intro field fields head tail
    exact List.forall_mem_cons.mpr ⟨head, tail⟩
  · intro name value valueMotive
    exact valueMotive

section

variable {σ : Type} (fileReader : FileReader σ) (hashOrder : HashOrder)

mutual

def Shows : ValueTree → (before : World σ) → Value → (after : World σ) → Prop
  | .null, before, value, after => value = .null ∧ after = before
  | .integer count, before, value, after =>
      ∃ number, value = .number number ∧ number.toInt? = some count ∧ after = before
  | .string text, before, value, after => value = .string ⟨utf16Text text⟩ ∧ after = before
  | .object fields, before, value, after =>
      ∃ id object, value = .object id ∧ load before.objects id = .ok object ∧
        fields.map Prod.fst = object.getFieldNames hashOrder ∧ FieldsShow fields id before after

def FieldsShow : List (String × ValueTree) → ObjectId → (before after : World σ) → Prop
  | [], _, before, after => after = before
  | (name, tree) :: fields, id, before, after =>
      ∃ value middle next, before.fieldValue fileReader id name = .ok (value, middle) ∧
        tree.Shows middle value next ∧ FieldsShow fields id next after

end

end

/-- The order of the latest assignment. -/
def latestFirst : HashOrder where
  entries := id
  perm := List.Perm.refl

mutual

def depth : ValueTree → Nat
  | .object fields => fieldsDepth fields + 1
  | _ => 1

def fieldsDepth : List (String × ValueTree) → Nat
  | [] => 0
  | (_, tree) :: fields => max tree.depth (fieldsDepth fields)

end

def lineBreak (opts : JsonOptions) (indent : UInt64) : List Char :=
  if opts.pretty then '\n' :: List.replicate indent.toNat ' ' else []

mutual

def text (opts : JsonOptions) : ValueTree → (indent : UInt64) → List Char
  | .null, _ => ['n', 'u', 'l', 'l']
  | .integer value, _ => (toString value).toList
  | .string text, _ => '"' :: text ++ ['"']
  | .object fields, indent =>
      '{' :: fieldsText opts fields (indent + opts.indent) true ++
        (if fields.isEmpty then [] else lineBreak opts indent) ++ '}' ::
        (if opts.pretty && indent = 0 then ['\n'] else [])

def fieldsText (opts : JsonOptions) : List (String × ValueTree) → (indent : UInt64) →
    (first : Bool) → List Char
  | [], _, _ => []
  | (name, tree) :: fields, indent, first =>
      (if first then [] else [',']) ++ lineBreak opts indent ++ '"' :: name.toList ++ ['"', ':'] ++
        (if opts.pretty then [' '] else []) ++ tree.text opts indent ++
        fieldsText opts fields indent false

end

example : (ValueTree.object [("a", .object [])]).text {} 0 =
    String.toList "\x7b\n  \"a\": \x7b\x7d\n\x7d\n" := by decide

/-- The character that the converter forms from the code units of a character. -/
def formedChar (char : Char) : Char := .ofNat (Utf8Converter.formedPoint char.toNat)

mutual

def formed : ValueTree → ValueTree
  | .null => .null
  | .integer value => .integer value
  | .string text => .string (text.map formedChar)
  | .object fields => .object (fieldsFormed fields)

def fieldsFormed : List (String × ValueTree) → List (String × ValueTree)
  | [] => []
  | (name, tree) :: fields => (name, tree.formed) :: fieldsFormed fields

end

theorem toNat_formedChar (char : Char) :
    (formedChar char).toNat = Utf8Converter.formedPoint char.toNat := by
  have bound := toNat_bound char
  unfold maxCodePoint at bound
  have valid : (Utf8Converter.formedPoint char.toNat).isValidChar := by
    unfold Utf8Converter.formedPoint
    split_ifs with lost
    · exact Or.inr ⟨by omega, by omega⟩
    · exact char.valid
  rw [formedChar, Char.ofNat, dif_pos valid]
  rfl

theorem encodeLoop_utf16Text_formed (text : List Char) :
    Utf8Converter.encodeLoop (utf16Text text) = utf8Text (text.map formedChar) := by
  rw [Utf8Converter.encodeLoop_utf16Text, utf8Text, List.flatMap_map]
  apply List.flatMap_congr
  intro char _
  rw [toNat_formedChar]

theorem print_of_toInt? {number : Number} {value : Int} (holds : number.toInt? = some value)
    (formatDouble : Double → String) : number.print formatDouble = toString value := by
  cases number with
  | unsignedInt count =>
      cases holds
      rfl
  | signedInt count negative =>
      cases holds
      rfl
  | double count => cases holds

/-- The object tree of the numbers and strings of a tree, with the text of the tree. -/
structure Spells (formatDouble : Double → String) (shown : ObjectTree) (tree : ValueTree) :
    Prop where
  levels : shown.levels < tree.depth
  text : ∀ opts indent depth, shown.text formatDouble opts indent depth =
    utf8Text (tree.formed.text opts (ObjectTree.indentAt opts indent depth))

structure FieldsSpell (formatDouble : Double → String) (shown : List (String × ObjectTree))
    (fields : List (String × ValueTree)) : Prop where
  names : shown.map Prod.fst = fields.map Prod.fst
  levels : Outline.childrenLevels shown ≤ fieldsDepth fields
  text : ∀ opts indent depth first,
    Outline.renderChildren (ObjectTree.jsonFrame formatDouble opts.pretty)
        (ObjectTree.jsonLine opts indent) (ObjectTree.jsonClose opts indent) shown depth first =
      utf8Text (fieldsText opts (fieldsFormed fields) (ObjectTree.indentAt opts indent depth) first)

theorem jsonLine_eq (opts : JsonOptions) (indent : UInt64) (depth : Nat) :
    ObjectTree.jsonLine opts indent depth =
      utf8Text (lineBreak opts (ObjectTree.indentAt opts indent depth)) := by
  unfold ObjectTree.jsonLine lineBreak
  cases opts.pretty with
  | false => rfl
  | true => rfl

theorem jsonClose_eq (opts : JsonOptions) (indent : UInt64) (depth : Nat) :
    ObjectTree.jsonClose opts indent depth = utf8Text
      (if opts.pretty && ObjectTree.indentAt opts indent depth = 0 then ['\n'] else []) := by
  unfold ObjectTree.jsonClose
  split_ifs
  · rfl
  · rfl

theorem fieldsFormed_isEmpty (fields : List (String × ValueTree)) :
    (fieldsFormed fields).isEmpty = fields.isEmpty := by
  cases fields <;> rfl

section

variable {formatDouble : Double → String}

theorem FieldsSpell.cons {shown : ObjectTree} {trees : List (String × ObjectTree)}
    {field : String × ValueTree} {fields : List (String × ValueTree)}
    (head : Spells formatDouble shown field.2) (tail : FieldsSpell formatDouble trees fields) :
    FieldsSpell formatDouble ((field.1, shown) :: trees) (field :: fields) where
  names := by rw [List.map_cons, List.map_cons, tail.names]
  levels := max_le_max head.levels tail.levels
  text := by
    intro opts indent depth first
    have headText := head.text opts indent depth
    unfold ObjectTree.text at headText
    have separator : (if first then [] else written ",") =
        utf8Text (if first then [] else [',']) := by
      cases first <;> rfl
    have blank : (if opts.pretty then written " " else []) =
        utf8Text (if opts.pretty then [' '] else []) := by
      cases opts.pretty <;> rfl
    rw [Outline.renderChildren, headText, tail.text, jsonLine_eq, fieldsFormed, fieldsText]
    simp only [ObjectTree.jsonFrame, separator, blank, utf8Text_append, utf8Text_cons,
      List.append_assoc, List.cons_append]
    rfl

theorem FieldsSpell.object {trees : List (String × ObjectTree)} {fields : List (String × ValueTree)}
    (spell : FieldsSpell formatDouble trees fields) :
    Spells formatDouble (.node trees) (.object fields) where
  levels := Nat.lt_succ_of_le spell.levels
  text := by
    intro opts indent depth
    have empty : trees.isEmpty = fields.isEmpty := by
      rw [← List.isEmpty_map (f := Prod.fst), spell.names, List.isEmpty_map]
    have closing : (if fields.isEmpty then [] else
        utf8Text (lineBreak opts (ObjectTree.indentAt opts indent depth))) =
          utf8Text (if fields.isEmpty then [] else
            lineBreak opts (ObjectTree.indentAt opts indent depth)) := by
      cases fields.isEmpty <;> rfl
    rw [ObjectTree.text, Outline.render, spell.text, jsonLine_eq, jsonClose_eq, empty, closing,
      formed, ValueTree.text, fieldsFormed_isEmpty, ObjectTree.indentAt_succ]
    simp only [ObjectTree.jsonFrame, utf8Text_append, utf8Text_cons, List.append_assoc,
      List.cons_append]
    rfl

end

section

variable {σ : Type} {fileReader : FileReader σ} {hashOrder : HashOrder}

theorem exists_fieldsSpell {formatDouble : Double → String} {fields : List (String × ValueTree)}
    (spelled : ∀ field ∈ fields, ∀ {before after value},
      field.2.Shows fileReader hashOrder before value after → ∃ shown,
        ObjectTree.Shows fileReader hashOrder shown before value after ∧
          Spells formatDouble shown field.2)
    {id : ObjectId} {before after : World σ}
    (shows : FieldsShow fileReader hashOrder fields id before after) :
    ∃ trees, ObjectTree.FieldsShow fileReader hashOrder trees id before after ∧
      FieldsSpell formatDouble trees fields := by
  induction fields generalizing before with
  | nil => exact ⟨[], shows, rfl, le_rfl, fun _ _ _ _ => rfl⟩
  | cons field fields inductionHypothesis =>
      rcases List.forall_mem_cons.mp spelled with ⟨head, tail⟩
      obtain ⟨value, middle, next, found, fieldShows, behind⟩ := shows
      obtain ⟨shown, shownShows, spells⟩ := head fieldShows
      obtain ⟨trees, treesShow, spell⟩ := inductionHypothesis tail behind
      exact ⟨(field.1, shown) :: trees, ⟨value, middle, next, found, shownShows, treesShow⟩,
        spell.cons spells⟩

theorem exists_spells (formatDouble : Double → String) {tree : ValueTree} {before after : World σ}
    {value : Value} (shows : tree.Shows fileReader hashOrder before value after) :
    ∃ shown, ObjectTree.Shows fileReader hashOrder shown before value after ∧
      Spells formatDouble shown tree := by
  induction tree generalizing before after value with
  | null => exact ⟨.leaf .null, shows, Nat.zero_lt_one, fun _ _ _ => rfl⟩
  | integer count =>
      obtain ⟨number, rfl, holds, rfl⟩ := shows
      refine ⟨.leaf (.number number), ⟨rfl, rfl⟩, Nat.zero_lt_one, ?_⟩
      intro opts indent depth
      change written (number.print formatDouble) = utf8Text (toString count).toList
      rw [print_of_toInt? holds, written]
  | string characters =>
      obtain ⟨rfl, rfl⟩ := shows
      refine ⟨.leaf (.string ⟨utf16Text characters⟩), ⟨rfl, rfl⟩, Nat.zero_lt_one, ?_⟩
      intro opts indent depth
      change written "\"" ++ Utf8Converter.encodeLoop (utf16Text characters) ++ written "\"" =
        utf8Text ('"' :: characters.map formedChar ++ ['"'])
      rw [encodeLoop_utf16Text_formed, utf8Text_append, utf8Text_cons]
      rfl
  | object fields inductionHypothesis =>
      obtain ⟨id, object, rfl, loaded, names, fieldsShow⟩ := shows
      obtain ⟨trees, treesShow, spell⟩ := exists_fieldsSpell inductionHypothesis fieldsShow
      exact ⟨.node trees, ⟨id, object, rfl, loaded, spell.names.trans names, treesShow⟩,
        spell.object⟩

theorem dumpJsonValue_shows {formatDouble : Double → String} {opts : JsonOptions} {tree : ValueTree}
    {before after : World σ} {value : Value}
    (shows : tree.Shows fileReader hashOrder before value after) {fuel : Nat}
    (enough : tree.depth ≤ fuel) (os : List UInt8) (indent : UInt64) :
    World.dumpJsonValue fileReader hashOrder formatDouble opts fuel os before value indent =
      .ok (os ++ utf8Text (tree.formed.text opts indent), after) := by
  obtain ⟨shown, shownShows, spells⟩ := exists_spells formatDouble shows
  have dumped : World.dumpJsonValue fileReader hashOrder formatDouble opts fuel os before value
      (ObjectTree.indentAt opts indent 0) = _ :=
    ObjectTree.dumpJsonValue_shows shownShows (spells.levels.trans_le enough) os indent 0
  rwa [spells.text, ObjectTree.indentAt_zero] at dumped

end

end ValueTree

end BinaryReader

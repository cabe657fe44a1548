import BinaryReader.Library.Json.Document
import BinaryReader.Library.Json.Weight
import BinaryReader.Public.Json.Matching

/-!
# Output that says what was written

A string is written between quotation marks as it is.  A character that needs an
escape costs more than the text spends, so the tree cannot be read back from it,
and neither can a character that the converter changes.
-/

namespace BinaryReader.ValueTree

open Library Library.Json Library.Unicode

/-- An output is one JSON document, and reading it gives the tree. -/
def Faithful (output : List UInt8) (tree : ValueTree) : Prop :=
  ∃ text json, output = utf8Text text ∧ Document text json ∧ tree.Matches json

variable {classes : IdentifierClasses}

mutual

def weigh : ValueTree → Nat
  | .null => 1
  | .integer _ => 0
  | .string text => unitsWeight (utf16Text text)
  | .object fields => fieldsWeigh fields

def fieldsWeigh : List (String × ValueTree) → Nat
  | [] => 0
  | (name, tree) :: fields => unitsWeight (utf16Text name.toList) + tree.weigh + fieldsWeigh fields

end

theorem exists_entries {fields : List (String × ValueTree)} {members : List (List UInt16 × Json)}
    (weighs : ∀ field ∈ fields, ∀ {json}, field.2.Matches json → field.2.weigh ≤ json.measure)
    (fieldsMatch : FieldsMatch fields members) :
    ∃ entries, entries ⊆ members ∧ fieldsWeigh fields ≤ measureMembers entries ∧
      entries.map Prod.fst = (fields.map Prod.fst).map fun name => utf16Text name.toList := by
  induction fields with
  | nil => exact ⟨[], List.nil_subset _, Nat.le_refl 0, rfl⟩
  | cons field fields inductionHypothesis =>
      rcases List.forall_mem_cons.mp weighs with ⟨head, tail⟩
      obtain ⟨⟨value, found, agree⟩, behind⟩ := fieldsMatch
      obtain ⟨entries, subset, bound, names⟩ := inductionHypothesis tail behind
      have headBound := head agree
      refine ⟨(utf16Text field.1.toList, value) :: entries, ?_, ?_, ?_⟩
      · exact List.cons_subset.mpr ⟨mem_of_lastOf found, subset⟩
      · rw [fieldsWeigh, measureMembers]
        omega
      · rw [List.map_cons, names]
        rfl

theorem weigh_le_measure {tree : ValueTree} (named : tree.Named classes) {json : Json}
    (agree : tree.Matches json) : tree.weigh ≤ json.measure := by
  induction tree generalizing json with
  | null =>
      cases agree
      exact Nat.le_refl 1
  | integer value => exact Nat.zero_le _
  | string text =>
      cases agree
      exact Nat.le_refl _
  | object fields inductionHypothesis =>
      obtain ⟨members, rfl, _, fieldsMatch⟩ := agree
      have entriesNamed := fieldsNamed_iff.mp named.2
      obtain ⟨entries, subset, bound, names⟩ := exists_entries
        (fun field membership _ => inductionHypothesis field membership
          (entriesNamed field membership).2) fieldsMatch
      have distinct : (entries.map Prod.fst).Nodup := by
        rw [names]
        exact named.1.map fun _ _ same => String.toList_inj.mp (utf16Text_injective same)
      rw [weigh, Json.measure]
      exact bound.trans (measureMembers_le (.of_map _ distinct) subset)

theorem formedChar_large {char : Char} (large : 0x10000 ≤ char.toNat) :
    0x10000 ≤ (formedChar char).toNat := by
  rw [toNat_formedChar, Utf8Converter.formedPoint]
  split_ifs <;> omega

theorem charWeight_formedChar (char : Char) : charWeight (formedChar char) = charWeight char := by
  by_cases small : char.toNat < 0x10000
  · rw [(formedChar_eq_iff char).mpr (Or.inl small)]
  · have large := Nat.le_of_not_lt small
    rw [charWeight_of_large (Nat.le_trans (by decide) large),
      charWeight_of_large (Nat.le_trans (by decide) (formedChar_large large))]

theorem weight_map_formedChar (text : List Char) : weight (text.map formedChar) = weight text := by
  induction text with
  | nil => rfl
  | cons char text inductionHypothesis =>
      rw [List.map_cons, weight_cons, weight_cons, charWeight_formedChar, inductionHypothesis]

theorem weight_toString (value : Int) : weight (toString value).toList = 0 := by
  apply weight_eq_zero
  · intro solidus
    exact absurd (toString_characters value _ solidus) (by decide)
  · intro letter
    exact absurd (toString_characters value _ letter) (by decide)

theorem weight_blank {text : List Char} (blank : Blank text) : weight text = 0 := by
  apply weight_eq_zero
  · intro solidus
    exact absurd (blank _ solidus) (by decide)
  · intro letter
    exact absurd (blank _ letter) (by decide)

/-- The output spends at most what the tree weighs, and it spends all of that only when
nothing in the tree needs an escape. -/
def Spends (tree : ValueTree) (text : List Char) : Prop :=
  weight text ≤ tree.weigh ∧ (tree.weigh ≤ weight text → tree.Spelled)

theorem fieldsText_spends {opts : JsonOptions} {fields : List (String × ValueTree)}
    {indent : UInt64} (spends : ∀ field ∈ fields, field.2.Spends (field.2.formed.text opts indent))
    (first : Bool) :
    weight (fieldsText opts (fieldsFormed fields) indent first) ≤ fieldsWeigh fields ∧
      (fieldsWeigh fields ≤ weight (fieldsText opts (fieldsFormed fields) indent first) →
        FieldsSpelled fields) := by
  induction fields generalizing first with
  | nil => exact ⟨Nat.le_refl 0, fun _ => trivial⟩
  | cons field fields inductionHypothesis =>
      rcases List.forall_mem_cons.mp spends with ⟨⟨head, headSpelled⟩, tail⟩
      rcases inductionHypothesis tail false with ⟨behind, behindSpelled⟩
      rcases weight_le_unitsWeight field.1.toList with ⟨name, namePlain⟩
      have separator : weight (if first then [] else [',']) = 0 := by
        cases first <;> rfl
      have whole : weight (fieldsText opts (fieldsFormed (field :: fields)) indent first) =
          weight field.1.toList + weight (field.2.formed.text opts indent) +
            weight (fieldsText opts (fieldsFormed fields) indent false) := by
        have quotes : weight ['"', ':'] = 0 ∧ charWeight '"' = 0 := ⟨rfl, rfl⟩
        simp only [fieldsFormed, fieldsText, weight_append, weight_cons, separator,
          weight_blank (blank_lineBreak opts indent), weight_blank (blank_if _ rfl : Blank
            (if opts.pretty then [' '] else [])), quotes]
        omega
      rw [whole, fieldsWeigh]
      constructor
      · omega
      · intro spent
        exact ⟨namePlain (by omega), headSpelled (by omega), behindSpelled (by omega)⟩

theorem text_spends (opts : JsonOptions) (tree : ValueTree) (indent : UInt64) :
    tree.Spends (tree.formed.text opts indent) := by
  induction tree generalizing indent with
  | null => exact ⟨Nat.le_refl 1, fun _ => trivial⟩
  | integer value =>
      refine ⟨?_, fun _ => trivial⟩
      rw [formed, text, weight_toString]
      exact Nat.zero_le _
  | string characters =>
      have whole : weight ((ValueTree.string characters).formed.text opts indent) =
          weight characters := by
        have quotes : charWeight '"' = 0 := rfl
        simp only [formed, text, weight_append, weight_cons, weight_nil, weight_map_formedChar,
          quotes]
        omega
      rw [Spends, whole]
      exact weight_le_unitsWeight characters
  | object fields inductionHypothesis =>
      have spends := fieldsText_spends (fun field membership =>
        inductionHypothesis field membership (indent + opts.indent)) true
      have whole : weight ((ValueTree.object fields).formed.text opts indent) =
          weight (fieldsText opts (fieldsFormed fields) (indent + opts.indent) true) := by
        have braces : charWeight '{' = 0 ∧ charWeight '}' = 0 := ⟨rfl, rfl⟩
        have closing : weight (if (fieldsFormed fields).isEmpty then []
            else lineBreak opts indent) = 0 := by
          split_ifs
          · rfl
          · exact weight_blank (blank_lineBreak opts indent)
        have ending : weight (if opts.pretty && indent = 0 then ['\n'] else []) = 0 :=
          weight_blank (blank_if _ rfl)
        simp only [formed, text, weight_append, weight_cons, closing, ending, braces]
        omega
      rw [Spends, whole]
      exact spends

theorem plain_formedChar {char : Char} (plain : Plain char) : Plain (formedChar char) := by
  by_cases small : char.toNat < 0x10000
  · rw [(formedChar_eq_iff char).mpr (Or.inl small)]
    exact plain
  · exact plain_of_large (Nat.le_trans (by decide) (formedChar_large (Nat.le_of_not_lt small)))

theorem spelled_formed {tree : ValueTree} (spelled : tree.Spelled) : tree.formed.Spelled := by
  induction tree with
  | null => trivial
  | integer value => trivial
  | string text =>
      intro char membership
      obtain ⟨before, found, rfl⟩ := List.mem_map.mp membership
      exact plain_formedChar (spelled before found)
  | object fields inductionHypothesis =>
      rw [formed, Spelled, fieldsFormed_eq_map, fieldsSpelled_iff]
      intro field membership
      obtain ⟨before, found, rfl⟩ := List.mem_map.mp membership
      have both := fieldsSpelled_iff.mp spelled before found
      exact ⟨both.1, inductionHypothesis before found both.2⟩

theorem allCharacters_and {first second : Char → Prop} {tree : ValueTree} :
    (tree.AllCharacters fun char => first char ∧ second char) ↔
      tree.AllCharacters first ∧ tree.AllCharacters second := by
  induction tree with
  | null => exact iff_of_true trivial ⟨trivial, trivial⟩
  | integer value => exact iff_of_true trivial ⟨trivial, trivial⟩
  | string text => exact forall₂_and
  | object fields inductionHypothesis =>
      simp only [AllCharacters, fieldsAllCharacters_iff, ← forall₂_and]
      exact forall₂_congr inductionHypothesis

/-- The text of a tree is faithful exactly when every character of a string can stand
for itself and is not changed by the converter. -/
theorem faithful_text_iff {tree : ValueTree} (named : tree.Named classes) (opts : JsonOptions)
    (indent : UInt64) :
    Faithful (utf8Text (tree.formed.text opts indent)) tree ↔
      tree.AllCharacters fun char => Plain char ∧ Utf8Converter.KeepsPlane char.toNat := by
  rw [allCharacters_and]
  constructor
  · rintro ⟨text, json, same, document, agree⟩
    cases utf8Text_injective same
    have spelled : tree.Spelled :=
      (text_spends opts tree indent).2 ((weigh_le_measure named agree).trans
        (measure_le_of_document document))
    cases document.unique (document_text (spelled_formed spelled) opts indent)
    exact ⟨(spelled_iff named).mp spelled, (matches_formed_iff named).mp agree⟩
  · rintro ⟨plain, kept⟩
    have spelled := (spelled_iff named).mpr plain
    exact ⟨_, _, rfl, document_text (spelled_formed spelled) opts indent,
      (matches_formed_iff named).mpr kept⟩

/-- `DumpJsonValue` writes a text for every tree of values, with any options and any
indentation, and this is when the text says what the tree is. -/
theorem dumpJsonValue_faithful_iff {σ : Type} {fileReader : FileReader σ} {hashOrder : HashOrder}
    {tree : ValueTree} {before after : World σ} {value : Value}
    (shows : tree.Shows fileReader hashOrder before value after) (named : tree.Named classes)
    (formatDouble : Double → String) (opts : JsonOptions) (indent : UInt64) :
    ∃ output, (∀ fuel ≥ tree.depth, ∀ os,
        World.dumpJsonValue fileReader hashOrder formatDouble opts fuel os before value indent =
          .ok (os ++ output, after)) ∧
      (Faithful output tree ↔
        tree.AllCharacters fun char => Plain char ∧ Utf8Converter.KeepsPlane char.toNat) := by
  refine ⟨utf8Text (tree.formed.text opts indent), ?_, faithful_text_iff named opts indent⟩
  intro fuel enough os
  exact dumpJsonValue_shows shows enough os indent

def asciiClasses : IdentifierClasses where
  idStart := fun char => char.isAlpha
  idContinue := fun char => char.isAlphanum ∨ char = '_'
  idStart_ascii := fun _ _ => Iff.rfl
  idContinue_ascii := fun _ _ => Iff.rfl

/-- An object whose field `x` holds a quotation mark. -/
def quoteWorld : World (Fin (([] : List UInt8).length + 1)) where
  reader := { reader := .last _, used_le := Nat.zero_le _ }
  objects :=
    [{ type := .mk {} "a" []
       startPosition := .zero
       parsedFields :=
        [{ name := "x"
           type := .definition (.mk {} "a" [])
           offset := .zero
           value := some (.string ⟨utf16Text ['"']⟩) }]
       fieldNameMap := [("x", 0)] }]

theorem quoteWorld_shows :
    (ValueTree.object [("x", .string ['"'])]).Shows (memoryFileReader []) latestFirst quoteWorld
      (.object 0) quoteWorld :=
  ⟨0, _, rfl, rfl, rfl, _, _, _, rfl, ⟨rfl, rfl⟩, rfl⟩

theorem quoteWorld_named : (ValueTree.object [("x", .string ['"'])]).Named asciiClasses :=
  ⟨List.nodup_singleton "x", ⟨[], 'x', [], rfl, Or.inl rfl, rfl, List.forall_mem_nil _⟩, trivial,
    trivial⟩

theorem dumpJsonValue_faithful_iff_quote :
    ∃ output, (∀ fuel ≥ 2, ∀ os,
        World.dumpJsonValue (memoryFileReader []) latestFirst (fun _ => "") {} fuel os quoteWorld
          (.object 0) 0 = .ok (os ++ output, quoteWorld)) ∧
      (Faithful output (.object [("x", .string ['"'])]) ↔
        (ValueTree.object [("x", .string ['"'])]).AllCharacters fun char =>
          Plain char ∧ Utf8Converter.KeepsPlane char.toNat) :=
  dumpJsonValue_faithful_iff quoteWorld_shows quoteWorld_named (fun _ => "") {} 0

/-- The quotation mark is written as it is, so the string ends before it. -/
theorem not_dumpJsonValue_faithful :
    (ValueTree.object [("x", .string ['"'])]).Shows (memoryFileReader []) latestFirst quoteWorld
        (.object 0) quoteWorld ∧
      (ValueTree.object [("x", .string ['"'])]).Named asciiClasses ∧
      World.dumpJsonValue (memoryFileReader []) latestFirst (fun _ => "")
          { pretty := false } 2 [] quoteWorld (.object 0) 0 =
        .ok (written "\x7b\"x\":\"\"\"\x7d", quoteWorld) ∧
      ¬ Faithful (written "\x7b\"x\":\"\"\"\x7d") (.object [("x", .string ['"'])]) := by
  refine ⟨quoteWorld_shows, quoteWorld_named, ?_, ?_⟩
  · have spelled : (ValueTree.object [("x", .string ['"'])]).formed.text { pretty := false } 0 =
        String.toList "\x7b\"x\":\"\"\"\x7d" := by decide
    rw [written, ← spelled]
    exact dumpJsonValue_shows quoteWorld_shows (Nat.le_refl 2) [] 0
  · rintro ⟨text, json, same, ⟨fuel, rest, parsed, -⟩, -⟩
    cases utf8Text_injective same
    have refused : ∀ fuel, parseValue (fuel + 2) ['{', '"', 'x', '"', ':', '"', '"', '"', '}'] =
        none := fun _ => rfl
    have found := parseValue_extendedBy (Nat.le_add_right fuel 2) _ _ parsed
    cases (refused fuel).symm.trans found

end BinaryReader.ValueTree

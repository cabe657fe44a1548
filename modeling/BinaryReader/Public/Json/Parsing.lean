import BinaryReader.Library.Json.Spelling
import BinaryReader.Public.Json.Tree

/-!
# Output that is read back

The text of a tree is one JSON document when no name and no string in it has a
character that needs an escape.  Reading it gives the members in their order.
-/

namespace BinaryReader.ValueTree

open Library Library.Json Library.Unicode

mutual

def json : ValueTree → Json
  | .null => .null
  | .integer value => .number value
  | .string text => .string (utf16Text text)
  | .object fields => .object (fieldsJson fields)

def fieldsJson : List (String × ValueTree) → List (List UInt16 × Json)
  | [] => []
  | (name, tree) :: fields => (utf16Text name.toList, tree.json) :: fieldsJson fields

end

mutual

/-- No name and no string has a character that needs an escape. -/
def Spelled : ValueTree → Prop
  | .string text => ∀ char ∈ text, Plain char
  | .object fields => FieldsSpelled fields
  | _ => True

def FieldsSpelled : List (String × ValueTree) → Prop
  | [] => True
  | (name, tree) :: fields => (∀ char ∈ name.toList, Plain char) ∧ tree.Spelled ∧
      FieldsSpelled fields

end

mutual

def size : ValueTree → Nat
  | .object fields => fieldsSize fields + 1
  | _ => 1

def fieldsSize : List (String × ValueTree) → Nat
  | [] => 0
  | (_, tree) :: fields => tree.size + fieldsSize fields

end

theorem fieldsSpelled_iff {fields : List (String × ValueTree)} :
    FieldsSpelled fields ↔
      ∀ field ∈ fields, (∀ char ∈ field.1.toList, Plain char) ∧ field.2.Spelled := by
  induction fields with
  | nil => exact iff_of_true trivial (List.forall_mem_nil _)
  | cons field fields inductionHypothesis =>
      rw [FieldsSpelled, inductionHypothesis, List.forall_mem_cons, and_assoc]

theorem one_le_size (tree : ValueTree) : 1 ≤ tree.size := by
  cases tree <;> exact Nat.le_add_left _ _

theorem size_le_of_mem {fields : List (String × ValueTree)} {field : String × ValueTree}
    (membership : field ∈ fields) : field.2.size ≤ fieldsSize fields := by
  induction fields with
  | nil => cases membership
  | cons head fields inductionHypothesis =>
      rcases List.mem_cons.mp membership with rfl | behind
      · exact Nat.le_add_right _ _
      · exact (inductionHypothesis behind).trans (Nat.le_add_left _ _)

theorem length_le_fieldsSize (fields : List (String × ValueTree)) :
    fields.length ≤ fieldsSize fields := by
  induction fields with
  | nil => exact Nat.le_refl 0
  | cons field fields inductionHypothesis =>
      have head := one_le_size field.2
      rw [List.length_cons, fieldsSize]
      omega

variable {opts : JsonOptions}

theorem blank_lineBreak (opts : JsonOptions) (indent : UInt64) : Blank (lineBreak opts indent) := by
  intro char membership
  unfold lineBreak at membership
  split_ifs at membership
  · rcases List.mem_cons.mp membership with rfl | space
    · rfl
    · rw [List.eq_of_mem_replicate space]
      rfl
  · cases membership

theorem blank_if (condition : Bool) {char : Char} (blank : isBlank char) :
    Blank (if condition then [char] else []) := by
  cases condition with
  | false => exact List.forall_mem_nil _
  | true => exact List.forall_mem_singleton.mpr blank

theorem text_visible (opts : JsonOptions) (tree : ValueTree) (indent : UInt64) :
    ∃ first behind, tree.text opts indent = first :: behind ∧ ¬ isBlank first := by
  cases tree with
  | null => exact ⟨_, _, rfl, by decide⟩
  | integer value =>
      obtain ⟨first, behind, spelled, start, _⟩ := parseNumber_toString value follows_nil
      exact ⟨first, behind, spelled, not_isBlank_of_number start⟩
  | string text => exact ⟨_, _, rfl, by decide⟩
  | object fields => exact ⟨_, _, rfl, by decide⟩

def memberText (opts : JsonOptions) (field : String × ValueTree) (indent : UInt64) : List Char :=
  '"' :: field.1.toList ++ '"' :: ':' ::
    ((if opts.pretty then [' '] else []) ++ field.2.text opts indent)

theorem skip_lineBreak (field : String × ValueTree) (indent : UInt64) (following : List Char) :
    skip (lineBreak opts indent ++ (memberText opts field indent ++ following)) =
      memberText opts field indent ++ following := by
  rw [skip_append (blank_lineBreak opts indent)]
  exact skip_cons (by decide) _

theorem fieldsText_first (field : String × ValueTree) (fields : List (String × ValueTree))
    (indent : UInt64) :
    fieldsText opts (field :: fields) indent true =
      lineBreak opts indent ++ (memberText opts field indent ++
        fieldsText opts fields indent false) := by
  simp only [fieldsText, memberText, if_true, List.append_assoc, List.cons_append, List.nil_append]

theorem fieldsText_next (field : String × ValueTree) (fields : List (String × ValueTree))
    (indent : UInt64) :
    fieldsText opts (field :: fields) indent false =
      ',' :: fieldsText opts (field :: fields) indent true := rfl

/-- A tree is read back by a parser, up to white space behind it. -/
def ReadBack (opts : JsonOptions) (parser : List Char → Option (Json × List Char))
    (tree : ValueTree) : Prop :=
  ∀ rest, Follows rest → ∀ indent, ∃ blanks, Blank blanks ∧
    parser (tree.text opts indent ++ rest) = some (tree.json, blanks ++ rest)

theorem ReadBack.member {parser : List Char → Option (Json × List Char)}
    {field : String × ValueTree} (readBack : ReadBack opts parser field.2)
    (name : ∀ char ∈ field.1.toList, Plain char) {rest : List Char} (follows : Follows rest)
    (indent : UInt64) :
    ∃ blanks, Blank blanks ∧
      parseMember parser (memberText opts field indent ++ rest) =
        some ((utf16Text field.1.toList, field.2.json), blanks ++ rest) := by
  obtain ⟨blanks, blank, parsed⟩ := readBack rest follows indent
  obtain ⟨first, behind, spelled, visible⟩ := text_visible opts field.2 indent
  have skipped : skip ((if opts.pretty then [' '] else []) ++ field.2.text opts indent ++ rest) =
      field.2.text opts indent ++ rest := by
    rw [List.append_assoc, skip_append (blank_if _ rfl), spelled, List.cons_append,
      skip_cons visible]
  have member := parseMember_plain name ((congrArg parser skipped).trans parsed)
  refine ⟨blanks, blank, ?_⟩
  rw [← member, memberText]
  simp only [List.append_assoc, List.cons_append]

/-- The fields of an object are read one after the other. -/
theorem parseItems_fieldsText {parser : List Char → Option (Json × List Char)}
    {field : String × ValueTree} {fields : List (String × ValueTree)}
    (readBack : ∀ entry ∈ field :: fields, ReadBack opts parser entry.2)
    (names : ∀ entry ∈ field :: fields, ∀ char ∈ entry.1.toList, Plain char)
    {count : Nat} (enough : fields.length < count) {blanks : List Char} (blank : Blank blanks)
    (rest : List Char) (indent : UInt64) :
    parseItems (parseMember parser) '}' count
      (fieldsText opts (field :: fields) indent true ++ (blanks ++ '}' :: rest)) =
        some (fieldsJson (field :: fields), rest) := by
  have comma : ¬ ','.isDigit ∧ ',' ≠ '.' ∧ ',' ≠ 'e' ∧ ',' ≠ 'E' := by decide
  have brace : ¬ '}'.isDigit ∧ '}' ≠ '.' ∧ '}' ≠ 'e' ∧ '}' ≠ 'E' := by decide
  induction fields generalizing field count with
  | nil =>
      obtain ⟨count, rfl⟩ := Nat.exists_eq_add_of_lt enough
      have follows := follows_append blank (follows_cons brace rest)
      obtain ⟨more, moreBlank, parsed⟩ :=
        (readBack field List.mem_cons_self).member (names field List.mem_cons_self) follows indent
      rw [fieldsText_first, fieldsText, List.append_nil, List.append_assoc]
      rw [← skip_lineBreak] at parsed
      apply parseItems_last parsed
      rw [skip_append moreBlank, skip_append blank]
      exact skip_cons (by decide) _
  | cons next fields inductionHypothesis =>
      obtain ⟨count, rfl⟩ := Nat.exists_eq_add_of_lt enough
      have behind := inductionHypothesis (fun entry membership =>
        readBack entry (List.mem_cons_of_mem _ membership)) (fun entry membership =>
        names entry (List.mem_cons_of_mem _ membership)) (Nat.lt_of_succ_lt_succ enough)
      rw [fieldsText_first, fieldsText_next, List.append_assoc, List.append_assoc]
      obtain ⟨more, moreBlank, parsed⟩ :=
        (readBack field List.mem_cons_self).member (names field List.mem_cons_self)
          (follows_cons comma _) indent
      rw [← skip_lineBreak] at parsed
      refine parseItems_more parsed (by decide) ?_ behind
      rw [skip_append moreBlank]
      exact skip_cons (by decide) _

theorem text_object (fields : List (String × ValueTree)) (indent : UInt64) (rest : List Char) :
    (ValueTree.object fields).text opts indent ++ rest =
      '{' :: (fieldsText opts fields (indent + opts.indent) true ++
        ((if fields.isEmpty then [] else lineBreak opts indent) ++
          '}' :: ((if opts.pretty && indent = 0 then ['\n'] else []) ++ rest))) := by
  simp only [text, List.append_assoc, List.cons_append]

/-- A tree without characters that need an escape is read back. -/
theorem readBack_of_spelled {tree : ValueTree} (spelled : tree.Spelled) {fuel : Nat}
    (enough : tree.size ≤ fuel) : ReadBack opts (parseValue fuel) tree := by
  obtain ⟨fuel, rfl⟩ : ∃ less, fuel = less + 1 :=
    Nat.exists_eq_succ_of_ne_zero (Nat.ne_of_gt ((one_le_size tree).trans enough))
  intro rest follows indent
  induction tree generalizing fuel rest indent with
  | null => exact ⟨[], List.forall_mem_nil _, rfl⟩
  | integer value =>
      obtain ⟨first, behind, digits, start, parsed⟩ := parseNumber_toString value follows
      refine ⟨[], List.forall_mem_nil _, ?_⟩
      rw [text, digits, List.cons_append, parseValue_number start, ← List.cons_append, parsed]
      rfl
  | string characters =>
      have parsed := parseString_plain spelled rest
      refine ⟨[], List.forall_mem_nil _, ?_⟩
      have quoted : (ValueTree.string characters).text opts indent ++ rest =
          '"' :: (characters ++ '"' :: rest) := by
        simp only [text, List.append_assoc, List.cons_append, List.nil_append]
      rw [quoted, parseValue, if_pos rfl, parsed]
      rfl
  | object fields inductionHypothesis =>
      refine ⟨if opts.pretty && indent = 0 then ['\n'] else [], blank_if _ rfl, ?_⟩
      rw [text_object, parseValue, if_neg (by decide), if_neg (by decide), if_pos rfl]
      cases fields with
      | nil =>
          have brace : ¬ isBlank '}' := by decide
          rw [fieldsText, List.isEmpty_nil, if_pos rfl, List.nil_append, List.nil_append,
            parseList_eq_some_iff.mpr (Or.inl ⟨skip_cons brace _, rfl⟩)]
          rfl
      | cons field fields =>
          have bound : fieldsSize (field :: fields) ≤ fuel := Nat.le_of_succ_le_succ enough
          have readBack : ∀ entry ∈ field :: fields, ReadBack opts (parseValue fuel) entry.2 := by
            intro entry membership
            have small := (size_le_of_mem membership).trans bound
            obtain ⟨less, rfl⟩ : ∃ less, fuel = less + 1 :=
              Nat.exists_eq_succ_of_ne_zero (Nat.ne_of_gt ((one_le_size entry.2).trans small))
            intro rest follows indent
            exact inductionHypothesis entry membership
              (fieldsSpelled_iff.mp spelled entry membership).2 less small rest follows indent
          have names : ∀ entry ∈ field :: fields, ∀ char ∈ entry.1.toList, Plain char :=
            fun entry membership => (fieldsSpelled_iff.mp spelled entry membership).1
          have count := (length_le_fieldsSize (field :: fields)).trans bound
          have parsed := parseItems_fieldsText readBack names count
            (blank_lineBreak opts indent)
            ((if opts.pretty && indent = 0 then ['\n'] else []) ++ rest) (indent + opts.indent)
          have differs : ∀ behind,
              skip (fieldsText opts (field :: fields) (indent + opts.indent) true ++
                (lineBreak opts indent ++ '}' ::
                  ((if opts.pretty && indent = 0 then ['\n'] else []) ++ rest))) ≠
                '}' :: behind := by
            intro behind
            rw [fieldsText_first, List.append_assoc, List.append_assoc, skip_lineBreak]
            exact fun same => absurd (List.cons.inj same).1 (by decide)
          rw [List.isEmpty_cons, if_neg Bool.false_ne_true,
            parseList_eq_some_iff.mpr (Or.inr ⟨differs, parsed⟩)]
          rfl

/-- The whole output is one document. -/
theorem document_text {tree : ValueTree} (spelled : tree.Spelled) (opts : JsonOptions)
    (indent : UInt64) : Document (tree.text opts indent) tree.json := by
  obtain ⟨first, behind, start, visible⟩ := text_visible opts tree indent
  obtain ⟨blanks, blank, parsed⟩ :=
    readBack_of_spelled spelled (Nat.le_refl tree.size) [] follows_nil indent
  have skipped : skip (tree.text opts indent) = tree.text opts indent := by
    rw [start]
    exact skip_cons visible behind
  rw [List.append_nil (tree.text opts indent), ← skipped] at parsed
  exact ⟨tree.size, blanks ++ [], parsed, skip_append blank []⟩

end BinaryReader.ValueTree

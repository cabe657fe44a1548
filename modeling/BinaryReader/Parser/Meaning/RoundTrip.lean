import BinaryReader.Parser.Meaning.Mirrors
import BinaryReader.Parser.Meaning.Values

/-!
# Values are read back

The values that a file is written with are those that its paths mean, and the
values that the paths of a file mean are written as the file.
-/

namespace BinaryReader

/-- What holds for the empty scope, and for a scope when it does for all scopes behind its first
declaration, holds for all scopes. -/
@[elab_as_elim]
theorem Scope.induction {motive : Scope → Prop} (nil : motive [])
    (cons : ∀ decl earlier, (∀ inner, inner <:+ earlier → motive inner) →
      motive (decl :: earlier)) (scope : Scope) : motive scope := by
  have all : ∀ inner, inner <:+ scope → motive inner := by
    induction scope with
    | nil =>
        intro inner suffix_
        rw [List.suffix_nil.mp suffix_]
        exact nil
    | cons decl earlier inductionHypothesis =>
        intro inner suffix_
        rcases List.suffix_cons_iff.mp suffix_ with rfl | behind
        · exact cons decl earlier inductionHypothesis
        · exact inductionHypothesis inner behind
  exact all scope (List.suffix_refl scope)

namespace Scope

theorem find_suffix (scope : Scope) (name : String) : find scope name <:+ scope :=
  List.dropWhile_suffix _

theorem FieldsDistinct.mono {scope inner : Scope} (distinct : FieldsDistinct scope)
    (suffix_ : inner <:+ scope) : FieldsDistinct inner :=
  fun decl membership => distinct decl (suffix_.subset membership)

variable {contents : List UInt8} {earlier : Scope} {values : Values}

section Written

theorem locate_of_written {fields : List FieldDecl} {start : Nat} {name : String}
    {field : FieldDecl} (written : encodeFields earlier fields values <+: contents.drop start)
    (found : fields.find? (fun field => field.name = name) = some field) :
    ∃ place, locate earlier name fields start = some (place, field) ∧
      encodeField earlier field (values.under name) <+: contents.drop place := by
  induction fields generalizing start with
  | nil => cases found
  | cons head fields inductionHypothesis =>
      rw [encodeFields, List.flatMap_cons] at written
      rw [locate]
      by_cases same : head.name = name
      · rw [List.find?_cons_of_pos (by simpa using same)] at found
        cases found
        subst same
        exact ⟨start, if_pos rfl, (List.prefix_append _ _).trans written⟩
      · rw [List.find?_cons_of_neg (by simpa using same)] at found
        obtain ⟨behind, whole⟩ := written
        have next : encodeFields earlier fields values <+:
            contents.drop (start + bytesOf earlier head.typeName) := by
          rw [← List.drop_drop, ← whole, List.append_assoc,
            ← length_encodeField earlier head (values.under head.name), List.drop_left]
          exact List.prefix_append _ _
        rw [if_neg same]
        exact inductionHypothesis next found

theorem leaf_cons {decl : TypeDecl} {name : String} {names : List String} {field : FieldDecl}
    (found : decl.fields.find? (fun field => field.name = name) = some field) {first : TypeDecl}
    {inner : Scope} (type : find earlier field.typeName = first :: inner) :
    leaf (decl :: earlier) (name :: names) = leaf (first :: inner) names := by
  rw [leaf]
  rw [found]
  dsimp only
  rw [type]

theorem AllFit.under {decl : TypeDecl} {name : String} {field : FieldDecl}
    (allFit : AllFit (decl :: earlier) values)
    (found : decl.fields.find? (fun field => field.name = name) = some field) {first : TypeDecl}
    {inner : Scope} (type : find earlier field.typeName = first :: inner) :
    AllFit (first :: inner) (values.under name) := by
  intro names other format leads
  rw [← leaf_cons found type] at leads
  exact allFit (name :: names) other format leads

theorem integerMeaning_of_written {field : FieldDecl} {place : Nat} {format : Nat × Bool}
    {value : Int} (written : field.bytes format.1 value <+: contents.drop place)
    (positive : 1 ≤ format.1) (fits : field.Fits format value) :
    integerMeaning contents field place format = .integer value := by
  have inside := written.length_le
  rw [FieldDecl.length_bytes, List.length_drop] at inside
  have read : (contents.drop place).take format.1 = field.bytes format.1 value := by
    rw [List.prefix_iff_eq_take.mp written, FieldDecl.length_bytes]
  rw [integerMeaning, if_neg (by omega), read, FieldDecl.integer_bytes positive fits]

/-- A type that is written at a byte has the values it is written with. -/
theorem pathMeaning_of_written {scope : Scope} {start : Nat}
    (written : encode scope values <+: contents.drop start) (allFit : AllFit scope values)
    {names : List String} {field : FieldDecl} {format : Nat × Bool}
    (leads : leaf scope names = some (field, format)) :
    pathMeaning contents scope start names = some (.integer (values names)) := by
  induction names generalizing scope start values with
  | nil => cases leads
  | cons name names inductionHypothesis =>
      rcases scope with _ | ⟨decl, earlier⟩
      · cases leads
      rcases found : decl.fields.find? (fun field => field.name = name) with _ | inside
      · rw [leaf, found] at leads
        cases leads
      obtain ⟨place, located, fieldWritten⟩ := locate_of_written written found
      rw [encodeField_eq] at fieldWritten
      rw [pathMeaning, fieldMeaning, located]
      dsimp only
      rcases type : find earlier inside.typeName with _ | ⟨first, inner⟩
      · have direct := leads
        rw [leaf, found] at direct
        dsimp only at direct
        rw [type] at direct fieldWritten
        dsimp only at direct
        split_ifs at direct with last
        obtain ⟨other, lookup, same⟩ := Option.map_eq_some_iff.mp direct
        cases same
        subst last
        rw [lookup] at fieldWritten ⊢
        rw [Option.elim, integerMeaning_of_written fieldWritten (width_of_lookup lookup).1
          (allFit [name] _ _ leads)]
        rfl
      · rw [leaf_cons found type] at leads
        rw [type] at fieldWritten
        exact inductionHypothesis fieldWritten (allFit.under found type) leads

end Written

section Decoded

/-- The values that the paths of a type at a byte of the file mean. -/
def decoded (contents : List UInt8) (scope : Scope) (start : Nat) : Values := fun names =>
  match pathMeaning contents scope start names with
  | some (.integer value) => value
  | _ => 0

theorem locate_append {front behind : List FieldDecl} {field : FieldDecl}
    (fresh : field.name ∉ front.map FieldDecl.name) (start : Nat) :
    locate earlier field.name (front ++ field :: behind) start =
      some (start + sumOf earlier front, field) := by
  induction front generalizing start with
  | nil => exact if_pos rfl
  | cons head front inductionHypothesis =>
      rw [List.map_cons, List.mem_cons, not_or] at fresh
      rw [List.cons_append, locate, if_neg (Ne.symm fresh.1), inductionHypothesis fresh.2, sumOf,
        sumOf, List.map_cons, List.sum_cons, Nat.add_assoc]

theorem bytesOf_of_find_nil {scope : Scope} {name : String} (undeclared : find scope name = []) :
    bytesOf scope name = (builtInFormats.lookup name).elim 0 Prod.fst := by
  induction scope with
  | nil => rfl
  | cons decl earlier inductionHypothesis =>
      rw [find, List.dropWhile_cons] at undeclared
      rw [bytesOf]
      split_ifs at undeclared with different
      rw [if_neg (by simpa using different)]
      exact inductionHypothesis undeclared

theorem sumOf_append (front behind : List FieldDecl) :
    sumOf earlier (front ++ behind) = sumOf earlier front + sumOf earlier behind := by
  rw [sumOf, sumOf, sumOf, List.map_append, List.sum_append]

theorem sumOf_cons (field : FieldDecl) (fields : List FieldDecl) :
    sumOf earlier (field :: fields) = bytesOf earlier field.typeName + sumOf earlier fields := by
  rw [sumOf, sumOf, List.map_cons, List.sum_cons]

theorem encodeFields_eq_take {fields : List FieldDecl} {start : Nat}
    (each : ∀ front field behind, fields = front ++ field :: behind →
      encodeField earlier field (values.under field.name) =
        (contents.drop (start + sumOf earlier front)).take (bytesOf earlier field.typeName)) :
    encodeFields earlier fields values = (contents.drop start).take (sumOf earlier fields) := by
  induction fields generalizing start with
  | nil => rfl
  | cons field fields inductionHypothesis =>
      have head := each [] field fields rfl
      have tail : encodeFields earlier fields values =
          (contents.drop (start + bytesOf earlier field.typeName)).take (sumOf earlier fields) := by
        apply inductionHypothesis
        intro front other behind split
        have next := each (field :: front) other behind (by rw [split]; rfl)
        rwa [sumOf_cons, ← Nat.add_assoc] at next
      rw [encodeFields] at tail
      rw [encodeFields, List.flatMap_cons, tail, head, sumOf_cons, List.take_add, List.drop_drop]
      rfl

theorem decoded_under {decl : TypeDecl} {start place : Nat} {name : String} {field : FieldDecl}
    (located : locate earlier name decl.fields start = some (place, field)) {first : TypeDecl}
    {inner : Scope} (type : find earlier field.typeName = first :: inner) :
    (decoded contents (decl :: earlier) start).under name =
      decoded contents (first :: inner) place := by
  funext names
  rw [Values.under, decoded, decoded, pathMeaning, fieldMeaning]
  rw [located]
  dsimp only
  rw [type]

theorem bytes_decoded {decl : TypeDecl} {start place : Nat} {name : String} {field : FieldDecl}
    (located : locate earlier name decl.fields start = some (place, field))
    (type : find earlier field.typeName = []) {format : Nat × Bool}
    (lookup : builtInFormats.lookup field.typeName = some format)
    (inside : place + format.1 ≤ contents.length) :
    field.bytes format.1 ((decoded contents (decl :: earlier) start).under name []) =
      (contents.drop place).take format.1 := by
  have length : ((contents.drop place).take format.1).length = format.1 := by
    rw [List.length_take, List.length_drop]
    omega
  have value : (decoded contents (decl :: earlier) start).under name [] =
      field.integer format.2 ((contents.drop place).take format.1) := by
    rw [Values.under, decoded, pathMeaning, fieldMeaning]
    rw [located]
    dsimp only
    rw [type]
    dsimp only
    rw [lookup, Option.elim, integerMeaning, if_neg (Nat.not_lt.mpr inside)]
    rfl
  have positive := (width_of_lookup lookup).1
  rw [← length] at positive
  have written := field.bytes_integer format.2 positive
  rw [length] at written
  rw [value, written]

/-- The values of a type that lies in the file are written as the file has it. -/
theorem encode_decoded {scope : Scope} {start : Nat} (distinct : FieldsDistinct scope)
    (inside : start + bytes scope ≤ contents.length) :
    encode scope (decoded contents scope start) = (contents.drop start).take (bytes scope) := by
  induction scope using Scope.induction generalizing start with
  | nil => rfl
  | cons decl earlier inductionHypothesis =>
      rw [encode, bytes]
      apply encodeFields_eq_take
      intro front field behind split
      have different := distinct decl List.mem_cons_self
      rw [split, List.map_append, List.map_cons, List.nodup_append] at different
      have fresh : field.name ∉ front.map FieldDecl.name := fun early =>
        different.2.2 _ early _ List.mem_cons_self rfl
      have located : locate earlier field.name decl.fields start =
          some (start + sumOf earlier front, field) := by
        rw [split]
        exact locate_append fresh start
      rw [bytes, split, sumOf_append, sumOf_cons] at inside
      rw [encodeField_eq]
      rcases type : find earlier field.typeName with _ | ⟨first, inner⟩
      · rw [bytesOf_of_find_nil type] at inside ⊢
        rcases lookup : builtInFormats.lookup field.typeName with _ | format
        · rfl
        · rw [lookup] at inside
          exact bytes_decoded located type lookup (by dsimp only [Option.elim] at inside; omega)
      · obtain ⟨size, -⟩ := bytes_find type
        have suffix_ := find_suffix earlier field.typeName
        rw [type] at suffix_
        dsimp only
        rw [decoded_under located type, ← size]
        apply inductionHypothesis _ suffix_
        · exact distinct.mono (suffix_.trans (List.suffix_cons decl earlier))
        · omega

end Decoded

end Scope

end BinaryReader

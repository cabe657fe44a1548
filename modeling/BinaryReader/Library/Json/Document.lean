import BinaryReader.Library.Json

/-!
# Documents

More fuel does not change what a text is read as, so a text is at most one
document.
-/

namespace Library.Json

def ExtendedBy {Item : Type} (first second : List Char → Option (Item × List Char)) : Prop :=
  ∀ text parsed, first text = some parsed → second text = some parsed

theorem parseItems_extendedBy {Item : Type} {first second : List Char → Option (Item × List Char)}
    (extended : ExtendedBy first second) (close : Char) {fuel more : Nat} (enough : fuel ≤ more) :
    ExtendedBy (parseItems first close fuel) (parseItems second close more) := by
  induction fuel generalizing more with
  | zero =>
      intro text parsed found
      cases found
  | succ fuel inductionHypothesis =>
      intro text parsed found
      obtain ⟨more, rfl⟩ := Nat.exists_eq_add_of_le' (Nat.le_trans (Nat.le_add_left 1 fuel) enough)
      have smaller := inductionHypothesis (Nat.le_of_succ_le_succ enough)
      obtain ⟨item, behind, itemFound, ending⟩ := parseItems_eq_some_iff.mp found
      apply parseItems_eq_some_iff.mpr
      refine ⟨item, behind, extended _ _ itemFound, ?_⟩
      rcases ending with closed | ⟨differs, following, others, comma, othersFound, same⟩
      · exact Or.inl closed
      · exact Or.inr ⟨differs, following, others, comma, smaller _ _ othersFound, same⟩

theorem parseList_extendedBy {Item : Type} {first second : List Char → Option (Item × List Char)}
    (extended : ExtendedBy first second) (close : Char) {fuel more : Nat} (enough : fuel ≤ more) :
    ExtendedBy (parseList first close fuel) (parseList second close more) := by
  intro text parsed found
  apply parseList_eq_some_iff.mpr
  rcases parseList_eq_some_iff.mp found with closed | ⟨differs, itemsFound⟩
  · exact Or.inl closed
  · exact Or.inr ⟨differs, parseItems_extendedBy extended close enough _ _ itemsFound⟩

theorem parseMember_extendedBy {first second : List Char → Option (Json × List Char)}
    (extended : ExtendedBy first second) :
    ExtendedBy (parseMember first) (parseMember second) := by
  intro text parsed found
  obtain ⟨quoted, behind, following, quote, name, colon, value⟩ := parseMember_eq_some_iff.mp found
  exact parseMember_eq_some_iff.mpr
    ⟨quoted, behind, following, quote, name, colon, extended _ _ value⟩

theorem parseValue_extendedBy {fuel more : Nat} (enough : fuel ≤ more) :
    ExtendedBy (parseValue fuel) (parseValue more) := by
  induction fuel generalizing more with
  | zero =>
      intro text parsed found
      cases found
  | succ fuel inductionHypothesis =>
      intro text parsed found
      obtain ⟨more, rfl⟩ := Nat.exists_eq_add_of_le' (Nat.le_trans (Nat.le_add_left 1 fuel) enough)
      have less := Nat.le_of_succ_le_succ enough
      have values := inductionHypothesis less
      cases text with
      | nil => cases found
      | cons char text =>
          rw [parseValue] at found ⊢
          split_ifs at found ⊢
          · exact found
          · obtain ⟨elements, elementsFound, same⟩ := Option.map_eq_some_iff.mp found
            rw [parseList_extendedBy values ']' less _ _ elementsFound, ← same]
            rfl
          · obtain ⟨members, membersFound, same⟩ := Option.map_eq_some_iff.mp found
            rw [parseList_extendedBy (parseMember_extendedBy values) '}' less _ _ membersFound,
              ← same]
            rfl
          · exact found
          · exact found
          · exact found
          · exact found

/-- A text is at most one document. -/
theorem Document.unique {text : List Char} {json other : Json} (document : Document text json)
    (otherDocument : Document text other) : json = other := by
  obtain ⟨fuel, rest, found, _⟩ := document
  obtain ⟨more, otherRest, otherFound, _⟩ := otherDocument
  have same := (parseValue_extendedBy (Nat.le_max_left fuel more) _ _ found).symm.trans
    (parseValue_extendedBy (Nat.le_max_right fuel more) _ _ otherFound)
  cases same
  rfl

end Library.Json

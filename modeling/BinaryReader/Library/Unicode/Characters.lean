import BinaryReader.Library.Unicode

/-!
# Characters

`Char` is the type of scalar values: the code points that are no surrogates.
`utf8` agrees on them with the encoding Lean itself uses for strings, and a text
determines its encodings position by position.
-/

namespace Library.Unicode

def utf16Text (text : List Char) : List UInt16 := text.flatMap fun char => utf16 char.toNat

def utf8Text (text : List Char) : List UInt8 := text.flatMap fun char => utf8 char.toNat

@[simp]
theorem utf16Text_cons (char : Char) (text : List Char) :
    utf16Text (char :: text) = utf16 char.toNat ++ utf16Text text := List.flatMap_cons

@[simp]
theorem utf8Text_nil : utf8Text [] = [] := List.flatMap_nil

@[simp]
theorem utf8Text_cons (char : Char) (text : List Char) :
    utf8Text (char :: text) = utf8 char.toNat ++ utf8Text text := List.flatMap_cons

@[simp]
theorem utf8Text_append (first second : List Char) :
    utf8Text (first ++ second) = utf8Text first ++ utf8Text second := List.flatMap_append

theorem toNat_bound (char : Char) : char.toNat ≤ maxCodePoint := by
  rcases char.valid with low | ⟨_, high⟩
  · exact Nat.le_of_lt (Nat.lt_trans low (by decide))
  · exact Nat.le_of_lt_succ high

theorem toNat_not_surrogate (char : Char) : ¬ (0xd800 ≤ char.toNat ∧ char.toNat < 0xe000) := by
  rintro ⟨low, high⟩
  rcases char.valid with small | ⟨large, _⟩
  · exact absurd low (Nat.not_le_of_lt small)
  · exact absurd large (Nat.not_lt_of_le (Nat.le_of_lt_succ high))

theorem utf8_toNat (char : Char) : utf8 char.toNat = String.utf8EncodeChar char := by
  have bound := toNat_bound char
  change utf8 char.val.toNat = _
  change char.val.toNat ≤ maxCodePoint at bound
  unfold maxCodePoint at bound
  simp only [utf8, shortestExtra, String.utf8EncodeChar]
  generalize char.val.toNat = point at bound ⊢
  by_cases one : point ≤ 0x7f
  · rw [if_pos (by omega), if_pos one]
    simp [form, leadBase, trailing]
  by_cases two : point ≤ 0x7ff
  · rw [if_neg (by omega), if_pos (by omega), if_neg one, if_pos two]
    have lead : leadBase 1 + point / 64 ^ 1 = point / 64 % 0x20 + 0xc0 := by
      simp only [leadBase]
      omega
    rw [form, lead, Nat.add_comm (point % 0x40)]
    rfl
  by_cases three : point ≤ 0xffff
  · rw [if_neg (by omega), if_neg (by omega), if_pos (by omega), if_neg one, if_neg two,
      if_pos three]
    have lead : leadBase 2 + point / 64 ^ 2 = point / 4096 % 0x10 + 0xe0 := by
      simp only [leadBase]
      omega
    rw [form, lead, Nat.add_comm (point % 0x40), Nat.add_comm (point / 64 % 0x40)]
    rfl
  · rw [if_neg (by omega), if_neg (by omega), if_neg (by omega), if_neg one, if_neg two,
      if_neg three]
    have lead : leadBase 3 + point / 64 ^ 3 = point / 262144 % 0x08 + 0xf0 := by
      simp only [leadBase]
      omega
    have nested : point / 4096 = point / 64 / 64 := by omega
    rw [form, lead, nested, Nat.add_comm (point % 0x40), Nat.add_comm (point / 64 % 0x40),
      Nat.add_comm (point / 64 / 64 % 0x40)]
    rfl

@[simp]
theorem length_utf8 (point : Nat) : (utf8 point).length = shortestExtra point + 1 := by
  simp [utf8, form]

theorem eq_of_mem_utf8 {point : Nat} (bound : point < 0x200000) {byte : UInt8}
    (ascii : byte.toNat < 0x80) (member : byte ∈ utf8 point) : point = byte.toNat := by
  obtain ⟨sequence, bytes, value⟩ := exists_utf8 point bound
  rw [← bytes, Sequence.bytes, List.mem_cons] at member
  rcases member with lead | continuation
  · have complete := sequence.complete
    rw [← lead, sequenceLength, if_pos ascii] at complete
    have single : sequence.tail = [] :=
      List.length_eq_zero_iff.mp (Nat.succ.inj complete).symm
    rw [← value, Sequence.value, single, ← lead]
    rfl
  · exact absurd ascii (Nat.not_lt_of_le (sequence.continued byte continuation).1)

theorem char_of_mem_utf8 {char other : Char} (ascii : other.toNat < 0x80)
    (member : UInt8.ofNat other.toNat ∈ utf8 char.toNat) : char = other := by
  have bound : char.toNat < 0x200000 := Nat.lt_of_le_of_lt (toNat_bound char) (by decide)
  have byte : (UInt8.ofNat other.toNat).toNat = other.toNat :=
    (UInt8.toNat_ofNat' ..).trans (Nat.mod_eq_of_lt (Nat.lt_trans ascii (by decide)))
  have same := eq_of_mem_utf8 bound (byte.symm ▸ ascii) member
  exact Char.toNat_inj.mp (same.trans byte)

theorem utf8_injective {point other : Nat} (bound : point < 0x200000)
    (otherBound : other < 0x200000) (same : utf8 point = utf8 other) : point = other := by
  obtain ⟨first, firstBytes, rfl⟩ := exists_utf8 point bound
  obtain ⟨second, secondBytes, rfl⟩ := exists_utf8 other otherBound
  have bytesEq : first.bytes = second.bytes := by rw [firstBytes, same, secondBytes]
  rcases List.cons.inj bytesEq with ⟨lead, tail⟩
  rw [Sequence.value, lead, tail, Sequence.value]

/-- The front of a byte string determines the sequence it starts with. -/
theorem utf8_append_inj {point other : Nat} (bound : point < 0x200000)
    (otherBound : other < 0x200000) {behind otherBehind : List UInt8}
    (same : utf8 point ++ behind = utf8 other ++ otherBehind) :
    point = other ∧ behind = otherBehind := by
  obtain ⟨first, firstBytes, _⟩ := exists_utf8 point bound
  obtain ⟨second, secondBytes, _⟩ := exists_utf8 other otherBound
  rw [← firstBytes, ← secondBytes] at same
  have lead : first.lead = second.lead := (List.cons.inj same).1
  have size : first.tail.length + 1 = second.tail.length + 1 := by
    rw [← first.complete, ← second.complete, lead]
  rcases List.append_inj same size with ⟨sequence, rest⟩
  rw [firstBytes, secondBytes] at sequence
  exact ⟨utf8_injective bound otherBound sequence, rest⟩

theorem utf16_append_inj {char other : Char} {behind otherBehind : List UInt16}
    (same : utf16 char.toNat ++ behind = utf16 other.toNat ++ otherBehind) :
    char = other ∧ behind = otherBehind := by
  have bound := toNat_bound char
  have otherBound := toNat_bound other
  have single := toNat_not_surrogate char
  have otherSingle := toNat_not_surrogate other
  rw [← Char.toNat_inj]
  unfold maxCodePoint at bound otherBound
  generalize char.toNat = point at *
  generalize other.toNat = otherPoint at *
  unfold utf16 at same
  split_ifs at same <;>
    simp only [List.cons_append, List.nil_append, List.cons.injEq, ← UInt16.toNat_inj,
      UInt16.toNat_ofNat'] at same
  · exact ⟨by omega, same.2⟩
  · omega
  · omega
  · exact ⟨by omega, same.2.2⟩

/-- A code of which no word is empty and whose words can be told apart at the front of
any text determines what it encodes. -/
theorem flatMap_injective {Item Piece : Type*} {code : Item → List Piece}
    (nonempty : ∀ item, code item ≠ [])
    (front : ∀ {item other behind otherBehind},
      code item ++ behind = code other ++ otherBehind → item = other ∧ behind = otherBehind)
    {items others : List Item} (same : items.flatMap code = others.flatMap code) :
    items = others := by
  have visible : ∀ item rest, List.flatMap code (item :: rest) ≠ [] := by
    intro item rest empty
    rw [List.flatMap_cons] at empty
    exact nonempty item (List.append_eq_nil_iff.mp empty).1
  induction items generalizing others with
  | nil =>
      cases others with
      | nil => rfl
      | cons other others => exact absurd same.symm (visible other others)
  | cons item items inductionHypothesis =>
      cases others with
      | nil => exact absurd same (visible item items)
      | cons other others =>
          rw [List.flatMap_cons, List.flatMap_cons] at same
          rcases front same with ⟨rfl, behind⟩
          rw [inductionHypothesis behind]

theorem utf8Text_injective {text other : List Char} (same : utf8Text text = utf8Text other) :
    text = other := by
  have valid : ∀ char : Char, char.toNat < 0x200000 := fun char =>
    Nat.lt_of_le_of_lt (toNat_bound char) (by decide)
  apply flatMap_injective _ _ same
  · intro char
    exact List.cons_ne_nil _ _
  · intro char first behind otherBehind equal
    rcases utf8_append_inj (valid char) (valid first) equal with ⟨point, rest⟩
    exact ⟨Char.toNat_inj.mp point, rest⟩

theorem utf16Text_injective {text other : List Char} (same : utf16Text text = utf16Text other) :
    text = other := by
  apply flatMap_injective _ utf16_append_inj same
  intro char
  unfold utf16
  split_ifs <;> exact List.cons_ne_nil _ _

theorem flatMap_eq_flatMap_iff {Item Piece : Type*} {items : List Item}
    {first second : Item → List Piece}
    (lengths : ∀ item ∈ items, (first item).length = (second item).length) :
    items.flatMap first = items.flatMap second ↔ ∀ item ∈ items, first item = second item := by
  induction items with
  | nil => simp
  | cons item items inductionHypothesis =>
      rcases List.forall_mem_cons.mp lengths with ⟨front, behind⟩
      rw [List.flatMap_cons, List.flatMap_cons, List.forall_mem_cons,
        ← inductionHypothesis behind]
      constructor
      · exact fun same => List.append_inj same front
      · rintro ⟨sameFront, sameBehind⟩
        rw [sameFront, sameBehind]

end Library.Unicode

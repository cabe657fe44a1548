import BinaryReader.Library.Unicode.Characters
import BinaryReader.Public.Codecs.RoundTrip

/-!
# What `Encode` writes for a text

`Encode` forms one code point for each character.  In every second
supplementary plane it is the character one plane below, because the carry into
the plane is lost.
-/

namespace BinaryReader.Utf8Converter

open Library Library.Unicode

/-- The code point `Encode` forms from the code units of a code point. -/
def formedPoint (point : Nat) : Nat :=
  if (point - 0x10000) / 0x10000 % 2 = 1 then point - 0x10000 else point

/-- The planes whose number survives the lost carry: plane 0 and the odd ones. -/
def KeepsPlane (point : Nat) : Prop := point < 0x10000 ∨ point / 0x10000 % 2 = 1

instance : DecidablePred KeepsPlane := fun _ => inferInstanceAs (Decidable (_ ∨ _))

theorem formedPoint_eq_iff (point : Nat) : formedPoint point = point ↔ KeepsPlane point := by
  unfold formedPoint KeepsPlane
  split <;> omega

theorem codePoints_cons {unit : UInt16} (single : ¬ isHighSurrogate unit) (rest : List UInt16) :
    codePoints (unit :: rest) = unit.toUInt32 :: codePoints rest := by
  cases rest with
  | nil => rfl
  | cons next rest =>
      rw [codePoints, if_neg]
      intro pair
      exact single (Bool.and_eq_true_iff.mp pair).1

theorem utf16_supplementary {point : Nat} (large : 0x10000 ≤ point) (bound : point ≤ maxCodePoint) :
    ∃ high low, utf16 point = [high, low] ∧ isHighSurrogate high ∧ isLowSurrogate low ∧
      high.toNat = 0xd800 + (point - 0x10000) / 1024 ∧ low.toNat = 0xdc00 + point % 1024 := by
  unfold maxCodePoint at bound
  have same : (point - 0x10000) % 1024 = point % 1024 := by omega
  have high : (UInt16.ofNat (0xd800 + (point - 0x10000) / 1024)).toNat =
      0xd800 + (point - 0x10000) / 1024 := by
    rw [UInt16.toNat_ofNat']
    omega
  have low : (UInt16.ofNat (0xdc00 + point % 1024)).toNat = 0xdc00 + point % 1024 := by
    rw [UInt16.toNat_ofNat']
    omega
  have limits : (0xd800 : UInt16).toNat = 0xd800 ∧ (0xdbff : UInt16).toNat = 0xdbff ∧
      (0xdc00 : UInt16).toNat = 0xdc00 ∧ (0xdfff : UInt16).toNat = 0xdfff :=
    ⟨rfl, rfl, rfl, rfl⟩
  have units : utf16 point =
      [.ofNat (0xd800 + (point - 0x10000) / 1024), .ofNat (0xdc00 + point % 1024)] := by
    rw [utf16, if_neg (Nat.not_lt_of_le large), same]
  have surrogates : isHighSurrogate (.ofNat (0xd800 + (point - 0x10000) / 1024)) ∧
      isLowSurrogate (.ofNat (0xdc00 + point % 1024)) := by
    simp only [isHighSurrogate, isLowSurrogate, Bool.and_eq_true, decide_eq_true_eq,
      UInt16.le_iff_toNat_le, high, low, limits]
    omega
  exact ⟨_, _, units, surrogates.1, surrogates.2, high, low⟩

theorem codePoints_utf16 (char : Char) (rest : List UInt16) :
    ∃ formed : UInt32, formed.toNat = formedPoint char.toNat ∧
      codePoints (utf16 char.toNat ++ rest) = formed :: codePoints rest := by
  have bound := toNat_bound char
  by_cases small : char.toNat < 0x10000
  · have value : (UInt16.ofNat char.toNat).toNat = char.toNat := by
      rw [UInt16.toNat_ofNat', Nat.mod_eq_of_lt small]
    have single : ¬ isHighSurrogate (.ofNat char.toNat) := by
      simp only [isHighSurrogate, Bool.and_eq_true, decide_eq_true_eq, UInt16.le_iff_toNat_le,
        value]
      rintro ⟨low, high⟩
      exact toNat_not_surrogate char ⟨low, Nat.lt_of_le_of_lt high (by decide)⟩
    refine ⟨UInt16.toUInt32 (.ofNat char.toNat), ?_, ?_⟩
    · rw [UInt16.toNat_toUInt32, value]
      exact ((formedPoint_eq_iff _).mpr (Or.inl small)).symm
    · rw [utf16, if_pos small]
      exact codePoints_cons single rest
  · obtain ⟨high, low, units, isHigh, isLow, highValue, lowValue⟩ :=
      utf16_supplementary (Nat.le_of_not_lt small) bound
    refine ⟨combineSurrogates high low, ?_, ?_⟩
    · rw [combineSurrogates_toNat, keptPayload, highValue, lowValue]
      unfold formedPoint maxCodePoint at *
      split_ifs <;> omega
    · rw [units]
      exact if_pos (Bool.and_eq_true_iff.mpr ⟨isHigh, isLow⟩)

/-- A text is encoded character by character. -/
theorem encodeLoop_utf16Text (text : List Char) :
    encodeLoop (utf16Text text) = text.flatMap fun char => utf8 (formedPoint char.toNat) := by
  induction text with
  | nil => rfl
  | cons char text inductionHypothesis =>
      obtain ⟨formed, value, points⟩ := codePoints_utf16 char (utf16Text text)
      have bound : formed.toNat < 0x200000 := by
        have small := toNat_bound char
        rw [value, formedPoint]
        unfold maxCodePoint at small
        split <;> omega
      rw [utf16Text_cons, encodeLoop_eq, points, List.flatMap_cons, ← encodeLoop_eq,
        inductionHypothesis, pushBytes_eq bound, value, List.flatMap_cons]

theorem formedPoint_le (point : Nat) : formedPoint point ≤ point := by
  unfold formedPoint
  split <;> omega

theorem length_utf8_formedPoint (point : Nat) :
    (utf8 (formedPoint point)).length = (utf8 point).length := by
  simp only [length_utf8, shortestExtra, formedPoint]
  split_ifs <;> omega

/-- `Encode` writes the standard encoding of a text exactly when all its
characters are in plane 0 or in an odd plane. -/
theorem encode_utf16Text_iff (self : Utf8Converter) (text : List Char) (output : List UInt8) :
    (self.encode (utf16Text text) output).2.2 = output ++ text.flatMap String.utf8EncodeChar ↔
      ∀ char ∈ text, KeepsPlane char.toNat := by
  have standard : text.flatMap String.utf8EncodeChar = utf8Text text :=
    List.flatMap_congr fun char _ => (utf8_toNat char).symm
  rw [encode, List.append_right_inj, standard, encodeLoop_utf16Text, utf8Text,
    flatMap_eq_flatMap_iff fun char _ => length_utf8_formedPoint char.toNat]
  apply forall₂_congr
  intro char _
  rw [← formedPoint_eq_iff]
  have bound := toNat_bound char
  have formed := formedPoint_le char.toNat
  unfold maxCodePoint at bound
  constructor
  · exact utf8_injective (by omega) (by omega)
  · exact congrArg utf8

/-- The pair of U+20000 is written as the bytes of U+10000. -/
theorem not_encode_utf16Text :
    (({} : Utf8Converter).encode (utf16Text [Char.ofNat 0x20000]) []).2.2 =
        [0xf0, 0x90, 0x80, 0x80] ∧
      (({} : Utf8Converter).encode (utf16Text [Char.ofNat 0x20000]) []).2.2 ≠
        [Char.ofNat 0x20000].flatMap String.utf8EncodeChar := by
  decide

end BinaryReader.Utf8Converter

import BinaryReader.Parser.DefinitionParser
import BinaryReader.Public.Codecs.RoundTrip

/-!
# The texts of options

The visitor converts the texts of an option to UTF-16 before it looks them up.
The conversion never fails, and a text is found under a name only if it is that
name.
-/

namespace BinaryReader

open Library.Unicode Utf8Converter

def textUnits (text : String) : List UInt16 :=
  text.toList.flatMap fun symbol => pushCodePoint (.ofNat symbol.toNat)

theorem wellFormed_textBytes (text : String) :
    WellFormed (textBytes text) (text.toList.map Char.toNat) := by
  refine ⟨List.forall_mem_map.mpr ?_, by rw [textBytes, List.flatMap_map]⟩
  intro symbol _
  have valid := symbol.valid
  rw [maxCodePoint]
  change symbol.val.toNat ≤ 0x10ffff
  rcases valid with small | large
  · exact le_trans (Nat.le_of_lt small) (by decide)
  · exact Nat.le_of_lt_succ large.2

theorem fromUtf8_text (text : String) :
    UtfString.fromUtf8 (textBytes text) = .ok ⟨textUnits text⟩ := by
  obtain ⟨sequences, shaped, values, -⟩ := (wellFormed_textBytes text).exists_sequences
  obtain ⟨decoded, returned, status, -, outputEq, -, -⟩ := decode_wellShaped shaped {}
  have converted := congrArg (List.flatMap fun point => pushCodePoint (.ofNat point)) values
  rw [List.flatMap_map, List.flatMap_map] at converted
  have output : decoded.output = textUnits text := outputEq.trans converted
  rw [UtfString.fromUtf8, getCodec_utf8, fromEncoding_utf8 returned, status, if_neg (by decide),
    output]
  rfl

theorem pushCodePoint_symbol (symbol : Char) :
    ∃ first rest, pushCodePoint (.ofNat symbol.toNat) = first :: rest ∧
      (symbol.toNat < 128 → first = .ofNat symbol.toNat ∧ rest = []) ∧
      (128 ≤ symbol.toNat → 128 ≤ first.toNat) := by
  have bound : symbol.toNat ≤ maxCodePoint :=
    (wellFormed_textBytes (.singleton symbol)).1 symbol.toNat (by simp)
  by_cases limit : symbol.toNat = 0xffff
  · exact ⟨0xffff, [0xdfff], by rw [limit]; decide, by omega, fun _ => by decide⟩
  · rw [pushCodePoint_ofNat bound limit, utf16]
    split
    next small =>
      refine ⟨_, _, rfl, fun _ => ⟨rfl, rfl⟩, ?_⟩
      intro large
      rw [UInt16.toNat_ofNat']
      omega
    next large =>
      unfold maxCodePoint at bound
      refine ⟨_, _, rfl, ?_, ?_⟩
      · intro small
        omega
      · intro _
        rw [UInt16.toNat_ofNat']
        omega

/-- The units of some characters are the ASCII letters of a name exactly when the characters
are. -/
theorem pushCodePoints_eq_letters (symbols letters : List Char)
    (ascii : ∀ letter ∈ letters, letter.toNat < 128) :
    (symbols.flatMap fun symbol => pushCodePoint (.ofNat symbol.toNat)) =
      (letters.map fun letter => .ofNat letter.toNat) ↔ symbols = letters := by
  induction symbols generalizing letters with
  | nil => cases letters <;> simp
  | cons symbol symbols inductionHypothesis =>
      obtain ⟨first, rest, pushed, small, large⟩ := pushCodePoint_symbol symbol
      cases letters with
      | nil =>
          rw [List.flatMap_cons, pushed]
          simp
      | cons letter letters =>
          obtain ⟨letterAscii, lettersAscii⟩ := List.forall_mem_cons.mp ascii
          rw [List.flatMap_cons, pushed, List.map_cons, List.cons_append, List.cons.injEq,
            List.cons.injEq]
          have letterUnit : (UInt16.ofNat letter.toNat).toNat = letter.toNat := by
            rw [UInt16.toNat_ofNat']
            omega
          by_cases symbolAscii : symbol.toNat < 128
          · obtain ⟨rfl, rfl⟩ := small symbolAscii
            have same : UInt16.ofNat symbol.toNat = .ofNat letter.toNat ↔ symbol = letter := by
              rw [← UInt16.toNat_inj, letterUnit, UInt16.toNat_ofNat', ← Char.toNat_inj]
              omega
            rw [same, List.nil_append, inductionHypothesis letters lettersAscii]
          · have unit := large (Nat.le_of_not_lt symbolAscii)
            apply iff_of_false
            · rintro ⟨rfl, -⟩
              omega
            · rintro ⟨rfl, -⟩
              exact symbolAscii letterAscii

/-- A text is read as an ASCII name exactly when it is that name. -/
theorem textUnits_eq_u16 (name : String)
    (ascii : (name.toList.all fun symbol => decide (symbol.toNat < 128)) = true)
    (text : String) : textUnits text = u16 name ↔ text = name := by
  have small : ∀ symbol ∈ name.toList, symbol.toNat < 128 := by simpa using ascii
  rw [textUnits, u16, pushCodePoints_eq_letters _ _ small, String.toList_inj]

def namedType (name : String) : OptionType :=
  if name = "signedness" then .signedness
  else if name = "byte_order" ∨ name = "order" then .byteOrder
  else .unknown

theorem getOptionType_text (name : String) :
    getOptionType ⟨textUnits name⟩ = namedType name := by
  simp only [getOptionType, namedType,
    textUnits_eq_u16 "signedness" rfl,
    textUnits_eq_u16 "byte_order" rfl,
    textUnits_eq_u16 "order" rfl]

def namedValue (text : String) : Option OptionValue :=
  if text = "signed" then some (.signedness .signed)
  else if text = "unsigned" then some (.signedness .unsigned)
  else if text = "big" ∨ text = "network" then some (.byteOrder .bigEndian)
  else if text = "little" then some (.byteOrder .littleEndian)
  else none

theorem named_text (text : String) :
    Options.named (textUnits text) = (namedValue text).map fun value => (value.type, value) := by
  simp only [Options.named, kOptionData, List.findSome?, Options.findValue, List.find?,
    textUnits_eq_u16 "signed" rfl,
    textUnits_eq_u16 "unsigned" rfl,
    textUnits_eq_u16 "big" rfl,
    textUnits_eq_u16 "network" rfl,
    textUnits_eq_u16 "little" rfl, namedValue]
  by_cases signed : text = "signed"
  · simp [signed, OptionValue.type]
  by_cases unsigned : text = "unsigned"
  · simp [unsigned, OptionValue.type]
  by_cases big : text = "big"
  · simp [big, OptionValue.type]
  by_cases network : text = "network"
  · simp [network, OptionValue.type]
  by_cases little : text = "little"
  · simp [little, OptionValue.type]
  · simp [signed, unsigned, big, network, little]

end BinaryReader

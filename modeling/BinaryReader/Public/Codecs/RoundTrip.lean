import BinaryReader.Public.Codecs.WellFormed
import Mathlib.Data.Nat.Bitwise

/-!
# Encoding and decoding back

`reencode` is what a string becomes when it is encoded and the bytes are decoded:
the code points `Encode` forms, converted to code units again.  It is the string
itself when the two limits that the converter gets wrong are avoided.
-/

namespace BinaryReader.Utf8Converter

open Library Library.Unicode

def codePoints : List UInt16 → List UInt32
  | [] => []
  | [unit] => [unit.toUInt32]
  | unit :: next :: rest =>
      if isHighSurrogate unit && isLowSurrogate next then
        combineSurrogates unit next :: codePoints rest
      else
        unit.toUInt32 :: codePoints (next :: rest)

theorem encodeLoop_eq (units : List UInt16) :
    encodeLoop units = (codePoints units).flatMap pushBytes := by
  fun_induction codePoints units with
  | case1 => rfl
  | case2 unit => simp [encodeLoop]
  | case3 unit next rest pair inductionHypothesis =>
      rw [encodeLoop, if_pos pair, inductionHypothesis, List.flatMap_cons]
  | case4 unit next rest single inductionHypothesis =>
      rw [encodeLoop, if_neg single, inductionHypothesis, List.flatMap_cons]

/-- The payload of a high surrogate without the bit whose carry is lost. -/
def keptPayload (high : UInt16) : Nat :=
  high.toNat % 1024 - if high.toNat / 64 % 2 = 1 then 64 else 0

theorem lose_carry (payload : Fin 1024) :
    payload.val <<< 10 ||| 64 <<< 10 =
      (64 + (payload.val - if payload.val / 64 % 2 = 1 then 64 else 0)) <<< 10 := by
  revert payload
  decide +kernel

theorem surrogatePayload_toNat (unit : UInt16) :
    (unit &&& 0x3ff).toUInt32.toNat = unit.toNat % 1024 := by
  rw [UInt16.toNat_toUInt32, UInt16.toNat_and]
  exact Nat.and_two_pow_sub_one_eq_mod unit.toNat 10

theorem combineSurrogates_toNat (high low : UInt16) :
    (combineSurrogates high low).toNat = 0x10000 + keptPayload high * 1024 + low.toNat % 1024 := by
  have small : low.toNat % 1024 < 2 ^ 10 := Nat.mod_lt _ (by decide)
  have shifted : ((high &&& 0x3ff).toUInt32 <<< 10).toNat = (high.toNat % 1024) <<< 10 := by
    have ten : (10 : UInt32).toNat % 32 = 10 := by decide
    rw [UInt32.toNat_shiftLeft, surrogatePayload_toNat, ten, Nat.mod_eq_of_lt]
    rw [Nat.shiftLeft_eq]
    omega
  have marked : ((low &&& 0x3ff).toUInt32 + 0x10000).toNat = 64 <<< 10 ||| low.toNat % 1024 := by
    rw [UInt32.toNat_add, surrogatePayload_toNat, ← Nat.shiftLeft_add_eq_or_of_lt small]
    change (low.toNat % 1024 + 0x10000) % 2 ^ 32 = 0x10000 + low.toNat % 1024
    omega
  have bit : high.toNat % 1024 / 64 % 2 = high.toNat / 64 % 2 := by omega
  have kept := lose_carry ⟨high.toNat % 1024, Nat.mod_lt _ (by decide)⟩
  simp only [bit] at kept
  rw [combineSurrogates, UInt32.toNat_or, shifted, marked, ← Nat.or_assoc, kept,
    ← Nat.shiftLeft_add_eq_or_of_lt small, Nat.shiftLeft_eq, keptPayload]
  omega

theorem keptPayload_lt (high : UInt16) : keptPayload high < 1024 := by
  unfold keptPayload
  omega

theorem codePoints_bound (units : List UInt16) :
    ∀ codePoint ∈ codePoints units, codePoint.toNat ≤ maxCodePoint := by
  have single (unit : UInt16) : unit.toUInt32.toNat ≤ maxCodePoint := by
    have small := unit.toNat_lt
    rw [UInt16.toNat_toUInt32, maxCodePoint]
    omega
  fun_induction codePoints units with
  | case1 => simp
  | case2 unit => simpa using single unit
  | case3 unit next rest pair inductionHypothesis =>
      have small := keptPayload_lt unit
      refine List.forall_mem_cons.mpr ⟨?_, inductionHypothesis⟩
      rw [combineSurrogates_toNat, maxCodePoint]
      omega
  | case4 unit next rest _ inductionHypothesis =>
      exact List.forall_mem_cons.mpr ⟨single unit, inductionHypothesis⟩

/-- What `Encode` writes is well-formed UTF-8, for every string. -/
theorem wellFormed_encodeLoop (units : List UInt16) :
    WellFormed (encodeLoop units) ((codePoints units).map UInt32.toNat) := by
  have bound := codePoints_bound units
  refine ⟨List.forall_mem_map.mpr bound, ?_⟩
  rw [encodeLoop_eq, List.flatMap_map]
  refine List.flatMap_congr fun codePoint membership => pushBytes_eq ?_
  have small := bound codePoint membership
  unfold maxCodePoint at small
  omega

def reencode (units : List UInt16) : List UInt16 := (codePoints units).flatMap pushCodePoint

theorem decode_encode (units : List UInt16) (error : ErrorInfo) :
    ∃ decoded, ({} : Utf8Converter).decode (encodeLoop units) [] error = .ok decoded ∧
      decoded.status = .success ∧ decoded.converter.tempUsed = 0 ∧
      decoded.output = reencode units := by
  obtain ⟨sequences, shaped, values, -⟩ := (wellFormed_encodeLoop units).exists_sequences
  obtain ⟨decoded, returned, status, -, outputEq, coherent, pending⟩ :=
    decode_wellShaped shaped error
  refine ⟨decoded, returned, status, ?_, ?_⟩
  · rw [← coherent.length_pending, pending, List.length_nil]
  · have converted := congrArg (List.flatMap fun point => pushCodePoint (.ofNat point)) values
    rw [List.flatMap_map, List.flatMap_map] at converted
    simp only [UInt32.ofNat_toNat] at converted
    exact outputEq.trans converted

theorem carryBit_eq_zero_iff (high : UInt16) : high &&& 0x40 = 0 ↔ high.toNat / 64 % 2 = 0 := by
  rw [← UInt16.toNat_inj, UInt16.toNat_and]
  change high.toNat &&& 2 ^ 6 = 0 ↔ _
  rw [Nat.and_two_pow, Nat.testBit_eq_decide_div_mod_eq]
  simp

theorem pushCodePoint_unit {unit : UInt16} (standard : unit ≠ 0xffff) :
    pushCodePoint unit.toUInt32 = [unit] := by
  have small := unit.toNat_lt
  have value : unit.toUInt32 = .ofNat unit.toNat := by
    rw [← UInt16.toNat_toUInt32, UInt32.ofNat_toNat]
  have notLimit : unit.toNat ≠ 0xffff := fun limit => standard (UInt16.toNat_inj.mp limit)
  rw [value, pushCodePoint_ofNat (by unfold maxCodePoint; omega) notLimit, utf16,
    if_pos (by omega), UInt16.ofNat_toNat]

/-- A pair comes back exactly when no carry is lost. -/
theorem pushCodePoint_pair {high low : UInt16} (isHigh : isHighSurrogate high)
    (isLow : isLowSurrogate low) :
    ∃ restored, pushCodePoint (combineSurrogates high low) = [restored, low] ∧
      (restored = high ↔ high &&& 0x40 = 0) := by
  have kept := keptPayload_lt high
  have value : combineSurrogates high low =
      .ofNat (0x10000 + keptPayload high * 1024 + low.toNat % 1024) := by
    rw [← combineSurrogates_toNat, UInt32.ofNat_toNat]
  simp only [isHighSurrogate, isLowSurrogate, Bool.and_eq_true, decide_eq_true_eq,
    UInt16.le_iff_toNat_le] at isHigh isLow
  change 0xd800 ≤ high.toNat ∧ high.toNat ≤ 0xdbff at isHigh
  change 0xdc00 ≤ low.toNat ∧ low.toNat ≤ 0xdfff at isLow
  refine ⟨.ofNat (0xd800 + keptPayload high), ?_, ?_⟩
  · rw [value, pushCodePoint_ofNat (by unfold maxCodePoint; omega) (by omega), utf16,
      if_neg (by omega)]
    have upper : (0x10000 + keptPayload high * 1024 + low.toNat % 1024 - 0x10000) / 1024 =
        keptPayload high := by omega
    have lower : 0xdc00 + (0x10000 + keptPayload high * 1024 + low.toNat % 1024 - 0x10000) % 1024 =
        low.toNat := by omega
    rw [upper, lower, UInt16.ofNat_toNat]
  · rw [carryBit_eq_zero_iff, ← UInt16.toNat_inj, UInt16.toNat_ofNat']
    unfold keptPayload
    split_ifs with odd <;> omega

theorem pushCodePoint_limit : pushCodePoint (0xffff : UInt16).toUInt32 = [0xffff, 0xdfff] := by
  decide

theorem reencode_pair {high low : UInt16} (rest : List UInt16)
    (pair : (isHighSurrogate high && isLowSurrogate low) = true) :
    reencode (high :: low :: rest) =
      pushCodePoint (combineSurrogates high low) ++ reencode rest := by
  rw [reencode, codePoints, if_pos pair, List.flatMap_cons, reencode]

theorem reencode_single {unit next : UInt16} (rest : List UInt16)
    (single : ¬ (isHighSurrogate unit && isLowSurrogate next) = true) :
    reencode (unit :: next :: rest) =
      pushCodePoint unit.toUInt32 ++ reencode (next :: rest) := by
  rw [reencode, codePoints, if_neg single, List.flatMap_cons, reencode]

theorem length_pushCodePoint (codePoint : UInt32) : 1 ≤ (pushCodePoint codePoint).length := by
  unfold pushCodePoint
  split <;> simp

theorem length_le_reencode (units : List UInt16) : units.length ≤ (reencode units).length := by
  fun_induction codePoints units with
  | case1 => simp
  | case2 unit => simpa [reencode, codePoints] using length_pushCodePoint unit.toUInt32
  | case3 high low rest pair inductionHypothesis =>
      obtain ⟨isHigh, isLow⟩ := Bool.and_eq_true_iff.mp pair
      obtain ⟨restored, pushed, -⟩ := pushCodePoint_pair isHigh isLow
      rw [reencode_pair rest pair, pushed]
      simpa using inductionHypothesis
  | case4 unit next rest single inductionHypothesis =>
      have one := length_pushCodePoint unit.toUInt32
      rw [reencode_single rest single, List.length_append]
      simp only [List.length_cons] at inductionHypothesis ⊢
      omega

/-- If two adjacent units are a surrogate pair, then its code point needs no carry. -/
def KeepsCarry (high low : UInt16) : Prop :=
  isHighSurrogate high → isLowSurrogate low → high &&& 0x40 = 0

instance : DecidableRel KeepsCarry := fun _ _ => inferInstanceAs (Decidable (_ → _))

def Representable (units : List UInt16) : Prop := 0xffff ∉ units ∧ units.IsChain KeepsCarry

instance (units : List UInt16) : Decidable (Representable units) :=
  inferInstanceAs (Decidable (_ ∧ _))

theorem not_isHighSurrogate {unit : UInt16} (isLow : isLowSurrogate unit) :
    ¬ isHighSurrogate unit := by
  simp only [isHighSurrogate, isLowSurrogate, Bool.and_eq_true, decide_eq_true_eq,
    UInt16.le_iff_toNat_le] at isLow ⊢
  change 0xdc00 ≤ unit.toNat ∧ unit.toNat ≤ 0xdfff at isLow
  change ¬ (0xd800 ≤ unit.toNat ∧ unit.toNat ≤ 0xdbff)
  omega

theorem surrogate_ne_limit {unit : UInt16}
    (surrogate : isHighSurrogate unit ∨ isLowSurrogate unit) : unit ≠ 0xffff := by
  rintro rfl
  revert surrogate
  decide

theorem representable_pair {high low : UInt16} (rest : List UInt16)
    (isHigh : isHighSurrogate high) (isLow : isLowSurrogate low) :
    Representable (high :: low :: rest) ↔ high &&& 0x40 = 0 ∧ Representable rest := by
  have behind : (low :: rest).IsChain KeepsCarry ↔ rest.IsChain KeepsCarry := by
    cases rest with
    | nil => simp
    | cons next rest =>
        rw [List.isChain_cons_cons]
        exact and_iff_right fun isHigh' => absurd isHigh' (not_isHighSurrogate isLow)
  have highStandard := surrogate_ne_limit (Or.inl isHigh)
  have lowStandard := surrogate_ne_limit (Or.inr isLow)
  simp only [Representable, List.isChain_cons_cons, behind, List.mem_cons, KeepsCarry, isHigh,
    isLow, Ne.symm highStandard, Ne.symm lowStandard, false_or, forall_const]
  exact and_left_comm

theorem representable_single {unit next : UInt16} (rest : List UInt16)
    (single : ¬ (isHighSurrogate unit && isLowSurrogate next) = true) :
    Representable (unit :: next :: rest) ↔ unit ≠ 0xffff ∧ Representable (next :: rest) := by
  have unpaired : KeepsCarry unit next :=
    fun isHigh isLow => absurd (Bool.and_eq_true_iff.mpr ⟨isHigh, isLow⟩) single
  rw [Representable, List.isChain_cons_cons, and_iff_right unpaired, List.mem_cons, not_or,
    and_assoc, Representable, ne_comm]

theorem reencode_eq_iff (units : List UInt16) : reencode units = units ↔ Representable units := by
  fun_induction codePoints units with
  | case1 => simp [reencode, codePoints, Representable]
  | case2 unit =>
      by_cases standard : unit = 0xffff
      · subst standard
        exact iff_of_false (by decide) (by decide)
      · refine iff_of_true ?_ ⟨by simpa using Ne.symm standard, by simp⟩
        simpa [reencode, codePoints] using pushCodePoint_unit standard
  | case3 high low rest pair inductionHypothesis =>
      obtain ⟨isHigh, isLow⟩ := Bool.and_eq_true_iff.mp pair
      obtain ⟨restored, pushed, restored_iff⟩ := pushCodePoint_pair isHigh isLow
      rw [reencode_pair rest pair, pushed, representable_pair rest isHigh isLow,
        ← inductionHypothesis, ← restored_iff]
      simp
  | case4 unit next rest single inductionHypothesis =>
      rw [reencode_single rest single, representable_single rest single, ← inductionHypothesis]
      by_cases standard : unit = 0xffff
      · subst standard
        rw [pushCodePoint_limit]
        refine iff_of_false ?_ (by simp)
        intro same
        have lengths := congrArg List.length same
        have grows := length_le_reencode (next :: rest)
        simp only [List.length_append, List.length_cons, List.length_nil] at lengths grows
        omega
      · simp [pushCodePoint_unit standard, standard]

def RoundTrips (units : List UInt16) : Prop :=
  ∃ decoded, ({} : Utf8Converter).decode (({} : Utf8Converter).encode units []).2.2 [] {} =
      .ok decoded ∧
    decoded.status = .success ∧ decoded.converter.tempUsed = 0 ∧ decoded.output = units

theorem roundTrips_iff_reencode (units : List UInt16) :
    RoundTrips units ↔ reencode units = units := by
  obtain ⟨decoded, returned, status, used, outputEq⟩ := decode_encode units {}
  constructor
  · rintro ⟨other, otherReturned, -, -, same⟩
    cases returned.symm.trans otherReturned
    exact outputEq.symm.trans same
  · intro same
    exact ⟨decoded, returned, status, used, outputEq.trans same⟩

theorem fromUtf8_asUtf8 (units : List UInt16) :
    (UtfString.asUtf8 ⟨units⟩ >>= UtfString.fromUtf8) = .ok ⟨reencode units⟩ := by
  obtain ⟨decoded, returned, status, -, outputEq⟩ := decode_encode units {}
  have encoded : UtfString.asUtf8 ⟨units⟩ = .ok (encodeLoop units) := rfl
  rw [encoded, Checked.ok_bind, UtfString.fromUtf8, getCodec_utf8, fromEncoding_utf8 returned,
    if_neg (by simp [status]), outputEq]
  rfl

/-- A string survives encoding and decoding exactly when it holds no `0xffff`
and no pair of surrogates whose carry is lost. -/
theorem roundTrips_iff (units : List UInt16) :
    (RoundTrips units ↔ Representable units) ∧
      ((UtfString.asUtf8 ⟨units⟩ >>= UtfString.fromUtf8) = .ok ⟨units⟩ ↔ Representable units) := by
  refine ⟨(roundTrips_iff_reencode units).trans (reencode_eq_iff units), ?_⟩
  rw [fromUtf8_asUtf8, ← reencode_eq_iff]
  simp

theorem not_roundTrips : ¬ RoundTrips [0xffff] ∧ ¬ RoundTrips [0xd840, 0xdc00] := by
  simp only [roundTrips_iff_reencode]
  decide

end BinaryReader.Utf8Converter

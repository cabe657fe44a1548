import BinaryReader.Public.Codecs.CodePoint
import BinaryReader.Public.Codecs.Scanning

/-!
# What the UTF-8 codec accepts

`decode` checks the shape of every sequence: a lead byte and the continuation
bytes it announces.  It checks neither that the sequence is the shortest one
nor that its value is a code point, and it holds an unfinished sequence at the
end of its input back for the next call.
-/

namespace BinaryReader

open Library Library.Unicode Utf8Converter

/-- Concatenations of standard encodings.  Encoded surrogates are let through. -/
def WellFormed (bytes : List UInt8) (points : List Nat) : Prop :=
  (∀ point ∈ points, point ≤ maxCodePoint) ∧ bytes = points.flatMap utf8

def WellShaped (bytes : List UInt8) (sequences : List Sequence) (rest : List UInt8) : Prop :=
  bytes = sequences.flatMap Sequence.bytes ++ rest ∧ Unfinished rest

/-- Code units for a sequence, as the standards have them.  Values that are no
code point and the value `0xffff` are left open. -/
def StandardUnits (sequence : Sequence) (converted : List UInt16) : Prop :=
  sequence.value ≤ maxCodePoint → sequence.value ≠ 0xffff → converted = utf16 sequence.value

theorem standardUnits (sequence : Sequence) : StandardUnits sequence (units sequence) :=
  fun bound standard => pushCodePoint_ofNat bound standard

theorem wellShaped_iff {bytes rest : List UInt8} {sequences : List Sequence} :
    WellShaped bytes sequences rest ↔
      ∃ index, sequenceScanner.run bytes = (sequences, .pending index rest) := by
  rw [WellShaped, Scanner.run_pending_iff, splits_iff, scan_incomplete_iff]

theorem decode_status_iff {bytes : List UInt8} {decoded : Decoded} {error : ErrorInfo}
    (reports : Reports decoded error 0 0 (sequenceScanner.run bytes).2) :
    decoded.status ≠ .error ↔ ∃ sequences rest, WellShaped bytes sequences rest := by
  simp only [wellShaped_iff]
  rcases ran : sequenceScanner.run bytes with ⟨sequences, ⟨index, rest⟩ | ⟨index, failure⟩⟩
  · rw [ran] at reports
    exact iff_of_true (by rw [reports.1]; decide) ⟨sequences, rest, index, rfl⟩
  · rw [ran] at reports
    apply iff_of_false (by simp [reports.1])
    rintro ⟨_, _, _, absurdEq⟩
    cases absurdEq

@[simp]
theorem getCodec_utf8 :
    CodecCollection.createDefaultCollection.getCodec "utf8" = some .utf8Converter := rfl

theorem decode_fresh_spec (bytes : List UInt8) (error : ErrorInfo) :
    ∃ decoded, ({} : Utf8Converter).decode bytes [] error = .ok decoded ∧
      decoded.output = (sequenceScanner.run bytes).1.flatMap units ∧
      Reports decoded error 0 0 (sequenceScanner.run bytes).2 :=
  decode_spec (coherent_reset {}) bytes [] error

theorem fromEncoding_utf8 {bytes : List UInt8} {error : ErrorInfo} {decoded : Decoded}
    (returned : ({} : Utf8Converter).decode bytes [] error = .ok decoded) :
    UtfString.fromEncoding bytes (some .utf8Converter) error =
      .ok (if decoded.status = .error then {} else ⟨decoded.output⟩, decoded.error) := by
  simp only [UtfString.fromEncoding, deref_some, Checked.ok_bind, Codec.createCoder, returned]
  split_ifs <;> rfl

/-- Well-formed input splits into the shortest sequences of its code points. -/
theorem WellFormed.exists_sequences {bytes : List UInt8} {points : List Nat}
    (wellFormed : WellFormed bytes points) :
    ∃ sequences, WellShaped bytes sequences [] ∧ sequences.map Sequence.value = points ∧
      sequences.map Sequence.bytes = points.map utf8 := by
  rcases wellFormed with ⟨bound, rfl⟩
  have exists_sequence : ∀ point ∈ points, ∃ sequence : Sequence,
      sequence.bytes = utf8 point ∧ sequence.value = point := by
    intro point membership
    have small := bound point membership
    exact exists_utf8 point (by unfold maxCodePoint at small; omega)
  choose! sequenceOf bytesEq valueEq using exists_sequence
  have sameBytes : (points.map sequenceOf).map Sequence.bytes = points.map utf8 := by
    rw [List.map_map]
    exact List.map_congr_left bytesEq
  refine ⟨points.map sequenceOf, ⟨?_, by simp [Unfinished]⟩, ?_, sameBytes⟩
  · rw [List.append_nil, List.flatMap_def, List.flatMap_def, sameBytes]
  · rw [List.map_map]
    exact (List.map_congr_left valueEq).trans (List.map_id points)

theorem WellShaped.unique {bytes rest otherRest : List UInt8} {sequences others : List Sequence}
    (shaped : WellShaped bytes sequences rest) (otherShaped : WellShaped bytes others otherRest) :
    sequences = others ∧ rest = otherRest := by
  rcases wellShaped_iff.mp shaped with ⟨_, ran⟩
  rcases wellShaped_iff.mp otherShaped with ⟨_, otherRan⟩
  cases ran.symm.trans otherRan
  exact ⟨rfl, rfl⟩

/-- One sequence is well formed only in shortest form and within the code points. -/
theorem wellFormed_bytes {sequence : Sequence} {points : List Nat}
    (wellFormed : WellFormed sequence.bytes points) :
    sequence.value ≤ maxCodePoint ∧ sequence.bytes = utf8 sequence.value := by
  obtain ⟨sequences, shaped, values, bytesEq⟩ := wellFormed.exists_sequences
  have alone : WellShaped sequence.bytes [sequence] [] := ⟨by simp, by simp [Unfinished]⟩
  cases (shaped.unique alone).1
  rw [← values] at bytesEq
  exact ⟨wellFormed.1 _ (by simp [← values]), by simpa using bytesEq⟩

/-- What a fresh converter makes of an input of the right shape. -/
theorem decode_wellShaped {bytes rest : List UInt8} {sequences : List Sequence}
    (shaped : WellShaped bytes sequences rest) (error : ErrorInfo) :
    ∃ decoded, ({} : Utf8Converter).decode bytes [] error = .ok decoded ∧
      decoded.status = .success ∧ decoded.error = error ∧
      decoded.output = sequences.flatMap units ∧ decoded.converter.Coherent ∧
      decoded.converter.pending = rest := by
  obtain ⟨decoded, returned, outputEq, reports⟩ := decode_fresh_spec bytes error
  rcases wellShaped_iff.mp shaped with ⟨index, ran⟩
  rw [ran] at outputEq reports
  rcases reports with ⟨status, sameError, coherent, pending⟩
  exact ⟨decoded, returned, status, sameError, outputEq, coherent, pending⟩

/-- `FromEncoding` accepts exactly the inputs of the right shape, and converts
their complete sequences; the well-formed inputs are among them. -/
theorem fromEncoding_accepts_iff (bytes : List UInt8) (error : ErrorInfo) :
    ∃ decoded text report,
      ({} : Utf8Converter).decode bytes [] error = .ok decoded ∧
      UtfString.fromEncoding bytes
        (CodecCollection.createDefaultCollection.getCodec "utf8") error = .ok (text, report) ∧
      (decoded.status ≠ .error ↔ ∃ sequences rest, WellShaped bytes sequences rest) ∧
      (∀ sequences rest, WellShaped bytes sequences rest →
        report = error ∧ decoded.converter.pending = rest ∧
        ∃ converted, text.utf16Buffer = converted.flatten ∧
          List.Forall₂ StandardUnits sequences converted) ∧
      ∀ points, WellFormed bytes points → 0xffff ∉ points →
        decoded.status ≠ .error ∧ text.utf16Buffer = points.flatMap utf16 := by
  obtain ⟨decoded, returned, outputEq, reports⟩ := decode_fresh_spec bytes error
  have accepts := decode_status_iff reports
  have converts : ∀ sequences rest, WellShaped bytes sequences rest →
      decoded.error = error ∧ decoded.converter.pending = rest ∧
      (if decoded.status = .error then {} else ⟨decoded.output⟩ : UtfString) =
        ⟨sequences.flatMap units⟩ := by
    intro sequences rest shaped
    obtain ⟨_, sameReturned, status, sameError, converted, _, pending⟩ :=
      decode_wellShaped shaped error
    cases returned.symm.trans sameReturned
    exact ⟨sameError, pending, by rw [if_neg (by simp [status]), converted]⟩
  refine ⟨decoded, _, _, returned, fromEncoding_utf8 returned, accepts, ?_, ?_⟩
  · intro sequences rest shaped
    obtain ⟨sameError, pending, converted⟩ := converts sequences rest shaped
    rw [converted]
    refine ⟨sameError, pending, sequences.map units, List.flatMap_def, ?_⟩
    exact List.forall₂_map_right_iff.mpr (List.forall₂_same.mpr fun _ _ => standardUnits _)
  · intro points wellFormed standard
    obtain ⟨sequences, shaped, rfl, -⟩ := wellFormed.exists_sequences
    refine ⟨accepts.mpr ⟨sequences, [], shaped⟩, ?_⟩
    rw [(converts sequences [] shaped).2.2, List.flatMap_map]
    refine List.flatMap_congr fun sequence membership => standardUnits sequence ?_ ?_
    · exact wellFormed.1 _ (List.mem_map_of_mem membership)
    · rintro limit
      exact standard (limit ▸ List.mem_map_of_mem membership)

/-- A truncated sequence, an overlong form and a value above the last code point
are accepted, and none of them is well formed. -/
theorem fromEncoding_accepts_illFormed :
    (∃ decoded, ({} : Utf8Converter).decode [0xc2] [] {} = .ok decoded ∧
      decoded.status ≠ .error ∧ ¬ ∃ points, WellFormed [0xc2] points) ∧
    (∃ decoded, ({} : Utf8Converter).decode [0xc0, 0x80] [] {} = .ok decoded ∧
      decoded.status ≠ .error ∧ ¬ ∃ points, WellFormed [0xc0, 0x80] points) ∧
    (∃ decoded, ({} : Utf8Converter).decode [0xf4, 0x90, 0x80, 0x80] [] {} = .ok decoded ∧
      decoded.status ≠ .error ∧ ¬ ∃ points, WellFormed [0xf4, 0x90, 0x80, 0x80] points) := by
  refine ⟨⟨_, rfl, by decide, ?_⟩, ⟨_, rfl, by decide, ?_⟩, ⟨_, rfl, by decide, ?_⟩⟩
  · rintro ⟨points, wellFormed⟩
    obtain ⟨sequences, shaped, -, -⟩ := wellFormed.exists_sequences
    have truncated : WellShaped [0xc2] [] [0xc2] := ⟨rfl, by simp [Unfinished, sequenceLength]⟩
    exact absurd (shaped.unique truncated).2 (by decide)
  · rintro ⟨points, wellFormed⟩
    let overlong : Sequence := ⟨0xc0, [0x80], rfl, by simp [IsContinuation]⟩
    have formed : WellFormed overlong.bytes points := wellFormed
    exact absurd (wellFormed_bytes formed).2 (by decide +kernel)
  · rintro ⟨points, wellFormed⟩
    let large : Sequence := ⟨0xf4, [0x90, 0x80, 0x80], rfl, by simp [IsContinuation]⟩
    have formed : WellFormed large.bytes points := wellFormed
    exact absurd (wellFormed_bytes formed).1 (by decide +kernel)

end BinaryReader

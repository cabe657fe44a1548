import BinaryReader.Public.Codecs.Scanning

/-!
# Decoding in chunks

The chunks of a stream are fed to one converter until one of them is in error.
Because scanning resumes from what a chunk left pending, the way the stream was
cut cannot be observed.
-/

namespace BinaryReader.Utf8Converter

open Library Library.Unicode

def decodeChunks :
    List (List UInt8) → Utf8Converter → List UInt16 → ErrorInfo → Checked Decoded
  | [], self, output, error => .ok ⟨.success, self, output, error⟩
  | chunk :: chunks, self, output, error => do
      let decoded ← self.decode chunk output error
      if decoded.status = .error then
        return decoded
      decodeChunks chunks decoded.converter decoded.output decoded.error

/-- The status and the converter that belong to the ending of a scan. -/
def Settles (decoded : Decoded) : Ending UInt8 Nat → Prop
  | .pending _ rest =>
      decoded.status = .success ∧ decoded.converter.Coherent ∧ decoded.converter.pending = rest
  | .failed _ _ => decoded.status = .error

@[simp]
theorem settles_shift (decoded : Decoded) (ending : Ending UInt8 Nat) (count : Nat) :
    Settles decoded (ending.shift count) ↔ Settles decoded ending := by
  cases ending <;> rfl

theorem Reports.settles {decoded : Decoded} {error : ErrorInfo} {held offset : Nat}
    {ending : Ending UInt8 Nat} (reports : Reports decoded error held offset ending) :
    Settles decoded ending := by
  cases ending with
  | pending index rest => exact ⟨reports.1, reports.2.2⟩
  | failed index failure => exact reports.1

namespace Settles

variable {decoded other : Decoded} {ending : Ending UInt8 Nat} (settles : Settles decoded ending)
include settles

theorem coherent (continued : decoded.status ≠ .error) : decoded.converter.Coherent := by
  cases ending with
  | pending index rest => exact settles.2.1
  | failed index failure => exact absurd settles continued

theorem status_eq (otherSettles : Settles other ending) : decoded.status = other.status := by
  cases ending with
  | pending index rest => exact settles.1.trans otherSettles.1.symm
  | failed index failure => exact settles.trans otherSettles.symm

theorem pending_eq (otherSettles : Settles other ending) (continued : other.status ≠ .error) :
    decoded.converter.pending = other.converter.pending := by
  cases ending with
  | pending index rest => exact settles.2.2.trans otherSettles.2.2.symm
  | failed index failure => exact absurd otherSettles continued

end Settles

/-- Any cutting of the input scans the bytes held back and all chunks behind them. -/
theorem decodeChunks_spec {self : Utf8Converter} (coherent : self.Coherent)
    (chunks : List (List UInt8)) (output : List UInt16) (error : ErrorInfo) :
    ∃ decoded, decodeChunks chunks self output error = .ok decoded ∧
      decoded.output =
        output ++ (sequenceScanner.run (self.pending ++ chunks.flatten)).1.flatMap units ∧
      Settles decoded (sequenceScanner.run (self.pending ++ chunks.flatten)).2 := by
  induction chunks generalizing self output error with
  | nil =>
      rw [List.flatten_nil, List.append_nil, sequenceScanner.run_incomplete coherent.scan_pending]
      exact ⟨_, rfl, by simp, rfl, coherent, rfl⟩
  | cons chunk chunks inductionHypothesis =>
      obtain ⟨first, returned, outputEq, reports⟩ := decode_spec coherent chunk output error
      have settles := reports.settles
      rw [decodeChunks, returned, Checked.ok_bind, List.flatten_cons, ← List.append_assoc,
        sequenceScanner.run_append]
      rcases firstRun : sequenceScanner.run (self.pending ++ chunk) with
        ⟨sequences, ⟨index, rest⟩ | ⟨index, failure⟩⟩
      · rw [firstRun] at outputEq settles
        rcases settles with ⟨status, kept, held⟩
        obtain ⟨decoded, later, laterEq, laterSettles⟩ :=
          inductionHypothesis kept first.output first.error
        rw [if_neg (by rw [status]; simp)]
        rw [held] at laterEq laterSettles
        refine ⟨decoded, later, ?_, (settles_shift _ _ _).mpr laterSettles⟩
        rw [laterEq, outputEq]
        simp [Scanner.resume]
      · rw [firstRun] at outputEq settles
        have status : first.status = .error := settles
        rw [if_pos status]
        exact ⟨first, rfl, outputEq, settles⟩

/-- How a stream is cut into chunks is not observable. -/
theorem decodeChunks_eq_decode (self : Utf8Converter) (chunks : List (List UInt8))
    (output : List UInt16) (error : ErrorInfo) :
    ∃ whole streamed,
      self.reset.decode chunks.flatten output error = .ok whole ∧
      decodeChunks chunks self.reset output error = .ok streamed ∧
      streamed.output = whole.output ∧ streamed.status = whole.status ∧
      (whole.status ≠ .error → streamed.converter.pending = whole.converter.pending) ∧
      ∀ count, ∃ boundary,
        decodeChunks (chunks.take count) self.reset output error = .ok boundary ∧
        (boundary.status ≠ .error → boundary.converter.Coherent) := by
  have fresh := coherent_reset self
  obtain ⟨whole, wholeReturned, wholeOutput, wholeReports⟩ :=
    decode_spec fresh chunks.flatten output error
  obtain ⟨streamed, returned, outputEq, settles⟩ := decodeChunks_spec fresh chunks output error
  have wholeSettles := wholeReports.settles
  refine ⟨whole, streamed, wholeReturned, returned, outputEq.trans wholeOutput.symm, ?_, ?_, ?_⟩
  · exact settles.status_eq wholeSettles
  · exact settles.pending_eq wholeSettles
  · intro count
    obtain ⟨boundary, reached, _, boundarySettles⟩ :=
      decodeChunks_spec fresh (chunks.take count) output error
    exact ⟨boundary, reached, boundarySettles.coherent⟩

end BinaryReader.Utf8Converter

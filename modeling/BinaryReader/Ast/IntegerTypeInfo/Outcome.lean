import BinaryReader.Ast.IntegerTypeInfo.Reading
import BinaryReader.Util.BufferedFileReader.Refinement

/-!
# Whether a read succeeds

A read succeeds when its bits are in the file and a little endian value is made
of whole bytes.  Otherwise it adds one error and changes nothing else.
-/

namespace BinaryReader.IntegerTypeInfo

open BufferedFileReader

variable {self : IntegerTypeInfo} {contents : List UInt8} {position : Nat}

theorem misaligned_iff (self : IntegerTypeInfo) (position : Nat) :
    self.Misaligned position ↔ self.order = .littleEndian ∧
      (position % 8 ≠ 0 ∨ (position + self.size.bitCount) % 8 ≠ 0) := by
  have final : finalBits (position % 8) self.size.bitCount =
      (position + self.size.bitCount) % 8 := by
    unfold finalBits
    omega
  rw [Misaligned, final]

theorem endByte_le_iff (readable : self.Readable) :
    self.endByte position ≤ contents.length ↔
      position + self.size.bitCount ≤ 8 * contents.length := by
  obtain ⟨positive, small⟩ := readable
  rw [endByte, byteCount_eq (Nat.mod_lt _ (by decide)) small]
  omega

theorem valueAt_error (readable : self.Readable) {info : ErrorInfo}
    (failed : self.valueAt contents position = .ok (.error info)) :
    ¬ (position + self.size.bitCount ≤ 8 * contents.length ∧ ¬ self.Misaligned position) ∧
      info.level = .error ∧
      info.kind = if self.Misaligned position then .littleEndianAlign
        else .unexpectedEndOfStream := by
  by_cases misaligned : self.Misaligned position
  · rw [valueAt, if_pos misaligned] at failed
    cases failed
    exact ⟨fun both => both.2 misaligned, rfl, (if_pos misaligned).symm⟩
  by_cases outside : contents.length < self.endByte position
  · rw [valueAt, if_neg misaligned, if_pos outside] at failed
    cases failed
    rw [← Nat.not_le, endByte_le_iff readable] at outside
    exact ⟨fun both => outside both.1, rfl, (if_neg misaligned).symm⟩
  · obtain ⟨_, _, -, -, number⟩ := valueAt_number readable misaligned outside
    cases failed.symm.trans number

theorem valueAt_ok (readable : self.Readable) {number : Number}
    (read : self.valueAt contents position = .ok (.ok number)) :
    position + self.size.bitCount ≤ 8 * contents.length ∧ ¬ self.Misaligned position := by
  by_cases misaligned : self.Misaligned position
  · rw [valueAt, if_pos misaligned] at read
    cases read
  by_cases outside : contents.length < self.endByte position
  · rw [valueAt, if_neg misaligned, if_pos outside] at read
    cases read
  · exact ⟨(endByte_le_iff readable).mp (Nat.le_of_not_lt outside), misaligned⟩

variable {σ : Type} {fileReader : FileReader σ}

/-- In every state a run of the reader reaches, a read neither faults nor leaves the
buffer, and succeeds when its bits are there.  Positions count modulo 2 ^ 64. -/
theorem readValue_succeeds_iff (contract : fileReader.Contract contents) {reader : σ}
    {buffer : Nat → UInt8} {errors : ErrorCollection} {calls : List Call}
    (starts : Starts fileReader reader calls) {answers : List Answer}
    {file : BufferedFileReader σ} {collected : ErrorCollection}
    (ran : (machine fileReader).run ({ reader, buffer }, errors) calls =
      .ok (answers, file, collected))
    (readable : self.Readable) (result : Value) :
    ∃ returned value next added,
      self.readValue fileReader file result collected = .ok (returned, value, next, added) ∧
      (returned = true ↔
        file.position.bitCount + self.size.bitCount ≤ 8 * contents.length ∧
        ¬ (self.order = .littleEndian ∧ (file.position.bitCount % 8 ≠ 0 ∨
          (file.position.bitCount + self.size.bitCount) % 8 ≠ 0))) ∧
      (returned = true → added = collected ∧
        next.position.bitCount = (file.position.bitCount + self.size.bitCount) % 2 ^ 64) ∧
      (returned = false → next.position = file.position ∧ value = result ∧
        ∃ info, added = collected.add info ∧ info.level = .error ∧
          info.kind = if self.Misaligned file.position.bitCount then .littleEndianAlign
            else .unexpectedEndOfStream) := by
  have tracks := run_tracks contract starts ran
  obtain ⟨outcome, next, value, read, moved⟩ := readValue_spec contract readable tracks result
    collected
  rw [← misaligned_iff]
  cases outcome with
  | ok number =>
      refine ⟨true, _, next, collected, read, ?_, ?_, nofun⟩
      · exact iff_of_true rfl (valueAt_ok readable value)
      · exact fun _ => ⟨rfl, moved.position_bitCount⟩
  | error info =>
      obtain ⟨refused, level, kind⟩ := valueAt_error readable value
      refine ⟨false, result, next, collected.add info, read, ?_, nofun, ?_⟩
      · exact iff_of_false Bool.false_ne_true refused
      · intro _
        exact ⟨Size.bitCount_injective moved.position_bitCount, rfl, info, rfl, level, kind⟩

theorem readValue_succeeds_iff_byte :
    ∃ answers file collected returned value next added,
      (machine (memoryFileReader [1, 2])).run ({ reader := 0, buffer := fun _ => 7 }, {})
        [.seek (.fromBits 8)] = .ok (answers, file, collected) ∧
      readValue (memoryFileReader [1, 2]) ⟨{}, "byte", .fromBits 8, .unsigned, .littleEndian⟩ file
        .null collected = .ok (returned, value, next, added) ∧
      returned = true := by
  have ran : ∃ answers file collected,
      (machine (memoryFileReader [1, 2])).run ({ reader := 0, buffer := fun _ => 7 }, {})
        [.seek (.fromBits 8)] = .ok (answers, file, collected) ∧ file.position = .fromBits 8 :=
    ⟨_, _, _, rfl, rfl⟩
  obtain ⟨answers, file, collected, ran, position⟩ := ran
  have readable : Readable ⟨{}, "byte", .fromBits 8, .unsigned, .littleEndian⟩ := by decide
  obtain ⟨returned, value, next, added, read, succeeds, -⟩ :=
    readValue_succeeds_iff (memoryFileReader_contract [1, 2]) (.inl rfl) ran readable .null
  rw [position] at succeeds
  exact ⟨answers, file, collected, returned, value, next, added, ran, read,
    succeeds.mpr (by decide)⟩

/-- The last byte of a file of 2 ^ 61 bytes leads back to its start. -/
theorem readValue_wraps :
    ∃ answers file collected returned value next added,
      (machine (memoryFileReader (.replicate (2 ^ 61) 0))).run ({ reader := 0 }, {})
        [.seek (.fromBits (2 ^ 64 - 8))] = .ok (answers, file, collected) ∧
      readValue (memoryFileReader (.replicate (2 ^ 61) 0))
        ⟨{}, "byte", .fromBits 8, .unsigned, .bigEndian⟩ file .null collected =
          .ok (returned, value, next, added) ∧
      returned = true ∧ file.position.bitCount = 2 ^ 64 - 8 ∧
      next.position.bitCount ≠ file.position.bitCount + 8 := by
  have length : (List.replicate (2 ^ 61) (0 : UInt8)).length = 2 ^ 61 := List.length_replicate
  generalize List.replicate (2 ^ 61) (0 : UInt8) = contents at length ⊢
  have contract := memoryFileReader_contract contents
  have empty : ({ reader := 0 } : BufferedFileReader (Fin (contents.length + 1))).used = 0 := rfl
  obtain ⟨file, sought, tracks⟩ := seek_of_empty contract empty (.fromBits (2 ^ 64 - 8)) {}
  have start : (Size.fromBits (2 ^ 64 - 8)).bitCount = 2 ^ 64 - 8 := by decide
  rw [start] at tracks
  have readable : Readable ⟨{}, "byte", .fromBits 8, .unsigned, .bigEndian⟩ := by decide
  have inside : ¬ contents.length <
      endByte ⟨{}, "byte", .fromBits 8, .unsigned, .bigEndian⟩ (2 ^ 64 - 8) := by
    rw [length]
    decide
  obtain ⟨outcome, next, value, read, moved⟩ := readValue_spec contract readable tracks .null {}
  obtain ⟨_, number, -, -, denotes⟩ := valueAt_number readable (by decide) inside
  cases value.symm.trans denotes
  refine ⟨[⟨true, file.position, none⟩], file, {}, true, .number number, next, {}, ?_, read, rfl,
    tracks.position_bitCount, ?_⟩
  · simp only [Library.Machine.run, machine, answer, sought]
  · rw [moved.position_bitCount, tracks.position_bitCount]
    change (2 ^ 64 - 8 + (Size.fromBits 8).bitCount) % 2 ^ 64 ≠ 2 ^ 64 - 8 + 8
    decide

end BinaryReader.IntegerTypeInfo

import BinaryReader.Ast.IntegerTypeInfo.Reading
import BinaryReader.Util.BufferedFileReader.Breakdown

/-!
# Integers of a file that cannot be read

Over a reader that breaks down, a read that succeeds has read what is in the file.
Any other read adds an error.
-/

namespace BinaryReader.IntegerTypeInfo

open BufferedFileReader

variable {σ : Type} {fileReader : FileReader σ} {contents : List UInt8} {broken : σ → Prop}

def Reads (fileReader : FileReader σ) (contents : List UInt8) (broken : σ → Prop)
    (self : IntegerTypeInfo) (reader : BufferedFileReader σ) (result : Value)
    (errors : ErrorCollection) : Prop :=
  ∃ returned value next added,
    self.readValue fileReader reader result errors = .ok (returned, value, next, added) ∧
    Adds returned errors added ∧ Steady fileReader contents broken next ∧
    (returned = true → ∃ number, value = .number number ∧
      self.valueAt contents reader.position.bitCount = .ok (.ok number))

section Read

variable {self : IntegerTypeInfo} {reader filled last : BufferedFileReader σ} {result : Value}
  {errors added : ErrorCollection}

theorem Reads.failed
    (read : self.readValue fileReader reader result errors = .ok (false, result, last, added))
    (adds : Adds false errors added) (steady : Steady fileReader contents broken last) :
    self.Reads fileReader contents broken reader result errors :=
  ⟨false, result, last, added, read, adds, steady,
    fun impossible => absurd impossible Bool.false_ne_true⟩

theorem reads_of_window (breaks : fileReader.BreaksDown contents broken)
    (readable : self.Readable) (aligned : ¬ self.Misaligned reader.position.bitCount)
    (ensured : reader.ensureBuffer fileReader self.size errors = .ok (true, filled, errors))
    (got : filled.getBuffer fileReader errors = .ok (some last.shown, last, errors))
    (ready : Ready fileReader contents broken last) (here : last.position = reader.position)
    (reached : Delivers last self.size ∨ contents.length ≤ last.windowEnd) :
    self.Reads fileReader contents broken reader result errors := by
  have short := short_iff readable ready.toIntact reached
  rw [here] at short
  have bitOffset : reader.position.bitOffset = reader.position.bitCount % 8 := rfl
  have read := readValue_of_buffer bitOffset result aligned ensured got
  by_cases outside : contents.length < self.endByte reader.position.bitCount
  · rw [if_pos (short.mpr outside)] at read
    exact .failed read ⟨_, rfl⟩ ready.steady
  · obtain ⟨value, number, bits, numbered, outcome⟩ := valueAt_number readable aligned outside
    obtain ⟨skipped, next, afterSkip, sought, adds, steady, -⟩ :=
      ready.steady.seek breaks (last.position + .fromBits self.size.bitCount) errors
    have skippedEq : last.skip fileReader (.fromBits self.size.bitCount) errors =
      (skipped, next, afterSkip) := sought
    obtain ⟨shownEq, -⟩ := ready.holds.shown_eq ready.shaped
    have enough : byteCount (reader.position.bitCount % 8) self.size.bitCount ≤
        last.shown.length := Nat.le_of_not_lt (mt short.mp outside)
    rw [← readBits_take (Nat.mod_lt _ (by decide)) readable.1 readable.2 enough] at bits
    rw [here, Size.byteCount] at shownEq
    rw [← shownEq] at bits
    rw [if_neg (mt short.mp outside), bits, Checked.ok_bind, numbered, Checked.ok_bind,
      skippedEq] at read
    exact ⟨skipped, .number number, next, afterSkip, read, adds, steady,
      fun _ => ⟨number, rfl, outcome⟩⟩

end Read

/-- A read that returns true gives the number in the file. -/
theorem readValue_breaks (breaks : fileReader.BreaksDown contents broken) {self : IntegerTypeInfo}
    (readable : self.Readable) {reader : BufferedFileReader σ}
    (ready : Ready fileReader contents broken reader) (result : Value) (errors : ErrorCollection) :
    self.Reads fileReader contents broken reader result errors := by
  have small := readable.2
  have bitOffset : reader.position.bitOffset < 8 := Nat.mod_lt _ (by decide)
  have limit : self.size ≤ .fromBytesAndOffset kBufferSize 7 := by
    rw [Size.le_iff, bitCount_limit le_rfl, kBufferSize]
    omega
  have fits : reader.position.bitOffset + self.size.bitCount ≤ kBufferSize * 8 := by
    rw [kBufferSize]
    omega
  by_cases misaligned : self.Misaligned reader.position.bitCount
  · have refused : self.readValue fileReader reader result errors = .ok (false, result, reader,
        errors.add (.ofKind self.debug .littleEndianAlign reader.position.byteCount)) := by
      rw [readValue]
      exact if_pos misaligned
    exact .failed refused ⟨_, rfl⟩ ready.steady
  have aligned : ¬ (self.order = .littleEndian ∧ (reader.position.bitOffset ≠ 0 ∨
      finalBits reader.position.bitOffset self.size.bitCount ≠ 0)) := misaligned
  obtain ⟨success, filled, collected, ensured, adds, supplies⟩ :=
    ready.ensureBuffer breaks limit errors
  cases success with
  | false =>
      refine .failed ?_ adds supplies.steady
      rw [readValue]
      dsimp only
      rw [if_neg aligned, ensured, Checked.ok_bind]
      rfl
  | true =>
      cases adds
      obtain ⟨given, last, added, got, gotAdds, gives⟩ :=
        (supplies.ready rfl).getBuffer breaks errors
      cases given with
      | false =>
          refine .failed ?_ gotAdds gives.steady
          rw [readValue]
          dsimp only
          rw [if_neg aligned, ensured, Checked.ok_bind]
          dsimp only
          rw [if_neg (by decide), got, Checked.ok_bind]
          rfl
      | true =>
          cases gotAdds
          exact reads_of_window breaks readable misaligned ensured got (gives.ready rfl)
            (gives.position.trans supplies.position) (supplies.reaches gives fits)

end BinaryReader.IntegerTypeInfo

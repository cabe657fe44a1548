import BinaryReader.Util.BufferedFileReader.Refinement

/-!
# Runs over readers that fail

A failed `Seek` has already moved the position, and a failed `Read` may leave
the underlying reader behind the end of the window, where the next `Read` takes
the bytes of the window from.  `Safe` names the calls that are not affected.
-/

namespace BinaryReader.BufferedFileReader

open Library

variable {σ : Type} {fileReader : FileReader σ} {contents : List UInt8}

/-- A call of `Seek` that fails at most where it would not move. -/
def SafeTarget (fileReader : FileReader σ) (file : BufferedFileReader σ) (target : Size) : Prop :=
  file.Covers target ∨ target = file.position ∨
    ∃ reached reader, fileReader.seek file.reader target.byteCount = (.ok reached, reader)

/-- Nothing is read while the underlying reader is away from the end of the window. -/
def SafeRead (fileReader : FileReader σ) (contents : List UInt8) (file : BufferedFileReader σ)
    (size : Size) : Prop :=
  Delivers file size ∨ InStep fileReader contents file

/-- The calls whose outcome a failure of the underlying reader does not spoil. -/
def Safe (fileReader : FileReader σ) (contents : List UInt8) (file : BufferedFileReader σ) :
    Call → Prop
  | .seek target => SafeTarget fileReader file target
  | .skip count => SafeTarget fileReader file (file.position + count)
  | .ensureBuffer size => SafeRead fileReader contents file size
  | .getBuffer => SafeRead fileReader contents file (.fromBits 1)

/-- A `Seek` or `Skip` that returns false does not move, and `GetBuffer` gives
out the file from the position on. -/
def Consistent (contents : List UInt8) (file : BufferedFileReader σ) (call : Call)
    (answer : Answer) : Prop :=
  match call with
  | .seek _ | .skip _ => answer.returned = false → answer.position = file.position
  | .ensureBuffer _ => answer.position = file.position
  | .getBuffer => answer.position = file.position ∧
      ∀ bytes ∈ answer.bytes,
        bytes = (contents.drop file.position.byteCount).take bytes.length ∧
        (0 < bytes.length ↔ file.position.byteCount < contents.length)

structure Kept (fileReader : FileReader σ) (contents : List UInt8) (file : BufferedFileReader σ)
    (call : Call) (answer : Answer) (next : BufferedFileReader σ) : Prop where
  shaped : Shaped next
  inStep : answer.returned = true → InStep fileReader contents file →
    InStep fileReader contents next
  holds : Holds contents file → Safe fileReader contents file call →
    Holds contents next ∧ Consistent contents file call answer

theorem seek_returned {self : BufferedFileReader σ} {target : Size}
    (safe : SafeTarget fileReader self target) (errors : ErrorCollection)
    (failed : (self.seek fileReader target errors).1 = false) : target = self.position := by
  rcases safe with covered | same | ⟨reached, reader, sought⟩
  · rw [seek_covered covered] at failed
    cases failed
  · exact same
  · by_cases covered : self.Covers target
    · rw [seek_covered covered] at failed
      cases failed
    · rw [seek_ok covered sought] at failed
      cases failed

theorem InStep.seek (fallible : fileReader.Fallible contents) {self : BufferedFileReader σ}
    (inStep : InStep fileReader contents self) (target : Size) (errors : ErrorCollection)
    (succeeded : (self.seek fileReader target errors).1 = true) :
    InStep fileReader contents (self.seek fileReader target errors).2.1 := by
  by_cases covered : self.Covers target
  · rw [seek_covered covered]
    exact inStep
  · rcases sought : fileReader.seek self.reader target.byteCount with ⟨info | reached, reader⟩
    · rw [seek_error covered sought] at succeeded
      cases succeeded
    · rw [seek_ok covered sought]
      exact inStep_restart fallible self sought

theorem kept_seek (fallible : fileReader.Fallible contents) {self : BufferedFileReader σ}
    (shaped : Shaped self) (target : Size) (errors : ErrorCollection) :
    Kept fileReader contents self (.seek target)
      ⟨(self.seek fileReader target errors).1, (self.seek fileReader target errors).2.1.position,
        none⟩ (self.seek fileReader target errors).2.1 := by
  obtain ⟨nextShaped, position⟩ := shaped.seek fileReader target errors
  refine ⟨nextShaped, ?_, ?_⟩
  · intro succeeded inStep
    exact inStep.seek fallible target errors succeeded
  · intro holds safe
    refine ⟨holds.seek fileReader target errors, ?_⟩
    intro failed
    exact position.trans (seek_returned safe errors failed)

theorem Ensures.inStep_of (fallible : fileReader.Fallible contents) {size : Size}
    {file next : BufferedFileReader σ} {returned : Bool}
    (ensures : Ensures fileReader contents size file returned next) (succeeded : returned = true)
    (inStep : InStep fileReader contents file) : InStep fileReader contents next := by
  cases succeeded
  exact ensures.inStep fallible inStep

theorem Ensures.shown_eq {file next : BufferedFileReader σ}
    (ensures : Ensures fileReader contents (.fromBits 1) file true next)
    (fallible : fileReader.Fallible contents) (holds : Holds contents file)
    (safe : SafeRead fileReader contents file (.fromBits 1)) :
    next.shown = (contents.drop file.position.byteCount).take next.shown.length ∧
      (0 < next.shown.length ↔ file.position.byteCount < contents.length) := by
  obtain ⟨shownEq, bound⟩ := (ensures.holds holds safe).shown_eq ensures.shaped
  rw [ensures.position] at shownEq bound
  rw [List.length_drop] at bound
  refine ⟨shownEq, ?_⟩
  rcases safe with delivered | inStep
  · have same := (ensures.idle delivered).2
    rw [delivers_one_iff, ← same] at delivered
    exact iff_of_true delivered (by omega)
  · rcases (ensures.reached rfl).mpr (fits_one file) with delivered | atEnd
    · rw [delivers_one_iff] at delivered
      exact iff_of_true delivered (by omega)
    · have behind := (ensures.inStep fallible inStep).atEnd_iff.mp atEnd
      have byte := ensures.shaped.byte_eq
      have inWindow := ensures.shaped.byteOffset_le
      have length := length_shown next
      rw [ensures.position] at byte
      rw [BufferedFileReader.windowEnd] at behind
      omega

theorem kept_answer (fallible : fileReader.Fallible contents)
    {state next : BufferedFileReader σ × ErrorCollection} (shaped : Shaped state.1) {call : Call}
    {output : Answer} (answered : answer fileReader state call = .ok (output, next)) :
    Kept fileReader contents state.1 call output next.1 := by
  cases call with
  | seek target =>
      cases answered
      exact kept_seek fallible shaped target state.2
  | skip count =>
      cases answered
      obtain ⟨nextShaped, inStep, holds⟩ :=
        kept_seek fallible shaped (state.1.position + count) state.2
      exact ⟨nextShaped, inStep, holds⟩
  | ensureBuffer size =>
      obtain ⟨result, ensured, same⟩ := Checked.bind_eq_ok_iff.mp answered
      obtain ⟨returned, last, collected, expected, ensures, -⟩ :=
        shaped.ensureBuffer_spec fallible (limit_of_ensureBuffer ensured) state.2
      cases ensured.symm.trans expected
      cases same
      refine ⟨ensures.shaped, ensures.inStep_of fallible, ?_⟩
      intro holds safe
      exact ⟨ensures.holds holds safe, ensures.position⟩
  | getBuffer =>
      obtain ⟨result, got, same⟩ := Checked.bind_eq_ok_iff.mp answered
      obtain ⟨returned, last, collected, expected, ensures, -⟩ :=
        shaped.getBuffer_spec fallible state.2
      cases got.symm.trans expected
      cases same
      cases returned with
      | false =>
          refine ⟨ensures.shaped, nofun, ?_⟩
          intro holds safe
          exact ⟨ensures.holds holds safe, ensures.position, nofun⟩
      | true =>
          refine ⟨ensures.shaped, fun _ => ensures.inStep fallible, ?_⟩
          intro holds safe
          refine ⟨ensures.holds holds safe, ensures.position, ?_⟩
          intro bytes given
          cases given
          exact ensures.shown_eq fallible holds safe

theorem shaped_start (reader : σ) (buffer : Nat → UInt8) :
    Shaped ({ reader, buffer } : BufferedFileReader σ) where
  aligned := show Size.zero.byteCount * 8 = Size.zero.bitCount by decide
  position_lt := show Size.zero.bitCount + Size.zero.bitCount < 2 ^ 64 by decide
  offset_lt := Or.inl (show Size.zero.bitCount < 8 by decide)

/-- The sizes that pass the first assertion of `EnsureBuffer`. -/
def InLimit : Call → Prop
  | .ensureBuffer size => size ≤ .fromBytesAndOffset kBufferSize 7
  | _ => True

theorem exists_answer (fallible : fileReader.Fallible contents)
    {state : BufferedFileReader σ × ErrorCollection} (shaped : Shaped state.1) {call : Call}
    (limit : InLimit call) : ∃ output next, answer fileReader state call = .ok (output, next) := by
  cases call with
  | seek target => exact ⟨_, _, rfl⟩
  | skip count => exact ⟨_, _, rfl⟩
  | ensureBuffer size =>
      obtain ⟨returned, next, collected, ensured, -⟩ :=
        shaped.ensureBuffer_spec fallible limit state.2
      rw [answer, ensured]
      exact ⟨_, _, rfl⟩
  | getBuffer =>
      obtain ⟨returned, next, collected, got, -⟩ := shaped.getBuffer_spec fallible state.2
      rw [answer, got]
      exact ⟨_, _, rfl⟩

theorem exists_run (fallible : fileReader.Fallible contents)
    {state : BufferedFileReader σ × ErrorCollection} (shaped : Shaped state.1) {calls : List Call}
    (limit : ∀ call ∈ calls, InLimit call) :
    ∃ answers final, (machine fileReader).run state calls = .ok (answers, final) := by
  induction calls generalizing state with
  | nil => exact ⟨_, _, rfl⟩
  | cons call calls inductionHypothesis =>
      obtain ⟨first, later⟩ := List.forall_mem_cons.mp limit
      obtain ⟨output, next, answered⟩ := exists_answer fallible shaped first
      obtain ⟨answers, final, ran⟩ :=
        inductionHypothesis (kept_answer fallible shaped answered).shaped later
      exact ⟨_, _, (machine fileReader).run_cons answered ran⟩

/-- In every run of safe calls, window and file stay together. -/
theorem run_consistent (fallible : fileReader.Fallible contents) (reader : σ)
    (buffer : Nat → UInt8) (errors : ErrorCollection) {calls : List Call}
    (limit : ∀ call ∈ calls, InLimit call)
    (safe : (machine fileReader).Every
      (fun state call _ _ => Safe fileReader contents state.1 call) ({ reader, buffer }, errors)
      calls) :
    (∃ answers final,
      (machine fileReader).run ({ reader, buffer }, errors) calls = .ok (answers, final)) ∧
    (machine fileReader).Every
      (fun state call output _ => Consistent contents state.1 call output)
      ({ reader, buffer }, errors) calls := by
  refine ⟨exists_run fallible (shaped_start reader buffer) limit, ?_⟩
  refine (machine fileReader).every_of_invariant
    (fun state => Shaped state.1 ∧ Holds contents state.1) ?_ ⟨shaped_start reader buffer, ?_⟩ safe
  · rintro state next call output ⟨shaped, holds⟩ safe answered
    obtain ⟨nextShaped, -, keeps⟩ := kept_answer fallible shaped answered
    obtain ⟨nextHolds, consistent⟩ := keeps holds safe
    exact ⟨⟨nextShaped, nextHolds⟩, consistent⟩
  · intro index inside
    exact absurd inside (Nat.not_lt_zero index)

theorem run_consistent_three :
    (∃ answers final,
      (machine (scriptedFileReader [1, 2, 3])).run
          ({ reader := (0, [none, some 0]), buffer := fun _ => 7 }, {})
          [.seek (.fromBits 8), .getBuffer, .getBuffer] = .ok (answers, final)) ∧
    (machine (scriptedFileReader [1, 2, 3])).Every
      (fun state call output _ => Consistent [1, 2, 3] state.1 call output)
      ({ reader := (0, [none, some 0]), buffer := fun _ => 7 }, {})
      [.seek (.fromBits 8), .getBuffer, .getBuffer] :=
  run_consistent (scriptedFileReader_fallible [1, 2, 3]) (0, [none, some 0]) (fun _ => 7) {}
    (by simp [InLimit])
    ⟨Or.inr (Or.inr ⟨_, _, rfl⟩), Or.inr rfl, Or.inr rfl, trivial⟩

/-- A `Seek` that fails moves all the same, and a `Read` that fails halfway makes the next
one give out other bytes. -/
theorem not_run_consistent :
    (scriptedFileReader [1, 2, 3]).Fallible [1, 2, 3] ∧
    ¬ (machine (scriptedFileReader [1, 2, 3])).Every
      (fun state call output _ => Consistent [1, 2, 3] state.1 call output)
      ({ reader := (0, [some 0]) }, {}) [.seek (.fromBits 8)] ∧
    ¬ (machine (scriptedFileReader [1, 2, 3])).Every
      (fun state call output _ => Consistent [1, 2, 3] state.1 call output)
      ({ reader := (0, [some 1]) }, {}) [.getBuffer, .getBuffer] := by
  refine ⟨scriptedFileReader_fallible _, ?_, ?_⟩
  · rintro ⟨unmoved, -⟩
    exact absurd (unmoved rfl) (by decide)
  · rintro ⟨-, ⟨-, shown⟩, -⟩
    exact absurd (shown [2, 3] rfl).1 (by decide)

end BinaryReader.BufferedFileReader

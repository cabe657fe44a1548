import BinaryReader.Util.BufferedFileReader.Failures

/-!
# What `EnsureBuffer` delivers

The assertion of `EnsureBuffer` admits sizes up to the whole buffer and seven
bits, but the buffer has no room for the bits in front of the position.  A
request that does not fit is answered with a full buffer, as at the end of the
file.
-/

namespace BinaryReader.BufferedFileReader

open Library

variable {σ : Type} {fileReader : FileReader σ} {contents : List UInt8}

theorem run_shaped (fallible : fileReader.Fallible contents)
    {state final : BufferedFileReader σ × ErrorCollection} {calls : List Call}
    {answers : List Answer} (shaped : Shaped state.1)
    (ran : (machine fileReader).run state calls = .ok (answers, final)) :
    Shaped final.1 ∧ ((∀ answer ∈ answers, answer.returned = true) →
      InStep fileReader contents state.1 → InStep fileReader contents final.1) := by
  induction calls generalizing state answers with
  | nil =>
      cases ran
      exact ⟨shaped, fun _ inStep => inStep⟩
  | cons call calls inductionHypothesis =>
      obtain ⟨output, next, rest, answered, continued, rfl⟩ :=
        (machine fileReader).run_cons_eq_ok ran
      have kept := kept_answer fallible shaped answered
      obtain ⟨finalShaped, stays⟩ := inductionHypothesis kept.shaped continued
      refine ⟨finalShaped, ?_⟩
      intro succeeded inStep
      obtain ⟨first, later⟩ := List.forall_mem_cons.mp succeeded
      exact stays later (kept.inStep first inStep)

/-- Behind a call, `GetBuffer` gives out at least what is shown. -/
theorem shown_of_getBuffer (fallible : fileReader.Fallible contents)
    {self last : BufferedFileReader σ} (shaped : Shaped self)
    {errors collected : ErrorCollection} {bytes : List UInt8}
    (got : self.getBuffer fileReader errors = .ok (some bytes, last, collected)) :
    self.shown <+: bytes := by
  obtain ⟨returned, next, expected, same, ensures, -⟩ := shaped.getBuffer_spec fallible errors
  cases returned with
  | false => cases got.symm.trans same
  | true =>
      cases got.symm.trans same
      exact ensures.shown

/-- In every state a run reaches, `EnsureBuffer` ends, keeps the position and the
bytes behind it, and delivers what it documents exactly when that fits. -/
theorem ensureBuffer_delivers_iff (fallible : fileReader.Fallible contents) (reader : σ)
    (buffer : Nat → UInt8) (errors : ErrorCollection) {calls : List Call} {answers : List Answer}
    {self : BufferedFileReader σ} {collected : ErrorCollection}
    (ran : (machine fileReader).run ({ reader, buffer }, errors) calls =
      .ok (answers, self, collected))
    {size : Size} (limit : size ≤ .fromBytesAndOffset kBufferSize 7) :
    ∃ returned next added before after,
      self.ensureBuffer fileReader size collected = .ok (returned, next, added) ∧
      next.position = self.position ∧
      self.visible = .ok before ∧ next.visible = .ok after ∧ before <+: after ∧
      (∀ bytes last more,
        next.getBuffer fileReader added = .ok (some bytes, last, more) → after <+: bytes) ∧
      (returned = true →
        (self.position.bitOffset + size.bitCount ≤ after.length * 8 ∨
            AtEnd fileReader contents next ↔
          self.position.bitOffset + size.bitCount ≤ kBufferSize * 8 ∨
            contents.length - fileReader.position self.reader ≤ kBufferSize - before.length)) ∧
      (fileReader.position reader = 0 → (∀ answer ∈ answers, answer.returned = true) →
        returned = true →
        (AtEnd fileReader contents next ↔ contents.length ≤ next.windowEnd)) := by
  obtain ⟨shaped, stays⟩ := run_shaped fallible (shaped_start reader buffer) ran
  obtain ⟨returned, next, added, ensured, ensures, -⟩ :=
    shaped.ensureBuffer_spec fallible limit collected
  refine ⟨returned, next, added, self.shown, next.shown, ensured, ensures.position,
    shaped.visible_eq, ensures.shaped.visible_eq, ensures.shown, ?_, ?_, ?_⟩
  · intro bytes last more got
    exact shown_of_getBuffer fallible ensures.shaped got
  · intro succeeded
    have reached := ensures.reached succeeded
    rwa [Delivers, ensures.position] at reached
  · intro atStart allSucceeded succeeded
    have inStep := stays allSucceeded (tracks_start reader buffer atStart).cursor
    exact (ensures.inStep_of fallible succeeded inStep).atEnd_iff

theorem ensureBuffer_delivers_iff_seven :
    ∃ answers self collected returned next added after,
      (machine (memoryFileReader [1, 2, 3])).run ({ reader := 0, buffer := fun _ => 7 }, {})
        [.seek (.fromBits 9)] = .ok (answers, self, collected) ∧
      self.ensureBuffer (memoryFileReader [1, 2, 3]) (.fromBits 7) collected =
        .ok (returned, next, added) ∧
      next.visible = .ok after ∧
      (returned = true → 1 + 7 ≤ after.length * 8 ∨
        AtEnd (memoryFileReader [1, 2, 3]) [1, 2, 3] next) := by
  have ran : ∃ answers self collected,
      (machine (memoryFileReader [1, 2, 3])).run ({ reader := 0, buffer := fun _ => 7 }, {})
        [.seek (.fromBits 9)] = .ok (answers, self, collected) ∧ self.position = .fromBits 9 :=
    ⟨_, _, _, rfl, rfl⟩
  obtain ⟨answers, self, collected, ran, position⟩ := ran
  have limit : Size.fromBits 7 ≤ .fromBytesAndOffset kBufferSize 7 := by decide
  obtain ⟨returned, next, added, before, after, ensured, -, -, visible, -, -, delivers, -⟩ :=
    ensureBuffer_delivers_iff (memoryFileReader_contract [1, 2, 3]).fallible 0 (fun _ => 7) {}
      ran limit
  rw [position] at delivers
  refine ⟨answers, self, collected, returned, next, added, after, ran, ensured, visible, ?_⟩
  exact fun succeeded => (delivers succeeded).mpr (.inl (by decide))

/-- One bit into a file that is larger than the buffer, the whole buffer cannot be ensured. -/
theorem not_ensureBuffer_delivers :
    ∃ answers self collected,
      (machine (memoryFileReader (.replicate (kBufferSize + 1) 0))).run ({ reader := 0 }, {})
        [.seek (.fromBits 1)] = .ok (answers, self, collected) ∧
      Size.fromBits (kBufferSize * 8) ≤ .fromBytesAndOffset kBufferSize 7 ∧
      ∃ next added, self.ensureBuffer (memoryFileReader (.replicate (kBufferSize + 1) 0))
          (.fromBits (kBufferSize * 8)) collected = .ok (true, next, added) ∧
        ¬ (Delivers next (.fromBits (kBufferSize * 8)) ∨
          AtEnd (memoryFileReader (.replicate (kBufferSize + 1) 0))
            (.replicate (kBufferSize + 1) 0) next) := by
  have limit : Size.fromBits (kBufferSize * 8) ≤ .fromBytesAndOffset kBufferSize 7 := by decide
  have whole : (Size.fromBits (kBufferSize * 8)).bitCount = kBufferSize * 8 := by decide
  have length : (List.replicate (kBufferSize + 1) (0 : UInt8)).length = kBufferSize + 1 :=
    List.length_replicate
  generalize List.replicate (kBufferSize + 1) (0 : UInt8) = contents at length ⊢
  have contract := memoryFileReader_contract contents
  have empty : ({ reader := 0 } : BufferedFileReader (Fin (contents.length + 1))).used = 0 := rfl
  obtain ⟨self, sought, tracks⟩ := seek_of_empty contract empty (.fromBits 1) {}
  have one : (Size.fromBits 1).bitCount = 1 := rfl
  rw [one] at tracks
  obtain ⟨next, ensured, -, ensures, -⟩ :=
    tracks.intact.ensureBuffer contract limit (Or.inr tracks.cursor) {}
  refine ⟨[⟨true, self.position, none⟩], self, {}, ?_, limit, next, {}, ensured, ?_⟩
  · simp only [Machine.run, machine, answer, sought]
  · rw [ensures.reached rfl, Fits, whole, tracks.position_bitOffset, tracks.cursor]
    have windowEnd := tracks.windowEnd_eq
    have room := self.used_le
    have shown := length_shown self
    omega

end BinaryReader.BufferedFileReader

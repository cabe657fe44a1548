import BinaryReader.Public.FileSystem.Breakdown
import BinaryReader.Util.BufferedFileReader.Window

/-!
# Buffering a reader that breaks down

Over a reader that never reads again after a failure, the window always shows the
file.  Only a `Seek` that failed leaves the underlying reader elsewhere, and then
the window is empty.
-/

namespace BinaryReader.BufferedFileReader

variable {σ : Type} {fileReader : FileReader σ} {contents : List UInt8} {broken : σ → Prop}

/-- The window shows the file, and what is read behind it comes from there, if anything does. -/
structure Ready (fileReader : FileReader σ) (contents : List UInt8) (broken : σ → Prop)
    (file : BufferedFileReader σ) : Prop extends Intact contents file where
  resumes : InStep fileReader contents file ∨ broken file.reader

/-- The same, or the window is empty. -/
structure Steady (fileReader : FileReader σ) (contents : List UInt8) (broken : σ → Prop)
    (file : BufferedFileReader σ) : Prop extends Intact contents file where
  resumes : file.used = 0 ∨ InStep fileReader contents file ∨ broken file.reader

theorem Ready.steady {file : BufferedFileReader σ}
    (ready : Ready fileReader contents broken file) : Steady fileReader contents broken file :=
  ⟨ready.toIntact, Or.inr ready.resumes⟩

theorem steady_new (reader : σ) (buffer : Nat → UInt8) :
    Steady fileReader contents broken { reader, buffer } := by
  have shaped : Shaped { reader, buffer } :=
    ⟨show Size.zero.byteCount * 8 = Size.zero.bitCount by rfl,
      show 0 < 2 ^ 64 by decide, Or.inl (show 0 < 8 by decide)⟩
  exact ⟨⟨shaped, nofun⟩, Or.inl rfl⟩

/-- A `Seek` that succeeds leaves the window or finds it in order. -/
theorem Steady.seek (breaks : fileReader.BreaksDown contents broken) {self : BufferedFileReader σ}
    (steady : Steady fileReader contents broken self) (target : Size) (errors : ErrorCollection) :
    ∃ returned next collected, self.seek fileReader target errors = (returned, next, collected) ∧
      Adds returned errors collected ∧ Steady fileReader contents broken next ∧
      next.position = target ∧ (returned = true → Ready fileReader contents broken next) := by
  by_cases covered : self.Covers target
  · obtain ⟨shaped, position⟩ := steady.shaped.move covered
    have resumes : InStep fileReader contents self ∨ broken self.reader :=
      steady.resumes.resolve_left fun empty => not_covers_of_empty empty target covered
    have ready : Ready fileReader contents broken
        { self with bufferOffset := target - self.startPosition } :=
      ⟨⟨shaped, steady.holds⟩, resumes⟩
    exact ⟨true, _, errors, seek_covered covered errors, rfl, ready.steady, position,
      fun _ => ready⟩
  · rcases sought : fileReader.seek self.reader target.byteCount with ⟨info | reached, reader⟩
    · obtain ⟨shaped, position, -⟩ := shaped_restart self target reader
      exact ⟨false, _, _, seek_error covered sought errors, ⟨info, rfl⟩,
        ⟨⟨shaped, holds_restart self target reader⟩, Or.inl rfl⟩, position,
        fun impossible => absurd impossible Bool.false_ne_true⟩
    · obtain ⟨shaped, position, -⟩ := shaped_restart self target reader
      have ready : Ready fileReader contents broken { self.restart target with reader } :=
        ⟨⟨shaped, holds_restart self target reader⟩,
          Or.inl (inStep_restart breaks.fallible self sought)⟩
      exact ⟨true, _, errors, seek_ok covered sought errors, rfl, ready.steady, position,
        fun _ => ready⟩

/-- A loop that fails has broken the reader. -/
theorem broken_of_fill (breaks : fileReader.BreaksDown contents broken) {size : Size}
    {errors collected : ErrorCollection} {fuel : Nat} {self next : BufferedFileReader σ}
    (filled : fill fileReader size errors fuel self = .ok (false, next, collected)) :
    broken next.reader := by
  induction fuel generalizing self with
  | zero => cases filled
  | succ fuel inductionHypothesis =>
      rw [fill] at filled
      split_ifs at filled
      · rcases returned : fileReader.read self.reader (kBufferSize - self.used) with
          ⟨info | bytes, reader⟩
        · rw [returned] at filled
          cases filled
          exact breaks.read_breaks returned
        · rw [returned] at filled
          obtain ⟨stored, -, rest⟩ := Checked.bind_eq_ok_iff.mp filled
          split_ifs at rest
          · cases rest
          · exact inductionHypothesis rest
      · cases filled

/-- The loop over a broken reader stores nothing, and succeeds only if it has nothing to do. -/
theorem fill_of_broken (breaks : fileReader.BreaksDown contents broken) {size : Size}
    {errors collected : ErrorCollection} {fuel : Nat} {self next : BufferedFileReader σ}
    {returned : Bool} (isBroken : broken self.reader)
    (filled : fill fileReader size errors fuel self = .ok (returned, next, collected)) :
    next = { self with reader := next.reader } ∧ broken next.reader ∧
      (returned = true → (self.bufferOffset + size).bitCount ≤ self.used * 8) := by
  cases fuel with
  | zero => cases filled
  | succ fuel =>
      rw [fill] at filled
      split_ifs at filled with short
      · rcases read : fileReader.read self.reader (kBufferSize - self.used) with
          ⟨info | bytes, reader⟩
        · rw [read] at filled
          cases filled
          exact ⟨rfl, breaks.read_breaks read,
            fun impossible => absurd impossible Bool.false_ne_true⟩
        · exact absurd read (breaks.read_broken isBroken)
      · cases filled
        rw [Size.lt_iff, bitCount_fromBytes_used] at short
        exact ⟨rfl, isBroken, fun _ => Nat.le_of_not_lt short⟩

structure Supplies (fileReader : FileReader σ) (contents : List UInt8) (broken : σ → Prop)
    (size : Size) (file : BufferedFileReader σ) (returned : Bool) (next : BufferedFileReader σ) :
    Prop where
  steady : Steady fileReader contents broken next
  position : next.position = file.position
  shown : file.shown <+: next.shown
  ready : returned = true → Ready fileReader contents broken next
  reached : returned = true → file.position.bitOffset + size.bitCount ≤ kBufferSize * 8 →
    Delivers next size ∨ contents.length ≤ next.windowEnd

theorem Ready.ensureBuffer (breaks : fileReader.BreaksDown contents broken)
    {self : BufferedFileReader σ} (ready : Ready fileReader contents broken self) {size : Size}
    (limit : size ≤ .fromBytesAndOffset kBufferSize 7) (errors : ErrorCollection) :
    ∃ returned next collected,
      self.ensureBuffer fileReader size errors = .ok (returned, next, collected) ∧
      Adds returned errors collected ∧
      Supplies fileReader contents broken size self returned next := by
  obtain ⟨returned, next, collected, ensured, ensures, adds⟩ :=
    ready.shaped.ensureBuffer_spec breaks.fallible limit errors
  refine ⟨returned, next, collected, ensured, adds, ?_⟩
  obtain ⟨_, -, afterFirst⟩ := Checked.bind_eq_ok_iff.mp ensured
  obtain ⟨_, -, afterSecond⟩ := Checked.bind_eq_ok_iff.mp afterFirst
  obtain ⟨_, -, afterThird⟩ := Checked.bind_eq_ok_iff.mp afterSecond
  obtain ⟨room, made, filled⟩ := Checked.bind_eq_ok_iff.mp afterThird
  obtain ⟨same, madeEq, moves, -⟩ := ready.shaped.makeRoom_spec contents size
  cases made.symm.trans madeEq
  rcases ready.resumes with inStep | isBroken
  · have intact : Intact contents next :=
      ⟨ensures.shaped, ensures.holds ready.holds (Or.inr inStep)⟩
    cases returned with
    | false =>
        exact ⟨⟨intact, Or.inr (Or.inr (broken_of_fill breaks filled))⟩, ensures.position,
          ensures.shown, fun impossible => absurd impossible Bool.false_ne_true,
          fun impossible => absurd impossible Bool.false_ne_true⟩
    | true =>
        have nextStep := ensures.inStep breaks.fallible inStep
        refine ⟨⟨intact, Or.inr (Or.inl nextStep)⟩, ensures.position, ensures.shown,
          fun _ => ⟨intact, Or.inl nextStep⟩, ?_⟩
        intro _ small
        exact ((ensures.reached rfl).mpr (Or.inl small)).imp_right
          (InStep.atEnd_iff nextStep).mp
  · rw [← moves.reader] at isBroken
    obtain ⟨nextEq, nextBroken, idle⟩ := fill_of_broken breaks isBroken filled
    have holds : Holds contents next := by
      rw [nextEq]
      exact moves.holds ready.holds
    have intact : Intact contents next := ⟨ensures.shaped, holds⟩
    refine ⟨⟨intact, Or.inr (Or.inr nextBroken)⟩, ensures.position, ensures.shown,
      fun _ => ⟨intact, Or.inr nextBroken⟩, ?_⟩
    intro succeeded _
    have needed := moves.shaped.needed_eq limit
    have inRoom := moves.shaped.offset_eq.2.1
    have shown : next.shown = room.shown := by
      rw [nextEq]
      rfl
    have enough := idle succeeded
    rw [Delivers, ensures.position, ← moves.position, shown]
    omega

theorem Supplies.reaches {file filled last : BufferedFileReader σ} {size : Size}
    (supplies : Supplies fileReader contents broken size file true filled)
    (gives : Supplies fileReader contents broken (.fromBits 1) filled true last)
    (small : file.position.bitOffset + size.bitCount ≤ kBufferSize * 8) :
    Delivers last size ∨ contents.length ≤ last.windowEnd := by
  have first := supplies.reached rfl small
  have longer := gives.shown.length_le
  have before := (supplies.ready rfl).windowEnd_eq
  have behind := (gives.ready rfl).windowEnd_eq
  rw [gives.position] at behind
  rw [Delivers] at first ⊢
  rw [gives.position]
  omega

theorem Ready.getBuffer (breaks : fileReader.BreaksDown contents broken)
    {self : BufferedFileReader σ} (ready : Ready fileReader contents broken self)
    (errors : ErrorCollection) :
    ∃ returned next collected,
      self.getBuffer fileReader errors =
        .ok (if returned then some next.shown else none, next, collected) ∧
      Adds returned errors collected ∧
      Supplies fileReader contents broken (.fromBits 1) self returned next := by
  have limit : Size.fromBits 1 ≤ .fromBytesAndOffset kBufferSize 7 := by decide
  obtain ⟨returned, next, collected, ensured, adds, supplies⟩ :=
    ready.ensureBuffer breaks limit errors
  refine ⟨returned, next, collected, ?_, adds, supplies⟩
  rw [BufferedFileReader.getBuffer, ensured, Checked.ok_bind]
  cases returned with
  | false => rfl
  | true =>
      simp only [if_true, supplies.steady.shaped.visible_eq, Checked.ok_bind]
      rfl

end BinaryReader.BufferedFileReader

import BinaryReader.Util.BufferedFileReader.Steps

/-!
# The window of the buffered reader

`Tracks` ties the fields of the reader together: the window is aligned to a
byte, holds the contents of the file from its start on, the position lies in it
or at its start, and the underlying reader stands at its end.  Every operation
keeps `Tracks`, over every reader that keeps its contract.
-/

namespace BinaryReader.BufferedFileReader

variable {σ : Type} {fileReader : FileReader σ} {contents : List UInt8}

structure Tracks (fileReader : FileReader σ) (contents : List UInt8) (file : BufferedFileReader σ)
    (position : Nat) : Prop where
  aligned : file.startPosition.byteCount * 8 = file.startPosition.bitCount
  position_eq : file.startPosition.bitCount + file.bufferOffset.bitCount = position
  position_lt : position < 2 ^ 64
  offset_lt : file.bufferOffset.bitCount < 8 ∨ file.bufferOffset.bitCount < file.used * 8
  window : ∀ index < file.used,
    contents[file.startPosition.byteCount + index]? = some (file.buffer index)
  cursor : fileReader.position file.reader = min file.windowEnd contents.length

/-- The window shows the file, wherever the underlying reader stands. -/
structure Intact (contents : List UInt8) (file : BufferedFileReader σ) : Prop where
  shaped : Shaped file
  holds : Holds contents file

namespace Intact

variable {self : BufferedFileReader σ} (intact : Intact contents self)
include intact

/-- A `Seek` stays in the window, or brings the underlying reader to the end of a new one. -/
theorem seek (contract : fileReader.Contract contents) (target : Size)
    (errors : ErrorCollection) :
    ∃ next, self.seek fileReader target errors = (true, next, errors) ∧
      Intact contents next ∧ next.position = target ∧
      (InStep fileReader contents self → InStep fileReader contents next) ∧
      (self.Covers target → next.windowEnd = self.windowEnd) ∧
      (¬ self.Covers target → InStep fileReader contents next) := by
  by_cases covered : self.Covers target
  · obtain ⟨shaped, position⟩ := intact.shaped.move covered
    refine ⟨_, seek_covered covered errors, ⟨shaped, intact.holds⟩, position, ?_, ?_, ?_⟩
    · intro inStep
      exact inStep
    · intro _
      rfl
    · intro outside
      exact absurd covered outside
  · obtain ⟨reader, sought, -⟩ := contract.seek self.reader target.byteCount
    obtain ⟨shaped, position, -⟩ := shaped_restart self target reader
    have inStep := inStep_restart contract.fallible self sought
    exact ⟨_, seek_ok covered sought errors, ⟨shaped, holds_restart self target reader⟩, position,
      fun _ => inStep, fun inside => absurd inside covered, fun _ => inStep⟩

theorem windowEnd_eq : self.windowEnd = self.position.byteCount + self.shown.length := by
  have byte := intact.shaped.byte_eq
  have inWindow := intact.shaped.byteOffset_le
  rw [length_shown, windowEnd, byte]
  omega

theorem delivers_iff (size : Size) :
    Delivers self size ↔ self.position.bitCount + size.bitCount ≤ self.windowEnd * 8 := by
  have split := self.position.byteCount_bitOffset
  rw [Delivers, intact.windowEnd_eq]
  omega

/-- Over a reader that never fails, `EnsureBuffer` returns true and the window shows the
file if it had the size already or the underlying reader stood at its end. -/
theorem ensureBuffer (contract : fileReader.Contract contents) {size : Size}
    (limit : size ≤ .fromBytesAndOffset kBufferSize 7)
    (safe : Delivers self size ∨ InStep fileReader contents self) (errors : ErrorCollection) :
    ∃ next, self.ensureBuffer fileReader size errors = .ok (true, next, errors) ∧
      Intact contents next ∧ Ensures fileReader contents size self true next ∧
      (InStep fileReader contents self → InStep fileReader contents next) := by
  obtain ⟨returned, next, collected, ensured, ensures, adds⟩ :=
    intact.shaped.ensureBuffer_spec contract.fallible limit errors
  cases returned with
  | false =>
      obtain ⟨_, _, _, _, failed⟩ := ensures.failed rfl
      exact absurd failed contract.read_ne_error
  | true =>
      cases adds
      exact ⟨next, ensured, ⟨ensures.shaped, ensures.holds intact.holds safe⟩, ensures,
        ensures.inStep contract.fallible⟩

theorem getBuffer (contract : fileReader.Contract contents)
    (safe : Delivers self (.fromBits 1) ∨ InStep fileReader contents self)
    (errors : ErrorCollection) :
    ∃ next, self.getBuffer fileReader errors = .ok (some next.shown, next, errors) ∧
      Intact contents next ∧ Ensures fileReader contents (.fromBits 1) self true next ∧
      (InStep fileReader contents self → InStep fileReader contents next) := by
  obtain ⟨next, ensured, nextIntact, ensures, steps⟩ :=
    intact.ensureBuffer contract (by decide) safe errors
  refine ⟨next, ?_, nextIntact, ensures, steps⟩
  rw [BufferedFileReader.getBuffer, ensured, Checked.ok_bind]
  simp only [if_true, nextIntact.shaped.visible_eq, Checked.ok_bind]
  rfl

end Intact

theorem Intact.tracks {file : BufferedFileReader σ} (intact : Intact contents file)
    (inStep : InStep fileReader contents file) :
    Tracks fileReader contents file file.position.bitCount :=
  ⟨intact.shaped.aligned, intact.shaped.position_bitCount.symm, file.position.bitCount_lt,
    intact.shaped.offset_lt, intact.holds, inStep⟩

namespace Tracks

variable {self : BufferedFileReader σ} {position : Nat}
variable (tracks : Tracks fileReader contents self position)
include tracks

theorem intact : Intact contents self :=
  ⟨⟨tracks.aligned, tracks.position_eq ▸ tracks.position_lt, tracks.offset_lt⟩, tracks.window⟩

theorem shaped : Shaped self := tracks.intact.shaped

theorem position_bitCount : self.position.bitCount = position :=
  tracks.shaped.position_bitCount.trans tracks.position_eq

theorem here : Tracks fileReader contents self self.position.bitCount := by
  rw [tracks.position_bitCount]
  exact tracks

theorem position_eq_fromBits : self.position = .fromBits position := by
  apply Size.bitCount_injective
  rw [tracks.position_bitCount, Size.bitCount_fromBits_of_lt tracks.position_lt]

theorem position_byteCount : self.position.byteCount = position / 8 := by
  rw [Size.byteCount, tracks.position_bitCount]

theorem position_bitOffset : self.position.bitOffset = position % 8 := by
  rw [Size.bitOffset, tracks.position_bitCount]

theorem windowEnd_eq : self.windowEnd = position / 8 + self.shown.length := by
  rw [tracks.intact.windowEnd_eq, tracks.position_byteCount]

end Tracks

theorem tracks_start (reader : σ) (buffer : Nat → UInt8)
    (atStart : fileReader.position reader = 0) :
    Tracks fileReader contents { reader, buffer } 0 where
  aligned := show Size.zero.byteCount * 8 = Size.zero.bitCount by decide
  position_eq := rfl
  position_lt := by decide
  offset_lt := Or.inl (show 0 < 8 by decide)
  window := nofun
  cursor := by
    change fileReader.position reader = min (Size.zero.byteCount + 0) contents.length
    rw [atStart, Size.byteCount, Size.bitCount_zero, Nat.zero_div, Nat.add_zero, Nat.zero_min]

theorem not_covers_of_empty {self : BufferedFileReader σ} (empty : self.used = 0) (target : Size) :
    ¬ self.Covers target := by
  have bound := self.startPosition.bitCount_lt
  rw [Covers, Size.le_iff, Size.lt_iff, Size.bitCount_add, bitCount_fromBytes_used, empty]
  omega

theorem seek_of_empty (contract : fileReader.Contract contents) {self : BufferedFileReader σ}
    (empty : self.used = 0) (target : Size) (errors : ErrorCollection) :
    ∃ next, self.seek fileReader target errors = (true, next, errors) ∧
      Tracks fileReader contents next target.bitCount := by
  have outside := not_covers_of_empty empty target
  obtain ⟨reader, sought, -⟩ := contract.seek self.reader target.byteCount
  obtain ⟨shaped, position, -⟩ := shaped_restart self target reader
  have tracks := Intact.tracks ⟨shaped, holds_restart self target reader⟩
    (inStep_restart contract.fallible self sought)
  rw [position] at tracks
  exact ⟨_, seek_ok outside sought errors, tracks⟩

theorem seek_spec (contract : fileReader.Contract contents) {self : BufferedFileReader σ}
    {position : Nat} (tracks : Tracks fileReader contents self position) (target : Size)
    (errors : ErrorCollection) :
    ∃ next, self.seek fileReader target errors = (true, next, errors) ∧
      Tracks fileReader contents next target.bitCount := by
  obtain ⟨next, sought, intact, rfl, steps, -⟩ := tracks.intact.seek contract target errors
  exact ⟨next, sought, intact.tracks (steps tracks.cursor)⟩

/-- A reader that can be sought: a new one, or one that shows the file somewhere. -/
def Usable (fileReader : FileReader σ) (contents : List UInt8) (file : BufferedFileReader σ) :
    Prop :=
  file.used = 0 ∨ ∃ position, Tracks fileReader contents file position

theorem Tracks.usable {self : BufferedFileReader σ} {position : Nat}
    (tracks : Tracks fileReader contents self position) : Usable fileReader contents self :=
  Or.inr ⟨position, tracks⟩

theorem Usable.seek (contract : fileReader.Contract contents) {self : BufferedFileReader σ}
    (usable : Usable fileReader contents self) (target : Size) (errors : ErrorCollection) :
    ∃ next, self.seek fileReader target errors = (true, next, errors) ∧
      Tracks fileReader contents next target.bitCount := by
  rcases usable with empty | ⟨position, tracks⟩
  · exact seek_of_empty contract empty target errors
  · exact seek_spec contract tracks target errors

theorem skip_spec (contract : fileReader.Contract contents) {self : BufferedFileReader σ}
    {position : Nat} (tracks : Tracks fileReader contents self position) (count : Size)
    (errors : ErrorCollection) :
    ∃ next, self.skip fileReader count errors = (true, next, errors) ∧
      Tracks fileReader contents next ((position + count.bitCount) % 2 ^ 64) := by
  obtain ⟨next, sought, moved⟩ := seek_spec contract tracks (self.position + count) errors
  rw [Size.bitCount_add, tracks.position_bitCount] at moved
  exact ⟨next, sought, moved⟩

/-- How far a call of `EnsureBuffer` reads: to what was asked for, or to the end. -/
def Reaches (contents : List UInt8) (position size reached : Nat) : Prop :=
  position + size ≤ reached * 8 ∨ contents.length ≤ reached

/-- `EnsureBuffer` never fails an assertion. Unless the position is inside a byte
and the buffer has no room for the rest of `size`, it reads all of it. -/
theorem ensureBuffer_spec (contract : fileReader.Contract contents)
    {self : BufferedFileReader σ} {position : Nat}
    (tracks : Tracks fileReader contents self position) {size : Size}
    (limit : size ≤ .fromBytesAndOffset kBufferSize 7) (errors : ErrorCollection) :
    ∃ next, self.ensureBuffer fileReader size errors = .ok (true, next, errors) ∧
      Tracks fileReader contents next position ∧ self.windowEnd ≤ next.windowEnd ∧
      (position % 8 + size.bitCount ≤ kBufferSize * 8 →
        Reaches contents position size.bitCount next.windowEnd) := by
  obtain ⟨next, ensured, intact, ensures, steps⟩ :=
    tracks.intact.ensureBuffer contract limit (Or.inr tracks.cursor) errors
  have kept := intact.tracks (steps tracks.cursor)
  rw [ensures.position, tracks.position_bitCount] at kept
  refine ⟨next, ensured, kept, ensures.windowEnd ▸ Nat.le_add_right _ _, ?_⟩
  intro small
  have fits : Fits fileReader contents size self :=
    Or.inl (by rwa [tracks.position_bitOffset])
  rcases (ensures.reached rfl).mpr fits with delivered | atEnd
  · rw [intact.delivers_iff, kept.position_bitCount] at delivered
    exact Or.inl delivered
  · exact Or.inr ((InStep.atEnd_iff kept.cursor).mp atEnd)

/-- What `GetBuffer` gives out is the file from the byte of the position on. -/
theorem getBuffer_spec (contract : fileReader.Contract contents)
    {self : BufferedFileReader σ} {position : Nat}
    (tracks : Tracks fileReader contents self position) (errors : ErrorCollection) :
    ∃ bytes next, self.getBuffer fileReader errors = .ok (some bytes, next, errors) ∧
      Tracks fileReader contents next position ∧ self.windowEnd ≤ next.windowEnd ∧
      bytes = (contents.drop (position / 8)).take bytes.length ∧
      bytes.length = next.windowEnd - position / 8 ∧
      (0 < bytes.length ↔ position / 8 < contents.length) := by
  obtain ⟨next, got, intact, ensures, steps⟩ :=
    tracks.intact.getBuffer contract (Or.inr tracks.cursor) errors
  have kept := intact.tracks (steps tracks.cursor)
  rw [ensures.position, tracks.position_bitCount] at kept
  obtain ⟨shownEq, bound⟩ := intact.holds.shown_eq intact.shaped
  rw [kept.position_byteCount] at shownEq bound
  have windowEnd := kept.windowEnd_eq
  refine ⟨next.shown, next, got, kept, ensures.windowEnd ▸ Nat.le_add_right _ _, shownEq,
    by omega, ?_⟩
  rw [List.length_drop] at bound
  rcases (ensures.reached rfl).mpr (fits_one self) with delivered | atEnd
  · rw [delivers_one_iff] at delivered
    exact iff_of_true delivered (by omega)
  · have behind := (InStep.atEnd_iff kept.cursor).mp atEnd
    omega

end BinaryReader.BufferedFileReader

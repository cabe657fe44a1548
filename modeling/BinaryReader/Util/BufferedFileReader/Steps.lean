import BinaryReader.Util.BufferedFileReader

/-!
# What each operation does

The operations over readers whose calls may fail.  `Shaped` is kept by every
call.  The window `Holds` the file as long as bytes are only read while the
reader is `InStep`, that is, while the underlying reader stands at the end of
the window.
-/

namespace BinaryReader.BufferedFileReader

variable {σ : Type} {fileReader : FileReader σ} {contents : List UInt8}

def windowEnd (self : BufferedFileReader σ) : Nat := self.startPosition.byteCount + self.used

/-- The window starts at a byte and the position lies in it or at its start. -/
structure Shaped (file : BufferedFileReader σ) : Prop where
  aligned : file.startPosition.byteCount * 8 = file.startPosition.bitCount
  position_lt : file.startPosition.bitCount + file.bufferOffset.bitCount < 2 ^ 64
  offset_lt : file.bufferOffset.bitCount < 8 ∨ file.bufferOffset.bitCount < file.used * 8

def Holds (contents : List UInt8) (file : BufferedFileReader σ) : Prop :=
  ∀ index < file.used,
    contents[file.startPosition.byteCount + index]? = some (file.buffer index)

/-- The underlying reader stands at the end of the window. -/
def InStep (fileReader : FileReader σ) (contents : List UInt8) (file : BufferedFileReader σ) :
    Prop :=
  fileReader.position file.reader = min file.windowEnd contents.length

@[simp]
theorem bitCount_fromBytes_used (self : BufferedFileReader σ) :
    (Size.fromBytes self.used).bitCount = self.used * 8 := by
  have bound := self.used_le
  rw [Size.bitCount_fromBytes, kBufferSize] at *
  exact Nat.mod_eq_of_lt (by omega)

namespace Shaped

variable {self : BufferedFileReader σ} (shaped : Shaped self)
include shaped

theorem position_bitCount :
    self.position.bitCount = self.startPosition.bitCount + self.bufferOffset.bitCount := by
  rw [BufferedFileReader.position, Size.bitCount_add]
  exact Nat.mod_eq_of_lt shaped.position_lt

theorem byte_eq :
    self.position.byteCount = self.startPosition.byteCount + self.bufferOffset.byteCount := by
  have aligned := shaped.aligned
  have positionEq := shaped.position_bitCount
  unfold Size.byteCount at *
  omega

theorem bitOffset_eq : self.bufferOffset.bitOffset = self.position.bitOffset := by
  have aligned := shaped.aligned
  have positionEq := shaped.position_bitCount
  unfold Size.bitOffset
  omega

theorem byteOffset_le : self.bufferOffset.byteCount ≤ self.used := by
  have offset := shaped.offset_lt
  unfold Size.byteCount
  omega

end Shaped

def shown (file : BufferedFileReader σ) : List UInt8 :=
  (List.range (file.used - file.bufferOffset.byteCount)).map fun index =>
    file.buffer (file.bufferOffset.byteCount + index)

@[simp]
theorem length_shown (file : BufferedFileReader σ) :
    file.shown.length = file.used - file.bufferOffset.byteCount := by
  simp [shown]

theorem Shaped.visible_eq {self : BufferedFileReader σ} (shaped : Shaped self) :
    self.visible = .ok self.shown :=
  if_neg (Nat.not_lt_of_le shaped.byteOffset_le)

theorem Holds.shown_eq {self : BufferedFileReader σ} (holds : Holds contents self)
    (shaped : Shaped self) :
    self.shown = (contents.drop self.position.byteCount).take self.shown.length ∧
      self.shown.length ≤ (contents.drop self.position.byteCount).length := by
  have inWindow := shaped.byteOffset_le
  have bytesEq : self.shown =
      (contents.drop self.position.byteCount).take self.shown.length := by
    apply List.ext_getElem?
    intro index
    rw [List.getElem?_take, List.getElem?_drop, shaped.byte_eq, length_shown]
    split
    next inside =>
      have found := holds (self.bufferOffset.byteCount + index) (by omega)
      rw [Nat.add_assoc, found, shown, List.getElem?_map, List.getElem?_range inside,
        Option.map_some]
    next outside =>
      rw [List.getElem?_eq_none (by rw [length_shown]; omega)]
  have length := congrArg List.length bytesEq
  rw [List.length_take] at length
  exact ⟨bytesEq, by omega⟩

def Covers (file : BufferedFileReader σ) (target : Size) : Prop :=
  file.startPosition ≤ target ∧ target < file.startPosition + .fromBytes file.used

instance (file : BufferedFileReader σ) (target : Size) : Decidable (file.Covers target) :=
  inferInstanceAs (Decidable (_ ∧ _))

theorem seek_covered {self : BufferedFileReader σ} {target : Size} (covered : self.Covers target)
    (errors : ErrorCollection) :
    self.seek fileReader target errors =
      (true, { self with bufferOffset := target - self.startPosition }, errors) :=
  if_pos covered

theorem seek_ok {self : BufferedFileReader σ} {target : Size} (outside : ¬ self.Covers target)
    {reached : Nat} {reader : σ}
    (sought : fileReader.seek self.reader target.byteCount = (.ok reached, reader))
    (errors : ErrorCollection) :
    self.seek fileReader target errors = (true, { self.restart target with reader }, errors) :=
  (if_neg outside).trans (by rw [sought])

theorem seek_error {self : BufferedFileReader σ} {target : Size} (outside : ¬ self.Covers target)
    {info : ErrorInfo} {reader : σ}
    (failed : fileReader.seek self.reader target.byteCount = (.error info, reader))
    (errors : ErrorCollection) :
    self.seek fileReader target errors =
      (false, { self.restart target with reader }, errors.add info) :=
  (if_neg outside).trans (by rw [failed])

theorem shaped_restart (self : BufferedFileReader σ) (target : Size) (reader : σ) :
    Shaped { self.restart target with reader } ∧
      ({ self.restart target with reader } : BufferedFileReader σ).position = target ∧
      (self.restart target).startPosition.byteCount = target.byteCount := by
  have start : target.clipToByte.bitCount = target.byteCount * 8 := Size.bitCount_clipToByte target
  have inByte := target.bitOffset_lt
  have split := target.byteCount_bitOffset
  have bound := target.bitCount_lt
  have offset := Size.bitCount_fromBits_bitOffset target
  have startByte := Size.byteCount_clipToByte target
  have shaped : Shaped { self.restart target with reader } := by
    refine ⟨?_, ?_, Or.inl ?_⟩
    · simp only [restart, startByte, start]
    · simp only [restart, start, offset]
      omega
    · simp only [restart, offset]
      exact inByte
  refine ⟨shaped, ?_, startByte⟩
  apply Size.bitCount_injective
  rw [shaped.position_bitCount]
  simp only [restart, start, offset]
  exact split

theorem holds_restart (self : BufferedFileReader σ) (target : Size) (reader : σ) :
    Holds contents { self.restart target with reader } := by
  intro index inside
  exact absurd inside (Nat.not_lt_zero index)

theorem Shaped.move {self : BufferedFileReader σ} (shaped : Shaped self) {target : Size}
    (covered : self.Covers target) :
    Shaped { self with bufferOffset := target - self.startPosition } ∧
      ({ self with bufferOffset := target - self.startPosition } :
        BufferedFileReader σ).position = target := by
  have lower : self.startPosition.bitCount ≤ target.bitCount := covered.1
  have upper := covered.2
  rw [Size.lt_iff, Size.bitCount_add, bitCount_fromBytes_used] at upper
  have notWrapped := Nat.mod_le (self.startPosition.bitCount + self.used * 8) (2 ^ 64)
  have offset := Size.bitCount_sub_of_le lower
  have bound := target.bitCount_lt
  have moved : Shaped { self with bufferOffset := target - self.startPosition } := by
    refine ⟨shaped.aligned, ?_, Or.inr ?_⟩
    · simp only [offset]
      omega
    · simp only [offset]
      omega
  refine ⟨moved, Size.bitCount_injective ?_⟩
  rw [moved.position_bitCount]
  simp only [offset]
  omega

theorem Shaped.seek {self : BufferedFileReader σ} (shaped : Shaped self)
    (fileReader : FileReader σ) (target : Size) (errors : ErrorCollection) :
    Shaped (self.seek fileReader target errors).2.1 ∧
      (self.seek fileReader target errors).2.1.position = target := by
  by_cases covered : self.Covers target
  · rw [seek_covered covered]
    exact shaped.move covered
  · rcases sought : fileReader.seek self.reader target.byteCount with ⟨info | reached, reader⟩
    · rw [seek_error covered sought]
      exact ⟨(shaped_restart self target reader).1, (shaped_restart self target reader).2.1⟩
    · rw [seek_ok covered sought]
      exact ⟨(shaped_restart self target reader).1, (shaped_restart self target reader).2.1⟩

theorem Holds.seek {self : BufferedFileReader σ} (holds : Holds contents self)
    (fileReader : FileReader σ) (target : Size) (errors : ErrorCollection) :
    Holds contents (self.seek fileReader target errors).2.1 := by
  by_cases covered : self.Covers target
  · rw [seek_covered covered]
    exact holds
  · rcases sought : fileReader.seek self.reader target.byteCount with ⟨info | reached, reader⟩
    · rw [seek_error covered sought]
      exact holds_restart self target reader
    · rw [seek_ok covered sought]
      exact holds_restart self target reader

/-- A successful `Seek` of the underlying reader brings it to the window again. -/
theorem inStep_restart (fallible : fileReader.Fallible contents) (self : BufferedFileReader σ)
    {target : Size} {reached : Nat} {reader : σ}
    (sought : fileReader.seek self.reader target.byteCount = (.ok reached, reader)) :
    InStep fileReader contents { self.restart target with reader } := by
  have startByte := (shaped_restart self target reader).2.2
  rw [InStep, windowEnd]
  simp only [startByte]
  exact (fallible.seek_ok sought).2

/-- `next` shows more of the file through a window that starts where it did. -/
structure Extends (file next : BufferedFileReader σ) : Prop where
  startPosition : next.startPosition = file.startPosition
  bufferOffset : next.bufferOffset = file.bufferOffset
  used : file.used ≤ next.used
  buffer : ∀ index < file.used, next.buffer index = file.buffer index

namespace Extends

theorem refl (file : BufferedFileReader σ) : file.Extends file :=
  ⟨rfl, rfl, le_rfl, fun _ _ => rfl⟩

theorem trans {first second third : BufferedFileReader σ} (early : first.Extends second)
    (late : second.Extends third) : first.Extends third where
  startPosition := late.startPosition.trans early.startPosition
  bufferOffset := late.bufferOffset.trans early.bufferOffset
  used := early.used.trans late.used
  buffer := by
    intro index inside
    rw [late.buffer index (inside.trans_le early.used), early.buffer index inside]

variable {file next : BufferedFileReader σ} (grown : file.Extends next)
include grown

theorem windowEnd : next.windowEnd = file.windowEnd + (next.used - file.used) := by
  have used := grown.used
  rw [BufferedFileReader.windowEnd, BufferedFileReader.windowEnd, grown.startPosition]
  omega

theorem position : next.position = file.position := by
  rw [BufferedFileReader.position, grown.startPosition, grown.bufferOffset,
    BufferedFileReader.position]

theorem shaped (shaped : Shaped file) : Shaped next := by
  have used := grown.used
  have offset := shaped.offset_lt
  refine ⟨?_, ?_, ?_⟩
  · rw [grown.startPosition]
    exact shaped.aligned
  · rw [grown.startPosition, grown.bufferOffset]
    exact shaped.position_lt
  · rw [grown.bufferOffset]
    omega

theorem shown (shaped : Shaped file) : file.shown <+: next.shown := by
  have inWindow := shaped.byteOffset_le
  have used := grown.used
  have count : next.used - file.bufferOffset.byteCount =
      file.used - file.bufferOffset.byteCount + (next.used - file.used) := by omega
  rw [BufferedFileReader.shown, BufferedFileReader.shown, grown.bufferOffset, count,
    List.range_add, List.map_append]
  have same : (List.range (file.used - file.bufferOffset.byteCount)).map
        (fun index => file.buffer (file.bufferOffset.byteCount + index)) =
      (List.range (file.used - file.bufferOffset.byteCount)).map
        fun index => next.buffer (file.bufferOffset.byteCount + index) := by
    apply List.map_congr_left
    intro index inside
    rw [List.mem_range] at inside
    exact (grown.buffer _ (by omega)).symm
  rw [same]
  exact List.prefix_append _ _

end Extends

theorem store_spec (self : BufferedFileReader σ) {bytes : List UInt8} (reader : σ)
    (fits : bytes.length ≤ kBufferSize - self.used) :
    ∃ next, self.store bytes reader = .ok next ∧ self.Extends next ∧ next.reader = reader ∧
      next.used = self.used + bytes.length ∧
      ∀ index < bytes.length, bytes[index]? = some (next.buffer (self.used + index)) := by
  have room := self.used_le
  refine ⟨_, dif_pos (by omega), ⟨rfl, rfl, Nat.le_add_right _ _, ?_⟩, rfl, rfl, ?_⟩
  · intro index inside
    exact if_neg (Nat.not_le_of_lt inside)
  · intro index inside
    simp only
    rw [if_pos (Nat.le_add_right _ _), Nat.add_sub_cancel_left, List.getD_eq_getElem?_getD,
      List.getElem?_eq_getElem inside, Option.getD_some]

theorem Holds.store (fallible : fileReader.Fallible contents) {self next : BufferedFileReader σ}
    (holds : Holds contents self) (inStep : InStep fileReader contents self)
    {size : Nat} {bytes : List UInt8}
    (returned : fileReader.read self.reader size = (.ok bytes, next.reader))
    (grown : self.Extends next) (used : next.used = self.used + bytes.length)
    (stored : ∀ index < bytes.length, bytes[index]? = some (next.buffer (self.used + index))) :
    Holds contents next ∧ InStep fileReader contents next := by
  obtain ⟨-, isPrefix, -, moved⟩ := fallible.read_ok returned
  have length := isPrefix.length_le
  rw [List.length_drop] at length
  rw [InStep, windowEnd] at inStep
  constructor
  · intro index inside
    by_cases old : index < self.used
    · rw [grown.startPosition, grown.buffer index old]
      exact holds index old
    · have behind : fileReader.position self.reader + (index - self.used) =
          self.startPosition.byteCount + index := by omega
      have found := stored (index - self.used) (by omega)
      rw [Nat.add_sub_cancel' (Nat.le_of_not_lt old)] at found
      obtain ⟨rest, restEq⟩ := isPrefix
      rw [grown.startPosition, ← behind, ← List.getElem?_drop, ← restEq,
        List.getElem?_append_left (by omega), found]
  · rw [InStep, windowEnd, grown.startPosition, moved, used]
    omega

structure Fills (fileReader : FileReader σ) (contents : List UInt8) (size : Size)
    (file : BufferedFileReader σ) (returned : Bool) (next : BufferedFileReader σ) : Prop where
  grown : file.Extends next
  cursor : returned = true → fileReader.position next.reader =
    fileReader.position file.reader + (next.used - file.used)
  reached : returned = true → (file.bufferOffset + size).bitCount ≤ next.used * 8 ∨
    next.used = kBufferSize ∨ fileReader.position next.reader = contents.length
  failed : returned = false → ∃ state count info after,
    fileReader.read state count = (.error info, after)
  idle : (file.bufferOffset + size).bitCount ≤ file.used * 8 → returned = true ∧ next = file
  holds : Holds contents file → InStep fileReader contents file → Holds contents next

/-- The errors a call adds: none, or the one of the underlying reader. -/
def Adds (returned : Bool) (errors collected : ErrorCollection) : Prop :=
  if returned then collected = errors else ∃ info, collected = errors.add info

/-- What the rest of the loop leaves behind, seen from in front of the bytes that were
stored last. -/
theorem Fills.after_store {size : Size} {self stored next : BufferedFileReader σ}
    {returned : Bool} {count : Nat} (fills : Fills fileReader contents size stored returned next)
    (grown : self.Extends stored) (used : stored.used = self.used + count)
    (moved : fileReader.position stored.reader = fileReader.position self.reader + count)
    (short : self.used * 8 < (self.bufferOffset + size).bitCount)
    (keeps : Holds contents self → InStep fileReader contents self →
      Holds contents stored ∧ InStep fileReader contents stored) :
    Fills fileReader contents size self returned next where
  grown := grown.trans fills.grown
  cursor := by
    intro succeeded
    have more := fills.grown.used
    rw [fills.cursor succeeded]
    omega
  reached := by
    intro succeeded
    have reached := fills.reached succeeded
    rwa [grown.bufferOffset] at reached
  failed := fills.failed
  idle := by
    intro long
    omega
  holds := by
    intro holds inStep
    exact fills.holds (keeps holds inStep).1 (keeps holds inStep).2

theorem fill_spec (fallible : fileReader.Fallible contents) (self : BufferedFileReader σ)
    (size : Size) (errors : ErrorCollection) {fuel : Nat}
    (enough : kBufferSize - self.used < fuel) :
    ∃ returned next collected,
      fill fileReader size errors fuel self = .ok (returned, next, collected) ∧
      Fills fileReader contents size self returned next ∧ Adds returned errors collected := by
  induction fuel generalizing self with
  | zero => omega
  | succ fuel inductionHypothesis =>
      have room := self.used_le
      rw [fill]
      split
      next short =>
        rw [Size.lt_iff, bitCount_fromBytes_used] at short
        rcases read : fileReader.read self.reader (kBufferSize - self.used) with
          ⟨info | bytes, reader⟩
        · refine ⟨false, { self with reader }, errors.add info, rfl, ?_, info, rfl⟩
          refine ⟨⟨rfl, rfl, le_rfl, fun _ _ => rfl⟩, nofun, nofun, ?_, ?_, ?_⟩
          · intro _
            exact ⟨_, _, _, _, read⟩
          · intro long
            omega
          · exact fun holds _ => holds
        · obtain ⟨fits, -, atEnd, moved⟩ := fallible.read_ok read
          obtain ⟨stored, storedEq, grown, rfl, used, found⟩ := store_spec self reader fits
          have keeps (holds : Holds contents self) (inStep : InStep fileReader contents self) :=
            holds.store fallible inStep read grown used found
          simp only [storedEq, Checked.ok_bind]
          split
          next none =>
            refine ⟨true, stored, errors, rfl, ?_, rfl⟩
            refine ⟨grown, ?_, ?_, nofun, ?_, fun holds inStep => (keeps holds inStep).1⟩
            · intro _
              omega
            · intro _
              rcases atEnd (List.length_eq_zero_iff.mp none) with full | endOfFile
              · exact Or.inr (Or.inl (by omega))
              · exact Or.inr (Or.inr (by omega))
            · intro long
              omega
          next some =>
            have bound := stored.used_le
            obtain ⟨returned, next, collected, filled, fills, adds⟩ :=
              inductionHypothesis stored (by omega)
            exact ⟨returned, next, collected, filled,
              fills.after_store grown used moved (by omega) keeps, adds⟩
      next long =>
        rw [Size.lt_iff, bitCount_fromBytes_used, Nat.not_lt] at long
        refine ⟨true, self, errors, rfl, ?_, rfl⟩
        refine ⟨.refl self, ?_, fun _ => Or.inl long, nofun, fun _ => ⟨rfl, rfl⟩,
          fun holds _ => holds⟩
        intro _
        omega

/-- `next` shows what `file` shows, through a window that has moved. -/
structure Moves (contents : List UInt8) (file next : BufferedFileReader σ) : Prop where
  shaped : Shaped next
  position : next.position = file.position
  windowEnd : next.windowEnd = file.windowEnd
  reader : next.reader = file.reader
  shown : next.shown = file.shown
  holds : Holds contents file → Holds contents next

/-- Compaction moves the window to the byte of the position. -/
theorem Shaped.compact_spec {self : BufferedFileReader σ} (shaped : Shaped self)
    (contents : List UInt8) :
    ∃ next, self.compact = .ok next ∧ Moves contents self next ∧
      next.bufferOffset.bitCount = self.position.bitOffset ∧
      next.used = self.used - self.bufferOffset.byteCount := by
  have inWindow := shaped.byteOffset_le
  have room := self.used_le
  have inByte := self.bufferOffset.bitOffset_lt
  have split := self.bufferOffset.byteCount_bitOffset
  have positionLt := shaped.position_lt
  have aligned := shaped.aligned
  have moved : moveBuffer self.buffer self.bufferOffset.byteCount = .ok _ := if_pos (by omega)
  have start : (self.startPosition.addAssign (.fromBytes self.bufferOffset.byteCount)).bitCount =
      self.startPosition.bitCount + self.bufferOffset.byteCount * 8 := by
    rw [Size.bitCount_addAssign, Size.bitCount_fromBytes]
    omega
  have startByte :
      (self.startPosition.addAssign (.fromBytes self.bufferOffset.byteCount)).byteCount =
        self.startPosition.byteCount + self.bufferOffset.byteCount := by
    rw [Size.byteCount, start]
    omega
  have offset := Size.bitCount_fromBits_bitOffset self.bufferOffset
  have offsetByte : (Size.fromBits self.bufferOffset.bitOffset).byteCount = 0 := by
    rw [Size.byteCount, offset]
    omega
  have nextShaped : Shaped { self with
      startPosition := self.startPosition.addAssign (.fromBytes self.bufferOffset.byteCount)
      bufferOffset := .fromBits self.bufferOffset.bitOffset } := by
    refine ⟨?_, ?_, Or.inl ?_⟩
    · simp only [startByte, start]
      omega
    · simp only [start, offset]
      omega
    · simp only [offset]
      exact inByte
  rw [compact, moved, Checked.ok_bind, if_neg (by omega)]
  refine ⟨_, rfl, ⟨⟨nextShaped.aligned, nextShaped.position_lt, Or.inl ?_⟩, ?_, ?_, rfl, ?_, ?_⟩,
    offset.trans shaped.bitOffset_eq, rfl⟩
  · simp only [offset]
    exact inByte
  · apply Size.bitCount_injective
    rw [shaped.position_bitCount]
    refine nextShaped.position_bitCount.trans ?_
    simp only [start, offset]
    omega
  · simp only [windowEnd, startByte]
    omega
  · simp only [shown, offsetByte, Nat.sub_zero]
    apply List.map_congr_left
    intro index inside
    rw [List.mem_range] at inside
    rw [if_pos (by omega), Nat.zero_add, Nat.add_comm]
  · intro holds index inside
    simp only at inside ⊢
    rw [if_pos (by omega), startByte, Nat.add_assoc, Nat.add_comm _ index]
    exact holds (index + self.bufferOffset.byteCount) (by omega)

theorem Moves.refl {self : BufferedFileReader σ} (shaped : Shaped self) :
    Moves contents self self :=
  ⟨shaped, rfl, rfl, rfl, rfl, fun holds => holds⟩

/-- The first half of `EnsureBuffer`: room for `size` behind the position, or at
least the whole buffer. -/
theorem Shaped.makeRoom_spec {self : BufferedFileReader σ} (shaped : Shaped self)
    (contents : List UInt8) (size : Size) :
    ∃ ready, self.makeRoom size = .ok ready ∧ Moves contents self ready ∧
      ((self.bufferOffset + size).bitCount ≤ kBufferSize * 8 ∧ ready = self ∨
        ready.bufferOffset.bitCount = self.position.bitOffset ∧
          ready.used = self.shown.length) := by
  by_cases tight : .fromBytes kBufferSize < self.bufferOffset + size
  · obtain ⟨ready, compacted, moves, offset, used⟩ := shaped.compact_spec contents
    refine ⟨ready, ?_, moves, Or.inr ⟨offset, ?_⟩⟩
    · rw [makeRoom, if_pos tight, compacted]
    · rw [used, length_shown]
  · rw [Size.lt_iff, Nat.not_lt] at tight
    refine ⟨self, ?_, .refl shaped, Or.inl ⟨tight, rfl⟩⟩
    rw [makeRoom, if_neg]
    rw [Size.lt_iff, Nat.not_lt]
    exact tight

theorem assertThat_of {condition : Prop} [Decidable condition] (holds : condition) :
    assertThat condition = .ok () := if_pos holds

@[simp]
theorem bitCount_limit {bytes : Nat} (small : bytes ≤ kBufferSize) :
    (Size.fromBytesAndOffset bytes 7).bitCount = bytes * 8 + 7 := by
  unfold kBufferSize at small
  rw [Size.bitCount_fromBytesAndOffset]
  omega

/-- The size asked for is buffered behind the position. -/
def Delivers (file : BufferedFileReader σ) (size : Size) : Prop :=
  file.position.bitOffset + size.bitCount ≤ file.shown.length * 8

/-- Nothing of the file is left behind what was read. -/
def AtEnd (fileReader : FileReader σ) (contents : List UInt8) (file : BufferedFileReader σ) :
    Prop :=
  fileReader.position file.reader = contents.length

/-- The buffer can hold `size` from the position on, or all that is left of the file. -/
def Fits (fileReader : FileReader σ) (contents : List UInt8) (size : Size)
    (file : BufferedFileReader σ) : Prop :=
  file.position.bitOffset + size.bitCount ≤ kBufferSize * 8 ∨
    contents.length - fileReader.position file.reader ≤ kBufferSize - file.shown.length

structure Ensures (fileReader : FileReader σ) (contents : List UInt8) (size : Size)
    (file : BufferedFileReader σ) (returned : Bool) (next : BufferedFileReader σ) : Prop where
  shaped : Shaped next
  position : next.position = file.position
  shown : file.shown <+: next.shown
  windowEnd : next.windowEnd = file.windowEnd + (next.shown.length - file.shown.length)
  cursor : returned = true → fileReader.position next.reader =
    fileReader.position file.reader + (next.shown.length - file.shown.length)
  reached : returned = true → (Delivers next size ∨ AtEnd fileReader contents next ↔
    Fits fileReader contents size file)
  failed : returned = false → ∃ state count info after,
    fileReader.read state count = (.error info, after)
  idle : Delivers file size → returned = true ∧ next.shown = file.shown
  holds : Holds contents file → Delivers file size ∨ InStep fileReader contents file →
    Holds contents next

theorem Ensures.inStep (fallible : fileReader.Fallible contents) {size : Size}
    {file next : BufferedFileReader σ} (ensures : Ensures fileReader contents size file true next)
    (inStep : InStep fileReader contents file) : InStep fileReader contents next := by
  have cursor := ensures.cursor rfl
  have windowEnd := ensures.windowEnd
  have bound := fallible.position_le next.reader
  unfold InStep at *
  omega

theorem InStep.atEnd_iff {file : BufferedFileReader σ} (inStep : InStep fileReader contents file) :
    AtEnd fileReader contents file ↔ contents.length ≤ file.windowEnd := by
  unfold InStep at inStep
  unfold AtEnd
  omega

theorem Shaped.offset_eq {self : BufferedFileReader σ} (shaped : Shaped self) :
    self.bufferOffset.bitCount =
      (self.used - self.shown.length) * 8 + self.position.bitOffset ∧
      self.shown.length ≤ self.used ∧ self.bufferOffset.bitCount ≤ kBufferSize * 8 + 7 := by
  have inWindow := shaped.byteOffset_le
  have offset := shaped.offset_lt
  have room := self.used_le
  have split := self.bufferOffset.byteCount_bitOffset
  rw [shaped.bitOffset_eq] at split
  rw [length_shown]
  omega

theorem Shaped.needed_eq {self : BufferedFileReader σ} (shaped : Shaped self) {size : Size}
    (limit : size ≤ .fromBytesAndOffset kBufferSize 7) :
    (self.bufferOffset + size).bitCount =
      (self.used - self.shown.length) * 8 + self.position.bitOffset + size.bitCount := by
  obtain ⟨offset, -, bound⟩ := shaped.offset_eq
  rw [Size.le_iff, bitCount_limit le_rfl] at limit
  unfold kBufferSize at *
  rw [Size.bitCount_add]
  omega

/-- `EnsureBuffer` fails none of its assertions and its loop ends. -/
theorem Shaped.ensureBuffer_spec {self : BufferedFileReader σ} (shaped : Shaped self)
    (fallible : fileReader.Fallible contents) {size : Size}
    (limit : size ≤ .fromBytesAndOffset kBufferSize 7) (errors : ErrorCollection) :
    ∃ returned next collected,
      self.ensureBuffer fileReader size errors = .ok (returned, next, collected) ∧
      Ensures fileReader contents size self returned next ∧ Adds returned errors collected := by
  have room := self.used_le
  have offset := shaped.offset_lt
  have offsetLimit : self.bufferOffset ≤ .fromBytesAndOffset kBufferSize 7 := by
    rw [Size.le_iff, bitCount_limit le_rfl]
    omega
  have usedLimit : self.bufferOffset ≤ .fromBytesAndOffset self.used 7 := by
    rw [Size.le_iff, bitCount_limit room]
    omega
  obtain ⟨ready, made, moves, fits⟩ := shaped.makeRoom_spec contents size
  obtain ⟨returned, next, collected, filled, fills, adds⟩ :=
    fill_spec fallible ready size errors (show kBufferSize - ready.used < kBufferSize + 1 by omega)
  refine ⟨returned, next, collected, ?_, ?_, adds⟩
  · rw [ensureBuffer, assertThat_of limit, assertThat_of offsetLimit, assertThat_of usedLimit,
      Checked.ok_bind, Checked.ok_bind, Checked.ok_bind, made, Checked.ok_bind, filled]
  have nextShaped := fills.grown.shaped moves.shaped
  have position : next.position = self.position := fills.grown.position.trans moves.position
  have readyNeeds := moves.shaped.needed_eq limit
  have selfNeeds := shaped.needed_eq limit
  obtain ⟨readyOffset, readyShown, -⟩ := moves.shaped.offset_eq
  obtain ⟨nextOffset, nextShown, -⟩ := nextShaped.offset_eq
  rw [fills.grown.bufferOffset] at nextOffset
  rw [position] at nextOffset
  rw [moves.position] at readyOffset readyNeeds
  have shownLength := congrArg List.length moves.shown
  have used := fills.grown.used
  have nextRoom := next.used_le
  have count : next.used - ready.used = next.shown.length - self.shown.length := by omega
  refine ⟨nextShaped, position, ?_, ?_, ?_, ?_, fills.failed, ?_, ?_⟩
  · rw [← moves.shown]
    exact fills.grown.shown moves.shaped
  · rw [fills.grown.windowEnd, moves.windowEnd, count]
  · intro succeeded
    rw [fills.cursor succeeded, moves.reader, count]
  · intro succeeded
    have reached := fills.reached succeeded
    have cursor := fills.cursor succeeded
    have bound := fallible.position_le next.reader
    rw [moves.reader] at cursor
    unfold Delivers AtEnd Fits
    rw [position]
    rcases fits with ⟨small, rfl⟩ | ⟨compacted, shownAll⟩
    · omega
    · omega
  · intro delivered
    unfold Delivers at delivered
    obtain ⟨succeeded, same⟩ := fills.idle (by omega)
    exact ⟨succeeded, by rw [same, moves.shown]⟩
  · intro holds safe
    rcases safe with delivered | inStep
    · unfold Delivers at delivered
      rw [(fills.idle (by omega)).2]
      exact moves.holds holds
    · apply fills.holds (moves.holds holds)
      rw [InStep, moves.reader, moves.windowEnd]
      exact inStep

theorem limit_of_ensureBuffer {self : BufferedFileReader σ} {size : Size}
    {errors : ErrorCollection} {result : Bool × BufferedFileReader σ × ErrorCollection}
    (ensured : self.ensureBuffer fileReader size errors = .ok result) :
    size ≤ .fromBytesAndOffset kBufferSize 7 := by
  obtain ⟨_, asserted, -⟩ := Checked.bind_eq_ok_iff.mp ensured
  by_contra large
  rw [assertThat, if_neg large] at asserted
  cases asserted

/-- `GetBuffer` gives out what is shown, unless `EnsureBuffer` fails. -/
theorem Shaped.getBuffer_spec {self : BufferedFileReader σ} (shaped : Shaped self)
    (fallible : fileReader.Fallible contents) (errors : ErrorCollection) :
    ∃ returned next collected,
      self.getBuffer fileReader errors =
        .ok (if returned then some next.shown else none, next, collected) ∧
      Ensures fileReader contents (.fromBits 1) self returned next ∧
      Adds returned errors collected := by
  have limit : Size.fromBits 1 ≤ .fromBytesAndOffset kBufferSize 7 := by decide
  obtain ⟨returned, next, collected, ensured, ensures, adds⟩ :=
    shaped.ensureBuffer_spec fallible limit errors
  refine ⟨returned, next, collected, ?_, ensures, adds⟩
  rw [getBuffer, ensured, Checked.ok_bind]
  cases returned with
  | false => rfl
  | true =>
      simp only [if_true, ensures.shaped.visible_eq, Checked.ok_bind]
      rfl

theorem fits_one (file : BufferedFileReader σ) :
    Fits fileReader contents (.fromBits 1) file := by
  have inByte := file.position.bitOffset_lt
  have one : (Size.fromBits 1).bitCount = 1 := rfl
  unfold Fits kBufferSize
  omega

theorem delivers_one_iff (file : BufferedFileReader σ) :
    Delivers file (.fromBits 1) ↔ 0 < file.shown.length := by
  have inByte := file.position.bitOffset_lt
  have one : (Size.fromBits 1).bitCount = 1 := rfl
  unfold Delivers
  omega

end BinaryReader.BufferedFileReader

import BinaryReader.Ast.IntegerTypeInfo
import BinaryReader.Util.BufferedFileReader.Window

/-!
# A read depends on the file and the position

`valueAt` is what a read comes to, as a function of the contents of the file and
the bit position alone.  `readValue_spec` is the only fact about `readValue`
that later modules use.
-/

namespace BinaryReader.IntegerTypeInfo

def Readable (self : IntegerTypeInfo) : Prop := 1 ≤ self.size.bitCount ∧ self.size.bitCount ≤ 64

instance (self : IntegerTypeInfo) : Decidable self.Readable := inferInstanceAs (Decidable (_ ∧ _))

theorem load_take {α : Type} {array : List α} {count index : Nat} (inside : index < count) :
    load (array.take count) index = load array index := by
  rw [load, List.getElem?_take_of_lt inside, load]

theorem load_ok {α : Type} {array : List α} {index : Nat} (inside : index < array.length) :
    ∃ value, load array index = .ok value :=
  ⟨array[index], load_of_getElem? (List.getElem?_eq_getElem inside)⟩

theorem shiftLeft_ok {value : UInt64} {count : Nat} (small : count < 64) :
    shiftLeft value count = .ok (value <<< .ofNat count) := if_pos small

theorem byteCount_eq {bitOffset size : Nat} (inByte : bitOffset < 8) (small : size ≤ 64) :
    byteCount bitOffset size = (bitOffset + size + 7) / 8 := by
  unfold byteCount finalBits
  split <;> omega

section Bounds

variable {order : ByteOrder} {buffer : List UInt8} {bitOffset size index : Nat}

theorem wholeCount_le (inByte : bitOffset < 8) (positive : 1 ≤ size) (small : size ≤ 64)
    (index_le : index ≤ 1) :
    index + wholeCount bitOffset size index ≤ byteCount bitOffset size := by
  rw [wholeCount, byteCount_eq inByte small]
  split <;> omega

theorem wholeCount_lt (inByte : bitOffset < 8) (small : size ≤ 64) (index_le : index ≤ 1)
    (final : ¬ (finalBits bitOffset size = 0 ∨ byteCount bitOffset size = 1)) :
    index + wholeCount bitOffset size index < byteCount bitOffset size := by
  rw [not_or, byteCount_eq inByte small] at final
  rw [wholeCount, if_neg final.1, byteCount_eq inByte small]
  unfold finalBits at final
  omega

theorem readFirst_take {limit : Nat} (some : 0 < limit) :
    readFirst size bitOffset (buffer.take limit) = readFirst size bitOffset buffer := by
  simp only [readFirst, load_take some]

theorem readWhole_take {limit : Nat} (count index : Nat) (value : UInt64)
    (inside : index + count ≤ limit) :
    readWhole order (buffer.take limit) count index value =
      readWhole order buffer count index value := by
  induction count generalizing index value with
  | zero => rfl
  | succ count inductionHypothesis =>
      have next (value : UInt64) := inductionHypothesis (index + 1) value (by omega)
      simp only [readWhole, load_take (show index < limit by omega), next]

theorem readLast_take {finalBits byteCount limit : Nat} {value : UInt64}
    (inside : ¬ (finalBits = 0 ∨ byteCount = 1) → index < limit) :
    readLast finalBits byteCount index (buffer.take limit) value =
      readLast finalBits byteCount index buffer value := by
  unfold readLast
  split
  · rfl
  next last => rw [load_take (inside last)]

/-- A read looks at no byte behind the ones it counts. -/
theorem readBits_take {limit : Nat} (inByte : bitOffset < 8) (positive : 1 ≤ size)
    (small : size ≤ 64) (enough : byteCount bitOffset size ≤ limit) :
    readBits order size bitOffset (buffer.take limit) = readBits order size bitOffset buffer := by
  have count := byteCount_eq inByte small
  obtain ⟨index, indexEq⟩ : ∃ index, index = if bitOffset = 0 then 0 else 1 := ⟨_, rfl⟩
  have index_le : index ≤ 1 := by
    rw [indexEq]
    split <;> omega
  have whole := wholeCount_le inByte positive small index_le
  have last (final : ¬ (finalBits bitOffset size = 0 ∨ byteCount bitOffset size = 1)) :=
    (wholeCount_lt inByte small index_le final).trans_le enough
  simp only [readBits, ← indexEq, readFirst_take (show 0 < limit by omega),
    readWhole_take _ _ _ (whole.trans enough), readLast_take last]

theorem readWhole_ok (count index : Nat) (value : UInt64) (inside : index + count ≤ buffer.length)
    (shifts : order = .littleEndian → index + count ≤ 8) :
    ∃ result, readWhole order buffer count index value = .ok result := by
  induction count generalizing index value with
  | zero => exact ⟨value, rfl⟩
  | succ count inductionHypothesis =>
      obtain ⟨byte, loaded⟩ := load_ok (show index < buffer.length by omega)
      have next (value : UInt64) := inductionHypothesis (index + 1) value (by omega)
        fun little => by
          have fits := shifts little
          omega
      rw [readWhole, loaded, Checked.ok_bind]
      split
      next little =>
        have fits := shifts little
        rw [shiftLeft_ok (by omega)]
        exact next _
      next big => exact next _

theorem readBits_ok (inByte : bitOffset < 8) (positive : 1 ≤ size) (small : size ≤ 64)
    (aligned : order = .littleEndian → bitOffset = 0)
    (enough : byteCount bitOffset size ≤ buffer.length) :
    ∃ value, readBits order size bitOffset buffer = .ok value := by
  have count := byteCount_eq inByte small
  obtain ⟨index, indexEq⟩ : ∃ index, index = if bitOffset = 0 then 0 else 1 := ⟨_, rfl⟩
  have index_le : index ≤ 1 := by
    rw [indexEq]
    split <;> omega
  have whole := wholeCount_le inByte positive small index_le
  obtain ⟨byte, loaded⟩ := load_ok (show 0 < buffer.length by omega)
  obtain ⟨first, firstEq⟩ : ∃ first, readFirst size bitOffset buffer = .ok first := by
    unfold readFirst
    split
    · exact ⟨0, rfl⟩
    next inside => exact ⟨_, by rw [shiftLeft_ok (by omega), loaded]; rfl⟩
  have shifts : order = .littleEndian → index + wholeCount bitOffset size index ≤ 8 := by
    intro little
    have zero := aligned little
    omega
  obtain ⟨value, valueEq⟩ := readWhole_ok _ index first (whole.trans enough) shifts
  have last : ∃ result, readLast (finalBits bitOffset size) (byteCount bitOffset size)
      (index + wholeCount bitOffset size index) buffer value = .ok result := by
    unfold readLast
    split
    · exact ⟨value, rfl⟩
    next final =>
      have inside := (wholeCount_lt inByte small index_le final).trans_le enough
      obtain ⟨byte, loaded⟩ := load_ok inside
      exact ⟨_, by
        rw [shiftLeft_ok (by unfold finalBits; omega), Checked.ok_bind, loaded]
        rfl⟩
  rw [readBits, firstEq, Checked.ok_bind, if_neg (by omega), ← indexEq]
  dsimp only
  rw [valueEq]
  exact last

theorem toNumber_ok {sign : Signedness} (positive : 1 ≤ size) (small : size ≤ 64)
    (value : UInt64) : ∃ number, toNumber sign size value = .ok number := by
  have top : (size + 2 ^ 64 - 1) % 2 ^ 64 = size - 1 := by omega
  unfold toNumber
  split
  next signed =>
    rw [top, shiftLeft_ok (by omega), Checked.ok_bind]
    split
    next negative =>
      split
      next partial_ =>
        rw [shiftLeft_ok (by omega)]
        exact ⟨_, rfl⟩
      next full => exact ⟨_, rfl⟩
    next nonnegative => exact ⟨_, rfl⟩
  next unsigned => exact ⟨_, rfl⟩

end Bounds

/-- A little endian value that is not made of whole bytes. -/
def Misaligned (self : IntegerTypeInfo) (position : Nat) : Prop :=
  self.order = .littleEndian ∧
    (position % 8 ≠ 0 ∨ finalBits (position % 8) self.size.bitCount ≠ 0)

instance (self : IntegerTypeInfo) (position : Nat) : Decidable (self.Misaligned position) :=
  inferInstanceAs (Decidable (_ ∧ _))

/-- The byte behind a value at a bit position. -/
def endByte (self : IntegerTypeInfo) (position : Nat) : Nat :=
  position / 8 + byteCount (position % 8) self.size.bitCount

def valueAt (self : IntegerTypeInfo) (contents : List UInt8) (position : Nat) :
    Checked (Except ErrorInfo Number) :=
  if self.Misaligned position then
    .ok (.error (.ofKind self.debug .littleEndianAlign (position / 8)))
  else if contents.length < self.endByte position then
    .ok (.error (.ofKind self.debug .unexpectedEndOfStream 0))
  else do
    let value ← readBits self.order self.size.bitCount (position % 8) (contents.drop (position / 8))
    return .ok (← toNumber self.sign self.size.bitCount value)

theorem valueAt_number {self : IntegerTypeInfo} (readable : self.Readable)
    {contents : List UInt8} {position : Nat} (aligned : ¬ self.Misaligned position)
    (inside : ¬ contents.length < self.endByte position) :
    ∃ value number,
      readBits self.order self.size.bitCount (position % 8) (contents.drop (position / 8)) =
        .ok value ∧
      toNumber self.sign self.size.bitCount value = .ok number ∧
      self.valueAt contents position = .ok (.ok number) := by
  have enough : byteCount (position % 8) self.size.bitCount ≤
      (contents.drop (position / 8)).length := by
    rw [endByte] at inside
    rw [List.length_drop]
    omega
  have whole (little : self.order = .littleEndian) : position % 8 = 0 := by
    by_contra unaligned
    exact aligned ⟨little, Or.inl unaligned⟩
  obtain ⟨value, bits⟩ :=
    readBits_ok (Nat.mod_lt _ (by decide)) readable.1 readable.2 whole enough
  obtain ⟨number, numbered⟩ := toNumber_ok readable.1 readable.2 value
  refine ⟨value, number, bits, numbered, ?_⟩
  rw [valueAt, if_neg aligned, if_neg inside, bits, Checked.ok_bind, numbered]
  rfl

theorem exists_valueAt {self : IntegerTypeInfo} (readable : self.Readable)
    (contents : List UInt8) (position : Nat) :
    ∃ outcome, self.valueAt contents position = .ok outcome := by
  by_cases misaligned : self.Misaligned position
  · exact ⟨_, if_pos misaligned⟩
  · by_cases outside : contents.length < self.endByte position
    · refine ⟨.error (.ofKind self.debug .unexpectedEndOfStream 0), ?_⟩
      rw [valueAt, if_neg misaligned, if_pos outside]
    · obtain ⟨value, number, -, -, outcome⟩ := valueAt_number readable misaligned outside
      exact ⟨.ok number, outcome⟩

variable {σ : Type} {fileReader : FileReader σ} {contents : List UInt8}

def positionAfter (self : IntegerTypeInfo) (position : Nat) : Except ErrorInfo Number → Nat
  | .ok _ => (position + self.size.bitCount) % 2 ^ 64
  | .error _ => position

def returned (result : Value) (errors : ErrorCollection) (next : BufferedFileReader σ) :
    Except ErrorInfo Number → Bool × Value × BufferedFileReader σ × ErrorCollection
  | .ok number => (true, .number number, next, errors)
  | .error info => (false, result, next, errors.add info)

theorem readValue_of_buffer {self : IntegerTypeInfo} {reader ready shown : BufferedFileReader σ}
    {bitOffset : Nat} (inByte : reader.position.bitOffset = bitOffset) {bytes : List UInt8}
    (result : Value) {errors : ErrorCollection}
    (aligned : ¬ (self.order = .littleEndian ∧
      (bitOffset ≠ 0 ∨ finalBits bitOffset self.size.bitCount ≠ 0)))
    (ensured : reader.ensureBuffer fileReader self.size errors = .ok (true, ready, errors))
    (got : ready.getBuffer fileReader errors = .ok (some bytes, shown, errors)) :
    self.readValue fileReader reader result errors =
      if bytes.length < byteCount bitOffset self.size.bitCount then
        .ok (false, result, shown, errors.add (.ofKind self.debug .unexpectedEndOfStream 0))
      else do
        let value ← readBits self.order self.size.bitCount bitOffset bytes
        let number ← toNumber self.sign self.size.bitCount value
        let after := shown.skip fileReader (.fromBits self.size.bitCount) errors
        return (after.1, .number number, after.2) := by
  rw [readValue, inByte]
  dsimp only
  rw [if_neg aligned, ensured, Checked.ok_bind]
  dsimp only
  rw [if_neg (by decide), got, Checked.ok_bind]
  rfl

section Buffered

open BufferedFileReader

/-- What a read needs of the window: the value, unless the underlying reader can go on there
or the read is refused. -/
def Safe (fileReader : FileReader σ) (contents : List UInt8) (self : IntegerTypeInfo)
    (reader : BufferedFileReader σ) : Prop :=
  self.Misaligned reader.position.bitCount ∨ Delivers reader self.size ∨
    InStep fileReader contents reader

theorem short_iff {self : IntegerTypeInfo} (readable : self.Readable)
    {last : BufferedFileReader σ} (intact : last.Intact contents)
    (reached : Delivers last self.size ∨ contents.length ≤ last.windowEnd) :
    last.shown.length < byteCount (last.position.bitCount % 8) self.size.bitCount ↔
      contents.length < self.endByte last.position.bitCount := by
  have inByte : last.position.bitCount % 8 < 8 := Nat.mod_lt _ (by decide)
  have positive := readable.1
  have windowEnd := intact.windowEnd_eq
  obtain ⟨-, available⟩ := intact.holds.shown_eq intact.shaped
  rw [List.length_drop] at available
  rw [intact.delivers_iff] at reached
  rw [endByte, byteCount_eq inByte readable.2]
  rw [Size.byteCount] at windowEnd available
  omega

theorem shown_for_read (contract : fileReader.Contract contents) {self : IntegerTypeInfo}
    (readable : self.Readable) {reader : BufferedFileReader σ} (intact : reader.Intact contents)
    (safe : Delivers reader self.size ∨ InStep fileReader contents reader)
    (errors : ErrorCollection) :
    ∃ ready last, reader.ensureBuffer fileReader self.size errors = .ok (true, ready, errors) ∧
      ready.getBuffer fileReader errors = .ok (some last.shown, last, errors) ∧
      last.Intact contents ∧ last.position = reader.position ∧
      (Delivers last self.size ∨ contents.length ≤ last.windowEnd) ∧
      (InStep fileReader contents reader → InStep fileReader contents last) := by
  have positive := readable.1
  have small := readable.2
  have inByte := reader.position.bitOffset_lt
  have limit : self.size ≤ .fromBytesAndOffset kBufferSize 7 := by
    rw [Size.le_iff, bitCount_limit le_rfl, kBufferSize]
    omega
  obtain ⟨ready, ensured, readyIntact, ensures, readySteps⟩ :=
    intact.ensureBuffer contract limit safe errors
  have reached : Delivers ready self.size ∨ InStep fileReader contents ready ∧
      contents.length ≤ ready.windowEnd := by
    rcases safe with delivered | inStep
    · rw [Delivers, ensures.position, (ensures.idle delivered).2]
      exact Or.inl delivered
    · have fits : Fits fileReader contents self.size reader :=
        Or.inl (by unfold kBufferSize; omega)
      apply ((ensures.reached rfl).mpr fits).imp_right
      intro atEnd
      exact ⟨readySteps inStep, (InStep.atEnd_iff (readySteps inStep)).mp atEnd⟩
  have one : Delivers ready (.fromBits 1) ∨ InStep fileReader contents ready := by
    apply reached.imp
    · intro delivered
      rw [delivers_one_iff]
      unfold Delivers at delivered
      omega
    · exact And.left
  obtain ⟨last, got, lastIntact, grown, lastSteps⟩ := readyIntact.getBuffer contract one errors
  refine ⟨ready, last, ensured, got, lastIntact, grown.position.trans ensures.position, ?_,
    fun inStep => lastSteps (readySteps inStep)⟩
  have longer := grown.shown.length_le
  have windowEnd := grown.windowEnd
  apply reached.imp
  · intro delivered
    unfold Delivers at delivered ⊢
    rw [grown.position]
    omega
  · intro behind
    omega

/-- A read comes to `valueAt` wherever the underlying reader stands, if it is safe. -/
theorem readValue_intact (contract : fileReader.Contract contents) {self : IntegerTypeInfo}
    (readable : self.Readable) {reader : BufferedFileReader σ} (intact : reader.Intact contents)
    (safe : self.Safe fileReader contents reader) (result : Value) (errors : ErrorCollection) :
    ∃ outcome next, self.valueAt contents reader.position.bitCount = .ok outcome ∧
      self.readValue fileReader reader result errors = .ok (returned result errors next outcome) ∧
      next.Intact contents ∧
      next.position.bitCount = self.positionAfter reader.position.bitCount outcome ∧
      (InStep fileReader contents reader → InStep fileReader contents next) := by
  have inByte : reader.position.bitCount % 8 < 8 := Nat.mod_lt _ (by decide)
  have bitOffset : reader.position.bitOffset = reader.position.bitCount % 8 := rfl
  by_cases misaligned : self.Misaligned reader.position.bitCount
  · refine ⟨_, reader, if_pos misaligned, ?_, intact, rfl, fun inStep => inStep⟩
    rw [readValue]
    exact if_pos misaligned
  obtain ⟨ready, last, ensured, got, lastIntact, here, reached, lastSteps⟩ :=
    shown_for_read contract readable intact (safe.resolve_left misaligned) errors
  have short := short_iff readable lastIntact reached
  rw [here] at short
  have read := readValue_of_buffer bitOffset result misaligned ensured got
  by_cases outside : contents.length < self.endByte reader.position.bitCount
  · refine ⟨.error (.ofKind self.debug .unexpectedEndOfStream 0), last, ?_, ?_, lastIntact,
      congrArg Size.bitCount here, lastSteps⟩
    · rw [valueAt, if_neg misaligned, if_pos outside]
    · rw [read, if_pos (short.mpr outside)]
      rfl
  · obtain ⟨value, number, bits, numbered, outcome⟩ := valueAt_number readable misaligned outside
    obtain ⟨next, sought, nextIntact, target, steps, -⟩ :=
      lastIntact.seek contract (last.position + .fromBits self.size.bitCount) errors
    have skipped : last.skip fileReader (.fromBits self.size.bitCount) errors =
      (true, next, errors) := sought
    obtain ⟨shownEq, -⟩ := lastIntact.holds.shown_eq lastIntact.shaped
    have enough : byteCount (reader.position.bitCount % 8) self.size.bitCount ≤
        last.shown.length := Nat.le_of_not_lt (mt short.mp outside)
    rw [← readBits_take inByte readable.1 readable.2 enough] at bits
    rw [here, Size.byteCount] at shownEq
    rw [← shownEq] at bits
    refine ⟨.ok number, next, outcome, ?_, nextIntact, ?_, ?_⟩
    · rw [read, if_neg (mt short.mp outside), bits, Checked.ok_bind, numbered, Checked.ok_bind,
        skipped]
      rfl
    · rw [target, here, Size.bitCount_add, Size.bitCount_fromBits, Nat.add_mod_mod]
      rfl
    · intro inStep
      exact steps (lastSteps inStep)

end Buffered

/-- A read comes to `valueAt`, and moves the reader only when it succeeds. -/
theorem readValue_spec (contract : fileReader.Contract contents) {self : IntegerTypeInfo}
    (readable : self.Readable) {reader : BufferedFileReader σ} {position : Nat}
    (tracks : reader.Tracks fileReader contents position) (result : Value)
    (errors : ErrorCollection) :
    ∃ outcome next, self.valueAt contents position = .ok outcome ∧
      self.readValue fileReader reader result errors = .ok (returned result errors next outcome) ∧
      next.Tracks fileReader contents (self.positionAfter position outcome) := by
  obtain ⟨outcome, next, valueEq, read, intact, positionEq, steps⟩ :=
    readValue_intact contract readable tracks.intact (Or.inr (Or.inr tracks.cursor)) result errors
  have nextTracks := intact.tracks (steps tracks.cursor)
  rw [positionEq, tracks.position_bitCount] at nextTracks
  rw [tracks.position_bitCount] at valueEq
  exact ⟨outcome, next, valueEq, read, nextTracks⟩

end BinaryReader.IntegerTypeInfo

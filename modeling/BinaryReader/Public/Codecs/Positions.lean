import BinaryReader.Public.Codecs.Chunking
import BinaryReader.Public.Codecs.WellFormed

/-!
# Positions of decoding errors

A caller that sets the offset of the error to the bytes of the earlier chunks finds the
offending byte, unless a cut lies inside the sequence it stands in: the bytes held back
are then counted twice.
-/

namespace BinaryReader.Utf8Converter

open Library Library.Unicode

/-- `decodeChunks` for a caller that sets the offset before each call. -/
def decodeChunksAt :
    (start : Nat) → List (List UInt8) → Utf8Converter → List UInt16 → ErrorInfo → Checked Decoded
  | _, [], self, output, error => .ok ⟨.success, self, output, error⟩
  | start, chunk :: chunks, self, output, error => do
      let decoded ← self.decode chunk output { error with offset := start }
      if decoded.status = .error then
        return decoded
      decodeChunksAt (start + chunk.length) chunks decoded.converter decoded.output decoded.error

/-- The bytes in front of `start` are complete sequences, the byte there announces one of
`length` bytes, and `index` is the first byte that cannot stand in it. -/
structure Offends (bytes : List UInt8) (start length index : Nat) : Prop where
  complete : ∃ sequences : List Sequence, bytes.take start = sequences.flatMap Sequence.bytes
  announced : ∃ lead, bytes[start]? = some lead ∧ sequenceLength lead = length
  offending : length = 0 ∧ index = start ∨
    start < index ∧ index < start + length ∧ start + length ≤ bytes.length ∧
      (∀ between, start < between → between < index →
        ∃ byte, bytes[between]? = some byte ∧ IsContinuation byte) ∧
      ∃ byte, bytes[index]? = some byte ∧ ¬ IsContinuation byte

/-- A cut between two chunks lies strictly inside the `length` bytes behind `start`. -/
def CutInside (chunks : List (List UInt8)) (start length : Nat) : Prop :=
  ∃ count, start < (chunks.take count).flatten.length ∧
    (chunks.take count).flatten.length < start + length

theorem offends_of_run {bytes : List UInt8} {sequences : List Sequence} {start failure : Nat}
    (ran : sequenceScanner.run bytes = (sequences, .failed start failure)) :
    ∃ length, Offends bytes start length (start + failure) := by
  obtain ⟨front, rest, rfl, rfl, splits, failed⟩ := Scanner.failed_of_run ran
  have behind : ∀ index, (front ++ rest)[front.length + index]? = rest[index]? := by
    intro index
    rw [List.getElem?_append_right (Nat.le_add_right _ _), Nat.add_sub_cancel_left]
  cases rest with
  | nil => cases failed
  | cons lead rest =>
      refine ⟨sequenceLength lead, ⟨sequences, ?_⟩, ⟨lead, behind 0, rfl⟩, ?_⟩
      · rw [List.take_left]
        exact List.append_cancel_right (splits_iff.mp splits)
      · rcases scanSequence_failed failed with
          ⟨none, rfl⟩ | ⟨positive, early, enough, continued, broken⟩
        · exact Or.inl ⟨none, rfl⟩
        · refine Or.inr ⟨by omega, by omega, ?_, ?_, ?_⟩
          · rw [List.length_append, List.length_cons]
            omega
          · intro between later earlier
            obtain ⟨index, rfl⟩ := Nat.exists_eq_add_of_le later.le
            rw [behind]
            exact continued index (by omega) (by omega)
          · rw [behind]
            exact broken

theorem announced_of_run {bytes : List UInt8} {sequences : List Sequence} {start failure : Nat}
    (ran : sequenceScanner.run bytes = (sequences, .failed start failure)) :
    ∃ lead, bytes[start]? = some lead ∧ start + sequenceLength lead ≤ bytes.length := by
  obtain ⟨length, -, ⟨lead, announced, rfl⟩, offending⟩ := offends_of_run ran
  have inside := (List.getElem?_eq_some_iff.mp announced).1
  refine ⟨lead, announced, ?_⟩
  rcases offending with ⟨none, -⟩ | ⟨-, -, enough, -⟩
  · omega
  · exact enough

/-- The bytes held back are in front of the sequence in error, or they are its first ones. -/
theorem Coherent.tempUsed_le_or {self : Utf8Converter} (coherent : self.Coherent)
    {more : List UInt8} {sequences : List Sequence} {start failure : Nat} {lead : UInt8}
    (ran : sequenceScanner.run (self.pending ++ more) = (sequences, .failed start failure))
    (announced : (self.pending ++ more)[start]? = some lead) :
    self.tempUsed ≤ start ∨ start = 0 ∧ self.tempUsed < sequenceLength lead := by
  have unfinished := scan_incomplete_iff.mp coherent.scan_pending
  have length := coherent.length_pending
  cases pendingEq : self.pending with
  | nil =>
      rw [pendingEq] at length
      exact Or.inl (length ▸ Nat.zero_le start)
  | cons first held =>
      rw [pendingEq] at unfinished length ran announced
      have short := unfinished first rfl
      rw [length] at short
      obtain ⟨front, rest, rfl, inputEq, splits, -⟩ := Scanner.failed_of_run ran
      cases sequences with
      | nil =>
          have none : front = [] := by
            have whole := splits_iff.mp splits
            rw [inputEq, List.flatMap_nil] at whole
            exact List.append_cancel_right whole
          subst none
          cases announced
          exact Or.inr ⟨rfl, short⟩
      | cons sequence sequences =>
          have whole := splits_iff.mp splits
          rw [inputEq] at whole
          have frontEq := List.append_cancel_right whole
          rw [frontEq, List.flatMap_cons, Sequence.bytes] at inputEq
          have size := congrArg List.length frontEq
          rw [List.flatMap_cons, List.length_append, Sequence.length_bytes,
            ← sequence.complete] at size
          cases (List.cons.inj inputEq).1
          exact Or.inl (by omega)

/-- A cut, seen from the first of the bytes held back. -/
def CutAhead (held : Nat) (chunks : List (List UInt8)) (start length : Nat) : Prop :=
  ∃ count, start < held + (chunks.take count).flatten.length ∧
    held + (chunks.take count).flatten.length < start + length

theorem cutAhead_cons (held : Nat) (chunk : List UInt8) (chunks : List (List UInt8))
    (start length : Nat) :
    CutAhead held (chunk :: chunks) start length ↔
      start < held ∧ held < start + length ∨
        CutAhead (held + chunk.length) chunks start length := by
  constructor
  · rintro ⟨count | count, inside⟩
    · exact Or.inl inside
    · rw [List.take_succ_cons, List.flatten_cons, List.length_append, ← Nat.add_assoc] at inside
      exact Or.inr ⟨count, inside⟩
  · rintro (inside | ⟨count, inside⟩)
    · exact ⟨0, inside⟩
    · refine ⟨count + 1, ?_⟩
      rw [List.take_succ_cons, List.flatten_cons, List.length_append, ← Nat.add_assoc]
      exact inside

theorem cutAhead_add (index held : Nat) (chunks : List (List UInt8)) (start length : Nat) :
    CutAhead (index + held) chunks (index + start) length ↔ CutAhead held chunks start length := by
  refine exists_congr fun count => ?_
  omega

theorem not_cutAhead {held : Nat} (chunks : List (List UInt8)) {start length : Nat}
    (behind : start + length ≤ held) : ¬ CutAhead held chunks start length := by
  rintro ⟨count, -, inside⟩
  omega

theorem cutAhead_next {held next front inner length : Nat} {chunk : List UInt8}
    (chunks : List (List UInt8)) (lengths : held + chunk.length = front + next)
    (ahead : next ≤ inner ∨ inner = 0 ∧ next < length) :
    CutAhead held (chunk :: chunks) (front + inner) length ↔ CutAhead next chunks inner length := by
  rw [cutAhead_cons, lengths, cutAhead_add]
  refine or_iff_right_of_imp ?_
  rintro ⟨later, inside⟩
  refine ⟨0, ?_⟩
  rw [List.take_zero, List.flatten_nil, List.length_nil]
  omega

/-- The call that meets the error counts the bytes held back again when the sequence in error
begins with them. -/
theorem decode_failed {self : Utf8Converter} (coherent : self.Coherent) {chunk : List UInt8}
    (base : Nat) (output : List UInt16) (error : ErrorInfo) {sequences : List Sequence}
    {start failure : Nat} {lead : UInt8}
    (ran : sequenceScanner.run (self.pending ++ chunk) = (sequences, .failed start failure))
    (announced : (self.pending ++ chunk)[start]? = some lead) :
    ∃ decoded, self.decode chunk output { error with offset := base } = .ok decoded ∧
      decoded.status = .error ∧
      (decoded.error.offset + self.tempUsed = base + (start + failure) ↔
        ¬(start < self.tempUsed ∧ self.tempUsed < start + sequenceLength lead)) := by
  obtain ⟨decoded, returned, -, reports⟩ :=
    decode_spec coherent chunk output { error with offset := base }
  rw [ran] at reports
  obtain ⟨status, errorEq⟩ := reports
  have placed := coherent.tempUsed_le_or ran announced
  have offsetEq : decoded.error.offset = base + (0 + (start - self.tempUsed) + failure) := by
    rw [errorEq]
    rfl
  refine ⟨decoded, returned, status, ?_⟩
  omega

theorem decodeChunksAt_spec {self : Utf8Converter} (coherent : self.Coherent)
    (chunks : List (List UInt8)) (base : Nat) (output : List UInt16) (error : ErrorInfo)
    {sequences : List Sequence} {start failure : Nat} {lead : UInt8}
    (ran : sequenceScanner.run (self.pending ++ chunks.flatten) =
      (sequences, .failed start failure))
    (announced : (self.pending ++ chunks.flatten)[start]? = some lead) :
    ∃ decoded, decodeChunksAt base chunks self output error = .ok decoded ∧
      decoded.status = .error ∧
      (decoded.error.offset + self.tempUsed = base + (start + failure) ↔
        ¬ CutAhead self.tempUsed chunks start (sequenceLength lead)) := by
  induction chunks generalizing self base output error sequences start with
  | nil =>
      rw [List.flatten_nil, List.append_nil,
        sequenceScanner.run_incomplete coherent.scan_pending] at ran
      cases ran
  | cons chunk chunks inductionHypothesis =>
      rw [List.flatten_cons, ← List.append_assoc] at ran announced
      rw [sequenceScanner.run_append] at ran
      rcases firstRun : sequenceScanner.run (self.pending ++ chunk) with
        ⟨found, ⟨index, rest⟩ | ⟨index, other⟩⟩
      · obtain ⟨first, returned, -, reports⟩ :=
          decode_spec coherent chunk output { error with offset := base }
        rw [firstRun] at reports ran
        obtain ⟨status, -, kept, pendingEq⟩ := reports
        obtain ⟨front, rfl, frontEq⟩ := Scanner.pending_of_run firstRun
        obtain ⟨after, ending⟩ : ∃ after, sequenceScanner.run (rest ++ chunks.flatten) = after :=
          ⟨_, rfl⟩
        rw [Scanner.resume] at ran
        dsimp only at ran
        rw [ending] at ran
        obtain ⟨later, ⟨inner, left⟩ | ⟨inner, other⟩⟩ := after
        · cases (Prod.mk.inj ran).2
        · cases (Prod.mk.inj ran).2
          rw [frontEq, List.append_assoc, List.getElem?_append_right (Nat.le_add_right _ _),
            Nat.add_sub_cancel_left] at announced
          rw [← pendingEq] at ending announced frontEq
          obtain ⟨decoded, laterReturned, laterStatus, exact⟩ :=
            inductionHypothesis kept (base + chunk.length) first.output first.error ending announced
          have lengths := congrArg List.length frontEq
          rw [List.length_append, List.length_append, coherent.length_pending, kept.length_pending]
            at lengths
          have ahead := kept.tempUsed_le_or ending announced
          rw [decodeChunksAt, returned, Checked.ok_bind, if_neg (by rw [status]; simp)]
          refine ⟨decoded, laterReturned, laterStatus, ?_⟩
          rw [cutAhead_next chunks lengths ahead, ← exact]
          omega
      · rw [firstRun] at ran
        cases ran
        obtain ⟨other, otherAnnounced, enough⟩ := announced_of_run firstRun
        have inside := (List.getElem?_eq_some_iff.mp otherAnnounced).1
        rw [List.getElem?_append_left inside, otherAnnounced] at announced
        cases announced
        rw [List.length_append, coherent.length_pending] at enough
        obtain ⟨decoded, returned, status, exact⟩ :=
          decode_failed coherent base output error firstRun otherAnnounced
        rw [decodeChunksAt, returned, Checked.ok_bind, if_pos status]
        refine ⟨decoded, rfl, status, exact.trans (not_congr ?_)⟩
        rw [cutAhead_cons, or_iff_left (not_cutAhead chunks enough)]

theorem decodeChunksAt_returns {self : Utf8Converter} (coherent : self.Coherent)
    (chunks : List (List UInt8)) (base : Nat) (output : List UInt16) (error : ErrorInfo) :
    ∃ decoded, decodeChunksAt base chunks self output error = .ok decoded := by
  induction chunks generalizing self base output error with
  | nil => exact ⟨_, rfl⟩
  | cons chunk chunks inductionHypothesis =>
      obtain ⟨first, returned, -, reports⟩ :=
        decode_spec coherent chunk output { error with offset := base }
      rw [decodeChunksAt, returned, Checked.ok_bind]
      by_cases failed : first.status = .error
      · rw [if_pos failed]
        exact ⟨first, rfl⟩
      · rw [if_neg failed]
        exact inductionHypothesis (reports.settles.coherent failed) _ _ _

theorem cutAhead_zero (chunks : List (List UInt8)) (start length : Nat) :
    CutAhead 0 chunks start length ↔ CutInside chunks start length := by
  simp only [CutAhead, CutInside, Nat.zero_add]

/-- Chunks report the position of the offending byte exactly when no cut lies inside the
sequence it stands in. -/
theorem decodeChunksAt_offset_iff (self : Utf8Converter) (chunks : List (List UInt8))
    (output : List UInt16) (error : ErrorInfo) :
    ∃ whole streamed,
      self.reset.decode chunks.flatten output { error with offset := 0 } = .ok whole ∧
      decodeChunksAt 0 chunks self.reset output error = .ok streamed ∧
      (whole.status = .error → streamed.status = .error ∧
        ∃ start length, Offends chunks.flatten start length whole.error.offset ∧
          (streamed.error.offset = whole.error.offset ↔ ¬ CutInside chunks start length)) := by
  have fresh := coherent_reset self
  obtain ⟨whole, wholeReturned, -, reports⟩ :=
    decode_spec fresh chunks.flatten output { error with offset := 0 }
  rcases ran : sequenceScanner.run (self.reset.pending ++ chunks.flatten) with
    ⟨sequences, ⟨index, rest⟩ | ⟨start, failure⟩⟩
  · rw [ran] at reports
    obtain ⟨streamed, returned⟩ := decodeChunksAt_returns fresh chunks 0 output error
    refine ⟨whole, streamed, wholeReturned, returned, fun failed => ?_⟩
    rw [reports.1] at failed
    cases failed
  · rw [ran] at reports
    obtain ⟨lead, announced, -⟩ := announced_of_run ran
    obtain ⟨streamed, returned, status, exact⟩ :=
      decodeChunksAt_spec fresh chunks 0 output error ran announced
    have offsetEq : whole.error.offset = start + failure := by
      rw [reports.2]
      show 0 + (0 + (start - 0) + failure) = start + failure
      omega
    obtain ⟨length, offends⟩ := offends_of_run ran
    refine ⟨whole, streamed, wholeReturned, returned, fun _ => ⟨status, start, length, ?_, ?_⟩⟩
    · rw [offsetEq]
      exact offends
    · obtain ⟨-, ⟨other, otherAnnounced, rfl⟩, -⟩ := offends
      rw [announced] at otherAnnounced
      cases otherAnnounced
      rw [← cutAhead_zero, offsetEq]
      rwa [Nat.zero_add] at exact

/-- The caller of `decodeChunksAt` finds the position that one call on the whole input reports. -/
def ReportsPosition (chunks : List (List UInt8)) : Prop :=
  ∀ whole streamed, ({} : Utf8Converter).decode chunks.flatten [] {} = .ok whole →
    decodeChunksAt 0 chunks {} [] {} = .ok streamed → whole.status = .error →
    streamed.error.offset = whole.error.offset

/-- The bytes `e2 41 42` are reported at one; behind a cut, `41` is reported at two. -/
theorem not_reportsPosition : ¬ ∀ chunks, ReportsPosition chunks := by
  intro reports
  have same := reports [[0xe2], [0x41, 0x42]] _ _ rfl rfl rfl
  exact absurd same (by decide)

end BinaryReader.Utf8Converter

import BinaryReader.Library.Unicode
import BinaryReader.Public.Codecs

/-!
# Decoding is scanning

One call of `decode` scans the bytes held back from earlier calls followed by
the chunk, and turns every sequence it finds into code units.  `Coherent` is
what a call leaves behind: the bytes held back are an unfinished sequence.
-/

namespace BinaryReader.Utf8Converter

open Library Library.Unicode

/-- The bytes held back do not complete the sequence they start. -/
def Coherent (self : Utf8Converter) : Prop :=
  self.tempUsed = 0 ∨ self.tempUsed < getNumBytes self.temp[0]

def ahead (self : Utf8Converter) (buffer : List UInt8) (offset : Nat) : List UInt8 :=
  self.pending ++ buffer.drop offset

def units (sequence : Sequence) : List UInt16 := pushCodePoint (.ofNat sequence.value)

theorem forall_byte {property : UInt8 → Prop}
    (checked : ∀ byte : Fin 256, property (.ofNat byte.val)) (byte : UInt8) : property byte := by
  simpa using checked ⟨byte.toNat, byte.toNat_lt⟩

theorem getNumBytes_eq (head : UInt8) : getNumBytes head = sequenceLength head := by
  revert head
  apply forall_byte
  decide +kernel

theorem continuation_test (byte : UInt8) : byte &&& 0xc0 ≠ 0x80 ↔ ¬ IsContinuation byte := by
  revert byte
  apply forall_byte
  decide +kernel

theorem head_payload (head : UInt8) : sequenceLength head ≠ 0 →
    (head.toUInt32 &&& ((1 <<< (8 - sequenceLength head).toUInt32) - 1)).toNat =
      head.toNat - leadBase (sequenceLength head - 1) := by
  revert head
  apply forall_byte
  decide +kernel

theorem extend_toNat (codePoint : UInt32) (byte : UInt8)
    (bound : (codePoint.toNat + 1) * 64 ≤ 2 ^ 32) :
    ((codePoint <<< 6) ||| (byte &&& 0x3f).toUInt32).toNat = extend codePoint.toNat byte := by
  have low : (byte &&& 0x3f).toNat = byte.toNat % 64 := by
    rw [UInt8.toNat_and]
    exact Nat.and_two_pow_sub_one_eq_mod byte.toNat 6
  have shifted : (codePoint <<< 6).toNat = codePoint.toNat <<< 6 := by
    have six : (6 : UInt32).toNat % 32 = 6 := by decide
    rw [UInt32.toNat_shiftLeft, six, Nat.mod_eq_of_lt]
    rw [Nat.shiftLeft_eq]
    omega
  rw [UInt32.toNat_or, shifted, UInt8.toNat_toUInt32, low,
    ← Nat.shiftLeft_add_eq_or_of_lt (by omega), Nat.shiftLeft_eq, extend]

theorem temp_zero {self : Utf8Converter} {lead : UInt8} {rest : List UInt8}
    (pendingEq : self.pending = lead :: rest) : self.temp[0] = lead := by
  have found : self.pending[0]? = some lead := by rw [pendingEq]; rfl
  rw [pending, List.getElem?_take] at found
  split_ifs at found
  simpa using found

theorem coherent_reset (self : Utf8Converter) : self.reset.Coherent := Or.inl rfl

namespace Coherent

variable {self : Utf8Converter} (coherent : self.Coherent)
include coherent

theorem tempUsed_lt : self.tempUsed < 4 := by
  rcases coherent with empty | short
  · omega
  · have bound := sequenceLength_le self.temp[0]
    rw [getNumBytes_eq] at short
    omega

@[simp]
theorem length_pending : self.pending.length = self.tempUsed := by
  have bound := coherent.tempUsed_lt
  simp only [pending, List.length_take, Vector.length_toList]
  omega

theorem length_ahead (buffer : List UInt8) (offset : Nat) :
    (self.ahead buffer offset).length = self.tempUsed + (buffer.length - offset) := by
  simp [ahead, coherent.length_pending]

theorem scan_pending : sequenceScanner.scan self.pending = .incomplete := by
  have length := coherent.length_pending
  rcases pendingEq : self.pending with _ | ⟨lead, rest⟩
  · rfl
  · rw [pendingEq, List.length_cons] at length
    have short := Or.resolve_left coherent (by omega)
    rw [temp_zero pendingEq, getNumBytes_eq] at short
    exact (scanSequence_cons lead rest).trans
      ((if_neg (by omega)).trans (if_pos (by omega)))

theorem currentByte_eq {buffer : List UInt8} {offset i : Nat} {byte : UInt8}
    (found : (self.ahead buffer offset)[i]? = some byte) :
    self.currentByte buffer offset i = .ok byte := by
  have bound := coherent.tempUsed_lt
  rw [ahead] at found
  unfold currentByte
  split
  next early =>
    rw [List.getElem?_append_left (by rw [coherent.length_pending]; exact early), pending,
      List.getElem?_take_of_lt early] at found
    exact load_of_getElem? found
  next late =>
    rw [List.getElem?_append_right (by rw [coherent.length_pending]; omega),
      coherent.length_pending, List.getElem?_drop, Nat.add_comm] at found
    exact load_of_getElem? found

theorem readTail_eq {buffer : List UInt8} {offset : Nat} (tail : List UInt8) (i : Nat)
    (codePoint : UInt32) (bound : (codePoint.toNat + 1) * 64 ^ tail.length ≤ 2 ^ 32)
    (isPrefix : tail <+: (self.ahead buffer offset).drop i) :
    self.readTail buffer offset tail.length i codePoint =
      if Continued tail then
        .ok (.inr (.ofNat (tail.foldl extend codePoint.toNat)))
      else
        .ok (.inl (i + tail.findIdx (fun byte => !decide (IsContinuation byte)))) := by
  induction tail generalizing i codePoint with
  | nil => simp [readTail]
  | cons byte tail inductionHypothesis =>
      rcases isPrefix with ⟨rest, restEq⟩
      have found : (self.ahead buffer offset)[i]? = some byte := by
        rw [← Nat.add_zero i, ← List.getElem?_drop, ← restEq]
        rfl
      rw [List.length_cons, readTail, coherent.currentByte_eq found, Checked.ok_bind]
      by_cases continued : IsContinuation byte
      · have bound' : (codePoint.toNat + 1) * 64 * 64 ^ tail.length ≤ 2 ^ 32 := by
          rwa [List.length_cons, Nat.pow_succ', ← Nat.mul_assoc] at bound
        have step := extend_toNat codePoint byte
          (le_trans (Nat.le_mul_of_pos_right _ (by positivity)) bound')
        have next : tail <+: (self.ahead buffer offset).drop (i + 1) := by
          refine ⟨rest, ?_⟩
          rw [← List.drop_drop, ← restEq]
          rfl
        have fits : (extend codePoint.toNat byte + 1) * 64 ^ tail.length ≤ 2 ^ 32 := by
          refine le_trans (Nat.mul_le_mul_right _ ?_) bound'
          unfold extend
          omega
        rw [if_neg (by simpa [continuation_test] using continued)]
        rw [inductionHypothesis (i + 1) _ (by rwa [step]) next, step]
        simp only [continued_cons, continued, true_and, List.foldl_cons]
        split
        · rfl
        · simp [List.findIdx_cons, continued]
          omega
      · rw [if_pos ((continuation_test byte).mpr continued)]
        simp [continued, List.findIdx_cons]
        rfl

theorem currentHead_eq {buffer rest : List UInt8} {offset : Nat} {lead : UInt8}
    (aheadEq : self.ahead buffer offset = lead :: rest) :
    self.currentHead buffer offset = .ok lead := by
  have found : (self.ahead buffer offset)[0]? = some lead := by rw [aheadEq]; rfl
  simpa [currentByte, currentHead] using coherent.currentByte_eq found

theorem copyToTemp_eq {bytes : List UInt8} (fits : self.tempUsed + bytes.length ≤ 4) :
    ∃ next, self.copyToTemp bytes = .ok next ∧
      next.tempUsed = self.tempUsed + bytes.length ∧ next.pending = self.pending ++ bytes := by
  have room : self.pending.length + bytes.length ≤ 4 := by simpa [coherent.length_pending]
  have size : (self.pending ++ bytes ++
      self.temp.toList.drop (self.tempUsed + bytes.length)).length = 4 := by
    simp only [List.length_append, List.length_drop, Vector.length_toList,
      coherent.length_pending]
    omega
  have front : (self.pending ++ bytes).length = self.tempUsed + bytes.length := by
    rw [List.length_append, coherent.length_pending]
  exact ⟨_, dif_pos size, rfl, List.take_left' front⟩

/-- A call that runs out of input keeps what is unfinished and stays coherent. -/
theorem copyToTemp_unfinished {buffer rest : List UInt8} {offset : Nat} {lead : UInt8}
    (aheadEq : self.ahead buffer offset = lead :: rest)
    (short : (lead :: rest).length < sequenceLength lead) :
    ∃ next, self.copyToTemp (buffer.drop offset) = .ok next ∧ next.Coherent ∧
      next.pending = lead :: rest := by
  have bound := sequenceLength_le lead
  have length := coherent.length_ahead buffer offset
  rw [aheadEq] at length
  have fits : self.tempUsed + (buffer.drop offset).length ≤ 4 := by
    rw [List.length_drop]
    omega
  obtain ⟨next, copied, used, held⟩ := coherent.copyToTemp_eq fits
  rw [← ahead, aheadEq] at held
  refine ⟨next, copied, Or.inr ?_, held⟩
  rw [temp_zero held, getNumBytes_eq, used, List.length_drop, ← length]
  exact short

theorem readTail_scan {buffer rest : List UInt8} {offset : Nat} {lead : UInt8}
    (aheadEq : self.ahead buffer offset = lead :: rest) (legal : sequenceLength lead ≠ 0)
    (long : sequenceLength lead ≤ rest.length + 1) :
    self.readTail buffer offset (sequenceLength lead - 1) 1
        (lead.toUInt32 &&& ((1 <<< (8 - sequenceLength lead).toUInt32) - 1)) =
      match scanTail lead (rest.take (sequenceLength lead - 1)) with
      | .item sequence _ => .ok (.inr (.ofNat sequence.value))
      | .failed failure => .ok (.inl failure)
      | .incomplete => .error .assertion := by
  have size : (rest.take (sequenceLength lead - 1)).length = sequenceLength lead - 1 := by
    rw [List.length_take]
    omega
  have small := sequenceLength_le lead
  have bounds := (sequenceLength_eq_iff lead (sequenceLength lead - 1) (by omega)).mp (by omega)
  have payload := head_payload lead legal
  have fits : (lead.toNat - leadBase (sequenceLength lead - 1) + 1) *
      64 ^ (sequenceLength lead - 1) ≤ 2 ^ 32 := by
    have extra : sequenceLength lead - 1 ≤ 3 := by omega
    generalize sequenceLength lead - 1 = count at bounds extra
    interval_cases count <;> simp only [leadBase, leadCapacity] at bounds ⊢ <;> omega
  generalize codePointEq : lead.toUInt32 &&& ((1 <<< (8 - sequenceLength lead).toUInt32) - 1) =
    codePoint at payload
  have isPrefix : rest.take (sequenceLength lead - 1) <+: (self.ahead buffer offset).drop 1 := by
    rw [aheadEq]
    exact List.take_prefix _ _
  have read := coherent.readTail_eq _ 1 codePoint (by rw [size, payload]; exact fits) isPrefix
  rw [size] at read
  rw [read, payload, scanTail]
  split
  next continued =>
    rw [dif_pos ⟨by omega, continued⟩]
    simp only [Sequence.value, size]
  next broken =>
    rw [dif_neg (fun valid => broken valid.2), Nat.add_comm]

/-- The bytes held back never complete the sequence, so the loop consumes a byte. -/
theorem tempUsed_lt_size {buffer rest : List UInt8} {offset : Nat} {lead : UInt8}
    (aheadEq : self.ahead buffer offset = lead :: rest) {sequence : Sequence} {size : Nat}
    (scanned : scanSequence (lead :: rest) = .item sequence size) : self.tempUsed < size := by
  have sizeEq := scanSequence_size scanned
  have positive : 0 < size := by
    rw [(scanSequence_eq_item_iff.mp scanned).1]
    exact Nat.succ_pos _
  by_cases empty : self.tempUsed = 0
  · omega
  · have head := coherent.currentHead_eq aheadEq
    rw [currentHead, if_pos (by omega)] at head
    have first : self.temp[0] = lead := by simpa [load] using head
    have short := Or.resolve_left coherent empty
    rwa [first, getNumBytes_eq, ← sizeEq] at short

theorem ahead_reset {buffer : List UInt8} {offset size : Nat} (held : self.tempUsed ≤ size) :
    self.reset.ahead buffer (offset + (size - self.tempUsed)) =
      (self.ahead buffer offset).drop size := by
  have gone : self.pending.drop size = [] :=
    List.drop_eq_nil_of_le (by rwa [coherent.length_pending])
  rw [ahead, ahead, List.drop_append, coherent.length_pending, List.drop_drop, gone]
  rfl

/-- One turn of the loop is one scan of what lies ahead. -/
theorem decodeLoop_cons {buffer rest : List UInt8} {offset : Nat} {lead : UInt8}
    (aheadEq : self.ahead buffer offset = lead :: rest) (fuel : Nat) (output : List UInt16)
    (error : ErrorInfo) :
    decodeLoop buffer (fuel + 1) self offset output error =
      match sequenceScanner.scan (lead :: rest) with
      | .incomplete => do
          let next ← self.copyToTemp (buffer.drop offset)
          return ⟨.success, next, output, error⟩
      | .failed failure => .ok ⟨.error, self, output, invalidSequence error (offset + failure)⟩
      | .item sequence size =>
          decodeLoop buffer fuel self.reset (offset + (size - self.tempUsed))
            (output ++ units sequence) error := by
  have length := coherent.length_ahead buffer offset
  rw [aheadEq, List.length_cons] at length
  have scanEq : sequenceScanner.scan (lead :: rest) = _ := scanSequence_cons lead rest
  rw [decodeLoop, if_pos (by omega), coherent.currentHead_eq aheadEq, Checked.ok_bind,
    getNumBytes_eq]
  by_cases zero : sequenceLength lead = 0
  · rw [if_pos zero] at scanEq
    rw [if_pos zero, scanEq]
    rfl
  rw [if_neg zero] at scanEq
  rw [if_neg zero]
  by_cases short : rest.length + 1 < sequenceLength lead
  · rw [if_pos short] at scanEq
    rw [if_pos (by omega), scanEq]
  rw [if_neg short] at scanEq
  rw [if_neg (by omega)]
  dsimp only
  rw [coherent.readTail_scan aheadEq zero (by omega), ← scanEq]
  rcases scanned : sequenceScanner.scan (lead :: rest) with _ | failure | ⟨sequence, size⟩
  · rw [scanEq] at scanned
    exact absurd scanned (scanTail_ne_incomplete _ _)
  · rfl
  · have consumed := coherent.tempUsed_lt_size aheadEq scanned
    have sizeEq := scanSequence_size scanned
    rw [Checked.ok_bind]
    dsimp only
    rw [← sizeEq, if_neg (by omega)]
    rfl

end Coherent

/-- What a call reports about the ending of its scan: `held` bytes came from
earlier calls, and the chunk starts being read at `offset`. -/
def Reports (decoded : Decoded) (error : ErrorInfo) (held offset : Nat) :
    Ending UInt8 Nat → Prop
  | .pending _ rest => decoded.status = .success ∧ decoded.error = error ∧
      decoded.converter.Coherent ∧ decoded.converter.pending = rest
  | .failed index failure => decoded.status = .error ∧
      decoded.error = invalidSequence error (offset + (index - held) + failure)

theorem Reports.shift {decoded : Decoded} {error : ErrorInfo} {held offset size : Nat}
    {ending : Ending UInt8 Nat} (enough : held ≤ size)
    (reports : Reports decoded error 0 (offset + (size - held)) ending) :
    Reports decoded error held offset (ending.shift size) := by
  cases ending with
  | pending index rest => exact reports
  | failed index failure =>
      have same : offset + (size - held) + (index - 0) = offset + (size + index - held) := by omega
      simpa only [Reports, Ending.shift_failed, same] using reports

theorem decodeLoop_spec {self : Utf8Converter} (coherent : self.Coherent) {buffer : List UInt8}
    {fuel offset : Nat} (enough : (self.ahead buffer offset).length < fuel)
    (output : List UInt16) (error : ErrorInfo) :
    ∃ decoded, decodeLoop buffer fuel self offset output error = .ok decoded ∧
      decoded.output =
        output ++ (sequenceScanner.run (self.ahead buffer offset)).1.flatMap units ∧
      Reports decoded error self.tempUsed offset
        (sequenceScanner.run (self.ahead buffer offset)).2 := by
  induction fuel generalizing self offset output with
  | zero => omega
  | succ fuel inductionHypothesis =>
      rcases aheadEq : self.ahead buffer offset with _ | ⟨lead, rest⟩
      · have length := coherent.length_ahead buffer offset
        rw [aheadEq, List.length_nil] at length
        have empty : self.pending = [] := (List.append_eq_nil_iff.mp aheadEq).1
        rw [decodeLoop, if_neg (by omega), sequenceScanner.run_incomplete rfl]
        exact ⟨_, rfl, by simp, rfl, rfl, coherent, empty⟩
      · rw [aheadEq, List.length_cons] at enough
        rw [coherent.decodeLoop_cons aheadEq]
        rcases scanned : sequenceScanner.scan (lead :: rest) with _ | failure | ⟨sequence, size⟩
        · obtain ⟨next, copied, kept, held⟩ :=
            coherent.copyToTemp_unfinished aheadEq (scanSequence_incomplete scanned)
          rw [sequenceScanner.run_incomplete scanned, copied]
          exact ⟨_, rfl, by simp, rfl, rfl, kept, held⟩
        · rw [sequenceScanner.run_failed scanned]
          exact ⟨_, rfl, by simp, rfl, by simp⟩
        · have consumed := coherent.tempUsed_lt_size aheadEq scanned
          have next : self.reset.ahead buffer (offset + (size - self.tempUsed)) = _ :=
            coherent.ahead_reset (Nat.le_of_lt consumed)
          have shorter : (self.reset.ahead buffer (offset + (size - self.tempUsed))).length <
              fuel := by
            rw [next, List.length_drop, aheadEq, List.length_cons]
            omega
          obtain ⟨decoded, returned, outputEq, reports⟩ :=
            inductionHypothesis (coherent_reset self) shorter (output ++ units sequence)
          rw [next, aheadEq] at outputEq reports
          rw [sequenceScanner.run_item scanned]
          exact ⟨decoded, returned, by rw [outputEq, List.flatMap_cons, List.append_assoc],
            reports.shift (Nat.le_of_lt consumed)⟩

/-- A call of `decode` scans the bytes held back and the chunk behind them. -/
theorem decode_spec {self : Utf8Converter} (coherent : self.Coherent) (buffer : List UInt8)
    (output : List UInt16) (error : ErrorInfo) :
    ∃ decoded, self.decode buffer output error = .ok decoded ∧
      decoded.output = output ++ (sequenceScanner.run (self.pending ++ buffer)).1.flatMap units ∧
      Reports decoded error self.tempUsed 0 (sequenceScanner.run (self.pending ++ buffer)).2 := by
  have enough : (self.ahead buffer 0).length < buffer.length + self.tempUsed + 1 := by
    rw [coherent.length_ahead]
    omega
  exact decodeLoop_spec coherent enough output error

end BinaryReader.Utf8Converter

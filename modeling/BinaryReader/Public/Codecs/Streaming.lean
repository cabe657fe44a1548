import BinaryReader.Public.Codecs.Encoding

/-!
# Encoding in chunks

`Encode` keeps nothing from one call to the next, so a surrogate pair is only
recognized inside a chunk.  A cut between its halves is observable, and it is
the only one that is.
-/

namespace BinaryReader.Utf8Converter

open Library Library.Unicode

def encodeChunks :
    List (List UInt16) → Utf8Converter → List UInt8 → Status × Utf8Converter × List UInt8
  | [], self, output => (.success, self, output)
  | chunk :: chunks, self, output =>
      let encoded := self.encode chunk output
      if encoded.1 = .error then encoded
      else encodeChunks chunks encoded.2.1 encoded.2.2

theorem encodeChunks_output (chunks : List (List UInt16)) (self : Utf8Converter)
    (output : List UInt8) :
    (encodeChunks chunks self output).2.2 = output ++ chunks.flatMap encodeLoop := by
  induction chunks generalizing output with
  | nil => exact (List.append_nil output).symm
  | cons chunk chunks inductionHypothesis =>
      rw [encodeChunks, if_neg (by simp [encode]), List.flatMap_cons, ← List.append_assoc]
      exact inductionHypothesis _

def SplitsPair (front back : List UInt16) : Prop :=
  ∃ high ∈ front.getLast?, ∃ low ∈ back.head?, isHighSurrogate high ∧ isLowSurrogate low

theorem SplitsPair.cons {front back : List UInt16} (splits : SplitsPair front back)
    (unit : UInt16) : SplitsPair (unit :: front) back := by
  rcases splits with ⟨high, last, found⟩
  refine ⟨high, ?_, found⟩
  simp only [Option.mem_def] at last ⊢
  rw [List.getLast?_cons, last, Option.getD_some]

theorem encodeLoop_cons {unit : UInt16} (single : ¬ isHighSurrogate unit) (rest : List UInt16) :
    encodeLoop (unit :: rest) = pushBytes unit.toUInt32 ++ encodeLoop rest := by
  rw [encodeLoop_eq, codePoints_cons single, List.flatMap_cons, ← encodeLoop_eq]

theorem encodeLoop_append {front back : List UInt16} (whole : ¬ SplitsPair front back) :
    encodeLoop (front ++ back) = encodeLoop front ++ encodeLoop back := by
  fun_induction encodeLoop front with
  | case1 => rfl
  | case2 unit =>
      cases back with
      | nil => exact (List.append_nil _).symm
      | cons next rest =>
          rw [List.singleton_append, encodeLoop, if_neg]
          intro pair
          exact whole ⟨unit, rfl, next, rfl, Bool.and_eq_true_iff.mp pair⟩
  | case3 unit next rest pair inductionHypothesis =>
      have behind : ¬ SplitsPair rest back := fun splits => whole ((splits.cons next).cons unit)
      rw [List.cons_append, List.cons_append, encodeLoop, if_pos pair, inductionHypothesis behind,
        List.append_assoc]
  | case4 unit next rest single inductionHypothesis =>
      have behind : ¬ SplitsPair (next :: rest) back := fun splits => whole (splits.cons unit)
      rw [List.cons_append, List.cons_append, encodeLoop, if_neg single, ← List.cons_append,
        inductionHypothesis behind, List.append_assoc]

theorem length_pushBytes_surrogate {unit : UInt16}
    (surrogate : isHighSurrogate unit ∨ isLowSurrogate unit) :
    (pushBytes unit.toUInt32).length = 3 := by
  have small := unit.toNat_lt
  have large : 0xd800 ≤ unit.toNat := by
    simp only [isHighSurrogate, isLowSurrogate, Bool.and_eq_true, decide_eq_true_eq,
      UInt16.le_iff_toNat_le] at surrogate
    change 0xd800 ≤ unit.toNat ∧ _ ∨ 0xdc00 ≤ unit.toNat ∧ _ at surrogate
    omega
  rw [pushBytes_eq (by rw [UInt16.toNat_toUInt32]; omega), length_utf8, UInt16.toNat_toUInt32,
    shortestExtra, if_neg (by omega), if_neg (by omega), if_pos (by omega)]

theorem length_pushBytes_pair (high low : UInt16) :
    (pushBytes (combineSurrogates high low)).length = 4 := by
  have value := combineSurrogates_toNat high low
  have kept := keptPayload_lt high
  rw [pushBytes_eq (by omega), length_utf8, shortestExtra, if_neg (by omega), if_neg (by omega),
    if_neg (by omega)]

/-- The halves of a pair that was cut are six bytes instead of four. -/
theorem length_encodeLoop_append {front back : List UInt16} (splits : SplitsPair front back) :
    (encodeLoop front ++ encodeLoop back).length = (encodeLoop (front ++ back)).length + 2 := by
  rcases splits with ⟨high, last, low, head, isHigh, isLow⟩
  obtain ⟨before, rfl⟩ := List.getLast?_eq_some_iff.mp last
  obtain ⟨behind, rfl⟩ := List.head?_eq_some_iff.mp head
  have whole (rest : List UInt16) : ¬ SplitsPair before (high :: rest) := by
    rintro ⟨_, _, _, first, _, highIsLow⟩
    cases first
    exact not_isHighSurrogate highIsLow isHigh
  have pair : encodeLoop (high :: low :: behind) =
      pushBytes (combineSurrogates high low) ++ encodeLoop behind :=
    if_pos (Bool.and_eq_true_iff.mpr ⟨isHigh, isLow⟩)
  rw [List.append_assoc, List.singleton_append, encodeLoop_append (whole _),
    encodeLoop_append (whole _), pair, encodeLoop_cons (not_isHighSurrogate isLow), encodeLoop]
  simp only [List.length_append, length_pushBytes_pair, length_pushBytes_surrogate (.inl isHigh),
    length_pushBytes_surrogate (.inr isLow)]
  omega

theorem encodeLoop_append_iff (front back : List UInt16) :
    encodeLoop (front ++ back) = encodeLoop front ++ encodeLoop back ↔ ¬ SplitsPair front back := by
  constructor
  · intro same splits
    have longer := length_encodeLoop_append splits
    rw [same] at longer
    omega
  · exact encodeLoop_append

/-- No boundary between two chunks, seen from the whole stream, goes through a pair. -/
def KeepsPairs (chunks : List (List UInt16)) : Prop :=
  ∀ front back, chunks = front ++ back → ¬ SplitsPair front.flatten back.flatten

theorem not_splitsPair_nil (back : List UInt16) : ¬ SplitsPair [] back := by
  rintro ⟨_, last, _⟩
  cases last

theorem SplitsPair.append {front back : List UInt16} (chunk : List UInt16)
    (splits : SplitsPair front back) : SplitsPair (chunk ++ front) back := by
  induction chunk with
  | nil => exact splits
  | cons unit chunk inductionHypothesis => exact inductionHypothesis.cons unit

theorem SplitsPair.of_append {chunk front back : List UInt16}
    (splits : SplitsPair (chunk ++ front) back) :
    SplitsPair front back ∨ front = [] ∧ SplitsPair chunk back := by
  rcases splits with ⟨high, last, found⟩
  cases front with
  | nil => exact .inr ⟨rfl, high, by simpa using last, found⟩
  | cons unit front => exact .inl ⟨high, by simpa using last, found⟩

theorem keepsPairs_cons (chunk : List UInt16) (chunks : List (List UInt16)) :
    KeepsPairs (chunk :: chunks) ↔ ¬ SplitsPair chunk chunks.flatten ∧ KeepsPairs chunks := by
  constructor
  · intro keeps
    refine ⟨by simpa using keeps [chunk] chunks rfl, ?_⟩
    rintro front back rfl splits
    exact keeps (chunk :: front) back rfl (splits.append chunk)
  · rintro ⟨first, keeps⟩ front back cut splits
    rcases front with _ | ⟨_, front⟩
    · exact not_splitsPair_nil _ splits
    · obtain ⟨rfl, rfl⟩ := List.cons.inj (cut.trans List.cons_append)
      rcases SplitsPair.of_append splits with later | ⟨empty, now⟩
      · exact keeps front back rfl later
      · exact first (by rwa [List.flatten_append, empty, List.nil_append])

theorem length_encodeLoop_flatten (chunks : List (List UInt16)) :
    (encodeLoop chunks.flatten).length ≤ (chunks.flatMap encodeLoop).length := by
  induction chunks with
  | nil => rfl
  | cons chunk chunks inductionHypothesis =>
      rw [List.flatten_cons, List.flatMap_cons, List.length_append]
      by_cases splits : SplitsPair chunk chunks.flatten
      · have longer := length_encodeLoop_append splits
        rw [List.length_append] at longer
        omega
      · rw [encodeLoop_append splits, List.length_append]
        omega

theorem encodeLoop_flatten_iff (chunks : List (List UInt16)) :
    chunks.flatMap encodeLoop = encodeLoop chunks.flatten ↔ KeepsPairs chunks := by
  induction chunks with
  | nil =>
      apply iff_of_true rfl
      intro front back cut
      rw [(List.append_eq_nil_iff.mp cut.symm).1]
      exact not_splitsPair_nil _
  | cons chunk chunks inductionHypothesis =>
      rw [List.flatten_cons, List.flatMap_cons, keepsPairs_cons, ← inductionHypothesis]
      have shorter := length_encodeLoop_flatten chunks
      by_cases splits : SplitsPair chunk chunks.flatten
      · apply iff_of_false
        · intro same
          have longer := length_encodeLoop_append splits
          rw [← same] at longer
          simp only [List.length_append] at longer
          omega
        · exact fun keeps => keeps.1 splits
      · rw [encodeLoop_append splits, List.append_right_inj]
        exact (and_iff_right splits).symm

/-- The bytes of a stream depend on how it was cut only where a cut goes through a pair. -/
theorem encodeChunks_iff (self : Utf8Converter) (chunks : List (List UInt16))
    (output : List UInt8) :
    (encodeChunks chunks self output).2.2 = (self.encode chunks.flatten output).2.2 ↔
      KeepsPairs chunks := by
  rw [encodeChunks_output, encode, List.append_right_inj, encodeLoop_flatten_iff]

theorem not_encodeChunks :
    (encodeChunks [[0xd83d], [0xde00]] {} []).2.2 ≠
      (({} : Utf8Converter).encode [[0xd83d], [0xde00]].flatten []).2.2 := by
  decide

end BinaryReader.Utf8Converter

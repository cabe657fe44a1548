import BinaryReader.Public.FileSystem.ReadFully

/-!
# Reading the whole file

`ReadFully` over a reader that keeps its contract except that calls may fail.
The reads move the position forward, so the loop ends, and what they have given
so far is always the front of the file.  An empty file of known size is the one
that it cannot read: it takes an element of an empty vector to read no bytes to.
-/

namespace BinaryReader.FileReader

variable {σ : Type} {reader : FileReader σ} {contents : List UInt8}

theorem unknown_asks : (none : Option Nat).getD kReadSize ≠ 0 := by decide

/-- The first byte behind an empty file is no element of the vector that was resized for it. -/
theorem readFully_zero {state start : σ} {reached : Nat}
    (sought : reader.seek state 0 = (.ok reached, start)) (known : reader.size start = some 0)
    {fuel : Nat} (positive : 0 < fuel) (buffer : List UInt8) (errors : Option ErrorCollection) :
    reader.readFully fuel state buffer errors = .error .outOfBounds := by
  obtain ⟨fuel, rfl⟩ := Nat.exists_eq_succ_of_ne_zero (Nat.ne_zero_of_lt positive)
  rw [readFully, sought]
  dsimp only
  rw [known]
  rfl

theorem handOver_append (front back buffer : List UInt8) (errors : Option ErrorCollection)
    (next : σ) (outcome : Except ErrorInfo (List UInt8)) :
    handOver buffer errors next ((outcome.map (back ++ ·)).map (front ++ ·)) =
      handOver buffer errors next (outcome.map (front ++ back ++ ·)) := by
  cases outcome with
  | error info => rfl
  | ok bytes => simp only [Except.map, List.append_assoc]

theorem Reads.unique {size : Nat} {state : σ} {outcome other : Except ErrorInfo (List UInt8)}
    (reads : reader.Reads size state outcome) (others : reader.Reads size state other) :
    outcome = other := by
  induction reads generalizing other with
  | failed _ returned =>
      cases others with
      | failed _ same =>
          cases returned.symm.trans same
          rfl
      | ended _ same => cases returned.symm.trans same
      | more same _ _ _ => cases returned.symm.trans same
  | ended _ returned =>
      cases others with
      | failed _ same => cases returned.symm.trans same
      | ended _ same => rfl
      | more same some _ _ =>
          cases returned.symm.trans same
          exact absurd rfl some
  | more returned some _ _ inductionHypothesis =>
      cases others with
      | failed _ same => cases returned.symm.trans same
      | ended _ same =>
          cases returned.symm.trans same
          exact absurd rfl some
      | more same _ _ others =>
          cases returned.symm.trans same
          rw [inductionHypothesis others]

theorem ReadsFully.unique {state : σ} {outcome other : Except ErrorInfo (List UInt8)}
    (reads : reader.ReadsFully state outcome) (others : reader.ReadsFully state other) :
    outcome = other := by
  cases reads with
  | unsought sought =>
      cases others with
      | unsought same =>
          cases sought.symm.trans same
          rfl
      | sought same _ => cases sought.symm.trans same
  | sought sought reads =>
      cases others with
      | unsought same => cases sought.symm.trans same
      | sought same others =>
          cases sought.symm.trans same
          exact reads.unique others

theorem Reads.succeeds (contract : reader.Contract contents) {size : Nat} {state : σ}
    {outcome : Except ErrorInfo (List UInt8)} (reads : reader.Reads size state outcome) :
    ∃ bytes, outcome = .ok bytes := by
  induction reads with
  | failed _ returned => exact absurd returned contract.read_ne_error
  | ended => exact ⟨[], rfl⟩
  | more _ _ _ _ inductionHypothesis =>
      obtain ⟨bytes, rfl⟩ := inductionHypothesis
      exact ⟨_, rfl⟩

theorem ReadsFully.succeeds (contract : reader.Contract contents) {state : σ}
    {outcome : Except ErrorInfo (List UInt8)} (reads : reader.ReadsFully state outcome) :
    ∃ bytes, outcome = .ok bytes := by
  cases reads with
  | unsought sought => exact absurd sought contract.seek_ne_error
  | sought _ reads => exact reads.succeeds contract

section Fallible

variable (fallible : reader.Fallible contents)

include fallible

/-- Enough iterations read on to the end of the file or up to a call that fails. -/
theorem readFullyLoop_reads {fuel : Nat} {size : Option Nat} {state : σ}
    (asks : size.getD kReadSize ≠ 0)
    (enough : contents.length - reader.position state < fuel) :
    ∃ outcome next, reader.Reads (size.getD kReadSize) state outcome ∧
      (∀ ret buffer errors, reader.readFullyLoop buffer errors fuel size ret state =
        handOver buffer errors next (outcome.map (ret ++ ·))) ∧
      ∀ bytes, outcome = .ok bytes →
        bytes = contents.drop (reader.position state) ∧
          reader.position next = contents.length := by
  induction fuel generalizing size state with
  | zero => exact absurd enough (Nat.not_lt_zero _)
  | succ fuel inductionHypothesis =>
      have positive := Nat.pos_of_ne_zero asks
      rcases returned : reader.read state (size.getD kReadSize) with ⟨info | bytes, next⟩
      · refine ⟨.error info, next, .failed positive returned, ?_, nofun⟩
        intro ret buffer errors
        simp only [readFullyLoop, returned]
        rw [if_neg asks]
        rfl
      · obtain ⟨fits, isPrefix, atEnd, moved⟩ := fallible.read_ok returned
        have most := fallible.position_le state
        by_cases empty : bytes = []
        · subst empty
          have ended := (atEnd rfl).resolve_left asks
          refine ⟨.ok [], next, .ended positive returned, ?_, ?_⟩
          · intro ret buffer errors
            simp only [readFullyLoop, returned]
            rw [if_neg asks]
            simp [handOver, Except.map]
          · rintro bytes ⟨⟩
            rw [ended, List.drop_length, moved, ended]
            exact ⟨rfl, Nat.add_zero _⟩
        · have nonempty : 0 < bytes.length := List.length_pos_of_ne_nil empty
          have behind := fallible.position_le next
          have closer : contents.length - reader.position next < fuel := by omega
          obtain ⟨outcome, last, reads, looped, whole⟩ := inductionHypothesis unknown_asks closer
          refine ⟨_, last, .more returned empty fits reads, ?_, ?_⟩
          · intro ret buffer errors
            simp only [readFullyLoop, returned]
            rw [if_neg asks, if_neg (not_lt.mpr fits), if_neg (Nat.ne_of_gt nonempty), looped,
              handOver_append]
          · intro all isOk
            obtain ⟨rest, rfl, rfl⟩ : ∃ rest, outcome = .ok rest ∧ all = bytes ++ rest := by
              cases outcome with
              | error info => cases isOk
              | ok rest =>
                  cases isOk
                  exact ⟨rest, rfl, rfl⟩
            obtain ⟨restEq, ended⟩ := whole rest rfl
            refine ⟨?_, ended⟩
            rw [restEq, moved, ← List.drop_drop]
            conv_rhs => rw [← List.take_append_drop bytes.length
              (contents.drop (reader.position state))]
            rw [← List.prefix_iff_eq_take.mp isPrefix]

/-- `ReadFully` gives the whole file and leaves the reader at its end, or a call has failed and
the buffer is as before. -/
theorem readFully_outcome (state : σ)
    (asks : ∀ reached start, reader.seek state 0 = (.ok reached, start) →
      (reader.size start).getD kReadSize ≠ 0)
    {fuel : Nat} (enough : contents.length < fuel) :
    ∃ outcome next, reader.ReadsFully state outcome ∧
      (∀ buffer errors, reader.readFully fuel state buffer errors =
        handOver buffer errors next outcome) ∧
      ∀ bytes, outcome = .ok bytes →
        bytes = contents ∧ reader.position next = contents.length := by
  rcases sought : reader.seek state 0 with ⟨info | reached, start⟩
  · refine ⟨.error info, start, .unsought sought, ?_, nofun⟩
    intro buffer errors
    rw [readFully, sought]
    rfl
  · have atStart : reader.position start = 0 :=
      (fallible.seek_ok sought).2.trans (Nat.zero_min _)
    obtain ⟨outcome, next, reads, looped, whole⟩ :=
      readFullyLoop_reads fallible (asks reached start sought) (by rw [atStart]; exact enough)
    refine ⟨outcome, next, .sought sought reads, ?_, ?_⟩
    · intro buffer errors
      rw [readFully, sought]
      dsimp only
      rw [looped]
      cases outcome <;> rfl
    · intro bytes isOk
      rw [atStart, List.drop_zero] at whole
      exact whole bytes isOk

end Fallible

/-- What a caller of `ReadFully` is promised: the whole file in the buffer and the reader at its
end, and if a call fails, an error and the buffer as it was. -/
structure ReadsWhole (reader : FileReader σ) (contents : List UInt8) (fuel : Nat) (state : σ)
    (buffer : List UInt8) (errors : ErrorCollection) : Prop where
  kept : reader.Contract contents → ∃ next,
    reader.readFully fuel state buffer (some errors) = .ok (true, contents, next, some errors) ∧
      reader.position next = contents.length
  failed : ∀ info, reader.ReadsFully state (.error info) → ∃ next,
    reader.readFully fuel state buffer (some errors) =
      .ok (false, buffer, next, some (errors.add info))
  returns : (∃ next,
      reader.readFully fuel state buffer (some errors) = .ok (true, contents, next, some errors) ∧
        reader.position next = contents.length) ∨
    ∃ info, reader.ReadsFully state (.error info)

section Known

variable (sized : ∀ state, reader.size state = none ∨ reader.size state = some contents.length)

include sized

theorem asks_of_nonempty (nonempty : contents ≠ []) (state : σ) :
    (reader.size state).getD kReadSize ≠ 0 := by
  rcases sized state with unknown | known
  · rw [unknown]
    exact unknown_asks
  · rw [known]
    exact mt List.length_eq_zero_iff.mp nonempty

/-- `ReadFully` keeps its promise except where it asks for the bytes of an empty file. -/
theorem readsWhole_iff (fallible : reader.Fallible contents) {fuel : Nat}
    (enough : contents.length < fuel) (state : σ) (buffer : List UInt8)
    (errors : ErrorCollection) :
    reader.ReadsWhole contents fuel state buffer errors ↔
      contents ≠ [] ∨ (∃ info next, reader.seek state 0 = (.error info, next)) ∨
        ∃ reached next, reader.seek state 0 = (.ok reached, next) ∧ reader.size next = none := by
  constructor
  · intro whole
    by_contra neither
    rw [not_or, not_or, not_not] at neither
    obtain ⟨empty, seeks, known⟩ := neither
    rcases sought : reader.seek state 0 with ⟨info | reached, start⟩
    · exact seeks ⟨info, start, sought⟩
    · have size := (sized start).resolve_left fun unknown => known ⟨reached, start, sought, unknown⟩
      rw [empty, List.length_nil] at size
      have faulty :=
        readFully_zero sought size (Nat.zero_lt_of_lt enough) buffer (some errors)
      rcases whole.returns with ⟨next, read, -⟩ | ⟨info, reads⟩
      · cases faulty.symm.trans read
      · obtain ⟨next, read⟩ := whole.failed info reads
        cases faulty.symm.trans read
  · intro readable
    have asks : ∀ reached start, reader.seek state 0 = (.ok reached, start) →
        (reader.size start).getD kReadSize ≠ 0 := by
      intro reached start sought
      rcases readable with nonempty | ⟨info, next, same⟩ | ⟨reached, next, same, unknown⟩
      · exact asks_of_nonempty sized nonempty start
      · cases sought.symm.trans same
      · cases sought.symm.trans same
        rw [unknown]
        exact unknown_asks
    obtain ⟨outcome, next, reads, read, whole⟩ := readFully_outcome fallible state asks enough
    have succeeded : ∀ bytes, outcome = .ok bytes → ∃ next,
        reader.readFully fuel state buffer (some errors) =
            .ok (true, contents, next, some errors) ∧
          reader.position next = contents.length := by
      rintro bytes rfl
      obtain ⟨rfl, ended⟩ := whole bytes rfl
      exact ⟨next, read buffer (some errors), ended⟩
    refine ⟨?_, ?_, ?_⟩
    · intro contract
      obtain ⟨bytes, rfl⟩ := reads.succeeds contract
      exact succeeded bytes rfl
    · intro info fails
      cases reads.unique fails
      exact ⟨next, read buffer (some errors)⟩
    · cases outcome with
      | error info => exact Or.inr ⟨info, reads⟩
      | ok bytes => exact Or.inl (succeeded bytes rfl)

end Known

theorem readsWhole_iff_three :
    (shortFileReader [1, 2, 3] 2).ReadsWhole [1, 2, 3] 4 (0 : Fin 4) [9] {} ↔
      [(1 : UInt8), 2, 3] ≠ [] ∨
        (∃ info next, (shortFileReader [1, 2, 3] 2).seek (0 : Fin 4) 0 = (.error info, next)) ∨
        ∃ reached next, (shortFileReader [1, 2, 3] 2).seek (0 : Fin 4) 0 = (.ok reached, next) ∧
          (shortFileReader [1, 2, 3] 2).size next = none :=
  readsWhole_iff (fun _ => Or.inr rfl)
    (shortFileReader_contract [1, 2, 3] (by decide)).fallible (by decide) 0 [9] {}

/-- An empty file whose size is known is not read. -/
theorem not_readsWhole :
    (memoryFileReader []).Contract [] ∧ (memoryFileReader []).size (0 : Fin 1) = some 0 ∧
      (∀ fuel, (memoryFileReader []).readFully (fuel + 1) (0 : Fin 1) [9] (some {}) =
        .error .outOfBounds) ∧
      ¬ (memoryFileReader []).ReadsWhole [] 1 (0 : Fin 1) [9] {} := by
  refine ⟨memoryFileReader_contract [], rfl, fun _ => rfl, ?_⟩
  intro whole
  obtain ⟨next, read, -⟩ := whole.kept (memoryFileReader_contract [])
  cases read

end BinaryReader.FileReader

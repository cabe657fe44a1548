import BinaryReader.Public.FileSystem.WholeFile

/-!
# Readers of one file among others

A file system opens many files with readers of one kind.  What a reader promises
about a file holds for the states that belong to the file, and a reader that has
only these states takes the same course.
-/

namespace BinaryReader

namespace FileReader

variable {σ τ : Type}

/-- The documented behaviour, on states that no call leaves. -/
structure ContractOn (reader : FileReader σ) (contents : List UInt8) (states : σ → Prop) :
    Prop where
  position_le : ∀ state, states state → reader.position state ≤ contents.length
  read : ∀ state, states state → ∀ size, ∃ bytes next, reader.read state size = (.ok bytes, next) ∧
    bytes.length ≤ size ∧ bytes <+: contents.drop (reader.position state) ∧
    (bytes = [] → size = 0 ∨ reader.position state = contents.length) ∧
    reader.position next = reader.position state + bytes.length ∧ states next
  seek : ∀ state, states state → ∀ position, ∃ next,
    reader.seek state position = (.ok (min position contents.length), next) ∧
    reader.position next = min position contents.length ∧ states next

/-- A reader calls the other one on the states it stands for. -/
structure Embeds (inner : FileReader τ) (outer : FileReader σ) (embed : τ → σ) : Prop where
  size : ∀ state, outer.size (embed state) = inner.size state
  read : ∀ state count,
    outer.read (embed state) count = (inner.read state count).map id embed
  seek : ∀ state position,
    outer.seek (embed state) position = (inner.seek state position).map id embed

section Restricted

variable {reader : FileReader σ} {contents : List UInt8} {states : σ → Prop}

def restrict (contract : reader.ContractOn contents states) :
    FileReader { state // states state } where
  position := fun state => reader.position state
  size := fun state => reader.size state
  read := fun state size => ((reader.read state size).1, ⟨(reader.read state size).2, by
    obtain ⟨_, _, returned, _, _, _, _, inside⟩ := contract.read state state.2 size
    rw [returned]
    exact inside⟩)
  seek := fun state position => ((reader.seek state position).1, ⟨(reader.seek state position).2, by
    obtain ⟨_, sought, _, inside⟩ := contract.seek state state.2 position
    rw [sought]
    exact inside⟩)

variable (contract : reader.ContractOn contents states)

theorem restrict_embeds : (restrict contract).Embeds reader Subtype.val :=
  ⟨fun _ => rfl, fun _ _ => rfl, fun _ _ => rfl⟩

theorem restrict_contract : (restrict contract).Contract contents where
  position_le := fun state => contract.position_le state state.2
  read := by
    intro state size
    obtain ⟨bytes, next, returned, length, isPrefix, atEnd, moved, inside⟩ :=
      contract.read state state.2 size
    refine ⟨bytes, ⟨next, inside⟩, ?_, length, isPrefix, atEnd, moved⟩
    simp only [restrict, returned]
  seek := by
    intro state position
    obtain ⟨next, sought, moved, inside⟩ := contract.seek state state.2 position
    refine ⟨⟨next, inside⟩, ?_, moved⟩
    simp only [restrict, sought]

end Restricted

section Embedded

variable {inner : FileReader τ} {outer : FileReader σ} {embed : τ → σ}
  (embeds : inner.Embeds outer embed)

include embeds

theorem readFullyLoop_embed (buffer : List UInt8) (errors : Option ErrorCollection) (fuel : Nat)
    (size : Option Nat) (ret : List UInt8) (state : τ) :
    outer.readFullyLoop buffer errors fuel size ret (embed state) =
      (inner.readFullyLoop buffer errors fuel size ret state).map
        (Prod.map id (Prod.map id (Prod.map embed id))) := by
  induction fuel generalizing size ret state with
  | zero => rfl
  | succ fuel inductionHypothesis =>
      rw [readFullyLoop, readFullyLoop, embeds.read]
      by_cases zero : size.getD kReadSize = 0
      · rw [if_pos zero, if_pos zero]
        rfl
      rw [if_neg zero, if_neg zero]
      rcases inner.read state (size.getD kReadSize) with ⟨info | bytes, next⟩
      · dsimp only [Prod.map, id]
        cases report errors info <;> rfl
      · dsimp only [Prod.map, id]
        split_ifs
        · rfl
        · rfl
        · exact inductionHypothesis none (ret ++ bytes) next

theorem readFully_embed (fuel : Nat) (state : τ) (buffer : List UInt8)
    (errors : Option ErrorCollection) :
    outer.readFully fuel (embed state) buffer errors =
      (inner.readFully fuel state buffer errors).map
        (Prod.map id (Prod.map id (Prod.map embed id))) := by
  rw [readFully, readFully, embeds.seek]
  rcases inner.seek state 0 with ⟨info | reached, next⟩
  · dsimp only [Prod.map, id]
    cases report errors info <;> rfl
  · dsimp only [Prod.map, id]
    rw [embeds.size]
    exact readFullyLoop_embed embeds buffer errors fuel (inner.size next) [] next

end Embedded

theorem Reads.whole {reader : FileReader σ} {contents : List UInt8}
    (fallible : reader.Fallible contents) {size : Nat} {state : σ}
    {outcome : Except ErrorInfo (List UInt8)} (reads : reader.Reads size state outcome)
    {bytes : List UInt8} (isOk : outcome = .ok bytes) :
    bytes = contents.drop (reader.position state) := by
  induction reads generalizing bytes with
  | failed _ returned => cases isOk
  | ended positive returned =>
      cases isOk
      obtain ⟨-, -, atEnd, -⟩ := fallible.read_ok returned
      rw [(atEnd rfl).resolve_left (Nat.ne_of_gt positive), List.drop_length]
  | @more size state front next outcome returned _ _ _ inductionHypothesis =>
      obtain ⟨-, isPrefix, -, moved⟩ := fallible.read_ok returned
      cases outcome with
      | error info => cases isOk
      | ok rest =>
          cases isOk
          have restEq := inductionHypothesis rfl
          obtain ⟨behind, whole⟩ := isPrefix
          rw [restEq, moved, ← List.drop_drop, ← whole, List.drop_left]

/-- `ReadFully` over a reader that keeps its contract gives the whole file. -/
theorem Contract.readFully {reader : FileReader σ} {contents : List UInt8}
    (contract : reader.Contract contents)
    (sized : ∀ state, reader.size state = none ∨ reader.size state = some contents.length)
    (nonempty : contents ≠ []) {fuel : Nat} (enough : contents.length < fuel) (state : σ)
    (buffer : List UInt8) (errors : Option ErrorCollection) :
    ∃ next, reader.readFully fuel state buffer errors = .ok (true, contents, next, errors) := by
  obtain ⟨outcome, next, reads, read, whole⟩ := readFully_outcome contract.fallible state
    (fun _ start _ => asks_of_nonempty sized nonempty start) enough
  obtain ⟨bytes, rfl⟩ := reads.succeeds contract
  obtain ⟨rfl, -⟩ := whole bytes rfl
  exact ⟨next, read buffer errors⟩

theorem Contract.readFully_ok {reader : FileReader σ} {contents : List UInt8}
    (contract : reader.Contract contents) {fuel : Nat} {state next : σ} {buffer bytes : List UInt8}
    {errors added : Option ErrorCollection}
    (read : reader.readFully fuel state buffer errors = .ok (true, bytes, next, added)) :
    bytes = contents ∧ added = errors := by
  rcases reader.readFully_spec fuel state with ⟨outcome, last, reads, handed⟩ | ⟨fault, faulty⟩
  · rw [handed] at read
    cases reads with
    | unsought sought => exact absurd sought contract.seek_ne_error
    | @sought reached start _ sought loop =>
        obtain ⟨final, rfl⟩ := loop.succeeds contract
        cases read
        have atStart : reader.position start = 0 :=
          (contract.fallible.seek_ok sought).2.trans (Nat.zero_min _)
        have whole := loop.whole contract.fallible rfl
        rw [atStart, List.drop_zero] at whole
        exact ⟨whole, rfl⟩
  · cases (faulty buffer errors).symm.trans read

end FileReader

/-- A file system opens a path with a reader that keeps its contract over the bytes. -/
def FileSystem.Serves {σ : Type} (fileSystem : FileSystem σ) (fileReader : FileReader σ)
    (path : String) (contents : List UInt8) : Prop :=
  ∃ file states, fileSystem.openFile path = some file ∧ states file ∧
    fileReader.ContractOn contents states ∧
    ∀ state, states state →
      fileReader.size state = none ∨ fileReader.size state = some contents.length

theorem FileReader.ContractOn.readFully {σ : Type} {fileReader : FileReader σ}
    {contents : List UInt8} {states : σ → Prop} (contract : fileReader.ContractOn contents states)
    (sized : ∀ state, states state →
      fileReader.size state = none ∨ fileReader.size state = some contents.length)
    (nonempty : contents ≠ []) {fuel : Nat} (enough : contents.length < fuel) {file : σ}
    (inside : states file) (buffer : List UInt8) (errors : Option ErrorCollection) :
    ∃ next, fileReader.readFully fuel file buffer errors = .ok (true, contents, next, errors) := by
  obtain ⟨next, read⟩ := (FileReader.restrict_contract contract).readFully
    (fun state => sized state state.2) nonempty enough ⟨file, inside⟩ buffer errors
  have embedded := FileReader.readFully_embed (FileReader.restrict_embeds contract) fuel
    ⟨file, inside⟩ buffer errors
  rw [read] at embedded
  exact ⟨next, embedded⟩

theorem FileReader.ContractOn.readFully_ok {σ : Type} {fileReader : FileReader σ}
    {contents : List UInt8} {states : σ → Prop} (contract : fileReader.ContractOn contents states)
    {fuel : Nat} {file next : σ} (inside : states file) {buffer bytes : List UInt8}
    {errors added : Option ErrorCollection}
    (read : fileReader.readFully fuel file buffer errors = .ok (true, bytes, next, added)) :
    bytes = contents ∧ added = errors := by
  have embedded := FileReader.readFully_embed (FileReader.restrict_embeds contract) fuel
    ⟨file, inside⟩ buffer errors
  rcases inner : (FileReader.restrict contract).readFully fuel ⟨file, inside⟩ buffer errors with
    fault | ⟨success, whole, last, reported⟩
  · rw [inner] at embedded
    cases embedded.symm.trans read
  · rw [inner] at embedded
    cases embedded.symm.trans read
    exact (FileReader.restrict_contract contract).readFully_ok inner

end BinaryReader

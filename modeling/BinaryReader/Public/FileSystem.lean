import BinaryReader.Public.Error
import Mathlib.Data.UInt

/-!
# File readers

`FileReader` is the interface the library reads files through, and `Contract`
is what its documentation promises about a reader over given contents.  How
many bytes a read returns is left to the reader.
-/

namespace BinaryReader

/-- A file reader over states `σ`.  A failing call adds one error. -/
structure FileReader (σ : Type) where
  position : σ → Nat
  size : σ → Option Nat
  read : σ → (size : Nat) → Except ErrorInfo (List UInt8) × σ
  seek : σ → (position : Nat) → Except ErrorInfo Nat × σ

/-- The documented behaviour of a reader over the bytes `contents`. -/
structure FileReader.Contract {σ : Type} (reader : FileReader σ) (contents : List UInt8) :
    Prop where
  position_le : ∀ state, reader.position state ≤ contents.length
  read : ∀ state size, ∃ bytes next, reader.read state size = (.ok bytes, next) ∧
    bytes.length ≤ size ∧ bytes <+: contents.drop (reader.position state) ∧
    (bytes = [] → size = 0 ∨ reader.position state = contents.length) ∧
    reader.position next = reader.position state + bytes.length
  seek : ∀ state position, ∃ next,
    reader.seek state position = (.ok (min position contents.length), next) ∧
    reader.position next = min position contents.length

/-- The same for a reader whose calls may fail: a failed `Seek` leaves it where it
was, a failed `Read` may have consumed some bytes. -/
structure FileReader.Fallible {σ : Type} (reader : FileReader σ) (contents : List UInt8) :
    Prop where
  position_le : ∀ state, reader.position state ≤ contents.length
  read_ok : ∀ {state size bytes next}, reader.read state size = (.ok bytes, next) →
    bytes.length ≤ size ∧ bytes <+: contents.drop (reader.position state) ∧
    (bytes = [] → size = 0 ∨ reader.position state = contents.length) ∧
    reader.position next = reader.position state + bytes.length
  read_error : ∀ {state size info next}, reader.read state size = (.error info, next) →
    reader.position state ≤ reader.position next
  seek_ok : ∀ {state position reached next},
    reader.seek state position = (.ok reached, next) →
    reached = min position contents.length ∧ reader.position next = min position contents.length
  seek_error : ∀ {state position info next}, reader.seek state position = (.error info, next) →
    reader.position next = reader.position state

structure FileReader.ReportsErrors {σ : Type} (reader : FileReader σ) : Prop where
  read : ∀ {state size info next}, reader.read state size = (.error info, next) →
    info.level = .error
  seek : ∀ {state position info next}, reader.seek state position = (.error info, next) →
    info.level = .error

structure FileSystem (σ : Type) where
  /-- `Open`, whose result is none for a null pointer. -/
  openFile : (path : String) → Option σ

namespace FileReader.Contract

variable {σ : Type} {reader : FileReader σ} {contents : List UInt8}
variable (contract : reader.Contract contents)
include contract

theorem read_ne_error {state next : σ} {size : Nat} {info : ErrorInfo} :
    reader.read state size ≠ (.error info, next) := by
  intro failed
  obtain ⟨bytes, _, returned, _⟩ := contract.read state size
  rw [returned] at failed
  cases failed

theorem seek_ne_error {state next : σ} {position : Nat} {info : ErrorInfo} :
    reader.seek state position ≠ (.error info, next) := by
  intro failed
  obtain ⟨_, sought, _⟩ := contract.seek state position
  rw [sought] at failed
  cases failed

theorem fallible : reader.Fallible contents where
  position_le := contract.position_le
  read_ok := by
    intro state size bytes next returned
    obtain ⟨_, _, same, facts⟩ := contract.read state size
    cases returned.symm.trans same
    exact facts
  read_error := fun failed => absurd failed contract.read_ne_error
  seek_ok := by
    intro state position reached next sought
    obtain ⟨_, same, moved⟩ := contract.seek state position
    cases sought.symm.trans same
    exact ⟨rfl, moved⟩
  seek_error := fun failed => absurd failed contract.seek_ne_error

end FileReader.Contract

/-- `MemoryFileReader` over its contents: its position never exceeds them. -/
def memoryFileReader (contents : List UInt8) : FileReader (Fin (contents.length + 1)) where
  position := fun position => position
  size := fun _ => some contents.length
  read := fun position size =>
    let bytes := (contents.drop position).take size
    (.ok bytes, ⟨position + bytes.length, by
      simp only [bytes, List.length_take, List.length_drop]
      omega⟩)
  seek := fun _ position =>
    (.ok (min contents.length position), ⟨min contents.length position, by omega⟩)

theorem memoryFileReader_contract (contents : List UInt8) :
    (memoryFileReader contents).Contract contents where
  position_le := fun position => Nat.le_of_lt_succ position.isLt
  read := by
    intro position size
    refine ⟨_, _, rfl, List.length_take_le _ _, List.take_prefix _ _, ?_, rfl⟩
    intro empty
    have bound := position.isLt
    have length := congrArg List.length empty
    simp only [List.length_take, List.length_drop, List.length_nil] at length
    change size = 0 ∨ position.val = contents.length
    omega
  seek := by
    intro state position
    exact ⟨⟨min contents.length position, by omega⟩, by rw [Nat.min_comm]; rfl, Nat.min_comm _ _⟩

/-- A memory reader whose reads return at most `limit` bytes. -/
def shortFileReader (contents : List UInt8) (limit : Nat) :
    FileReader (Fin (contents.length + 1)) :=
  { memoryFileReader contents with
    read := fun position size => (memoryFileReader contents).read position (min size limit) }

theorem shortFileReader_contract (contents : List UInt8) {limit : Nat} (positive : 0 < limit) :
    (shortFileReader contents limit).Contract contents where
  position_le := (memoryFileReader_contract contents).position_le
  read := by
    intro position size
    obtain ⟨bytes, next, returned, length, isPrefix, atEnd, moved⟩ :=
      (memoryFileReader_contract contents).read position (min size limit)
    refine ⟨bytes, next, returned, length.trans (Nat.min_le_left _ _), isPrefix, ?_, moved⟩
    intro empty
    apply (atEnd empty).imp_left
    omega
  seek := (memoryFileReader_contract contents).seek

/-- A memory reader that fails as a script says: every entry is one call, `some count`
makes it fail, and a `Read` that fails consumes `count` bytes. -/
def scriptedFileReader (contents : List UInt8) :
    FileReader (Fin (contents.length + 1) × List (Option Nat)) where
  position := fun state => state.1
  size := fun _ => some contents.length
  read := fun state size =>
    match state.2 with
    | some count :: script =>
        (.error (.ofKind {} .ioError 0),
          ((memoryFileReader contents).read state.1 count).2, script)
    | script =>
        let result := (memoryFileReader contents).read state.1 size
        (result.1, result.2, script.tail)
  seek := fun state position =>
    match state.2 with
    | some _ :: script => (.error (.ofKind {} .ioError 0), state.1, script)
    | script =>
        let result := (memoryFileReader contents).seek state.1 position
        (result.1, result.2, script.tail)

theorem scriptedFileReader_fallible (contents : List UInt8) :
    (scriptedFileReader contents).Fallible contents := by
  have memory := (memoryFileReader_contract contents).fallible
  refine ⟨fun state => memory.position_le state.1, ?_, ?_, ?_, ?_⟩
  · rintro ⟨position, script⟩ size bytes next returned
    rcases script with _ | ⟨_ | count, script⟩ <;> cases returned
    · exact memory.read_ok rfl
    · exact memory.read_ok rfl
  · rintro ⟨position, script⟩ size info next failed
    rcases script with _ | ⟨_ | count, script⟩ <;> cases failed
    exact Nat.le_add_right _ _
  · rintro ⟨position, script⟩ target reached next sought
    rcases script with _ | ⟨_ | count, script⟩ <;> cases sought
    · exact memory.seek_ok (show (memoryFileReader contents).seek position target = _ from rfl)
    · exact memory.seek_ok (show (memoryFileReader contents).seek position target = _ from rfl)
  · rintro ⟨position, script⟩ target info next failed
    rcases script with _ | ⟨_ | count, script⟩ <;> cases failed
    rfl

end BinaryReader

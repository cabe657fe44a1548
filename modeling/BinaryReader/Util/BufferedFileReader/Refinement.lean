import BinaryReader.Library.Machine
import BinaryReader.Util.BufferedFileReader.Window

/-!
# A plain random-access file

The abstract file is its contents and a bit position.  The buffered reader
simulates it: positions agree after every call, and `GetBuffer` gives out the
contents at the position, however the underlying reader cuts its reads.
-/

namespace BinaryReader.BufferedFileReader

open Library

inductive Call where
  | seek (position : Size)
  | skip (count : Size)
  | ensureBuffer (size : Size)
  | getBuffer

/-- What a caller sees of a call: its result, `position()` behind it, and the
bytes that `GetBuffer` gives out. -/
structure Answer where
  returned : Bool
  position : Size
  bytes : Option (List UInt8)

variable {σ : Type}

/-- One call, with the errors it adds to the caller's collection. -/
def answer (fileReader : FileReader σ) (state : BufferedFileReader σ × ErrorCollection) :
    Call → Checked (Answer × BufferedFileReader σ × ErrorCollection)
  | .seek position =>
      let (returned, next) := state.1.seek fileReader position state.2
      .ok (⟨returned, next.1.position, none⟩, next)
  | .skip count =>
      let (returned, next) := state.1.skip fileReader count state.2
      .ok (⟨returned, next.1.position, none⟩, next)
  | .ensureBuffer size => do
      let (returned, next) ← state.1.ensureBuffer fileReader size state.2
      return (⟨returned, next.1.position, none⟩, next)
  | .getBuffer => do
      let (bytes, next) ← state.1.getBuffer fileReader state.2
      return (⟨bytes.isSome, next.1.position, bytes⟩, next)

def machine (fileReader : FileReader σ) :
    Machine (BufferedFileReader σ × ErrorCollection) Call Answer Fault where
  step := answer fileReader

def moved (position : Nat) : Call → Nat
  | .seek target => target.bitCount
  | .skip count => position + count.bitCount
  | .ensureBuffer _ => position
  | .getBuffer => position

/-- The calls whose arguments keep the position a 64-bit number and the buffer large enough. -/
def InRange (position : Nat) : Call → Prop
  | .skip count => position + count.bitCount < 2 ^ 64
  | .ensureBuffer size => size ≤ .fromBytesAndOffset kBufferSize 7
  | _ => True

/-- The answer of a file with these contents to a call at a bit position. -/
structure Answers (contents : List UInt8) (position : Nat) (call : Call) (answer : Answer) :
    Prop where
  returned : answer.returned = true
  moved : answer.position.bitCount = moved position call
  shown : call = .getBuffer → ∃ bytes, answer.bytes = some bytes ∧
    bytes = (contents.drop (position / 8)).take bytes.length ∧
    (0 < bytes.length ↔ position / 8 < contents.length)

def randomAccessFile (contents : List UInt8) : Specification Nat Call Answer where
  allowed := InRange
  answers := fun position call answer next =>
    Answers contents position call answer ∧ next = moved position call

variable {fileReader : FileReader σ} {contents : List UInt8}

/-- The reader shows the contents at `position`, and no call has added an error. -/
def Shows (fileReader : FileReader σ) (contents : List UInt8) (errors : ErrorCollection)
    (state : BufferedFileReader σ × ErrorCollection) (position : Nat) : Prop :=
  Tracks fileReader contents state.1 position ∧ state.2 = errors

theorem simulates (contract : fileReader.Contract contents) (errors : ErrorCollection) :
    Simulates (machine fileReader) (randomAccessFile contents)
      (Shows fileReader contents errors) where
  step := by
    rintro ⟨self, errors⟩ position call ⟨tracks, rfl⟩ inRange
    cases call with
    | seek target =>
        obtain ⟨next, sought, nextTracks⟩ := seek_spec contract tracks target errors
        refine ⟨⟨true, next.position, none⟩, (next, errors), _, ?_,
          ⟨⟨rfl, nextTracks.position_bitCount, nofun⟩, rfl⟩, nextTracks, rfl⟩
        simp only [machine, answer, sought]
    | skip count =>
        obtain ⟨next, skipped, nextTracks⟩ := skip_spec contract tracks count errors
        rw [Nat.mod_eq_of_lt inRange] at nextTracks
        refine ⟨⟨true, next.position, none⟩, (next, errors), _, ?_,
          ⟨⟨rfl, nextTracks.position_bitCount, nofun⟩, rfl⟩, nextTracks, rfl⟩
        simp only [machine, answer, skipped]
    | ensureBuffer size =>
        obtain ⟨next, ensured, nextTracks, -, -⟩ := ensureBuffer_spec contract tracks inRange errors
        refine ⟨⟨true, next.position, none⟩, (next, errors), _, ?_,
          ⟨⟨rfl, nextTracks.position_bitCount, nofun⟩, rfl⟩, nextTracks, rfl⟩
        simp only [machine, answer, ensured, Checked.ok_bind]
        rfl
    | getBuffer =>
        obtain ⟨bytes, next, got, nextTracks, -, shown, -, positive⟩ :=
          getBuffer_spec contract tracks errors
        refine ⟨⟨true, next.position, some bytes⟩, (next, errors), _, ?_,
          ⟨⟨rfl, nextTracks.position_bitCount, fun _ => ⟨bytes, rfl, shown, positive⟩⟩, rfl⟩,
          nextTracks, rfl⟩
        simp only [machine, answer, got, Checked.ok_bind]
        rfl

theorem answer_tracks (contract : fileReader.Contract contents)
    {state next : BufferedFileReader σ × ErrorCollection} {call : Call} {output : Answer}
    (tracks : Tracks fileReader contents state.1 state.1.position.bitCount)
    (answered : answer fileReader state call = .ok (output, next)) :
    Tracks fileReader contents next.1 next.1.position.bitCount := by
  cases call with
  | seek target =>
      obtain ⟨last, sought, moved⟩ := seek_spec contract tracks target state.2
      rw [answer, sought] at answered
      cases answered
      exact moved.here
  | skip count =>
      obtain ⟨last, skipped, moved⟩ := skip_spec contract tracks count state.2
      rw [answer, skipped] at answered
      cases answered
      exact moved.here
  | ensureBuffer size =>
      obtain ⟨result, ensured, same⟩ := Checked.bind_eq_ok_iff.mp answered
      obtain ⟨last, expected, kept, -⟩ :=
        ensureBuffer_spec contract tracks (limit_of_ensureBuffer ensured) state.2
      cases ensured.symm.trans expected
      cases same
      exact kept.here
  | getBuffer =>
      obtain ⟨result, got, same⟩ := Checked.bind_eq_ok_iff.mp answered
      obtain ⟨bytes, last, expected, kept, -⟩ := getBuffer_spec contract tracks state.2
      cases got.symm.trans expected
      cases same
      exact kept.here

/-- A new reader is where the underlying one is, or goes somewhere first. -/
def Starts (fileReader : FileReader σ) (reader : σ) (calls : List Call) : Prop :=
  fileReader.position reader = 0 ∨ ∃ target rest, calls = .seek target :: rest

/-- Every state a run reaches shows the file. -/
theorem run_tracks (contract : fileReader.Contract contents) {reader : σ}
    {buffer : Nat → UInt8} {errors : ErrorCollection} {calls : List Call}
    (starts : Starts fileReader reader calls) {answers : List Answer}
    {final : BufferedFileReader σ × ErrorCollection}
    (ran : (machine fileReader).run ({ reader, buffer }, errors) calls = .ok (answers, final)) :
    Tracks fileReader contents final.1 final.1.position.bitCount := by
  have later {state : BufferedFileReader σ × ErrorCollection} {rest : List Call}
      {outputs : List Answer} (tracks : Tracks fileReader contents state.1 _)
      (continued : (machine fileReader).run state rest = .ok (outputs, final)) :=
    (machine fileReader).run_preserves
      (fun state => Tracks fileReader contents state.1 state.1.position.bitCount)
      (answer_tracks contract) continued tracks
  rcases starts with atStart | ⟨target, rest, rfl⟩
  · exact later (tracks_start reader buffer atStart) ran
  · obtain ⟨next, sought, moved⟩ :=
      seek_of_empty contract (show ({ reader, buffer } : BufferedFileReader σ).used = 0 from rfl)
        target errors
    obtain ⟨output, following, outputs, answered, continued, -⟩ :=
      (machine fileReader).run_cons_eq_ok ran
    simp only [machine, answer, sought] at answered
    cases answered
    exact later moved.here continued

/-- The buffered reader refines the random-access file: no run of calls in range
faults, and every call is answered as the file answers it. -/
theorem run_refines (contract : fileReader.Contract contents) (reader : σ)
    (buffer : Nat → UInt8) (atStart : fileReader.position reader = 0) (errors : ErrorCollection)
    {calls : List Call} (inRange : (randomAccessFile contents).Admits 0 calls) :
    ∃ answers final last,
      (machine fileReader).run ({ reader, buffer }, errors) calls = .ok (answers, final) ∧
      (randomAccessFile contents).Trace 0 calls answers last ∧
      Shows fileReader contents errors final last :=
  (simulates contract errors).run ⟨tracks_start reader buffer atStart, rfl⟩ inRange

theorem run_refines_three :
    ∃ answers final last,
      (machine (memoryFileReader [1, 2, 3])).run ({ reader := 0, buffer := fun _ => 7 }, {})
          [.seek (.fromBits 41), .getBuffer, .seek (.fromBits 9), .getBuffer] =
        .ok (answers, final) ∧
      (randomAccessFile [1, 2, 3]).Trace 0
        [.seek (.fromBits 41), .getBuffer, .seek (.fromBits 9), .getBuffer] answers last ∧
      Shows (memoryFileReader [1, 2, 3]) [1, 2, 3] {} final last :=
  run_refines (memoryFileReader_contract [1, 2, 3]) 0 (fun _ => 7) rfl {}
    (by simp [Specification.Admits, randomAccessFile, InRange])

end BinaryReader.BufferedFileReader

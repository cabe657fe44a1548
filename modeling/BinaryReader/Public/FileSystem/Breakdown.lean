import BinaryReader.Public.FileSystem.Restriction

/-!
# Readers that break down

Any call of a reader may fail.  A reader breaks down if no `Read` succeeds any more
behind one that failed: then nothing is read from another place than it should be.
-/

namespace BinaryReader

namespace FileReader

variable {σ : Type}

/-- A reader of a file whose calls may fail, and whose failed reads are final. -/
structure BreaksDown (reader : FileReader σ) (contents : List UInt8) (broken : σ → Prop) :
    Prop where
  fallible : reader.Fallible contents
  read_breaks : ∀ {state size info next}, reader.read state size = (.error info, next) →
    broken next
  read_broken : ∀ {state size bytes next}, broken state →
    reader.read state size ≠ (.ok bytes, next)

theorem Fallible.readFully {reader : FileReader σ} {contents : List UInt8}
    (fallible : reader.Fallible contents)
    (sized : ∀ state, reader.size state = none ∨ reader.size state = some contents.length)
    (nonempty : contents ≠ []) {fuel : Nat} (enough : contents.length < fuel) (state : σ)
    (buffer : List UInt8) (errors : ErrorCollection) :
    ∃ success bytes next added,
      reader.readFully fuel state buffer (some errors) = .ok (success, bytes, next, some added) ∧
      (success = true → bytes = contents ∧ added = errors) := by
  obtain ⟨outcome, next, -, read, whole⟩ := readFully_outcome fallible state
    (fun _ start _ => asks_of_nonempty sized nonempty start) enough
  cases outcome with
  | error info =>
      exact ⟨false, buffer, next, errors.add info, read buffer (some errors), nofun⟩
  | ok bytes =>
      obtain ⟨rfl, -⟩ := whole bytes rfl
      exact ⟨true, bytes, next, errors, read buffer (some errors), fun _ => ⟨rfl, rfl⟩⟩

end FileReader

/-- A file system opens a path with a reader of the bytes that may break down. The reader is
seen through one that has the states of this file only. -/
def FileSystem.Provides {σ : Type} (fileSystem : FileSystem σ) (fileReader : FileReader σ)
    (path : String) (contents : List UInt8) : Prop :=
  ∃ (τ : Type) (inner : FileReader τ) (embed : τ → σ) (broken : τ → Prop) (file : τ),
    inner.Embeds fileReader embed ∧ inner.BreaksDown contents broken ∧
    fileSystem.openFile path = some (embed file) ∧
    ∀ state, inner.size state = none ∨ inner.size state = some contents.length

theorem FileSystem.Serves.provides {σ : Type} {fileSystem : FileSystem σ}
    {fileReader : FileReader σ} {path : String} {contents : List UInt8}
    (served : fileSystem.Serves fileReader path contents) :
    fileSystem.Provides fileReader path contents := by
  obtain ⟨file, states, opened, inside, contract, sized⟩ := served
  have restricted := FileReader.restrict_contract contract
  refine ⟨_, FileReader.restrict contract, Subtype.val, fun _ => False, ⟨file, inside⟩,
    FileReader.restrict_embeds contract, ⟨restricted.fallible, ?_, ?_⟩, opened,
    fun state => sized state state.2⟩
  · intro state size info next failed
    exact absurd failed restricted.read_ne_error
  · intro state size bytes next impossible
    exact impossible.elim

end BinaryReader

import BinaryReader.Public.FileSystem.Restriction

/-!
# Errors of other places

An error says which place of a definition it is about.  A reader can take the course
of another one and report its errors for other places.
-/

namespace BinaryReader

def ErrorInfo.relocate (place : DebugInfo → DebugInfo) (info : ErrorInfo) : ErrorInfo :=
  { info with debug := place info.debug }

namespace ErrorCollection

def relocate (place : DebugInfo → DebugInfo) (collection : ErrorCollection) : ErrorCollection :=
  { collection with errors := collection.errors.map (.relocate place) }

theorem relocate_id (collection : ErrorCollection) : collection.relocate id = collection := by
  have same : ErrorInfo.relocate id = id := rfl
  rw [relocate, same, List.map_id]

theorem relocate_add (place : DebugInfo → DebugInfo) (collection : ErrorCollection)
    (info : ErrorInfo) :
    (collection.add info).relocate place =
      (collection.relocate place).add (info.relocate place) := by
  rw [relocate, add_errors, List.map_append]
  rfl

theorem add_ofKind_relocate (place : DebugInfo → DebugInfo) (collection : ErrorCollection)
    (debug : DebugInfo) (kind : ErrorKind) (offset : Nat) :
    (collection.relocate place).add (.ofKind (place debug) kind offset) =
      (collection.add (.ofKind debug kind offset)).relocate place :=
  (relocate_add place collection (.ofKind debug kind offset)).symm

end ErrorCollection

namespace FileReader

variable {σ τ : Type}

/-- A reader does on the states it stands for what the other one does, for other places. -/
structure Carries (inner : FileReader τ) (outer : FileReader σ) (embed : τ → σ)
    (place : DebugInfo → DebugInfo) : Prop where
  read : ∀ state count, outer.read (embed state) count =
    (inner.read state count).map (Except.mapError (.relocate place)) embed
  seek : ∀ state position, outer.seek (embed state) position =
    (inner.seek state position).map (Except.mapError (.relocate place)) embed

theorem Embeds.carries {inner : FileReader τ} {outer : FileReader σ} {embed : τ → σ}
    (embeds : inner.Embeds outer embed) : inner.Carries outer embed id where
  read := by
    intro state count
    rw [embeds.read]
    rcases inner.read state count with ⟨info | bytes, next⟩ <;> rfl
  seek := by
    intro state position
    rw [embeds.seek]
    rcases inner.seek state position with ⟨info | reached, next⟩ <;> rfl

def relocate (place : DebugInfo → DebugInfo) (fileReader : FileReader σ) : FileReader σ where
  position := fileReader.position
  size := fileReader.size
  read := fun state size => (fileReader.read state size).map (Except.mapError (.relocate place)) id
  seek := fun state position =>
    (fileReader.seek state position).map (Except.mapError (.relocate place)) id

theorem carries_relocate (place : DebugInfo → DebugInfo) (fileReader : FileReader σ) :
    fileReader.Carries (fileReader.relocate place) id place :=
  ⟨fun _ _ => rfl, fun _ _ => rfl⟩

end FileReader

end BinaryReader

import BinaryReader.Public.FileSystem.Relocation
import BinaryReader.Util.BufferedFileReader

/-!
# Buffers over embedded readers

A buffered reader takes the same course over a reader and over one that carries it.
-/

namespace BinaryReader

namespace BufferedFileReader

variable {σ τ : Type}

def mapReader (embed : τ → σ) (self : BufferedFileReader τ) : BufferedFileReader σ :=
  { self with reader := embed self.reader }

@[simp]
theorem mapReader_position (embed : τ → σ) (self : BufferedFileReader τ) :
    (self.mapReader embed).position = self.position := rfl

variable {inner : FileReader τ} {outer : FileReader σ} {embed : τ → σ}

theorem visible_mapReader (self : BufferedFileReader τ) :
    (self.mapReader embed).visible = self.visible := rfl

theorem compact_mapReader (self : BufferedFileReader τ) :
    (self.mapReader embed).compact = self.compact.map (mapReader embed) := by
  simp only [compact, mapReader]
  rcases moveBuffer self.buffer self.bufferOffset.byteCount with fault | buffer
  · rfl
  · by_cases under : self.used < self.bufferOffset.byteCount
    · rw [Checked.ok_bind, Checked.ok_bind, if_pos under]
      exact if_pos under
    · rw [Checked.ok_bind, Checked.ok_bind, if_neg under]
      exact if_neg under

theorem makeRoom_mapReader (self : BufferedFileReader τ) (size : Size) :
    (self.mapReader embed).makeRoom size = (self.makeRoom size).map (mapReader embed) := by
  rw [makeRoom, makeRoom]
  by_cases full : .fromBytes kBufferSize < self.bufferOffset + size
  · rw [if_pos full]
    exact (if_pos full).trans self.compact_mapReader
  · rw [if_neg full]
    exact if_neg full

theorem store_mapReader (embed : τ → σ) (self : BufferedFileReader τ) (bytes : List UInt8)
    (reader : τ) :
    (self.mapReader embed).store bytes (embed reader) =
      (self.store bytes reader).map (mapReader embed) := by
  rw [store, store]
  by_cases fits : self.used + bytes.length ≤ kBufferSize
  · rw [dif_pos fits]
    exact dif_pos fits
  · rw [dif_neg fits]
    exact dif_neg fits

variable {place : DebugInfo → DebugInfo} (carries : inner.Carries outer embed place)

include carries

theorem seek_mapReader (self : BufferedFileReader τ) (position : Size) (errors : ErrorCollection) :
    (self.mapReader embed).seek outer position (errors.relocate place) =
      (self.seek inner position errors).map id (Prod.map (mapReader embed) (.relocate place)) := by
  rw [seek, seek]
  by_cases inside : self.startPosition ≤ position ∧
      position < self.startPosition + .fromBytes self.used
  · rw [if_pos inside]
    exact if_pos inside
  · rw [if_neg inside]
    refine (if_neg inside).trans ?_
    dsimp only [mapReader]
    rw [carries.seek]
    rcases inner.seek self.reader position.byteCount with ⟨info | reached, next⟩
    · simp only [Prod.map, ErrorCollection.relocate_add]
      rfl
    · rfl

theorem skip_mapReader (self : BufferedFileReader τ) (count : Size) (errors : ErrorCollection) :
    (self.mapReader embed).skip outer count (errors.relocate place) =
      (self.skip inner count errors).map id (Prod.map (mapReader embed) (.relocate place)) :=
  seek_mapReader carries self _ errors

theorem fill_mapReader (size : Size) (errors : ErrorCollection) (fuel : Nat)
    (self : BufferedFileReader τ) :
    fill outer size (errors.relocate place) fuel (self.mapReader embed) =
      (fill inner size errors fuel self).map
        (Prod.map id (Prod.map (mapReader embed) (.relocate place))) := by
  induction fuel generalizing self with
  | zero => rfl
  | succ fuel inductionHypothesis =>
      rw [fill, fill]
      by_cases short : .fromBytes self.used < self.bufferOffset + size
      · rw [if_pos short]
        refine (if_pos short).trans ?_
        dsimp only [mapReader]
        rw [carries.read]
        rcases inner.read self.reader (kBufferSize - self.used) with ⟨info | bytes, reader⟩
        · simp only [Prod.map, Except.map, ErrorCollection.relocate_add]
          rfl
        · have stored := store_mapReader embed self bytes reader
          dsimp only [Prod.map, mapReader, id, Except.mapError] at stored ⊢
          rw [stored]
          cases self.store bytes reader with
          | error fault => rfl
          | ok next =>
              dsimp only [Except.map, Checked.ok_bind]
              split_ifs
              · rfl
              · exact inductionHypothesis next
      · rw [if_neg short]
        exact if_neg short

theorem ensureBuffer_mapReader (self : BufferedFileReader τ) (size : Size)
    (errors : ErrorCollection) :
    (self.mapReader embed).ensureBuffer outer size (errors.relocate place) =
      (self.ensureBuffer inner size errors).map
        (Prod.map id (Prod.map (mapReader embed) (.relocate place))) := by
  simp only [ensureBuffer, makeRoom_mapReader, Checked.map_bind, Checked.bind_map,
    fill_mapReader carries]
  rfl

theorem getBuffer_mapReader (self : BufferedFileReader τ) (errors : ErrorCollection) :
    (self.mapReader embed).getBuffer outer (errors.relocate place) =
      (self.getBuffer inner errors).map
        (Prod.map id (Prod.map (mapReader embed) (.relocate place))) := by
  rw [getBuffer, getBuffer, ensureBuffer_mapReader carries]
  cases self.ensureBuffer inner (.fromBits 1) errors with
  | error fault => rfl
  | ok result =>
      obtain ⟨ensured, next, added⟩ := result
      dsimp only [Except.map, Prod.map, id, Checked.ok_bind, visible_mapReader]
      cases ensured with
      | false => rfl
      | true =>
          rw [if_pos rfl, if_pos rfl]
          cases next.visible <;> rfl

end BufferedFileReader

end BinaryReader

import BinaryReader.Public.FileSystem.Restriction

/-!
# Files in memory

A file system whose files are given by their bytes.  Opening a file clones its
reader, which still stands at its beginning.
-/

namespace BinaryReader

structure MemoryFileReader where
  buffer : List UInt8
  pos : Fin (buffer.length + 1)

namespace MemoryFileReader

def ofBuffer (buffer : List UInt8) : MemoryFileReader := ⟨buffer, 0⟩

def clone (self : MemoryFileReader) : MemoryFileReader := self

def fileReader : FileReader MemoryFileReader where
  position := fun self => (memoryFileReader self.buffer).position self.pos
  size := fun self => (memoryFileReader self.buffer).size self.pos
  read := fun self size =>
    ((memoryFileReader self.buffer).read self.pos size).map id (⟨self.buffer, ·⟩)
  seek := fun self position =>
    ((memoryFileReader self.buffer).seek self.pos position).map id (⟨self.buffer, ·⟩)

theorem fileReader_contractOn (contents : List UInt8) :
    fileReader.ContractOn contents fun self => self.buffer = contents where
  position_le := by
    rintro ⟨_, pos⟩ rfl
    exact (memoryFileReader_contract _).position_le pos
  read := by
    rintro ⟨buffer, pos⟩ rfl size
    obtain ⟨bytes, next, returned, length, isPrefix, atEnd, moved⟩ :=
      (memoryFileReader_contract buffer).read pos size
    refine ⟨bytes, ⟨buffer, next⟩, ?_, length, isPrefix, atEnd, moved, rfl⟩
    simp only [fileReader, returned, Prod.map, id]
  seek := by
    rintro ⟨buffer, pos⟩ rfl position
    obtain ⟨next, sought, moved⟩ := (memoryFileReader_contract buffer).seek pos position
    refine ⟨⟨buffer, next⟩, ?_, moved, rfl⟩
    simp only [fileReader, sought, Prod.map, id]

end MemoryFileReader

/-- Every path has one file. -/
structure MemoryFileSystem where
  files : List (String × MemoryFileReader) := []

namespace MemoryFileSystem

/-- `Add`: `emplace` keeps a file that is there already. -/
def add (self : MemoryFileSystem) (path : String) (buffer : List UInt8) : MemoryFileSystem :=
  if (self.files.lookup path).isSome then self
  else { files := (path, .ofBuffer buffer) :: self.files }

def openFile (self : MemoryFileSystem) (path : String) : Option MemoryFileReader :=
  (self.files.lookup path).map MemoryFileReader.clone

def fileSystem (self : MemoryFileSystem) : FileSystem MemoryFileReader := ⟨self.openFile⟩

def addAll (self : MemoryFileSystem) (files : List (String × List UInt8)) : MemoryFileSystem :=
  files.foldl (fun system file => system.add file.1 file.2) self

theorem openFile_add (self : MemoryFileSystem) (path other : String) (buffer : List UInt8) :
    (self.add path buffer).openFile other =
      (self.openFile other).or (if other = path then some (.ofBuffer buffer) else none) := by
  rw [add, openFile, openFile]
  by_cases same : other = path
  · subst same
    rcases found : self.files.lookup other with _ | file
    · rw [if_neg (by decide), List.lookup_cons, beq_self_eq_true, if_pos rfl]
      rfl
    · rw [if_pos (by rfl), found]
      rfl
  · rw [if_neg same, Option.or_none]
    split
    · rfl
    · rw [List.lookup_cons, beq_eq_false_iff_ne.mpr same]

theorem openFile_addAll (self : MemoryFileSystem) (files : List (String × List UInt8))
    (path : String) :
    (self.addAll files).openFile path =
      (self.openFile path).or ((files.lookup path).map MemoryFileReader.ofBuffer) := by
  induction files generalizing self with
  | nil => exact (Option.or_none).symm
  | cons file files inductionHypothesis =>
      obtain ⟨first, buffer⟩ := file
      rw [addAll, List.foldl_cons]
      refine (inductionHypothesis (self.add first buffer)).trans ?_
      rw [openFile_add, Option.or_assoc, List.lookup_cons]
      by_cases same : path = first
      · rw [if_pos same, beq_iff_eq.mpr same]
        rfl
      · rw [if_neg same, beq_eq_false_iff_ne.mpr same]
        rfl

/-- The bytes that were first added for a path are those that its readers read. -/
theorem serves {files : List (String × List UInt8)} {path : String} {contents : List UInt8}
    (found : files.lookup path = some contents) :
    (addAll {} files).fileSystem.Serves MemoryFileReader.fileReader path contents := by
  refine ⟨.ofBuffer contents, fun self => self.buffer = contents, ?_, rfl,
    MemoryFileReader.fileReader_contractOn contents, ?_⟩
  · change (addAll {} files).openFile path = _
    rw [openFile_addAll, found]
    rfl
  · rintro state rfl
    exact Or.inr rfl

end MemoryFileSystem

end BinaryReader

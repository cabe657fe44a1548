import BinaryReader.Public.FileSystem

/-!
# Files of the default file system

`FileFileReader` reads a `std::FILE`.  Streams are values of a type `φ`, and
`Stdio` is what the reader uses of the C library.
-/

namespace BinaryReader

inductive Whence where
  | seekSet
  | seekEnd
  deriving DecidableEq, Repr

/-- The functions of `<cstdio>` over streams `φ`. -/
structure Stdio (φ : Type) where
  fopen : (path : String) → Option φ
  fread : φ → (count : Nat) → List UInt8 × φ
  ferror : φ → Bool
  errno : φ → Nat
  ftello : φ → Nat
  /-- Whether the call fails, and the stream behind it. -/
  fseeko : φ → (offset : Nat) → Whence → Bool × φ

structure FileFileReader (φ : Type) where
  path : String
  fs : φ
  size : Nat

namespace Stdio

variable {φ : Type} (stdio : Stdio φ)

def getSize (fs : φ) : Nat × φ :=
  let fs := (stdio.fseeko fs 0 .seekEnd).2
  (stdio.ftello fs, (stdio.fseeko fs 0 .seekSet).2)

def ioError (self : FileFileReader φ) (fs : φ) : ErrorInfo :=
  .ofArguments { filePath := self.path } .ioError [toString (stdio.errno fs)] .error

/-- The calls of `FileFileReader`.  A `Seek` behind the end goes to the end. -/
def fileFileReader : FileReader (FileFileReader φ) where
  position := fun self => stdio.ftello self.fs
  size := fun self => some self.size
  read := fun self size =>
    let (bytes, fs) := stdio.fread self.fs size
    if stdio.ferror fs then (.error (stdio.ioError self fs), { self with fs })
    else (.ok bytes, { self with fs })
  seek := fun self position =>
    let position := min position self.size
    let (failed, fs) := stdio.fseeko self.fs position .seekSet
    if failed then (.error (stdio.ioError self fs), { self with fs })
    else (.ok position, { self with fs })

def fStreamFileSystem : FileSystem (FileFileReader φ) where
  openFile := fun path => (stdio.fopen path).map fun fs =>
    let (size, fs) := stdio.getSize fs
    { path, fs, size }

theorem fileFileReader_reportsErrors : stdio.fileFileReader.ReportsErrors where
  read := by
    intro state size info next failed
    simp only [fileFileReader] at failed
    split at failed <;> cases failed
    rfl
  seek := by
    intro state position info next failed
    simp only [fileFileReader] at failed
    split at failed <;> cases failed
    rfl

end Stdio

/-- A file of ten bytes on a disk that cannot be read.  A stream is its error indicator. -/
def brokenDisk : Stdio Bool where
  fopen := fun _ => some false
  fread := fun _ _ => ([], true)
  ferror := id
  errno := fun _ => 5
  ftello := fun _ => 10
  fseeko := fun stream _ _ => (false, stream)

end BinaryReader

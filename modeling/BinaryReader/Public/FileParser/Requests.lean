import BinaryReader.Public.FileParser
import BinaryReader.Public.FileSystem.ReadFully

/-!
# Requests

The calls that make a parser or the root object of a file, with the file system
they open files from.  The shorter overloads pass an empty path, an empty type,
default options or no collection on to these.
-/

namespace BinaryReader

structure FileParserOptions (σ : Type) where
  fileSystem : Option (FileSystem σ) := none

/-- A parser with its options, whose file system has been filled in. -/
structure ConfiguredParser (σ : Type) extends FileParser where
  fileSystem : FileSystem σ

namespace ConfiguredParser

variable {σ : Type}

def cannotOpen (path : String) : ErrorInfo :=
  .ofArguments { filePath := path } .cannotOpen [path] .error

variable (recognize : Recognizer) (defaultFileSystem : FileSystem σ) (fileReader : FileReader σ)

def createFromDefinition (definition : List UInt8) (path : String)
    (options : FileParserOptions σ) (errors : Option ErrorCollection) :
    Checked (Option (ConfiguredParser σ) × Option ErrorCollection) := do
  let (parser, errors) ← FileParser.createFromDefinition recognize definition path errors
  let fileSystem := options.fileSystem.getD defaultFileSystem
  return (parser.map fun parser => { parser with fileSystem }, errors)

/-- The fuel bounds the reads of the definition file. -/
def createFromFile (fuel : Nat) (path : String) (options : FileParserOptions σ)
    (errors : Option ErrorCollection) :
    Checked (Option (ConfiguredParser σ) × Option ErrorCollection) :=
  let fileSystem := options.fileSystem.getD defaultFileSystem
  match fileSystem.openFile path with
  | none => .ok (none, errors.map fun collection => collection.add (cannotOpen path))
  | some file => do
      let (read, buffer, _, errors) ← fileReader.readFully fuel file [] errors
      if read then
        createFromDefinition recognize defaultFileSystem buffer path { fileSystem } errors
      else
        return (none, errors)

/-- `ParseFile` on a path. `memory` is what the new buffer holds. -/
def parsePath (self : ConfiguredParser σ) (memory : Nat → UInt8) (path type : String)
    (errors : Option ErrorCollection) :
    Checked (Option (ObjectId × World σ) × Option ErrorCollection) :=
  match self.fileSystem.openFile path with
  | none => .ok (none, errors.map fun collection => collection.add (cannotOpen path))
  | some file => self.parseFile fileReader file memory path type errors

end ConfiguredParser

inductive Request (σ : Type) where
  | createFromFile (path : String) (options : FileParserOptions σ)
  | createFromDefinition (definition : List UInt8) (path : String) (options : FileParserOptions σ)
  | parsePath (parser : ConfiguredParser σ) (path type : String)
  | parseFile (parser : ConfiguredParser σ) (file : σ) (path type : String)

namespace Request

variable {σ : Type}

def Made : Request σ → Type
  | .createFromFile .. | .createFromDefinition .. => ConfiguredParser σ
  | .parsePath .. | .parseFile .. => ObjectId × World σ

def call (recognize : Recognizer) (defaultFileSystem : FileSystem σ) (fileReader : FileReader σ)
    (memory : Nat → UInt8) (fuel : Nat) : (request : Request σ) → Option ErrorCollection →
    Checked (Option request.Made × Option ErrorCollection)
  | .createFromFile path options =>
      ConfiguredParser.createFromFile recognize defaultFileSystem fileReader fuel path options
  | .createFromDefinition definition path options =>
      ConfiguredParser.createFromDefinition recognize defaultFileSystem definition path options
  | .parsePath parser path type => parser.parsePath fileReader memory path type
  | .parseFile parser file path type => parser.parseFile fileReader file memory path type

/-- The file that a request for a definition file opens. -/
def Opens (defaultFileSystem : FileSystem σ) (request : Request σ) (file : σ) : Prop :=
  ∃ path options, request = .createFromFile path options ∧
    (options.fileSystem.getD defaultFileSystem).openFile path = some file

end Request

end BinaryReader

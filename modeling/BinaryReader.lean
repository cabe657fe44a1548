import BinaryReader.Library.Scanner
import BinaryReader.Library.Unicode
import BinaryReader.Library.Unicode.Characters
import BinaryReader.Library.Machine
import BinaryReader.Library.Bytes
import BinaryReader.Library.Bits
import BinaryReader.Library.Heap
import BinaryReader.Util.Fault
import BinaryReader.Public.Size
import BinaryReader.Public.Size.Counting
import BinaryReader.Public.CloneableUniquePtr
import BinaryReader.Public.CloneableUniquePtr.Values
import BinaryReader.Public.CloneableUniquePtr.Operations
import BinaryReader.Public.Error
import BinaryReader.Library.Template
import BinaryReader.Public.Error.Messages
import BinaryReader.Public.Error.Substitution
import BinaryReader.Public.Error.Texts
import BinaryReader.Public.Codecs
import BinaryReader.Public.Codecs.Scanning
import BinaryReader.Public.Codecs.Chunking
import BinaryReader.Public.Codecs.CodePoint
import BinaryReader.Public.Codecs.WellFormed
import BinaryReader.Public.Codecs.RoundTrip
import BinaryReader.Public.Codecs.Encoding
import BinaryReader.Public.Codecs.Streaming
import BinaryReader.Public.Codecs.Positions
import BinaryReader.Public.FileSystem
import BinaryReader.Util.BufferedFileReader
import BinaryReader.Util.BufferedFileReader.Steps
import BinaryReader.Util.BufferedFileReader.Window
import BinaryReader.Util.BufferedFileReader.Refinement
import BinaryReader.Util.BufferedFileReader.Failures
import BinaryReader.Util.BufferedFileReader.Delivery
import BinaryReader.Library.Rounding
import BinaryReader.Util.Double
import BinaryReader.Util.Templates
import BinaryReader.Public.Number
import BinaryReader.Public.Number.Comparison
import BinaryReader.Public.Number.Conversions
import BinaryReader.Public.Value
import BinaryReader.Public.Options
import BinaryReader.Ast.OptionSet
import BinaryReader.Ast.OptionSet.Sequences
import BinaryReader.Ast.TypeInfo
import BinaryReader.Ast.TypeInfo.WellFormed
import BinaryReader.Ast.IntegerTypeInfo
import BinaryReader.Ast.IntegerTypeInfo.Reading
import BinaryReader.Ast.IntegerTypeInfo.Outcome
import BinaryReader.Ast.IntegerTypeInfo.Denotation
import BinaryReader.Ast.IntegerTypeInfo.Decoding
import BinaryReader.Public.FileObject
import BinaryReader.Public.FileObject.Layout
import BinaryReader.Public.FileObject.Soundness
import BinaryReader.Public.FileObject.Names
import BinaryReader.Public.FileObject.Calls
import BinaryReader.Public.FileObject.Observation
import BinaryReader.Public.FileObject.Sequential
import BinaryReader.Parser.ParseTree
import BinaryReader.Parser.Literals
import BinaryReader.Library.Numerals
import BinaryReader.Parser.Literals.Integers
import BinaryReader.Parser.Literals.Meaning
import BinaryReader.Parser.DefinitionParser
import BinaryReader.Parser.Names
import BinaryReader.Parser.Declarations
import BinaryReader.Parser.Resolution
import BinaryReader.Parser.Visiting.Options
import BinaryReader.Parser.Visiting.Types
import BinaryReader.Parser.Visiting.Walking
import BinaryReader.Parser.Visiting.OptionTypes
import BinaryReader.Parser.Malformed
import BinaryReader.Parser.Locations
import BinaryReader.Parser.Acceptance
import BinaryReader.Parser.Acceptance.Objects
import BinaryReader.Parser.Acceptance.Sizes
import BinaryReader.Parser.Meaning
import BinaryReader.Parser.Meaning.Mirrors
import BinaryReader.Parser.Meaning.Fields
import BinaryReader.Public.FileParser
import BinaryReader.Public.FileParser.Paths
import BinaryReader.Public.FileSystem.ReadFully
import BinaryReader.Public.FileSystem.Stdio
import BinaryReader.Public.FileSystem.WholeFile
import BinaryReader.Public.FileParser.Requests
import BinaryReader.Public.FileParser.Collections
import BinaryReader.Public.FileParser.Explanations
import BinaryReader.Library.Interleaving
import BinaryReader.Public.FileObject.Sharing
import BinaryReader.Public.FileParser.Sharing
import BinaryReader.Library.Json
import BinaryReader.Library.Json.Weight
import BinaryReader.Public.Json
import BinaryReader.Library.Outline
import BinaryReader.Public.Json.ObjectTree
import BinaryReader.Public.Json.Layout
import BinaryReader.Public.Json.Order
import BinaryReader.Public.Json.Tree
import BinaryReader.Library.Json.Spelling
import BinaryReader.Public.Json.Parsing
import BinaryReader.Library.Json.Document
import BinaryReader.Public.Json.Matching
import BinaryReader.Public.Json.Faithful
import BinaryReader.Library.Bytes.Writing
import BinaryReader.Parser.Meaning.Values
import BinaryReader.Parser.Meaning.RoundTrip
import BinaryReader.Public.Json.Meaning
import BinaryReader.Public.Error.Printing
import BinaryReader.Public.FileSystem.Restriction
import BinaryReader.Util.BufferedFileReader.Embedding
import BinaryReader.Public.Json.Embedding
import BinaryReader.Public.FileParser.Settling
import BinaryReader.App.Main
import BinaryReader.Util.MemoryFileSystem
import BinaryReader.App.Output
import BinaryReader.Parser.Meaning.Extending
import BinaryReader.App.Changes
import BinaryReader.Public.FileSystem.Breakdown
import BinaryReader.Util.BufferedFileReader.Breakdown
import BinaryReader.Ast.IntegerTypeInfo.Breakdown
import BinaryReader.Public.FileObject.Breakdown
import BinaryReader.Public.Json.Breakdown
import BinaryReader.Public.FileSystem.Streams
import BinaryReader.Public.FileParser.Breakdown
import BinaryReader.App.Breakdown
import BinaryReader.Public.FileObject.Effects
import BinaryReader.Public.FileParser.Ownership
import BinaryReader.Public.FileParser.TypeNames
import BinaryReader.Public.Options.Table
import BinaryReader.Public.Value.Order
import BinaryReader.Ast.TypeInfo.Equality
import BinaryReader.Public.FileParser.Shapes
import BinaryReader.App.Shapes

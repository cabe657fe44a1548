import Mathlib.Tactic.Common

/-!
# Errors

Error kinds with their message texts, the `ErrorInfo` constructors, and the
collection callers pass down.  Message arguments are `std::string_view`s, which
`FormatHelper` hands to `snprintf` as C strings: `StringView.cString` therefore
reads the memory behind the view and not the view's length.
-/

namespace BinaryReader

inductive ErrorLevel where
  | error
  | warning
  | info
  deriving DecidableEq, Repr

inductive ErrorKind where
  | unknown
  | cannotOpen
  | ioError
  | shadowingType
  | shadowingMember
  | unknownType
  | noTypes
  | optionMustBeString
  | optionMustBeStringTyped
  | unknownOptionValue
  | unknownOptionValueTyped
  | ambiguousOption
  | duplicateOption
  | optionInvalidForType
  | unknownOptionType
  | unexpectedEndOfStream
  | littleEndianAlign
  | fieldsMustBeStatic
  deriving DecidableEq, Repr

structure DebugInfo where
  filePath : String := ""
  line : Nat := 0
  column : Nat := 0
  deriving DecidableEq, Repr

/-- A view: the memory from `data()` to the end of its buffer, and `size()`. -/
structure StringView where
  memory : List Char
  size : Nat

def StringView.ofString (text : String) : StringView :=
  ⟨text.toList ++ [Char.ofNat 0], text.length⟩

def StringView.cString (view : StringView) : List Char :=
  view.memory.takeWhile (· ≠ Char.ofNat 0)

def kDefaultMessages : List (ErrorKind × String) :=
  [(.unknown, "Unknown error"),
    (.cannotOpen, "Cannot open file '%s'"),
    (.ioError, "Unknown IO error: errno=%s"),
    (.shadowingType, "Shadowing existing type '%s'"),
    (.shadowingMember, "Shadowing existing member '%s'"),
    (.unknownType, "Unknown type '%s'"),
    (.noTypes, "No types in definition file"),
    (.optionMustBeString, "Option values must be a string"),
    (.optionMustBeStringTyped, "Option values must be a string for option '%s'"),
    (.unknownOptionValue, "Unknown option value '%s'"),
    (.unknownOptionValueTyped, "Unknown option value '%s' for option '%s'"),
    (.ambiguousOption, "Ambiguous option value '%s'"),
    (.duplicateOption, "Option '%s' set multiple times"),
    (.optionInvalidForType, "Option '%s' is not valid for this type"),
    (.unknownOptionType, "Unknown option '%s'"),
    (.unexpectedEndOfStream, "Unexpected end of stream"),
    (.littleEndianAlign, "Little endian numbers must be byte aligned"),
    (.fieldsMustBeStatic, "Fields must have a static size")]

def formatCount (format : String) : Nat := format.toList.count '%'

/-- `snprintf` for formats whose only conversion is `%s`. -/
def sprintf : List Char → List (List Char) → List Char
  | '%' :: 's' :: format, argument :: arguments => argument ++ sprintf format arguments
  | symbol :: format, arguments => symbol :: sprintf format arguments
  | [], _ => []

/-- `FormatHelper<N>::Format`: collect `count` C strings, empty once the views run out. -/
def formatHelper (format : String) : Nat → List StringView → List (List Char) → String
  | 0, _, collected => .ofList (sprintf format.toList collected)
  | count + 1, [], collected => formatHelper format count [] (collected ++ [[]])
  | count + 1, view :: views, collected =>
      formatHelper format count views (collected ++ [view.cString])

def formatMessage (format : String) (arguments : List StringView) : String :=
  if formatCount format ≤ 4 then formatHelper format (formatCount format) arguments []
  else "!!INTERNAL ERROR: Cannot construct error message"

def defaultErrorMessage (kind : ErrorKind) (arguments : List StringView) : String :=
  match kDefaultMessages.find? (fun info => info.1 = kind) with
  | some info => formatMessage info.2 arguments
  | none => formatMessage "Unknown error" arguments

/-- `offset` is a `uint64_t`: a file, and a text in all its chunks, has fewer than 2 ^ 64 bytes. -/
structure ErrorInfo where
  debug : DebugInfo := {}
  message : String := ""
  kind : ErrorKind := .unknown
  level : ErrorLevel := .error
  offset : Nat := 0
  deriving DecidableEq, Repr

namespace ErrorInfo

def ofArguments (debug : DebugInfo) (kind : ErrorKind) (arguments : List String)
    (level : ErrorLevel) : ErrorInfo :=
  { debug, message := defaultErrorMessage kind (arguments.map .ofString), kind, level }

def ofKind (debug : DebugInfo) (kind : ErrorKind) (offset : Nat) : ErrorInfo :=
  { debug, message := defaultErrorMessage kind [], kind, offset }

/-- The constructor that takes the whole message. -/
def ofMessage (debug : DebugInfo) (kind : ErrorKind) (message : String) : ErrorInfo :=
  { debug, message, kind }

end ErrorInfo

/-- Every kind has a message, so the fallback of `defaultErrorMessage` is never taken. -/
theorem kDefaultMessages_complete (kind : ErrorKind) :
    (kDefaultMessages.find? (fun info => info.1 = kind)).isSome = true := by
  cases kind <;> rfl

structure ErrorCollection where
  errors : List ErrorInfo := []
  hasError : Bool := false
  deriving DecidableEq, Repr

namespace ErrorCollection

def add (collection : ErrorCollection) (info : ErrorInfo) : ErrorCollection :=
  { errors := collection.errors ++ [info]
    hasError := if info.level = .error then true else collection.hasError }

def hasErrors (collection : ErrorCollection) : Bool := collection.hasError

def clear (collection : ErrorCollection) : ErrorCollection :=
  { collection with errors := [], hasError := false }

@[simp]
theorem add_errors (collection : ErrorCollection) (info : ErrorInfo) :
    (collection.add info).errors = collection.errors ++ [info] := rfl

theorem add_hasError (collection : ErrorCollection) (info : ErrorInfo) :
    (collection.add info).hasError = (collection.hasError || decide (info.level = .error)) := by
  unfold add
  split <;> simp_all

def addAll (collection : ErrorCollection) (infos : List ErrorInfo) : ErrorCollection :=
  infos.foldl add collection

@[simp]
theorem addAll_nil (collection : ErrorCollection) : collection.addAll [] = collection := rfl

@[simp]
theorem addAll_cons (collection : ErrorCollection) (info : ErrorInfo) (infos : List ErrorInfo) :
    collection.addAll (info :: infos) = (collection.add info).addAll infos := rfl

theorem addAll_append (collection : ErrorCollection) (early late : List ErrorInfo) :
    collection.addAll (early ++ late) = (collection.addAll early).addAll late :=
  List.foldl_append

theorem addAll_errors (collection : ErrorCollection) (infos : List ErrorInfo) :
    (collection.addAll infos).errors = collection.errors ++ infos := by
  induction infos generalizing collection with
  | nil => simp
  | cons info infos inductionHypothesis => simp [inductionHypothesis]

/-- A collection has errors when it had some or an entry of level `Error` was added. -/
theorem addAll_hasError (collection : ErrorCollection) (infos : List ErrorInfo) :
    (collection.addAll infos).hasError =
      (collection.hasError || infos.any fun info => decide (info.level = .error)) := by
  induction infos generalizing collection with
  | nil => simp
  | cons info infos inductionHypothesis =>
      rw [addAll_cons, inductionHypothesis, add_hasError, List.any_cons, Bool.or_assoc]

end ErrorCollection

end BinaryReader

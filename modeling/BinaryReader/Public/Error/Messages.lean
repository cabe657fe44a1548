import BinaryReader.Library.Template
import BinaryReader.Library.Unicode.Characters
import BinaryReader.Public.Error
import BinaryReader.Util.Fault

/-!
# Message arguments in memory

`DefaultErrorMessage` on the bytes behind its views.  A view is a part of a
buffer; `FormatHelper` passes on only where it starts, and `snprintf` reads from
there up to a NUL.  The formats are the ones of `kDefaultMessages`, in bytes.
-/

namespace BinaryReader.Message

open Library Library.Unicode

/-- A `const char*`: null, or the bytes from where it points to the end of the buffer. -/
abbrev CPointer := Option (List UInt8)

/-- A `std::string_view`, which ends inside the buffer it points to. -/
structure View where
  data : CPointer
  size : Nat
  within : size ≤ (data.getD []).length

def View.characters (view : View) : List UInt8 := (view.data.getD []).take view.size

/-- The view of a string literal or a `std::string`, which have a NUL behind them. -/
def View.ofBytes (bytes : List UInt8) : View :=
  ⟨some (bytes ++ [0]), bytes.length, by simp⟩

def percentSign : UInt8 := 0x25

def letterS : UInt8 := 0x73

def template : List UInt8 → Template UInt8
  | [] => []
  | [symbol] => [.literal symbol]
  | symbol :: next :: format =>
      if symbol = percentSign ∧ next = letterS then .hole :: template format
      else .literal symbol :: template (next :: format)

/-- What `%s` reads. -/
def readCString : CPointer → Checked (List UInt8)
  | none => .error .nullPointer
  | some memory =>
      if 0 ∈ memory then .ok (memory.takeWhile (· ≠ 0)) else .error .outOfBounds

/-- Print a format; a conversion without an argument reads past the arguments. -/
def print : Template UInt8 → List CPointer → Checked (List UInt8)
  | [], _ => .ok []
  | .literal symbol :: format, arguments => do
      let behind ← print format arguments
      .ok (symbol :: behind)
  | .hole :: _, [] => .error .outOfBounds
  | .hole :: format, argument :: arguments => do
      let text ← readCString argument
      let behind ← print format arguments
      .ok (text ++ behind)

/-- The bytes `snprintf` writes in front of its NUL and the `int` it returns,
which is negative for a text whose length is no `int`. -/
def snprintf (size : Nat) (format : List UInt8) (arguments : List CPointer) :
    Checked (List UInt8 × Int) := do
  let text ← print (template format) arguments
  .ok (text.take (size - 1), if text.length < 2 ^ 31 then text.length else -1)

/-- `FormatHelper<0>::Format`, which has all arguments. -/
def formatArguments (format : List UInt8) (arguments : List CPointer) :
    Checked (List UInt8) := do
  let (_, size) ← snprintf 0 format arguments
  if size ≤ 0 then .ok []
  else
    let (written, _) ← snprintf (size.toNat + 1) format arguments
    .ok (written ++ (List.replicate size.toNat 0).drop written.length)

def formatHelper (format : List UInt8) :
    Nat → List View → List CPointer → Checked (List UInt8)
  | 0, _, arguments => formatArguments format arguments
  | count + 1, [], arguments => formatHelper format count [] (arguments ++ [some [0]])
  | count + 1, cur :: views, arguments =>
      formatHelper format count views (arguments ++ [cur.data])

/-- The loop of the `MessageInfo` constructor, which the compiler runs. -/
def formatCount (count : Nat) : List UInt8 → Checked Nat
  | [] => .ok count
  | symbol :: format =>
      if symbol = percentSign then
        if format.head? = some letterS then formatCount (count + 1) format
        else .error (.exception "Invalid format string")
      else formatCount count format

def formatMessage (format : List UInt8) (arguments : List View) : Checked (List UInt8) := do
  let count ← formatCount 0 format
  if count ≤ 4 then formatHelper format count arguments []
  else .ok (utf8Text "!!INTERNAL ERROR: Cannot construct error message".toList)

/-- The format `DefaultErrorMessage` finds in `kDefaultMessages`. -/
def formatOf (kind : ErrorKind) : String :=
  match kDefaultMessages.find? (fun info => info.1 = kind) with
  | some info => info.2
  | none => "Unknown error"

def defaultErrorMessage (kind : ErrorKind) (arguments : List View) : Checked (List UInt8) :=
  formatMessage (utf8Text (formatOf kind).toList) arguments

/-! ### Formats -/

theorem formatCount_eq_ok {count total : Nat} {format : List UInt8}
    (counted : formatCount count format = .ok total) :
    total = count + (template format).holes := by
  induction format using template.induct generalizing count with
  | case1 => simp_all [formatCount, template, Template.holes]
  | case2 symbol =>
      rw [formatCount] at counted
      split_ifs at counted <;> simp_all [formatCount, template, Template.holes]
  | case3 symbol next format conversion inductionHypothesis =>
      have noSign : letterS ≠ percentSign := by decide
      simp only [formatCount, conversion.1, conversion.2, List.head?_cons, noSign, if_true,
        if_false] at counted
      have rest := inductionHypothesis counted
      simp only [template, conversion, and_self, if_true, Template.holes]
      omega
  | case4 symbol next format literal inductionHypothesis =>
      rw [formatCount] at counted
      have rest : formatCount count (next :: format) = .ok total := by
        split_ifs at counted with sign conversion
        · exact absurd ⟨sign, by simpa using conversion⟩ literal
        · exact counted
      simpa only [template, literal, if_false, Template.holes] using inductionHypothesis rest

structure Proper (format : List UInt8) : Prop where
  accepted : (formatCount 0 format).isOk = true
  few : (template format).holes ≤ 4
  nonempty : 0 < (template format).literals
  terminated : .literal 0 ∉ template format

theorem Proper.formatCount_eq {format : List UInt8} (proper : Proper format) :
    formatCount 0 format = .ok (template format).holes := by
  rcases counted : formatCount 0 format with fault | total
  · simpa [counted, Except.isOk, Except.toBool] using proper.accepted
  · simpa using formatCount_eq_ok counted

theorem formatOf_proper (kind : ErrorKind) : Proper (utf8Text (formatOf kind).toList) := by
  cases kind <;> exact ⟨by decide, by decide, by decide, by decide⟩

end BinaryReader.Message

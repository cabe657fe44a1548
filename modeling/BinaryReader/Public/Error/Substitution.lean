import BinaryReader.Public.Error.Messages
import Mathlib.Data.List.TakeWhile

/-!
# Substituted arguments

What the message of a kind is meant to be, and for which views it is that: the
ones whose C string is the whole view.
-/

namespace BinaryReader.Message

open Library Library.Unicode

def View.Terminated (view : View) : Prop :=
  0 ∉ view.characters ∧ ∃ memory, view.data = some memory ∧ memory[view.size]? = some 0

def formatTemplate (kind : ErrorKind) : Template UInt8 :=
  template (utf8Text (formatOf kind).toList)

/-- The number of `%s` in the message of a kind. -/
def placeholders (kind : ErrorKind) : Nat := (formatTemplate kind).holes

def substituted (kind : ErrorKind) (arguments : List View) : List UInt8 :=
  (formatTemplate kind).fill (arguments.map View.characters)

def messageLength (kind : ErrorKind) (arguments : List View) : Nat :=
  (formatTemplate kind).literals + ((arguments.take (placeholders kind)).map View.size).sum

/-- What `FormatHelper<0>` makes of a text when `snprintf` returns its length as an `int`. -/
def measurable (text : List UInt8) : List UInt8 := if text.length < 2 ^ 31 then text else []

/-! ### C strings -/

@[simp]
theorem View.length_characters (view : View) : view.characters.length = view.size := by
  simp [View.characters, view.within]

theorem View.characters_ofBytes (bytes : List UInt8) :
    (View.ofBytes bytes).characters = bytes := by
  simp [View.ofBytes, View.characters]

theorem readCString_eq_ok_iff {pointer : CPointer} {text : List UInt8} :
    readCString pointer = .ok text ↔
      ∃ memory, pointer = some memory ∧ 0 ∈ memory ∧ memory.takeWhile (· ≠ 0) = text := by
  cases pointer with
  | none => simp [readCString]
  | some memory =>
      rw [readCString]
      split_ifs with found <;> simp [found]

theorem zero_notMem_of_readCString {pointer : CPointer} {text : List UInt8}
    (read : readCString pointer = .ok text) : 0 ∉ text := by
  obtain ⟨memory, -, -, rfl⟩ := readCString_eq_ok_iff.mp read
  intro member
  simpa using List.mem_takeWhile_imp member

/-- The bytes in front of the first NUL are the first `size` bytes when there is
no NUL among these and one behind them. -/
theorem takeWhile_eq_take_iff {memory : List UInt8} {size : Nat} (within : size ≤ memory.length) :
    (0 ∈ memory ∧ memory.takeWhile (· ≠ 0) = memory.take size) ↔
      0 ∉ memory.take size ∧ memory[size]? = some 0 := by
  induction memory generalizing size with
  | nil => simp
  | cons byte memory inductionHypothesis =>
      cases size with
      | zero => by_cases zero : byte = 0 <;> simp [zero]
      | succ size =>
          have shorter : size ≤ memory.length := Nat.le_of_succ_le_succ within
          by_cases zero : byte = 0
          · simp [zero]
          · simpa [zero, Ne.symm zero] using inductionHypothesis shorter

theorem View.terminated_iff (view : View) :
    view.Terminated ↔ readCString view.data = .ok view.characters := by
  rw [View.Terminated, readCString_eq_ok_iff, View.characters]
  have within := view.within
  cases pointer : view.data with
  | none => simp
  | some memory =>
      rw [pointer] at within
      simpa using (takeWhile_eq_take_iff within).symm

theorem View.terminated_ofBytes {bytes : List UInt8} (plain : 0 ∉ bytes) :
    (View.ofBytes bytes).Terminated := by
  refine ⟨by rwa [View.characters_ofBytes], bytes ++ [0], rfl, ?_⟩
  simp [View.ofBytes]

theorem View.characters_prefix {view : View} {text : List UInt8}
    (read : readCString view.data = .ok text) (plain : 0 ∉ view.characters) :
    view.characters <+: text := by
  obtain ⟨memory, pointer, -, rfl⟩ := readCString_eq_ok_iff.mp read
  have characters : view.characters = memory.take view.size := by simp [View.characters, pointer]
  rw [characters] at plain ⊢
  have whole : ∀ byte ∈ memory.take view.size, decide (byte ≠ 0) = true := by
    intro byte member
    simpa using ne_of_mem_of_not_mem member plain
  calc memory.take view.size
      <+: memory.take view.size ++ (memory.drop view.size).takeWhile (· ≠ 0) :=
        List.prefix_append _ _
    _ = memory.takeWhile (· ≠ 0) := by
        rw [← List.takeWhile_append_of_pos whole, List.take_append_drop]

/-! ### The arguments of `snprintf` -/

/-- The first `count` views, with the literal `""` behind the last one. -/
def padded : Nat → List View → List View
  | 0, _ => []
  | count + 1, [] => .ofBytes [] :: padded count []
  | count + 1, view :: views => view :: padded count views

theorem padded_eq (count : Nat) (views : List View) :
    padded count views =
      views.take count ++ List.replicate (count - views.length) (View.ofBytes []) := by
  induction count generalizing views with
  | zero => simp [padded]
  | succ count inductionHypothesis =>
      cases views <;> simp [padded, inductionHypothesis, List.replicate_succ]

@[simp]
theorem length_padded (count : Nat) (views : List View) : (padded count views).length = count := by
  rw [padded_eq, List.length_append, List.length_take, List.length_replicate]
  omega

theorem forall_mem_padded_iff {property : View → Prop} (empty : property (.ofBytes []))
    {count : Nat} {views : List View} :
    (∀ view ∈ padded count views, property view) ↔ ∀ view ∈ views.take count, property view := by
  rw [padded_eq]
  constructor
  · intro every view member
    exact every view (List.mem_append_left _ member)
  · intro every view member
    rcases List.mem_append.mp member with taken | added
    · exact every view taken
    · rwa [List.eq_of_mem_replicate added]

theorem fill_padded (format : Template UInt8) (views : List View) {read : View → List UInt8}
    (empty : read (.ofBytes []) = []) :
    format.fill ((padded format.holes views).map read) = format.fill (views.map read) := by
  rw [padded_eq, List.map_append, List.map_replicate, empty,
    Template.fill_append_replicate, List.map_take, Template.fill_take]

theorem formatHelper_eq (format : List UInt8) (count : Nat) (views : List View)
    (arguments : List CPointer) :
    formatHelper format count views arguments =
      formatArguments format (arguments ++ (padded count views).map View.data) := by
  induction count generalizing views arguments with
  | zero => simp [padded, formatHelper]
  | succ count inductionHypothesis =>
      cases views with
      | nil =>
          rw [formatHelper, inductionHypothesis]
          simp [padded, View.ofBytes]
      | cons view views =>
          rw [formatHelper, inductionHypothesis]
          simp [padded]

def Reads (pointers : List CPointer) (texts : List (List UInt8)) : Prop :=
  List.Forall₂ (fun pointer text => readCString pointer = .ok text) pointers texts

theorem print_eq_ok_iff {format : Template UInt8} {pointers : List CPointer} {text : List UInt8}
    (enough : pointers.length = Template.holes format) :
    print format pointers = .ok text ↔
      ∃ texts, Reads pointers texts ∧ text = format.fill texts := by
  induction format generalizing pointers text with
  | nil =>
      have none : pointers = [] := List.length_eq_zero_iff.mp enough
      simp [none, print, Template.fill, Reads, eq_comm]
  | cons piece format inductionHypothesis =>
      cases piece with
      | literal symbol =>
          have rest := fun text => @inductionHypothesis pointers text enough
          simp only [print, Checked.bind_eq_ok_iff, rest, Template.fill, Except.ok.injEq]
          constructor
          · rintro ⟨_, ⟨texts, read, rfl⟩, rfl⟩
            exact ⟨texts, read, rfl⟩
          · rintro ⟨texts, read, rfl⟩
            exact ⟨_, ⟨texts, read, rfl⟩, rfl⟩
      | hole =>
          cases pointers with
          | nil => simp [Template.holes] at enough
          | cons pointer pointers =>
              have fewer : pointers.length = Template.holes format := by
                simpa [Template.holes] using enough
              have rest := fun text => @inductionHypothesis pointers text fewer
              simp only [print, Checked.bind_eq_ok_iff, rest, Template.fill, Except.ok.injEq]
              constructor
              · rintro ⟨first, readFirst, _, ⟨texts, read, rfl⟩, rfl⟩
                exact ⟨first :: texts, .cons readFirst read, rfl⟩
              · rintro ⟨_, read, rfl⟩
                cases read with
                | cons readFirst read => exact ⟨_, readFirst, _, ⟨_, read, rfl⟩, rfl⟩

/-- The second call has room for all of what the first one measured. -/
theorem formatArguments_eq (format : List UInt8) (arguments : List CPointer) :
    formatArguments format arguments = (print (template format) arguments).map measurable := by
  rcases printed : print (template format) arguments with fault | text
  · simp only [formatArguments, snprintf, printed, Checked.error_bind, Except.map]
  · simp only [formatArguments, snprintf, printed, Checked.ok_bind, Except.map, measurable]
    split_ifs with fits empty empty
    · have none : text = [] := List.length_eq_zero_iff.mp (by omega)
      rw [none]
    · simp
    · rfl
    · exact absurd (by decide) empty

theorem defaultErrorMessage_eq (kind : ErrorKind) (views : List View) :
    defaultErrorMessage kind views =
      (print (formatTemplate kind) ((padded (placeholders kind) views).map View.data)).map
        measurable := by
  have proper := formatOf_proper kind
  rw [defaultErrorMessage, formatMessage, proper.formatCount_eq, Checked.ok_bind,
    if_pos proper.few, formatHelper_eq, List.nil_append, formatArguments_eq]
  rfl

/-- The message is the template filled with what the pointers of the views read. -/
theorem defaultErrorMessage_eq_ok_iff {kind : ErrorKind} {views : List View}
    {message : List UInt8} :
    defaultErrorMessage kind views = .ok message ↔
      ∃ texts, Reads ((padded (placeholders kind) views).map View.data) texts ∧
        message = measurable ((formatTemplate kind).fill texts) := by
  have enough : ((padded (placeholders kind) views).map View.data).length =
      (formatTemplate kind).holes := by simp [placeholders]
  rw [defaultErrorMessage_eq]
  constructor
  · intro returned
    rcases printed : print (formatTemplate kind)
      ((padded (placeholders kind) views).map View.data) with fault | text
    · rw [printed] at returned
      cases returned
    · rw [printed] at returned
      obtain ⟨texts, read, rfl⟩ := (print_eq_ok_iff enough).mp printed
      exact ⟨texts, read, (Except.ok.inj returned).symm⟩
  · rintro ⟨texts, read, rfl⟩
    rw [(print_eq_ok_iff enough).mpr ⟨texts, read, rfl⟩]
    rfl

/-! ### What the message is -/

theorem reads_characters_iff (views : List View) :
    Reads (views.map View.data) (views.map View.characters) ↔
      ∀ view ∈ views, view.Terminated := by
  rw [Reads, List.forall₂_map_left_iff, List.forall₂_map_right_iff, List.forall₂_same]
  exact forall₂_congr fun view _ => view.terminated_iff.symm

theorem terminated_padded_iff (kind : ErrorKind) (views : List View) :
    (∀ view ∈ padded (placeholders kind) views, view.Terminated) ↔
      ∀ view ∈ views.take (placeholders kind), view.Terminated :=
  forall_mem_padded_iff (View.terminated_ofBytes List.not_mem_nil)

theorem substituted_eq (kind : ErrorKind) (views : List View) :
    substituted kind views =
      (formatTemplate kind).fill ((padded (placeholders kind) views).map View.characters) :=
  (fill_padded (formatTemplate kind) views (View.characters_ofBytes [])).symm

theorem length_substituted (kind : ErrorKind) (views : List View) :
    (substituted kind views).length = messageLength kind views := by
  rw [substituted, Template.length_fill, messageLength, ← List.map_take, List.length_flatten,
    List.map_map]
  congr 2
  exact List.map_congr_left fun view _ => view.length_characters

theorem substituted_ne_nil (kind : ErrorKind) (views : List View) :
    substituted kind views ≠ [] := by
  intro empty
  have positive : 0 < (formatTemplate kind).literals := (formatOf_proper kind).nonempty
  have length := length_substituted kind views
  rw [empty, messageLength, List.length_nil] at length
  omega

theorem Reads.plain {pointers : List CPointer} {texts : List (List UInt8)}
    (read : Reads pointers texts) : ∀ text ∈ texts, 0 ∉ text := by
  induction read with
  | nil => exact List.forall_mem_nil _
  | cons first _ inductionHypothesis =>
      exact List.forall_mem_cons.mpr ⟨zero_notMem_of_readCString first, inductionHypothesis⟩

theorem Reads.prefixes {views : List View} {texts : List (List UInt8)}
    (read : Reads (views.map View.data) texts) (plain : ∀ view ∈ views, 0 ∉ view.characters) :
    List.Forall₂ (· <+: ·) (views.map View.characters) texts := by
  rw [Reads, List.forall₂_map_left_iff] at read
  rw [List.forall₂_map_left_iff]
  refine List.Forall₂.imp ?_ ((List.forall₂_and_left _ _).mpr ⟨plain, read⟩)
  rintro view text ⟨noZero, readText⟩
  exact View.characters_prefix readText noZero

/-- C strings that fill the template as the characters of the views do are
these characters: there is no NUL in a message, so no view is longer than its
C string, and the lengths add up. -/
theorem terminated_of_fill_eq {kind : ErrorKind} {views : List View} {texts : List (List UInt8)}
    (read : Reads ((padded (placeholders kind) views).map View.data) texts)
    (same : substituted kind views = (formatTemplate kind).fill texts) :
    ∀ view ∈ padded (placeholders kind) views, view.Terminated := by
  have noZero : 0 ∉ substituted kind views := by
    rw [same, Template.mem_fill]
    rintro (literal | ⟨text, member, zero⟩)
    · exact (formatOf_proper kind).terminated literal
    · exact read.plain text (List.mem_of_mem_take member) zero
  have used : ((padded (placeholders kind) views).map View.characters).length =
      (formatTemplate kind).holes := by simp [placeholders]
  rw [substituted_eq] at same noZero
  have plain : ∀ view ∈ padded (placeholders kind) views, 0 ∉ view.characters := by
    intro view member zero
    apply noZero
    rw [Template.mem_fill, List.take_of_length_le (Nat.le_of_eq used)]
    exact .inr ⟨view.characters, List.mem_map_of_mem member, zero⟩
  have whole := Template.fill_prefix_injective (read.prefixes plain) (Nat.le_of_eq used) same
  rw [← whole] at read
  exact (reads_characters_iff _).mp read

theorem defaultErrorMessage_eq_substituted_iff (kind : ErrorKind) (views : List View) :
    defaultErrorMessage kind views = .ok (substituted kind views) ↔
      (∀ view ∈ views.take (placeholders kind), view.Terminated) ∧
        messageLength kind views < 2 ^ 31 := by
  rw [defaultErrorMessage_eq_ok_iff, ← terminated_padded_iff, ← length_substituted]
  constructor
  · rintro ⟨texts, read, same⟩
    by_cases fits : ((formatTemplate kind).fill texts).length < 2 ^ 31
    · rw [measurable, if_pos fits] at same
      exact ⟨terminated_of_fill_eq read same, same ▸ fits⟩
    · rw [measurable, if_neg fits] at same
      exact absurd same (substituted_ne_nil kind views)
  · rintro ⟨terminated, fits⟩
    refine ⟨_, (reads_characters_iff _).mpr terminated, ?_⟩
    rw [← substituted_eq, measurable, if_pos fits]

/-- A view of the first two characters of a longer text puts all three into the message. -/
theorem defaultErrorMessage_ne_substituted :
    defaultErrorMessage .cannotOpen [⟨some [97, 98, 99, 0], 2, by decide⟩] ≠
      .ok (substituted .cannotOpen [⟨some [97, 98, 99, 0], 2, by decide⟩]) := by
  decide

end BinaryReader.Message

import BinaryReader.Public.Error.Substitution

/-!
# Messages of texts

The callers pass on whole strings.  For these the message in bytes is the
encoding of the message in characters.
-/

namespace BinaryReader.Message

open Library Library.Unicode

def charTemplate : List Char → Template Char
  | '%' :: 's' :: format => .hole :: charTemplate format
  | symbol :: format => .literal symbol :: charTemplate format
  | [] => []

def View.ofString (text : String) : View := .ofBytes (utf8Text text.toList)

/-! ### Messages in characters -/

theorem sprintf_eq_fill {format : List Char} {arguments : List (List Char)}
    (enough : arguments.length = (charTemplate format).holes) :
    sprintf format arguments = (charTemplate format).fill arguments := by
  induction format using charTemplate.induct generalizing arguments with
  | case1 format inductionHypothesis =>
      cases arguments with
      | nil => simp [charTemplate, Template.holes] at enough
      | cons argument arguments =>
          have fewer : arguments.length = (charTemplate format).holes := by
            simpa [charTemplate, Template.holes] using enough
          simp [sprintf, charTemplate, Template.fill, inductionHypothesis fewer]
  | case2 symbol format noConversion inductionHypothesis =>
      rw [charTemplate] at enough ⊢
      · rw [sprintf, Template.fill, inductionHypothesis enough]
        intro behind _ _ _ sign letter
        exact noConversion behind sign letter
      all_goals exact noConversion
  | case3 => simp [sprintf, charTemplate, Template.fill]

/-- The C strings of the first `count` views, with empty ones behind the last. -/
def cStrings (count : Nat) (views : List StringView) : List (List Char) :=
  (views.map StringView.cString).take count ++ List.replicate (count - views.length) []

theorem formatHelper_toList (format : String) (count : Nat) (views : List StringView)
    (collected : List (List Char)) :
    (BinaryReader.formatHelper format count views collected).toList =
      sprintf format.toList (collected ++ cStrings count views) := by
  induction count generalizing views collected with
  | zero => simp [BinaryReader.formatHelper, cStrings]
  | succ count inductionHypothesis =>
      cases views <;>
        simp [BinaryReader.formatHelper, inductionHypothesis, cStrings, List.replicate_succ]

theorem formatCount_formatOf (kind : ErrorKind) :
    BinaryReader.formatCount (formatOf kind) = (charTemplate (formatOf kind).toList).holes ∧
      BinaryReader.formatCount (formatOf kind) ≤ 4 := by
  cases kind <;> decide +kernel

theorem defaultErrorMessage_eq_formatMessage (kind : ErrorKind) (views : List StringView) :
    BinaryReader.defaultErrorMessage kind views =
      BinaryReader.formatMessage (formatOf kind) views := by
  rcases found : kDefaultMessages.find? (fun info => info.1 = kind) with _ | info <;>
    simp [BinaryReader.defaultErrorMessage, formatOf, found]

theorem defaultErrorMessage_toList (kind : ErrorKind) (views : List StringView) :
    (BinaryReader.defaultErrorMessage kind views).toList =
      (charTemplate (formatOf kind).toList).fill (views.map StringView.cString) := by
  obtain ⟨count, few⟩ := formatCount_formatOf kind
  have enough : (cStrings (BinaryReader.formatCount (formatOf kind)) views).length =
      (charTemplate (formatOf kind).toList).holes := by
    rw [← count]
    simp only [cStrings, List.length_append, List.length_take, List.length_map,
      List.length_replicate]
    omega
  rw [defaultErrorMessage_eq_formatMessage, BinaryReader.formatMessage, if_pos few,
    formatHelper_toList, List.nil_append, sprintf_eq_fill enough, cStrings,
    Template.fill_append_replicate, count, Template.fill_take]

/-! ### Their encoding -/

theorem takeWhile_utf8Text (text : List Char) :
    (utf8Text text).takeWhile (· ≠ 0) = utf8Text (text.takeWhile (· ≠ Char.ofNat 0)) := by
  induction text with
  | nil => rfl
  | cons char text inductionHypothesis =>
      by_cases nul : char = Char.ofNat 0
      · simp [nul, utf8, shortestExtra, form, leadBase, trailing]
      · have kept : ∀ byte ∈ utf8 char.toNat, decide (byte ≠ 0) = true := by
          intro byte member
          apply decide_eq_true
          rintro rfl
          exact nul (char_of_mem_utf8 (by decide) member)
        rw [utf8Text_cons, List.takeWhile_append_of_pos kept, inductionHypothesis,
          List.takeWhile_cons_of_pos (by simpa using nul), utf8Text_cons]

theorem template_cons (symbol : UInt8) (format : List UInt8) :
    template (symbol :: format) =
      if symbol = percentSign ∧ format.head? = some letterS then .hole :: template format.tail
      else .literal symbol :: template format := by
  cases format with
  | nil => simp [template]
  | cons next format => simp [template]

theorem template_append {bytes : List UInt8} (plain : percentSign ∉ bytes)
    (format : List UInt8) :
    template (bytes ++ format) = bytes.map .literal ++ template format := by
  induction bytes with
  | nil => rfl
  | cons byte bytes inductionHypothesis =>
      obtain ⟨different, rest⟩ := not_or.mp (mt List.mem_cons.mpr plain)
      rw [List.cons_append, template_cons, if_neg (fun conversion => different conversion.1.symm),
        inductionHypothesis rest]
      rfl

theorem head?_utf8Text {text : List Char} (found : (utf8Text text).head? = some letterS) :
    ∃ behind, text = 's' :: behind := by
  cases text with
  | nil => cases found
  | cons char text =>
      have member : letterS ∈ utf8 char.toNat := by
        simp only [utf8Text_cons, utf8, form, List.cons_append, List.head?_cons,
          Option.some.injEq] at found
        simp [utf8, form, found]
      exact ⟨text, congrArg (· :: text) (char_of_mem_utf8 (by decide) member)⟩

/-- The template of an encoded format is the encoded template. -/
theorem template_utf8Text (format : List Char) :
    template (utf8Text format) =
      (charTemplate format).encode fun symbol => utf8 symbol.toNat := by
  induction format using charTemplate.induct with
  | case1 format inductionHypothesis =>
      have bytes :
          utf8Text ('%' :: 's' :: format) = percentSign :: letterS :: utf8Text format := rfl
      rw [bytes, template_cons, if_pos ⟨rfl, rfl⟩, List.tail_cons, inductionHypothesis,
        charTemplate, Template.encode]
  | case2 symbol format noConversion inductionHypothesis =>
      rw [charTemplate, Template.encode, ← inductionHypothesis, utf8Text_cons]
      · by_cases sign : symbol = '%'
        · have bytes : utf8 symbol.toNat = [percentSign] := by rw [sign]; rfl
          have noLetter : ¬ (utf8Text format).head? = some letterS := fun found =>
            (head?_utf8Text found).elim fun behind same => noConversion behind sign same
          rw [bytes, List.singleton_append, template_cons,
            if_neg (fun conversion => noLetter conversion.2)]
          rfl
        · exact template_append (fun member => sign (char_of_mem_utf8 (by decide) member)) _
      · exact noConversion
  | case3 => rfl

def View.cString (view : View) : List UInt8 := (view.data.getD []).takeWhile (· ≠ 0)

theorem readCString_ofBytes (bytes : List UInt8) :
    readCString (View.ofBytes bytes).data = .ok (View.ofBytes bytes).cString :=
  readCString_eq_ok_iff.mpr ⟨bytes ++ [0], rfl, by simp, rfl⟩

theorem cString_ofString (text : String) :
    (View.ofString text).cString = utf8Text (StringView.ofString text).cString := by
  have same := takeWhile_utf8Text (text.toList ++ [Char.ofNat 0])
  rw [utf8Text_append] at same
  exact same

/-- The message of texts is the encoding of the message in characters, as long
as its length is an `int`. -/
theorem defaultErrorMessage_ofString (kind : ErrorKind) (texts : List String) :
    defaultErrorMessage kind (texts.map View.ofString) =
      .ok (measurable (utf8Text
        (BinaryReader.defaultErrorMessage kind (texts.map StringView.ofString)).toList)) := by
  have read : Reads ((padded (placeholders kind) (texts.map View.ofString)).map View.data)
      ((padded (placeholders kind) (texts.map View.ofString)).map View.cString) := by
    rw [Reads, List.forall₂_map_left_iff, List.forall₂_map_right_iff, List.forall₂_same,
      forall_mem_padded_iff (readCString_ofBytes [])]
    intro view member
    obtain ⟨text, -, rfl⟩ := List.mem_map.mp (List.mem_of_mem_take member)
    exact readCString_ofBytes _
  refine defaultErrorMessage_eq_ok_iff.mpr ⟨_, read, congrArg measurable ?_⟩
  have strings : (texts.map View.ofString).map View.cString =
      ((texts.map StringView.ofString).map StringView.cString).map utf8Text := by
    simp [cString_ofString]
  calc utf8Text (BinaryReader.defaultErrorMessage kind (texts.map StringView.ofString)).toList
      = (formatTemplate kind).fill
          (((texts.map StringView.ofString).map StringView.cString).map utf8Text) := by
        rw [defaultErrorMessage_toList, utf8Text, Template.flatMap_fill, ← template_utf8Text]
        rfl
    _ = (formatTemplate kind).fill
          ((padded (placeholders kind) (texts.map View.ofString)).map View.cString) := by
        rw [← strings]
        exact (fill_padded (formatTemplate kind) (texts.map View.ofString) rfl).symm

end BinaryReader.Message

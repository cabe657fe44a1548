import BinaryReader.Library.Scanner
import Mathlib.Data.List.Induction
import Mathlib.Tactic.IntervalCases
import Mathlib.Tactic.Ring

/-!
# UTF-8 and UTF-16

A `Sequence` is a lead byte followed by as many continuation bytes as it
announces; it has a value whether or not it is the shortest form of that value.
`sequenceScanner` cuts a byte string into such sequences, and `utf8` and
`utf16` are the standard encodings of one code point.
-/

namespace Library.Unicode

/-- The number of bytes in the sequence a lead byte starts, or zero. -/
def sequenceLength (lead : UInt8) : Nat :=
  if lead.toNat < 0x80 then 1
  else if lead.toNat < 0xc0 then 0
  else if lead.toNat < 0xe0 then 2
  else if lead.toNat < 0xf0 then 3
  else if lead.toNat < 0xf8 then 4
  else 0

def IsContinuation (byte : UInt8) : Prop := 0x80 ≤ byte.toNat ∧ byte.toNat < 0xc0

instance (byte : UInt8) : Decidable (IsContinuation byte) :=
  inferInstanceAs (Decidable (_ ∧ _))

def Continued (tail : List UInt8) : Prop := ∀ byte ∈ tail, IsContinuation byte

instance (tail : List UInt8) : Decidable (Continued tail) :=
  List.decidableBAll IsContinuation tail

@[simp]
theorem continued_nil : Continued [] := List.forall_mem_nil _

@[simp]
theorem continued_cons (byte : UInt8) (tail : List UInt8) :
    Continued (byte :: tail) ↔ IsContinuation byte ∧ Continued tail := List.forall_mem_cons

/-- The marker bits of a lead byte with `extra` bytes behind it. -/
def leadBase : Nat → Nat
  | 0 => 0
  | 1 => 0xc0
  | 2 => 0xe0
  | _ => 0xf0

def leadCapacity : Nat → Nat
  | 0 => 0x80
  | 1 => 0x20
  | 2 => 0x10
  | _ => 0x08

theorem sequenceLength_eq_iff (lead : UInt8) (extra : Nat) (small : extra ≤ 3) :
    sequenceLength lead = extra + 1 ↔
      leadBase extra ≤ lead.toNat ∧ lead.toNat < leadBase extra + leadCapacity extra := by
  interval_cases extra <;> grind [sequenceLength, leadBase, leadCapacity]

theorem sequenceLength_le (lead : UInt8) : sequenceLength lead ≤ 4 := by
  unfold sequenceLength
  split_ifs <;> omega

def extend (value : Nat) (byte : UInt8) : Nat := value * 64 + byte.toNat % 64

/-- The low `6 * count` bits of a value as continuation bytes. -/
def trailing : Nat → Nat → List UInt8
  | 0, _ => []
  | count + 1, value => trailing count (value / 64) ++ [.ofNat (0x80 + value % 64)]

theorem continuation_toNat (value : Nat) :
    (UInt8.ofNat (0x80 + value % 64)).toNat = 0x80 + value % 64 := by
  rw [UInt8.toNat_ofNat']
  omega

@[simp]
theorem length_trailing (count value : Nat) : (trailing count value).length = count := by
  induction count generalizing value with
  | zero => rfl
  | succ count inductionHypothesis => simp [trailing, inductionHypothesis]

theorem isContinuation_of_mem_trailing {count value : Nat} {byte : UInt8}
    (membership : byte ∈ trailing count value) : IsContinuation byte := by
  induction count generalizing value with
  | zero => simp [trailing] at membership
  | succ count inductionHypothesis =>
      rcases List.mem_append.mp membership with early | last
      · exact inductionHypothesis early
      · rw [List.mem_singleton.mp last, IsContinuation, continuation_toNat]
        omega

theorem foldl_trailing (count value start : Nat) :
    (trailing count value).foldl extend start = start * 64 ^ count + value % 64 ^ count := by
  induction count generalizing value with
  | zero => rw [trailing, List.foldl_nil, Nat.pow_zero, Nat.mul_one, Nat.mod_one, Nat.add_zero]
  | succ count inductionHypothesis =>
      have split : value % (64 * 64 ^ count) = value % 64 + 64 * (value / 64 % 64 ^ count) :=
        Nat.mod_mul
      rw [trailing, List.foldl_append, inductionHypothesis, List.foldl_cons, List.foldl_nil,
        extend, continuation_toNat, Nat.pow_succ', split]
      generalize value / 64 % 64 ^ count = high
      generalize 64 ^ count = weight
      rw [Nat.add_mul, Nat.mul_assoc, Nat.mul_comm weight 64]
      omega

def form (extra value : Nat) : List UInt8 :=
  .ofNat (leadBase extra + value / 64 ^ extra) :: trailing extra value

def capacity (extra : Nat) : Nat := leadCapacity extra * 64 ^ extra

/-- A lead byte followed by exactly the continuation bytes it announces. -/
structure Sequence where
  lead : UInt8
  tail : List UInt8
  complete : sequenceLength lead = tail.length + 1
  continued : Continued tail

namespace Sequence

instance : Inhabited Sequence := ⟨⟨0, [], rfl, by simp⟩⟩

def bytes (sequence : Sequence) : List UInt8 := sequence.lead :: sequence.tail

def value (sequence : Sequence) : Nat :=
  sequence.tail.foldl extend (sequence.lead.toNat - leadBase sequence.tail.length)

@[simp]
theorem length_bytes (sequence : Sequence) :
    sequence.bytes.length = sequence.tail.length + 1 := rfl

theorem exists_form (extra value : Nat) (small : extra ≤ 3) (bound : value < capacity extra) :
    ∃ sequence : Sequence, sequence.bytes = form extra value ∧ sequence.value = value := by
  have payload : value / 64 ^ extra < leadCapacity extra :=
    (Nat.div_lt_iff_lt_mul (by positivity)).mpr bound
  have fits : leadBase extra + leadCapacity extra ≤ 0x100 := by
    interval_cases extra <;> decide
  obtain ⟨lead, leadEq⟩ : ∃ lead, lead = UInt8.ofNat (leadBase extra + value / 64 ^ extra) :=
    ⟨_, rfl⟩
  have leadValue : lead.toNat = leadBase extra + value / 64 ^ extra := by
    rw [leadEq, UInt8.toNat_ofNat', Nat.mod_eq_of_lt (by omega)]
  have complete : sequenceLength lead = extra + 1 :=
    (sequenceLength_eq_iff lead extra small).mpr
      (by rw [leadValue]; exact ⟨Nat.le_add_right _ _, Nat.add_lt_add_left payload _⟩)
  refine ⟨⟨lead, trailing extra value, by rw [complete, length_trailing],
    fun _ => isContinuation_of_mem_trailing⟩, by rw [form, ← leadEq, bytes], ?_⟩
  simp only [Sequence.value, length_trailing, foldl_trailing, leadValue, Nat.add_sub_cancel_left]
  exact Nat.div_add_mod' value (64 ^ extra)

end Sequence

def scanTail (lead : UInt8) (tail : List UInt8) : Scan Sequence Nat :=
  if valid : sequenceLength lead = tail.length + 1 ∧ Continued tail then
    .item ⟨lead, tail, valid.1, valid.2⟩ (tail.length + 1)
  else
    .failed (tail.findIdx (fun byte => !decide (IsContinuation byte)) + 1)

/-- Find the sequence in front of a byte string.  A failure is the index of the
byte that cannot stand where it does. -/
def scanSequence : List UInt8 → Scan Sequence Nat
  | [] => .incomplete
  | lead :: rest =>
      if sequenceLength lead = 0 then .failed 0
      else if rest.length + 1 < sequenceLength lead then .incomplete
      else scanTail lead (rest.take (sequenceLength lead - 1))

theorem scanTail_ne_incomplete (lead : UInt8) (tail : List UInt8) :
    scanTail lead tail ≠ .incomplete := by
  unfold scanTail
  split <;> simp

theorem scanSequence_cons (lead : UInt8) (rest : List UInt8) :
    scanSequence (lead :: rest) =
      if sequenceLength lead = 0 then .failed 0
      else if rest.length + 1 < sequenceLength lead then .incomplete
      else scanTail lead (rest.take (sequenceLength lead - 1)) := rfl

theorem scanSequence_incomplete {lead : UInt8} {rest : List UInt8}
    (scanned : scanSequence (lead :: rest) = .incomplete) :
    (lead :: rest).length < sequenceLength lead := by
  rw [scanSequence] at scanned
  split_ifs at scanned with zero short
  · exact short
  · exact absurd scanned (scanTail_ne_incomplete _ _)

theorem scanSequence_eq_item_iff {input : List UInt8} {sequence : Sequence} {size : Nat} :
    scanSequence input = .item sequence size ↔
      size = sequence.bytes.length ∧ sequence.bytes <+: input := by
  constructor
  · intro found
    cases input with
    | nil => simp [scanSequence] at found
    | cons lead rest =>
        simp only [scanSequence, scanTail] at found
        split_ifs at found with zero long valid
        cases found
        exact ⟨rfl, (List.prefix_cons_inj lead).mpr (List.take_prefix _ _)⟩
  · rintro ⟨rfl, more, rfl⟩
    have size := sequence.complete
    have tail : (sequence.tail ++ more).take (sequenceLength sequence.lead - 1) =
        sequence.tail := by
      rw [size]
      simp
    simp only [Sequence.bytes, List.cons_append, scanSequence, List.length_append, tail]
    rw [if_neg (by omega), if_neg (by omega), scanTail, dif_pos ⟨size, sequence.continued⟩]
    rfl

theorem scanSequence_failed {lead : UInt8} {rest : List UInt8} {failure : Nat}
    (scanned : scanSequence (lead :: rest) = .failed failure) :
    sequenceLength lead = 0 ∧ failure = 0 ∨
      0 < failure ∧ failure < sequenceLength lead ∧ sequenceLength lead ≤ rest.length + 1 ∧
        (∀ between, 0 < between → between < failure →
          ∃ byte, (lead :: rest)[between]? = some byte ∧ IsContinuation byte) ∧
        ∃ byte, (lead :: rest)[failure]? = some byte ∧ ¬ IsContinuation byte := by
  rw [scanSequence_cons] at scanned
  split_ifs at scanned with zero short
  · cases scanned
    exact Or.inl ⟨zero, rfl⟩
  · have size : (rest.take (sequenceLength lead - 1)).length = sequenceLength lead - 1 := by
      rw [List.length_take]
      omega
    have front : ∀ index, index < sequenceLength lead - 1 →
        (lead :: rest)[index + 1]? = (rest.take (sequenceLength lead - 1))[index]? := by
      intro index early
      rw [List.getElem?_cons_succ, List.getElem?_take_of_lt early]
    rw [scanTail] at scanned
    generalize rest.take (sequenceLength lead - 1) = tail at size front scanned
    split_ifs at scanned with valid
    cases scanned
    have broken : ∃ byte ∈ tail, (!decide (IsContinuation byte)) = true := by
      by_contra none
      refine valid ⟨by omega, fun byte membership => ?_⟩
      by_contra notContinued
      exact none ⟨byte, membership, by simpa using notContinued⟩
    have inside := List.findIdx_lt_length.mpr broken
    refine Or.inr ⟨Nat.succ_pos _, by omega, by omega, ?_, ?_⟩
    · intro between positive early
      obtain ⟨index, rfl⟩ := Nat.exists_eq_add_of_lt positive
      rw [Nat.zero_add] at early ⊢
      have continued := List.not_of_lt_findIdx (Nat.lt_of_succ_lt_succ early)
      refine ⟨_, (front index (by omega)).trans (List.getElem?_eq_getElem (by omega)), ?_⟩
      simpa using continued
    · have failing := List.findIdx_getElem (w := inside)
      refine ⟨_, (front _ (by omega)).trans (List.getElem?_eq_getElem inside), ?_⟩
      simpa using failing

theorem scanSequence_size {lead : UInt8} {rest : List UInt8} {sequence : Sequence} {size : Nat}
    (scanned : scanSequence (lead :: rest) = .item sequence size) :
    size = sequenceLength lead := by
  rcases scanSequence_eq_item_iff.mp scanned with ⟨rfl, more, bytesEq⟩
  cases bytesEq
  exact sequence.complete.symm

def sequenceScanner : Scanner UInt8 Sequence Nat where
  scan := scanSequence
  item_size := by
    intro input sequence size found
    rcases scanSequence_eq_item_iff.mp found with ⟨rfl, isPrefix⟩
    exact ⟨by simp, isPrefix.length_le⟩
  item_local := by
    intro input sequence size found more
    rcases scanSequence_eq_item_iff.mp found with ⟨rfl, rest, rfl⟩
    rw [List.take_left]
    exact scanSequence_eq_item_iff.mpr ⟨rfl, more, rfl⟩
  failed_append := by
    intro input failure found more
    cases input with
    | nil => simp [scanSequence] at found
    | cons lead rest =>
        simp only [scanSequence, List.cons_append, List.length_append] at found ⊢
        split_ifs at found with zero long
        · rw [if_pos zero]
          exact found
        · rw [if_neg zero, if_neg (by omega), List.take_append_of_le_length (by omega)]
          exact found

def Unfinished (rest : List UInt8) : Prop := ∀ lead ∈ rest.head?, rest.length < sequenceLength lead

theorem scan_incomplete_iff {rest : List UInt8} :
    sequenceScanner.scan rest = .incomplete ↔ Unfinished rest := by
  cases rest with
  | nil => exact iff_of_true rfl (by simp [Unfinished])
  | cons lead rest =>
      simp only [Unfinished, List.head?_cons, Option.mem_some_iff, forall_eq']
      refine ⟨scanSequence_incomplete, fun short => (scanSequence_cons lead rest).trans ?_⟩
      rw [List.length_cons] at short
      rw [if_neg (by omega), if_pos short]

/-- Splitting a byte string is writing it as a concatenation of sequences. -/
theorem splits_iff {input rest : List UInt8} {sequences : List Sequence} :
    sequenceScanner.Splits input sequences rest ↔
      input = sequences.flatMap Sequence.bytes ++ rest := by
  constructor
  · intro splits
    induction splits with
    | done rest => rfl
    | item found _ inductionHypothesis =>
        rcases scanSequence_eq_item_iff.mp found with ⟨length, isPrefix⟩
        rw [inductionHypothesis, ← isPrefix.eq_of_length length.symm, List.flatMap_cons,
          List.append_assoc]
  · rintro rfl
    induction sequences with
    | nil => exact .done rest
    | cons sequence sequences inductionHypothesis =>
        rw [List.flatMap_cons, List.append_assoc]
        exact .item (scanSequence_eq_item_iff.mpr ⟨rfl, List.prefix_rfl⟩) inductionHypothesis

/-- The number of continuation bytes in the shortest sequence for a code point. -/
def shortestExtra (point : Nat) : Nat :=
  if point < 0x80 then 0 else if point < 0x800 then 1 else if point < 0x10000 then 2 else 3

/-- The standard UTF-8 encoding of a code point: the shortest sequence. -/
def utf8 (point : Nat) : List UInt8 := form (shortestExtra point) point

/-- The standard UTF-16 encoding of a code point. -/
def utf16 (point : Nat) : List UInt16 :=
  if point < 0x10000 then [.ofNat point]
  else
    [.ofNat (0xd800 + (point - 0x10000) / 1024), .ofNat (0xdc00 + (point - 0x10000) % 1024)]

def maxCodePoint : Nat := 0x10ffff

theorem exists_utf8 (point : Nat) (bound : point < 0x200000) :
    ∃ sequence : Sequence, sequence.bytes = utf8 point ∧ sequence.value = point := by
  apply Sequence.exists_form
  · unfold shortestExtra
    split_ifs <;> omega
  · unfold shortestExtra
    split_ifs <;> simp only [capacity, leadCapacity] <;> omega

end Library.Unicode

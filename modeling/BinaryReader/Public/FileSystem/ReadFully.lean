import BinaryReader.Public.FileSystem
import BinaryReader.Util.Fault

/-!
# Reading whole files

`ReadFully` hands its error collection to the calls of a reader as it is.  A
null pointer to a collection is none, and a reader that fails dereferences it.
-/

namespace BinaryReader

def kReadSize : Nat := 16 * 1024 * 1024

def report (errors : Option ErrorCollection) (info : ErrorInfo) :
    Checked (Option ErrorCollection) := do
  return some ((← deref errors).add info)

namespace FileReader

variable {σ : Type} (reader : FileReader σ)

/-- The loop of `ReadFully`.  A read of no bytes at all ends it. -/
def readFullyLoop (buffer : List UInt8) (errors : Option ErrorCollection) :
    (fuel : Nat) → (size : Option Nat) → (ret : List UInt8) → σ →
    Checked (Bool × List UInt8 × σ × Option ErrorCollection)
  | 0, _, _, _ => .error .outOfFuel
  | fuel + 1, size, ret, state =>
      -- `ret[offset]` is an element only if `resize` has made the vector longer.
      if size.getD kReadSize = 0 then .error .outOfBounds
      else
        match reader.read state (size.getD kReadSize) with
        | (.error info, state) => do return (false, buffer, state, ← report errors info)
        | (.ok bytes, state) =>
            if size.getD kReadSize < bytes.length then .error .outOfBounds
            else if bytes.length = 0 then .ok (true, ret, state, errors)
            else readFullyLoop buffer errors fuel none (ret ++ bytes) state

def readFully (fuel : Nat) (state : σ) (buffer : List UInt8) (errors : Option ErrorCollection) :
    Checked (Bool × List UInt8 × σ × Option ErrorCollection) :=
  match reader.seek state 0 with
  | (.error info, state) => do return (false, buffer, state, ← report errors info)
  | (.ok _, state) => reader.readFullyLoop buffer errors fuel (reader.size state) [] state

/-- Reading on from a state, first with a given size, until a call fails or gives no bytes.
No bytes at all cannot be asked for. -/
inductive Reads : (size : Nat) → σ → Except ErrorInfo (List UInt8) → Prop where
  | failed {size state info next} : 0 < size →
      reader.read state size = (.error info, next) → Reads size state (.error info)
  | ended {size state next} : 0 < size →
      reader.read state size = (.ok [], next) → Reads size state (.ok [])
  | more {size state bytes next outcome} :
      reader.read state size = (.ok bytes, next) → bytes ≠ [] → bytes.length ≤ size →
      Reads kReadSize next outcome → Reads size state (outcome.map (bytes ++ ·))

inductive ReadsFully (state : σ) : Except ErrorInfo (List UInt8) → Prop where
  | unsought {info next} : reader.seek state 0 = (.error info, next) →
      ReadsFully state (.error info)
  | sought {reached next outcome} : reader.seek state 0 = (.ok reached, next) →
      reader.Reads ((reader.size next).getD kReadSize) next outcome → ReadsFully state outcome

def handOver (buffer : List UInt8) (errors : Option ErrorCollection) (next : σ) :
    Except ErrorInfo (List UInt8) → Checked (Bool × List UInt8 × σ × Option ErrorCollection)
  | .error info => do return (false, buffer, next, ← report errors info)
  | .ok bytes => .ok (true, bytes, next, errors)

variable {reader}

theorem readFullyLoop_spec (fuel : Nat) (size : Option Nat) (ret : List UInt8) (state : σ) :
    (∃ outcome next, reader.Reads (size.getD kReadSize) state outcome ∧
      ∀ buffer errors, reader.readFullyLoop buffer errors fuel size ret state =
        handOver buffer errors next (outcome.map (ret ++ ·))) ∨
    ∃ fault, ∀ buffer errors,
      reader.readFullyLoop buffer errors fuel size ret state = .error fault := by
  induction fuel generalizing size ret state with
  | zero => exact Or.inr ⟨.outOfFuel, fun _ _ => rfl⟩
  | succ fuel inductionHypothesis =>
      simp only [readFullyLoop]
      by_cases zero : size.getD kReadSize = 0
      · simp only [if_pos zero]
        exact Or.inr ⟨.outOfBounds, fun _ _ => rfl⟩
      simp only [if_neg zero]
      have positive := Nat.pos_of_ne_zero zero
      rcases returned : reader.read state (size.getD kReadSize) with ⟨info | bytes, next⟩
      · exact Or.inl ⟨.error info, next, .failed positive returned, fun _ _ => rfl⟩
      · dsimp only
        by_cases excess : size.getD kReadSize < bytes.length
        · simp only [if_pos excess]
          exact Or.inr ⟨.outOfBounds, fun _ _ => rfl⟩
        simp only [if_neg excess]
        by_cases none : bytes = []
        · subst none
          apply Or.inl
          refine ⟨.ok [], next, .ended positive returned, ?_⟩
          intro buffer errors
          simp [handOver, Except.map]
        simp only [if_neg (mt List.length_eq_zero_iff.mp none)]
        rcases inductionHypothesis Option.none (ret ++ bytes) next with
          ⟨outcome, last, reads, handed⟩ | faulty
        · apply Or.inl
          refine ⟨_, last, .more returned none (not_lt.mp excess) reads, ?_⟩
          intro buffer errors
          rw [handed]
          cases outcome <;> simp [Except.map]
        · exact Or.inr faulty

theorem Reads.readFullyLoop {size : Nat} {state : σ} {outcome : Except ErrorInfo (List UInt8)}
    (reads : reader.Reads size state outcome) :
    ∃ fuel next, ∀ known : Option Nat, known.getD kReadSize = size → ∀ ret buffer errors,
      reader.readFullyLoop buffer errors fuel known ret state =
        handOver buffer errors next (outcome.map (ret ++ ·)) := by
  induction reads with
  | @failed _ _ _ next positive returned =>
      refine ⟨1, next, ?_⟩
      intro known same ret buffer errors
      simp only [FileReader.readFullyLoop, same, returned]
      rw [if_neg (Nat.ne_of_gt positive)]
      rfl
  | @ended _ _ next positive returned =>
      refine ⟨1, next, ?_⟩
      intro known same ret buffer errors
      simp only [FileReader.readFullyLoop, same, returned]
      rw [if_neg (Nat.ne_of_gt positive)]
      simp [handOver, Except.map]
  | @more _ _ _ _ outcome returned some fits _ inductionHypothesis =>
      obtain ⟨fuel, next, handed⟩ := inductionHypothesis
      have positive := (List.length_pos_of_ne_nil some).trans_le fits
      refine ⟨fuel + 1, next, ?_⟩
      intro known same ret buffer errors
      simp only [FileReader.readFullyLoop, same, returned]
      rw [if_neg (Nat.ne_of_gt positive), if_neg (not_lt.mpr fits),
        if_neg (mt List.length_eq_zero_iff.mp some), handed none rfl]
      cases outcome <;> simp [Except.map]

theorem Reads.reported (reports : reader.ReportsErrors) {size : Nat} {state : σ}
    {outcome : Except ErrorInfo (List UInt8)} (reads : reader.Reads size state outcome)
    {info : ErrorInfo} (fails : outcome = .error info) : info.level = .error := by
  induction reads with
  | failed _ returned =>
      cases fails
      exact reports.read returned
  | ended => cases fails
  | @more _ _ _ _ outcome _ _ _ _ inductionHypothesis =>
      cases outcome <;> cases fails
      exact inductionHypothesis rfl

theorem ReadsFully.reported (reports : reader.ReportsErrors) {state : σ} {info : ErrorInfo}
    (reads : reader.ReadsFully state (.error info)) : info.level = .error := by
  cases reads with
  | unsought sought => exact reports.seek sought
  | sought _ reads => exact reads.reported reports rfl

variable (reader) in
/-- `ReadFully` reads the file to its end, unless it ends abnormally. -/
theorem readFully_spec (fuel : Nat) (state : σ) :
    (∃ outcome next, reader.ReadsFully state outcome ∧
      ∀ buffer errors, reader.readFully fuel state buffer errors =
        handOver buffer errors next outcome) ∨
    ∃ fault, ∀ buffer errors, reader.readFully fuel state buffer errors = .error fault := by
  simp only [readFully]
  rcases sought : reader.seek state 0 with ⟨info | reached, next⟩
  · exact Or.inl ⟨.error info, next, .unsought sought, fun _ _ => rfl⟩
  · rcases readFullyLoop_spec fuel (reader.size next) [] next with
      ⟨outcome, last, reads, handed⟩ | faulty
    · apply Or.inl
      refine ⟨outcome, last, .sought sought reads, ?_⟩
      intro buffer errors
      dsimp only
      rw [handed]
      cases outcome <;> rfl
    · exact Or.inr faulty

theorem ReadsFully.readFully {state : σ} {outcome : Except ErrorInfo (List UInt8)}
    (reads : reader.ReadsFully state outcome) :
    ∃ fuel next, ∀ buffer errors,
      reader.readFully fuel state buffer errors = handOver buffer errors next outcome := by
  cases reads with
  | @unsought _ next sought =>
      refine ⟨0, next, ?_⟩
      intro buffer errors
      simp only [FileReader.readFully, sought]
      rfl
  | sought sought reads =>
      obtain ⟨fuel, next, handed⟩ := reads.readFullyLoop
      refine ⟨fuel, next, ?_⟩
      intro buffer errors
      simp only [FileReader.readFully, sought]
      rw [handed _ rfl]
      cases outcome <;> rfl

end FileReader

end BinaryReader

import BinaryReader.Ast.IntegerTypeInfo.Reading

/-!
# Well-formed types

The types whose objects can be parsed: integers of 1 to 64 bits, and definitions
whose statements are fields of such types.  Their static size is the exact
number of bits in a 64-bit word.
-/

namespace BinaryReader

mutual

/-- Integers of 1 to 64 bits, and definitions made of fields of well-formed types. -/
def TypeInfoBase.WellFormed : TypeInfoBase → Prop
  | .integer info => info.Readable
  | .definition info => info.WellFormed

def TypeDefinition.WellFormed : TypeDefinition → Prop
  | .mk _ _ statements => WellFormedStatements statements

def WellFormedStatements : List Statement → Prop
  | [] => True
  | .field (.mk _ _ (some type) _) :: statements =>
      type.WellFormed ∧ WellFormedStatements statements
  | _ :: _ => False

end

theorem wellFormedStatements_iff {statements : List Statement} :
    WellFormedStatements statements ↔ ∀ statement ∈ statements, ∃ debug name type expected,
      statement = .field (.mk debug name (some type) expected) ∧ type.WellFormed := by
  induction statements with
  | nil => simp [WellFormedStatements]
  | cons statement statements inductionHypothesis =>
      rw [List.forall_mem_cons, ← inductionHypothesis]
      rcases statement with ⟨debug, name, _ | type, expected⟩ | _
      · simp [WellFormedStatements]
      · simp [WellFormedStatements]
      · simp [WellFormedStatements]

mutual

def TypeInfoBase.exactBits : TypeInfoBase → Nat
  | .integer info => info.size.bitCount
  | .definition info => info.exactBits

def TypeDefinition.exactBits : TypeDefinition → Nat
  | .mk _ _ statements => sumBits statements

def sumBits : List Statement → Nat
  | [] => 0
  | .field (.mk _ _ (some type) _) :: statements => type.exactBits + sumBits statements
  | _ :: statements => sumBits statements

end

mutual

/-- The static size of a well-formed type is its exact size in 64 bits. -/
theorem TypeInfoBase.WellFormed.staticSize :
    ∀ {type : TypeInfoBase}, type.WellFormed → type.staticSize = some (.fromBits type.exactBits)
  | .integer info, _ => by
      rw [TypeInfoBase.staticSize, TypeInfoBase.exactBits, Size.fromBits_bitCount]
  | .definition info, wellFormed => by
      rw [TypeInfoBase.staticSize, TypeInfoBase.exactBits]
      exact TypeDefinition.WellFormed.staticSize wellFormed

theorem TypeDefinition.WellFormed.staticSize :
    ∀ {type : TypeDefinition}, type.WellFormed →
      type.staticSize = some (.fromBits type.exactBits)
  | .mk _ _ statements, wellFormed => by
      rw [TypeDefinition.staticSize, TypeDefinition.exactBits,
        WellFormedStatements.sumSizes wellFormed, Size.bitCount_zero, Nat.zero_add]

theorem WellFormedStatements.sumSizes :
    ∀ {statements : List Statement} {size : Size}, WellFormedStatements statements →
      sumSizes size statements = some (.fromBits (size.bitCount + sumBits statements))
  | [], size, _ => by
      rw [BinaryReader.sumSizes, sumBits, Nat.add_zero, Size.fromBits_bitCount]
  | .field (.mk _ _ (some type) _) :: statements, size, wellFormed => by
      have fieldSize := TypeInfoBase.WellFormed.staticSize wellFormed.1
      rw [BinaryReader.sumSizes, fieldSize]
      dsimp only
      rw [WellFormedStatements.sumSizes wellFormed.2, sumBits]
      refine congrArg some (Size.bitCount_injective ?_)
      simp only [Size.bitCount_fromBits, Size.bitCount_addAssign]
      omega
  | .field (.mk _ _ none _) :: _, _, wellFormed => wellFormed.elim
  | .definition _ :: _, _, wellFormed => wellFormed.elim

end

end BinaryReader

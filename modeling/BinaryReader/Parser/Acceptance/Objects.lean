import BinaryReader.Parser.Acceptance

/-!
# Objects of accepted definitions

For a type of an accepted definition and any reader of a file, the calls on an
object and on all objects obtained from it are answered as first calls,
whatever calls came before.
-/

namespace BinaryReader

variable {recognize : Recognizer} {path : String} {buffer : List UInt8}
  {defs types : List TypeDefinition} {errors reported : ErrorCollection}

theorem wellFormed_of_accepted
    (accepted : parseDefinitionFile recognize path buffer defs errors =
      .ok (true, defs ++ types, reported)) : ∀ type ∈ types, type.WellFormed := by
  obtain ⟨_, built, -, -, -, same, -, -, wellFormed, -⟩ := accepted_spec accepted
  rw [List.append_cancel_left same]
  exact wellFormed

open World in
/-- Read an object of a type of an accepted definition, and call it and its children in
any order: every call on an object returns, and is answered as a first one. -/
theorem accepted_run_asFirst
    (accepted : parseDefinitionFile recognize path buffer defs errors =
      .ok (true, defs ++ types, reported))
    {type : TypeDefinition} (membership : type ∈ types) {σ : Type} {fileReader : FileReader σ}
    {contents : List UInt8} (contract : fileReader.Contract contents)
    {reader : BufferedFileReader σ} (usable : reader.Usable fileReader contents) (result : Value)
    (collected : ErrorCollection) :
    ∃ world, readObject fileReader type { reader } result collected =
        .ok (true, .object 0, world, collected) ∧
      ∀ calls answers reached, (machine fileReader).run world calls = .ok (answers, reached) →
        (∃ root, reached.objects[0]? = some root ∧ root.type = type ∧
          root.startPosition = reader.position) ∧
        (∀ call, call.id < reached.objects.length →
          ∃ given next, answer fileReader reached call = .ok (given, next)) ∧
        ∀ id object, reached.objects[id]? = some object →
          AsFirst fileReader contents reached id object :=
  run_asFirst contract usable (wellFormed_of_accepted accepted type membership) result collected

def oneByte : TypeDefinition :=
  .mk { filePath := "", line := 1, column := 0 } "a"
    [.field (.mk { filePath := "", line := 1, column := 9 } "x"
      (some (.integer ⟨{ filePath := "", line := 1, column := 9 }, "byte", .fromBits 8, .unsigned,
        .unset⟩)) none)]

/-- The type `b` of `type a { byte x; } type b { a y; byte z; }`. -/
def byteAndOne : TypeDefinition :=
  .mk { line := 1, column := 19 } "b"
    [.field (.mk { line := 1, column := 28 } "y"
        (some (.definition (.mk { line := 1, column := 28 } "a" oneByte.statements))) none),
      .field (.mk { line := 1, column := 33 } "z"
        (some (.integer ⟨{ line := 1, column := 33 }, "byte", .fromBits 8, .unsigned, .unset⟩))
        none)]

theorem parse_nestedTypes :
    parseDefinitionFile (fun _ => { result := .ok nestedTypes }) ""
      (textBytes "type a \x7b byte x; \x7d type b \x7b a y; byte z; \x7d") [] {} =
        .ok (true, [] ++ [oneByte, byteAndOne], {}) := rfl

open World in
theorem accepted_run_asFirst_nested :
    ∃ world, readObject (memoryFileReader [7, 8]) byteAndOne { reader := { reader := 0 } } .null
        {} = .ok (true, .object 0, world, {}) ∧
      ∀ calls answers reached,
        (machine (memoryFileReader [7, 8])).run world calls = .ok (answers, reached) →
        (∃ root, reached.objects[0]? = some root ∧ root.type = byteAndOne ∧
          root.startPosition = .zero) ∧
        (∀ call, call.id < reached.objects.length →
          ∃ given next, answer (memoryFileReader [7, 8]) reached call = .ok (given, next)) ∧
        ∀ id object, reached.objects[id]? = some object →
          AsFirst (memoryFileReader [7, 8]) [7, 8] reached id object :=
  accepted_run_asFirst parse_nestedTypes (List.mem_cons_of_mem _ (List.mem_singleton_self _))
    (memoryFileReader_contract [7, 8]) (Or.inl rfl) .null {}

end BinaryReader

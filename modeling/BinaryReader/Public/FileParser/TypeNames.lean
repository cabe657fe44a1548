import BinaryReader.Public.FileParser

/-!
# Names of types

The names that a parser lists are the names it can be asked for.  A request without
a name is one for the last of them.
-/

namespace BinaryReader

theorem Mirrors.aliasNames {scope : Scope} {types : List TypeDefinition}
    (mirrors : Mirrors scope types) :
    types.map TypeDefinition.aliasName = (scope.map TypeDecl.name).reverse ∧
      (types.map TypeDefinition.aliasName).Nodup := by
  induction mirrors with
  | nil => exact ⟨rfl, List.nodup_nil⟩
  | cons _ built _ _ fresh inductionHypothesis =>
      obtain ⟨names, distinct⟩ := inductionHypothesis
      rw [List.map_append, List.map_singleton]
      refine ⟨?_, ?_⟩
      · rw [names, built.1, List.map_cons, List.reverse_cons]
      · rw [List.nodup_append_comm, List.singleton_append, List.nodup_cons]
        exact ⟨built.1 ▸ fresh, distinct⟩

namespace FileParser

def getTypeNames (self : FileParser) : List String := self.definitions.map TypeDefinition.aliasName

theorem getTypeNames_ne_nil (self : FileParser) : self.getTypeNames ≠ [] :=
  fun empty => self.nonEmpty (List.map_eq_nil_iff.mp empty)

theorem definitionOf_eq_none_iff {self : FileParser} {type : String} :
    self.definitionOf type = none ↔ type ≠ "" ∧ type ∉ self.getTypeNames := by
  rw [definitionOf]
  by_cases unnamed : type = ""
  · rw [if_pos unnamed]
    exact iff_of_false (Option.some_ne_none _) fun named => named.1 unnamed
  · rw [if_neg unnamed, List.find?_eq_none, getTypeNames, List.mem_map]
    simp [unnamed]

theorem aliasName_of_definitionOf {self : FileParser} {type : String} {definition : TypeDefinition}
    (found : self.definitionOf type = some definition) (named : type ≠ "") :
    definition.aliasName = type := by
  rw [definitionOf, if_neg named] at found
  simpa using List.find?_some found

theorem definitionOf_last {self : FileParser} (distinct : self.getTypeNames.Nodup) :
    self.definitionOf (self.getTypeNames.getLast self.getTypeNames_ne_nil) =
      self.definitionOf "" := by
  obtain ⟨definitions, nonEmpty⟩ := self
  obtain ⟨front, last, same⟩ := (List.eq_nil_or_concat definitions).resolve_left nonEmpty
  rw [List.concat_eq_append] at same
  subst same
  simp only [getTypeNames, List.map_append, List.map_cons, List.map_nil] at distinct ⊢
  have older : ∀ type ∈ front, type.aliasName ≠ last.aliasName := by
    intro type membership same
    have disjoint := (List.nodup_append.mp distinct).2.2
    exact disjoint _ (List.mem_map_of_mem membership) _ (List.mem_singleton.mpr rfl) same
  have missing : front.find? (fun type => type.aliasName = last.aliasName) = none := by
    simpa using older
  simp only [definitionOf, List.getLast_append_singleton, if_true]
  split_ifs
  · rfl
  · simp [List.find?_append, missing]

/-- The root object of every type that is found, over a reader that keeps its contract. -/
theorem getTypeNames_requests {recognize : Recognizer} {definition : List UInt8}
    {definitionPath : String} {errors added : Option ErrorCollection} {parser : FileParser}
    (created : createFromDefinition recognize definition definitionPath errors =
      .ok (some parser, added))
    {main : MainContext} (tree : (recognize definition).result = .ok main) {σ : Type}
    {fileReader : FileReader σ} {contents : List UInt8} (contract : fileReader.Contract contents)
    (file : σ) (memory : Nat → UInt8) (path : String) (collection : Option ErrorCollection) :
    parser.getTypeNames = main.decls.map TypeDecl.name ∧ parser.getTypeNames.Nodup ∧
    (∀ type ∈ parser.getTypeNames, type ≠ "" → ∃ world object,
      parser.parseFile fileReader file memory path type collection =
        .ok (some (0, world), collection) ∧
      world.objects = [object] ∧ object.type.aliasName = type) ∧
    (∀ type, type ∉ parser.getTypeNames → type ≠ "" →
      parser.parseFile fileReader file memory path type collection =
        .ok (none, collection.map fun collection =>
          collection.add (.ofArguments { filePath := path } .unknownType [type] .error))) ∧
    parser.parseFile fileReader file memory path "" collection =
      parser.parseFile fileReader file memory path
        (parser.getTypeNames.getLast parser.getTypeNames_ne_nil) collection := by
  obtain ⟨_, sameTree, mirrors, wellFormed⟩ := created_spec created
  cases tree.symm.trans sameTree
  obtain ⟨names, distinct⟩ := mirrors.aliasNames
  rw [List.map_reverse, List.reverse_reverse] at names
  refine ⟨names, distinct, ?_, ?_, ?_⟩
  · intro type listed named
    rcases found : parser.definitionOf type with _ | root
    · exact absurd listed (definitionOf_eq_none_iff.mp found).2
    · have membership : root ∈ parser.definitions := by
        rw [definitionOf, if_neg named] at found
        exact List.mem_of_find?_eq_some found
      obtain ⟨reader, parsed, -⟩ := parseFile_spec contract found (wellFormed root membership) file
        memory path collection
      exact ⟨_, _, parsed, rfl, aliasName_of_definitionOf found named⟩
  · intro type unlisted named
    rw [parseFile, definitionOf_eq_none_iff.mpr ⟨named, unlisted⟩]
  · rw [parseFile, parseFile, definitionOf_last distinct]
    rcases found : parser.definitionOf "" with _ | root
    · exact absurd rfl (definitionOf_eq_none_iff.mp found).1
    · rfl

theorem getTypeNames_requests_oneByte :
    getTypeNames ⟨[oneByte], List.cons_ne_nil _ _⟩ = ["a"] ∧
    (∃ world object,
      parseFile (memoryFileReader [7]) ⟨[oneByte], List.cons_ne_nil _ _⟩ 0 (fun _ => 3) "file" "a"
        none = .ok (some (0, world), none) ∧
      world.objects = [object] ∧ object.type.aliasName = "a") ∧
    parseFile (memoryFileReader [7]) ⟨[oneByte], List.cons_ne_nil _ _⟩ 0 (fun _ => 3) "file" "b"
      none = .ok (none, none) := by
  have created : createFromDefinition (fun _ => { result := .ok (oneField none 14) })
      (textBytes "type a \x7b byte x; \x7d") "" none =
        .ok (some ⟨[oneByte], List.cons_ne_nil _ _⟩, none) := rfl
  obtain ⟨names, -, listed, unlisted, -⟩ := getTypeNames_requests created rfl
    (memoryFileReader_contract [7]) 0 (fun _ => 3) "file" none
  rw [show (oneField none 14).decls.map TypeDecl.name = ["a"] from rfl] at names
  rw [names] at listed unlisted
  exact ⟨names, listed "a" (by decide) (by decide), unlisted "b" (by decide) (by decide)⟩

end FileParser

end BinaryReader

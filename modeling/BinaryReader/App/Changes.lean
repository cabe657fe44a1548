import BinaryReader.App.Output
import BinaryReader.Parser.Meaning.Extending

/-!
# Longer files

What the tool writes keeps its members and integers when bytes are added to the input
file, and when types are added to the definition file.
-/

namespace BinaryReader

open Library Library.Unicode

def Exit.Writes (exit : Exit) (json : Json) : Prop :=
  exit.code = 0 ∧ ∃ text, exit.out = utf8Text text ∧ Json.Document text json

/-- The same integer, or null, or objects that are compared member by member. -/
inductive Alike : Option Json → Option Json → Prop where
  | none : Alike none none
  | null : Alike (some .null) (some .null)
  | number (value : ℚ) : Alike (some (.number value)) (some (.number value))
  | object (members others : List (List UInt16 × Json)) :
      Alike (some (.object members)) (some (.object others))

/-- The same, but for a null that has become an integer. -/
inductive Fills : Option Json → Option Json → Prop where
  | alike {found other : Option Json} : Alike found other → Fills found other
  | number (value : ℚ) : Fills (some .null) (some (.number value))

section Denoted

variable {meaning longer : Option Meaning} {found other : Option Json}

theorem Denotes.alike (denotes : Denotes meaning found) (others : Denotes meaning other) :
    Alike found other := by
  rcases meaning with _ | _ | value | _ | ⟨inner, place⟩ <;> rcases found with _ | json <;>
    rcases other with _ | otherJson
  all_goals first | exact denotes.elim | exact others.elim | skip
  · exact .none
  · exact .none
  · cases denotes
    cases others
    exact .number _
  · cases denotes
    cases others
    exact .null
  · obtain ⟨members, rfl⟩ := denotes
    obtain ⟨otherMembers, rfl⟩ := others
    exact .object members otherMembers

theorem Denotes.fills (extended : Option.Rel Meaning.Extends meaning longer)
    (denotes : Denotes meaning found) (others : Denotes longer other) : Fills found other := by
  cases extended with
  | none => exact .alike (denotes.alike others)
  | some extends_ =>
      cases extends_ with
      | same => exact .alike (denotes.alike others)
      | complete value =>
          rcases found with _ | json
          · exact denotes.elim
          rcases other with _ | otherJson
          · exact others.elim
          cases denotes
          cases others
          exact .number value

end Denoted

section Runs

variable {σ : Type} {fileSystem : FileSystem σ} {fileReader : FileReader σ}
  {recognize : Recognizer} {classes : IdentifierClasses} {format input type : String}
  {definition contents : List UInt8}

theorem main_writes (definitionServed : fileSystem.Serves fileReader format definition)
    (inputServed : fileSystem.Serves fileReader input contents) (filled : definition ≠ [])
    {main : MainContext} (clean : (recognize definition).Clean main) (nonEmpty : main.decls ≠ [])
    (bounded : SizesBounded main.decls) (identified : Scope.Identified classes main.decls)
    (named : type = "" ∨ type ∈ main.decls.map TypeDecl.name) (hashOrder : HashOrder)
    (formatDouble : Double → String) (memory : Nat → UInt8) :
    ∃ bound exit json, exit.Writes json ∧
      (∀ names, Denotes (pathMeaning contents (Scope.root main.decls type) 0 names)
        (jsonAt names json)) ∧
      ∀ fuel ≥ bound, BinaryReader.main recognize fileSystem fileReader hashOrder formatDouble
        memory fuel (.values format input type) = .ok exit := by
  obtain ⟨bound, infos, out, -, ⟨text, json, written, document, denotes⟩, ran⟩ :=
    main_run definitionServed inputServed filled clean nonEmpty bounded identified named
      hashOrder formatDouble memory
  exact ⟨bound, { code := 0, out, err := utf8Text (printLines infos) }, json,
    ⟨rfl, text, written, document⟩, denotes, ran⟩

/-- More bytes behind the input file keep the output but for nulls that become integers, and
change nothing in it if the file has all bytes of the type. -/
theorem main_moreBytes (definitionServed : fileSystem.Serves fileReader format definition)
    (inputServed : fileSystem.Serves fileReader input contents) {longer : String}
    {more : List UInt8} (longerServed : fileSystem.Serves fileReader longer (contents ++ more))
    (filled : definition ≠ []) {main : MainContext} (clean : (recognize definition).Clean main)
    (nonEmpty : main.decls ≠ []) (bounded : SizesBounded main.decls)
    (identified : Scope.Identified classes main.decls)
    (named : type = "" ∨ type ∈ main.decls.map TypeDecl.name) (hashOrder : HashOrder)
    (formatDouble : Double → String) (memory : Nat → UInt8) :
    ∃ bound exit longerExit json longerJson, exit.Writes json ∧ longerExit.Writes longerJson ∧
      (∀ names, Fills (jsonAt names json) (jsonAt names longerJson)) ∧
      (Scope.bytes (Scope.root main.decls type) ≤ contents.length →
        ∀ names, Alike (jsonAt names json) (jsonAt names longerJson)) ∧
      ∀ fuel ≥ bound,
        BinaryReader.main recognize fileSystem fileReader hashOrder formatDouble memory fuel
          (.values format input type) = .ok exit ∧
        BinaryReader.main recognize fileSystem fileReader hashOrder formatDouble memory fuel
          (.values format longer type) = .ok longerExit := by
  obtain ⟨bound, exit, json, writes, denotes, ran⟩ := main_writes definitionServed inputServed
    filled clean nonEmpty bounded identified named hashOrder formatDouble memory
  obtain ⟨longerBound, longerExit, longerJson, longerWrites, longerDenotes, longerRan⟩ :=
    main_writes definitionServed longerServed filled clean nonEmpty bounded identified named
      hashOrder formatDouble memory
  refine ⟨max bound longerBound, exit, longerExit, json, longerJson, writes, longerWrites,
    ?_, ?_, ?_⟩
  · intro names
    exact (denotes names).fills (pathMeaning_extends more _ _ names) (longerDenotes names)
  · intro inside names
    have denoted := longerDenotes names
    rw [Scope.pathMeaning_append (by rwa [Nat.zero_add])] at denoted
    exact (denotes names).alike denoted
  · intro fuel enough
    exact ⟨ran fuel (le_of_max_le_left enough), longerRan fuel (le_of_max_le_right enough)⟩

theorem main_moreBytes_sample :
    let system : MemoryFileSystem :=
      .addAll {} [("f", textBytes "type a \x7b byte x; \x7d"), ("i", []), ("l", [] ++ [7])]
    ∃ bound exit longerExit json longerJson, exit.Writes json ∧ longerExit.Writes longerJson ∧
      (∀ names, Fills (jsonAt names json) (jsonAt names longerJson)) ∧
      (Scope.bytes (Scope.root (oneField none 14).decls "") ≤ ([] : List UInt8).length →
        ∀ names, Alike (jsonAt names json) (jsonAt names longerJson)) ∧
      ∀ fuel ≥ bound,
        main sampleRecognizer system.fileSystem MemoryFileReader.fileReader ValueTree.latestFirst
          (fun _ => "") (fun _ => 0) fuel (.values "f" "i" "") = .ok exit ∧
        main sampleRecognizer system.fileSystem MemoryFileReader.fileReader ValueTree.latestFirst
          (fun _ => "") (fun _ => 0) fuel (.values "f" "l" "") = .ok longerExit := by
  intro system
  exact main_moreBytes (MemoryFileSystem.serves rfl) (MemoryFileSystem.serves rfl)
    (MemoryFileSystem.serves rfl) (by decide) (sample_clean _) (List.cons_ne_nil _ _)
    (oneField_bounded 14) sample_identified (Or.inl rfl) ValueTree.latestFirst (fun _ => "")
    (fun _ => 0)

/-- Types that are declared behind a type do not change what is written for it. -/
theorem main_moreTypes (definitionServed : fileSystem.Serves fileReader format definition)
    {longer : String} {longerDefinition : List UInt8}
    (longerServed : fileSystem.Serves fileReader longer longerDefinition)
    (inputServed : fileSystem.Serves fileReader input contents) (filled : definition ≠ [])
    (longerFilled : longerDefinition ≠ []) {main longerMain : MainContext}
    (clean : (recognize definition).Clean main)
    (longerClean : (recognize longerDefinition).Clean longerMain) {later : List TypeDecl}
    (split : longerMain.decls = main.decls ++ later) (bounded : SizesBounded longerMain.decls)
    (identified : Scope.Identified classes longerMain.decls) (nonEmpty : type ≠ "")
    (named : type ∈ main.decls.map TypeDecl.name) (hashOrder : HashOrder)
    (formatDouble : Double → String) (memory : Nat → UInt8) :
    ∃ bound exit longerExit json longerJson, exit.Writes json ∧ longerExit.Writes longerJson ∧
      (∀ names, Alike (jsonAt names json) (jsonAt names longerJson)) ∧
      ∀ fuel ≥ bound,
        BinaryReader.main recognize fileSystem fileReader hashOrder formatDouble memory fuel
          (.values format input type) = .ok exit ∧
        BinaryReader.main recognize fileSystem fileReader hashOrder formatDouble memory fuel
          (.values longer input type) = .ok longerExit := by
  have some : main.decls ≠ [] := by
    intro empty
    rw [empty] at named
    cases named
  have distinct := (declsFit_iff.mp longerClean.fits).distinct
  rw [split, List.map_append] at distinct
  have same : Scope.root longerMain.decls type = Scope.root main.decls type := by
    rw [split]
    exact Scope.root_append nonEmpty fun again => List.disjoint_of_nodup_append distinct named again
  have boundedBefore : SizesBounded main.decls := by
    rw [split] at bounded
    exact bounded.of_append
  have identifiedBefore : Scope.Identified classes main.decls := by
    apply identified.mono
    rw [split]
    exact List.subset_append_left _ _
  have namedBehind : type ∈ longerMain.decls.map TypeDecl.name := by
    rw [split, List.map_append]
    exact List.mem_append_left _ named
  have someBehind : longerMain.decls ≠ [] := by
    rw [split]
    exact List.append_ne_nil_of_left_ne_nil some later
  obtain ⟨bound, exit, json, writes, denotes, ran⟩ := main_writes definitionServed inputServed
    filled clean some boundedBefore identifiedBefore (Or.inr named) hashOrder formatDouble memory
  obtain ⟨longerBound, longerExit, longerJson, longerWrites, longerDenotes, longerRan⟩ :=
    main_writes longerServed inputServed longerFilled longerClean someBehind bounded identified
      (Or.inr namedBehind) hashOrder formatDouble memory
  rw [same] at longerDenotes
  refine ⟨max bound longerBound, exit, longerExit, json, longerJson, writes, longerWrites,
    fun names => (denotes names).alike (longerDenotes names), ?_⟩
  intro fuel enough
  exact ⟨ran fuel (le_of_max_le_left enough), longerRan fuel (le_of_max_le_right enough)⟩

theorem nestedTypes_walkable : nestedTypes.Walkable := by
  have unlisted : ∀ list ∈ (none : Option OptionListContext), list.Walkable := nofun
  obtain ⟨complete, numeric⟩ := oneField_complete unlisted 14
  apply MainContext.Complete.walkable
  · refine List.forall_mem_append.mpr ⟨complete, List.forall_mem_singleton.mpr ⟨_, rfl, rfl, ?_⟩⟩
    exact List.forall_mem_cons.mpr ⟨⟨_, rfl, rfl, ⟨_, rfl, rfl, unlisted⟩, nofun⟩,
      List.forall_mem_singleton.mpr ⟨_, rfl, rfl, ⟨_, rfl, rfl, unlisted⟩, nofun⟩⟩
  · refine List.forall_mem_append.mpr ⟨numeric, List.forall_mem_singleton.mpr ?_⟩
    rintro type ⟨⟩
    refine List.forall_mem_cons.mpr ⟨?_, List.forall_mem_singleton.mpr ?_⟩
    · rintro field ⟨⟩
      exact nofun
    · rintro field ⟨⟩
      exact nofun

theorem nestedTypes_fits : DeclsFit [] nestedTypes.decls := by
  rw [nestedTypes_decls]
  refine ⟨⟨?_, nofun, trivial⟩, nofun, by decide, ⟨?_, nofun, ?_, by decide, trivial⟩, by decide,
    by decide, trivial⟩
  · exact ⟨[.signedness, .byteOrder], rfl, nofun, by decide, nofun⟩
  · exact ⟨[], rfl, nofun, by decide, nofun⟩
  · exact ⟨[.signedness, .byteOrder], rfl, nofun, by decide, nofun⟩

theorem nestedTypes_identified :
    Scope.Identified ValueTree.asciiClasses nestedTypes.decls := by
  rw [nestedTypes_decls]
  refine List.forall_mem_cons.mpr ⟨?_, List.forall_mem_singleton.mpr ?_⟩
  · exact List.forall_mem_singleton.mpr ⟨[], 'x', [], rfl, Or.inl rfl, rfl, List.forall_mem_nil _⟩
  · exact List.forall_mem_cons.mpr ⟨⟨[], 'y', [], rfl, Or.inl rfl, rfl, List.forall_mem_nil _⟩,
      List.forall_mem_singleton.mpr ⟨[], 'z', [], rfl, Or.inl rfl, rfl, List.forall_mem_nil _⟩⟩

theorem main_moreTypes_nested :
    let one := textBytes "type a \x7b byte x; \x7d"
    let two := textBytes "type a \x7b byte x; \x7d type b \x7b a y; byte z; \x7d"
    let recognize : Recognizer := fun text =>
      { result := .ok (if text = two then nestedTypes else oneField none 14) }
    let system : MemoryFileSystem := .addAll {} [("f", one), ("l", two), ("i", [7])]
    ∃ bound exit longerExit json longerJson, exit.Writes json ∧ longerExit.Writes longerJson ∧
      (∀ names, Alike (jsonAt names json) (jsonAt names longerJson)) ∧
      ∀ fuel ≥ bound,
        main recognize system.fileSystem MemoryFileReader.fileReader ValueTree.latestFirst
          (fun _ => "") (fun _ => 0) fuel (.values "f" "i" "a") = .ok exit ∧
        main recognize system.fileSystem MemoryFileReader.fileReader ValueTree.latestFirst
          (fun _ => "") (fun _ => 0) fuel (.values "l" "i" "a") = .ok longerExit := by
  intro one two recognize system
  have different : one ≠ two := by decide
  have clean : (recognize one).Clean (oneField none 14) := by
    have recognized : recognize one = sampleRecognizer one := by
      simp only [recognize, sampleRecognizer, if_neg different]
    rw [recognized]
    exact sample_clean one
  have recognized : recognize two = { result := .ok nestedTypes } := by
    simp only [recognize, if_true]
  have longerClean : (recognize two).Clean nestedTypes := by
    rw [recognized]
    exact ⟨rfl, rfl, nestedTypes_walkable, nestedTypes_fits⟩
  exact main_moreTypes (MemoryFileSystem.serves rfl) (MemoryFileSystem.serves rfl)
    (MemoryFileSystem.serves rfl) (by decide) (by decide) clean longerClean rfl
    nestedTypes_bounded nestedTypes_identified (by decide) (by decide) ValueTree.latestFirst
    (fun _ => "") (fun _ => 0)

end Runs

end BinaryReader

import BinaryReader.Public.FileObject.Calls
import BinaryReader.Public.FileObject.Names
import BinaryReader.Public.Json.Tree

/-!
# The order of members

The output for an object lists its members in the order of a hash table.  Every object of
a sound world shows a tree, and the trees of a type are in the order of its definitions,
for every order of the table, when no definition has two fields.
-/

namespace BinaryReader

open Library
open ValueTree (latestFirst)

mutual

/-- Every definition that occurs in a type has at most one field. -/
def TypeInfoBase.Narrow : TypeInfoBase → Prop
  | .integer _ => True
  | .definition info => info.Narrow

def TypeDefinition.Narrow : TypeDefinition → Prop
  | .mk _ _ statements => statements.length ≤ 1 ∧ NarrowStatements statements

def NarrowStatements : List Statement → Prop
  | [] => True
  | .field (.mk _ _ (some type) _) :: statements => type.Narrow ∧ NarrowStatements statements
  | _ :: statements => NarrowStatements statements

end

theorem TypeDefinition.narrow_iff {type : TypeDefinition} :
    type.Narrow ↔ type.statements.length ≤ 1 ∧ NarrowStatements type.statements := by
  rcases type with ⟨debug, name, statements⟩
  rfl

/-- What a client gets for a field of a type: null for an integer that cannot be read. -/
def ValueOf (objects : List FileObject) : TypeInfoBase → Value → Prop
  | .integer _, value => value = .null ∨ ∃ number, value = .number number
  | .definition type, value =>
      ∃ id object, value = .object id ∧ objects[id]? = some object ∧ object.type = type

section

variable {σ : Type} {fileReader : FileReader σ} {contents : List UInt8}

theorem World.Reported.valueOf {before next : World σ} {errors added : ErrorCollection}
    {type : TypeInfoBase} {offset : Size} {outcome : Except ErrorInfo Sight} {returned : Bool}
    {result : Value} (outcomeEq : outcomeAt contents offset type = .ok outcome)
    (reported : before.Reported .null errors outcome (returned, result, next, added)) :
    ValueOf next.objects type result := by
  cases type with
  | integer info =>
      rcases outcome with error | sight
      · exact Or.inl reported.2.1
      · obtain ⟨value, -, mapped⟩ := Checked.bind_eq_ok_iff.mp outcomeEq
        obtain ⟨-, seen, -⟩ := reported
        rcases value with error | number
        · cases mapped
        · cases mapped
          exact Or.inr ⟨number, look_eq_number seen⟩
  | definition type =>
      cases outcomeEq
      obtain ⟨id, object, resultEq, found, typeEq, -⟩ := look_eq_object reported.2.1
      exact ⟨id, object, resultEq, found, typeEq⟩

theorem World.Sound.fieldValue (contract : fileReader.Contract contents) {world : World σ}
    (sound : world.Sound fileReader contents) {id : ObjectId} {object : FileObject}
    (found : world.objects[id]? = some object) {name : String}
    (declared : name ∈ object.type.declaredNames) :
    ∃ info ∈ layOut object.startPosition object.type.statements, info.name = name ∧
      ∃ value next, world.fieldValue fileReader id name = .ok (value, next) ∧
        ValueOf next.objects info.type value ∧ next.Sound fileReader contents ∧
        Grows world.objects next.objects := by
  have objectSound := sound.objects object (List.mem_of_getElem? found)
  obtain ⟨index, last⟩ : ∃ index,
      lastIndexOf name (layOut object.startPosition object.type.statements) = some index := by
    apply Option.ne_none_iff_exists'.mp
    intro missing
    rw [← objectSound.layOut_names] at declared
    obtain ⟨info, membership, same⟩ := List.mem_map.mp declared
    exact lastIndexOf_eq_none.mp missing info membership same
  obtain ⟨info, laidOut, same⟩ := getElem?_of_lastIndexOf last
  obtain ⟨outcome, returned, result, next, added, outcomeEq, called, reported, nextSound, grows⟩ :=
    World.getFieldValue_spec contract sound found name .null {}
  rw [fieldOutcome, last] at outcomeEq
  dsimp only at outcomeEq
  rw [load_of_getElem? laidOut, Checked.ok_bind] at outcomeEq
  refine ⟨info, List.mem_of_getElem? laidOut, same, result, next, ?_, reported.valueOf outcomeEq,
    nextSound, grows⟩
  rw [World.fieldValue, called]
  rfl

theorem exists_fieldsShow (contract : fileReader.Contract contents) (hashOrder : HashOrder)
    {type : TypeDefinition}
    (shown : ∀ {offset info}, info ∈ layOut offset type.statements → ∀ {world : World σ} {value},
      world.Sound fileReader contents → ValueOf world.objects info.type value →
      ∃ tree after, ObjectTree.Shows fileReader hashOrder tree world value after ∧
        after.Sound fileReader contents ∧ Grows world.objects after.objects)
    {names : List String} (declared : ∀ name ∈ names, name ∈ type.declaredNames) {world : World σ}
    (sound : world.Sound fileReader contents) {id : ObjectId} {object : FileObject}
    (found : world.objects[id]? = some object) (typeEq : object.type = type) :
    ∃ fields after, fields.map Prod.fst = names ∧
      ObjectTree.FieldsShow fileReader hashOrder fields id world after ∧
      after.Sound fileReader contents ∧ Grows world.objects after.objects := by
  induction names generalizing world object with
  | nil => exact ⟨[], world, rfl, rfl, sound, .refl _⟩
  | cons name names inductionHypothesis =>
      rcases List.forall_mem_cons.mp declared with ⟨head, tail⟩
      rw [← typeEq] at head
      obtain ⟨info, laidOut, -, value, middle, asked, valueOf, middleSound, grown⟩ :=
        sound.fieldValue contract found head
      rw [typeEq] at laidOut
      obtain ⟨tree, next, treeShows, nextSound, treeGrows⟩ := shown laidOut middleSound valueOf
      obtain ⟨behind, behindFound, behindType, -⟩ := (grown.trans treeGrows) id object found
      obtain ⟨fields, after, names, fieldsShow, afterSound, fieldsGrow⟩ :=
        inductionHypothesis tail nextSound behindFound (behindType.trans typeEq)
      refine ⟨(name, tree) :: fields, after, ?_,
        ⟨value, middle, next, asked, treeShows, fieldsShow⟩, afterSound,
        (grown.trans treeGrows).trans fieldsGrow⟩
      rw [List.map_cons, names]

/-- Every value of a sound world shows a tree, so the output for it ends. -/
theorem exists_shows (contract : fileReader.Contract contents) (hashOrder : HashOrder)
    (type : TypeInfoBase) {world : World σ} (sound : world.Sound fileReader contents)
    {value : Value} (valueOf : ValueOf world.objects type value) :
    ∃ tree after, ObjectTree.Shows fileReader hashOrder tree world value after ∧
      after.Sound fileReader contents ∧ Grows world.objects after.objects := by
  induction type using TypeInfoBase.induction generalizing world value with
  | integer info =>
      rcases valueOf with rfl | ⟨number, rfl⟩
      · exact ⟨.leaf .null, world, ⟨rfl, rfl⟩, sound, .refl _⟩
      · exact ⟨.leaf (.number number), world, ⟨rfl, rfl⟩, sound, .refl _⟩
  | definition debug name statements inductionHypothesis =>
      obtain ⟨id, object, rfl, found, typeEq⟩ := valueOf
      have objectSound := sound.objects object (List.mem_of_getElem? found)
      have declared : ∀ listed ∈ object.getFieldNames hashOrder,
          listed ∈ (TypeDefinition.mk debug name statements).declaredNames := by
        intro listed membership
        rw [← typeEq]
        exact (objectSound.mem_getFieldNames hashOrder listed).mp membership
      have shown : ∀ {offset info}, info ∈ layOut offset statements → ∀ {world : World σ} {value},
          world.Sound fileReader contents → ValueOf world.objects info.type value →
          ∃ tree after, ObjectTree.Shows fileReader hashOrder tree world value after ∧
            after.Sound fileReader contents ∧ Grows world.objects after.objects := by
        intro offset info laidOut world value sound valueOf
        obtain ⟨place, placed⟩ := List.mem_iff_getElem?.mp laidOut
        obtain ⟨debug, expected, statement⟩ := statement_of_layOut placed
        exact inductionHypothesis _ _ _ _ (List.mem_of_getElem? statement) sound valueOf
      obtain ⟨fields, after, names, fieldsShow, afterSound, grows⟩ :=
        exists_fieldsShow contract hashOrder shown declared sound found typeEq
      exact ⟨.node fields, after, ⟨id, object, rfl, load_of_getElem? found, names, fieldsShow⟩,
        afterSound, grows⟩

namespace ObjectTree

mutual

/-- A tree of a type whose objects have the declared fields in the order of the definition. -/
def InOrder : ObjectTree → TypeInfoBase → Prop
  | .leaf _, .integer _ => True
  | .node fields, .definition type => FieldsInOrder fields type.statements
  | _, _ => False

def FieldsInOrder : List (String × ObjectTree) → List Statement → Prop
  | [], [] => True
  | (name, tree) :: fields, .field (.mk _ declared (some type) _) :: statements =>
      name = declared ∧ InOrder tree type ∧ FieldsInOrder fields statements
  | _, _ => False

end

theorem FieldsInOrder.names {fields : List (String × ObjectTree)} {statements : List Statement}
    (inOrder : FieldsInOrder fields statements) :
    fields.map Prod.fst = declaredNames statements := by
  induction fields generalizing statements with
  | nil =>
      cases statements with
      | nil => rfl
      | cons statement statements => exact inOrder.elim
  | cons field fields inductionHypothesis =>
      rcases statements with _ | ⟨⟨debug, name, _ | type, expected⟩ | _, statements⟩
      · exact inOrder.elim
      · exact inOrder.elim
      · rw [List.map_cons, inductionHypothesis inOrder.2.2, inOrder.1]
        rfl
      · exact inOrder.elim

theorem shows_cases {hashOrder : HashOrder} {tree : ObjectTree} {world after : World σ}
    {value : Value} (shows : Shows fileReader hashOrder tree world value after)
    {type : TypeInfoBase} (valueOf : ValueOf world.objects type value) :
    (∃ scalar info, tree = .leaf scalar ∧ type = .integer info) ∨
      ∃ fields id object, tree = .node fields ∧ value = .object id ∧
        world.objects[id]? = some object ∧ type = .definition object.type := by
  cases tree with
  | leaf scalar =>
      obtain ⟨rfl, -⟩ := shows
      cases type with
      | integer info => exact Or.inl ⟨scalar, info, rfl, rfl⟩
      | definition type =>
          obtain ⟨id, object, same, -⟩ := valueOf
          cases scalar <;> cases same
  | node fields =>
      obtain ⟨id, object, rfl, -⟩ := shows
      cases type with
      | integer info =>
          rcases valueOf with same | ⟨number, same⟩
          · cases same
          · cases same
      | definition type =>
          obtain ⟨_, object, ⟨⟩, found, rfl⟩ := valueOf
          exact Or.inr ⟨fields, id, object, rfl, rfl, found, rfl⟩

theorem shows_node_cases (contract : fileReader.Contract contents) {hashOrder : HashOrder}
    {world after : World σ} (sound : world.Sound fileReader contents)
    {fields : List (String × ObjectTree)} {id : ObjectId}
    (shows : Shows fileReader hashOrder (.node fields) world (.object id) after)
    {object : FileObject} (found : world.objects[id]? = some object)
    (short : object.type.statements.length ≤ 1) :
    (object.type.statements = [] ∧ fields = []) ∨
      ∃ debug name type expected tree value middle,
        object.type.statements = [.field (.mk debug name (some type) expected)] ∧
        fields = [(name, tree)] ∧ ValueOf middle.objects type value ∧
        middle.Sound fileReader contents ∧ Shows fileReader hashOrder tree middle value after := by
  have objectSound := sound.objects object (List.mem_of_getElem? found)
  have wellFormed := objectSound.wellFormed
  obtain ⟨_, stored, ⟨⟩, loaded, names, fieldsShow⟩ := shows
  cases (load_of_getElem? found).symm.trans loaded
  rw [objectSound.getFieldNames_eq hashOrder (wellFormed.length_declaredNames.trans_le short)]
    at names
  rcases typeEq : object.type with ⟨debug, typeName, statements⟩
  rw [typeEq] at names short wellFormed
  rcases statements with _ | ⟨⟨debug, name, _ | type, expected⟩ | _, statements⟩
  · exact Or.inl ⟨rfl, List.map_eq_nil_iff.mp names⟩
  · exact wellFormed.elim
  · cases List.eq_nil_of_length_eq_zero (Nat.le_zero.mp (Nat.le_of_succ_le_succ short))
    obtain ⟨⟨_, tree⟩, rest, rfl, ⟨⟩, restNames⟩ := List.map_eq_cons_iff.mp names
    cases List.map_eq_nil_iff.mp restNames
    have declared : name ∈ object.type.declaredNames := by
      rw [typeEq]
      exact List.mem_cons_self
    obtain ⟨info, laidOut, -, value, middle, asked, valueOf, middleSound, -⟩ :=
      sound.fieldValue contract found declared
    rw [typeEq] at laidOut
    cases List.mem_singleton.mp laidOut
    obtain ⟨_, _, _, askedEq, treeShows, ⟨⟩⟩ := fieldsShow
    cases asked.symm.trans askedEq
    exact Or.inr ⟨debug, name, type, expected, tree, value, middle, rfl, rfl, valueOf, middleSound,
      treeShows⟩
  · exact wellFormed.elim

/-- A tree that a narrow type shows is in order, whatever the order of the table. -/
theorem inOrder_of_narrow (contract : fileReader.Contract contents) {hashOrder : HashOrder}
    {tree : ObjectTree} {world after : World σ} (sound : world.Sound fileReader contents)
    {value : Value} (shows : Shows fileReader hashOrder tree world value after)
    {type : TypeInfoBase} (valueOf : ValueOf world.objects type value) (narrow : type.Narrow) :
    InOrder tree type := by
  induction tree using Outline.induction generalizing world value type with
  | leaf scalar =>
      rcases shows_cases shows valueOf with ⟨_, info, -, rfl⟩ | ⟨_, _, _, ⟨⟩, -⟩
      trivial
  | node fields inductionHypothesis =>
      rcases shows_cases shows valueOf with ⟨_, _, ⟨⟩, -⟩ | ⟨_, id, object, -, rfl, found, rfl⟩
      obtain ⟨short, narrowFields⟩ := TypeDefinition.narrow_iff.mp narrow
      rw [InOrder]
      rcases shows_node_cases contract sound shows found short with
        ⟨empty, rfl⟩ | ⟨debug, name, type, expected, tree, value, middle, single, rfl, fieldValueOf,
          middleSound, treeShows⟩
      · rw [empty]
        trivial
      · rw [single] at narrowFields ⊢
        exact ⟨rfl, inductionHypothesis _ List.mem_cons_self middleSound treeShows fieldValueOf
          narrowFields.1, trivial⟩

/-- A type is narrow when a tree that lists the latest name first is in order. -/
theorem narrow_of_inOrder (contract : fileReader.Contract contents) {tree : ObjectTree}
    {world after : World σ} (sound : world.Sound fileReader contents) {value : Value}
    (shows : Shows fileReader latestFirst tree world value after) {type : TypeInfoBase}
    (valueOf : ValueOf world.objects type value) (inOrder : InOrder tree type) : type.Narrow := by
  induction tree using Outline.induction generalizing world value type with
  | leaf scalar =>
      rcases shows_cases shows valueOf with ⟨_, info, -, rfl⟩ | ⟨_, _, _, ⟨⟩, -⟩
      trivial
  | node fields inductionHypothesis =>
      rcases shows_cases shows valueOf with ⟨_, _, ⟨⟩, -⟩ | ⟨_, id, object, -, rfl, found, rfl⟩
      have objectSound := sound.objects object (List.mem_of_getElem? found)
      rw [InOrder] at inOrder
      have listed : object.getFieldNames latestFirst = object.type.declaredNames := by
        obtain ⟨_, stored, ⟨⟩, loaded, names, -⟩ := shows
        cases (load_of_getElem? found).symm.trans loaded
        rw [← names]
        exact inOrder.names
      have short : object.type.statements.length ≤ 1 := by
        rw [← objectSound.wellFormed.length_declaredNames]
        exact objectSound.length_le_one rfl listed
      apply TypeDefinition.narrow_iff.mpr
      refine ⟨short, ?_⟩
      rcases shows_node_cases contract sound shows found short with
        ⟨empty, rfl⟩ | ⟨debug, name, type, expected, tree, value, middle, single, rfl, fieldValueOf,
          middleSound, treeShows⟩
      · rw [empty]
        trivial
      · rw [single] at inOrder ⊢
        exact ⟨inductionHypothesis _ List.mem_cons_self middleSound treeShows fieldValueOf
          inOrder.2.1, trivial⟩

end ObjectTree

end

/-- For every order of the table, an object of the definition lists the declared names in the
order of the definition, and the output for it is the text of a tree in this order. -/
def TypeDefinition.KeepsOrder (type : TypeDefinition) : Prop :=
  ∀ ⦃σ : Type⦄ ⦃fileReader : FileReader σ⦄ ⦃contents : List UInt8⦄ ⦃world : World σ⦄
    ⦃id : ObjectId⦄ ⦃object : FileObject⦄,
    fileReader.Contract contents → world.Sound fileReader contents →
    world.objects[id]? = some object → object.type = type → ∀ hashOrder,
      object.getFieldNames hashOrder = type.declaredNames ∧
      ∃ fields after,
        ObjectTree.Shows fileReader hashOrder (.node fields) world (.object id) after ∧
        ObjectTree.InOrder (.node fields) (.definition type) ∧
        ∀ formatDouble opts fuel os, Outline.childrenLevels fields ≤ fuel →
          World.dumpJsonObject fileReader hashOrder opts
              (World.dumpJsonValue fileReader hashOrder formatDouble opts fuel) os world id 0 =
            .ok (os ++ ObjectTree.text formatDouble opts 0 (.node fields) 0, after)

def parsedWorld (contents : List UInt8) (type : TypeDefinition) :
    World (Fin (contents.length + 1)) where
  reader := { reader := ⟨0, Nat.succ_pos _⟩, used_le := Nat.zero_le _ }
  objects := [.parse type .zero]

theorem parsedWorld_sound (contents : List UInt8) {type : TypeDefinition}
    (wellFormed : type.WellFormed) :
    (parsedWorld contents type).Sound (memoryFileReader contents) contents where
  reader := (BufferedFileReader.tracks_start _ (fun _ => 0) rfl).usable
  objects := by
    intro object membership
    rw [List.mem_singleton.mp membership]
    exact FileObject.parse_sound wellFormed .zero

/-- A definition keeps its order exactly when neither it nor a definition in it has two fields. -/
theorem TypeDefinition.keepsOrder_iff {type : TypeDefinition} (wellFormed : type.WellFormed) :
    type.KeepsOrder ↔ type.Narrow := by
  constructor
  · intro keeps
    have sound := parsedWorld_sound [] wellFormed
    have found : (parsedWorld [] type).objects[0]? = some (.parse type .zero) := rfl
    obtain ⟨-, fields, after, shows, inOrder, -⟩ :=
      keeps (memoryFileReader_contract []) sound found rfl latestFirst
    have valueOf : ValueOf (parsedWorld [] type).objects (.definition type) (.object 0) :=
      ⟨0, _, rfl, found, rfl⟩
    exact ObjectTree.narrow_of_inOrder (memoryFileReader_contract []) sound shows valueOf inOrder
  · rintro narrow σ fileReader contents world id object contract sound found rfl hashOrder
    have objectSound := sound.objects object (List.mem_of_getElem? found)
    have valueOf : ValueOf world.objects (.definition object.type) (.object id) :=
      ⟨id, object, rfl, found, rfl⟩
    have short : object.type.declaredNames.length ≤ 1 :=
      wellFormed.length_declaredNames.trans_le (narrow_iff.mp narrow).1
    obtain ⟨tree, after, shows, -, -⟩ := exists_shows contract hashOrder _ sound valueOf
    have inOrder := ObjectTree.inOrder_of_narrow contract sound shows valueOf narrow
    rcases tree with scalar | fields
    · exact inOrder.elim
    · refine ⟨objectSound.getFieldNames_eq hashOrder short, fields, after, shows, inOrder, ?_⟩
      intro formatDouble opts fuel os enough
      exact ObjectTree.dumpJsonObject_shows shows enough os

def boxed : TypeDefinition :=
  .mk {} "box" [.field (.mk {} "x" (some (.definition (.mk {} "byte" [.field (.mk {} "y"
    (some (.builtIn "uint8" 8 .unsigned)) none)]))) none)]

theorem TypeDefinition.keepsOrder_boxed : boxed.KeepsOrder := by
  have readable : (TypeInfoBase.builtIn "uint8" 8 .unsigned).WellFormed :=
    show 1 ≤ 8 ∧ 8 ≤ 64 by decide
  have wellFormed : boxed.WellFormed := ⟨⟨readable, trivial⟩, trivial⟩
  have narrow : boxed.Narrow := ⟨le_rfl, ⟨le_rfl, trivial, trivial⟩, trivial⟩
  exact (keepsOrder_iff wellFormed).mpr narrow

def pair : TypeDefinition :=
  .mk {} "pair" [.field (.mk {} "a" (some (.builtIn "uint8" 8 .unsigned)) none),
    .field (.mk {} "b" (some (.builtIn "uint8" 8 .unsigned)) none)]

/-- The field that is assigned last may be listed first. -/
theorem TypeDefinition.not_keepsOrder :
    pair.WellFormed ∧ pair.declaredNames = ["a", "b"] ∧
      (FileObject.parse pair .zero).getFieldNames latestFirst = ["b", "a"] ∧
      (∃ after, World.dumpJsonObject (memoryFileReader [1, 2]) latestFirst { pretty := false }
        (World.dumpJsonValue (memoryFileReader [1, 2]) latestFirst (fun _ => "")
          { pretty := false } 1) [] (parsedWorld [1, 2] pair) 0 0 =
            .ok (written "\x7b\"b\":2,\"a\":1\x7d", after)) ∧
      ¬pair.KeepsOrder := by
  have readable : (TypeInfoBase.builtIn "uint8" 8 .unsigned).WellFormed :=
    show 1 ≤ 8 ∧ 8 ≤ 64 by decide
  have wellFormed : pair.WellFormed := ⟨readable, readable, trivial⟩
  refine ⟨wellFormed, rfl, rfl, ⟨_, rfl⟩, ?_⟩
  intro keeps
  have found : (parsedWorld [] pair).objects[0]? = some (.parse pair .zero) := rfl
  obtain ⟨listed, -⟩ :=
    keeps (memoryFileReader_contract []) (parsedWorld_sound [] wellFormed) found rfl latestFirst
  exact absurd listed (by decide)

end BinaryReader

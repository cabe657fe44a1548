import BinaryReader.Ast.IntegerTypeInfo

/-!
# File objects

An object knows its type and where it starts, and caches the values of its
fields.  A parent and its children share one buffered reader, so the state of a
run is a `World`: the reader and all objects made so far.  An object is only
made for a type here; one made of test fields has the value of every field cached.
-/

namespace BinaryReader

structure ParsedFieldInfo where
  name : String
  type : TypeInfoBase
  offset : Size
  value : Option Value := none

/-- `FileObject::Impl`. A later entry of the name map replaces an earlier one. -/
structure FileObject where
  type : TypeDefinition
  startPosition : Size
  parsedFields : List ParsedFieldInfo := []
  fieldNameMap : List (String × Nat) := []

/-- The order in which a hash table lists its entries. -/
structure HashOrder where
  entries : List (String × Nat) → List (String × Nat)
  perm : ∀ map, (entries map).Perm map

structure World (σ : Type) where
  reader : BufferedFileReader σ
  objects : List FileObject := []

namespace FileObject

def assign (map : List (String × Nat)) (name : String) (index : Nat) : List (String × Nat) :=
  (name, index) :: map.filter fun entry => entry.1 ≠ name

def reparseLoop : List Statement → (offset : Size) → FileObject → ErrorCollection →
    Checked (Bool × FileObject × ErrorCollection)
  | [], _, self, errors => .ok (true, self, errors)
  | .definition _ :: _, _, self, errors =>
      .ok (false, self, errors.add (.ofKind {} .unknown 0))
  | .field field :: statements, offset, self, errors => do
      let type ← deref field.type
      let parsed := { self with
        parsedFields := self.parsedFields ++ [{ name := field.name, type, offset }]
        fieldNameMap := assign self.fieldNameMap field.name self.parsedFields.length }
      match type.staticSize with
      | none => return (false, parsed, errors.add (.ofKind type.debug .fieldsMustBeStatic 0))
      | some size => reparseLoop statements (offset.addAssign size) parsed errors

def reparseObject (self : FileObject) (errors : ErrorCollection) :
    Checked (Bool × FileObject × ErrorCollection) :=
  reparseLoop self.type.statements self.startPosition
    { self with parsedFields := [], fieldNameMap := [] } errors

def getFieldNames (hashOrder : HashOrder) (self : FileObject) : List String :=
  (hashOrder.entries self.fieldNameMap).map Prod.fst

def hasField (self : FileObject) (name : String) : Bool := (self.fieldNameMap.lookup name).isSome

def clearCache (self : FileObject) : FileObject :=
  { self with parsedFields := self.parsedFields.map fun info => { info with value := none } }

def cache (self : FileObject) (index : Nat) (value : Value) : FileObject :=
  { self with
    parsedFields := self.parsedFields.modify index fun info => { info with value := some value } }

end FileObject

namespace World

variable {σ : Type} (fileReader : FileReader σ)

/-- `TypeDefinition::ReadValue`. -/
def readObject (type : TypeDefinition) (self : World σ) (result : Value)
    (errors : ErrorCollection) : Checked (Bool × Value × World σ × ErrorCollection) := do
  let startPosition := self.reader.position
  let (reparsed, object, errors) ←
    FileObject.reparseObject { type, startPosition } errors
  if !reparsed then
    return (false, result, self, errors)
  else
    let size ← deref type.staticSize
    let (sought, reader, errors) := self.reader.seek fileReader (startPosition + size) errors
    return (sought, .object self.objects.length,
      { reader, objects := self.objects ++ [object] }, errors)

/-- `TypeInfoBase::ReadValue`. -/
def readValue (self : World σ) (result : Value) (errors : ErrorCollection) :
    TypeInfoBase → Checked (Bool × Value × World σ × ErrorCollection)
  | .integer info => do
      let (read, value, reader, errors) ← info.readValue fileReader self.reader result errors
      return (read, value, { self with reader }, errors)
  | .definition info => readObject fileReader info self result errors

def ensureField (self : World σ) (id : ObjectId) (index : Nat) (errors : ErrorCollection) :
    Checked (Bool × World σ × ErrorCollection) := do
  let object ← load self.objects id
  let info ← load object.parsedFields index
  if info.value.isSome then
    return (true, self, errors)
  else
    let (sought, reader, errors) := self.reader.seek fileReader info.offset errors
    if !sought then
      return (false, { self with reader }, errors)
    else
      let (read, value, self, errors) ←
        readValue fileReader { self with reader } .null errors info.type
      if !read then
        return (false, self, errors)
      else
        return (true,
          { self with objects := self.objects.modify id fun object => object.cache index value },
          errors)

def getFieldValue (self : World σ) (id : ObjectId) (name : String) (value : Value)
    (errors : ErrorCollection) : Checked (Bool × Value × World σ × ErrorCollection) := do
  let object ← load self.objects id
  match object.fieldNameMap.lookup name with
  | none => return (true, .null, self, errors)
  | some index =>
      let (ensured, self, errors) ← ensureField fileReader self id index errors
      if !ensured then
        return (false, value, self, errors)
      else
        let object ← load self.objects id
        let info ← load object.parsedFields index
        return (true, ← deref info.value, self, errors)

/-- `GetFieldValue(name)`, which drops the errors. -/
def fieldValue (self : World σ) (id : ObjectId) (name : String) : Checked (Value × World σ) := do
  let (_, value, self, _) ← self.getFieldValue fileReader id name .null {}
  return (value, self)

def reparseObject (self : World σ) (id : ObjectId) (errors : ErrorCollection) :
    Checked (Bool × World σ × ErrorCollection) := do
  let object ← load self.objects id
  let (reparsed, object, errors) ← object.reparseObject errors
  return (reparsed, { self with objects := self.objects.set id object }, errors)

def clearCache (self : World σ) (id : ObjectId) : World σ :=
  { self with objects := self.objects.modify id FileObject.clearCache }

end World

end BinaryReader

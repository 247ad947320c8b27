import ContractDoc.DataModel.Basic
import ContractDoc.Vocabulary
import ContractDoc.Xml.Value
import ContractDoc.Xml.Walk

/-! # Reading data models

Every entity, token and enumeration below a data model section is a data type, at any depth. A
later declaration of an id replaces an earlier one. The parts of a declaration are taken in one
after the other, so of parts that may stand once the last one counts, and each has to be valid.
-/

namespace ContractDoc.DataModel

open Xml (Element)

/-- The name of a declaration without blanks; empty, if it has none. -/
def declaredName (declaration : Element) : String :=
  ((declaration.childText? Tag.name).map Text.strip).getD ""

def declaredId (declaration : Element) : Except DocumentError String :=
  declaration.requireText Tag.id (.dataTypeWithoutId declaration.name)

namespace ScalarType

/-- The type that a word names; no other word will do. -/
def ofLiteral (literal : String) : Except DocumentError ScalarType :=
  match ofLiteral? literal with
  | some type => .ok type
  | none => .error (.unrecognizedDataType literal)

/-- The type that the trimmed character data of an element names. -/
def ofXml (element : Element) : Except DocumentError ScalarType :=
  ofLiteral (Text.trim element.text)

end ScalarType

namespace Property

def ofId (id : String) : Property :=
  { id
    name := ""
    isMandatory := false
    kind := .primitive
    dataType := none
    keyDataType := none
    referencedDataType := none }

def add (property : Property) (child : Element) : Except DocumentError Property :=
  if child.name = Tag.name then .ok { property with name := Text.strip child.text }
  else if child.name = Tag.isMandatory then do
    let isMandatory ← child.boolValue
    return { property with isMandatory }
  else if child.name = Tag.propertyType then do
    let kind ← child.parseText Keyword.ofText? "property type"
    return { property with kind }
  else if child.name = Tag.dataType then do
    let type ← ScalarType.ofXml child
    return { property with dataType := some type }
  else if child.name = Tag.keyDataType then do
    let type ← ScalarType.ofXml child
    return { property with keyDataType := some type }
  else if child.name = Tag.entityId then
    .ok { property with referencedDataType := some child.text }
  else .ok property

def ofXml (declaration : Element) : Except DocumentError Property := do
  let id ← declaration.requireText Tag.id .propertyWithoutId
  declaration.children.foldlM add (ofId id)

/-- Adds the properties that are not there yet, in order. -/
def union (properties more : List Property) : List Property :=
  more.foldl (fun all property => if property ∈ all then all else all ++ [property]) properties

end Property

namespace Entity

/-- Takes in one child of an entity declaration. Every child of a property list is a property. -/
def add (entity : Entity) (child : Element) : Except DocumentError Entity :=
  if child.name = Tag.isRootEntity then do
    let isRoot ← child.boolValue
    return { entity with isRoot }
  else if child.name = Tag.primitiveProperties ∨ child.name = Tag.referenceProperties then do
    let more ← child.children.mapM Property.ofXml
    return { entity with properties := Property.union entity.properties more }
  else .ok entity

def ofXml (declaration : Element) : Except DocumentError Entity := do
  let id ← declaredId declaration
  declaration.children.foldlM add
    { id, name := declaredName declaration, isRoot := false, properties := [] }

end Entity

namespace Token

def add (token : Token) (element : Element) : Except DocumentError Token :=
  if element.name = Tag.primitiveProperty ∨ element.name = Tag.referenceProperty then do
    let property ← Property.ofXml element
    return { token with properties := token.properties ++ [property] }
  else if element.name = Tag.symbol then .ok { token with symbol := some element.text }
  else if element.name = Tag.address then .ok { token with address := some element.text }
  else if element.name = Tag.isFungible then do
    let isFungible ← element.boolValue
    return { token with isFungible }
  else if element.name = Tag.isIssued then do
    let isIssued ← element.boolValue
    return { token with isIssued }
  else if element.name = Tag.mintScript then .ok { token with mintScript := some element.text }
  else if element.name = Tag.transferScript then
    .ok { token with transferScript := some element.text }
  else .ok token

/-- Reads a token, whose parts may stand at any depth. -/
def ofXml (declaration : Element) : Except DocumentError Token := do
  let id ← declaredId declaration
  declaration.descendants.foldlM add
    { id
      name := declaredName declaration
      symbol := none
      isFungible := false
      isIssued := false
      address := none
      mintScript := none
      transferScript := none
      properties := [] }

end Token

/-- Reads an enumeration. Of several lists of values the last one counts. -/
def Enumeration.ofXml (declaration : Element) : Except DocumentError Enumeration := do
  let id ← declaredId declaration
  let values := match (declaration.childrenNamed Tag.enumValues).getLast? with
    | some list => (list.childrenNamed Tag.enumValue).map Element.text
    | none => []
  return { id, name := declaredName declaration, values }

namespace DataType

/-- Reads the data type that an element declares, if it declares one. -/
def ofXml? (element : Element) : Except DocumentError (Option DataType) :=
  if element.name = Tag.entity then (some ∘ entity) <$> Entity.ofXml element
  else if element.name = Tag.token then (some ∘ token) <$> Token.ofXml element
  else if element.name = Tag.enumeration then (some ∘ enumeration) <$> Enumeration.ofXml element
  else .ok none

end DataType

def addDeclaration (types : Registry DataType) (element : Element) :
    Except DocumentError (Registry DataType) := do
  match ← DataType.ofXml? element with
  | some type => return types.insert type.id type
  | none => return types

def ofXml (declaration : Element) : Except DocumentError (Registry DataType) :=
  declaration.descendants.foldlM addDeclaration .empty

end ContractDoc.DataModel

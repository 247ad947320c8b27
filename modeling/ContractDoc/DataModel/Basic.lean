import ContractDoc.Keyword
import ContractDoc.Registry
import ContractDoc.Text.Case

/-! # Data models

A data model declares entities, tokens and enumerations under their ids. Entities and tokens have
typed properties; properties that refer to other data types name them by id.
-/

namespace ContractDoc.DataModel

/-- Whether a property holds a value of its own or refers to another data type. -/
inductive PropertyKind
  | primitive
  | reference
  deriving DecidableEq, Repr

instance : Keyword PropertyKind where
  values := [.primitive, .reference]
  word
    | .primitive => "Primitive"
    | .reference => "Reference"

inductive ScalarType
  | int
  | uint
  | bool
  | string
  | reference
  | address
  | addressPayable
  | dateTime
  deriving DecidableEq, Repr

namespace ScalarType

def label : ScalarType → String
  | int => "Int"
  | uint => "Uint"
  | bool => "Bool"
  | string => "String"
  | reference => "Reference"
  | address => "Address"
  | addressPayable => "AddressPayable"
  | dateTime => "DateTime"

/-- Documents name a type by one of these words, in any case. -/
instance : Keyword ScalarType where
  values := [.int, .uint, .bool, .string, .reference, .address, .addressPayable, .dateTime]
  word
    | int => "number"
    | uint => "positivenumber"
    | bool => "bool"
    | string => "text"
    | reference => "reference"
    | address => "address"
    | addressPayable => "addresspayable"
    | dateTime => "datetime"

def ofLiteral? (literal : String) : Option ScalarType := Keyword.ofWord? (Text.lower literal)

end ScalarType

structure Property where
  id : String
  name : String
  isMandatory : Bool
  kind : PropertyKind
  dataType : Option ScalarType
  keyDataType : Option ScalarType
  referencedDataType : Option String
  deriving DecidableEq, Repr

structure Entity where
  id : String
  name : String
  isRoot : Bool
  properties : List Property
  deriving DecidableEq, Repr

/-- An asset that a contract defines, or uses if an address is given. -/
structure Token where
  id : String
  name : String
  symbol : Option String
  isFungible : Bool
  isIssued : Bool
  address : Option String
  mintScript : Option String
  transferScript : Option String
  properties : List Property
  deriving DecidableEq, Repr

/-- An enumeration, whose values are numbered by their order. -/
structure Enumeration where
  id : String
  name : String
  values : List String
  deriving DecidableEq, Repr

inductive DataType
  | entity (entity : Entity)
  | token (token : Token)
  | enumeration (enumeration : Enumeration)
  deriving DecidableEq, Repr

namespace DataType

def id : DataType → String
  | entity e => e.id
  | token t => t.id
  | enumeration e => e.id

def name : DataType → String
  | entity e => e.name
  | token t => t.name
  | enumeration e => e.name

/-- The properties of an entity or a token; an enumeration has none. -/
def properties : DataType → List Property
  | entity e => e.properties
  | token t => t.properties
  | enumeration _ => []

def label : DataType → String
  | entity _ => "Entity"
  | token _ => "Token"
  | enumeration _ => "Enum"

end DataType
end ContractDoc.DataModel

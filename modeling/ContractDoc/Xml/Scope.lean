import ContractDoc.Xml.Attribute

/-! # Namespace scopes

A scope binds prefixes to namespace names. The declarations of a tag extend the scope of the
element around it, and the binding declared last, counted from the outside in, is the one in force.
-/

namespace ContractDoc.Xml

open Text

/-- The bindings in force at a place of a document, the last declared one first. -/
structure Scope where
  bindings : List (List Char × List Char)
  deriving DecidableEq, Repr

def xmlUri : String := "http://www.w3.org/XML/1998/namespace"

def xmlnsUri : String := "http://www.w3.org/2000/xmlns/"

def declarationWord : List Char := ['x', 'm', 'l', 'n', 's']

/-- The prefix of a raw name, if it has a colon, and the local name. The first colon counts. -/
def splitName (raw : List Char) : Option (List Char) × List Char :=
  match upToMark? [':'] raw with
  | some (before, after) => (some before, after)
  | none => (none, raw)

def localName (raw : List Char) : List Char := (splitName raw).2

namespace Scope

/-- The scope outside the root element: only the two reserved prefixes are bound. -/
def reserved : Scope :=
  ⟨[(['x', 'm', 'l'], xmlUri.toList), (declarationWord, xmlnsUri.toList)]⟩

/-- The prefix that an attribute key declares, if it has the form `xmlns:p`. -/
def declared? (key : List Char) : Option (List Char) :=
  match splitName key with
  | (some before, after) => if before = declarationWord then some after else none
  | (none, _) => none

/-- Whether a prefix may be bound to a namespace name: `xml` to its own only, `xmlns` to none, and
no other prefix to one of these two names. -/
def admits (bound uri : List Char) : Bool :=
  if bound = ['x', 'm', 'l'] then uri = xmlUri.toList
  else bound ≠ declarationWord && uri ≠ xmlUri.toList && uri ≠ xmlnsUri.toList

/-- Adds what one attribute declares. An attribute without a value declares nothing. -/
def declareOne (scope : Scope) (raw : RawAttribute) : Except Fault Scope :=
  match declared? raw.key, raw.value with
  | some bound, .ok uri =>
      if admits bound uri then .ok ⟨(bound, uri) :: scope.bindings⟩
      else .error (.reservedBinding bound uri)
  | _, _ => .ok scope

/-- Adds what the attributes of a tag declare. Values count as written, references included. -/
def declare (scope : Scope) (attributes : List RawAttribute) : Except Fault Scope :=
  attributes.foldlM declareOne scope

/-- The namespace name bound to a prefix. The empty prefix is never bound, and an empty name
unbinds. -/
def resolve? (scope : Scope) (bound : List Char) : Option (List Char) :=
  if bound.isEmpty then none
  else
    match scope.bindings.lookup bound with
    | some uri => if uri.isEmpty then none else some uri
    | none => none

/-- The namespace of an attribute with the given key. One without a prefix has none. -/
def namespaceOf? (scope : Scope) (key : List Char) : Option (List Char) :=
  (splitName key).1.bind scope.resolve?

end Scope
end ContractDoc.Xml

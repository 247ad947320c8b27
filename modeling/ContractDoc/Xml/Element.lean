/-! # Element trees

An element has a local name, attributes with their namespaces, child elements, its own character
data, and the line its tag begins on. Names are matched without prefixes.
-/

namespace ContractDoc.Xml

structure Attribute where
  uri : Option String
  name : String
  value : String
  deriving DecidableEq, Repr

structure Element where
  name : String
  attributes : List Attribute
  children : List Element
  text : String
  line : UInt32
  deriving Repr

namespace Element

def decEq : (a b : Element) → Decidable (a = b)
  | ⟨name, attributes, children, text, line⟩, ⟨name', attributes', children', text', line'⟩ =>
      have : Decidable (children = children') := decEqAll children children'
      decidable_of_iff (name = name' ∧ attributes = attributes' ∧ children = children' ∧
        text = text' ∧ line = line') (by simp)
where
  decEqAll : (as bs : List Element) → Decidable (as = bs)
    | [], [] => .isTrue rfl
    | [], _ :: _ | _ :: _, [] => .isFalse nofun
    | a :: as, b :: bs =>
        have : Decidable (a = b) := decEq a b
        have : Decidable (as = bs) := decEqAll as bs
        decidable_of_iff (a = b ∧ as = bs) (by simp)

instance : DecidableEq Element := decEq

def childrenNamed (element : Element) (name : String) : List Element :=
  element.children.filter fun child => child.name == name

def child? (element : Element) (name : String) : Option Element :=
  element.children.find? fun child => child.name == name

def childText? (element : Element) (name : String) : Option String :=
  (element.child? name).map text

/-- The value of the first attribute with the given namespace, or none, and local name. -/
def attribute? (element : Element) (uri : Option String) (name : String) : Option String :=
  (element.attributes.find? fun a => a.name == name && a.uri == uri).map Attribute.value

def size : Element → Nat
  | ⟨_, _, children, _, _⟩ => 1 + sizeAll children
where
  sizeAll : List Element → Nat
    | [] => 0
    | e :: es => size e + sizeAll es

end Element
end ContractDoc.Xml

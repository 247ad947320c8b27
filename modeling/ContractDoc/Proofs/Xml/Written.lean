import ContractDoc.Proofs.Xml.Grammar
import ContractDoc.Proofs.Xml.Shape

/-! # Documents as they are written

A written document is an element tree together with every choice that the notation leaves open:
white space in tags, quotes, references, empty tags, and what stands between the elements. Nothing
that cannot be written is a value of these types.
-/

namespace ContractDoc.Xml

namespace Written

structure Space where
  chars : List Char
  isSpace : ∀ c ∈ chars, isSpace c = true

namespace Space

def blank : Space := ⟨[' '], by decide⟩

def nothing : Space := ⟨[], by decide⟩

end Space

inductive Quote
  | single
  | double
  deriving DecidableEq, Repr

def Quote.char : Quote → Char
  | single => '\''
  | double => '"'

/-- A character of a text that `stop` would end: as it is, or as a reference. -/
inductive Glyph (stop : Char)
  | raw (c : Char) (plain : c ≠ '&' ∧ c ≠ stop)
  | reference (body : List Char) (c : Char) (stands : Reference.StandsFor body c)

namespace Glyph

variable {stop : Char}

def char : Glyph stop → Char
  | raw c _ => c
  | reference _ c _ => c

def source : Glyph stop → List Char
  | raw c _ => [c]
  | reference body _ _ => '&' :: (body ++ [';'])

end Glyph

def isKeyChar (c : Char) : Bool := !(isSpace c || c ∈ ['"', '\'', '<', '>', '/', '='])

def isWordChar (c : Char) : Bool := isKeyChar c && c ∉ [':', '&']

/-- A name without a colon. -/
structure Word where
  chars : List Char
  nonempty : chars ≠ []
  isWordChar : ∀ c ∈ chars, isWordChar c = true
  head : ∀ c ∈ chars.head?, c ≠ '!' ∧ c ≠ '?'

/-- The name of an element, with a prefix or without. -/
structure Name where
  qualifier : Option Word
  base : Word

def Name.chars (name : Name) : List Char :=
  match name.qualifier with
  | none => name.base.chars
  | some word => word.chars ++ ':' :: name.base.chars

structure Key where
  chars : List Char
  nonempty : chars ≠ []
  isKeyChar : ∀ c ∈ chars, isKeyChar c = true

structure Attribute where
  gap : Space
  gapNonempty : gap.chars ≠ []
  key : Key
  before : Space
  after : Space
  quote : Quote
  value : List (Glyph quote.char)

namespace Attribute

def source (attr : Attribute) : List Char := attr.value.flatMap Glyph.source

def chars (attr : Attribute) : List Char :=
  attr.gap.chars ++ (attr.key.chars ++ (attr.before.chars ++ '=' ::
    (attr.after.chars ++ attr.quote.char :: (attr.source ++ [attr.quote.char]))))

/-- What the attribute means in a scope. -/
def resolved (scope : Scope) (attr : Attribute) : Xml.Attribute where
  uri := (scope.namespaceOf? attr.key.chars).map String.ofList
  name := String.ofList (localName attr.key.chars)
  value := String.ofList (attr.value.map Glyph.char)

/-- What the attribute means if its key has no prefix. -/
def plain (attr : Attribute) : Xml.Attribute where
  uri := none
  name := String.ofList attr.key.chars
  value := String.ofList (attr.value.map Glyph.char)

/-- The prefix that the attribute binds, if it binds one, with its namespace name. -/
def binding? (attr : Attribute) : Option (List Char × List Char) :=
  (Scope.declared? attr.key.chars).map fun bound => (bound, attr.source)

end Attribute

/-- A start tag or an empty tag, without the characters that open and close it. -/
structure Tag where
  name : Name
  attributes : List Attribute
  space : Space

namespace Tag

def content (tag : Tag) : List Char :=
  tag.name.chars ++ (tag.attributes.flatMap Attribute.chars ++ tag.space.chars)

def scopeIn (scope : Scope) (tag : Tag) : Scope :=
  ⟨(tag.attributes.filterMap Attribute.binding?).reverse ++ scope.bindings⟩

/-- The element that the tag begins in a scope. Its line is left open. -/
def element (scope : Scope) (tag : Tag) (text : List Char) (children : List Element) :
    Element where
  name := String.ofList tag.name.base.chars
  attributes := tag.attributes.map (Attribute.resolved (tag.scopeIn scope))
  children := children
  text := String.ofList text
  line := 0

/-- The element that the tag begins when its attributes mean what their keys and values say. -/
def plainElement (tag : Tag) (text : List Char) (children : List Element) : Element where
  name := String.ofList tag.name.base.chars
  attributes := tag.attributes.map Attribute.plain
  children := children
  text := String.ofList text
  line := 0

/-- No key stands twice, and no reserved prefix or namespace is bound. -/
structure Sound (tag : Tag) : Prop where
  distinct : (tag.attributes.map fun attr => attr.key.chars).Nodup
  admitted : ∀ attr ∈ tag.attributes, ∀ binding ∈ attr.binding?,
    Scope.admits binding.1 binding.2 = true

end Tag

/-- A part of the content of an element. -/
inductive Item
  | text (run : List (Glyph '<'))
  | cdata (content : List Char) (complete : (Token.cdata content).Complete)
  | remark (token : Token) (isRemark : token.IsRemark) (complete : token.Complete)
  | empty (tag : Tag)
  | element (tag : Tag) (items : List Item) (stop : Space)

namespace Item

def tokens : Item → List Token
  | text run => [.text (run.flatMap Glyph.source)]
  | cdata content _ => [.cdata content]
  | remark token _ _ => [token]
  | empty tag => [.emptyTag tag.content]
  | element tag items stop =>
      .startTag tag.content :: (tokensAll items ++ [.endTag (tag.name.chars ++ stop.chars)])
where
  tokensAll : List Item → List Token
    | [] => []
    | item :: items => item.tokens ++ tokensAll items

def tags : Item → List Tag
  | empty tag => [tag]
  | element tag items _ => tag :: tagsAll items
  | _ => []
where
  tagsAll : List Item → List Tag
    | [] => []
    | item :: items => item.tags ++ tagsAll items

/-- How many elements stand in each other. -/
def height : Item → Nat
  | empty _ => 1
  | element _ items _ => 1 + heightAll items
  | _ => 0
where
  heightAll : List Item → Nat
    | [] => 0
    | item :: items => max item.height (heightAll items)

/-- The character data that the item adds to the element around it. -/
def chars : Item → List Char
  | text run => run.map Glyph.char
  | cdata content _ => content
  | _ => []

/-- The element that the item is, if it is one. -/
def elements (scope : Scope) : Item → List Element
  | empty tag => [tag.element scope [] []]
  | element tag items _ =>
      [tag.element scope (items.flatMap chars) (elementsAll (tag.scopeIn scope) items)]
  | _ => []
where
  elementsAll (scope : Scope) : List Item → List Element
    | [] => []
    | item :: items => item.elements scope ++ elementsAll scope items

def plainElements : Item → List Element
  | empty tag => [tag.plainElement [] []]
  | element tag items _ => [tag.plainElement (items.flatMap chars) (plainElementsAll items)]
  | _ => []
where
  plainElementsAll : List Item → List Element
    | [] => []
    | item :: items => item.plainElements ++ plainElementsAll items

def IsElement : Item → Prop
  | empty _ | element _ _ _ => True
  | _ => False

theorem elements_ne_nil {item : Item} (h : item.IsElement) (scope : Scope) :
    item.elements scope ≠ [] := by
  cases item <;> first | exact h.elim | simp [elements]

theorem plainElements_ne_nil {item : Item} (h : item.IsElement) : item.plainElements ≠ [] := by
  cases item <;> first | exact h.elim | simp [plainElements]

end Item

structure Document where
  prolog : List Token
  root : Item
  epilog : List Token
  isElement : root.IsElement
  isOuter : ∀ token ∈ prolog ++ epilog, token.IsOuter ∧ token.Complete

namespace Document

def tokens (document : Document) : List Token :=
  document.prolog ++ document.root.tokens ++ document.epilog

def text (document : Document) : String :=
  String.ofList (document.tokens.flatMap Token.source)

def tree (document : Document) : Element :=
  (document.root.elements .reserved).head (Item.elements_ne_nil document.isElement _)

/-- The tree that the document stands for if no attribute has a prefix. -/
def plainTree (document : Document) : Element :=
  document.root.plainElements.head (Item.plainElements_ne_nil document.isElement)

end Document

end Written

/-- The tree with every line set to zero. -/
def Element.withoutLines : Element → Element
  | ⟨name, attributes, children, text, _⟩ =>
      ⟨name, attributes, withoutLinesAll children, text, 0⟩
where
  withoutLinesAll : List Element → List Element
    | [] => []
    | e :: es => e.withoutLines :: withoutLinesAll es

end ContractDoc.Xml

import ContractDoc.Error
import ContractDoc.Xml.Element
import ContractDoc.Xml.Lexeme
import ContractDoc.Xml.Reader
import ContractDoc.Xml.Reference

/-! # Documents

A document is one element tree. It is built in a loop over the events of a reader, with a stack of
the elements that are still open: a start tag opens an element, character data goes to the
innermost one, and an end tag hands the innermost one to its parent. This stack is not the one of
the reader, which has checked the names of end tags before.
-/

namespace ContractDoc.Xml

/-- How many elements may contain each other, the innermost one included. -/
def maxDepth : Nat := 512

/-- The attributes of a tag as they are resolved one after the other, the last one first, beside
the raw attributes they come from. -/
structure AttributeList where
  earlier : List RawAttribute
  resolved : List Attribute

namespace AttributeList

/-- Adds an attribute. Its key must be new, then it must have a value, and then the references in
the value must stand for characters. -/
def add (scope : Scope) (attributes : AttributeList) (raw : RawAttribute) :
    Except Fault AttributeList :=
  match attributes.earlier.find? fun a => a.key == raw.key with
  | some first => .error (.badAttribute ⟨raw.position, .duplicated first.position⟩)
  | none =>
      match raw.value with
      | .error fault => .error (.badAttribute fault)
      | .ok text =>
          match Reference.decode text with
          | .error fault => .error (.badReference fault)
          | .ok value =>
              .ok
                { earlier := raw :: attributes.earlier
                  resolved :=
                    { uri := (scope.namespaceOf? raw.key).map String.ofList
                      name := String.ofList (localName raw.key)
                      value := String.ofList value } :: attributes.resolved }

end AttributeList

def RawTag.resolve (tag : RawTag) (scope : Scope) : Except Fault (List Attribute) := do
  let attributes ← tag.attributes.foldlM (AttributeList.add scope) ⟨[], []⟩
  match tag.fault? with
  | some fault => .error (.badAttribute fault)
  | none => .ok attributes.resolved.reverse

/-- An element whose end tag has not been met. Its children so far are kept with the last one
first. -/
structure UnclosedElement where
  name : String
  attributes : List Attribute
  children : List Element
  text : String
  line : UInt32

namespace UnclosedElement

def ofTag (tag : RawTag) (scope : Scope) (line : UInt32) :
    Except DocumentError UnclosedElement := do
  let attributes ← (tag.resolve scope).mapError fun fault => .malformed fault line
  let name := String.ofList (localName tag.name)
  return { name, attributes, children := [], text := "", line }

def close (element : UnclosedElement) : Element :=
  { name := element.name
    attributes := element.attributes
    children := element.children.reverse
    text := element.text
    line := element.line }

def addText (element : UnclosedElement) (text : List Char) : UnclosedElement :=
  { element with text := element.text ++ String.ofList text }

def addChild (element : UnclosedElement) (child : Element) : UnclosedElement :=
  { element with children := child :: element.children }

end UnclosedElement

/-- The elements still open, the innermost one first, and the root once it is closed. -/
structure Assembly where
  opened : List UnclosedElement
  root : Option Element

namespace Assembly

def empty : Assembly := ⟨[], none⟩

def checkDepth (assembly : Assembly) (line : UInt32) : Except DocumentError Unit :=
  if maxDepth ≤ assembly.opened.length then .error (.invalid (.tooDeep maxDepth) (some line))
  else .ok ()

/-- Hands a finished element to the innermost open one, or makes it the root. -/
def attach (assembly : Assembly) (element : Element) : Except DocumentError Assembly :=
  match assembly.opened with
  | parent :: outer => .ok { assembly with opened := parent.addChild element :: outer }
  | [] =>
      match assembly.root with
      | none => .ok { assembly with root := some element }
      | some _ => .error (.invalid (.secondRoot element.name) (some element.line))

/-- Adds characters to the innermost open element. Outside the root they do not count. -/
def addText (assembly : Assembly) (text : List Char) : Assembly :=
  match assembly.opened with
  | [] => assembly
  | innermost :: outer => { assembly with opened := innermost.addText text :: outer }

/-- Takes in the event that was read from a line on. An end without an open element is passed over,
and references outside the root are not looked at. -/
def handle (assembly : Assembly) (event : Event) (line : UInt32) :
    Except DocumentError Assembly :=
  match event with
  | .start tag scope => do
      assembly.checkDepth line
      let element ← UnclosedElement.ofTag tag scope line
      return { assembly with opened := element :: assembly.opened }
  | .empty tag scope => do
      assembly.checkDepth line
      let element ← UnclosedElement.ofTag tag scope line
      assembly.attach element.close
  | .stop =>
      match assembly.opened with
      | [] => .ok assembly
      | innermost :: outer => { assembly with opened := outer }.attach innermost.close
  | .text run =>
      if assembly.opened.isEmpty then .ok assembly
      else
        match Reference.decode run with
        | .error fault => .error (.malformed (.badReference fault) line)
        | .ok text => .ok (assembly.addText text)
  | .cdata content => .ok (assembly.addText content)
  | .remark => .ok assembly

def finish (assembly : Assembly) : Except DocumentError Element :=
  match assembly.opened, assembly.root with
  | innermost :: _, _ => .error (.invalid (.neverClosed innermost.name) (some innermost.line))
  | [], some root => .ok root
  | [], none => .error (.invalid .noRoot none)

end Assembly

/-- The loop over the events of a document. -/
structure Loop where
  reader : Reader
  assembly : Assembly

namespace Loop

def initial : Loop := ⟨.initial, .empty⟩

/-- Reads one lexeme and takes in what was read. The reader reports a fault where it has stopped. -/
def step (loop : Loop) (lexeme : Lexeme) : Except DocumentError Loop := do
  let (event, reader) ← (loop.reader.read lexeme.token).mapError fun fault =>
    .malformed fault lexeme.endLine
  let assembly ← loop.assembly.handle event lexeme.line
  return ⟨reader, assembly⟩

end Loop

namespace Document

def ofLexemes (lexemes : List Lexeme) : Except DocumentError Element := do
  let loop ← lexemes.foldlM Loop.step Loop.initial
  loop.assembly.finish

def parse (text : String) : Except DocumentError Element := ofLexemes (Lexeme.ofText text)

end Document
end ContractDoc.Xml

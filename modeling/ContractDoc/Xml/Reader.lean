import ContractDoc.Xml.Scope
import ContractDoc.Xml.Token

/-! # Reading events

The reader turns tokens into events. It keeps a stack of its own: the tags that it holds open, by
their raw names, each with the scope that holds inside it. An end tag has to name the innermost of
them. What the program makes of the events is not known here.
-/

namespace ContractDoc.Xml

/-- The name in an end tag: spaces at its end do not count, unless there is nothing else. -/
def endName (content : List Char) : List Char :=
  if content.all isSpace then content
  else (content.reverse.dropWhile isSpace).reverse

structure HeldTag where
  rawName : List Char
  scope : Scope

/-- What is handed out for a token. Tags come with the scope in which their attributes stand. -/
inductive Event
  | start (tag : RawTag) (scope : Scope)
  | empty (tag : RawTag) (scope : Scope)
  | stop
  | text (run : List Char)
  | cdata (content : List Char)
  | remark

/-- The tags that are held open, the innermost one first. -/
structure Reader where
  held : List HeldTag

namespace Reader

def initial : Reader := ⟨[]⟩

def scope (reader : Reader) : Scope :=
  match reader.held with
  | [] => .reserved
  | innermost :: _ => innermost.scope

def release (reader : Reader) (name : List Char) : Except Fault Reader :=
  match reader.held with
  | [] => .error (.badNesting (.unmatchedEnd (String.ofList name)))
  | innermost :: outer =>
      if innermost.rawName = name then .ok ⟨outer⟩
      else
        .error (.badNesting
          (.mismatchedEnd (String.ofList innermost.rawName) (String.ofList name)))

/-- Reads one token. Only a start tag is held open, but an empty tag declares namespaces as well. -/
def read (reader : Reader) (token : Token) : Except Fault (Event × Reader) :=
  match token with
  | .startTag content => do
      let tag := RawTag.ofContent content
      let scope ← reader.scope.declare tag.attributes
      return (.start tag scope, ⟨⟨tag.name, scope⟩ :: reader.held⟩)
  | .emptyTag content => do
      let tag := RawTag.ofContent content
      let scope ← reader.scope.declare tag.attributes
      return (.empty tag scope, reader)
  | .endTag content => do
      let outer ← reader.release (endName content)
      return (.stop, outer)
  | .text run => .ok (.text run, reader)
  | .cdata content => .ok (.cdata content, reader)
  | .comment _ | .instruction _ | .doctype _ => .ok (.remark, reader)
  | .broken fault _ => .error (.badMarkup fault)

end Reader
end ContractDoc.Xml

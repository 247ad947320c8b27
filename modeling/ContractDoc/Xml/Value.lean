import ContractDoc.Error
import ContractDoc.Text.Blank
import ContractDoc.Xml.Element

/-! # Values in elements

How the readers of a contract take values out of elements: texts that have to be there, texts that
denote a value of some type, and truth values. A failure is reported at the line of the element.
-/

namespace ContractDoc.Xml.Element

def defect (element : Element) (cause : Defect) : DocumentError :=
  .invalid cause (some element.line)

def requireText (element : Element) (name : String) (missing : Defect) :
    Except DocumentError String :=
  match element.childText? name with
  | some text => .ok text
  | none => .error (element.defect missing)

def readChild? {α : Type} (element : Element) (name : String)
    (read : Element → Except DocumentError α) : Except DocumentError (Option α) :=
  match element.child? name with
  | some child => (read child).map some
  | none => .ok none

/-- The value that the trimmed character data denotes; `expected` says what it should be. -/
def parseText {α : Type} (element : Element) (read : String → Option α) (expected : String) :
    Except DocumentError α :=
  let text := Text.trim element.text
  match read text with
  | some value => .ok value
  | none => .error (element.defect (.unreadable text expected))

/-- Whether two texts differ at most in the case of ASCII letters. -/
def sameLetters (a b : String) : Bool :=
  a.toList.map Char.toLower == b.toList.map Char.toLower

/-- The truth value that the trimmed character data spells, in any case. -/
def boolValue (element : Element) : Except DocumentError Bool :=
  let text := Text.trim element.text
  if sameLetters text "true" then .ok true
  else if sameLetters text "false" then .ok false
  else .error (element.defect (.notBoolean text element.name))

end ContractDoc.Xml.Element

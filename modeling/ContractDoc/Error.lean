import ContractDoc.Xml.Fault

/-! # Errors of a document

A document is refused because of a structural defect, an unknown data type word, or a fault of its
XML. Errors hold the cause and the line apart; `message` puts both into words.
-/

namespace ContractDoc

/-- What is structurally wrong with a document. -/
inductive Defect
  | tooDeep (limit : Nat)
  | secondRoot (name : String)
  | neverClosed (name : String)
  | noRoot
  | notBoolean (text element : String)
  | unreadable (text expected : String)
  | wrongRoot (expected found : String)
  | contractWithoutId
  | contractWithoutDataModel
  | processWithoutId
  | flowWithoutId
  | flowWithoutSource (flow : String)
  | flowWithoutTarget (flow : String)
  | duplicateFlow (id : String)
  | duplicateNode (id : String)
  | nodeWithoutType
  | unknownNodeType (text : String)
  | nodeWithoutId
  | nodeWithoutEdges (list : String)
  | taskWithoutScript (node : String)
  | timerWithoutAttachment (node : String)
  | timerWithoutType (node : String)
  | timerWithoutDefinition (node : String)
  | callWithoutTarget (node : String)
  | formFieldWithout (part : String)
  | dataTypeWithoutId (declaration : String)
  | propertyWithoutId
  deriving DecidableEq, Repr

inductive DocumentError
  | invalid (defect : Defect) (line : Option UInt32)
  | unrecognizedDataType (literal : String)
  | malformed (fault : Xml.Fault) (line : UInt32)
  deriving DecidableEq, Repr

namespace Defect

def message : Defect → String
  | tooDeep limit =>
      "Elements are nested too deeply, at most " ++ Nat.repr limit ++ " levels are allowed"
  | secondRoot name => "Element <" ++ name ++ "> is a second root element"
  | neverClosed name => "Element <" ++ name ++ "> is never closed"
  | noRoot => "Document has no root element"
  | notBoolean text element => text ++ " is not a valid boolean value for " ++ element
  | unreadable text expected => text ++ " is not a valid " ++ expected
  | wrongRoot expected found => "Expected a " ++ expected ++ " root element, found " ++ found
  | contractWithoutId => "Contract is missing an ID"
  | contractWithoutDataModel => "Contract is missing a data model"
  | processWithoutId => "Process is missing an ID"
  | flowWithoutId => "Sequence flow is missing an ID"
  | flowWithoutSource flow => "Sequence flow " ++ flow ++ " is missing a source"
  | flowWithoutTarget flow => "Sequence flow " ++ flow ++ " is missing a target"
  | duplicateFlow id => "Duplicate sequence flow ID " ++ id
  | duplicateNode id => "Duplicate process element ID " ++ id
  | nodeWithoutType => "Mandatory attribute for a process element not found"
  | unknownNodeType text => text ++ " is not a valid process element type"
  | nodeWithoutId => "Id not set for process element"
  | nodeWithoutEdges list => "Process element is missing its " ++ list ++ " list"
  | taskWithoutScript node => "Script task " ++ node ++ " must contain a script"
  | timerWithoutAttachment node =>
      "Timer event " ++ node ++ " is missing attached to definition"
  | timerWithoutType node => "Timer event " ++ node ++ " is missing timer definition type"
  | timerWithoutDefinition node => "Timer event " ++ node ++ " is missing timer definition"
  | callWithoutTarget node =>
      "Call activity " ++ node ++ " is missing called element definition"
  | formFieldWithout part => "Form field is missing " ++ part
  | dataTypeWithoutId declaration => declaration ++ " is missing an ID"
  | propertyWithoutId => "Property is missing an ID"

end Defect

/-- Line numbers are shown and compared as the numbers that they stand for. -/
instance coeLine : Coe UInt32 Nat := ⟨UInt32.toNat⟩

def lineText : Option Nat → String
  | some line => Nat.repr line
  | none => "N/A"

namespace DocumentError

def message : DocumentError → String
  | invalid defect line => defect.message ++ " (line " ++ lineText (line.map UInt32.toNat) ++ ")"
  | unrecognizedDataType literal => "Cannot convert " ++ literal ++ " to a valid data type"
  | malformed fault line => "Malformed XML at line " ++ Nat.repr line ++ ": " ++ fault.message

/-- The line an error points at, if it is known. -/
def line? : DocumentError → Option UInt32
  | invalid _ line => line
  | unrecognizedDataType _ => none
  | malformed _ line => some line

end DocumentError
end ContractDoc

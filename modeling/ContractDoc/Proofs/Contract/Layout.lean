import ContractDoc.Contract.OfXml
import ContractDoc.Proofs.Xml.Layout
import ContractDoc.Proofs.Xml.RoundTrip

/-! # Contracts on other lines

Two trees that differ in their lines alone are read as the same contract, or are refused with
errors that differ in their lines alone: no line flows into a contract.
-/

namespace ContractDoc

open DocumentError (relocate)
open Xml (Element)
open Xml.Element hiding relocate

variable (f : UInt32 → UInt32)

attribute [local simp] Outcome.mapError_bind Outcome.mapError_map requireText_relocate
  parseText_relocate boolValue_relocate

namespace Workflow

theorem SequenceFlow.ofXml_relocate (element : Element) :
    SequenceFlow.ofXml (element.relocate f) =
      (SequenceFlow.ofXml element).mapError (relocate f) := by
  simp [SequenceFlow.ofXml]

theorem writtenName_relocate (element : Element) :
    writtenName (element.relocate f) = writtenName element := by
  simp [writtenName, Function.comp_def]

theorem nodeId_relocate (element : Element) :
    nodeId (element.relocate f) = (nodeId element).mapError (relocate f) := by
  simp [nodeId]

theorem edgeList_relocate (element : Element) (name : String) :
    edgeList (element.relocate f) name = (edgeList element name).mapError (relocate f) := by
  simp only [edgeList, firstDescendant?_relocate]
  cases element.firstDescendant? name <;> simp [Function.comp_def]

theorem NodeHeader.ofXml_relocate (element : Element) :
    NodeHeader.ofXml (element.relocate f) = (NodeHeader.ofXml element).mapError (relocate f) := by
  simp [NodeHeader.ofXml, nodeId_relocate, edgeList_relocate, writtenName_relocate]

theorem readParsed_relocate {α : Type} (element : Element) (name : String)
    (read : String → Option α) (expected : String) :
    (element.relocate f).readChild? name (·.parseText read expected) =
      (element.readChild? name (·.parseText read expected)).mapError (relocate f) :=
  readChild?_relocate f element name fun child => parseText_relocate f child read expected

theorem TaskSettings.ofXml_relocate (element : Element) :
    TaskSettings.ofXml (element.relocate f) =
      (TaskSettings.ofXml element).mapError (relocate f) := by
  simp [TaskSettings.ofXml, readParsed_relocate]

theorem TokenOperation.ofXml_relocate (element : Element) :
    TokenOperation.ofXml (element.relocate f) =
      (TokenOperation.ofXml element).mapError (relocate f) := by
  simp [TokenOperation.ofXml, readParsed_relocate]

theorem formFieldPart_relocate (element : Element) (name : String) :
    formFieldPart (element.relocate f) name =
      (formFieldPart element name).mapError (relocate f) := by
  simp only [formFieldPart, firstDescendant?_relocate]
  cases element.firstDescendant? name <;> simp

theorem FormField.ofXml_relocate (element : Element) :
    FormField.ofXml (element.relocate f) = (FormField.ofXml element).mapError (relocate f) := by
  simp [FormField.ofXml, formFieldPart_relocate]

theorem Form.ofXml_relocate (element : Element) :
    Form.ofXml (element.relocate f) = (Form.ofXml element).mapError (relocate f) := by
  simp [Form.ofXml, Outcome.mapError_mapM (FormField.ofXml_relocate f), Function.comp_def]

theorem Timer.ofXml_relocate (element : Element) (node : String) :
    Timer.ofXml (element.relocate f) node = (Timer.ofXml element node).mapError (relocate f) := by
  simp only [Timer.ofXml, requireText_relocate, readParsed_relocate,
    Outcome.mapError_bind]
  congr 1
  funext attachedTo
  congr 1
  funext type?
  cases type? <;> simp

theorem UserWork.ofXml_relocate (element : Element) :
    UserWork.ofXml (element.relocate f) = (UserWork.ofXml element).mapError (relocate f) := by
  simp only [UserWork.ofXml, TokenOperation.ofXml_relocate, Outcome.mapError_bind]
  congr 1
  funext operation
  simp only [firstDescendant?_relocate, writtenName_relocate, childText?_relocate]
  cases element.firstDescendant? Tag.form with
  | none => rfl
  | some form =>
      simp only [Option.map_some, Form.ofXml_relocate]
      cases Form.ofXml form <;> rfl

theorem FlowNode.ofXmlAs_relocate (element : Element) (kind : NodeKind) :
    FlowNode.ofXmlAs (element.relocate f) kind =
      (FlowNode.ofXmlAs element kind).mapError (relocate f) := by
  cases kind <;>
    simp [FlowNode.ofXmlAs, NodeHeader.ofXml_relocate, TaskSettings.ofXml_relocate,
      TokenOperation.ofXml_relocate, UserWork.ofXml_relocate, Timer.ofXml_relocate,
      nodeId_relocate]

theorem NodeKind.ofXml_relocate (element : Element) :
    NodeKind.ofXml (element.relocate f) = (NodeKind.ofXml element).mapError (relocate f) := by
  simp only [NodeKind.ofXml, attribute?_relocate, defect_relocate]
  split
  · rfl
  · split <;> rfl

theorem FlowNode.ofXml_relocate (element : Element) :
    FlowNode.ofXml (element.relocate f) = (FlowNode.ofXml element).mapError (relocate f) := by
  simp [FlowNode.ofXml, NodeKind.ofXml_relocate, FlowNode.ofXmlAs_relocate]

theorem Declarations.add_relocate (declared : Declarations) (element : Element) :
    declared.add (element.relocate f) = (declared.add element).mapError (relocate f) := by
  simp only [Declarations.add, name_relocate, SequenceFlow.ofXml_relocate,
    FlowNode.ofXml_relocate]
  split
  · rw [Outcome.mapError_bind]
    congr 1
    funext flow
    cases declared.flows.register? flow.id flow <;> simp
  · split
    · rw [Outcome.mapError_bind]
      congr 1
      funext node
      cases declared.nodes.register? node.id node <;> simp
    · rfl

theorem ProcessGraph.ofXml_relocate (element : Element) :
    ProcessGraph.ofXml (element.relocate f) =
      (ProcessGraph.ofXml element).mapError (relocate f) := by
  simp [ProcessGraph.ofXml, readChild?_relocate f element _ (boolValue_relocate f),
    descendants_relocate, Outcome.mapError_foldlM (Declarations.add_relocate f)]

end Workflow

namespace DataModel

theorem declaredName_relocate (element : Element) :
    declaredName (element.relocate f) = declaredName element := by
  simp [declaredName]

theorem declaredId_relocate (element : Element) :
    declaredId (element.relocate f) = (declaredId element).mapError (relocate f) := by
  simp [declaredId]

theorem ScalarType.ofXml_relocate (element : Element) :
    ScalarType.ofXml (element.relocate f) = (ScalarType.ofXml element).mapError (relocate f) := by
  simp only [ScalarType.ofXml, ScalarType.ofLiteral, text_relocate]
  split <;> rfl

theorem Property.add_relocate (property : Property) (element : Element) :
    property.add (element.relocate f) = (property.add element).mapError (relocate f) := by
  simp only [Property.add, name_relocate, text_relocate, ScalarType.ofXml_relocate]
  repeat' split
  all_goals simp

theorem Property.ofXml_relocate (element : Element) :
    Property.ofXml (element.relocate f) = (Property.ofXml element).mapError (relocate f) := by
  simp [Property.ofXml, Outcome.mapError_foldlM (Property.add_relocate f)]

theorem Entity.add_relocate (entity : Entity) (element : Element) :
    entity.add (element.relocate f) = (entity.add element).mapError (relocate f) := by
  simp only [Entity.add, name_relocate]
  repeat' split
  all_goals simp [Outcome.mapError_mapM (Property.ofXml_relocate f)]

theorem Entity.ofXml_relocate (element : Element) :
    Entity.ofXml (element.relocate f) = (Entity.ofXml element).mapError (relocate f) := by
  simp [Entity.ofXml, declaredId_relocate, declaredName_relocate,
    Outcome.mapError_foldlM (Entity.add_relocate f)]

theorem Token.add_relocate (token : Token) (element : Element) :
    token.add (element.relocate f) = (token.add element).mapError (relocate f) := by
  simp only [Token.add, name_relocate, text_relocate, Property.ofXml_relocate]
  repeat' split
  all_goals simp

theorem Token.ofXml_relocate (element : Element) :
    Token.ofXml (element.relocate f) = (Token.ofXml element).mapError (relocate f) := by
  simp [Token.ofXml, declaredId_relocate, declaredName_relocate,
    descendants_relocate, Outcome.mapError_foldlM (Token.add_relocate f)]

theorem Enumeration.ofXml_relocate (element : Element) :
    Enumeration.ofXml (element.relocate f) =
      (Enumeration.ofXml element).mapError (relocate f) := by
  have hValues : (((element.relocate f).childrenNamed Tag.enumValues).getLast?) =
      (element.childrenNamed Tag.enumValues).getLast?.map (Element.relocate f) := by
    rw [childrenNamed_relocate, List.getLast?_map]
  simp only [Enumeration.ofXml, declaredId_relocate, declaredName_relocate, hValues,
    Outcome.mapError_bind]
  congr 1
  funext id
  cases (element.childrenNamed Tag.enumValues).getLast? <;> simp [Function.comp_def]

theorem DataType.ofXml?_relocate (element : Element) :
    DataType.ofXml? (element.relocate f) = (DataType.ofXml? element).mapError (relocate f) := by
  simp only [DataType.ofXml?, name_relocate, Entity.ofXml_relocate,
    Token.ofXml_relocate, Enumeration.ofXml_relocate]
  repeat' split
  all_goals simp

theorem addDeclaration_relocate (types : Registry DataType) (element : Element) :
    addDeclaration types (element.relocate f) =
      (addDeclaration types element).mapError (relocate f) := by
  simp only [addDeclaration, DataType.ofXml?_relocate, Outcome.mapError_bind]
  congr 1
  funext type?
  cases type? <;> rfl

theorem ofXml_relocate (element : Element) :
    ofXml (element.relocate f) = (ofXml element).mapError (relocate f) := by
  simp [ofXml, descendants_relocate, Outcome.mapError_foldlM (addDeclaration_relocate f)]

end DataModel

namespace Contract

/-- The lines of a tree show nowhere but in the error. -/
theorem ofXml_relocate (root : Element) :
    ofXml (root.relocate f) = (ofXml root).mapError (relocate f) := by
  simp only [ofXml, name_relocate, defect_relocate]
  split
  · rfl
  · simp only [requireText_relocate, descendantsNamed_relocate,
      Outcome.mapError_mapM (Workflow.ProcessGraph.ofXml_relocate f),
      firstDescendant?_relocate, childText?_relocate, Outcome.mapError_bind]
    congr 1
    funext id
    congr 1
    funext processes
    cases root.firstDescendant? Tag.dataModel with
    | none => rfl
    | some dataModel => simp [DataModel.ofXml_relocate]

end Contract

/-- The error with its line, if it has one, set to zero. -/
def DocumentError.withoutLine : DocumentError → DocumentError
  | .invalid defect line => .invalid defect (line.map fun _ => 0)
  | .unrecognizedDataType literal => .unrecognizedDataType literal
  | .malformed fault _ => .malformed fault 0

theorem DocumentError.withoutLine_eq_relocate :
    DocumentError.withoutLine = DocumentError.relocate fun _ => 0 := by
  funext error
  cases error <;> rfl

namespace Contract

open DocumentError (withoutLine)

theorem ofXml_withoutLines (root : Element) :
    ofXml root.withoutLines = (ofXml root).mapError withoutLine := by
  rw [root.withoutLines_eq_relocate, DocumentError.withoutLine_eq_relocate, ofXml_relocate]

theorem ofXml_congr {root root' : Element} {contract : Contract}
    (hSame : root.withoutLines = root'.withoutLines) (h : ofXml root' = .ok contract) :
    ofXml root = .ok contract := by
  rw [← Outcome.mapError_eq_ok_iff, ← ofXml_withoutLines, hSame, ofXml_withoutLines, h]
  rfl

end Contract

/-- Both runs return the same value, or both fail with errors of one kind and one wording, which
may point at different lines. -/
inductive AgreeUpToLine {α : Type} : Except DocumentError α → Except DocumentError α → Prop
  | ok (a : α) : AgreeUpToLine (.ok a) (.ok a)
  | error {e e' : DocumentError} :
      e.withoutLine = e'.withoutLine → AgreeUpToLine (.error e) (.error e')

theorem agreeUpToLine_iff {α : Type} {x y : Except DocumentError α} :
    AgreeUpToLine x y ↔
      x.mapError DocumentError.withoutLine = y.mapError DocumentError.withoutLine := by
  constructor
  · rintro (a | hError)
    · rfl
    · rw [Outcome.mapError_error, Outcome.mapError_error, hError]
  · intro h
    cases x with
    | ok a =>
        obtain rfl := Outcome.mapError_eq_ok_iff.1 h.symm
        exact .ok a
    | error e =>
        cases y with
        | ok b => cases h
        | error e' => exact .error (Except.error.inj h)

namespace Contract

theorem parse_of_document {text : String} {root : Element}
    (h : Xml.Document.parse text = .ok root) : parse text = ofXml root := by
  rw [parse, h, Outcome.ok_bind]

/-- How a document is laid out does not matter: texts with the same tree up to its lines are the
same contract, or are refused for the same reason. An accepted contract stays the same whatever
lines are put into the tree. -/
theorem agreeUpToLine_of_layout {text text' : String} {root root' : Element}
    (h : Xml.Document.parse text = .ok root) (h' : Xml.Document.parse text' = .ok root')
    (hSame : root.withoutLines = root'.withoutLines) :
    AgreeUpToLine (parse text) (parse text') ∧
      ∀ contract, parse text = .ok contract →
        ∀ other : Element, other.withoutLines = root.withoutLines → ofXml other = .ok contract := by
  rw [parse_of_document h, parse_of_document h']
  constructor
  · rw [agreeUpToLine_iff, ← ofXml_withoutLines, ← ofXml_withoutLines, hSame]
  · exact fun _ hRead _ hOther => ofXml_congr hOther hRead

def compactText : String :=
  "<EditorContract><Id>a&lt;b</Id><Process Key='&#39;'><Name/></Process></EditorContract>"

/-- The same document with a prefix, in other quotes, over more lines, with a comment, a character
data section and another end for an element without content. -/
def spaciousText : String :=
  "<e:EditorContract\n><e:Id><![CDATA[a<b]]></e:Id><!--\n--><Process\nKey = \"'\"><Name></Name>" ++
    "</Process\n></e:EditorContract>"

def layoutTree (root id process name : UInt32) : Element where
  name := Tag.contract
  attributes := []
  children := [
    ⟨Tag.id, [], [], "a<b", id⟩,
    ⟨Tag.process, [⟨none, "Key", "'"⟩], [⟨Tag.name, [], [], "", name⟩], "", process⟩]
  text := ""
  line := root

theorem parse_compactText : Xml.Document.parse compactText = .ok (layoutTree 1 1 1 1) := by
  decide +kernel

theorem parse_spaciousText : Xml.Document.parse spaciousText = .ok (layoutTree 1 2 3 4) := by
  decide +kernel

theorem agreeUpToLine_of_compact_layout :
    Xml.Document.parse compactText = .ok (layoutTree 1 1 1 1) ∧
      Xml.Document.parse spaciousText = .ok (layoutTree 1 2 3 4) ∧
      (layoutTree 1 1 1 1).withoutLines = (layoutTree 1 2 3 4).withoutLines ∧
      AgreeUpToLine (parse compactText) (parse spaciousText) ∧
      parse compactText = .error (.invalid .processWithoutId (some 1)) ∧
      parse spaciousText = .error (.invalid .processWithoutId (some 3)) := by
  have hSame : (layoutTree 1 1 1 1).withoutLines = (layoutTree 1 2 3 4).withoutLines := rfl
  refine ⟨parse_compactText, parse_spaciousText, hSame,
    (agreeUpToLine_of_layout parse_compactText parse_spaciousText hSame).1, ?_, ?_⟩
  · rw [parse_of_document parse_compactText]
    decide +kernel
  · rw [parse_of_document parse_spaciousText]
    decide +kernel

end Contract
end ContractDoc

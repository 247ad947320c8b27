import ContractDoc.Text.Numeral
import ContractDoc.Vocabulary
import ContractDoc.Workflow.Name
import ContractDoc.Xml.Value
import ContractDoc.Xml.Walk

/-! # Reading processes

A process section holds its id and its executable mark as children; its flows and nodes are all the
declarations below it, at any depth. The first check that fails, in document order, is the error.
-/

namespace ContractDoc.Workflow

open Xml (Element)

/-- Reads a sequence flow. Its name is its condition too. -/
def SequenceFlow.ofXml (declaration : Element) : Except DocumentError SequenceFlow := do
  let id ← declaration.requireText Tag.id .flowWithoutId
  let sourceId ← declaration.requireText Tag.sourceId (.flowWithoutSource id)
  let targetId ← declaration.requireText Tag.targetId (.flowWithoutTarget id)
  let name := declaration.childText? Tag.name
  return { id, sourceId, targetId, name, condition := name }

/-- The name of a node as written, with the assignee in it. The first name below the declaration
counts. -/
def writtenName (declaration : Element) : String :=
  ((declaration.firstDescendant? Tag.name).map Element.text).getD ""

def nodeId (declaration : Element) : Except DocumentError String :=
  declaration.requireText Tag.id .nodeWithoutId

/-- The items of the incoming or outgoing list. The list itself must be there. -/
def edgeList (declaration : Element) (name : String) : Except DocumentError (List String) :=
  match declaration.firstDescendant? name with
  | some list => .ok ((list.descendantsNamed Tag.listItem).map Element.text)
  | none => .error (declaration.defect (.nodeWithoutEdges name))

def NodeHeader.ofXml (declaration : Element) : Except DocumentError NodeHeader := do
  let id ← nodeId declaration
  let incoming ← edgeList declaration Tag.incoming
  let outgoing ← edgeList declaration Tag.outgoing
  return { id, name := Name.display (writtenName declaration), incoming, outgoing }

/-- Reads how a task is repeated; once, unless the document says otherwise. -/
def TaskSettings.ofXml (declaration : Element) : Except DocumentError TaskSettings := do
  let instanceType ← declaration.readChild? Tag.instanceType
    (·.parseText Keyword.ofText? "instance type")
  let loopCardinality ← declaration.readChild? Tag.loopCardinality
    (·.parseText Text.int32? "loop cardinality, it must be an integer")
  return {
    instanceType := instanceType.getD .single
    loopCardinality
    loopCollection := declaration.childText? Tag.loopCollection }

/-- What a script or user task does with tokens; nothing, unless the document says so. -/
def TokenOperation.ofXml (declaration : Element) : Except DocumentError TokenOperation := do
  let operation ← declaration.readChild? Tag.operationType
    (·.parseText Keyword.ofText? "token operation type")
  return operation.getD .none

def formFieldPart (field : Element) (name : String) : Except DocumentError String :=
  match field.firstDescendant? name with
  | some part => .ok part.text
  | none => .error (field.defect (.formFieldWithout name))

/-- Reads a form field. Only the exact word `true` makes it read-only. -/
def FormField.ofXml (field : Element) : Except DocumentError FormField := do
  let id ← formFieldPart field Tag.id
  let name ← formFieldPart field Tag.name
  let readOnly ← formFieldPart field Tag.readOnly
  let propertyExpression ← formFieldPart field Tag.propertyId
  return {
    id
    displayName := Text.strip name
    isReadOnly := readOnly == "true"
    propertyExpression }

/-- Reads a form. The first id below it counts, even if it belongs to a field. -/
def Form.ofXml (form : Element) : Except DocumentError Form := do
  let fields ← (form.descendantsNamed Tag.formField).mapM FormField.ofXml
  return { id := (form.firstDescendant? Tag.id).map Element.text, fields }

def Timer.ofXml (declaration : Element) (node : String) : Except DocumentError Timer := do
  let attachedTo ← declaration.requireText Tag.attachedTo (.timerWithoutAttachment node)
  let type? ← declaration.readChild? Tag.definitionType
    (·.parseText Keyword.ofText? "timer definition type")
  match type? with
  | none => .error (declaration.defect (.timerWithoutType node))
  | some definitionType =>
      let definition ← declaration.requireText Tag.definition (.timerWithoutDefinition node)
      return { attachedTo, definitionType, definition }

/-- Reads what belongs to user tasks alone. The assignee comes from the name as written. -/
def UserWork.ofXml (declaration : Element) : Except DocumentError UserWork := do
  let operation ← TokenOperation.ofXml declaration
  let form ← match declaration.firstDescendant? Tag.form with
    | some form => (Form.ofXml form).map some
    | none => .ok none
  return {
    operation
    assignee := Name.assignee? (writtenName declaration)
    validationScript := declaration.childText? Tag.script
    form }

def FlowNode.ofXmlAs (declaration : Element) : NodeKind → Except DocumentError FlowNode
  | .startEvent => startEvent <$> NodeHeader.ofXml declaration
  | .endEvent => endEvent <$> NodeHeader.ofXml declaration
  | .exclusiveGateway => exclusiveGateway <$> NodeHeader.ofXml declaration
  | .parallelGateway => parallelGateway <$> NodeHeader.ofXml declaration
  | .timerBoundaryEvent => do
      let header ← NodeHeader.ofXml declaration
      let timer ← Timer.ofXml declaration header.id
      return timerBoundaryEvent header timer
  | .scriptTask => do
      let header ← NodeHeader.ofXml declaration
      let settings ← TaskSettings.ofXml declaration
      let operation ← TokenOperation.ofXml declaration
      let script ← declaration.requireText Tag.script (.taskWithoutScript header.id)
      return scriptTask header settings operation script
  | .serviceTask => serviceTask <$> nodeId declaration
  | .businessRuleTask => businessRuleTask <$> nodeId declaration
  | .userTask => do
      let header ← NodeHeader.ofXml declaration
      let settings ← TaskSettings.ofXml declaration
      let work ← UserWork.ofXml declaration
      return userTask header settings work
  | .callActivity => do
      let header ← NodeHeader.ofXml declaration
      let settings ← TaskSettings.ofXml declaration
      let calledElement ←
        declaration.requireText Tag.calledElement (.callWithoutTarget header.id)
      return callActivity header settings calledElement

def NodeKind.ofXml (declaration : Element) : Except DocumentError NodeKind :=
  match declaration.attribute? (some schemaInstanceUri) typeAttribute with
  | none => .error (declaration.defect .nodeWithoutType)
  | some text =>
      match ofDiscriminator? text with
      | none => .error (declaration.defect (.unknownNodeType text))
      | some kind => .ok kind

def FlowNode.ofXml (declaration : Element) : Except DocumentError FlowNode := do
  let kind ← NodeKind.ofXml declaration
  ofXmlAs declaration kind

structure Declarations where
  nodes : Registry FlowNode
  flows : Registry SequenceFlow

namespace Declarations

def empty : Declarations := ⟨.empty, .empty⟩

/-- Takes in one element of a process section. An id may be declared once for flows and once for
nodes. -/
def add (declared : Declarations) (element : Element) : Except DocumentError Declarations :=
  if element.name = Tag.sequenceFlow then do
    let flow ← SequenceFlow.ofXml element
    match declared.flows.register? flow.id flow with
    | some flows => return { declared with flows }
    | none => .error (element.defect (.duplicateFlow flow.id))
  else if element.name = Tag.flowNode then do
    let node ← FlowNode.ofXml element
    match declared.nodes.register? node.id node with
    | some nodes => return { declared with nodes }
    | none => .error (element.defect (.duplicateNode node.id))
  else return declared

end Declarations

/-- Reads a process section. It is not executable, unless the document says so. -/
def ProcessGraph.ofXml (declaration : Element) : Except DocumentError ProcessGraph := do
  let id ← declaration.requireText Tag.id .processWithoutId
  let isExecutable ← declaration.readChild? Tag.isExecutable Element.boolValue
  let declared ← declaration.descendants.foldlM Declarations.add .empty
  return {
    id
    isExecutable := isExecutable.getD false
    nodes := declared.nodes
    flows := declared.flows }

end ContractDoc.Workflow

import ContractDoc.Keyword
import ContractDoc.Registry

/-! # Workflows

A process is a graph: typed nodes under their ids, and sequence flows between them under theirs.
Nodes keep the incoming and outgoing lists that were declared for them; these are not derived from
the flows.
-/

namespace ContractDoc.Workflow

inductive InstanceType
  | single
  | sequential
  | parallel
  deriving DecidableEq, Repr

instance : Keyword InstanceType where
  values := [.single, .sequential, .parallel]
  word
    | .single => "Single"
    | .sequential => "Sequential"
    | .parallel => "Parallel"

/-- What a task does with the tokens of the contract. -/
inductive TokenOperation
  | none
  | mint
  | transfer
  deriving DecidableEq, Repr

instance : Keyword TokenOperation where
  values := [.none, .mint, .transfer]
  word
    | .none => "None"
    | .mint => "Mint"
    | .transfer => "Transfer"

/-- How the definition of a timer is to be understood. -/
inductive TimerType
  | date
  | cycle
  | duration
  deriving DecidableEq, Repr

instance : Keyword TimerType where
  values := [.date, .cycle, .duration]
  word
    | .date => "Date"
    | .cycle => "Cycle"
    | .duration => "Duration"

inductive NodeKind
  | startEvent
  | endEvent
  | exclusiveGateway
  | parallelGateway
  | timerBoundaryEvent
  | scriptTask
  | serviceTask
  | businessRuleTask
  | userTask
  | callActivity
  deriving DecidableEq, Repr

namespace NodeKind

/-- The value of the type attribute by which a document names the kind. -/
def discriminator : NodeKind → String
  | startEvent => "ContractStartEvent"
  | endEvent => "ContractEndEvent"
  | exclusiveGateway => "ContractExclusiveGateway"
  | parallelGateway => "ContractParallelGateway"
  | timerBoundaryEvent => "ContractTimerBoundaryEvent"
  | scriptTask => "ContractScriptActivity"
  | serviceTask => "ContractServiceActivity"
  | businessRuleTask => "ContractBusinessRuleTask"
  | userTask => "ContractUserActivity"
  | callActivity => "ContractCallActivity"

def ofDiscriminator? : String → Option NodeKind
  | "ContractBusinessRuleTask" => some businessRuleTask
  | "ContractScriptActivity" => some scriptTask
  | "ContractServiceActivity" => some serviceTask
  | "ContractUserActivity" => some userTask
  | "ContractStartEvent" => some startEvent
  | "ContractEndEvent" => some endEvent
  | "ContractExclusiveGateway" => some exclusiveGateway
  | "ContractParallelGateway" => some parallelGateway
  | "ContractTimerBoundaryEvent" => some timerBoundaryEvent
  | "ContractCallActivity" => some callActivity
  | _ => none

@[simp] theorem ofDiscriminator?_discriminator (kind : NodeKind) :
    ofDiscriminator? kind.discriminator = some kind := by
  cases kind <;> decide

/-- The two tables are inverse to each other. -/
theorem ofDiscriminator?_eq_some_iff {text : String} {kind : NodeKind} :
    ofDiscriminator? text = some kind ↔ text = kind.discriminator := by
  constructor
  · unfold ofDiscriminator?
    split <;> rintro ⟨⟩ <;> rfl
  · rintro rfl
    exact kind.ofDiscriminator?_discriminator

def label : NodeKind → String
  | startEvent => "StartEvent"
  | endEvent => "EndEvent"
  | exclusiveGateway => "ExclusiveGateway"
  | parallelGateway => "ParallelGateway"
  | timerBoundaryEvent => "TimerBoundaryEvent"
  | scriptTask => "ScriptTask"
  | serviceTask => "ServiceTask"
  | businessRuleTask => "BusinessRuleTask"
  | userTask => "UserTask"
  | callActivity => "CallActivity"

end NodeKind

/-- What all nodes but service and business rule tasks have: an id, a display name, and the flows
declared as incoming and outgoing. -/
structure NodeHeader where
  id : String
  name : String
  incoming : List String
  outgoing : List String
  deriving DecidableEq, Repr

structure TaskSettings where
  instanceType : InstanceType
  loopCardinality : Option Int32
  loopCollection : Option String
  deriving DecidableEq, Repr

inductive Assignee
  | address (text : String)
  | username (text : String)
  deriving DecidableEq, Repr

/-- A field of a form, which edits one property of the data model. -/
structure FormField where
  id : String
  displayName : String
  isReadOnly : Bool
  propertyExpression : String
  deriving DecidableEq, Repr

/-- What a user fills in to complete a task. -/
structure Form where
  id : Option String
  fields : List FormField
  deriving DecidableEq, Repr

/-- When a timer fires, and the node it is attached to. -/
structure Timer where
  attachedTo : String
  definitionType : TimerType
  definition : String
  deriving DecidableEq, Repr

/-- What a user task has beside its header and its settings. -/
structure UserWork where
  operation : TokenOperation
  assignee : Option Assignee
  validationScript : Option String
  form : Option Form
  deriving DecidableEq, Repr

/-- A node of a process. Of service and business rule tasks only the id is kept. -/
inductive FlowNode
  | startEvent (header : NodeHeader)
  | endEvent (header : NodeHeader)
  | exclusiveGateway (header : NodeHeader)
  | parallelGateway (header : NodeHeader)
  | timerBoundaryEvent (header : NodeHeader) (timer : Timer)
  | scriptTask (header : NodeHeader) (settings : TaskSettings) (operation : TokenOperation)
      (script : String)
  | serviceTask (id : String)
  | businessRuleTask (id : String)
  | userTask (header : NodeHeader) (settings : TaskSettings) (work : UserWork)
  | callActivity (header : NodeHeader) (settings : TaskSettings) (calledElement : String)
  deriving DecidableEq, Repr

namespace FlowNode

def kind : FlowNode → NodeKind
  | startEvent _ => .startEvent
  | endEvent _ => .endEvent
  | exclusiveGateway _ => .exclusiveGateway
  | parallelGateway _ => .parallelGateway
  | timerBoundaryEvent _ _ => .timerBoundaryEvent
  | scriptTask _ _ _ _ => .scriptTask
  | serviceTask _ => .serviceTask
  | businessRuleTask _ => .businessRuleTask
  | userTask _ _ _ => .userTask
  | callActivity _ _ _ => .callActivity

def header? : FlowNode → Option NodeHeader
  | startEvent header => some header
  | endEvent header => some header
  | exclusiveGateway header => some header
  | parallelGateway header => some header
  | timerBoundaryEvent header _ => some header
  | scriptTask header _ _ _ => some header
  | serviceTask _ => none
  | businessRuleTask _ => none
  | userTask header _ _ => some header
  | callActivity header _ _ => some header

/-- The id of a node: that of its header, or the only thing that is kept of the node. -/
def id : FlowNode → String
  | serviceTask id => id
  | businessRuleTask id => id
  | node => (node.header?.map NodeHeader.id).getD ""

theorem id_of_header? {node : FlowNode} {header : NodeHeader} (h : node.header? = some header) :
    node.id = header.id := by
  cases node <;> first | exact congrArg NodeHeader.id (Option.some.inj h) | cases h

def name? (node : FlowNode) : Option String := node.header?.map NodeHeader.name

def isStartEvent : FlowNode → Bool
  | startEvent _ => true
  | _ => false

end FlowNode

/-- A directed edge between two nodes, which need not exist. -/
structure SequenceFlow where
  id : String
  sourceId : String
  targetId : String
  name : Option String
  condition : Option String
  deriving DecidableEq, Repr

structure ProcessGraph where
  id : String
  isExecutable : Bool
  nodes : Registry FlowNode
  flows : Registry SequenceFlow
  deriving DecidableEq

namespace ProcessGraph

def node? (process : ProcessGraph) (id : String) : Option FlowNode := process.nodes.get? id

/-- The start events in the order of their ids. -/
def startEvents (process : ProcessGraph) : List FlowNode :=
  process.nodes.values.filter FlowNode.isStartEvent

/-- The flows whose source is the given node, in the order of their ids. -/
def outgoingFlows (process : ProcessGraph) (nodeId : String) : List SequenceFlow :=
  process.flows.values.filter fun flow => flow.sourceId == nodeId

end ProcessGraph
end ContractDoc.Workflow

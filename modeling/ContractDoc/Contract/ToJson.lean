import ContractDoc.Contract.Basic
import ContractDoc.Json

/-! # Contracts as JSON

The form in which a contract is handed on. Every field is present, in a fixed order; a missing
value is null. Variants are told apart by the field `kind`, which comes first.
-/

namespace ContractDoc

namespace Registry

/-- An object with a field for each id, in ascending order. -/
def toJson {α : Type} (encode : α → Json) (registry : Registry α) : Json :=
  .object (registry.entries.map fun entry => (entry.1, encode entry.2))

end Registry

namespace Keyword

def toJson {α : Type} [Keyword α] (value : α) : Json := .string (word value)

end Keyword

namespace Workflow

def NodeHeader.fields (header : NodeHeader) : List (String × Json) :=
  [("id", .string header.id), ("name", .string header.name),
    ("incoming", Json.ofTexts header.incoming), ("outgoing", Json.ofTexts header.outgoing)]

def TaskSettings.fields (settings : TaskSettings) : List (String × Json) :=
  [("instance_type", Keyword.toJson settings.instanceType),
    ("loop_cardinality", Json.ofOption (fun n => .number n.toInt) settings.loopCardinality),
    ("loop_collection", Json.ofOption .string settings.loopCollection)]

def Timer.fields (timer : Timer) : List (String × Json) :=
  [("attached_to", .string timer.attachedTo),
    ("timer_definition_type", Keyword.toJson timer.definitionType),
    ("timer_definition", .string timer.definition)]

def Assignee.toJson : Assignee → Json
  | address text => .object [("Address", .string text)]
  | username text => .object [("Username", .string text)]

def FormField.toJson (field : FormField) : Json :=
  .object
    [("id", .string field.id), ("display_name", .string field.displayName),
      ("is_read_only", .bool field.isReadOnly),
      ("property_expression", .string field.propertyExpression)]

def Form.toJson (form : Form) : Json :=
  .object
    [("id", Json.ofOption .string form.id), ("fields", .array (form.fields.map FormField.toJson))]

def UserWork.fields (work : UserWork) : List (String × Json) :=
  [("operation_type", Keyword.toJson work.operation),
    ("assignee", Json.ofOption Assignee.toJson work.assignee),
    ("validation_script", Json.ofOption .string work.validationScript),
    ("form", Json.ofOption Form.toJson work.form)]

/-- The fields of a node after its kind. -/
def FlowNode.fields : FlowNode → List (String × Json)
  | startEvent header => header.fields
  | endEvent header => header.fields
  | exclusiveGateway header => header.fields
  | parallelGateway header => header.fields
  | timerBoundaryEvent header timer => header.fields ++ timer.fields
  | scriptTask header settings operation script =>
      header.fields ++ settings.fields ++
        [("operation_type", Keyword.toJson operation), ("script", .string script)]
  | serviceTask id => [("id", .string id)]
  | businessRuleTask id => [("id", .string id)]
  | userTask header settings work => header.fields ++ settings.fields ++ work.fields
  | callActivity header settings calledElement =>
      header.fields ++ settings.fields ++ [("called_element", .string calledElement)]

def FlowNode.toJson (node : FlowNode) : Json :=
  .object (("kind", .string node.kind.label) :: node.fields)

def SequenceFlow.toJson (flow : SequenceFlow) : Json :=
  .object
    [("id", .string flow.id), ("source_id", .string flow.sourceId),
      ("target_id", .string flow.targetId), ("name", Json.ofOption .string flow.name),
      ("condition", Json.ofOption .string flow.condition)]

def ProcessGraph.toJson (process : ProcessGraph) : Json :=
  .object
    [("id", .string process.id), ("is_executable", .bool process.isExecutable),
      ("process_elements", process.nodes.toJson FlowNode.toJson),
      ("sequence_flows", process.flows.toJson SequenceFlow.toJson)]

end Workflow

namespace DataModel

def ScalarType.toJson (type : ScalarType) : Json := .string type.label

def Property.toJson (property : Property) : Json :=
  .object
    [("id", .string property.id), ("name", .string property.name),
      ("is_mandatory", .bool property.isMandatory),
      ("property_type", Keyword.toJson property.kind),
      ("data_type", Json.ofOption ScalarType.toJson property.dataType),
      ("key_data_type", Json.ofOption ScalarType.toJson property.keyDataType),
      ("referenced_data_type", Json.ofOption .string property.referencedDataType)]

def propertiesJson (properties : List Property) : Json :=
  .array (properties.map Property.toJson)

/-- The fields of a data type after its kind. -/
def DataType.fields : DataType → List (String × Json)
  | entity e =>
      [("id", .string e.id), ("name", .string e.name), ("is_root_entity", .bool e.isRoot),
        ("properties", propertiesJson e.properties)]
  | token t =>
      [("id", .string t.id), ("name", .string t.name), ("symbol", Json.ofOption .string t.symbol),
        ("is_fungible", .bool t.isFungible), ("is_issued", .bool t.isIssued),
        ("address", Json.ofOption .string t.address),
        ("mint_script", Json.ofOption .string t.mintScript),
        ("transfer_script", Json.ofOption .string t.transferScript),
        ("properties", propertiesJson t.properties)]
  | enumeration e =>
      [("id", .string e.id), ("name", .string e.name), ("values", Json.ofTexts e.values)]

def DataType.toJson (type : DataType) : Json :=
  .object (("kind", .string type.label) :: type.fields)

end DataModel

def Contract.toJson (contract : Contract) : Json :=
  .object
    [("id", .string contract.id), ("name", Json.ofOption .string contract.name),
      ("processes", .array (contract.processes.map Workflow.ProcessGraph.toJson)),
      ("data_types", contract.dataTypes.toJson DataModel.DataType.toJson)]

end ContractDoc

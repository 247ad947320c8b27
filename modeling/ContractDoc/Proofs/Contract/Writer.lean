import Mathlib.Data.List.SplitBy
import ContractDoc.Contract.Basic
import ContractDoc.Json
import ContractDoc.Proofs.Workflow.WellFormed
import ContractDoc.Proofs.Xml.Lookup

/-! # Writing contracts

A contract is written as a document with one section for every process and one data model. Ids
come first, parts that are not there are left out, and nodes carry the word for their kind as their
type.
-/

namespace ContractDoc

open Xml (Outline)
open Xml.Outline (booleanText field field? group)

namespace Tag

open Xml (IsLabel)

instance : IsLabel contract := .ofList rfl
instance : IsLabel id := .ofList rfl
instance : IsLabel name := .ofList rfl
instance : IsLabel process := .ofList rfl
instance : IsLabel dataModel := .ofList rfl
instance : IsLabel isExecutable := .ofList rfl
instance : IsLabel sequenceFlow := .ofList rfl
instance : IsLabel flowNode := .ofList rfl
instance : IsLabel sourceId := .ofList rfl
instance : IsLabel targetId := .ofList rfl
instance : IsLabel incoming := .ofList rfl
instance : IsLabel outgoing := .ofList rfl
instance : IsLabel listItem := .ofList rfl
instance : IsLabel instanceType := .ofList rfl
instance : IsLabel loopCardinality := .ofList rfl
instance : IsLabel loopCollection := .ofList rfl
instance : IsLabel operationType := .ofList rfl
instance : IsLabel script := .ofList rfl
instance : IsLabel form := .ofList rfl
instance : IsLabel formField := .ofList rfl
instance : IsLabel readOnly := .ofList rfl
instance : IsLabel propertyId := .ofList rfl
instance : IsLabel attachedTo := .ofList rfl
instance : IsLabel definitionType := .ofList rfl
instance : IsLabel definition := .ofList rfl
instance : IsLabel calledElement := .ofList rfl
instance : IsLabel entity := .ofList rfl
instance : IsLabel token := .ofList rfl
instance : IsLabel enumeration := .ofList rfl
instance : IsLabel isRootEntity := .ofList rfl
instance : IsLabel primitiveProperties := .ofList rfl
instance : IsLabel referenceProperties := .ofList rfl
instance : IsLabel primitiveProperty := .ofList rfl
instance : IsLabel referenceProperty := .ofList rfl
instance : IsLabel symbol := .ofList rfl
instance : IsLabel address := .ofList rfl
instance : IsLabel isFungible := .ofList rfl
instance : IsLabel isIssued := .ofList rfl
instance : IsLabel mintScript := .ofList rfl
instance : IsLabel transferScript := .ofList rfl
instance : IsLabel enumValues := .ofList rfl
instance : IsLabel enumValue := .ofList rfl
instance : IsLabel isMandatory := .ofList rfl
instance : IsLabel propertyType := .ofList rfl
instance : IsLabel dataType := .ofList rfl
instance : IsLabel keyDataType := .ofList rfl
instance : IsLabel entityId := .ofList rfl

end Tag

namespace Workflow

/-- The name of a node as it is written, with the assignee in brackets in front. -/
def UserWork.writtenName (work : UserWork) (name : String) : String :=
  match work.assignee with
  | some assignee => "[" ++ assignee.text ++ "]" ++ name
  | none => name

def edgesOutline (name : String) (ids : List String) [Xml.IsLabel name] : Outline :=
  group name (ids.map fun id => field Tag.listItem id)

def NodeHeader.outlines (header : NodeHeader) (written : String) : List Outline :=
  [field Tag.name written, edgesOutline Tag.incoming header.incoming,
    edgesOutline Tag.outgoing header.outgoing]

def cardinalityText (count : Int32) : String := String.ofList (Json.numberChars count.toInt)

def TaskSettings.outlines (settings : TaskSettings) : List Outline :=
  field Tag.instanceType (Keyword.word settings.instanceType) ::
    (field? Tag.loopCardinality (settings.loopCardinality.map cardinalityText) ++
      field? Tag.loopCollection settings.loopCollection)

def FormField.outline (part : FormField) : Outline :=
  group Tag.formField
    [field Tag.id part.id, field Tag.name part.displayName,
      field Tag.readOnly (booleanText part.isReadOnly),
      field Tag.propertyId part.propertyExpression]

def Form.outline (form : Form) : Outline :=
  group Tag.form (field? Tag.id form.id ++ form.fields.map FormField.outline)

def Timer.outlines (timer : Timer) : List Outline :=
  [field Tag.attachedTo timer.attachedTo,
    field Tag.definitionType (Keyword.word timer.definitionType),
    field Tag.definition timer.definition]

def TokenOperation.outline (operation : TokenOperation) : Outline :=
  field Tag.operationType (Keyword.word operation)

def UserWork.outlines (work : UserWork) : List Outline :=
  TokenOperation.outline work.operation ::
    (field? Tag.script work.validationScript ++ (work.form.map Form.outline).toList)

def nodeOutline (kind : NodeKind) (id : String) (parts : List Outline) : Outline :=
  .branch ⟨Tag.flowNode, inferInstance⟩ (some kind.discriminator) (field Tag.id id :: parts)

/-- A node with a header, whose name is written as given, and with what its kind adds. -/
def headed (kind : NodeKind) (header : NodeHeader) (written : String) (rest : List Outline) :
    Outline :=
  nodeOutline kind header.id (header.outlines written ++ rest)

def FlowNode.outline : FlowNode → Outline
  | startEvent header => headed .startEvent header header.name []
  | endEvent header => headed .endEvent header header.name []
  | exclusiveGateway header => headed .exclusiveGateway header header.name []
  | parallelGateway header => headed .parallelGateway header header.name []
  | timerBoundaryEvent header timer =>
      headed .timerBoundaryEvent header header.name timer.outlines
  | scriptTask header settings operation script =>
      headed .scriptTask header header.name
        (settings.outlines ++ [operation.outline, field Tag.script script])
  | serviceTask id => nodeOutline .serviceTask id []
  | businessRuleTask id => nodeOutline .businessRuleTask id []
  | userTask header settings work =>
      headed .userTask header (work.writtenName header.name) (settings.outlines ++ work.outlines)
  | callActivity header settings calledElement =>
      headed .callActivity header header.name
        (settings.outlines ++ [field Tag.calledElement calledElement])

def SequenceFlow.outline (flow : SequenceFlow) : Outline :=
  group Tag.sequenceFlow
    (field Tag.id flow.id :: field Tag.sourceId flow.sourceId ::
      field Tag.targetId flow.targetId :: field? Tag.name flow.name)

def ProcessGraph.outline (process : ProcessGraph) : Outline :=
  group Tag.process
    (field Tag.id process.id :: field Tag.isExecutable (booleanText process.isExecutable) ::
      (process.nodes.values.map FlowNode.outline ++
        process.flows.values.map SequenceFlow.outline))

end Workflow

namespace DataModel

/-- The word for a type as editors write it. -/
def ScalarType.literal : ScalarType → String
  | int => "Number"
  | uint => "PositiveNumber"
  | bool => "Bool"
  | string => "Text"
  | reference => "Reference"
  | address => "Address"
  | addressPayable => "AddressPayable"
  | dateTime => "DateTime"

def Property.outlines (property : Property) : List Outline :=
  field Tag.id property.id :: field Tag.name property.name ::
    field Tag.isMandatory (booleanText property.isMandatory) ::
    field Tag.propertyType (Keyword.word property.kind) ::
      (field? Tag.dataType (property.dataType.map ScalarType.literal) ++
        field? Tag.keyDataType (property.keyDataType.map ScalarType.literal) ++
        field? Tag.entityId property.referencedDataType)

def Property.outline (property : Property) : Outline :=
  match property.kind with
  | .primitive => group Tag.primitiveProperty property.outlines
  | .reference => group Tag.referenceProperty property.outlines

/-- A list of properties, named for the kind of the first. -/
def propertyList (properties : List Property) : Outline :=
  match properties.head?.map Property.kind with
  | some .reference => group Tag.referenceProperties (properties.map Property.outline)
  | _ => group Tag.primitiveProperties (properties.map Property.outline)

/-- Properties of one kind that follow each other stand in one list. -/
def propertyLists (properties : List Property) : List Outline :=
  (properties.splitBy fun a b => a.kind == b.kind).map propertyList

def Entity.outline (entity : Entity) : Outline :=
  group Tag.entity
    (field Tag.id entity.id :: field Tag.name entity.name ::
      field Tag.isRootEntity (booleanText entity.isRoot) :: propertyLists entity.properties)

def Token.outline (token : Token) : Outline :=
  group Tag.token
    (field Tag.id token.id :: field Tag.name token.name ::
      (field? Tag.symbol token.symbol ++ field? Tag.address token.address ++
        [field Tag.isFungible (booleanText token.isFungible),
          field Tag.isIssued (booleanText token.isIssued)] ++
        field? Tag.mintScript token.mintScript ++
        field? Tag.transferScript token.transferScript ++
        token.properties.map Property.outline))

def Enumeration.outline (enumeration : Enumeration) : Outline :=
  group Tag.enumeration
    [field Tag.id enumeration.id, field Tag.name enumeration.name,
      group Tag.enumValues (enumeration.values.map fun value => field Tag.enumValue value)]

def DataType.outline : DataType → Outline
  | entity e => e.outline
  | token t => t.outline
  | enumeration e => e.outline

def outline (types : Registry DataType) : Outline :=
  group Tag.dataModel (types.values.map DataType.outline)

end DataModel

namespace Contract

def outlines (contract : Contract) : List Outline :=
  field Tag.id contract.id ::
    (field? Tag.name contract.name ++
      contract.processes.map Workflow.ProcessGraph.outline ++
      [DataModel.outline contract.dataTypes])

def write (contract : Contract) : String :=
  (Outline.document ⟨Tag.contract, inferInstance⟩ contract.outlines).text

end Contract
end ContractDoc

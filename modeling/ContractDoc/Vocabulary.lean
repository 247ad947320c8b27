/-! # Names of the contract document format

The element and attribute names by which a contract document is read, and the namespace of the
attribute that tells the kinds of process elements apart.
-/

namespace ContractDoc

/-- The namespace of the attribute that names the type of an element. -/
def schemaInstanceUri : String := "http://www.w3.org/2001/XMLSchema-instance"

def typeAttribute : String := "type"

namespace Tag

def contract : String := "EditorContract"
def id : String := "Id"
def name : String := "Name"
def process : String := "Process"
def dataModel : String := "DataModel"

def isExecutable : String := "IsExecutable"
def sequenceFlow : String := "ContractSequenceFlow"
def flowNode : String := "ContractProcessElement"
def sourceId : String := "SourceId"
def targetId : String := "TargetId"
def incoming : String := "Incoming"
def outgoing : String := "Outgoing"
def listItem : String := "string"

def instanceType : String := "InstanceType"
def loopCardinality : String := "LoopCardinality"
def loopCollection : String := "LoopCollection"
def operationType : String := "OperationType"
def script : String := "Script"
def form : String := "Form"
def formField : String := "ContractFormField"
def readOnly : String := "ReadOnly"
def propertyId : String := "PropertyId"
def attachedTo : String := "AttachedTo"
def definitionType : String := "DefinitionType"
def definition : String := "Definition"
def calledElement : String := "CalledElement"

def entity : String := "ContractEntity"
def token : String := "ContractToken"
def enumeration : String := "ContractEnum"
def isRootEntity : String := "IsRootEntity"
def primitiveProperties : String := "PrimitiveProperties"
def referenceProperties : String := "ReferenceProperties"
def primitiveProperty : String := "PrimitiveContractProperty"
def referenceProperty : String := "ReferenceContractProperty"
def symbol : String := "Symbol"
def address : String := "Address"
def isFungible : String := "IsFungible"
def isIssued : String := "IsIssued"
def mintScript : String := "MintScript"
def transferScript : String := "TransferScript"
def enumValues : String := "EnumValues"
def enumValue : String := "EnumValue"
def isMandatory : String := "IsMandatory"
def propertyType : String := "Type"
def dataType : String := "DataType"
def keyDataType : String := "KeyDataType"
def entityId : String := "EntityId"

end Tag
end ContractDoc

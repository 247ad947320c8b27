import ContractDoc.DataModel.Basic
import ContractDoc.Workflow.Basic

/-! # Contracts

A contract consists of processes, in the order of the document, and data types under their ids.
-/

namespace ContractDoc

structure Contract where
  id : String
  name : Option String
  processes : List Workflow.ProcessGraph
  dataTypes : Registry DataModel.DataType
  deriving DecidableEq

namespace Contract

def process? (contract : Contract) (id : String) : Option Workflow.ProcessGraph :=
  contract.processes.find? fun process => process.id == id

def dataType? (contract : Contract) (id : String) : Option DataModel.DataType :=
  contract.dataTypes.get? id

end Contract
end ContractDoc

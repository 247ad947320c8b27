import ContractDoc.Contract.Basic
import ContractDoc.DataModel.OfXml
import ContractDoc.Workflow.OfXml
import ContractDoc.Xml.Document

/-! # Reading contracts

A contract document has one root element. Every process section below it is a process, and the
first data model section holds the data types. No part of a contract is returned when a check
fails.
-/

namespace ContractDoc.Contract

open Xml (Element)

def ofXml (root : Element) : Except DocumentError Contract := do
  if root.name ≠ Tag.contract then
    .error (root.defect (.wrongRoot Tag.contract root.name))
  else
    let id ← root.requireText Tag.id .contractWithoutId
    let processes ← (root.descendantsNamed Tag.process).mapM Workflow.ProcessGraph.ofXml
    match root.firstDescendant? Tag.dataModel with
    | none => .error (.invalid .contractWithoutDataModel none)
    | some dataModel =>
        let dataTypes ← DataModel.ofXml dataModel
        return { id, name := root.childText? Tag.name, processes, dataTypes }

def parse (text : String) : Except DocumentError Contract := do
  let root ← Xml.Document.parse text
  ofXml root

end ContractDoc.Contract

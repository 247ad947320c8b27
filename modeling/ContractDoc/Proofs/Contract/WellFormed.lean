import ContractDoc.Proofs.Contract.Layout
import ContractDoc.Proofs.Contract.Writer
import ContractDoc.Proofs.DataModel.WellFormed
import ContractDoc.Proofs.Workflow.WellFormed
import ContractDoc.Proofs.Xml.Outline

/-! # Well-formed contracts

Every contract that is read from a document is well-formed, in all its processes and data types.
-/

namespace ContractDoc.Contract

open Text (HasNoBlank)
open Workflow (nodeOutline)
open Xml (Element Outline)
open Xml.Outline (field group)

structure WellFormed (contract : Contract) : Prop where
  processes : ∀ process ∈ contract.processes, process.WellFormed
  typeKeys : contract.dataTypes.Holds fun id type => id = type.id
  typeOrder : contract.dataTypes.ids.Pairwise (· < ·)
  types : contract.dataTypes.Holds fun _ type => type.WellFormed

/-- The parts of a contract, and what they are read from. -/
structure ReadFrom (root : Element) (contract : Contract) : Prop where
  tag : root.name = Tag.contract
  id : root.requireText Tag.id .contractWithoutId = .ok contract.id
  name : contract.name = root.childText? Tag.name
  processes : (root.descendantsNamed Tag.process).mapM Workflow.ProcessGraph.ofXml =
    .ok contract.processes
  dataTypes : ∃ dataModel, root.firstDescendant? Tag.dataModel = some dataModel ∧
    DataModel.ofXml dataModel = .ok contract.dataTypes

theorem readFrom_of_ofXml {root : Element} {contract : Contract}
    (h : ofXml root = .ok contract) : ReadFrom root contract := by
  unfold ofXml at h
  split at h
  · cases h
  · next hName =>
      obtain ⟨id, hId, h⟩ := Outcome.bind_eq_ok_iff.1 h
      obtain ⟨processes, hProcesses, h⟩ := Outcome.bind_eq_ok_iff.1 h
      split at h
      · cases h
      · next dataModel hDataModel =>
          obtain ⟨types, hTypes, h⟩ := Outcome.bind_eq_ok_iff.1 h
          obtain rfl := Except.ok.inj h
          exact ⟨not_not.1 hName, hId, rfl, hProcesses, dataModel, hDataModel, hTypes⟩

theorem wellFormed_of_ofXml {root : Element} {contract : Contract}
    (h : ofXml root = .ok contract) : contract.WellFormed := by
  have hParts := readFrom_of_ofXml h
  obtain ⟨dataModel, -, hTypes⟩ := hParts.dataTypes
  have hHolds := DataModel.holds_of_ofXml hTypes
  refine ⟨?_, ?_, contract.dataTypes.pairwise_ids, ?_⟩
  · intro process hProcess
    obtain ⟨declaration, -, hRead⟩ := Outcome.exists_of_mem_mapM hParts.processes hProcess
    exact Workflow.ProcessGraph.wellFormed_of_ofXml hRead
  · exact fun entry hEntry => (hHolds entry hEntry).1
  · exact fun entry hEntry => (hHolds entry hEntry).2

/-- Whatever the document, an accepted contract is well-formed. -/
theorem wellFormed_of_parse {text : String} {contract : Contract}
    (h : parse text = .ok contract) : contract.WellFormed := by
  obtain ⟨root, -, hRead⟩ := Outcome.bind_eq_ok_iff.1 h
  exact wellFormed_of_ofXml hRead

/-- A task whose name says by whom it is done, a service without anything but its id, and a flow
between the two. The entity declares one property twice. -/
def shopOutlines : List Outline :=
  [field Tag.id "c",
    group Tag.process
      [field Tag.id "p",
        group Tag.sequenceFlow [field Tag.id "f", field Tag.sourceId "s", field Tag.targetId "t",
          field Tag.name "if"],
        nodeOutline .userTask "t"
          [field Tag.name "[0xA] Re view", group Tag.incoming [], group Tag.outgoing [],
            field Tag.loopCardinality " -3 ",
            group Tag.form [group Tag.formField [field Tag.id "m", field Tag.name "Un it",
              field Tag.readOnly "true", field Tag.propertyId "q"]]],
        nodeOutline .serviceTask "s" []],
    group Tag.dataModel
      [group Tag.token [field Tag.id "k"],
        group Tag.entity [field Tag.id "e", field Tag.name "A b",
          group Tag.primitiveProperties [group Tag.primitiveProperty [field Tag.id "q"],
            group Tag.primitiveProperty [field Tag.id "q"]]]]]

def shop : Contract where
  id := "c"
  name := none
  processes := [{
    id := "p"
    isExecutable := false
    nodes := ⟨[("s", .serviceTask "s"),
      ("t", .userTask ⟨"t", "Review", [], []⟩ ⟨.single, some (-3), none⟩
        ⟨.none, some (.address "0xA"), none, some ⟨some "m", [⟨"m", "Unit", true, "q"⟩]⟩⟩)],
      by decide⟩
    flows := ⟨[("f", ⟨"f", "s", "t", some "if", some "if"⟩)], by decide⟩ }]
  dataTypes := ⟨[
    ("e", .entity ⟨"e", "Ab", false, [⟨"q", "", false, .primitive, none, none, none⟩]⟩),
    ("k", .token ⟨"k", "", none, false, false, none, none, none, []⟩)], by decide⟩

theorem wellFormed_of_shop_parse :
    parse (Outline.document ⟨Tag.contract, inferInstance⟩ shopOutlines).text = .ok shop ∧
      shop.WellFormed := by
  have hHeight : ∀ part ∈ shopOutlines, part.toItem.height ≤ 511 := by decide
  obtain ⟨root, hRoot, hSame⟩ := Outline.parse_document ⟨Tag.contract, inferInstance⟩ hHeight
  have h : parse (Outline.document ⟨Tag.contract, inferInstance⟩ shopOutlines).text = .ok shop := by
    rw [parse_of_document hRoot]
    apply ofXml_congr hSame
    decide +kernel
  exact ⟨h, wellFormed_of_parse h⟩

end ContractDoc.Contract

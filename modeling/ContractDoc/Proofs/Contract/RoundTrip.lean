import ContractDoc.Proofs.Contract.Layout
import ContractDoc.Proofs.Contract.WellFormed
import ContractDoc.Proofs.DataModel.RoundTrip
import ContractDoc.Proofs.Workflow.RoundTrip

/-! # Contracts are read back

The document of a well-formed contract is accepted, and the contract that is read from it is the
one that it was written for.
-/

namespace ContractDoc.Contract

open Xml (Element Outline)
open Xml.Outline

attribute [local simp] Tag.contract Tag.id Tag.name Tag.process Tag.dataModel

theorem height_node_le (node : Workflow.FlowNode) : node.outline.toItem.height ≤ 4 := by
  cases node <;>
    simp [Workflow.FlowNode.outline, Workflow.headed, Workflow.nodeOutline,
      Workflow.NodeHeader.outlines, Workflow.edgesOutline, Workflow.TaskSettings.outlines,
      Workflow.Timer.outlines, Workflow.TokenOperation.outline, Workflow.UserWork.outlines,
      Workflow.Form.outline, Workflow.FormField.outline, or_imp, forall_and]

theorem height_process_le (process : Workflow.ProcessGraph) :
    process.outline.toItem.height ≤ 5 := by
  simp [Workflow.ProcessGraph.outline, Workflow.SequenceFlow.outline, height_node_le, or_imp,
    forall_and]

theorem height_property_le (property : DataModel.Property) :
    property.outline.toItem.height ≤ 2 := by
  unfold DataModel.Property.outline
  split <;> simp [DataModel.Property.outlines, or_imp, forall_and]

theorem height_propertyList_le (properties : List DataModel.Property) :
    (DataModel.propertyList properties).toItem.height ≤ 3 := by
  rcases DataModel.propertyList_eq properties with hList | hList <;>
    simp [hList, height_property_le]

theorem height_type_le (type : DataModel.DataType) : type.outline.toItem.height ≤ 4 := by
  cases type with
  | entity entity =>
      simp [DataModel.DataType.outline, DataModel.Entity.outline, DataModel.propertyLists,
        height_propertyList_le]
  | token token =>
      have hProperty (property : DataModel.Property) : property.outline.toItem.height ≤ 3 :=
        (height_property_le property).trans (by decide)
      simp [DataModel.DataType.outline, DataModel.Token.outline, hProperty, or_imp, forall_and]
  | enumeration enumeration =>
      simp [DataModel.DataType.outline, DataModel.Enumeration.outline]

theorem height_outlines_le (contract : Contract) :
    ∀ part ∈ contract.outlines, part.toItem.height ≤ 511 := by
  have hFive : ∀ part ∈ contract.outlines, part.toItem.height ≤ 5 := by
    simp [outlines, DataModel.outline, height_process_le, height_type_le, or_imp, forall_and]
  intro part hPart
  exact (hFive part hPart).trans (by decide)

/-- Nothing is read from the attributes and the text of the root. -/
theorem ofXml_eq_of_children {root root' : Element} (hName : root.name = root'.name)
    (hChildren : root.children = root'.children) (hLine : root.line = root'.line) :
    ofXml root = ofXml root' := by
  cases root
  cases root'
  cases hName
  cases hChildren
  cases hLine
  rfl

theorem ofXml_rootElement (label : Xml.Label) (parts : List Outline) :
    ofXml (rootElement label parts) = ofXml (Outline.branch label none parts).toElement := by
  have hName : (rootElement label parts).name = label.name := String.ofList_toList
  apply ofXml_eq_of_children hName
  · rw [children_toElement]
    rfl
  · rfl

def sectionNames : List String := [Tag.process, Tag.dataModel]

theorem foreign_process (process : Workflow.ProcessGraph) :
    ∀ part ∈ process.outline.parts, part.Foreign sectionNames := by
  have hSections : sectionNames ⊆ Workflow.sectionNames := by decide
  have hNode (node : Workflow.FlowNode) : node.outline.Foreign sectionNames := by
    have hName := Workflow.FlowNode.name_outline node
    exact foreign_of_parts (by rw [hName]; decide) (Workflow.foreign_node node) hSections
  have hFlow (flow : Workflow.SequenceFlow) : flow.outline.Foreign sectionNames := by
    have hName : flow.outline.name = Tag.sequenceFlow := rfl
    exact foreign_of_parts (by rw [hName]; decide) (Workflow.foreign_flow flow) hSections
  simp +decide [Workflow.ProcessGraph.outline, hNode, hFlow, or_imp, forall_and]

theorem foreign_dataModel (types : Registry DataModel.DataType) :
    (DataModel.outline types).Foreign [Tag.process] := by
  have hType (type : DataModel.DataType) : type.outline.Foreign [Tag.process] := by
    have hName : type.outline.name ∉ [Tag.process] := by
      cases type <;>
        simp +decide [DataModel.DataType.outline, DataModel.Entity.outline,
          DataModel.Token.outline, DataModel.Enumeration.outline]
    exact foreign_of_parts hName (DataModel.foreign_type type) (by decide)
  rw [DataModel.outline, foreign_group, List.forall_mem_map]
  exact ⟨by decide, fun type _ => hType type⟩

theorem descendantsNamed_process (contract : Contract) :
    (group Tag.contract contract.outlines).toElement.descendantsNamed Tag.process =
      contract.processes.map fun process => process.outline.toElement := by
  have hTypes : ∀ part ∈ [DataModel.outline contract.dataTypes], part.Foreign [Tag.process] := by
    rw [List.forall_mem_singleton]
    exact foreign_dataModel contract.dataTypes
  have hFields : ∀ part ∈ field Tag.id contract.id :: field? Tag.name contract.name,
      part.Foreign [Tag.process] := by
    simp
  have hSplit : contract.outlines = (field Tag.id contract.id :: field? Tag.name contract.name) ++
      (contract.processes.map Workflow.ProcessGraph.outline ++
        [DataModel.outline contract.dataTypes]) := by
    simp [outlines]
  have hProcesses := filter_innerAll_map (f := Workflow.ProcessGraph.outline)
    (m := Tag.process) (fun _ => rfl)
    (fun process (_ : process ∈ contract.processes) => foreign_process process) (by decide)
  rw [descendantsNamed_toElement, inner_group, hSplit, innerAll_append, innerAll_append,
    List.filter_append, List.filter_append, filter_foreign hFields (by simp),
    filter_foreign hTypes (by simp), hProcesses, List.nil_append, List.append_nil, List.map_map]
  rfl

theorem search_dataModel (contract : Contract) :
    search contract.outlines Tag.dataModel = some (DataModel.outline contract.dataTypes) := by
  have hProcess : ∀ part ∈ contract.processes.map Workflow.ProcessGraph.outline,
      part.Foreign [Tag.dataModel] := by
    intro part hPart
    obtain ⟨process, -, rfl⟩ := List.mem_map.1 hPart
    have hName : process.outline.name = Tag.process := rfl
    exact foreign_of_parts (by rw [hName]; decide) (foreign_process process) (by decide)
  rw [outlines, search_cons, search_append, search_append, search_foreign hProcess (by decide)]
  simp [DataModel.outline]

theorem ofXml_outlines {contract : Contract} (h : contract.WellFormed)
    (hBracket : ∀ process ∈ contract.processes,
      process.nodes.Holds fun _ node => ∀ name ∈ node.name?, ']' ∉ name.toList) :
    ofXml (group Tag.contract contract.outlines).toElement = .ok contract := by
  have hProcesses : (contract.processes.map fun process =>
      process.outline.toElement).mapM Workflow.ProcessGraph.ofXml = .ok contract.processes :=
    Outcome.mapM_map_eq_ok fun process hProcess =>
      Workflow.ProcessGraph.ofXml_outline (h.processes process hProcess)
        (hBracket process hProcess)
  have hId : (group Tag.contract contract.outlines).toElement.requireText Tag.id
      .contractWithoutId = .ok contract.id := by
    simp [Element.requireText, outlines]
  have hName : (group Tag.contract contract.outlines).toElement.childText? Tag.name =
      contract.name := by
    -- the search for a name that is left out goes on through the sections
    have hTail : lookup (contract.processes.map Workflow.ProcessGraph.outline ++
        [DataModel.outline contract.dataTypes]) Tag.name = none := by
      apply lookup_eq_none
      intro part hPart
      rcases List.mem_append.1 hPart with hPart | hPart
      · obtain ⟨process, -, rfl⟩ := List.mem_map.1 hPart
        simp [Workflow.ProcessGraph.outline]
      · obtain rfl := List.mem_singleton.1 hPart
        simp [DataModel.outline]
    have hOther : (field Tag.id contract.id).name ≠ Tag.name := by simp
    rw [childText?_toElement, parts_group, outlines, List.append_assoc, lookup_cons,
      if_neg hOther, lookup_append, hTail]
    simp [Function.comp_def]
  have hRoot : ¬(group Tag.contract contract.outlines).toElement.name ≠ Tag.contract :=
    fun hNe => hNe rfl
  rw [ofXml, if_neg hRoot, hId, Outcome.ok_bind, descendantsNamed_process, hProcesses,
    Outcome.ok_bind, firstDescendant?_toElement, parts_group, search_dataModel, hName]
  simp only [Option.map_some, DataModel.ofXml_outline h.typeKeys h.types]
  rfl

/-- What a well-formed contract is written as is read back as the contract. Since every contract
that is read is well-formed, no others are read back. -/
theorem parse_write {contract : Contract} (h : contract.WellFormed)
    (hBracket : ∀ process ∈ contract.processes,
      process.nodes.Holds fun _ node => ∀ name ∈ node.name?, ']' ∉ name.toList) :
    parse contract.write = .ok contract := by
  -- the tree is the written one but for its lines, which no contract depends on
  obtain ⟨root, hRoot, hSame⟩ := parse_document ⟨Tag.contract, inferInstance⟩
    (height_outlines_le contract)
  have hRead : ofXml (rootElement ⟨Tag.contract, inferInstance⟩ contract.outlines) = .ok contract :=
    (ofXml_rootElement _ _).trans (ofXml_outlines h hBracket)
  rw [parse, write, hRoot, Outcome.ok_bind]
  exact ofXml_congr hSame hRead

def review : Workflow.FlowNode :=
  .userTask ⟨"t", "Review", ["f"], []⟩ ⟨.single, none, none⟩
    ⟨.none, some (.address "0xA b"), none, some ⟨some "m", [⟨"p", "Price", false, "x<1"⟩]⟩⟩

/-- A contract with a user task for an assignee and an entity with properties of both kinds. -/
def reviewContract : Contract where
  id := "c"
  name := some "R & D"
  processes := [{
    id := "p"
    isExecutable := true
    nodes := ⟨[("t", review)], by decide⟩
    flows := ⟨[("f", ⟨"f", "s", "t", some "x > 1", some "x > 1"⟩)], by decide⟩ }]
  dataTypes := ⟨[("e", .entity ⟨"e", "Order", true,
    [⟨"a", "Price", true, .primitive, some .uint, none, none⟩,
      ⟨"b", "Item", false, .reference, none, some .int, some "i"⟩]⟩)], by decide⟩

theorem wellFormed_review : review.WellFormed where
  name := by
    rintro name hName
    obtain rfl := Option.some.inj hName
    decide
  cardinality := by
    rintro settings hSettings count hCount
    obtain rfl := Option.some.inj hSettings
    cases hCount
  assignee := by
    rintro work hWork assignee hAssignee
    obtain rfl := Option.some.inj hWork
    obtain rfl := Option.some.inj hAssignee
    exact ⟨by decide, ⟨fun _ => by decide, fun _ => ⟨_, rfl⟩⟩⟩
  form := by
    rintro work hWork form hForm
    obtain rfl := Option.some.inj hWork
    obtain rfl := Option.some.inj hForm
    exact ⟨by decide, fun _ => rfl⟩

theorem wellFormed_reviewContract : reviewContract.WellFormed where
  processes := by
    intro process hProcess
    obtain rfl := List.mem_singleton.1 hProcess
    exact {
      nodeKeys := by simp [Registry.Holds, review, Workflow.FlowNode.id, Workflow.FlowNode.header?]
      nodeOrder := by decide
      nodes := by simp [Registry.Holds, wellFormed_review]
      flowKeys := by simp [Registry.Holds]
      flowOrder := by decide
      flows := by simp [Registry.Holds] }
  typeKeys := by simp [reviewContract, Registry.Holds, DataModel.DataType.id]
  typeOrder := by decide
  types := by
    intro entry hEntry
    obtain rfl := List.mem_singleton.1 hEntry
    exact ⟨by decide, by decide, by
      rintro entity hEntity
      obtain rfl := DataModel.DataType.entity.inj hEntity
      decide⟩

/-- The name of the task is written with an assignee whose text has a blank. -/
theorem parse_write_review : parse reviewContract.write = .ok reviewContract := by
  apply parse_write wellFormed_reviewContract
  simp [reviewContract, Registry.Holds, review, Workflow.FlowNode.name?,
    Workflow.FlowNode.header?]

example : (Contract.mk "c" (some "R & D") [] .empty).write =
    "<EditorContract xmlns:xsi=\"http://www.w3.org/2001/XMLSchema-instance\"><Id>c</Id>" ++
      "<Name>R &amp; D</Name><DataModel></DataModel></EditorContract>" := by
  decide +kernel

end ContractDoc.Contract

import ContractDoc.Proofs.Workflow.Declarations
import Mathlib.Data.List.Nodup
import Mathlib.Data.Option.Basic
import Mathlib.Tactic.MkIffOfInductiveProp

/-! # The grammar of process sections

What a process section has to contain: each of its declarations is complete for its kind, and no
two flows and no two nodes have the same id. Exactly the sections that follow this grammar are read
as processes.
-/

namespace ContractDoc.Workflow

open Outcome (Succeeds)
open Xml (Element)

namespace Grammar

@[mk_iff]
structure IsFlow (declaration : Element) : Prop where
  id : declaration.HasChild Tag.id
  source : declaration.HasChild Tag.sourceId
  target : declaration.HasChild Tag.targetId

@[mk_iff]
structure HasHeader (declaration : Element) : Prop where
  id : declaration.HasChild Tag.id
  incoming : declaration.HasDescendant Tag.incoming
  outgoing : declaration.HasDescendant Tag.outgoing

/-- The settings of a task may be missing. If they are there, the first ones have to be valid. -/
@[mk_iff]
structure HasSettings (declaration : Element) : Prop where
  instanceType : ∀ type ∈ declaration.child? Tag.instanceType,
    type.Spells ["Single", "Sequential", "Parallel"]
  loopCardinality : ∀ count ∈ declaration.child? Tag.loopCardinality, count.IsInt32

def HasOperation (declaration : Element) : Prop :=
  ∀ operation ∈ declaration.child? Tag.operationType, operation.Spells ["None", "Mint", "Transfer"]

@[mk_iff]
structure IsField (field : Element) : Prop where
  id : field.HasDescendant Tag.id
  name : field.HasDescendant Tag.name
  readOnly : field.HasDescendant Tag.readOnly
  property : field.HasDescendant Tag.propertyId

/-- The first form below a declaration, if there is one, has only complete fields below it. -/
def HasForm (declaration : Element) : Prop :=
  ∀ form ∈ declaration.firstDescendant? Tag.form,
    ∀ field ∈ form.descendantsNamed Tag.formField, IsField field

@[mk_iff]
structure HasTimer (declaration : Element) : Prop where
  attachedTo : declaration.HasChild Tag.attachedTo
  definitionType : ∃ type, declaration.child? Tag.definitionType = some type ∧
    type.Spells ["Date", "Cycle", "Duration"]
  definition : declaration.HasChild Tag.definition

/-- What a declaration has to contain for each kind of node. -/
def IsNodeOf (declaration : Element) : NodeKind → Prop
  | .serviceTask | .businessRuleTask => declaration.HasChild Tag.id
  | .startEvent | .endEvent | .exclusiveGateway | .parallelGateway => HasHeader declaration
  | .timerBoundaryEvent => HasHeader declaration ∧ HasTimer declaration
  | .scriptTask =>
      HasHeader declaration ∧ HasSettings declaration ∧ HasOperation declaration ∧
        declaration.HasChild Tag.script
  | .userTask =>
      HasHeader declaration ∧ HasSettings declaration ∧ HasOperation declaration ∧
        HasForm declaration
  | .callActivity =>
      HasHeader declaration ∧ HasSettings declaration ∧ declaration.HasChild Tag.calledElement

/-- The type attribute of a declaration names a kind, and the declaration is complete for it. -/
def IsNode (declaration : Element) : Prop :=
  ∃ kind : NodeKind, declaration.attribute? (some schemaInstanceUri) typeAttribute =
    some kind.discriminator ∧ IsNodeOf declaration kind

/-- The ids of all declarations of that name below a section, in document order, differ. -/
def DistinctIds (declaration : Element) (name : String) : Prop :=
  ((declaration.descendantsNamed name).map (Element.childText? · Tag.id)).Nodup

@[mk_iff]
structure IsProcess (declaration : Element) : Prop where
  id : declaration.HasChild Tag.id
  isExecutable : ∀ mark ∈ declaration.child? Tag.isExecutable, mark.IsBoolean
  flows : ∀ flow ∈ declaration.descendantsNamed Tag.sequenceFlow, IsFlow flow
  flowIds : DistinctIds declaration Tag.sequenceFlow
  nodes : ∀ node ∈ declaration.descendantsNamed Tag.flowNode, IsNode node
  nodeIds : DistinctIds declaration Tag.flowNode

end Grammar

open Grammar

variable {declaration : Element}

attribute [local simp] Outcome.succeeds_bind_iff

theorem words_instanceType :
    Keyword.words InstanceType = ["Single", "Sequential", "Parallel"] := rfl

theorem words_tokenOperation : Keyword.words TokenOperation = ["None", "Mint", "Transfer"] := rfl

theorem words_timerType : Keyword.words TimerType = ["Date", "Cycle", "Duration"] := rfl

theorem SequenceFlow.succeeds_ofXml_iff :
    Succeeds (SequenceFlow.ofXml declaration) ↔ IsFlow declaration := by
  simp [SequenceFlow.ofXml, Element.succeeds_requireText_iff, isFlow_iff]

theorem succeeds_nodeId_iff : Succeeds (nodeId declaration) ↔ declaration.HasChild Tag.id :=
  Element.succeeds_requireText_iff

theorem succeeds_edgeList_iff {name : String} :
    Succeeds (edgeList declaration name) ↔ declaration.HasDescendant name := by
  rw [← Element.isSome_firstDescendant?_iff, edgeList]
  split <;> simp_all

theorem NodeHeader.succeeds_ofXml_iff :
    Succeeds (NodeHeader.ofXml declaration) ↔ HasHeader declaration := by
  simp [NodeHeader.ofXml, succeeds_nodeId_iff, succeeds_edgeList_iff, hasHeader_iff]

theorem TaskSettings.succeeds_ofXml_iff :
    Succeeds (TaskSettings.ofXml declaration) ↔ HasSettings declaration := by
  simp [TaskSettings.ofXml, Element.succeeds_readChild?_iff,
    Element.succeeds_parseText_ofText?_iff, Element.succeeds_parseText_int32?_iff,
    words_instanceType, hasSettings_iff]

theorem TokenOperation.succeeds_ofXml_iff :
    Succeeds (TokenOperation.ofXml declaration) ↔ HasOperation declaration := by
  simp [TokenOperation.ofXml, Element.succeeds_readChild?_iff,
    Element.succeeds_parseText_ofText?_iff, words_tokenOperation, HasOperation]

theorem succeeds_formFieldPart_iff {name : String} :
    Succeeds (formFieldPart declaration name) ↔ declaration.HasDescendant name := by
  rw [← Element.isSome_firstDescendant?_iff, formFieldPart]
  split <;> simp_all

theorem FormField.succeeds_ofXml_iff :
    Succeeds (FormField.ofXml declaration) ↔ IsField declaration := by
  simp [FormField.ofXml, succeeds_formFieldPart_iff, isField_iff]

theorem Form.succeeds_ofXml_iff :
    Succeeds (Form.ofXml declaration) ↔
      ∀ field ∈ declaration.descendantsNamed Tag.formField, IsField field := by
  simp [Form.ofXml, Outcome.succeeds_mapM_iff, FormField.succeeds_ofXml_iff]

theorem UserWork.succeeds_ofXml_iff :
    Succeeds (UserWork.ofXml declaration) ↔ HasOperation declaration ∧ HasForm declaration := by
  rw [UserWork.ofXml, HasForm]
  cases declaration.firstDescendant? Tag.form with
  | none => simp [TokenOperation.succeeds_ofXml_iff]
  | some form => simp [TokenOperation.succeeds_ofXml_iff, Form.succeeds_ofXml_iff]

theorem Timer.succeeds_ofXml_iff {node : String} :
    Succeeds (Timer.ofXml declaration node) ↔ HasTimer declaration := by
  rw [hasTimer_iff, Timer.ofXml, Element.readChild?]
  cases declaration.child? Tag.definitionType with
  | none => simp
  | some type =>
      simp [Outcome.exceptMap_bind, Element.succeeds_requireText_iff,
        Element.succeeds_parseText_ofText?_iff, words_timerType]

/-- Each builder asks for exactly what its kind of node needs. -/
theorem FlowNode.succeeds_ofXmlAs_iff {kind : NodeKind} :
    Succeeds (FlowNode.ofXmlAs declaration kind) ↔ IsNodeOf declaration kind := by
  cases kind with
  | startEvent | endEvent | exclusiveGateway | parallelGateway =>
      simp [FlowNode.ofXmlAs, IsNodeOf, NodeHeader.succeeds_ofXml_iff]
  | serviceTask | businessRuleTask =>
      simp [FlowNode.ofXmlAs, IsNodeOf, succeeds_nodeId_iff]
  | timerBoundaryEvent =>
      simp [FlowNode.ofXmlAs, IsNodeOf, NodeHeader.succeeds_ofXml_iff, Timer.succeeds_ofXml_iff]
  | scriptTask =>
      simp [FlowNode.ofXmlAs, IsNodeOf, NodeHeader.succeeds_ofXml_iff,
        TaskSettings.succeeds_ofXml_iff, TokenOperation.succeeds_ofXml_iff,
        Element.succeeds_requireText_iff]
  | userTask =>
      simp [FlowNode.ofXmlAs, IsNodeOf, NodeHeader.succeeds_ofXml_iff,
        TaskSettings.succeeds_ofXml_iff, UserWork.succeeds_ofXml_iff]
  | callActivity =>
      simp [FlowNode.ofXmlAs, IsNodeOf, NodeHeader.succeeds_ofXml_iff,
        TaskSettings.succeeds_ofXml_iff, Element.succeeds_requireText_iff]

theorem FlowNode.succeeds_ofXml_iff :
    Succeeds (FlowNode.ofXml declaration) ↔ IsNode declaration := by
  simp [FlowNode.ofXml, NodeKind.ofXml_eq_ok_iff, FlowNode.succeeds_ofXmlAs_iff, IsNode]

/-- Declarations can be read and filed exactly if each of them can be read and the ids that they
give differ, since what is read from a declaration has the id that it gives. -/
theorem exists_registerAll?_iff {α : Type} {read : Element → Except DocumentError α}
    {id : α → String} {declarations : List Element}
    (hId : ∀ declaration value, read declaration = .ok value →
      declaration.childText? Tag.id = some (id value)) :
    (∃ registry values, declarations.mapM read = .ok values ∧
        Registry.empty.registerAll? id values = some registry) ↔
      (∀ declaration ∈ declarations, Succeeds (read declaration)) ∧
        (declarations.map (Element.childText? · Tag.id)).Nodup := by
  have hNodup : ∀ values, declarations.mapM read = .ok values →
      ((declarations.map (Element.childText? · Tag.id)).Nodup ↔ (values.map id).Nodup) := by
    intro values hRead
    have hIds : declarations.map (Element.childText? · Tag.id) = (values.map id).map some := by
      rw [List.map_map]
      exact Outcome.map_eq_map_of_forall₂ hId (Outcome.mapM_eq_ok_iff.1 hRead)
    rw [hIds, List.nodup_map_iff (Option.some_injective _)]
  rw [← Outcome.succeeds_mapM_iff]
  constructor
  · rintro ⟨registry, values, hRead, hFiled⟩
    have hDistinct := Registry.isSome_registerAll?_iff.1 (Option.isSome_of_eq_some hFiled)
    exact ⟨⟨values, hRead⟩, (hNodup values hRead).2 hDistinct.1⟩
  · rintro ⟨⟨values, hRead⟩, hDistinct⟩
    have hFiled : (Registry.empty.registerAll? id values).isSome :=
      Registry.isSome_registerAll?_iff.2 ⟨(hNodup values hRead).1 hDistinct,
        fun value _ => List.not_mem_nil⟩
    obtain ⟨registry, hFiled⟩ := Option.isSome_iff_exists.1 hFiled
    exact ⟨registry, values, hRead, hFiled⟩

theorem Declarations.succeeds_foldlM_add_iff :
    Succeeds (declaration.descendants.foldlM Declarations.add .empty) ↔
      ((∀ flow ∈ declaration.descendantsNamed Tag.sequenceFlow, IsFlow flow) ∧
        DistinctIds declaration Tag.sequenceFlow) ∧
      (∀ node ∈ declaration.descendantsNamed Tag.flowNode, IsNode node) ∧
        DistinctIds declaration Tag.flowNode := by
  simp only [← SequenceFlow.succeeds_ofXml_iff, ← FlowNode.succeeds_ofXml_iff, DistinctIds]
  rw [← exists_registerAll?_iff fun _ _ hFlow => (SequenceFlow.declaredBy_of_ofXml hFlow).id,
    ← exists_registerAll?_iff fun _ _ hNode => (FlowNode.declaredBy_of_ofXml hNode).id]
  constructor
  · rintro ⟨next, hNext⟩
    obtain ⟨hFlows, hNodes⟩ := foldlM_add_eq_ok_iff.1 hNext
    exact ⟨⟨next.flows, hFlows⟩, next.nodes, hNodes⟩
  · rintro ⟨⟨flows, hFlows⟩, nodes, hNodes⟩
    exact ⟨⟨nodes, flows⟩, foldlM_add_eq_ok_iff.2 ⟨hFlows, hNodes⟩⟩

/-- Exactly the sections that follow the grammar are read as processes. -/
theorem ProcessGraph.exists_ofXml_iff :
    (∃ process, ProcessGraph.ofXml declaration = .ok process) ↔ IsProcess declaration := by
  simp [ProcessGraph.ofXml, Element.succeeds_requireText_iff, Element.succeeds_readChild?_iff,
    Element.succeeds_boolValue_iff, Declarations.succeeds_foldlM_add_iff, isProcess_iff, and_assoc]

end ContractDoc.Workflow

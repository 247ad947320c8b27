import ContractDoc.Proofs.Workflow.WellFormed
import ContractDoc.Proofs.Xml.Content

/-! # Declarations in process sections

A process section is gone through once. What comes out is what one gets by reading its flows and
its nodes apart, each in their order, and filing each under the id that its declaration gives.
-/

namespace ContractDoc.Workflow

open Xml (Element)

/-- The parts of a flow are the texts of the first children of its declaration. -/
structure SequenceFlow.DeclaredBy (declaration : Element) (flow : SequenceFlow) : Prop where
  id : declaration.childText? Tag.id = some flow.id
  sourceId : declaration.childText? Tag.sourceId = some flow.sourceId
  targetId : declaration.childText? Tag.targetId = some flow.targetId
  name : declaration.childText? Tag.name = flow.name

/-- A node has the id and the kind that its declaration gives. -/
structure FlowNode.DeclaredBy (declaration : Element) (node : FlowNode) : Prop where
  id : declaration.childText? Tag.id = some node.id
  kind : declaration.attribute? (some schemaInstanceUri) typeAttribute =
    some node.kind.discriminator

variable {declaration : Element}

theorem SequenceFlow.declaredBy_of_ofXml {flow : SequenceFlow}
    (h : SequenceFlow.ofXml declaration = .ok flow) : flow.DeclaredBy declaration := by
  obtain ⟨id, hId, h⟩ := Outcome.bind_eq_ok_iff.1 h
  obtain ⟨sourceId, hSource, h⟩ := Outcome.bind_eq_ok_iff.1 h
  obtain ⟨targetId, hTarget, h⟩ := Outcome.bind_eq_ok_iff.1 h
  obtain rfl := Except.ok.inj h
  rw [Element.requireText_eq_ok_iff] at hId hSource hTarget
  exact ⟨hId, hSource, hTarget, rfl⟩

theorem nodeId_eq_ok_iff {id : String} :
    nodeId declaration = .ok id ↔ declaration.childText? Tag.id = some id :=
  Element.requireText_eq_ok_iff

theorem NodeKind.ofXml_eq_ok_iff {kind : NodeKind} :
    NodeKind.ofXml declaration = .ok kind ↔
      declaration.attribute? (some schemaInstanceUri) typeAttribute = some kind.discriminator := by
  unfold NodeKind.ofXml
  split
  · next hType => simp [hType]
  · next text hType =>
      rw [hType, Option.some_inj, ← NodeKind.ofDiscriminator?_eq_some_iff]
      split <;> simp_all

theorem FlowNode.declaredBy_of_ofXml {node : FlowNode}
    (h : FlowNode.ofXml declaration = .ok node) : node.DeclaredBy declaration := by
  obtain ⟨kind, hKind, hNode⟩ := Outcome.bind_eq_ok_iff.1 h
  have hReads := FlowNode.readsAs_of_ofXmlAs hNode
  obtain rfl := hReads.kind
  exact ⟨nodeId_eq_ok_iff.1 hReads.id, NodeKind.ofXml_eq_ok_iff.1 hKind⟩

def isDeclaration (element : Element) : Bool :=
  element.name ∈ [Tag.sequenceFlow, Tag.flowNode]

def declarations (element : Element) : List Element := element.descendants.filter isDeclaration

namespace Declarations

variable {declared next : Declarations}

theorem tag_sequenceFlow_ne_flowNode : Tag.sequenceFlow ≠ Tag.flowNode := by decide

theorem add_of_sequenceFlow (h : declaration.name = Tag.sequenceFlow) :
    declared.add declaration = .ok next ↔
      ∃ flow, SequenceFlow.ofXml declaration = .ok flow ∧
        declared.flows.register? flow.id flow = some next.flows ∧ declared.nodes = next.nodes := by
  rw [add, if_pos h, Outcome.bind_eq_ok_iff]
  refine exists_congr fun flow => and_congr_right fun _ => ?_
  obtain ⟨nodes, flows⟩ := next
  cases declared.flows.register? flow.id flow <;> simp [and_comm]

theorem add_of_flowNode (h : declaration.name = Tag.flowNode) :
    declared.add declaration = .ok next ↔
      ∃ node, FlowNode.ofXml declaration = .ok node ∧
        declared.nodes.register? node.id node = some next.nodes ∧ declared.flows = next.flows := by
  rw [add, if_neg (h ▸ tag_sequenceFlow_ne_flowNode.symm), if_pos h, Outcome.bind_eq_ok_iff]
  refine exists_congr fun node => and_congr_right fun _ => ?_
  obtain ⟨nodes, flows⟩ := next
  cases declared.nodes.register? node.id node <;> simp

theorem add_of_other (hFlow : declaration.name ≠ Tag.sequenceFlow)
    (hNode : declaration.name ≠ Tag.flowNode) : declared.add declaration = .ok declared := by
  rw [add, if_neg hFlow, if_neg hNode]
  rfl

/-- Only declarations count. -/
theorem foldlM_add_declarations (element : Element) (declared : Declarations) :
    (declarations element).foldlM add declared = element.descendants.foldlM add declared := by
  apply Outcome.foldlM_filter_eq
  intro declared other hOther
  simp only [isDeclaration, List.mem_cons, List.not_mem_nil, or_false, decide_eq_false_iff_not,
    not_or] at hOther
  exact add_of_other hOther.1 hOther.2

/-- The flows and the nodes of a section are read apart, each in their order. -/
theorem foldlM_add_eq_ok_iff {elements : List Element} :
    elements.foldlM add declared = .ok next ↔
      (∃ flows, (elements.filter (·.name == Tag.sequenceFlow)).mapM SequenceFlow.ofXml =
          .ok flows ∧
        declared.flows.registerAll? SequenceFlow.id flows = some next.flows) ∧
      ∃ nodes, (elements.filter (·.name == Tag.flowNode)).mapM FlowNode.ofXml = .ok nodes ∧
        declared.nodes.registerAll? FlowNode.id nodes = some next.nodes := by
  simp only [Outcome.mapM_eq_ok_iff]
  induction elements generalizing declared with
  | nil =>
      obtain ⟨nodes, flows⟩ := next
      obtain ⟨oldNodes, oldFlows⟩ := declared
      simp [Registry.registerAll?, and_comm]
  | cons element elements ih =>
      rw [Outcome.foldlM_cons_eq_ok_iff]
      by_cases hFlow : element.name = Tag.sequenceFlow
      · have hNode : element.name ≠ Tag.flowNode := hFlow ▸ tag_sequenceFlow_ne_flowNode
        rw [List.filter_cons_of_pos (by simpa using hFlow),
          List.filter_cons_of_neg (by simpa using hNode)]
        simp only [List.forall₂_cons_left_iff, add_of_sequenceFlow hFlow, ih]
        constructor
        · rintro ⟨middle, ⟨flow, hRead, hRegister, hSame⟩, ⟨flows, hFlows, hAll⟩, hNodes⟩
          refine ⟨⟨flow :: flows, ⟨flow, flows, hRead, hFlows, rfl⟩, ?_⟩, hSame ▸ hNodes⟩
          exact Registry.registerAll?_cons_eq_some_iff.2 ⟨_, hRegister, hAll⟩
        · rintro ⟨⟨_, ⟨flow, flows, hRead, hFlows, rfl⟩, hAll⟩, hNodes⟩
          obtain ⟨registered, hRegister, hAll⟩ := Registry.registerAll?_cons_eq_some_iff.1 hAll
          exact ⟨⟨declared.nodes, registered⟩, ⟨flow, hRead, hRegister, rfl⟩,
            ⟨flows, hFlows, hAll⟩, hNodes⟩
      · rw [List.filter_cons_of_neg (by simpa using hFlow)]
        by_cases hNode : element.name = Tag.flowNode
        · rw [List.filter_cons_of_pos (by simpa using hNode)]
          simp only [List.forall₂_cons_left_iff, add_of_flowNode hNode, ih]
          constructor
          · rintro ⟨middle, ⟨node, hRead, hRegister, hSame⟩, hFlows, nodes, hNodes, hAll⟩
            refine ⟨hSame ▸ hFlows, node :: nodes, ⟨node, nodes, hRead, hNodes, rfl⟩, ?_⟩
            exact Registry.registerAll?_cons_eq_some_iff.2 ⟨_, hRegister, hAll⟩
          · rintro ⟨hFlows, _, ⟨node, nodes, hRead, hNodes, rfl⟩, hAll⟩
            obtain ⟨registered, hRegister, hAll⟩ := Registry.registerAll?_cons_eq_some_iff.1 hAll
            exact ⟨⟨registered, declared.flows⟩, ⟨node, hRead, hRegister, rfl⟩, hFlows,
              nodes, hNodes, hAll⟩
        · rw [List.filter_cons_of_neg (by simpa using hNode)]
          simp [add_of_other hFlow hNode, ih]

end Declarations

/-- The id under which a flow or a node is filed once its declaration has been read. -/
def readId (declaration : Element) : Except DocumentError String :=
  if declaration.name = Tag.sequenceFlow then SequenceFlow.id <$> SequenceFlow.ofXml declaration
  else FlowNode.id <$> FlowNode.ofXml declaration

def duplicate (declaration : Element) (id : String) : DocumentError :=
  declaration.defect
    (if declaration.name = Tag.sequenceFlow then .duplicateFlow id else .duplicateNode id)

/-- One of the declarations has that name and gives that id. -/
def Repeats (earlier : List Element) (name id : String) : Prop :=
  ∃ other ∈ earlier, other.name = name ∧ readId other = .ok id

variable {earlier : List Element} {id : String}

theorem isDeclaration_iff :
    isDeclaration declaration = true ↔
      declaration.name = Tag.sequenceFlow ∨ declaration.name = Tag.flowNode := by
  simp [isDeclaration]

theorem readId_of_sequenceFlow (h : declaration.name = Tag.sequenceFlow) :
    readId declaration = SequenceFlow.id <$> SequenceFlow.ofXml declaration := if_pos h

theorem readId_of_flowNode (h : declaration.name = Tag.flowNode) :
    readId declaration = FlowNode.id <$> FlowNode.ofXml declaration :=
  if_neg (h ▸ Declarations.tag_sequenceFlow_ne_flowNode.symm)

theorem repeats_concat_iff {name : String} :
    Repeats (earlier ++ [declaration]) name id ↔
      Repeats earlier name id ∨ declaration.name = name ∧ readId declaration = .ok id := by
  simp [Repeats, or_and_right, exists_or]

namespace Declarations

variable {declared next : Declarations}

def ids (declared : Declarations) (name : String) : List String :=
  if name = Tag.sequenceFlow then declared.flows.ids else declared.nodes.ids

@[simp] theorem ids_sequenceFlow : declared.ids Tag.sequenceFlow = declared.flows.ids := rfl

@[simp] theorem ids_flowNode : declared.ids Tag.flowNode = declared.nodes.ids := rfl

/-- A declaration is refused if it cannot be read, or if its id is in use. -/
theorem error?_add (hKind : isDeclaration declaration) :
    Outcome.error? (declared.add declaration) =
      match readId declaration with
      | .error error => some error
      | .ok id =>
          if id ∈ declared.ids declaration.name then some (duplicate declaration id) else none := by
  rcases isDeclaration_iff.1 hKind with hName | hName
  · rw [add, if_pos hName, readId_of_sequenceFlow hName]
    cases SequenceFlow.ofXml declaration with
    | error error => rfl
    | ok flow =>
        cases hRegister : declared.flows.register? flow.id flow with
        | none =>
            have hMem := Registry.register?_eq_none_iff.1 hRegister
            simp [hRegister, hName, hMem, duplicate]
        | some flows =>
            have hNew := (Registry.register?_eq_some_iff.1 hRegister).1
            simp [hRegister, hName, hNew]
  · have hOther : declaration.name ≠ Tag.sequenceFlow := hName ▸ tag_sequenceFlow_ne_flowNode.symm
    rw [add, if_neg hOther, if_pos hName, readId_of_flowNode hName]
    cases FlowNode.ofXml declaration with
    | error error => rfl
    | ok node =>
        cases hRegister : declared.nodes.register? node.id node with
        | none =>
            have hMem := Registry.register?_eq_none_iff.1 hRegister
            simp [hRegister, hName, hMem, duplicate, tag_sequenceFlow_ne_flowNode.symm]
        | some nodes =>
            have hNew := (Registry.register?_eq_some_iff.1 hRegister).1
            simp [hRegister, hName, hNew]

/-- A declaration that is taken in is filed under a new id, and nothing else changes. -/
theorem mem_ids_of_add (hKind : isDeclaration declaration)
    (h : declared.add declaration = .ok next) {name : String}
    (hName : name = Tag.sequenceFlow ∨ name = Tag.flowNode) :
    id ∈ next.ids name ↔
      id ∈ declared.ids name ∨ declaration.name = name ∧ readId declaration = .ok id := by
  rcases isDeclaration_iff.1 hKind with hFlow | hNode
  · obtain ⟨flow, hRead, hRegister, hSame⟩ := (add_of_sequenceFlow hFlow).1 h
    obtain ⟨hNew, hNext⟩ := Registry.register?_eq_some_iff.1 hRegister
    rw [readId_of_sequenceFlow hFlow, hRead, hFlow]
    rcases hName with rfl | rfl
    · simp [← hNext, Registry.mem_ids_insert hNew, or_comm, eq_comm]
    · simp [← hSame, tag_sequenceFlow_ne_flowNode]
  · obtain ⟨node, hRead, hRegister, hSame⟩ := (add_of_flowNode hNode).1 h
    obtain ⟨hNew, hNext⟩ := Registry.register?_eq_some_iff.1 hRegister
    rw [readId_of_flowNode hNode, hRead, hNode]
    rcases hName with rfl | rfl
    · simp [← hSame, tag_sequenceFlow_ne_flowNode.symm]
    · simp [← hNext, Registry.mem_ids_insert hNew, or_comm, eq_comm]

end Declarations
end ContractDoc.Workflow

import ContractDoc.Proofs.Outcome
import ContractDoc.Proofs.Registry
import ContractDoc.Proofs.Text.Blank
import ContractDoc.Proofs.Xml.Preorder
import ContractDoc.Workflow.OfXml

/-! # Well-formed processes

What holds of every process that is read from a document, wherever its declarations stand: names
are stripped, assignees are told apart by their first characters, forms with fields have ids, and
nodes and flows are filed under their own ids.
-/

namespace ContractDoc.Workflow

open Text (HasNoBlank)
open Xml (Element)

namespace Assignee

def text : Assignee → String
  | address text => text
  | username text => text

structure WellFormed (assignee : Assignee) : Prop where
  noBracket : ']' ∉ assignee.text.toList
  address : (∃ text, assignee = .address text) ↔ ['0', 'x'] <+: assignee.text.toList

end Assignee

structure Form.WellFormed (form : Form) : Prop where
  names : ∀ field ∈ form.fields, HasNoBlank field.displayName
  id : form.fields ≠ [] → form.id.isSome

namespace FlowNode

def settings? : FlowNode → Option TaskSettings
  | scriptTask _ settings _ _ | userTask _ settings _ | callActivity _ settings _ => some settings
  | _ => none

def work? : FlowNode → Option UserWork
  | userTask _ _ work => some work
  | _ => none

structure WellFormed (node : FlowNode) : Prop where
  name : ∀ name ∈ node.name?, HasNoBlank name
  cardinality : ∀ settings ∈ node.settings?, ∀ count ∈ settings.loopCardinality,
    -2147483648 ≤ count.toInt ∧ count.toInt ≤ 2147483647
  assignee : ∀ work ∈ node.work?, ∀ assignee ∈ work.assignee, assignee.WellFormed
  form : ∀ work ∈ node.work?, ∀ form ∈ work.form, form.WellFormed

end FlowNode

structure ProcessGraph.WellFormed (process : ProcessGraph) : Prop where
  nodeKeys : process.nodes.Holds fun id node => id = node.id
  nodeOrder : process.nodes.ids.Pairwise (· < ·)
  nodes : process.nodes.Holds fun _ node => node.WellFormed
  flowKeys : process.flows.Holds fun id flow => id = flow.id
  flowOrder : process.flows.ids.Pairwise (· < ·)
  flows : process.flows.Holds fun _ flow => flow.condition = flow.name

theorem hasNoBlank_display (raw : String) : HasNoBlank (Name.display raw) :=
  Text.hasNoBlank_strip _

theorem text_assigneeOf (text : List Char) : (Name.assigneeOf text).text = String.ofList text := by
  unfold Name.assigneeOf
  split <;> rfl

theorem wellFormed_assigneeOf {text : List Char} (h : ']' ∉ text) :
    (Name.assigneeOf text).WellFormed := by
  refine ⟨?_, ?_⟩
  · rwa [text_assigneeOf, String.toList_ofList]
  · rw [text_assigneeOf, String.toList_ofList]
    unfold Name.assigneeOf
    split
    · next rest => exact ⟨fun _ => ⟨rest, rfl⟩, fun _ => ⟨_, rfl⟩⟩
    · next hOther =>
        constructor
        · rintro ⟨_, hAddress⟩
          cases hAddress
        · rintro ⟨rest, rfl⟩
          exact absurd rfl (hOther rest)

theorem wellFormed_assignee? {raw : String} {assignee : Assignee}
    (h : Name.assignee? raw = some assignee) : assignee.WellFormed := by
  unfold Name.assignee? at h
  split at h
  · obtain ⟨rest, -, rfl⟩ := Option.map_eq_some_iff.1 h
    apply wellFormed_assigneeOf
    intro hMem
    simpa using List.all_eq_true.1 List.all_takeWhile ']' hMem
  · cases h

theorem FormField.displayName_of_ofXml {element : Element} {field : FormField}
    (h : FormField.ofXml element = .ok field) :
    HasNoBlank field.displayName ∧ (element.firstDescendant? Tag.id).isSome := by
  obtain ⟨id, hId, h⟩ := Outcome.bind_eq_ok_iff.1 h
  obtain ⟨name, -, h⟩ := Outcome.bind_eq_ok_iff.1 h
  obtain ⟨readOnly, -, h⟩ := Outcome.bind_eq_ok_iff.1 h
  obtain ⟨expression, -, h⟩ := Outcome.bind_eq_ok_iff.1 h
  obtain rfl := Except.ok.inj h
  refine ⟨Text.hasNoBlank_strip name, ?_⟩
  unfold formFieldPart at hId
  split at hId
  · next hPart => rw [hPart]; rfl
  · cases hId

/-- The id of a form may come from a field, so a form with a field has one. -/
theorem Form.wellFormed_of_ofXml {element : Element} {form : Form}
    (h : Form.ofXml element = .ok form) : form.WellFormed := by
  obtain ⟨fields, hFields, h⟩ := Outcome.bind_eq_ok_iff.1 h
  obtain rfl := Except.ok.inj h
  constructor
  · intro field hField
    obtain ⟨part, -, hPart⟩ := Outcome.exists_of_mem_mapM hFields hField
    exact (FormField.displayName_of_ofXml hPart).1
  · intro hSome
    obtain ⟨field, hField⟩ := List.exists_mem_of_ne_nil fields hSome
    obtain ⟨part, hMem, hPart⟩ := Outcome.exists_of_mem_mapM hFields hField
    obtain ⟨id, hId⟩ := Option.isSome_iff_exists.1 (FormField.displayName_of_ofXml hPart).2
    rw [Option.isSome_map]
    exact Element.isSome_firstDescendant? hId (List.mem_of_mem_filter hMem)

theorem UserWork.wellFormed_of_ofXml {declaration : Element} {work : UserWork}
    (h : UserWork.ofXml declaration = .ok work) :
    (∀ assignee ∈ work.assignee, assignee.WellFormed) ∧ ∀ form ∈ work.form, form.WellFormed := by
  obtain ⟨operation, -, h⟩ := Outcome.bind_eq_ok_iff.1 h
  dsimp only at h
  split at h
  · obtain ⟨found, hForm, h⟩ := Outcome.bind_eq_ok_iff.1 h
    obtain ⟨form, hRead, rfl⟩ := Outcome.map_eq_ok_iff.1 hForm
    obtain rfl := Except.ok.inj h
    refine ⟨fun assignee hAssignee => wellFormed_assignee? hAssignee, ?_⟩
    rintro _ ⟨⟩
    exact Form.wellFormed_of_ofXml hRead
  · obtain rfl := Except.ok.inj h
    exact ⟨fun assignee hAssignee => wellFormed_assignee? hAssignee, by simp⟩

theorem NodeHeader.name_of_ofXml {declaration : Element} {header : NodeHeader}
    (h : NodeHeader.ofXml declaration = .ok header) : HasNoBlank header.name := by
  obtain ⟨id, -, h⟩ := Outcome.bind_eq_ok_iff.1 h
  obtain ⟨incoming, -, h⟩ := Outcome.bind_eq_ok_iff.1 h
  obtain ⟨outgoing, -, h⟩ := Outcome.bind_eq_ok_iff.1 h
  obtain rfl := Except.ok.inj h
  exact hasNoBlank_display _

theorem NodeHeader.nodeId_of_ofXml {declaration : Element} {header : NodeHeader}
    (h : NodeHeader.ofXml declaration = .ok header) : nodeId declaration = .ok header.id := by
  obtain ⟨id, hId, h⟩ := Outcome.bind_eq_ok_iff.1 h
  obtain ⟨incoming, -, h⟩ := Outcome.bind_eq_ok_iff.1 h
  obtain ⟨outgoing, -, h⟩ := Outcome.bind_eq_ok_iff.1 h
  obtain rfl := Except.ok.inj h
  exact hId

namespace FlowNode

variable {declaration : Element} {kind : NodeKind} {node : FlowNode} {header : NodeHeader}

/-- A node of the given kind, of which every part is what the reader for it makes of the
declaration. -/
structure ReadsAs (declaration : Element) (kind : NodeKind) (node : FlowNode) : Prop where
  kind : node.kind = kind
  id : nodeId declaration = .ok node.id
  header : ∀ header ∈ node.header?, NodeHeader.ofXml declaration = .ok header
  work : ∀ work ∈ node.work?, UserWork.ofXml declaration = .ok work

theorem ReadsAs.of_header (hRead : NodeHeader.ofXml declaration = .ok header)
    (hKind : node.kind = kind) (hHeader : node.header? = some header)
    (hWork : ∀ work ∈ node.work?, UserWork.ofXml declaration = .ok work) :
    ReadsAs declaration kind node where
  kind := hKind
  id := id_of_header? hHeader ▸ NodeHeader.nodeId_of_ofXml hRead
  header other hOther := by
    obtain rfl : header = other := Option.some.inj (hHeader.symm.trans hOther)
    exact hRead
  work := hWork

theorem readsAs_of_ofXmlAs (h : ofXmlAs declaration kind = .ok node) :
    ReadsAs declaration kind node := by
  cases kind with
  | startEvent | endEvent | exclusiveGateway | parallelGateway =>
      obtain ⟨header, hHeader, rfl⟩ := Outcome.map_eq_ok_iff.1 h
      exact .of_header hHeader rfl rfl nofun
  | serviceTask | businessRuleTask =>
      obtain ⟨id, hId, rfl⟩ := Outcome.map_eq_ok_iff.1 h
      exact ⟨rfl, hId, nofun, nofun⟩
  | timerBoundaryEvent =>
      obtain ⟨header, hHeader, h⟩ := Outcome.bind_eq_ok_iff.1 h
      obtain ⟨timer, -, h⟩ := Outcome.bind_eq_ok_iff.1 h
      obtain rfl := Except.ok.inj h
      exact .of_header hHeader rfl rfl nofun
  | scriptTask =>
      obtain ⟨header, hHeader, h⟩ := Outcome.bind_eq_ok_iff.1 h
      obtain ⟨settings, -, h⟩ := Outcome.bind_eq_ok_iff.1 h
      obtain ⟨operation, -, h⟩ := Outcome.bind_eq_ok_iff.1 h
      obtain ⟨script, -, h⟩ := Outcome.bind_eq_ok_iff.1 h
      obtain rfl := Except.ok.inj h
      exact .of_header hHeader rfl rfl nofun
  | userTask =>
      obtain ⟨header, hHeader, h⟩ := Outcome.bind_eq_ok_iff.1 h
      obtain ⟨settings, -, h⟩ := Outcome.bind_eq_ok_iff.1 h
      obtain ⟨work, hWork, h⟩ := Outcome.bind_eq_ok_iff.1 h
      obtain rfl := Except.ok.inj h
      refine .of_header hHeader rfl rfl ?_
      rintro _ ⟨⟩
      exact hWork
  | callActivity =>
      obtain ⟨header, hHeader, h⟩ := Outcome.bind_eq_ok_iff.1 h
      obtain ⟨settings, -, h⟩ := Outcome.bind_eq_ok_iff.1 h
      obtain ⟨called, -, h⟩ := Outcome.bind_eq_ok_iff.1 h
      obtain rfl := Except.ok.inj h
      exact .of_header hHeader rfl rfl nofun

/-- Names are stripped whatever the kind of a node, and assignees and forms come with the work of
user tasks. -/
theorem ReadsAs.wellFormed (h : ReadsAs declaration kind node) : node.WellFormed where
  name := by
    intro name hName
    obtain ⟨header, hHeader, rfl⟩ := Option.map_eq_some_iff.1 hName
    exact NodeHeader.name_of_ofXml (h.header header hHeader)
  cardinality := by
    intro settings _ count _
    have hLower := count.le_toInt
    have hUpper := count.toInt_lt
    omega
  assignee work hWork := (UserWork.wellFormed_of_ofXml (h.work work hWork)).1
  form work hWork := (UserWork.wellFormed_of_ofXml (h.work work hWork)).2

end FlowNode

theorem FlowNode.wellFormed_of_ofXml {declaration : Element} {node : FlowNode}
    (h : FlowNode.ofXml declaration = .ok node) : node.WellFormed := by
  obtain ⟨kind, -, hNode⟩ := Outcome.bind_eq_ok_iff.1 h
  exact (FlowNode.readsAs_of_ofXmlAs hNode).wellFormed

theorem SequenceFlow.condition_of_ofXml {declaration : Element} {flow : SequenceFlow}
    (h : SequenceFlow.ofXml declaration = .ok flow) : flow.condition = flow.name := by
  obtain ⟨id, -, h⟩ := Outcome.bind_eq_ok_iff.1 h
  obtain ⟨source, -, h⟩ := Outcome.bind_eq_ok_iff.1 h
  obtain ⟨target, -, h⟩ := Outcome.bind_eq_ok_iff.1 h
  obtain rfl := Except.ok.inj h
  rfl

/-- What holds of the declarations of a process section from the first one to the last. -/
structure Declarations.WellFormed (declared : Declarations) : Prop where
  nodes : declared.nodes.Holds fun id node => id = node.id ∧ node.WellFormed
  flows : declared.flows.Holds fun id flow => id = flow.id ∧ flow.condition = flow.name

theorem Declarations.wellFormed_add {declared next : Declarations} {element : Element}
    (h : declared.WellFormed) (hNext : declared.add element = .ok next) : next.WellFormed := by
  unfold Declarations.add at hNext
  split at hNext
  · obtain ⟨flow, hFlow, hNext⟩ := Outcome.bind_eq_ok_iff.1 hNext
    split at hNext
    · next flows hRegister =>
        obtain rfl := Except.ok.inj hNext
        exact ⟨h.nodes, h.flows.register? ⟨rfl, SequenceFlow.condition_of_ofXml hFlow⟩ hRegister⟩
    · cases hNext
  · split at hNext
    · obtain ⟨node, hNode, hNext⟩ := Outcome.bind_eq_ok_iff.1 hNext
      split at hNext
      · next nodes hRegister =>
          obtain rfl := Except.ok.inj hNext
          exact ⟨h.nodes.register? ⟨rfl, FlowNode.wellFormed_of_ofXml hNode⟩ hRegister, h.flows⟩
      · cases hNext
    · obtain rfl := Except.ok.inj hNext
      exact h

theorem ProcessGraph.wellFormed_of_ofXml {declaration : Element} {process : ProcessGraph}
    (h : ProcessGraph.ofXml declaration = .ok process) : process.WellFormed := by
  obtain ⟨id, -, h⟩ := Outcome.bind_eq_ok_iff.1 h
  obtain ⟨isExecutable, -, h⟩ := Outcome.bind_eq_ok_iff.1 h
  obtain ⟨declared, hDeclared, h⟩ := Outcome.bind_eq_ok_iff.1 h
  obtain rfl := Except.ok.inj h
  have hAll : declared.WellFormed :=
    Outcome.foldlM_invariant (fun before element next _ hBefore hNext =>
      Declarations.wellFormed_add hBefore hNext) ⟨Registry.holds_empty, Registry.holds_empty⟩
      hDeclared
  exact
    { nodeKeys := fun entry hEntry => (hAll.nodes entry hEntry).1
      nodeOrder := declared.nodes.pairwise_ids
      nodes := fun entry hEntry => (hAll.nodes entry hEntry).2
      flowKeys := fun entry hEntry => (hAll.flows entry hEntry).1
      flowOrder := declared.flows.pairwise_ids
      flows := fun entry hEntry => (hAll.flows entry hEntry).2 }

end ContractDoc.Workflow

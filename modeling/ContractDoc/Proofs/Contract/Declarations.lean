import ContractDoc.Proofs.Contract.Lookup
import ContractDoc.Proofs.Workflow.Declarations
import ContractDoc.Proofs.Xml.Place

/-! # What becomes of declarations

Every process section of an accepted document is one process, and every declaration of a node or a
flow is one entry of each of the sections that it stands in. Nothing is lost on the way, nothing is
there twice, and every node keeps its kind.
-/

namespace ContractDoc

open Workflow (FlowNode ProcessGraph SequenceFlow)
open Xml (Element)

/-- The lists are related item by item, in some order: the relation holds along a bijection between
their positions. -/
def Matches {α β : Type} (R : α → β → Prop) (as : List α) (bs : List β) : Prop :=
  ∃ arranged, arranged.Perm bs ∧ List.Forall₂ R as arranged

namespace Matches

variable {α β γ δ : Type} {R : α → β → Prop} {as as' : List α} {bs bs' : List β}

theorem perm_left (hPerm : as.Perm as') (h : Matches R as' bs) : Matches R as bs := by
  obtain ⟨arranged, hArranged, hEach⟩ := h
  obtain ⟨rearranged, hEach, hRearranged⟩ := List.perm_comp_forall₂ hPerm hEach
  exact ⟨rearranged, hRearranged.trans hArranged, hEach⟩

theorem append (h : Matches R as bs) (h' : Matches R as' bs') :
    Matches R (as ++ as') (bs ++ bs') := by
  obtain ⟨arranged, hArranged, hEach⟩ := h
  obtain ⟨arranged', hArranged', hEach'⟩ := h'
  exact ⟨arranged ++ arranged', hArranged.append hArranged', List.rel_append hEach hEach'⟩

theorem map {S : γ → δ → Prop} {f : α → γ} {g : β → δ} (hStep : ∀ a b, R a b → S (f a) (g b))
    (h : Matches R as bs) : Matches S (as.map f) (bs.map g) := by
  obtain ⟨arranged, hArranged, hEach⟩ := h
  refine ⟨arranged.map g, hArranged.map g, ?_⟩
  rw [List.forall₂_map_left_iff, List.forall₂_map_right_iff]
  exact hEach.imp hStep

theorem flatMap {S : γ → δ → Prop} {f : α → List γ} {g : β → List δ}
    (hStep : ∀ a b, R a b → Matches S (f a) (g b)) (h : List.Forall₂ R as bs) :
    Matches S (as.flatMap f) (bs.flatMap g) := by
  induction h with
  | nil => exact ⟨[], .refl _, .nil⟩
  | cons hFirst _ ih =>
      rw [List.flatMap_cons, List.flatMap_cons]
      exact (hStep _ _ hFirst).append ih

end Matches

namespace Workflow

/-- An entry stands under the id of its node, which has the id and the kind of the declaration. -/
def FlowNode.EntryOf (declaration : Element) (entry : String × FlowNode) : Prop :=
  entry.1 = entry.2.id ∧ entry.2.DeclaredBy declaration

def SequenceFlow.EntryOf (declaration : Element) (entry : String × SequenceFlow) : Prop :=
  entry.1 = entry.2.id ∧ entry.2.DeclaredBy declaration

/-- A process has the id of its section and one entry for every declaration below it. -/
structure ProcessGraph.DeclaredBy (declaration : Element) (process : ProcessGraph) : Prop where
  id : declaration.childText? Tag.id = some process.id
  nodes : Matches FlowNode.EntryOf (declaration.descendantsNamed Tag.flowNode)
    process.nodes.entries
  flows : Matches SequenceFlow.EntryOf (declaration.descendantsNamed Tag.sequenceFlow)
    process.flows.entries

/-- What is read and filed under ids of its own matches what it is read from. -/
theorem matches_entries {α : Type} {read : Element → Except DocumentError α} {id : α → String}
    {R : Element → α → Prop} (hRead : ∀ declaration value, read declaration = .ok value →
      R declaration value) {declarations : List Element} {values : List α}
    {registry : Registry α} (hValues : declarations.mapM read = .ok values)
    (hFiled : Registry.empty.registerAll? id values = some registry) :
    Matches (fun declaration entry => entry.1 = id entry.2 ∧ R declaration entry.2) declarations
      registry.entries := by
  refine ⟨values.map fun value => (id value, value), ?_, ?_⟩
  · have hPerm := Registry.perm_of_registerAll? hFiled
    rw [show Registry.empty.entries = [] from rfl, List.append_nil] at hPerm
    exact hPerm.symm
  · rw [List.forall₂_map_right_iff]
    exact (Outcome.mapM_eq_ok_iff.1 hValues).imp fun declaration value h =>
      ⟨rfl, hRead declaration value h⟩

theorem ProcessGraph.declaredBy_of_ofXml {declaration : Element} {process : ProcessGraph}
    (h : ProcessGraph.ofXml declaration = .ok process) : process.DeclaredBy declaration := by
  have hId := ProcessGraph.id_of_ofXml h
  obtain ⟨id, -, h⟩ := Outcome.bind_eq_ok_iff.1 h
  obtain ⟨isExecutable, -, h⟩ := Outcome.bind_eq_ok_iff.1 h
  obtain ⟨declared, hDeclared, h⟩ := Outcome.bind_eq_ok_iff.1 h
  obtain rfl := Except.ok.inj h
  obtain ⟨⟨flows, hFlows, hFiledFlows⟩, nodes, hNodes, hFiledNodes⟩ :=
    Declarations.foldlM_add_eq_ok_iff.1 hDeclared
  exact {
    id := hId
    nodes := matches_entries (fun _ _ => FlowNode.declaredBy_of_ofXml) hNodes hFiledNodes
    flows := matches_entries (fun _ _ => SequenceFlow.declaredBy_of_ofXml) hFlows hFiledFlows }

end Workflow

namespace Contract

/-- A declaration in a section has an entry in the process of the section. -/
def EntryIn {α : Type} (EntryOf : Element → String × α → Prop) (nesting : Element × Element)
    (place : ProcessGraph × String × α) : Prop :=
  place.1.DeclaredBy nesting.1 ∧ EntryOf nesting.2 place.2

/-- The processes are those of the sections, in order. A declaration has one entry for each of the
sections that it stands in, in the process of that section, and there are no other entries. -/
structure KeepsDeclarations (root : Element) (contract : Contract) : Prop where
  processes : List.Forall₂ (fun declaration process => process.DeclaredBy declaration)
    (root.descendantsNamed Tag.process) contract.processes
  nodes : Matches (EntryIn FlowNode.EntryOf) (root.nestings Tag.process Tag.flowNode)
    (contract.processes.flatMap fun process => process.nodes.entries.map (process, ·))
  flows : Matches (EntryIn SequenceFlow.EntryOf) (root.nestings Tag.process Tag.sequenceFlow)
    (contract.processes.flatMap fun process => process.flows.entries.map (process, ·))

/-- Entries that are matched section by section are matched over the whole document. -/
theorem matches_nestings {α : Type} {EntryOf : Element → String × α → Prop} {name : String}
    {entries : ProcessGraph → List (String × α)} {root : Element} {processes : List ProcessGraph}
    (hEntries : ∀ declaration process, process.DeclaredBy declaration →
      Matches EntryOf (declaration.descendantsNamed name) (entries process))
    (hProcesses : List.Forall₂ (fun declaration process => process.DeclaredBy declaration)
      (root.descendantsNamed Tag.process) processes) :
    Matches (EntryIn EntryOf) (root.nestings Tag.process name)
      (processes.flatMap fun process => (entries process).map (process, ·)) := by
  refine Matches.perm_left root.nestings_perm (Matches.flatMap ?_ hProcesses)
  intro declaration process hDeclared
  exact (hEntries declaration process hDeclared).map fun _ _ hEntry => ⟨hDeclared, hEntry⟩

/-- An accepted contract has exactly the processes, nodes and flows that its document declares. -/
theorem keepsDeclarations_of_parse {text : String} {contract : Contract}
    (h : parse text = .ok contract) :
    ∃ root, Xml.Document.parse text = .ok root ∧ KeepsDeclarations root contract := by
  obtain ⟨root, hRoot, h⟩ := Outcome.bind_eq_ok_iff.1 h
  have hProcesses : List.Forall₂ (fun declaration process => process.DeclaredBy declaration)
      (root.descendantsNamed Tag.process) contract.processes :=
    (Outcome.mapM_eq_ok_iff.1 (readFrom_of_ofXml h).processes).imp
      fun _ _ => ProcessGraph.declaredBy_of_ofXml
  exact ⟨root, hRoot, {
    processes := hProcesses
    nodes := matches_nestings (fun _ _ hDeclared => hDeclared.nodes) hProcesses
    flows := matches_nestings (fun _ _ hDeclared => hDeclared.flows) hProcesses }⟩

def sharedText : String :=
  "<EditorContract><Id/><Process><Id>P</Id><Process><Id>Q</Id><ContractSequenceFlow>" ++
    "<Id/><SourceId/><TargetId/></ContractSequenceFlow></Process></Process><DataModel/>" ++
    "</EditorContract>"

def flowProcess (id : String) : ProcessGraph :=
  { id
    isExecutable := false
    nodes := .empty
    flows := ⟨[("", ⟨"", "", "", none, none⟩)], by decide⟩ }

def shared : Contract where
  id := ""
  name := none
  processes := [flowProcess "P", flowProcess "Q"]
  dataTypes := .empty

theorem keepsDeclarations_of_shared_parse :
    parse sharedText = .ok shared ∧
      ∃ root, Xml.Document.parse sharedText = .ok root ∧ KeepsDeclarations root shared := by
  have hParse : parse sharedText = .ok shared := by decide +kernel
  exact ⟨hParse, keepsDeclarations_of_parse hParse⟩

end Contract
end ContractDoc

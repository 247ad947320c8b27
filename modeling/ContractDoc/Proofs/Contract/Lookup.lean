import ContractDoc.Proofs.Contract.WellFormed
import ContractDoc.Proofs.Xml.Content

/-! # Looking up processes

A process is looked up by the id of its section, at whatever depth the section stands. The sections
are read one by one, so two of them may have the same id, and then the first one is found for both.
-/

namespace ContractDoc

open Workflow (ProcessGraph)
open Xml (Element)

theorem Workflow.ProcessGraph.id_of_ofXml {declaration : Element} {process : ProcessGraph}
    (h : ofXml declaration = .ok process) : declaration.childText? Tag.id = some process.id := by
  obtain ⟨id, hId, h⟩ := Outcome.bind_eq_ok_iff.1 h
  obtain ⟨isExecutable, -, h⟩ := Outcome.bind_eq_ok_iff.1 h
  obtain ⟨declared, -, h⟩ := Outcome.bind_eq_ok_iff.1 h
  obtain rfl := Except.ok.inj h
  exact Element.requireText_eq_ok_iff.1 hId

/-- The first process section of a document with the given id. -/
def Xml.Element.processSection? (root : Element) (id : String) : Option Element :=
  (root.descendantsNamed Tag.process).find? fun declaration =>
    declaration.childText? Tag.id == some id

/-- Sections and the processes that are read from them, in order. -/
def ReadAs : List Element → List ProcessGraph → Prop :=
  List.Forall₂ fun declaration process => ProcessGraph.ofXml declaration = .ok process

namespace ReadAs

variable {sections : List Element} {processes : List ProcessGraph}

theorem map_id (h : ReadAs sections processes) :
    sections.map (Element.childText? · Tag.id) = (processes.map ProcessGraph.id).map some := by
  rw [List.map_map]
  exact Outcome.map_eq_map_of_forall₂ (fun _ _ => ProcessGraph.id_of_ofXml) h

/-- The first process with an id is read from the first section with it. -/
theorem find?_id (h : ReadAs sections processes) (id : String) :
    processes.find? (fun process => process.id == id) =
      (sections.find? fun declaration => declaration.childText? Tag.id == some id).bind
        fun declaration => (ProcessGraph.ofXml declaration).toOption := by
  have hFound : Option.Rel _
      (sections.find? fun declaration => declaration.childText? Tag.id == some id)
      (processes.find? fun process => process.id == id) :=
    Outcome.rel_find?_of_forall₂ (fun _ _ hRead => by
      rw [ProcessGraph.id_of_ofXml hRead, Option.some_beq_some]) h
  generalize List.find? _ sections = section? at hFound ⊢
  generalize List.find? _ processes = process? at hFound ⊢
  cases hFound with
  | none => rfl
  | some hRead => rw [Option.bind_some, hRead]; rfl

end ReadAs

namespace Contract

variable {contract : Contract}

theorem exists_process? {process : ProcessGraph} (h : process ∈ contract.processes) :
    ∃ found ∈ contract.processes, found.id = process.id ∧
      contract.process? process.id = some found := by
  cases hFound : contract.process? process.id with
  | none => exact absurd (List.find?_eq_none.1 hFound process h) (by simp)
  | some found =>
      exact ⟨found, List.mem_of_find?_eq_some hFound, by simpa using List.find?_some hFound, rfl⟩

/-- Every process is found exactly if no two different ones have the same id. -/
theorem forall_process?_iff :
    (∀ process ∈ contract.processes, contract.process? process.id = some process) ↔
      ∀ process ∈ contract.processes, ∀ other ∈ contract.processes,
        process.id = other.id → process = other := by
  constructor
  · intro h process hProcess other hOther hId
    rw [← Option.some_inj, ← h process hProcess, ← h other hOther, hId]
  · intro h process hProcess
    obtain ⟨found, hMem, hId, hFound⟩ := exists_process? hProcess
    rw [hFound, h found hMem process hProcess hId]

/-- The processes of a contract are those of the sections of a document, and are looked up by the
ids of the sections. -/
structure FindsSections (root : Element) (contract : Contract) : Prop where
  read : ReadAs (root.descendantsNamed Tag.process) contract.processes
  lookup : ∀ id, contract.process? id =
    (root.processSection? id).bind fun declaration => (ProcessGraph.ofXml declaration).toOption
  distinct : (contract.processes.map ProcessGraph.id).Nodup ↔
    ((root.descendantsNamed Tag.process).map (Element.childText? · Tag.id)).Nodup
  ofDistinct : (contract.processes.map ProcessGraph.id).Nodup →
    ∀ process ∈ contract.processes, contract.process? process.id = some process
  found : (∀ process ∈ contract.processes, contract.process? process.id = some process) ↔
    ∀ process ∈ contract.processes, ∀ other ∈ contract.processes,
      process.id = other.id → process = other

/-- The ids of the processes of an accepted contract are as distinct as those of the sections in its
document. If they are, then every process is found under its id, and in any case the one that was
read from the first section with that id. -/
theorem findsSections_of_parse {text : String} (h : parse text = .ok contract) :
    ∃ root, Xml.Document.parse text = .ok root ∧ FindsSections root contract := by
  obtain ⟨root, hRoot, h⟩ := Outcome.bind_eq_ok_iff.1 h
  have hRead : ReadAs (root.descendantsNamed Tag.process) contract.processes :=
    Outcome.mapM_eq_ok_iff.1 (readFrom_of_ofXml h).processes
  refine ⟨root, hRoot, hRead, hRead.find?_id, ?_, ?_, forall_process?_iff⟩
  · rw [hRead.map_id]
    exact (List.nodup_map_iff (Option.some_injective _)).symm
  · intro hDistinct
    exact forall_process?_iff.2 fun _ hProcess _ hOther =>
      List.inj_on_of_nodup_map hDistinct hProcess hOther

def nestedText : String :=
  "<EditorContract><Id>C</Id><Process><Id>P</Id><Lane><Process><Id>Q</Id></Process></Lane>" ++
    "</Process><DataModel/></EditorContract>"

def plainProcess (id : String) : ProcessGraph :=
  { id, isExecutable := false, nodes := .empty, flows := .empty }

def nested : Contract :=
  { id := "C", name := none, processes := [plainProcess "P", plainProcess "Q"], dataTypes := .empty }

theorem findsSections_of_nested_parse :
    parse nestedText = .ok nested ∧
      ∀ process ∈ nested.processes, nested.process? process.id = some process := by
  have hParse : parse nestedText = .ok nested := by decide +kernel
  obtain ⟨root, -, hFinds⟩ := findsSections_of_parse hParse
  exact ⟨hParse, hFinds.ofDistinct (by decide)⟩

def twiceText : String :=
  "<EditorContract><Id>C</Id><Process><Id>P</Id></Process><Process><Id>P</Id>" ++
    "<IsExecutable>true</IsExecutable></Process><DataModel/></EditorContract>"

def twice : Contract :=
  { id := "C"
    name := none
    processes := [plainProcess "P", { plainProcess "P" with isExecutable := true }]
    dataTypes := .empty }

/-- Two sections with the same id are accepted, and the second process is not found. -/
theorem exists_parse_not_nodup :
    parse twiceText = .ok twice ∧ ¬ (twice.processes.map ProcessGraph.id).Nodup ∧
      ∃ process ∈ twice.processes, twice.process? process.id ≠ some process := by
  refine ⟨by decide +kernel, by decide, { plainProcess "P" with isExecutable := true }, ?_, ?_⟩
  · exact List.mem_cons_of_mem _ List.mem_cons_self
  · decide

end Contract
end ContractDoc

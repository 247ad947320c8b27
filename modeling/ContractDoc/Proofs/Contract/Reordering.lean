import ContractDoc.Proofs.DataModel.Grammar
import ContractDoc.Proofs.Workflow.Declarations
import ContractDoc.Proofs.Xml.Lines
import Mathlib.Data.List.Nodup

/-! # The order of declarations

A section is a collection of declarations: what is read from it does not depend on the order in
which they stand, nor on the order of anything around them.
-/

namespace ContractDoc

open Xml (Element)

namespace Xml

/-- The second list has the elements of the first in some order, and so on for the lists of their
children; only elements with a name in `whole` stay as they are. -/
inductive Reordered (whole : List String) : List Element → List Element → Prop
  | nil : Reordered whole [] []
  | keep (element : Element) {rest rest' : List Element} (hRest : Reordered whole rest rest') :
      Reordered whole (element :: rest) (element :: rest')
  | inside {element : Element} {children rest rest' : List Element} (hName : element.name ∉ whole)
      (hChildren : Reordered whole element.children children)
      (hRest : Reordered whole rest rest') :
      Reordered whole (element :: rest) ({ element with children } :: rest')
  | swap (first second : Element) (rest : List Element) :
      Reordered whole (first :: second :: rest) (second :: first :: rest)
  | trans {one two three : List Element} (hFirst : Reordered whole one two)
      (hSecond : Reordered whole two three) : Reordered whole one three

/-- A section and the same section with its children reordered. -/
structure ReorderedSection (whole : List String) (element element' : Element) : Prop where
  same : element' = { element with children := element'.children }
  children : Reordered whole element.children element'.children

/-- The first child with that name stays the first one; there may be reordering inside it. -/
def KeepsFirst (whole : List String) (name : String) (element element' : Element) : Prop :=
  Option.Rel (fun child child' => Reordered whole [child] [child'])
    (element.child? name) (element'.child? name)

variable {whole : List String} {es fs : List Element} {element element' : Element} {name : String}

namespace Reordered

theorem refl (es : List Element) : Reordered whole es es := by
  induction es with
  | nil => exact .nil
  | cons e es ih => exact .keep e ih

theorem of_perm (h : es.Perm fs) : Reordered whole es fs := by
  induction h with
  | nil => exact .nil
  | cons e _ ih => exact .keep e ih
  | swap a b rest => exact .swap b a rest
  | trans _ _ ihFirst ihSecond => exact .trans ihFirst ihSecond

theorem map_perm {α : Type} {f : Element → α}
    (hf : ∀ (e : Element) children, f { e with children } = f e) (h : Reordered whole es fs) :
    (es.map f).Perm (fs.map f) := by
  induction h with
  | nil => exact .nil
  | keep e _ ih => exact ih.cons (f e)
  | inside _ _ _ _ ih =>
      rw [List.map_cons, List.map_cons, hf]
      exact ih.cons _
  | swap a b rest => exact .swap (f b) (f a) (rest.map f)
  | trans _ _ ihFirst ihSecond => exact ihFirst.trans ihSecond

theorem filter_preorder_eq_filter_children (element : Element) (h : element.name ∉ whole) :
    element.preorder.filter (·.name ∈ whole) =
      (element.children.flatMap Element.preorder).filter (·.name ∈ whole) := by
  rw [Element.preorder, Element.descendants_eq_flatMap, List.filter_cons_of_neg (by simpa)]
  rfl

/-- The elements that stay as they are, at any depth, are the same, in some order. -/
theorem filter_preorder_perm (h : Reordered whole es fs) :
    ((es.flatMap Element.preorder).filter (·.name ∈ whole)).Perm
      ((fs.flatMap Element.preorder).filter (·.name ∈ whole)) := by
  induction h with
  | nil => exact .nil
  | keep e _ ih =>
      rw [List.flatMap_cons, List.flatMap_cons, List.filter_append, List.filter_append]
      exact ih.append_left _
  | @inside e children rest rest' hName _ _ ihChildren ih =>
      -- the element itself is not one of them, so only what is below it counts
      rw [List.flatMap_cons, List.flatMap_cons, List.filter_append, List.filter_append,
        filter_preorder_eq_filter_children e hName,
        filter_preorder_eq_filter_children { e with children } hName]
      exact ihChildren.append ih
  | swap a b rest =>
      simp only [List.flatMap_cons, ← List.append_assoc]
      exact (List.perm_append_comm.append_right _).filter _
  | trans _ _ ihFirst ihSecond => exact ihFirst.trans ihSecond

end Reordered

theorem KeepsFirst.rel_map {α : Type} {f : Element → α}
    (hf : ∀ (e : Element) children, f { e with children } = f e)
    (h : KeepsFirst whole name element element') :
    (element.child? name).map f = (element'.child? name).map f := by
  unfold KeepsFirst at h
  generalize element.child? name = child? at h ⊢
  generalize element'.child? name = child?' at h ⊢
  cases h with
  | none => rfl
  | some hChild => simpa using List.singleton_perm_singleton.1 (hChild.map_perm hf)

theorem KeepsFirst.childText?_eq (h : KeepsFirst whole name element element') :
    element.childText? name = element'.childText? name :=
  h.rel_map fun _ _ => rfl

theorem KeepsFirst.readChild?_eq {α : Type} {read : Element → Except DocumentError α}
    (hRead : ∀ (e : Element) children, read { e with children } = read e)
    (h : KeepsFirst whole name element element') :
    element.readChild? name read = element'.readChild? name read := by
  have hSame := h.rel_map hRead
  unfold Element.readChild?
  generalize element.child? name = child? at hSame ⊢
  generalize element'.child? name = child?' at hSame ⊢
  cases child? <;> cases child?' <;> simp_all

end Xml

open Xml (KeepsFirst Reordered ReorderedSection)

variable {section₁ section₂ : Element}

namespace Workflow

theorem declarations_perm
    (h : ReorderedSection [Tag.sequenceFlow, Tag.flowNode] section₁ section₂) :
    (declarations section₁).Perm (declarations section₂) := by
  rw [declarations, declarations, Element.descendants_eq_flatMap, Element.descendants_eq_flatMap]
  exact h.children.filter_preorder_perm

theorem Declarations.foldlM_add_of_perm {elements elements' : List Element}
    {declared next : Declarations} (hPerm : elements.Perm elements')
    (h : elements.foldlM add declared = .ok next) : elements'.foldlM add declared = .ok next := by
  obtain ⟨⟨flows, hFlows, hFlowsFiled⟩, nodes, hNodes, hNodesFiled⟩ := foldlM_add_eq_ok_iff.1 h
  obtain ⟨flows', hFlows', hFlowsPerm⟩ := Outcome.exists_perm_of_mapM (hPerm.filter _) hFlows
  obtain ⟨nodes', hNodes', hNodesPerm⟩ := Outcome.exists_perm_of_mapM (hPerm.filter _) hNodes
  refine foldlM_add_eq_ok_iff.2 ⟨⟨flows', hFlows', ?_⟩, nodes', hNodes', ?_⟩
  · rw [Registry.registerAll?_eq_of_perm _ hFlowsPerm, hFlowsFiled]
  · rw [Registry.registerAll?_eq_of_perm _ hNodesPerm, hNodesFiled]

theorem Declarations.foldlM_add_eq_ok_iff_of_reordered {next : Declarations}
    (h : ReorderedSection [Tag.sequenceFlow, Tag.flowNode] section₁ section₂) :
    section₁.descendants.foldlM add .empty = .ok next ↔
      section₂.descendants.foldlM add .empty = .ok next := by
  rw [← foldlM_add_declarations, ← foldlM_add_declarations]
  exact ⟨foldlM_add_of_perm (declarations_perm h), foldlM_add_of_perm (declarations_perm h).symm⟩

theorem ProcessGraph.ofXml_eq_ok_iff_of_reordered {process : ProcessGraph}
    (h : ReorderedSection [Tag.sequenceFlow, Tag.flowNode] section₁ section₂)
    (hFirst : ∀ name ∈ [Tag.id, Tag.isExecutable],
      KeepsFirst [Tag.sequenceFlow, Tag.flowNode] name section₁ section₂) :
    ProcessGraph.ofXml section₁ = .ok process ↔ ProcessGraph.ofXml section₂ = .ok process := by
  have hId : section₁.requireText Tag.id .processWithoutId =
      section₂.requireText Tag.id .processWithoutId := by
    unfold Element.requireText Element.defect
    rw [(hFirst Tag.id (by simp)).childText?_eq, h.same]
  have hMark : section₁.readChild? Tag.isExecutable Element.boolValue =
      section₂.readChild? Tag.isExecutable Element.boolValue :=
    (hFirst Tag.isExecutable (by simp)).readChild?_eq fun _ _ => rfl
  simp only [ProcessGraph.ofXml, hId, hMark, Outcome.bind_eq_ok_iff,
    Declarations.foldlM_add_eq_ok_iff_of_reordered h]

end Workflow

namespace DataModel

theorem declarations_perm
    (h : ReorderedSection [Tag.entity, Tag.token, Tag.enumeration] section₁ section₂) :
    (declarations section₁).Perm (declarations section₂) := by
  rw [declarations, declarations, Element.descendants_eq_flatMap, Element.descendants_eq_flatMap]
  exact h.children.filter_preorder_perm

/-- Declarations that can be read are put in as what they are read as. -/
theorem foldlM_addDeclaration_of_readAs {elements : List Element} {declared : List DataType}
    {types : Registry DataType} (h : ReadAs elements declared) :
    elements.foldlM addDeclaration types = .ok (types.insertAll DataType.id declared) := by
  induction h generalizing types with
  | nil => rfl
  | @cons element type elements declared hType _ ih =>
      have hStep : addDeclaration types element = .ok (types.insert type.id type) := by
        rw [addDeclaration, hType]
        rfl
      rw [List.foldlM_cons, hStep, Outcome.ok_bind]
      exact ih

/-- The ids that the declarations of a section give, in document order. -/
def declaredIds (element : Element) : List String :=
  (declarations element).filterMap (·.childText? Tag.id)

theorem map_id_of_readAs {elements : List Element} {declared : List DataType}
    (h : ReadAs elements declared) :
    declared.map DataType.id = elements.filterMap (·.childText? Tag.id) := by
  induction h with
  | nil => rfl
  | cons hType _ ih =>
      rw [List.map_cons, List.filterMap_cons, DataType.childText?_of_ofXml? hType, ih]

theorem ofXml_of_reordered {types : Registry DataType}
    (hPerm : (declarations section₁).Perm (declarations section₂))
    (hDistinct : (declaredIds section₁).Nodup) (h : ofXml section₁ = .ok types) :
    ofXml section₂ = .ok types := by
  obtain ⟨declared, hRead, rfl⟩ := exists_insertAll_of_foldlM h
  obtain ⟨declared', hRead', hSame⟩ := List.perm_comp_forall₂ hPerm.symm hRead
  have hIds : (declared'.map DataType.id).Nodup :=
    (hSame.map DataType.id).nodup_iff.2 (map_id_of_readAs hRead ▸ hDistinct)
  rw [← foldlM_declarations, foldlM_addDeclaration_of_readAs hRead',
    Registry.insertAll_eq_of_perm hIds hSame]

theorem ofXml_eq_ok_iff_of_reordered {types : Registry DataType}
    (h : ReorderedSection [Tag.entity, Tag.token, Tag.enumeration] section₁ section₂)
    (hDistinct : (declaredIds section₁).Nodup) :
    ofXml section₁ = .ok types ↔ ofXml section₂ = .ok types := by
  have hPerm := declarations_perm h
  have hDistinct' : (declaredIds section₂).Nodup :=
    (hPerm.filterMap _).nodup_iff.1 hDistinct
  exact ⟨ofXml_of_reordered hPerm hDistinct, ofXml_of_reordered hPerm.symm hDistinct'⟩

end DataModel

namespace Contract

/-- Declaration order does not matter: if everything but the declarations is reordered, and the id
and the mark of a process that count stay the first ones, then the same process is read, or none. So
it is for data types, as long as no two declarations give the same id. -/
theorem readsAlike_of_reordered :
    (ReorderedSection [Tag.sequenceFlow, Tag.flowNode] section₁ section₂ →
      (∀ name ∈ [Tag.id, Tag.isExecutable],
        KeepsFirst [Tag.sequenceFlow, Tag.flowNode] name section₁ section₂) →
      ∀ process, Workflow.ProcessGraph.ofXml section₁ = .ok process ↔
        Workflow.ProcessGraph.ofXml section₂ = .ok process) ∧
    (ReorderedSection [Tag.entity, Tag.token, Tag.enumeration] section₁ section₂ →
      (DataModel.declaredIds section₁).Nodup →
      ∀ types, DataModel.ofXml section₁ = .ok types ↔ DataModel.ofXml section₂ = .ok types) :=
  ⟨fun h hFirst _ => Workflow.ProcessGraph.ofXml_eq_ok_iff_of_reordered h hFirst,
    fun h hDistinct _ => DataModel.ofXml_eq_ok_iff_of_reordered h hDistinct⟩

def idOf (id : String) : Element := ⟨Tag.id, [], [], id, 4⟩

def flowOf (id : String) : Element where
  name := Tag.sequenceFlow
  attributes := []
  children := [idOf id, ⟨Tag.sourceId, [], [], "s", 4⟩, ⟨Tag.targetId, [], [], "t", 4⟩]
  text := ""
  line := 4

def nodeOf (kind : Workflow.NodeKind) (id : String) : Element where
  name := Tag.flowNode
  attributes := [⟨some schemaInstanceUri, typeAttribute, kind.discriminator⟩]
  children := [idOf id, ⟨Tag.incoming, [], [], "", 4⟩, ⟨Tag.outgoing, [], [], "", 4⟩]
  text := ""
  line := 4

def mixedDeclarations : List Element :=
  [flowOf "f", flowOf "g", nodeOf .startEvent "s", nodeOf .endEvent "t",
    ⟨Tag.entity, [], [idOf "e"], "", 5⟩, ⟨Tag.token, [], [idOf "k"], "", 5⟩]

/-- A part of a section, around the declarations in it. -/
def partOf (declarations : List Element) : Element := ⟨"Part", [], declarations, "", 3⟩

def forwards : Element := ⟨Tag.process, [], [idOf "p", partOf mixedDeclarations], "", 1⟩

/-- The same section backwards, at both levels. -/
def backwards : Element := ⟨Tag.process, [], [partOf mixedDeclarations.reverse, idOf "p"], "", 1⟩

theorem reorderedSection_backwards {whole : List String} (h : "Part" ∉ whole) :
    ReorderedSection whole forwards backwards where
  same := rfl
  children :=
    .trans (.swap _ _ []) (@Reordered.inside _ (partOf _) _ _ _ h
      (.of_perm mixedDeclarations.reverse_perm.symm) (.refl _))

theorem keepsFirst_backwards {whole : List String} :
    ∀ name ∈ [Tag.id, Tag.isExecutable], KeepsFirst whole name forwards backwards := by
  intro name hName
  rcases List.mem_pair.1 hName with rfl | rfl
  · exact Option.Rel.some (.refl _)
  · exact Option.Rel.none

theorem declaredIds_forwards : DataModel.declaredIds forwards = ["e", "k"] := by decide +kernel

theorem readsAlike_backwards :
    Workflow.ProcessGraph.ofXml backwards =
      .ok
        { id := "p"
          isExecutable := false
          nodes := ⟨[("s", .startEvent ⟨"s", "", [], []⟩), ("t", .endEvent ⟨"t", "", [], []⟩)],
            by decide⟩
          flows := ⟨[("f", ⟨"f", "s", "t", none, none⟩), ("g", ⟨"g", "s", "t", none, none⟩)],
            by decide⟩ } ∧
    DataModel.ofXml backwards =
      .ok ⟨[("e", .entity ⟨"e", "", false, []⟩),
        ("k", .token ⟨"k", "", none, false, false, none, none, none, []⟩)], by decide⟩ := by
  have hProcess : ReorderedSection [Tag.sequenceFlow, Tag.flowNode] forwards backwards :=
    reorderedSection_backwards (by decide)
  have hTypes : ReorderedSection [Tag.entity, Tag.token, Tag.enumeration] forwards backwards :=
    reorderedSection_backwards (by decide)
  have hDistinct : (DataModel.declaredIds forwards).Nodup := by
    rw [declaredIds_forwards]
    decide
  refine ⟨(readsAlike_of_reordered.1 hProcess keepsFirst_backwards _).1 ?_,
    (readsAlike_of_reordered.2 hTypes hDistinct _).1 ?_⟩
  · decide +kernel
  · decide +kernel

end Contract
end ContractDoc

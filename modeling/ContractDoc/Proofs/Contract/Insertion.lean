import ContractDoc.Proofs.Contract.Layout
import ContractDoc.Proofs.DataModel.Grammar
import ContractDoc.Proofs.Workflow.Declarations
import ContractDoc.Proofs.Xml.Lines

/-! # Inserted elements

A document may hold elements that are no part of the format. One that is put into a tree, with
everything below it, changes nothing of what is read as long as no section or declaration is in it,
it stands in no declaration, and it is not taken for a child that is read from its parent.
-/

namespace ContractDoc

open Xml (Element)

/-- The declarations, which are read as a whole. -/
def declarationTags : List String :=
  [Tag.flowNode, Tag.sequenceFlow, Tag.entity, Tag.token, Tag.enumeration]

/-- Neither the element nor anything below it is a section or a declaration. -/
def IsForeign (added : Element) : Prop :=
  ∀ element ∈ added.preorder, element.name ∉ Tag.process :: Tag.dataModel :: declarationTags

/-- The children that are read from the root and from a process section below it. -/
def childrenRead (isRoot : Bool) (name : String) : List String :=
  if isRoot then [Tag.id, Tag.name]
  else if name = Tag.process then [Tag.id, Tag.isExecutable]
  else []

/-- The second tree has `added` as one more child, at any place among the children of some element.
That element is not a declaration, is in none, and does not read a child of that name. -/
inductive Inserted (added : Element) : (isRoot : Bool) → Element → Element → Prop
  | here {isRoot : Bool} {name text : String} {attributes : List Xml.Attribute}
      {before after : List Element} {line : UInt32} :
      name ∉ declarationTags → added.name ∉ childrenRead isRoot name →
      Inserted added isRoot ⟨name, attributes, before ++ after, text, line⟩
        ⟨name, attributes, before ++ added :: after, text, line⟩
  | deeper {isRoot : Bool} {name text : String} {attributes : List Xml.Attribute}
      {before after : List Element} {child child' : Element} {line : UInt32} :
      name ∉ declarationTags → Inserted added false child child' →
      Inserted added isRoot ⟨name, attributes, before ++ child :: after, text, line⟩
        ⟨name, attributes, before ++ child' :: after, text, line⟩

/-- What an element of the first tree is in the second one. -/
def Counterpart (added element element' : Element) : Prop :=
  element = element' ∨ Inserted added false element element'

variable {added element element' : Element} {isRoot : Bool} {name : String}

namespace Inserted

theorem name_eq (h : Inserted added isRoot element element') : element.name = element'.name := by
  cases h <;> rfl

theorem text_eq (h : Inserted added isRoot element element') : element.text = element'.text := by
  cases h <;> rfl

theorem line_eq (h : Inserted added isRoot element element') : element.line = element'.line := by
  cases h <;> rfl

theorem name_not_mem (h : Inserted added isRoot element element') :
    element.name ∉ declarationTags := by
  cases h <;> assumption

theorem defect_eq (h : Inserted added isRoot element element') (cause : Defect) :
    element.defect cause = element'.defect cause := by
  rw [Element.defect, Element.defect, h.line_eq]

end Inserted

namespace Counterpart

theorem name_eq (h : Counterpart added element element') : element.name = element'.name :=
  h.elim (congrArg Element.name) Inserted.name_eq

theorem text_eq (h : Counterpart added element element') : element.text = element'.text :=
  h.elim (congrArg Element.text) Inserted.text_eq

theorem line_eq (h : Counterpart added element element') : element.line = element'.line :=
  h.elim (congrArg Element.line) Inserted.line_eq

/-- Nothing was put into a declaration. -/
theorem eq_of_mem (h : Counterpart added element element')
    (hName : element.name ∈ declarationTags) : element = element' :=
  h.elim id fun hInserted => absurd hName hInserted.name_not_mem

theorem boolValue_eq (h : Counterpart added element element') :
    element.boolValue = element'.boolValue := by
  rw [Element.boolValue, Element.boolValue, Element.defect, Element.defect, h.text_eq, h.name_eq,
    h.line_eq]

end Counterpart

theorem descendants_mk (name text : String) (attributes : List Xml.Attribute)
    (children : List Element) (line : UInt32) :
    Element.descendants ⟨name, attributes, children, text, line⟩ =
      children.flatMap Element.preorder :=
  Element.descendants_eq_flatMap _

/-- Elements with names that are not among those of the added ones have their counterparts in the
same order. -/
theorem Inserted.forall₂_filter (p : String → Bool)
    (hAdded : ∀ foreign ∈ added.preorder, p foreign.name = false)
    (h : Inserted added isRoot element element') :
    List.Forall₂ (fun a b => Counterpart added a b ∧ p a.name)
      (element.descendants.filter (p ·.name)) (element'.descendants.filter (p ·.name)) := by
  have hSame (elements : List Element) :
      List.Forall₂ (fun a b => Counterpart added a b ∧ p a.name) (elements.filter (p ·.name))
        (elements.filter (p ·.name)) :=
    List.forall₂_same.2 fun a ha => ⟨.inl rfl, (List.mem_filter.1 ha).2⟩
  -- induction on the way down to the added child; beside that way the trees are the same
  induction h with
  | here hName hRead =>
      have hNone : added.preorder.filter (p ·.name) = [] :=
        List.filter_eq_nil_iff.2 fun foreign hForeign => by simp [hAdded foreign hForeign]
      simp only [descendants_mk, List.flatMap_append, List.flatMap_cons, List.filter_append, hNone,
        List.nil_append]
      exact List.rel_append (hSame _) (hSame _)
  | @deeper _ _ _ _ _ _ child child' _ hName hChild ih =>
      simp only [descendants_mk, List.flatMap_append, List.flatMap_cons, List.filter_append]
      refine List.rel_append (hSame _) (List.rel_append ?_ (hSame _))
      rw [Element.preorder, Element.preorder, List.filter_cons, List.filter_cons, ← hChild.name_eq]
      split
      · next hp => exact .cons ⟨.inr hChild, hp⟩ ih
      · exact ih

theorem Inserted.rel_child? (h : Inserted added isRoot element element')
    (hRead : name ∈ childrenRead isRoot element.name) :
    Option.Rel (Counterpart added) (element.child? name) (element'.child? name) := by
  cases h with
  | @here _ _ _ _ before after _ hName hAdded =>
      have hOther : added.name ≠ name := fun hEq => hAdded (hEq ▸ hRead)
      have hSame : (before ++ added :: after).find? (·.name == name) =
          (before ++ after).find? (·.name == name) := by
        rw [List.find?_append, List.find?_cons_of_neg (by simpa using hOther), List.find?_append]
      rw [Element.child?, Element.child?, hSame]
      cases List.find? _ (before ++ after) with
      | none => exact .none
      | some child => exact .some (.inl rfl)
  | @deeper _ _ _ _ before after child child' _ hName hChild =>
      have hSame (elements : List Element) : List.Forall₂ (Counterpart added) elements elements :=
        List.forall₂_same.2 fun _ _ => .inl rfl
      exact Outcome.rel_find?_of_forall₂ (fun a b hab => by rw [hab.name_eq])
        (List.rel_append (hSame before) (.cons (.inr hChild) (hSame after)))

section

variable (h : Inserted added isRoot element element')

include h

theorem Inserted.childText?_eq (hRead : name ∈ childrenRead isRoot element.name) :
    element.childText? name = element'.childText? name := by
  have hRel := h.rel_child? hRead
  rw [Element.childText?, Element.childText?]
  generalize element.child? name = child at hRel ⊢
  generalize element'.child? name = child' at hRel ⊢
  cases hRel with
  | none => rfl
  | some hChild => exact congrArg some hChild.text_eq

theorem Inserted.requireText_eq (hRead : name ∈ childrenRead isRoot element.name)
    (missing : Defect) : element.requireText name missing = element'.requireText name missing := by
  rw [Element.requireText, Element.requireText, h.childText?_eq hRead, h.defect_eq]

theorem Inserted.readChild?_boolValue_eq (hRead : name ∈ childrenRead isRoot element.name) :
    element.readChild? name Element.boolValue = element'.readChild? name Element.boolValue := by
  have hRel := h.rel_child? hRead
  rw [Element.readChild?, Element.readChild?]
  generalize element.child? name = child at hRel ⊢
  generalize element'.child? name = child' at hRel ⊢
  cases hRel with
  | none => rfl
  | some hChild => simp only [hChild.boolValue_eq]

theorem Inserted.filter_declarations_eq (hForeign : IsForeign added) {names : List String}
    (hNames : names ⊆ declarationTags) :
    element.descendants.filter (·.name ∈ names) = element'.descendants.filter (·.name ∈ names) := by
  have hNone : ∀ foreign ∈ added.preorder, decide (foreign.name ∈ names) = false := by
    intro foreign hMem
    refine decide_eq_false fun hName => hForeign foreign hMem ?_
    exact List.mem_cons_of_mem _ (List.mem_cons_of_mem _ (hNames hName))
  have hEach := h.forall₂_filter (· ∈ names) hNone
  rw [← List.forall₂_eq_eq_eq]
  exact hEach.imp fun a b hab => hab.1.eq_of_mem (hNames (by simpa using hab.2))

/-- The sections below an element have their counterparts in the same order. -/
theorem Inserted.forall₂_descendantsNamed (hForeign : IsForeign added)
    (hName : name ∈ [Tag.process, Tag.dataModel]) :
    List.Forall₂ (fun a b => Counterpart added a b ∧ a.name = name)
      (element.descendantsNamed name) (element'.descendantsNamed name) := by
  have hNone : ∀ foreign ∈ added.preorder, (foreign.name == name) = false := by
    intro foreign hMem
    rw [beq_eq_false_iff_ne]
    rintro rfl
    exact hForeign foreign hMem (List.mem_append_left declarationTags hName)
  exact (h.forall₂_filter (· == name) hNone).imp fun a b hab => ⟨hab.1, beq_iff_eq.1 hab.2⟩

end

namespace Workflow

/-- An element that is put into a process section, at any depth, is passed over. -/
theorem ProcessGraph.ofXml_counterpart (hForeign : IsForeign added)
    (h : Counterpart added element element') (hName : element.name = Tag.process) :
    ProcessGraph.ofXml element = ProcessGraph.ofXml element' := by
  rcases h with rfl | h
  · rfl
  · have hDeclarations : declarations element = declarations element' :=
      h.filter_declarations_eq hForeign (by decide)
    have hRead : [Tag.id, Tag.isExecutable] ⊆ childrenRead false element.name := by
      rw [hName]
      exact List.Subset.refl _
    rw [ProcessGraph.ofXml, ProcessGraph.ofXml, h.requireText_eq (hRead (by decide)),
      h.readChild?_boolValue_eq (hRead (by decide)), ← Declarations.foldlM_add_declarations,
      ← Declarations.foldlM_add_declarations, hDeclarations]

end Workflow

theorem DataModel.ofXml_counterpart (hForeign : IsForeign added)
    (h : Counterpart added element element') : ofXml element = ofXml element' := by
  rcases h with rfl | h
  · rfl
  · have hDeclarations : declarations element = declarations element' :=
      h.filter_declarations_eq hForeign (by decide)
    rw [← foldlM_declarations, ← foldlM_declarations, hDeclarations]

namespace Contract

theorem mapM_process_inserted (hForeign : IsForeign added)
    (h : Inserted added isRoot element element') :
    (element.descendantsNamed Tag.process).mapM Workflow.ProcessGraph.ofXml =
      (element'.descendantsNamed Tag.process).mapM Workflow.ProcessGraph.ofXml :=
  Outcome.mapM_eq_mapM_of_forall₂
    (fun _ _ hBoth => Workflow.ProcessGraph.ofXml_counterpart hForeign hBoth.1 hBoth.2)
    (h.forall₂_descendantsNamed hForeign (by decide))

theorem rel_dataModel_inserted (hForeign : IsForeign added)
    (h : Inserted added isRoot element element') :
    Option.Rel (Counterpart added) (element.firstDescendant? Tag.dataModel)
      (element'.firstDescendant? Tag.dataModel) := by
  have hHead (e : Element) : e.firstDescendant? Tag.dataModel =
      (e.descendantsNamed Tag.dataModel).head? := List.head?_filter.symm
  have hEach := h.forall₂_descendantsNamed hForeign (by decide : Tag.dataModel ∈ _)
  rw [hHead, hHead]
  generalize element.descendantsNamed Tag.dataModel = sections at hEach ⊢
  generalize element'.descendantsNamed Tag.dataModel = sections' at hEach ⊢
  cases hEach with
  | nil => exact .none
  | cons hFirst _ => exact .some hFirst.1

/-- A foreign element in the tree of a document changes nothing of what is read from it, the line of
an error included. -/
theorem ofXml_inserted (hForeign : IsForeign added) (h : Inserted added true element element') :
    ofXml element = ofXml element' := by
  have hRel := rel_dataModel_inserted hForeign h
  rw [ofXml, ofXml, h.name_eq, h.defect_eq, h.requireText_eq List.mem_cons_self,
    mapM_process_inserted hForeign h, h.childText?_eq (by decide : Tag.name ∈ [Tag.id, Tag.name])]
  generalize element.firstDescendant? Tag.dataModel = dataModel at hRel ⊢
  generalize element'.firstDescendant? Tag.dataModel = dataModel' at hRel ⊢
  cases hRel with
  | none => rfl
  | some hDataModel => simp only [DataModel.ofXml_counterpart hForeign hDataModel]

/-- Foreign content is inert: two texts whose trees differ in their lines and in one foreign element
are the same contract, or are refused for the same reason. -/
theorem agreeUpToLine_of_inserted {text text' : String} {root root' added : Element}
    (h : Xml.Document.parse text = .ok root) (h' : Xml.Document.parse text' = .ok root')
    (hForeign : IsForeign added)
    (hInserted : Inserted added true root.withoutLines root'.withoutLines) :
    AgreeUpToLine (parse text) (parse text') := by
  rw [parse_of_document h, parse_of_document h', agreeUpToLine_iff, ← ofXml_withoutLines,
    ← ofXml_withoutLines, ofXml_inserted hForeign hInserted]

def plainText : String :=
  "<EditorContract><Id/><Process><Id>p</Id></Process><DataModel/></EditorContract>"

/-- The same document with a note in its process, in front of the id that is read. -/
def annotatedText : String :=
  "<EditorContract><Id/><Process><Note\n><Id>n</Id></Note><Id>p</Id></Process><DataModel/>" ++
    "</EditorContract>"

/-- A note with an id of its own, given the line it stands on and the one it ends on. -/
def note (first last : UInt32) : Element := ⟨"Note", [], [⟨Tag.id, [], [], "n", last⟩], "", first⟩

/-- The tree of both texts, given what stands in front of the id of the process, and the line from
there on. -/
def annotatedTree (front : List Element) (line : UInt32) : Element where
  name := Tag.contract
  attributes := []
  children := [
    ⟨Tag.id, [], [], "", 1⟩,
    ⟨Tag.process, [], front ++ [⟨Tag.id, [], [], "p", line⟩], "", 1⟩,
    ⟨Tag.dataModel, [], [], "", line⟩]
  text := ""
  line := 1

theorem parse_plainText : Xml.Document.parse plainText = .ok (annotatedTree [] 1) := by
  decide +kernel

theorem parse_annotatedText :
    Xml.Document.parse annotatedText = .ok (annotatedTree [note 1 2] 2) := by decide +kernel

theorem agreeUpToLine_of_inserted_note :
    Xml.Document.parse plainText = .ok (annotatedTree [] 1) ∧
      Xml.Document.parse annotatedText = .ok (annotatedTree [note 1 2] 2) ∧
      IsForeign (note 0 0) ∧
      Inserted (note 0 0) true (annotatedTree [] 1).withoutLines
        (annotatedTree [note 1 2] 2).withoutLines ∧
      AgreeUpToLine (parse plainText) (parse annotatedText) ∧
      parse annotatedText = .ok ⟨"", none, [⟨"p", false, .empty, .empty⟩], .empty⟩ := by
  have hForeign : IsForeign (note 0 0) := by
    intro element hElement
    simp only [note, Element.preorder, descendants_mk, List.flatMap_cons, List.flatMap_nil,
      List.append_nil, List.mem_cons, List.not_mem_nil, or_false] at hElement
    rcases hElement with rfl | rfl <;> decide
  have hInserted : Inserted (note 0 0) true (annotatedTree [] 1).withoutLines
      (annotatedTree [note 1 2] 2).withoutLines := by
    refine @Inserted.deeper _ _ _ _ _ [_] [_] _ _ _ (by decide) ?_
    exact @Inserted.here _ _ _ _ _ [] [_] _ (by decide) (by decide)
  refine ⟨parse_plainText, parse_annotatedText, hForeign, hInserted,
    agreeUpToLine_of_inserted parse_plainText parse_annotatedText hForeign hInserted, ?_⟩
  rw [parse_of_document parse_annotatedText]
  decide +kernel

end Contract
end ContractDoc

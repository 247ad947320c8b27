import ContractDoc.Proofs.Contract.ByteOrderMark
import ContractDoc.Proofs.Xml.Acceptance
import ContractDoc.Proofs.Xml.Lines

/-! # Lines of errors

An error of a reader is a defect of some element of the tree, and points at its line, unless it
names an unknown data type word. So an error has no line only if no place in the text is to blame:
the document has no root, or the contract has no data model. Lines are counted in 32 bits, and only
one that wraps around can be zero.
-/

namespace ContractDoc

open Outcome (FailsWith)
open Xml (Builder Element Lexeme)

/-- The error is a defect of an element of the tree, or names an unknown data type word. -/
inductive ReportedIn (root : Element) : DocumentError → Prop
  | unrecognized (literal : String) : ReportedIn root (.unrecognizedDataType literal)
  | defect {place : Element} (cause : Defect) :
      place ∈ root.preorder → ReportedIn root (place.defect cause)

variable {α : Type} {element below : Element}

@[simp] theorem reportedIn_defect (cause : Defect) : ReportedIn element (element.defect cause) :=
  .defect cause List.mem_cons_self

theorem failsWith_of_descendant {x : Except DocumentError α} (hBelow : below ∈ element.descendants)
    (h : FailsWith (ReportedIn below) x) : FailsWith (ReportedIn element) x := by
  refine h.mono fun error hError => ?_
  rcases hError with literal | ⟨cause, hPlace⟩
  · exact .unrecognized literal
  · refine .defect cause (List.mem_cons_of_mem _ ?_)
    rcases List.mem_cons.1 hPlace with rfl | hPlace
    · exact hBelow
    · exact Element.mem_descendants_trans hPlace hBelow

theorem failsWith_of_child {x : Except DocumentError α} (hChild : below ∈ element.children)
    (h : FailsWith (ReportedIn below) x) : FailsWith (ReportedIn element) x :=
  failsWith_of_descendant (Element.mem_descendants_iff.2 ⟨below, hChild, .inl rfl⟩) h

variable (element)

@[simp] theorem failsWith_requireText (name : String) (missing : Defect) :
    FailsWith (ReportedIn element) (element.requireText name missing) := by
  rw [Element.requireText]
  split <;> simp

theorem failsWith_readChild? {name : String} {read : Element → Except DocumentError α}
    (h : ∀ child, FailsWith (ReportedIn child) (read child)) :
    FailsWith (ReportedIn element) (element.readChild? name read) := by
  rw [Element.readChild?]
  split
  · next child hChild =>
      rw [Outcome.failsWith_exceptMap_iff]
      exact failsWith_of_child (List.mem_of_find?_eq_some hChild) (h child)
  · exact Outcome.failsWith_ok none

@[simp] theorem failsWith_parseText (read : String → Option α) (expected : String) :
    FailsWith (ReportedIn element) (element.parseText read expected) := by
  simp only [Element.parseText]
  split <;> simp

@[simp] theorem failsWith_boolValue : FailsWith (ReportedIn element) element.boolValue := by
  simp only [Element.boolValue]
  repeat' split
  all_goals simp

@[simp] theorem failsWith_readParsed (name : String) (read : String → Option α)
    (expected : String) :
    FailsWith (ReportedIn element) (element.readChild? name (·.parseText read expected)) :=
  failsWith_readChild? element fun child => failsWith_parseText child read expected

namespace Workflow

@[simp] theorem SequenceFlow.failsWith_ofXml :
    FailsWith (ReportedIn element) (SequenceFlow.ofXml element) := by
  simp [SequenceFlow.ofXml]

@[simp] theorem failsWith_nodeId : FailsWith (ReportedIn element) (nodeId element) :=
  failsWith_requireText element Tag.id .nodeWithoutId

@[simp] theorem failsWith_edgeList (name : String) :
    FailsWith (ReportedIn element) (edgeList element name) := by
  rw [edgeList]
  split <;> simp

@[simp] theorem NodeHeader.failsWith_ofXml :
    FailsWith (ReportedIn element) (NodeHeader.ofXml element) := by
  simp [NodeHeader.ofXml]

@[simp] theorem TaskSettings.failsWith_ofXml :
    FailsWith (ReportedIn element) (TaskSettings.ofXml element) := by
  simp [TaskSettings.ofXml]

@[simp] theorem TokenOperation.failsWith_ofXml :
    FailsWith (ReportedIn element) (TokenOperation.ofXml element) := by
  simp [TokenOperation.ofXml]

@[simp] theorem failsWith_formFieldPart (name : String) :
    FailsWith (ReportedIn element) (formFieldPart element name) := by
  rw [formFieldPart]
  split <;> simp

@[simp] theorem FormField.failsWith_ofXml :
    FailsWith (ReportedIn element) (FormField.ofXml element) := by
  simp [FormField.ofXml]

@[simp] theorem Form.failsWith_ofXml : FailsWith (ReportedIn element) (Form.ofXml element) := by
  have hFields : FailsWith (ReportedIn element)
      ((element.descendantsNamed Tag.formField).mapM FormField.ofXml) :=
    .mapM fun field hField =>
      failsWith_of_descendant (List.mem_of_mem_filter hField) (FormField.failsWith_ofXml field)
  simp [Form.ofXml, hFields]

@[simp] theorem Timer.failsWith_ofXml (node : String) :
    FailsWith (ReportedIn element) (Timer.ofXml element node) := by
  simp only [Timer.ofXml, Outcome.failsWith_bind_iff, failsWith_requireText, failsWith_readParsed,
    true_and]
  intro attachedTo _ type? _
  cases type? <;> simp

@[simp] theorem UserWork.failsWith_ofXml :
    FailsWith (ReportedIn element) (UserWork.ofXml element) := by
  simp only [UserWork.ofXml, Outcome.failsWith_bind_iff, TokenOperation.failsWith_ofXml, true_and]
  intro operation _
  split
  · next form hForm =>
      have hBelow : FailsWith (ReportedIn element) (Form.ofXml form) :=
        failsWith_of_descendant (List.mem_of_find?_eq_some hForm) (Form.failsWith_ofXml form)
      simp [hBelow]
  · simp

@[simp] theorem FlowNode.failsWith_ofXmlAs (kind : NodeKind) :
    FailsWith (ReportedIn element) (FlowNode.ofXmlAs element kind) := by
  cases kind <;> simp [FlowNode.ofXmlAs]

@[simp] theorem NodeKind.failsWith_ofXml :
    FailsWith (ReportedIn element) (NodeKind.ofXml element) := by
  rw [NodeKind.ofXml]
  repeat' split
  all_goals simp

@[simp] theorem FlowNode.failsWith_ofXml :
    FailsWith (ReportedIn element) (FlowNode.ofXml element) := by
  simp [FlowNode.ofXml]

theorem Declarations.failsWith_add (declared : Declarations) :
    FailsWith (ReportedIn element) (declared.add element) := by
  rw [Declarations.add]
  split
  · simp only [Outcome.failsWith_bind_iff, SequenceFlow.failsWith_ofXml, true_and]
    intro flow _
    split <;> simp
  · split
    · simp only [Outcome.failsWith_bind_iff, FlowNode.failsWith_ofXml, true_and]
      intro node _
      split <;> simp
    · exact Outcome.failsWith_pure declared

theorem ProcessGraph.failsWith_ofXml :
    FailsWith (ReportedIn element) (ProcessGraph.ofXml element) := by
  have hExecutable : FailsWith (ReportedIn element)
      (element.readChild? Tag.isExecutable Element.boolValue) :=
    failsWith_readChild? element failsWith_boolValue
  have hDeclared : FailsWith (ReportedIn element)
      (element.descendants.foldlM Declarations.add .empty) :=
    .foldlM (fun declared declaration hDeclaration =>
      failsWith_of_descendant hDeclaration (Declarations.failsWith_add declaration declared)) .empty
  simp [ProcessGraph.ofXml, hExecutable, hDeclared]

end Workflow

namespace DataModel

@[simp] theorem failsWith_declaredId : FailsWith (ReportedIn element) (declaredId element) :=
  failsWith_requireText element Tag.id _

@[simp] theorem ScalarType.failsWith_ofXml :
    FailsWith (ReportedIn element) (ScalarType.ofXml element) := by
  simp only [ScalarType.ofXml, ScalarType.ofLiteral]
  split
  · exact Outcome.failsWith_ok _
  · exact Outcome.failsWith_error_iff.2 (.unrecognized _)

theorem Property.failsWith_add (property : Property) :
    FailsWith (ReportedIn element) (property.add element) := by
  rw [Property.add]
  repeat' split
  all_goals simp

@[simp] theorem Property.failsWith_ofXml :
    FailsWith (ReportedIn element) (Property.ofXml element) := by
  simp only [Property.ofXml, Outcome.failsWith_bind_iff, failsWith_requireText, true_and]
  exact fun id _ => .foldlM (fun property child hChild =>
    failsWith_of_child hChild (property.failsWith_add child)) _

theorem Entity.failsWith_add (entity : Entity) :
    FailsWith (ReportedIn element) (entity.add element) := by
  have hMore : FailsWith (ReportedIn element) (element.children.mapM Property.ofXml) :=
    .mapM fun child hChild => failsWith_of_child hChild (Property.failsWith_ofXml child)
  rw [Entity.add]
  repeat' split
  all_goals simp [hMore]

theorem Entity.failsWith_ofXml : FailsWith (ReportedIn element) (Entity.ofXml element) := by
  simp only [Entity.ofXml, Outcome.failsWith_bind_iff, failsWith_declaredId, true_and]
  exact fun id _ => .foldlM (fun entity child hChild =>
    failsWith_of_child hChild (entity.failsWith_add child)) _

theorem Token.failsWith_add (token : Token) :
    FailsWith (ReportedIn element) (token.add element) := by
  rw [Token.add]
  repeat' split
  all_goals simp

theorem Token.failsWith_ofXml : FailsWith (ReportedIn element) (Token.ofXml element) := by
  simp only [Token.ofXml, Outcome.failsWith_bind_iff, failsWith_declaredId, true_and]
  exact fun id _ => .foldlM (fun token part hPart =>
    failsWith_of_descendant hPart (token.failsWith_add part)) _

theorem Enumeration.failsWith_ofXml :
    FailsWith (ReportedIn element) (Enumeration.ofXml element) := by
  simp [Enumeration.ofXml]

theorem DataType.failsWith_ofXml? : FailsWith (ReportedIn element) (DataType.ofXml? element) := by
  rw [DataType.ofXml?]
  repeat' split
  all_goals simp [Entity.failsWith_ofXml, Token.failsWith_ofXml, Enumeration.failsWith_ofXml]

theorem failsWith_addDeclaration (types : Registry DataType) :
    FailsWith (ReportedIn element) (addDeclaration types element) := by
  simp only [addDeclaration, Outcome.failsWith_bind_iff, DataType.failsWith_ofXml?, true_and]
  intro type? _
  cases type? <;> exact Outcome.failsWith_pure _

theorem failsWith_ofXml : FailsWith (ReportedIn element) (ofXml element) :=
  .foldlM (fun types declaration hDeclaration =>
    failsWith_of_descendant hDeclaration (failsWith_addDeclaration declaration types)) .empty

end DataModel

namespace Xml

end Xml

namespace Contract

/-- What goes wrong below the root is reported at an element, the lack of a data model apart. -/
theorem failsWith_ofXml (root : Element) :
    FailsWith (fun error => ReportedIn root error ∨
      error = .invalid .contractWithoutDataModel none ∧
        ∀ element ∈ root.preorder, element.name ≠ Tag.dataModel) (ofXml root) := by
  rw [ofXml]
  split
  · exact Outcome.failsWith_error_iff.2 (.inl (reportedIn_defect _))
  · next hName =>
      simp only [Outcome.failsWith_bind_iff]
      refine ⟨(failsWith_requireText root _ _).mono fun _ => .inl, fun id _ => ⟨?_, ?_⟩⟩
      · refine Outcome.FailsWith.mono (.mapM fun process hProcess => ?_) fun _ => .inl
        exact failsWith_of_descendant (List.mem_of_mem_filter hProcess)
          (Workflow.ProcessGraph.failsWith_ofXml process)
      · intro processes _
        split
        · next hNone =>
            refine Outcome.failsWith_error_iff.2 (.inr ⟨rfl, List.forall_mem_cons.2 ⟨?_, ?_⟩⟩)
            · rw [not_not.1 hName]
              decide
            · exact fun element hElement hEq =>
                List.find?_eq_none.1 hNone element hElement (beq_iff_eq.2 hEq)
        · next dataModel hDataModel =>
            have hTypes : FailsWith (ReportedIn root) (DataModel.ofXml dataModel) :=
              failsWith_of_descendant (List.mem_of_find?_eq_some hDataModel)
                (DataModel.failsWith_ofXml dataModel)
            rw [Outcome.failsWith_bind_iff]
            exact ⟨hTypes.mono fun _ => .inl, fun types _ => Outcome.failsWith_pure _⟩

end Contract
end ContractDoc

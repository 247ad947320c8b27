import ContractDoc.Proofs.Contract.Writer
import ContractDoc.Proofs.Text.Numeral
import ContractDoc.Proofs.Workflow.Name

/-! # Processes are read back

Every part of a process is read back from the element of its outline. The searches for a field
never end in a part of something else, because all that stands before the field has other names.
-/

namespace ContractDoc.Workflow

open Text (HasNoBlank)
open Xml (Element Outline)
open Xml.Outline

attribute [local simp] Tag.id Tag.name Tag.isExecutable Tag.sequenceFlow Tag.flowNode Tag.sourceId
  Tag.targetId Tag.incoming Tag.outgoing Tag.listItem Tag.instanceType Tag.loopCardinality
  Tag.loopCollection Tag.operationType Tag.script Tag.form Tag.formField Tag.readOnly
  Tag.propertyId Tag.attachedTo Tag.definitionType Tag.definition Tag.calledElement

theorem display_of_no_bracket {name : String} (h : ']' ∉ name.toList) (hBlank : HasNoBlank name) :
    Name.display name = name := by
  rw [Name.display_of_not_mem h, Text.strip_eq_self hBlank]

theorem display_bracketed {assignee : Assignee} {name : String} (h : assignee.WellFormed)
    (hBlank : HasNoBlank name) : Name.display ("[" ++ assignee.text ++ "]" ++ name) = name := by
  rw [Name.display_tag h.noBracket, Text.strip_eq_self hBlank]

theorem assignee?_bracketed {assignee : Assignee} (h : assignee.WellFormed) (name : String) :
    Name.assignee? ("[" ++ assignee.text ++ "]" ++ name) = some assignee := by
  rw [Name.assignee?_tag h.noBracket, Name.assigneeFor_text h]

theorem SequenceFlow.ofXml_outline {flow : SequenceFlow} (h : flow.condition = flow.name) :
    SequenceFlow.ofXml flow.outline.toElement = .ok flow := by
  obtain ⟨id, sourceId, targetId, name, condition⟩ := flow
  obtain rfl : condition = name := h
  simp [SequenceFlow.ofXml, SequenceFlow.outline, Element.requireText, Function.comp_def]

theorem InstanceType.ofText?_word (type : InstanceType) :
    Keyword.ofText? (Text.trim (Keyword.word type)) = some type := by
  cases type <;> decide

theorem TokenOperation.ofText?_word (operation : TokenOperation) :
    Keyword.ofText? (Text.trim (Keyword.word operation)) = some operation := by
  cases operation <;> decide

theorem TimerType.ofText?_word (type : TimerType) :
    Keyword.ofText? (Text.trim (Keyword.word type)) = some type := by
  cases type <;> decide

theorem int32?_cardinalityText (count : Int32) :
    Text.int32? (Text.trim (cardinalityText count)) = some count := by
  rw [cardinalityText, Text.trim_eq_self (Text.hasNoBlank_numberChars count.toInt),
    Text.int32?_numberChars]

variable {kind : NodeKind} {header : NodeHeader} {written : String} {settings : TaskSettings}
  {rest : List Outline}

theorem lookup_headed {m : String} (h : m ∉ [Tag.id, Tag.name, Tag.incoming, Tag.outgoing]) :
    lookup (headed kind header written rest).parts m = lookup rest m := by
  simp only [List.mem_cons, List.not_mem_nil, or_false, not_or, ne_comm (a := m)] at h
  obtain ⟨hId, hName, hIncoming, hOutgoing⟩ := h
  simp only [headed, nodeOutline, parts_branch, NodeHeader.outlines, edgesOutline,
    List.cons_append, List.nil_append, lookup_cons, name_field, name_group, hId, hName,
    hIncoming, hOutgoing, ↓reduceIte]

theorem search_headed {m : String}
    (h : m ∉ [Tag.id, Tag.name, Tag.incoming, Tag.outgoing, Tag.listItem]) :
    search (headed kind header written rest).parts m = search rest m := by
  simp only [List.mem_cons, List.not_mem_nil, or_false, not_or, ne_comm (a := m)] at h
  obtain ⟨hId, hName, hIncoming, hOutgoing, hItem⟩ := h
  simp only [headed, nodeOutline, parts_branch, NodeHeader.outlines, edgesOutline,
    List.cons_append, List.nil_append, search_cons, name_field, name_group, parts_field,
    parts_group, search_nil, search_map_field _ _ _ hItem, hId, hName, hIncoming, hOutgoing,
    ↓reduceIte, Option.none_or]

theorem writtenName_headed : writtenName (headed kind header written rest).toElement =
    written := by
  simp [writtenName, headed, nodeOutline, NodeHeader.outlines]

theorem nodeId_headed :
    nodeId (headed kind header written rest).toElement = .ok header.id := by
  simp [nodeId, Element.requireText, headed, nodeOutline]

theorem map_text_edges (name : String) (ids : List String) {_ : Xml.IsLabel name} :
    ((edgesOutline name ids).toElement.descendantsNamed Tag.listItem).map Element.text =
      ids := by
  simp [edgesOutline, innerAll_map_field, List.filter_map, Function.comp_def]

theorem edgeList_eq {declaration : Element} {name : String} {ids : List String} [Xml.IsLabel name]
    (h : declaration.firstDescendant? name = some (edgesOutline name ids).toElement) :
    edgeList declaration name = .ok ids := by
  rw [edgeList, h]
  exact congrArg Except.ok (map_text_edges name ids)

theorem edgeList_incoming :
    edgeList (headed kind header written rest).toElement Tag.incoming = .ok header.incoming := by
  apply edgeList_eq
  simp [headed, nodeOutline, NodeHeader.outlines, edgesOutline]

theorem edgeList_outgoing :
    edgeList (headed kind header written rest).toElement Tag.outgoing = .ok header.outgoing := by
  apply edgeList_eq
  simp [headed, nodeOutline, NodeHeader.outlines, edgesOutline, search_map_field]

theorem NodeHeader.ofXml_headed (hName : Name.display written = header.name) :
    NodeHeader.ofXml (headed kind header written rest).toElement = .ok header := by
  simp only [NodeHeader.ofXml, nodeId_headed, edgeList_incoming, edgeList_outgoing,
    writtenName_headed, hName, Outcome.ok_bind, Outcome.pure_eq_ok]

theorem requireText_headed {m text : String} {_ : Xml.IsLabel m} (missing : Defect)
    (h : m ∉ [Tag.id, Tag.name, Tag.incoming, Tag.outgoing])
    (hRest : lookup rest m = some (field m text)) :
    (headed kind header written rest).toElement.requireText m missing = .ok text :=
  requireText_toElement _ missing ((lookup_headed h).trans hRest)

theorem lookup_settings {m : String}
    (h : m ∉ [Tag.instanceType, Tag.loopCardinality, Tag.loopCollection]) :
    lookup (settings.outlines ++ rest) m = lookup rest m := by
  simp only [List.mem_cons, List.not_mem_nil, or_false, not_or, ne_comm (a := m)] at h
  obtain ⟨hType, hCardinality, hCollection⟩ := h
  simp only [TaskSettings.outlines, List.cons_append, lookup_cons, name_field, lookup_append,
    lookup_field?, hType, hCardinality, hCollection, ↓reduceIte, Option.none_or]

theorem search_settings {m : String}
    (h : m ∉ [Tag.instanceType, Tag.loopCardinality, Tag.loopCollection]) :
    search (settings.outlines ++ rest) m = search rest m := by
  simp only [List.mem_cons, List.not_mem_nil, or_false, not_or, ne_comm (a := m)] at h
  obtain ⟨hType, hCardinality, hCollection⟩ := h
  simp only [TaskSettings.outlines, List.cons_append, search_cons, name_field, parts_field,
    search_nil, search_append, search_field?, hType, hCardinality, hCollection, ↓reduceIte,
    Option.none_or]

theorem TaskSettings.ofXml_headed
    (hRest : ∀ m ∈ [Tag.loopCardinality, Tag.loopCollection], lookup rest m = none) :
    TaskSettings.ofXml (headed kind header written (settings.outlines ++ rest)).toElement =
      .ok settings := by
  have hType : lookup (headed kind header written (settings.outlines ++ rest)).parts
      Tag.instanceType = (some settings.instanceType).map fun value =>
        field Tag.instanceType (Keyword.word value) := by
    rw [lookup_headed (by decide)]
    simp [TaskSettings.outlines]
  have hCardinality : lookup (headed kind header written (settings.outlines ++ rest)).parts
      Tag.loopCardinality = settings.loopCardinality.map fun count =>
        field Tag.loopCardinality (cardinalityText count) := by
    rw [lookup_headed (by decide), lookup_append, hRest Tag.loopCardinality (by simp)]
    simp [TaskSettings.outlines, Function.comp_def]
  have hCollection : lookup (headed kind header written (settings.outlines ++ rest)).parts
      Tag.loopCollection = settings.loopCollection.map fun text =>
        field Tag.loopCollection text := by
    rw [lookup_headed (by decide), lookup_append, hRest Tag.loopCollection (by simp)]
    simp [TaskSettings.outlines]
  have hType' := readChild?_toElement _ InstanceType.ofText?_word "instance type" hType
  have hCardinality' := readChild?_toElement _ int32?_cardinalityText
    "loop cardinality, it must be an integer" hCardinality
  simp only [TaskSettings.ofXml, hType', hCardinality', Outcome.ok_bind, childText?_toElement,
    hCollection]
  simp [Function.comp_def]

theorem FormField.ofXml_outline {part : FormField} (h : HasNoBlank part.displayName) :
    FormField.ofXml part.outline.toElement = .ok part := by
  obtain ⟨id, displayName, isReadOnly, propertyExpression⟩ := part
  have hReadOnly : (booleanText isReadOnly == "true") = isReadOnly := by
    cases isReadOnly <;> decide
  simp [FormField.ofXml, formFieldPart, FormField.outline, Text.strip_eq_self h, hReadOnly]

theorem Form.ofXml_outline {form : Form} (h : form.WellFormed) :
    Form.ofXml form.outline.toElement = .ok form := by
  obtain ⟨id, fields⟩ := form
  have hFields : (fields.map fun part => part.outline.toElement).mapM FormField.ofXml =
      .ok fields :=
    Outcome.mapM_map_eq_ok fun part hPart => FormField.ofXml_outline (h.names part hPart)
  have hNamed : (Form.outline ⟨id, fields⟩).toElement.descendantsNamed Tag.formField =
      fields.map fun part => part.outline.toElement := by
    have hBelow : ∀ part ∈ fields, ∀ p ∈ part.outline.parts, p.Foreign [Tag.formField] := by
      simp [FormField.outline]
    have hInner : (Form.outline ⟨id, fields⟩).inner.filter (fun p => p.name == Tag.formField) =
        fields.map FormField.outline := by
      rw [Form.outline, inner_group, innerAll_append, innerAll_field?, List.filter_append,
        filter_field? _ _ _ (by decide), List.nil_append]
      exact filter_innerAll_map (fun _ => rfl) hBelow (by simp)
    rw [descendantsNamed_toElement, hInner, List.map_map]
    rfl
  -- without an id of its own the form would take the id of its first field
  have hId : (Form.outline ⟨id, fields⟩).toElement.firstDescendant? Tag.id =
      id.map fun text => (field Tag.id text).toElement := by
    cases id with
    | none =>
        have hEmpty : fields = [] := by
          by_contra hSome
          exact absurd (h.id hSome) (by simp)
        simp [Form.outline, hEmpty]
    | some text => simp [Form.outline]
  rw [Form.ofXml, hNamed, hFields, hId]
  simp [Function.comp_def]

theorem lookup_form (m : String) (form? : Option Form) :
    lookup (form?.map Form.outline).toList m =
      if Tag.form = m then form?.map Form.outline else none := by
  by_cases h : Tag.form = m <;> cases form? <;> simp_all [Form.outline]

theorem search_form (form? : Option Form) :
    search (form?.map Form.outline).toList Tag.form = form?.map Form.outline := by
  cases form? <;> simp [Form.outline]

theorem TokenOperation.ofXml_headed {operation : TokenOperation}
    (h : lookup rest Tag.operationType = some operation.outline) :
    TokenOperation.ofXml (headed kind header written rest).toElement = .ok operation := by
  have hOperation : lookup (headed kind header written rest).parts Tag.operationType =
      (some operation).map fun value => field Tag.operationType (Keyword.word value) := by
    rw [lookup_headed (by decide), h]
    rfl
  rw [TokenOperation.ofXml, readChild?_toElement _ TokenOperation.ofText?_word _ hOperation]
  rfl

theorem UserWork.ofXml_headed {work : UserWork}
    (hAssignee : Name.assignee? written = work.assignee)
    (hForm : ∀ form ∈ work.form, form.WellFormed) :
    UserWork.ofXml
        (headed kind header written (settings.outlines ++ work.outlines)).toElement =
      .ok work := by
  obtain ⟨operation, assignee, validationScript, form⟩ := work
  have hOperation : lookup (settings.outlines ++
      (UserWork.mk operation assignee validationScript form).outlines) Tag.operationType =
      some operation.outline := by
    rw [lookup_settings (by decide)]
    simp [UserWork.outlines, TokenOperation.outline]
  have hScript : lookup (headed kind header written (settings.outlines ++
      (UserWork.mk operation assignee validationScript form).outlines)).parts Tag.script =
      validationScript.map fun text => field Tag.script text := by
    rw [lookup_headed (by decide), lookup_settings (by decide)]
    simp [UserWork.outlines, TokenOperation.outline, lookup_form]
  have hSearch : search (headed kind header written (settings.outlines ++
      (UserWork.mk operation assignee validationScript form).outlines)).parts Tag.form =
      form.map Form.outline := by
    rw [search_headed (by decide), search_settings (by decide)]
    simpa [UserWork.outlines, TokenOperation.outline] using search_form form
  simp only [UserWork.ofXml, TokenOperation.ofXml_headed hOperation, Outcome.ok_bind,
    firstDescendant?_toElement, hSearch, childText?_toElement, hScript, writtenName_headed,
    hAssignee]
  cases form with
  | none => simp [Function.comp_def]
  | some form =>
      simp [Form.ofXml_outline (hForm form rfl), Except.map, Function.comp_def]

theorem Timer.ofXml_headed {timer : Timer} (node : String) :
    Timer.ofXml (headed kind header written timer.outlines).toElement node = .ok timer := by
  have hAttached : lookup timer.outlines Tag.attachedTo =
      some (field Tag.attachedTo timer.attachedTo) := by
    simp [Timer.outlines]
  have hType : lookup (headed kind header written timer.outlines).parts Tag.definitionType =
      (some timer.definitionType).map fun value =>
        field Tag.definitionType (Keyword.word value) := by
    rw [lookup_headed (by decide)]
    simp [Timer.outlines]
  have hDefinition : lookup timer.outlines Tag.definition =
      some (field Tag.definition timer.definition) := by
    simp [Timer.outlines]
  rw [Timer.ofXml, requireText_headed _ (by decide) hAttached,
    readChild?_toElement _ TimerType.ofText?_word _ hType,
    requireText_headed _ (by decide) hDefinition]
  rfl

theorem NodeKind.ofXml_nodeOutline (id : String) :
    NodeKind.ofXml (nodeOutline kind id rest).toElement = .ok kind := by
  have hType : (nodeOutline kind id rest).toElement.attribute? (some schemaInstanceUri)
      typeAttribute = some kind.discriminator := by
    simp [nodeOutline, Outline.toElement, Element.attribute?]
  simp only [NodeKind.ofXml, hType, ofDiscriminator?_discriminator]

theorem display_writtenName {work : UserWork} {name : String}
    (hAssignee : ∀ assignee ∈ work.assignee, assignee.WellFormed) (hBlank : HasNoBlank name)
    (hBracket : ']' ∉ name.toList) : Name.display (work.writtenName name) = name := by
  unfold UserWork.writtenName
  split
  · next assignee hSome => exact display_bracketed (hAssignee assignee hSome) hBlank
  · exact display_of_no_bracket hBracket hBlank

theorem assignee?_writtenName {work : UserWork} {name : String}
    (hAssignee : ∀ assignee ∈ work.assignee, assignee.WellFormed)
    (hBracket : ']' ∉ name.toList) :
    Name.assignee? (work.writtenName name) = work.assignee := by
  unfold UserWork.writtenName
  split
  · next assignee hSome =>
      rw [hSome]
      exact assignee?_bracketed (hAssignee assignee hSome) name
  · next hNone =>
      rw [hNone]
      exact Name.assignee?_of_not_mem hBracket

theorem FlowNode.ofXml_outline {node : FlowNode} (h : node.WellFormed)
    (hBracket : ∀ name ∈ node.name?, ']' ∉ name.toList) :
    FlowNode.ofXml node.outline.toElement = .ok node := by
  have hKind : NodeKind.ofXml node.outline.toElement = .ok node.kind := by
    cases node <;> exact NodeKind.ofXml_nodeOutline _
  have hPlain : ∀ name ∈ node.name?, Name.display name = name := fun name hName =>
    display_of_no_bracket (hBracket name hName) (h.name name hName)
  rw [FlowNode.ofXml, hKind, Outcome.ok_bind]
  cases node with
  | startEvent header | endEvent header | exclusiveGateway header | parallelGateway header =>
      rw [FlowNode.outline, FlowNode.kind, FlowNode.ofXmlAs,
        NodeHeader.ofXml_headed (hPlain header.name rfl)]
      rfl
  | timerBoundaryEvent header timer =>
      rw [FlowNode.outline, FlowNode.kind, FlowNode.ofXmlAs,
        NodeHeader.ofXml_headed (hPlain header.name rfl), Outcome.ok_bind, Timer.ofXml_headed]
      rfl
  | scriptTask header settings operation script =>
      have hRest : ∀ m ∈ [Tag.loopCardinality, Tag.loopCollection],
          lookup [operation.outline, field Tag.script script] m = none := by
        simp [TokenOperation.outline]
      have hOperation : lookup (settings.outlines ++
          [operation.outline, field Tag.script script]) Tag.operationType =
          some operation.outline := by
        rw [lookup_settings (by decide)]
        simp [TokenOperation.outline]
      have hScript : lookup (settings.outlines ++
          [operation.outline, field Tag.script script]) Tag.script =
          some (field Tag.script script) := by
        rw [lookup_settings (by decide)]
        simp [TokenOperation.outline]
      rw [FlowNode.outline, FlowNode.kind, FlowNode.ofXmlAs,
        NodeHeader.ofXml_headed (hPlain header.name rfl), Outcome.ok_bind,
        TaskSettings.ofXml_headed hRest, Outcome.ok_bind, TokenOperation.ofXml_headed hOperation,
        Outcome.ok_bind, requireText_headed _ (by decide) hScript]
      rfl
  | serviceTask id | businessRuleTask id =>
      simp [FlowNode.outline, FlowNode.kind, FlowNode.ofXmlAs, nodeOutline, nodeId,
        Element.requireText]
  | userTask header settings work =>
      have hAssignee := h.assignee work rfl
      have hRest : ∀ m ∈ [Tag.loopCardinality, Tag.loopCollection],
          lookup work.outlines m = none := by
        simp [UserWork.outlines, TokenOperation.outline, lookup_form]
      rw [FlowNode.outline, FlowNode.kind, FlowNode.ofXmlAs,
        NodeHeader.ofXml_headed (display_writtenName hAssignee (h.name _ rfl) (hBracket _ rfl)),
        Outcome.ok_bind, TaskSettings.ofXml_headed hRest, Outcome.ok_bind,
        UserWork.ofXml_headed (assignee?_writtenName hAssignee (hBracket _ rfl)) (h.form work rfl)]
      rfl
  | callActivity header settings calledElement =>
      have hRest : ∀ m ∈ [Tag.loopCardinality, Tag.loopCollection],
          lookup [field Tag.calledElement calledElement] m = none := by
        simp
      have hCalled : lookup (settings.outlines ++ [field Tag.calledElement calledElement])
          Tag.calledElement = some (field Tag.calledElement calledElement) := by
        rw [lookup_settings (by decide)]
        simp
      rw [FlowNode.outline, FlowNode.kind, FlowNode.ofXmlAs,
        NodeHeader.ofXml_headed (hPlain header.name rfl), Outcome.ok_bind,
        TaskSettings.ofXml_headed hRest, Outcome.ok_bind,
        requireText_headed _ (by decide) hCalled]
      rfl

/-- The names by which the sections of a contract and the declarations in a process are found. -/
def sectionNames : List String :=
  [Tag.process, Tag.dataModel, Tag.flowNode, Tag.sequenceFlow]

theorem FlowNode.name_outline (node : FlowNode) : node.outline.name = Tag.flowNode := by
  cases node <;> rfl

theorem foreign_node (node : FlowNode) :
    ∀ part ∈ node.outline.parts, part.Foreign sectionNames := by
  cases node <;>
    simp +decide [FlowNode.outline, headed, nodeOutline, NodeHeader.outlines, edgesOutline,
      TaskSettings.outlines, Timer.outlines, TokenOperation.outline, UserWork.outlines,
      Form.outline, FormField.outline, or_imp, forall_and]

theorem foreign_flow (flow : SequenceFlow) :
    ∀ part ∈ flow.outline.parts, part.Foreign sectionNames := by
  simp +decide [SequenceFlow.outline]

theorem Declarations.add_foreign (part : Outline) (h : part.name ∉ sectionNames)
    (declared : Declarations) : declared.add part.toElement = .ok declared := by
  simp only [sectionNames, List.mem_cons, List.not_mem_nil, or_false, not_or] at h
  obtain ⟨-, -, hNode, hFlow⟩ := h
  rw [Declarations.add, name_toElement, if_neg hFlow, if_neg hNode]
  rfl

theorem Declarations.foldlM_nodes {nodes : Registry FlowNode}
    (hKeys : nodes.Holds fun id node => id = node.id)
    (hRead : nodes.Holds fun _ node => FlowNode.ofXml node.outline.toElement = .ok node) :
    (nodes.values.map fun node => node.outline.toElement).foldlM Declarations.add .empty =
      .ok ⟨nodes, .empty⟩ := by
  have hOther : Tag.flowNode ≠ Tag.sequenceFlow := by decide
  apply Registry.foldlM_values fun nodes => Declarations.mk nodes .empty
  intro part entry hEntry hBefore
  have hKey : entry.1 = entry.2.id := hKeys entry hEntry
  rw [Declarations.add, name_toElement, FlowNode.name_outline, if_neg hOther, if_pos rfl,
    hRead entry hEntry, Outcome.ok_bind, ← hKey]
  simp only [Registry.register?_of_lt entry.2 hBefore, Outcome.pure_eq_ok]

theorem Declarations.foldlM_flows (nodes : Registry FlowNode) {flows : Registry SequenceFlow}
    (hKeys : flows.Holds fun id flow => id = flow.id)
    (hRead : flows.Holds fun _ flow => SequenceFlow.ofXml flow.outline.toElement = .ok flow) :
    (flows.values.map fun flow => flow.outline.toElement).foldlM Declarations.add
      ⟨nodes, .empty⟩ = .ok ⟨nodes, flows⟩ := by
  apply Registry.foldlM_values (Declarations.mk nodes)
  intro part entry hEntry hBefore
  have hKey : entry.1 = entry.2.id := hKeys entry hEntry
  have hName : entry.2.outline.name = Tag.sequenceFlow := rfl
  rw [Declarations.add, name_toElement, hName, if_pos rfl, hRead entry hEntry,
    Outcome.ok_bind, ← hKey]
  simp only [Registry.register?_of_lt entry.2 hBefore, Outcome.pure_eq_ok]

theorem ProcessGraph.ofXml_outline {process : ProcessGraph} (h : process.WellFormed)
    (hBracket : process.nodes.Holds fun _ node => ∀ name ∈ node.name?, ']' ∉ name.toList) :
    ProcessGraph.ofXml process.outline.toElement = .ok process := by
  have hNodes := Declarations.foldlM_nodes h.nodeKeys fun entry hEntry =>
    FlowNode.ofXml_outline (h.nodes entry hEntry) (hBracket entry hEntry)
  have hFlows := Declarations.foldlM_flows process.nodes h.flowKeys
    fun entry hEntry => SequenceFlow.ofXml_outline (h.flows entry hEntry)
  have hDeclared : process.outline.toElement.descendants.foldlM Declarations.add .empty =
      .ok ⟨process.nodes, process.flows⟩ := by
    have hFields : ∀ part ∈ [field Tag.id process.id,
        field Tag.isExecutable (booleanText process.isExecutable)],
        part.Foreign sectionNames := by
      simp +decide
    have hSplit : process.outline.inner =
        inner.innerAll [field Tag.id process.id,
          field Tag.isExecutable (booleanText process.isExecutable)] ++
        (inner.innerAll (process.nodes.values.map FlowNode.outline) ++
          inner.innerAll (process.flows.values.map SequenceFlow.outline)) := by
      rw [ProcessGraph.outline, inner_group, ← innerAll_append, ← innerAll_append]
      rfl
    rw [descendants_toElement, hSplit, List.map_append, List.map_append, List.foldlM_append,
      foldlM_foreign Declarations.add_foreign hFields, Outcome.ok_bind, List.foldlM_append,
      foldlM_innerAll_map Declarations.add_foreign fun node _ => foreign_node node, hNodes,
      Outcome.ok_bind,
      foldlM_innerAll_map Declarations.add_foreign fun flow _ => foreign_flow flow, hFlows]
  have hExecutable : process.outline.toElement.readChild? Tag.isExecutable Element.boolValue =
      .ok (some process.isExecutable) := by
    simp [Element.readChild?, ProcessGraph.outline, boolValue_field, Except.map]
  have hId : lookup process.outline.parts Tag.id = some (field Tag.id process.id) := by
    simp [ProcessGraph.outline]
  rw [ProcessGraph.ofXml, requireText_toElement _ _ hId, hExecutable, Outcome.ok_bind,
    Outcome.ok_bind, hDeclared]
  rfl

end ContractDoc.Workflow

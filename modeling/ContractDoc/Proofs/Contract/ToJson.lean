import ContractDoc.Conversion
import ContractDoc.Proofs.DataModel.RoundTrip
import ContractDoc.Proofs.Json
import ContractDoc.Proofs.Workflow.RoundTrip

/-! # Contracts are determined by their JSON

Each type is written so that its values can be told apart: every field is there, a missing value is
null, which nothing else is written as, and the kind of a variant decides which fields follow. So the
printed text determines the contract.
-/

namespace ContractDoc

namespace Json

theorem ofOption_injective {α : Type} {encode : α → Json} (hNull : ∀ a, encode a ≠ null)
    (hEncode : Function.Injective encode) : Function.Injective (ofOption encode)
  | none, none, _ => rfl
  | none, some b, h => absurd h.symm (hNull b)
  | some a, none, h => absurd h (hNull a)
  | some _, some _, h => congrArg some (hEncode h)

theorem ofOption_inj {α : Type} {encode : α → Json} (hNull : ∀ a, encode a ≠ null)
    (hEncode : Function.Injective encode) {a? b? : Option α} :
    ofOption encode a? = ofOption encode b? ↔ a? = b? :=
  (ofOption_injective hNull hEncode).eq_iff

@[simp] theorem ofOption_string_inj {a? b? : Option String} :
    ofOption string a? = ofOption string b? ↔ a? = b? :=
  ofOption_inj (fun _ => Json.noConfusion) fun _ _ => string.inj

@[simp] theorem ofTexts_inj {as bs : List String} : ofTexts as = ofTexts bs ↔ as = bs := by
  rw [ofTexts, ofTexts, array.injEq]
  exact List.map_inj_right fun _ _ => string.inj

end Json

theorem Keyword.toJson_inj {α : Type} [Keyword α]
    (hWord : ∀ value : α, ofText? (Text.trim (word value)) = some value) {a b : α} :
    toJson a = toJson b ↔ a = b := by
  refine ⟨fun h => ?_, congrArg toJson⟩
  rw [← Option.some_inj, ← hWord a, Json.string.inj h, hWord b]

theorem Registry.toJson_inj {α : Type} {encode : α → Json} (hEncode : Function.Injective encode)
    {registry other : Registry α} :
    registry.toJson encode = other.toJson encode ↔ registry = other := by
  have hEntry : Function.Injective fun entry : String × α => (entry.1, encode entry.2) :=
    fun _ _ h => Prod.ext (Prod.mk.inj h).1 (hEncode (Prod.mk.inj h).2)
  refine ⟨fun h => ext_entries ?_, congrArg _⟩
  exact (List.map_inj_right hEntry).1 (Json.object.inj h)

namespace Workflow

@[simp] theorem InstanceType.toJson_inj {a b : InstanceType} :
    Keyword.toJson a = Keyword.toJson b ↔ a = b := Keyword.toJson_inj InstanceType.ofText?_word

@[simp] theorem TokenOperation.toJson_inj {a b : TokenOperation} :
    Keyword.toJson a = Keyword.toJson b ↔ a = b := Keyword.toJson_inj TokenOperation.ofText?_word

@[simp] theorem TimerType.toJson_inj {a b : TimerType} :
    Keyword.toJson a = Keyword.toJson b ↔ a = b := Keyword.toJson_inj TimerType.ofText?_word

@[simp] theorem NodeHeader.fields_append_inj {a b : NodeHeader} {more others : List (String × Json)} :
    a.fields ++ more = b.fields ++ others ↔ a = b ∧ more = others := by
  obtain ⟨id, name, incoming, outgoing⟩ := a
  obtain ⟨otherId, otherName, otherIncoming, otherOutgoing⟩ := b
  simp [fields, and_assoc]

@[simp] theorem NodeHeader.fields_inj {a b : NodeHeader} : a.fields = b.fields ↔ a = b := by
  rw [← List.append_nil a.fields, ← List.append_nil b.fields, fields_append_inj,
    and_iff_left rfl]

@[simp] theorem cardinality_inj {a? b? : Option Int32} :
    Json.ofOption (fun n => .number n.toInt) a? = Json.ofOption (fun n => .number n.toInt) b? ↔
      a? = b? :=
  Json.ofOption_inj (fun _ => Json.noConfusion) fun _ _ h => Int32.toInt_inj.1 (Json.number.inj h)

@[simp] theorem TaskSettings.fields_append_inj {a b : TaskSettings}
    {more others : List (String × Json)} :
    a.fields ++ more = b.fields ++ others ↔ a = b ∧ more = others := by
  obtain ⟨type, cardinality, collection⟩ := a
  obtain ⟨otherType, otherCardinality, otherCollection⟩ := b
  simp [fields, and_assoc]

@[simp] theorem TaskSettings.fields_inj {a b : TaskSettings} : a.fields = b.fields ↔ a = b := by
  rw [← List.append_nil a.fields, ← List.append_nil b.fields, fields_append_inj,
    and_iff_left rfl]

@[simp] theorem Timer.fields_inj {a b : Timer} : a.fields = b.fields ↔ a = b := by
  obtain ⟨attachedTo, definitionType, definition⟩ := a
  obtain ⟨otherAttachedTo, otherDefinitionType, otherDefinition⟩ := b
  simp [fields]

theorem Assignee.toJson_injective : Function.Injective Assignee.toJson := by
  intro a b h
  cases a <;> cases b <;> simp_all [toJson]

@[simp] theorem assignee_inj {a? b? : Option Assignee} :
    Json.ofOption Assignee.toJson a? = Json.ofOption Assignee.toJson b? ↔ a? = b? :=
  Json.ofOption_inj (by rintro (text | text) <;> exact Json.noConfusion) Assignee.toJson_injective

theorem FormField.toJson_injective : Function.Injective FormField.toJson := by
  rintro ⟨id, displayName, isReadOnly, property⟩ ⟨id', displayName', isReadOnly', property'⟩ h
  simpa [toJson] using h

theorem Form.toJson_injective : Function.Injective Form.toJson := by
  rintro ⟨id, fields⟩ ⟨id', fields'⟩ h
  simpa [toJson, List.map_inj_right FormField.toJson_injective] using h

@[simp] theorem form_inj {a? b? : Option Form} :
    Json.ofOption Form.toJson a? = Json.ofOption Form.toJson b? ↔ a? = b? :=
  Json.ofOption_inj (fun _ => Json.noConfusion) Form.toJson_injective

@[simp] theorem UserWork.fields_inj {a b : UserWork} : a.fields = b.fields ↔ a = b := by
  obtain ⟨operation, assignee, script, form⟩ := a
  obtain ⟨operation', assignee', script', form'⟩ := b
  simp [fields]

theorem NodeKind.label_injective : Function.Injective NodeKind.label := by
  have hFind (kind : NodeKind) :
      [startEvent, endEvent, exclusiveGateway, parallelGateway, timerBoundaryEvent, scriptTask,
        serviceTask, businessRuleTask, userTask, callActivity].find? (·.label == kind.label) =
          some kind := by
    cases kind <;> decide
  intro kind other h
  rw [← Option.some_inj, ← hFind kind, h, hFind other]

theorem FlowNode.fields_inj {node other : FlowNode} (hKind : node.kind = other.kind) :
    node.fields = other.fields ↔ node = other := by
  cases node <;> cases other <;> cases hKind <;> simp [fields]

theorem FlowNode.toJson_injective : Function.Injective FlowNode.toJson := by
  intro node other h
  simp only [toJson, Json.object.injEq, List.cons.injEq, Prod.mk.injEq, Json.string.injEq,
    true_and] at h
  obtain ⟨hLabel, hFields⟩ := h
  exact (FlowNode.fields_inj (NodeKind.label_injective hLabel)).1 hFields

theorem SequenceFlow.toJson_injective : Function.Injective SequenceFlow.toJson := by
  rintro ⟨id, sourceId, targetId, name, condition⟩ ⟨id', sourceId', targetId', name', condition'⟩ h
  simpa [toJson] using h

theorem ProcessGraph.toJson_injective : Function.Injective ProcessGraph.toJson := by
  rintro ⟨id, isExecutable, nodes, flows⟩ ⟨id', isExecutable', nodes', flows'⟩ h
  simpa [toJson, Registry.toJson_inj FlowNode.toJson_injective,
    Registry.toJson_inj SequenceFlow.toJson_injective] using h

end Workflow

namespace DataModel

@[simp] theorem PropertyKind.toJson_inj {a b : PropertyKind} :
    Keyword.toJson a = Keyword.toJson b ↔ a = b := Keyword.toJson_inj PropertyKind.ofText?_word

theorem ScalarType.toJson_injective : Function.Injective ScalarType.toJson := by
  have hFind (type : ScalarType) :
      (Keyword.values : List ScalarType).find? (·.label == type.label) = some type := by
    cases type <;> decide
  intro type other h
  rw [← Option.some_inj, ← hFind type, Json.string.inj h, hFind other]

@[simp] theorem scalarType_inj {a? b? : Option ScalarType} :
    Json.ofOption ScalarType.toJson a? = Json.ofOption ScalarType.toJson b? ↔ a? = b? :=
  Json.ofOption_inj (fun _ => Json.noConfusion) ScalarType.toJson_injective

theorem Property.toJson_injective : Function.Injective Property.toJson := by
  rintro ⟨id, name, isMandatory, kind, dataType, keyDataType, referenced⟩
    ⟨id', name', isMandatory', kind', dataType', keyDataType', referenced'⟩ h
  simpa [toJson] using h

@[simp] theorem propertiesJson_inj {properties others : List Property} :
    propertiesJson properties = propertiesJson others ↔ properties = others := by
  rw [propertiesJson, propertiesJson, Json.array.injEq]
  exact List.map_inj_right Property.toJson_injective

theorem DataType.fields_inj {type other : DataType} (hLabel : type.label = other.label) :
    type.fields = other.fields ↔ type = other := by
  cases type with
  | entity entity =>
      cases other with
      | entity other => cases entity; cases other; simp [fields]
      | token _ | enumeration _ => exact absurd hLabel (by simp [label])
  | token token =>
      cases other with
      | token other => cases token; cases other; simp [fields]
      | entity _ | enumeration _ => exact absurd hLabel (by simp [label])
  | enumeration enumeration =>
      cases other with
      | enumeration other => cases enumeration; cases other; simp [fields]
      | entity _ | token _ => exact absurd hLabel (by simp [label])

theorem DataType.toJson_injective : Function.Injective DataType.toJson := by
  intro type other h
  simp only [toJson, Json.object.injEq, List.cons.injEq, Prod.mk.injEq, Json.string.injEq,
    true_and] at h
  exact (DataType.fields_inj h.1).1 h.2

end DataModel

namespace Contract

theorem toJson_injective : Function.Injective Contract.toJson := by
  rintro ⟨id, name, processes, dataTypes⟩ ⟨id', name', processes', dataTypes'⟩ h
  simpa [toJson, List.map_inj_right Workflow.ProcessGraph.toJson_injective,
    Registry.toJson_inj DataModel.DataType.toJson_injective] using h

def printed (contract : Contract) : String := contract.toJson.pretty ++ "\n"

theorem output_eq (source : Source) : Conversion.output source = printed <$> read source := rfl

/-- Different contracts are printed differently. -/
theorem printed_inj {contract other : Contract} :
    contract.printed = other.printed ↔ contract = other := by
  rw [printed, printed, String.append_left_inj, Json.pretty_injective.eq_iff,
    toJson_injective.eq_iff]

end Contract
end ContractDoc

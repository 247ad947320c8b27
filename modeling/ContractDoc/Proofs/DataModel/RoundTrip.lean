import ContractDoc.DataModel.OfXml
import ContractDoc.Proofs.Contract.Writer
import ContractDoc.Proofs.DataModel.WellFormed

/-! # Data models are read back

Every data type is read back from the element of its outline: the parts of a declaration are each
taken in once, and what stands below the properties of a token is none of the token's parts.
-/

namespace ContractDoc.DataModel

open Text (HasNoBlank)
open Xml (Element Outline)
open Xml.Outline

attribute [local simp] Tag.id Tag.name Tag.entity Tag.token Tag.enumeration Tag.isRootEntity
  Tag.primitiveProperties Tag.referenceProperties Tag.primitiveProperty Tag.referenceProperty
  Tag.symbol Tag.address Tag.isFungible Tag.isIssued Tag.mintScript Tag.transferScript
  Tag.enumValues Tag.enumValue Tag.isMandatory Tag.propertyType Tag.dataType Tag.keyDataType
  Tag.entityId

theorem ScalarType.ofXml_field {m : String} {_ : Xml.IsLabel m} (type : ScalarType) :
    ScalarType.ofXml (field m type.literal).toElement = .ok type := by
  have hLiteral : ScalarType.ofLiteral? (Text.trim type.literal) = some type := by
    cases type <;> decide
  simp [ScalarType.ofXml, ScalarType.ofLiteral, hLiteral]

theorem PropertyKind.ofText?_word (kind : PropertyKind) :
    Keyword.ofText? (Text.trim (Keyword.word kind)) = some kind := by
  cases kind <;> decide

theorem PropertyKind.parseText_field {m : String} {_ : Xml.IsLabel m}
    (kind : PropertyKind) (expected : String) :
    (field m (Keyword.word kind)).toElement.parseText Keyword.ofText? expected =
      .ok kind := by
  simp [Element.parseText, PropertyKind.ofText?_word]

namespace Property

theorem foldlM_outlines {property : Property} (h : HasNoBlank property.name) :
    (property.outlines.map toElement).foldlM add (ofId property.id) = .ok property := by
  obtain ⟨id, name, isMandatory, kind, dataType, keyDataType, referencedDataType⟩ := property
  have hHead : ([field Tag.id id, field Tag.name name,
      field Tag.isMandatory (booleanText isMandatory),
      field Tag.propertyType (Keyword.word kind)].map toElement).foldlM add (ofId id) =
      .ok ⟨id, name, isMandatory, kind, none, none, none⟩ := by
    simp [add, ofId, Text.strip_eq_self h, boolValue_field, PropertyKind.parseText_field]
  have hData : ((field? Tag.dataType (dataType.map ScalarType.literal)).map toElement).foldlM add
      ⟨id, name, isMandatory, kind, none, none, none⟩ =
      .ok ⟨id, name, isMandatory, kind, dataType, none, none⟩ := by
    apply foldlM_map_field?
    · rintro rfl
      rfl
    · rintro type rfl
      simp [add, ScalarType.ofXml_field]
  have hKey : ((field? Tag.keyDataType (keyDataType.map ScalarType.literal)).map
      toElement).foldlM add ⟨id, name, isMandatory, kind, dataType, none, none⟩ =
      .ok ⟨id, name, isMandatory, kind, dataType, keyDataType, none⟩ := by
    apply foldlM_map_field?
    · rintro rfl
      rfl
    · rintro type rfl
      simp [add, ScalarType.ofXml_field]
  have hEntity : ((field? Tag.entityId referencedDataType).map toElement).foldlM add
      ⟨id, name, isMandatory, kind, dataType, keyDataType, none⟩ =
      .ok ⟨id, name, isMandatory, kind, dataType, keyDataType, referencedDataType⟩ := by
    apply foldlM_field?
    · rintro rfl
      rfl
    · rintro text rfl
      simp [add]
  have hSplit : outlines ⟨id, name, isMandatory, kind, dataType, keyDataType,
      referencedDataType⟩ = [field Tag.id id, field Tag.name name,
        field Tag.isMandatory (booleanText isMandatory),
        field Tag.propertyType (Keyword.word kind)] ++
      (field? Tag.dataType (dataType.map ScalarType.literal) ++
        field? Tag.keyDataType (keyDataType.map ScalarType.literal) ++
        field? Tag.entityId referencedDataType) := rfl
  simp only [hSplit, List.map_append, List.foldlM_append, hHead, Outcome.ok_bind, hData, hKey,
    hEntity]

theorem parts_outline (property : Property) : property.outline.parts = property.outlines := by
  unfold outline
  split <;> rfl

theorem ofXml_outline {property : Property} (h : HasNoBlank property.name) :
    ofXml property.outline.toElement = .ok property := by
  have hId : lookup property.outline.parts Tag.id = some (field Tag.id property.id) := by
    simp [parts_outline, outlines]
  rw [ofXml, requireText_toElement _ _ hId, Outcome.ok_bind, children_toElement, parts_outline]
  exact foldlM_outlines h

theorem union_eq_append {properties more : List Property} (h : (properties ++ more).Nodup) :
    union properties more = properties ++ more := by
  unfold union
  induction more generalizing properties with
  | nil => rw [List.foldl_nil, List.append_nil]
  | cons first rest ih =>
      have hNew : first ∉ properties := fun hOld =>
        (List.nodup_append.1 h).2.2 first hOld first List.mem_cons_self rfl
      rw [List.append_cons] at h ⊢
      rw [List.foldl_cons, if_neg hNew]
      exact ih h

end Property

section

variable {m id name : String} {_ : Xml.IsLabel m} {rest : List Outline}

theorem declaredId_group :
    declaredId (group m (field Tag.id id :: rest)).toElement = .ok id := by
  simp [declaredId, Element.requireText]

theorem declaredName_group (h : HasNoBlank name) :
    declaredName (group m (field Tag.id id :: field Tag.name name :: rest)).toElement =
      name := by
  simp [declaredName, Text.strip_eq_self h]

end

theorem propertyList_eq (properties : List Property) :
    propertyList properties =
        group Tag.primitiveProperties (properties.map Property.outline) ∨
      propertyList properties =
        group Tag.referenceProperties (properties.map Property.outline) := by
  unfold propertyList
  split
  · exact .inr rfl
  · exact .inl rfl

namespace Entity

theorem add_propertyList {entity : Entity} {properties : List Property}
    (h : ∀ property ∈ properties, HasNoBlank property.name)
    (hDistinct : (entity.properties ++ properties).Nodup) :
    entity.add (propertyList properties).toElement =
      .ok { entity with properties := entity.properties ++ properties } := by
  have hRead : ((properties.map Property.outline).map toElement).mapM Property.ofXml =
      .ok properties := by
    rw [List.map_map]
    exact Outcome.mapM_map_eq_ok fun property hProperty =>
      Property.ofXml_outline (h property hProperty)
  have hOther : Tag.primitiveProperties ≠ Tag.isRootEntity ∧
      Tag.referenceProperties ≠ Tag.isRootEntity := by decide
  rcases propertyList_eq properties with hList | hList
  · rw [hList, add, name_toElement, name_group, if_neg hOther.1, if_pos (.inl rfl),
      children_toElement, parts_group, hRead, Outcome.ok_bind,
      Property.union_eq_append hDistinct]
    rfl
  · rw [hList, add, name_toElement, name_group, if_neg hOther.2, if_pos (.inr rfl),
      children_toElement, parts_group, hRead, Outcome.ok_bind,
      Property.union_eq_append hDistinct]
    rfl

/-- Lists of properties are taken in one after the other. -/
theorem foldlM_propertyList {runs : List (List Property)} {entity : Entity}
    (h : ∀ run ∈ runs, ∀ property ∈ run, HasNoBlank property.name)
    (hDistinct : (entity.properties ++ runs.flatten).Nodup) :
    ((runs.map propertyList).map toElement).foldlM add entity =
      .ok { entity with properties := entity.properties ++ runs.flatten } := by
  induction runs generalizing entity with
  | nil => simp
  | cons run runs ih =>
      rw [List.flatten_cons, ← List.append_assoc] at hDistinct ⊢
      rw [List.map_cons, List.map_cons, List.foldlM_cons,
        add_propertyList (h run List.mem_cons_self) (List.nodup_append.1 hDistinct).1,
        Outcome.ok_bind]
      exact ih (fun other hOther => h other (List.mem_cons_of_mem run hOther)) hDistinct

theorem ofXml_outline {entity : Entity} (h : (DataType.entity entity).WellFormed) :
    ofXml entity.outline.toElement = .ok entity := by
  obtain ⟨id, name, isRoot, properties⟩ := entity
  have hHead : ([field Tag.id id, field Tag.name name,
      field Tag.isRootEntity (booleanText isRoot)].map toElement).foldlM add
      ⟨id, name, false, []⟩ = .ok ⟨id, name, isRoot, []⟩ := by
    simp [add, boolValue_field]
  have hRuns : (properties.splitBy fun a b => a.kind == b.kind).flatten = properties :=
    List.flatten_splitBy _ properties
  have hNames : ∀ run ∈ properties.splitBy fun a b => a.kind == b.kind,
      ∀ property ∈ run, HasNoBlank property.name := fun run hRun property hProperty =>
    h.properties property (hRuns ▸ List.mem_flatten_of_mem hRun hProperty)
  have hLists : ((propertyLists properties).map toElement).foldlM add ⟨id, name, isRoot, []⟩ =
      .ok ⟨id, name, isRoot, properties⟩ := by
    rw [propertyLists, foldlM_propertyList hNames, hRuns]
    · rfl
    · rw [hRuns]
      exact h.distinct _ rfl
  have hSplit : (outline ⟨id, name, isRoot, properties⟩).parts =
      [field Tag.id id, field Tag.name name, field Tag.isRootEntity (booleanText isRoot)] ++
        propertyLists properties := rfl
  have hId : declaredId (outline ⟨id, name, isRoot, properties⟩).toElement = .ok id :=
    declaredId_group
  have hName : declaredName (outline ⟨id, name, isRoot, properties⟩).toElement = name :=
    declaredName_group h.name
  rw [ofXml, hId, Outcome.ok_bind, hName, children_toElement, hSplit, List.map_append,
    List.foldlM_append, hHead, Outcome.ok_bind, hLists]

end Entity

namespace Token

/-- The names of the elements that a token takes in. -/
def partNames : List String :=
  [Tag.primitiveProperty, Tag.referenceProperty, Tag.symbol, Tag.address, Tag.isFungible,
    Tag.isIssued, Tag.mintScript, Tag.transferScript]

theorem add_foreign (part : Outline) (h : part.name ∉ partNames) (token : Token) :
    token.add part.toElement = .ok token := by
  simp only [partNames, List.mem_cons, List.not_mem_nil, or_false, not_or] at h
  obtain ⟨hPrimitive, hReference, hSymbol, hAddress, hFungible, hIssued, hMint, hTransfer⟩ := h
  simp only [add, name_toElement, hPrimitive, hReference, hSymbol, hAddress, hFungible, hIssued,
    hMint, hTransfer, or_self, ↓reduceIte]

theorem foreign_property (property : Property) :
    ∀ part ∈ property.outline.parts, part.Foreign partNames := by
  simp +decide [Property.parts_outline, Property.outlines, or_imp, forall_and]

theorem add_property {token : Token} {property : Property} (h : HasNoBlank property.name) :
    token.add property.outline.toElement =
      .ok { token with properties := token.properties ++ [property] } := by
  have hName : property.outline.name = Tag.primitiveProperty ∨
      property.outline.name = Tag.referenceProperty := by
    unfold Property.outline
    split
    · exact .inl rfl
    · exact .inr rfl
  rw [add, name_toElement, if_pos hName, Property.ofXml_outline h]
  rfl

theorem foldlM_properties {properties : List Property} {token : Token}
    (h : ∀ property ∈ properties, HasNoBlank property.name) :
    (properties.map fun property => property.outline.toElement).foldlM add token =
      .ok { token with properties := token.properties ++ properties } := by
  induction properties generalizing token with
  | nil => simp
  | cons property rest ih =>
      rw [List.map_cons, List.foldlM_cons, add_property (h property List.mem_cons_self),
        Outcome.ok_bind, ih fun other hOther => h other (List.mem_cons_of_mem property hOther),
        List.append_assoc]
      rfl

theorem ofXml_outline {token : Token} (h : (DataType.token token).WellFormed) :
    ofXml token.outline.toElement = .ok token := by
  obtain ⟨id, name, symbol, isFungible, isIssued, address, mintScript, transferScript,
    properties⟩ := token
  have hHead : ([field Tag.id id, field Tag.name name].map toElement).foldlM add
      ⟨id, name, none, false, false, none, none, none, []⟩ =
      .ok ⟨id, name, none, false, false, none, none, none, []⟩ := by
    simp [add]
  have hSymbol : ((field? Tag.symbol symbol).map toElement).foldlM add
      ⟨id, name, none, false, false, none, none, none, []⟩ =
      .ok ⟨id, name, symbol, false, false, none, none, none, []⟩ :=
    foldlM_field? (by rintro rfl; rfl) (by rintro text rfl; simp [add])
  have hAddress : ((field? Tag.address address).map toElement).foldlM add
      ⟨id, name, symbol, false, false, none, none, none, []⟩ =
      .ok ⟨id, name, symbol, false, false, address, none, none, []⟩ :=
    foldlM_field? (by rintro rfl; rfl) (by rintro text rfl; simp [add])
  have hFlags : ([field Tag.isFungible (booleanText isFungible),
      field Tag.isIssued (booleanText isIssued)].map toElement).foldlM add
      ⟨id, name, symbol, false, false, address, none, none, []⟩ =
      .ok ⟨id, name, symbol, isFungible, isIssued, address, none, none, []⟩ := by
    simp [add, boolValue_field]
  have hMint : ((field? Tag.mintScript mintScript).map toElement).foldlM add
      ⟨id, name, symbol, isFungible, isIssued, address, none, none, []⟩ =
      .ok ⟨id, name, symbol, isFungible, isIssued, address, mintScript, none, []⟩ :=
    foldlM_field? (by rintro rfl; rfl) (by rintro text rfl; simp [add])
  have hTransfer : ((field? Tag.transferScript transferScript).map toElement).foldlM add
      ⟨id, name, symbol, isFungible, isIssued, address, mintScript, none, []⟩ =
      .ok ⟨id, name, symbol, isFungible, isIssued, address, mintScript, transferScript, []⟩ :=
    foldlM_field? (by rintro rfl; rfl) (by rintro text rfl; simp [add])
  -- what stands below a property has to be passed over here, since tokens look at all depths
  have hSplit : (outline ⟨id, name, symbol, isFungible, isIssued, address, mintScript,
      transferScript, properties⟩).inner =
      [field Tag.id id, field Tag.name name] ++
        (field? Tag.symbol symbol ++ field? Tag.address address ++
          [field Tag.isFungible (booleanText isFungible),
            field Tag.isIssued (booleanText isIssued)] ++
          field? Tag.mintScript mintScript ++ field? Tag.transferScript transferScript ++
          inner.innerAll (properties.map Property.outline)) := by
    simp [outline, inner.innerAll]
  have hId : declaredId (outline ⟨id, name, symbol, isFungible, isIssued, address, mintScript,
      transferScript, properties⟩).toElement = .ok id := declaredId_group
  have hName : declaredName (outline ⟨id, name, symbol, isFungible, isIssued, address,
      mintScript, transferScript, properties⟩).toElement = name := declaredName_group h.name
  simp only [ofXml, hId, Outcome.ok_bind, hName, descendants_toElement, hSplit, List.map_append,
    List.foldlM_append, hHead, hSymbol, hAddress, hFlags, hMint, hTransfer,
    foldlM_innerAll_map add_foreign fun property _ => foreign_property property]
  exact foldlM_properties h.properties

end Token

theorem Enumeration.ofXml_outline {enumeration : Enumeration}
    (h : (DataType.enumeration enumeration).WellFormed) :
    ofXml enumeration.outline.toElement = .ok enumeration := by
  obtain ⟨id, name, values⟩ := enumeration
  have hId : declaredId (outline ⟨id, name, values⟩).toElement = .ok id := declaredId_group
  have hName : declaredName (outline ⟨id, name, values⟩).toElement = name :=
    declaredName_group h.name
  have hList : ((outline ⟨id, name, values⟩).toElement.childrenNamed Tag.enumValues).getLast? =
      some (group Tag.enumValues
        (values.map fun value => field Tag.enumValue value)).toElement := by
    simp [Element.childrenNamed, outline]
  have hValues : ((group Tag.enumValues (values.map fun value =>
      field Tag.enumValue value)).toElement.childrenNamed Tag.enumValue).map Element.text =
      values := by
    simp [Element.childrenNamed, List.filter_map, Function.comp_def]
  simp only [ofXml, hId, hName, hList, hValues, Outcome.ok_bind, Outcome.pure_eq_ok]

/-- The names by which processes and data types are found. -/
def sectionNames : List String :=
  [Tag.process, Tag.entity, Tag.token, Tag.enumeration]

theorem foreign_property (property : Property) : property.outline.Foreign sectionNames := by
  unfold Property.outline
  split <;> simp +decide [Property.outlines, or_imp, forall_and]

theorem foreign_propertyList (properties : List Property) :
    (propertyList properties).Foreign sectionNames := by
  rcases propertyList_eq properties with hList | hList <;>
    simp +decide [hList, foreign_property]

theorem foreign_type (type : DataType) :
    ∀ part ∈ type.outline.parts, part.Foreign sectionNames := by
  cases type with
  | entity entity =>
      simp +decide [DataType.outline, Entity.outline, propertyLists, foreign_propertyList]
  | token token =>
      simp +decide [DataType.outline, Token.outline, foreign_property, or_imp, forall_and]
  | enumeration enumeration =>
      simp +decide [DataType.outline, Enumeration.outline]

theorem DataType.ofXml?_outline {type : DataType} (h : type.WellFormed) :
    ofXml? type.outline.toElement = .ok (some type) := by
  have hNames : Tag.token ≠ Tag.entity ∧ Tag.enumeration ≠ Tag.entity ∧
      Tag.enumeration ≠ Tag.token := by decide
  cases type with
  | entity entity =>
      have hName : (DataType.entity entity).outline.toElement.name = Tag.entity := rfl
      rw [ofXml?, if_pos hName, DataType.outline, Entity.ofXml_outline h]
      rfl
  | token token =>
      have hName : (DataType.token token).outline.toElement.name = Tag.token := rfl
      rw [ofXml?, hName, if_neg hNames.1, if_pos rfl, DataType.outline, Token.ofXml_outline h]
      rfl
  | enumeration enumeration =>
      have hName : (DataType.enumeration enumeration).outline.toElement.name =
          Tag.enumeration := rfl
      rw [ofXml?, hName, if_neg hNames.2.1, if_neg hNames.2.2, if_pos rfl, DataType.outline,
        Enumeration.ofXml_outline h]
      rfl

theorem addDeclaration_foreign (part : Outline) (h : part.name ∉ sectionNames)
    (types : Registry DataType) : addDeclaration types part.toElement = .ok types := by
  simp only [sectionNames, List.mem_cons, List.not_mem_nil, or_false, not_or] at h
  obtain ⟨-, hEntity, hToken, hEnumeration⟩ := h
  simp only [addDeclaration, DataType.ofXml?, name_toElement, hEntity, hToken, hEnumeration,
    ↓reduceIte, Outcome.ok_bind, Outcome.pure_eq_ok]

/-- The data types of a section are read back in it. -/
theorem ofXml_outline {types : Registry DataType} (hKeys : types.Holds fun id type => id = type.id)
    (h : types.Holds fun _ type => type.WellFormed) :
    ofXml (outline types).toElement = .ok types := by
  rw [ofXml, descendants_toElement, outline, inner_group,
    foldlM_innerAll_map addDeclaration_foreign fun type _ => foreign_type type]
  apply Registry.foldlM_values id
  intro part entry hEntry hBefore
  have hKey : entry.1 = entry.2.id := hKeys entry hEntry
  rw [addDeclaration, DataType.ofXml?_outline (h entry hEntry), hKey]
  rfl

end ContractDoc.DataModel

import ContractDoc.Proofs.DataModel.Grammar
import ContractDoc.Proofs.Xml.Preorder

/-! # Fields that are written more than once

Which part of a declaration decides a field when several carry its tag. The id and the name of a
data type are those of the first children with these tags, every other field of a token is what the
last part at any depth is read as, and in a property only the id is taken from the first child.
-/

namespace ContractDoc.DataModel

open Outcome (LastReadAs ReadInto)
open Xml (Element)

theorem lastReadAs_textValue_iff {elements : List Element} {value : Option String} :
    LastReadAs textValue none elements value ↔
      value = elements.getLast?.map Element.text := by
  rw [show textValue = fun element : Element => .ok (some element.text) from rfl,
    Outcome.lastReadAs_ok_iff]
  cases elements.getLast? <;> rfl

theorem childText?_eq_head? (element : Element) (name : String) :
    element.childText? name = (element.childrenNamed name).head?.map Element.text := by
  rw [Element.childText?, Element.child?, Element.childrenNamed, List.head?_filter]

theorem hasChild_iff {element : Element} {name : String} :
    element.HasChild name ↔ element.childrenNamed name ≠ [] := by
  simp [Element.HasChild, Element.childrenNamed]

namespace Property

/-- A property has the id of the first child with that tag, and every other field is what the last
child with its tag is read as. Fields without a child have their defaults. -/
structure Resolves (declaration : Element) (property : Property) : Prop where
  id : (declaration.childrenNamed Tag.id).head?.map Element.text = some property.id
  name : property.name =
    ((declaration.childrenNamed Tag.name).getLast?.map fun child => Text.strip child.text).getD ""
  isMandatory : LastReadAs Element.boolValue false (declaration.childrenNamed Tag.isMandatory)
    property.isMandatory
  kind : LastReadAs kindValue .primitive (declaration.childrenNamed Tag.propertyType) property.kind
  dataType : LastReadAs scalarValue none (declaration.childrenNamed Tag.dataType) property.dataType
  keyDataType : LastReadAs scalarValue none (declaration.childrenNamed Tag.keyDataType)
    property.keyDataType
  referencedDataType : property.referencedDataType =
    (declaration.childrenNamed Tag.entityId).getLast?.map Element.text

theorem Resolves.unique {declaration : Element} {property other : Property}
    (h : Resolves declaration property) (hOther : Resolves declaration other) :
    property = other := by
  obtain ⟨id, name, isMandatory, kind, dataType, keyDataType, referencedDataType⟩ := property
  obtain rfl : id = other.id := Option.some.inj (h.id.symm.trans hOther.id)
  obtain rfl : name = other.name := h.name.trans hOther.name.symm
  obtain rfl : isMandatory = other.isMandatory := h.isMandatory.unique hOther.isMandatory
  obtain rfl : kind = other.kind := h.kind.unique hOther.kind
  obtain rfl : dataType = other.dataType := h.dataType.unique hOther.dataType
  obtain rfl : keyDataType = other.keyDataType := h.keyDataType.unique hOther.keyDataType
  obtain rfl : referencedDataType = other.referencedDataType :=
    h.referencedDataType.trans hOther.referencedDataType.symm
  rfl

theorem resolves_of_ofXml {declaration : Element} {property : Property}
    (h : ofXml declaration = .ok property) : Resolves declaration property := by
  obtain ⟨id, hId, hFold⟩ := Outcome.bind_eq_ok_iff.1 h
  rw [Element.requireText_eq_ok_iff, childText?_eq_head?] at hId
  have hSameId : property.id = id :=
    Outcome.foldlM_keeps (fun _ _ _ hNext => (adds_of_add hNext).id) hFold
  refine ⟨hSameId ▸ hId, ?_, ?_, ?_, ?_, ?_, ?_⟩
  · apply Outcome.lastReadAs_ok_iff.1
    exact lastReadAs_of_named hFold Tag.name strippedText Property.name
      fun _ _ _ hNext => (adds_of_add hNext).name
  · exact lastReadAs_of_named hFold Tag.isMandatory Element.boolValue Property.isMandatory
      fun _ _ _ hNext => (adds_of_add hNext).isMandatory
  · exact lastReadAs_of_named hFold Tag.propertyType kindValue Property.kind
      fun _ _ _ hNext => (adds_of_add hNext).kind
  · exact lastReadAs_of_named hFold Tag.dataType scalarValue Property.dataType
      fun _ _ _ hNext => (adds_of_add hNext).dataType
  · exact lastReadAs_of_named hFold Tag.keyDataType scalarValue Property.keyDataType
      fun _ _ _ hNext => (adds_of_add hNext).keyDataType
  · apply lastReadAs_textValue_iff.1
    exact lastReadAs_of_named hFold Tag.entityId textValue Property.referencedDataType
      fun _ _ _ hNext => (adds_of_add hNext).referencedDataType

/-- What a declaration is read as, said by its last parts alone. -/
theorem ofXml_eq_ok_iff {declaration : Element} {property : Property} :
    ofXml declaration = .ok property ↔
      Grammar.IsProperty declaration ∧ Resolves declaration property := by
  constructor
  · intro h
    exact ⟨succeeds_ofXml_iff.1 ⟨property, h⟩, resolves_of_ofXml h⟩
  · rintro ⟨hGrammar, hResolves⟩
    obtain ⟨other, hOther⟩ := succeeds_ofXml_iff.2 hGrammar
    rw [hResolves.unique (resolves_of_ofXml hOther), hOther]

def tags : List String :=
  [Tag.id, Tag.name, Tag.isMandatory, Tag.propertyType, Tag.dataType, Tag.keyDataType, Tag.entityId]

/-- How the parts of a property stand between each other, and between other children, does not
matter as long as the ones with the same tag keep their order. -/
theorem ofXml_of_childrenNamed_eq {declaration other : Element} {property : Property}
    (hSame : ∀ tag ∈ tags, declaration.childrenNamed tag = other.childrenNamed tag)
    (h : ofXml declaration = .ok property) : ofXml other = .ok property := by
  obtain ⟨hGrammar, hResolves⟩ := ofXml_eq_ok_iff.1 h
  have hId := hSame Tag.id (by decide)
  have hName := hSame Tag.name (by decide)
  have hMandatory := hSame Tag.isMandatory (by decide)
  have hKind := hSame Tag.propertyType (by decide)
  have hType := hSame Tag.dataType (by decide)
  have hKeyType := hSame Tag.keyDataType (by decide)
  have hReferenced := hSame Tag.entityId (by decide)
  apply ofXml_eq_ok_iff.2
  constructor
  · obtain ⟨id, isMandatory, kind, dataType, keyDataType⟩ := hGrammar
    rw [hasChild_iff, hId] at id
    rw [hMandatory] at isMandatory
    rw [hKind] at kind
    rw [hType] at dataType
    rw [hKeyType] at keyDataType
    exact ⟨hasChild_iff.2 id, isMandatory, kind, dataType, keyDataType⟩
  · obtain ⟨id, name, isMandatory, kind, dataType, keyDataType, referencedDataType⟩ := hResolves
    rw [hId] at id
    rw [hName] at name
    rw [hMandatory] at isMandatory
    rw [hKind] at kind
    rw [hType] at dataType
    rw [hKeyType] at keyDataType
    rw [hReferenced] at referencedDataType
    exact ⟨id, name, isMandatory, kind, dataType, keyDataType, referencedDataType⟩

end Property

namespace Token

/-- A token has the id and the name of the first children with these tags. Every other field is what
the last part with its tag is read as, at any depth, and of the properties none is left out. -/
structure Resolves (declaration : Element) (token : Token) : Prop where
  id : (declaration.childrenNamed Tag.id).head?.map Element.text = some token.id
  name : token.name =
    ((declaration.childrenNamed Tag.name).head?.map fun child => Text.strip child.text).getD ""
  symbol : token.symbol = (declaration.descendantsNamed Tag.symbol).getLast?.map Element.text
  address : token.address = (declaration.descendantsNamed Tag.address).getLast?.map Element.text
  mintScript : token.mintScript =
    (declaration.descendantsNamed Tag.mintScript).getLast?.map Element.text
  transferScript : token.transferScript =
    (declaration.descendantsNamed Tag.transferScript).getLast?.map Element.text
  isFungible : LastReadAs Element.boolValue false (declaration.descendantsNamed Tag.isFungible)
    token.isFungible
  isIssued : LastReadAs Element.boolValue false (declaration.descendantsNamed Tag.isIssued)
    token.isIssued
  properties : (declaration.descendants.filter isProperty).mapM Property.ofXml =
    .ok token.properties

theorem Resolves.unique {declaration : Element} {token other : Token}
    (h : Resolves declaration token) (hOther : Resolves declaration other) : token = other := by
  obtain ⟨id, name, symbol, isFungible, isIssued, address, mintScript, transferScript, properties⟩ :=
    token
  obtain rfl : id = other.id := Option.some.inj (h.id.symm.trans hOther.id)
  obtain rfl : name = other.name := h.name.trans hOther.name.symm
  obtain rfl : symbol = other.symbol := h.symbol.trans hOther.symbol.symm
  obtain rfl : isFungible = other.isFungible := h.isFungible.unique hOther.isFungible
  obtain rfl : isIssued = other.isIssued := h.isIssued.unique hOther.isIssued
  obtain rfl : address = other.address := h.address.trans hOther.address.symm
  obtain rfl : mintScript = other.mintScript := h.mintScript.trans hOther.mintScript.symm
  obtain rfl : transferScript = other.transferScript :=
    h.transferScript.trans hOther.transferScript.symm
  obtain rfl : properties = other.properties :=
    Except.ok.inj (h.properties.symm.trans hOther.properties)
  rfl

theorem resolves_of_ofXml {declaration : Element} {token : Token}
    (h : ofXml declaration = .ok token) : Resolves declaration token := by
  have hId := childText?_of_ofXml h
  rw [childText?_eq_head?] at hId
  obtain ⟨id, -, hFold⟩ := Outcome.bind_eq_ok_iff.1 h
  have hName : token.name = declaredName declaration :=
    Outcome.foldlM_keeps (fun _ _ _ hNext => (adds_of_add hNext).name) hFold
  obtain ⟨properties, hRead, hProperties⟩ := Outcome.gathers_of_foldlM hFold List.append_nil
    (fun _ _ _ => (List.append_assoc ..).symm) (fun _ _ _ hNext => (adds_of_add hNext).property)
    (fun _ _ _ hNext => (adds_of_add hNext).other)
  refine ⟨hId, ?_, ?_, ?_, ?_, ?_, ?_, ?_, ?_⟩
  · rw [hName, declaredName, childText?_eq_head?, Option.map_map]
    rfl
  · apply lastReadAs_textValue_iff.1
    exact lastReadAs_of_named hFold Tag.symbol textValue Token.symbol
      fun _ _ _ hNext => (adds_of_add hNext).symbol
  · apply lastReadAs_textValue_iff.1
    exact lastReadAs_of_named hFold Tag.address textValue Token.address
      fun _ _ _ hNext => (adds_of_add hNext).address
  · apply lastReadAs_textValue_iff.1
    exact lastReadAs_of_named hFold Tag.mintScript textValue Token.mintScript
      fun _ _ _ hNext => (adds_of_add hNext).mintScript
  · apply lastReadAs_textValue_iff.1
    exact lastReadAs_of_named hFold Tag.transferScript textValue Token.transferScript
      fun _ _ _ hNext => (adds_of_add hNext).transferScript
  · exact lastReadAs_of_named hFold Tag.isFungible Element.boolValue Token.isFungible
      fun _ _ _ hNext => (adds_of_add hNext).isFungible
  · exact lastReadAs_of_named hFold Tag.isIssued Element.boolValue Token.isIssued
      fun _ _ _ hNext => (adds_of_add hNext).isIssued
  · rw [List.flatMap_singleton'] at hRead
    rw [hProperties]
    exact hRead

theorem ofXml_eq_ok_iff {declaration : Element} {token : Token} :
    ofXml declaration = .ok token ↔ Grammar.IsToken declaration ∧ Resolves declaration token := by
  constructor
  · intro h
    exact ⟨succeeds_ofXml_iff.1 ⟨token, h⟩, resolves_of_ofXml h⟩
  · rintro ⟨hGrammar, hResolves⟩
    obtain ⟨other, hOther⟩ := succeeds_ofXml_iff.2 hGrammar
    rw [hResolves.unique (resolves_of_ofXml hOther), hOther]

end Token

/-- A declaration is read exactly if it follows the grammar, and then its repeated parts are
resolved field by field, independently of how the parts of different fields are mixed. -/
theorem ofXml_resolves :
    (∀ declaration token, Token.ofXml declaration = .ok token ↔
      Grammar.IsToken declaration ∧ Token.Resolves declaration token) ∧
    (∀ declaration property, Property.ofXml declaration = .ok property ↔
      Grammar.IsProperty declaration ∧ Property.Resolves declaration property) ∧
    (∀ declaration other property,
      (∀ tag ∈ Property.tags, declaration.childrenNamed tag = other.childrenNamed tag) →
      Property.ofXml declaration = .ok property → Property.ofXml other = .ok property) ∧
    ∀ element : Element,
      element.descendants = element.children.flatMap fun child => child :: child.descendants := by
  refine ⟨?_, ?_, ?_, Element.descendants_eq_flatMap⟩
  · intro declaration token
    exact Token.ofXml_eq_ok_iff
  · intro declaration property
    exact Property.ofXml_eq_ok_iff
  · intro declaration other property hSame h
    exact Property.ofXml_of_childrenNamed_eq hSame h

def leaf (tag text : String) : Element := ⟨tag, [], [], text, 1⟩

/-- A property with two ids and two references, each with another part between. -/
def scattered : Element where
  name := Tag.primitiveProperty
  attributes := []
  children := [leaf Tag.entityId "old", leaf Tag.id "first", leaf Tag.isMandatory "true",
    leaf Tag.entityId "new", leaf Tag.id "second"]
  text := ""
  line := 1

/-- The same property with the parts of each tag side by side. -/
def gathered : Element where
  name := Tag.primitiveProperty
  attributes := []
  children := [leaf Tag.id "first", leaf Tag.id "second", leaf Tag.entityId "old",
    leaf Tag.entityId "new", leaf Tag.isMandatory "true"]
  text := ""
  line := 1

theorem ofXml_gathered_of_scattered :
    Property.ofXml gathered =
      .ok { Property.ofId "first" with isMandatory := true, referencedDataType := some "new" } := by
  apply ofXml_resolves.2.2.1 scattered gathered
  · intro tag hTag
    simp only [Property.tags, List.mem_cons, List.not_mem_nil, or_false] at hTag
    rcases hTag with rfl | rfl | rfl | rfl | rfl | rfl | rfl <;> rfl
  · rfl

end ContractDoc.DataModel

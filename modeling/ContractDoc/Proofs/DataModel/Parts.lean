import ContractDoc.DataModel.OfXml
import ContractDoc.Proofs.Outcome

/-! # Parts of declarations

What one part of a declaration changes in the property, the entity or the token that is read from
it. Every part is read into one field, according to its tag, and all other fields are kept.
-/

namespace ContractDoc.DataModel

open Outcome (LastReadAs ReadInto)
open Xml (Element)

/-- Character data as the value of a field that may be missing. -/
def textValue (element : Element) : Except DocumentError (Option String) :=
  .ok (some element.text)

def strippedText (element : Element) : Except DocumentError String := .ok (Text.strip element.text)

/-- A field that is read from the elements with one name is decided by the last one of them. -/
theorem lastReadAs_of_named {σ β : Type} {add : σ → Element → Except DocumentError σ}
    {elements : List Element} {first last : σ} (h : elements.foldlM add first = .ok last)
    (name : String) (read : Element → Except DocumentError β) (field : σ → β)
    (hStep : ∀ before element after, add before element = .ok after →
      ReadInto read (element.name == name) element (field before) (field after)) :
    LastReadAs read (field first) (elements.filter fun element => element.name == name)
      (field last) :=
  Outcome.lastReadAs_of_foldlM hStep h

namespace Property

def scalarValue (child : Element) : Except DocumentError (Option ScalarType) :=
  some <$> ScalarType.ofXml child

def kindValue (child : Element) : Except DocumentError PropertyKind :=
  child.parseText Keyword.ofText? "property type"

structure Adds (property : Property) (child : Element) (next : Property) : Prop where
  id : next.id = property.id
  name : ReadInto strippedText (child.name == Tag.name) child property.name next.name
  isMandatory : ReadInto Element.boolValue (child.name == Tag.isMandatory) child
    property.isMandatory next.isMandatory
  kind : ReadInto kindValue (child.name == Tag.propertyType) child property.kind next.kind
  dataType : ReadInto scalarValue (child.name == Tag.dataType) child
    property.dataType next.dataType
  keyDataType : ReadInto scalarValue (child.name == Tag.keyDataType) child
    property.keyDataType next.keyDataType
  referencedDataType : ReadInto textValue (child.name == Tag.entityId) child
    property.referencedDataType next.referencedDataType

theorem adds_of_add {property next : Property} {child : Element}
    (h : property.add child = .ok next) : property.Adds child next := by
  unfold add at h
  repeat' split at h
  all_goals
    first
    | obtain ⟨value, hValue, h⟩ := Outcome.bind_eq_ok_iff.1 h
      obtain rfl := Except.ok.inj h
      constructor <;>
        simp_all [ReadInto, scalarValue, kindValue, Tag.name, Tag.isMandatory, Tag.propertyType,
          Tag.dataType, Tag.keyDataType, Tag.entityId]
    | obtain rfl := Except.ok.inj h
      constructor <;>
        simp_all [ReadInto, strippedText, textValue, Tag.name, Tag.isMandatory, Tag.propertyType,
          Tag.dataType, Tag.keyDataType, Tag.entityId]

end Property

namespace Entity

variable {child : Element}

def isPropertyList (child : Element) : Bool :=
  child.name ∈ [Tag.primitiveProperties, Tag.referenceProperties]

structure Adds (entity : Entity) (child : Element) (next : Entity) : Prop where
  id : next.id = entity.id
  name : next.name = entity.name
  isRoot : ReadInto Element.boolValue (child.name == Tag.isRootEntity) child
    entity.isRoot next.isRoot
  list : isPropertyList child = true → ∃ more, child.children.mapM Property.ofXml = .ok more ∧
    next.properties = Property.union entity.properties more
  other : isPropertyList child = false → next.properties = entity.properties

theorem adds_of_add {entity next : Entity} (h : entity.add child = .ok next) :
    entity.Adds child next := by
  unfold add at h
  split at h
  · next hRoot =>
      obtain ⟨isRoot, hRead, h⟩ := Outcome.bind_eq_ok_iff.1 h
      obtain rfl := Except.ok.inj h
      have hOther : isPropertyList child = false := by
        rw [isPropertyList, hRoot]
        decide
      constructor <;> simp [ReadInto, hRoot, hRead, hOther]
  · next hRoot =>
      split at h
      · next hName =>
          obtain ⟨more, hMore, h⟩ := Outcome.bind_eq_ok_iff.1 h
          obtain rfl := Except.ok.inj h
          have hList : isPropertyList child = true := by simpa [isPropertyList] using hName
          constructor <;> simp [ReadInto, hRoot, hList, hMore]
      · next hName =>
          obtain rfl := Except.ok.inj h
          have hOther : isPropertyList child = false := by simpa [isPropertyList] using hName
          constructor <;> simp [ReadInto, hRoot, hOther]

end Entity

namespace Token

def isProperty (element : Element) : Bool :=
  element.name ∈ [Tag.primitiveProperty, Tag.referenceProperty]

structure Adds (token : Token) (element : Element) (next : Token) : Prop where
  id : next.id = token.id
  name : next.name = token.name
  symbol : ReadInto textValue (element.name == Tag.symbol) element token.symbol next.symbol
  address : ReadInto textValue (element.name == Tag.address) element token.address next.address
  mintScript : ReadInto textValue (element.name == Tag.mintScript) element
    token.mintScript next.mintScript
  transferScript : ReadInto textValue (element.name == Tag.transferScript) element
    token.transferScript next.transferScript
  isFungible : ReadInto Element.boolValue (element.name == Tag.isFungible) element
    token.isFungible next.isFungible
  isIssued : ReadInto Element.boolValue (element.name == Tag.isIssued) element
    token.isIssued next.isIssued
  property : isProperty element = true →
    ∃ properties, [element].mapM Property.ofXml = .ok properties ∧
      next.properties = token.properties ++ properties
  other : isProperty element = false → next.properties = token.properties

theorem adds_of_add {token next : Token} {element : Element}
    (h : token.add element = .ok next) : token.Adds element next := by
  unfold add at h
  split at h
  · next hName =>
      obtain ⟨property, hProperty, h⟩ := Outcome.bind_eq_ok_iff.1 h
      obtain rfl := Except.ok.inj h
      have hRead : [element].mapM Property.ofXml = .ok [property] :=
        Outcome.mapM_eq_ok_iff.2 (.cons hProperty .nil)
      constructor <;> rcases hName with hName | hName <;>
        simp [ReadInto, isProperty, hName, hRead, Tag.symbol, Tag.address, Tag.isFungible,
          Tag.isIssued, Tag.mintScript, Tag.transferScript, Tag.primitiveProperty,
          Tag.referenceProperty]
  · next hName =>
      obtain ⟨hPrimitive, hReference⟩ := not_or.1 hName
      have hOther : isProperty element = false := by simp [isProperty, hPrimitive, hReference]
      repeat' split at h
      all_goals
        first
        | obtain ⟨value, hValue, h⟩ := Outcome.bind_eq_ok_iff.1 h
          obtain rfl := Except.ok.inj h
          constructor <;>
            simp_all [ReadInto, Tag.symbol, Tag.address, Tag.isFungible, Tag.isIssued,
              Tag.mintScript, Tag.transferScript]
        | obtain rfl := Except.ok.inj h
          constructor <;>
            simp_all [ReadInto, textValue, Tag.symbol, Tag.address, Tag.isFungible, Tag.isIssued,
              Tag.mintScript, Tag.transferScript]

end Token
end ContractDoc.DataModel

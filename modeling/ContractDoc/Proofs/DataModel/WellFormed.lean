import ContractDoc.Proofs.DataModel.PropertyUnion
import ContractDoc.Proofs.DataModel.RepeatedFields
import ContractDoc.Proofs.Text.Blank

/-! # Well-formed data models

What holds of every data type that is read from a document: its name and the names of its
properties are stripped, an entity lists no property twice, and the type is filed under its own id.
-/

namespace ContractDoc.DataModel

open Text (HasNoBlank)
open Xml (Element)

namespace DataType

structure WellFormed (type : DataType) : Prop where
  name : HasNoBlank type.name
  properties : ∀ property ∈ type.properties, HasNoBlank property.name
  distinct : ∀ entity, type = .entity entity → entity.properties.Nodup

end DataType

theorem hasNoBlank_declaredName (declaration : Element) : HasNoBlank (declaredName declaration) := by
  unfold declaredName
  cases declaration.childText? Tag.name with
  | none => exact Text.hasNoBlank_empty
  | some text => exact Text.hasNoBlank_strip text

theorem hasNoBlank_stripped (child? : Option Element) :
    HasNoBlank ((child?.map fun child => Text.strip child.text).getD "") := by
  cases child? with
  | none => exact Text.hasNoBlank_empty
  | some child => exact Text.hasNoBlank_strip child.text

theorem Property.hasNoBlank_of_ofXml {declaration : Element} {property : Property}
    (h : Property.ofXml declaration = .ok property) : HasNoBlank property.name := by
  rw [(Property.resolves_of_ofXml h).name]
  exact hasNoBlank_stripped _

theorem hasNoBlank_of_mem_mapM {declarations : List Element} {properties : List Property}
    (h : declarations.mapM Property.ofXml = .ok properties) :
    ∀ property ∈ properties, HasNoBlank property.name := by
  intro property hProperty
  obtain ⟨declaration, -, hRead⟩ := Outcome.exists_of_mem_mapM h hProperty
  exact Property.hasNoBlank_of_ofXml hRead

theorem Entity.wellFormed_of_ofXml {declaration : Element} {entity : Entity}
    (h : Entity.ofXml declaration = .ok entity) : (DataType.entity entity).WellFormed := by
  obtain ⟨all, hAll, hFirst⟩ := Entity.firstOccurrences_of_ofXml h
  refine ⟨?_, ?_, ?_⟩
  · show HasNoBlank entity.name
    rw [Entity.name_of_ofXml h]
    exact hasNoBlank_declaredName declaration
  · intro property hProperty
    exact hasNoBlank_of_mem_mapM hAll property ((hFirst.mem_iff property).1 hProperty)
  · rintro _ ⟨⟩
    exact hFirst.nodup

theorem Token.wellFormed_of_ofXml {declaration : Element} {token : Token}
    (h : Token.ofXml declaration = .ok token) : (DataType.token token).WellFormed := by
  have hResolves := Token.resolves_of_ofXml h
  refine ⟨?_, hasNoBlank_of_mem_mapM hResolves.properties, ?_⟩
  · show HasNoBlank token.name
    rw [hResolves.name]
    exact hasNoBlank_stripped _
  · rintro _ ⟨⟩

theorem Enumeration.wellFormed_of_ofXml {declaration : Element} {enumeration : Enumeration}
    (h : Enumeration.ofXml declaration = .ok enumeration) :
    (DataType.enumeration enumeration).WellFormed := by
  obtain ⟨id, -, h⟩ := Outcome.bind_eq_ok_iff.1 h
  obtain rfl := Except.ok.inj h
  refine ⟨hasNoBlank_declaredName declaration, ?_, ?_⟩
  · intro property hProperty
    exact absurd hProperty List.not_mem_nil
  · rintro _ ⟨⟩

theorem DataType.wellFormed_of_ofXml? {element : Element} {type : DataType}
    (h : DataType.ofXml? element = .ok (some type)) : type.WellFormed := by
  cases DataType.reads_of_ofXml? h with
  | entity hRead => exact Entity.wellFormed_of_ofXml hRead
  | token hRead => exact Token.wellFormed_of_ofXml hRead
  | enumeration hRead => exact Enumeration.wellFormed_of_ofXml hRead

theorem holds_addDeclaration {types next : Registry DataType} {element : Element}
    (h : types.Holds fun id type => id = type.id ∧ type.WellFormed)
    (hNext : addDeclaration types element = .ok next) :
    next.Holds fun id type => id = type.id ∧ type.WellFormed := by
  obtain ⟨type?, hRead, hNext⟩ := Outcome.bind_eq_ok_iff.1 hNext
  cases type? with
  | none =>
      obtain rfl := Except.ok.inj hNext
      exact h
  | some type =>
      obtain rfl := Except.ok.inj hNext
      exact h.insert ⟨rfl, DataType.wellFormed_of_ofXml? hRead⟩

/-- A later declaration of an id replaces the earlier type under the same key. -/
theorem holds_of_ofXml {declaration : Element} {types : Registry DataType}
    (h : ofXml declaration = .ok types) :
    types.Holds fun id type => id = type.id ∧ type.WellFormed :=
  Outcome.foldlM_invariant (fun _ _ _ _ hBefore hNext => holds_addDeclaration hBefore hNext)
    Registry.holds_empty h

end ContractDoc.DataModel

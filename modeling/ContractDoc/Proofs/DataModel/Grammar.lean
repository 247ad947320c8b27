import ContractDoc.Proofs.DataModel.ScalarType
import ContractDoc.Proofs.Registry
import Mathlib.Tactic.MkIffOfInductiveProp

/-! # The grammar of data model sections

What a data model section has to contain: every declaration in it is complete, and every part that a
declaration repeats is valid each time. Exactly the sections that follow this grammar are read, and
under each id stands what the last declaration with it is read as.
-/

namespace ContractDoc.DataModel

open Outcome (Succeeds)
open Xml (Element)

namespace Grammar

def scalarWords : List String :=
  ["number", "positivenumber", "bool", "text", "reference", "address", "addresspayable", "datetime"]

@[mk_iff]
structure IsProperty (declaration : Element) : Prop where
  id : declaration.HasChild Tag.id
  isMandatory : ∀ mark ∈ declaration.childrenNamed Tag.isMandatory, mark.IsBoolean
  kind : ∀ kind ∈ declaration.childrenNamed Tag.propertyType,
    kind.Spells ["Primitive", "Reference"]
  dataType : ∀ type ∈ declaration.childrenNamed Tag.dataType, type.SpellsInAnyCase scalarWords
  keyDataType : ∀ type ∈ declaration.childrenNamed Tag.keyDataType,
    type.SpellsInAnyCase scalarWords

/-- Whatever stands in a list of properties is one. -/
@[mk_iff]
structure IsEntity (declaration : Element) : Prop where
  id : declaration.HasChild Tag.id
  isRoot : ∀ mark ∈ declaration.childrenNamed Tag.isRootEntity, mark.IsBoolean
  primitive : ∀ list ∈ declaration.childrenNamed Tag.primitiveProperties,
    ∀ property ∈ list.children, IsProperty property
  reference : ∀ list ∈ declaration.childrenNamed Tag.referenceProperties,
    ∀ property ∈ list.children, IsProperty property

/-- The parts of a token may stand at any depth. -/
@[mk_iff]
structure IsToken (declaration : Element) : Prop where
  id : declaration.HasChild Tag.id
  isFungible : ∀ mark ∈ declaration.descendantsNamed Tag.isFungible, mark.IsBoolean
  isIssued : ∀ mark ∈ declaration.descendantsNamed Tag.isIssued, mark.IsBoolean
  primitive : ∀ property ∈ declaration.descendantsNamed Tag.primitiveProperty, IsProperty property
  reference : ∀ property ∈ declaration.descendantsNamed Tag.referenceProperty, IsProperty property

@[mk_iff]
structure IsDataModel (declaration : Element) : Prop where
  entities : ∀ entity ∈ declaration.descendantsNamed Tag.entity, IsEntity entity
  tokens : ∀ token ∈ declaration.descendantsNamed Tag.token, IsToken token
  enumerations : ∀ enumeration ∈ declaration.descendantsNamed Tag.enumeration,
    enumeration.HasChild Tag.id

end Grammar

open Grammar

variable {declaration child element : Element}

theorem ScalarType.succeeds_ofXml_iff :
    Succeeds (ScalarType.ofXml element) ↔ element.SpellsInAnyCase scalarWords := by
  have hWord : (ScalarType.ofLiteral? (Text.trim element.text)).isSome ↔
      element.SpellsInAnyCase scalarWords := by
    rw [ScalarType.ofLiteral?_eq]
    exact Keyword.isSome_ofWord?_iff
  rw [← hWord, ScalarType.ofXml, ScalarType.ofLiteral]
  split <;> simp_all

namespace Property

theorem succeeds_add_iff (property : Property) (child : Element) :
    Succeeds (property.add child) ↔
      (child.name = Tag.isMandatory → child.IsBoolean) ∧
      (child.name = Tag.propertyType → child.Spells ["Primitive", "Reference"]) ∧
      (child.name = Tag.dataType → child.SpellsInAnyCase scalarWords) ∧
      (child.name = Tag.keyDataType → child.SpellsInAnyCase scalarWords) := by
  have hKind : Succeeds (child.parseText (Keyword.ofText? : String → Option PropertyKind)
      "property type") ↔ child.Spells ["Primitive", "Reference"] :=
    Element.succeeds_parseText_ofText?_iff
  unfold add
  repeat' split
  all_goals
    simp_all [Tag.name, Tag.isMandatory, Tag.propertyType, Tag.dataType, Tag.keyDataType,
      Tag.entityId, Outcome.succeeds_bind_iff, Element.succeeds_boolValue_iff,
      ScalarType.succeeds_ofXml_iff]

theorem succeeds_ofXml_iff : Succeeds (ofXml declaration) ↔ IsProperty declaration := by
  rw [ofXml, Outcome.succeeds_bind_iff_and fun _ => Outcome.succeeds_foldlM_iff succeeds_add_iff]
  simp only [Element.succeeds_requireText_iff, imp_and, forall_and,
    ← Element.forall_mem_childrenNamed, isProperty_iff]

end Property

theorem succeeds_declaredId_iff :
    Succeeds (declaredId declaration) ↔ declaration.HasChild Tag.id :=
  Element.succeeds_requireText_iff

namespace Entity

theorem succeeds_add_iff (entity : Entity) (child : Element) :
    Succeeds (entity.add child) ↔
      (child.name = Tag.isRootEntity → child.IsBoolean) ∧
      (child.name = Tag.primitiveProperties → ∀ property ∈ child.children, IsProperty property) ∧
      (child.name = Tag.referenceProperties →
        ∀ property ∈ child.children, IsProperty property) := by
  have hList : Succeeds (child.children.mapM Property.ofXml) ↔
      ∀ property ∈ child.children, IsProperty property := by
    simp only [Outcome.succeeds_mapM_iff, Property.succeeds_ofXml_iff]
  unfold add
  split
  · next hRoot =>
      simp [hRoot, Tag.isRootEntity, Tag.primitiveProperties, Tag.referenceProperties,
        Outcome.succeeds_bind_iff, Element.succeeds_boolValue_iff]
  · next hRoot =>
      split
      · next hName =>
          rcases hName with hName | hName <;>
            simp [hName, Tag.isRootEntity, Tag.primitiveProperties, Tag.referenceProperties,
              Outcome.succeeds_bind_iff, hList]
      · next hName =>
          obtain ⟨hPrimitive, hReference⟩ := not_or.1 hName
          simp [hRoot, hPrimitive, hReference]

theorem succeeds_ofXml_iff : Succeeds (ofXml declaration) ↔ IsEntity declaration := by
  rw [ofXml, Outcome.succeeds_bind_iff_and fun _ => Outcome.succeeds_foldlM_iff succeeds_add_iff]
  simp only [succeeds_declaredId_iff, imp_and, forall_and, ← Element.forall_mem_childrenNamed,
    isEntity_iff]

theorem childText?_of_ofXml {entity : Entity} (h : ofXml declaration = .ok entity) :
    declaration.childText? Tag.id = some entity.id := by
  obtain ⟨id, hId, hFold⟩ := Outcome.bind_eq_ok_iff.1 h
  have hSame : entity.id = id :=
    Outcome.foldlM_keeps (fun _ _ _ hNext => (adds_of_add hNext).id) hFold
  rw [hSame]
  exact Element.requireText_eq_ok_iff.1 hId

end Entity

namespace Token

theorem succeeds_add_iff (token : Token) (element : Element) :
    Succeeds (token.add element) ↔
      (element.name = Tag.isFungible → element.IsBoolean) ∧
      (element.name = Tag.isIssued → element.IsBoolean) ∧
      (element.name = Tag.primitiveProperty → IsProperty element) ∧
      (element.name = Tag.referenceProperty → IsProperty element) := by
  unfold add
  split
  · next hName =>
      rcases hName with hName | hName <;>
        simp [hName, Tag.isFungible, Tag.isIssued, Tag.primitiveProperty, Tag.referenceProperty,
          Outcome.succeeds_bind_iff, Property.succeeds_ofXml_iff]
  · next hName =>
      obtain ⟨hPrimitive, hReference⟩ := not_or.1 hName
      repeat' split
      all_goals
        simp_all [Tag.symbol, Tag.address, Tag.isFungible, Tag.isIssued, Tag.mintScript,
          Tag.transferScript, Tag.primitiveProperty, Tag.referenceProperty,
          Outcome.succeeds_bind_iff, Element.succeeds_boolValue_iff]

theorem succeeds_ofXml_iff : Succeeds (ofXml declaration) ↔ IsToken declaration := by
  rw [ofXml, Outcome.succeeds_bind_iff_and fun _ => Outcome.succeeds_foldlM_iff succeeds_add_iff]
  simp only [succeeds_declaredId_iff, imp_and, forall_and, ← Element.forall_mem_descendantsNamed,
    isToken_iff]

theorem childText?_of_ofXml {token : Token} (h : ofXml declaration = .ok token) :
    declaration.childText? Tag.id = some token.id := by
  obtain ⟨id, hId, hFold⟩ := Outcome.bind_eq_ok_iff.1 h
  have hSame : token.id = id :=
    Outcome.foldlM_keeps (fun _ _ _ hNext => (adds_of_add hNext).id) hFold
  rw [hSame]
  exact Element.requireText_eq_ok_iff.1 hId

end Token

namespace Enumeration

theorem succeeds_ofXml_iff : Succeeds (ofXml declaration) ↔ declaration.HasChild Tag.id := by
  simp only [ofXml, Outcome.succeeds_bind_iff, Outcome.succeeds_pure, and_true,
    Outcome.exists_eq_ok_iff, succeeds_declaredId_iff]

theorem childText?_of_ofXml {enumeration : Enumeration}
    (h : ofXml declaration = .ok enumeration) :
    declaration.childText? Tag.id = some enumeration.id := by
  obtain ⟨id, hId, h⟩ := Outcome.bind_eq_ok_iff.1 h
  obtain rfl := Except.ok.inj h
  exact Element.requireText_eq_ok_iff.1 hId

end Enumeration

namespace DataType

theorem succeeds_ofXml?_iff :
    Succeeds (ofXml? element) ↔
      (element.name = Tag.entity → IsEntity element) ∧
      (element.name = Tag.token → IsToken element) ∧
      (element.name = Tag.enumeration → element.HasChild Tag.id) := by
  unfold ofXml?
  repeat' split
  all_goals
    simp_all [Tag.entity, Tag.token, Tag.enumeration, Entity.succeeds_ofXml_iff,
      Token.succeeds_ofXml_iff, Enumeration.succeeds_ofXml_iff]

inductive Reads (element : Element) : DataType → Prop
  | entity {e : Entity} (hRead : Entity.ofXml element = .ok e) : Reads element (.entity e)
  | token {t : Token} (hRead : Token.ofXml element = .ok t) : Reads element (.token t)
  | enumeration {e : Enumeration} (hRead : Enumeration.ofXml element = .ok e) :
      Reads element (.enumeration e)

theorem reads_of_ofXml? {type : DataType} (h : ofXml? element = .ok (some type)) :
    Reads element type := by
  unfold ofXml? at h
  repeat' split at h
  · obtain ⟨entity, hRead, hType⟩ := Outcome.map_eq_ok_iff.1 h
    exact Option.some.inj hType ▸ .entity hRead
  · obtain ⟨token, hRead, hType⟩ := Outcome.map_eq_ok_iff.1 h
    exact Option.some.inj hType ▸ .token hRead
  · obtain ⟨enumeration, hRead, hType⟩ := Outcome.map_eq_ok_iff.1 h
    exact Option.some.inj hType ▸ .enumeration hRead
  · cases h

theorem childText?_of_ofXml? {type : DataType} (h : ofXml? element = .ok (some type)) :
    element.childText? Tag.id = some type.id := by
  cases reads_of_ofXml? h with
  | entity hRead => exact Entity.childText?_of_ofXml hRead
  | token hRead => exact Token.childText?_of_ofXml hRead
  | enumeration hRead => exact Enumeration.childText?_of_ofXml hRead

end DataType

/-- Whether an element has the name of one of the three kinds of declarations. -/
def isDeclaration (element : Element) : Bool :=
  element.name ∈ [Tag.entity, Tag.token, Tag.enumeration]

def declarations (declaration : Element) : List Element :=
  declaration.descendants.filter isDeclaration

/-- The last declaration in a section with the given id. -/
def lastDeclaration? (declaration : Element) (id : String) : Option Element :=
  (declarations declaration).reverse.find? fun type => type.childText? Tag.id == some id

/-- A section is read into a registry with the ids of its declarations, and under each id stands
what the last declaration with it is read as. -/
structure KeepsLast (declaration : Element) (types : Registry DataType) : Prop where
  ids : ∀ id, id ∈ types.ids ↔
    ∃ type ∈ declarations declaration, type.childText? Tag.id = some id
  last : ∀ id last, lastDeclaration? declaration id = some last →
    ∃ type, DataType.ofXml? last = .ok (some type) ∧ types.get? id = some type

def ReadAs : List Element → List DataType → Prop :=
  List.Forall₂ fun declaration type => DataType.ofXml? declaration = .ok (some type)

theorem DataType.isSome_eq_isDeclaration {type? : Option DataType}
    (h : DataType.ofXml? element = .ok type?) : type?.isSome = isDeclaration element := by
  unfold DataType.ofXml? at h
  repeat' split at h
  all_goals
    first
    | obtain ⟨value, -, rfl⟩ := Outcome.map_eq_ok_iff.1 h
      simp_all [isDeclaration]
    | obtain rfl := Except.ok.inj h
      simp_all [isDeclaration]

theorem succeeds_addDeclaration_iff (types : Registry DataType) (element : Element) :
    Succeeds (addDeclaration types element) ↔
      (element.name = Tag.entity → IsEntity element) ∧
      (element.name = Tag.token → IsToken element) ∧
      (element.name = Tag.enumeration → element.HasChild Tag.id) := by
  rw [← DataType.succeeds_ofXml?_iff, addDeclaration]
  cases DataType.ofXml? element with
  | error e => simp
  | ok type? => cases type? <;> simp

theorem addDeclaration_of_other (types : Registry DataType) (h : isDeclaration element = false) :
    addDeclaration types element = .ok types := by
  simp only [isDeclaration, List.mem_cons, List.not_mem_nil, or_false, decide_eq_false_iff_not,
    not_or] at h
  rw [addDeclaration, DataType.ofXml?, if_neg h.1, if_neg h.2.1, if_neg h.2.2]
  rfl

/-- Only declarations count. -/
theorem foldlM_declarations (declaration : Element) :
    (declarations declaration).foldlM addDeclaration .empty = ofXml declaration :=
  Outcome.foldlM_filter_eq (fun types _ => addDeclaration_of_other types) _ _

theorem succeeds_ofXml_iff : Succeeds (ofXml declaration) ↔ IsDataModel declaration := by
  rw [ofXml, Outcome.succeeds_foldlM_iff succeeds_addDeclaration_iff]
  simp only [forall_and, ← Element.forall_mem_descendantsNamed, isDataModel_iff]

/-- The declarations are put in one after the other, whatever stands between them. -/
theorem exists_insertAll_of_foldlM {elements : List Element} {types next : Registry DataType}
    (h : elements.foldlM addDeclaration types = .ok next) :
    ∃ declared, ReadAs (elements.filter isDeclaration) declared ∧
      next = types.insertAll DataType.id declared := by
  induction elements generalizing types with
  | nil => exact ⟨[], .nil, (Except.ok.inj h).symm⟩
  | cons element elements ih =>
      obtain ⟨middle, hFirst, hRest⟩ := Outcome.foldlM_cons_eq_ok_iff.1 h
      obtain ⟨declared, hRead, hNext⟩ := ih hRest
      obtain ⟨type?, hType, hMiddle⟩ := Outcome.bind_eq_ok_iff.1 hFirst
      have hKind := DataType.isSome_eq_isDeclaration hType
      cases type? with
      | none =>
          obtain rfl := Except.ok.inj hMiddle
          rw [List.filter_cons_of_neg (by simp [← hKind])]
          exact ⟨declared, hRead, hNext⟩
      | some type =>
          obtain rfl := Except.ok.inj hMiddle
          rw [List.filter_cons_of_pos (by simp [← hKind])]
          exact ⟨type :: declared, .cons hType hRead, hNext⟩

theorem keepsLast_of_ofXml {types : Registry DataType} (h : ofXml declaration = .ok types) :
    KeepsLast declaration types := by
  obtain ⟨declared, hRead, rfl⟩ := exists_insertAll_of_foldlM h
  have hLast (id : String) :
      Option.Rel (fun declaration type => DataType.ofXml? declaration = .ok (some type))
        (lastDeclaration? declaration id)
        ((Registry.empty.insertAll DataType.id declared).get? id) := by
    rw [Registry.get?_insertAll, show Registry.empty.get? id = none from rfl, Option.or_none]
    refine Outcome.rel_find?_of_forall₂ (fun _ _ hType => ?_) (List.forall₂_reverse_iff.2 hRead)
    rw [DataType.childText?_of_ofXml? hType, Option.some_beq_some]
  constructor
  · intro id
    have hRel := hLast id
    have hSome : (lastDeclaration? declaration id).isSome ↔
        ∃ type ∈ declarations declaration, type.childText? Tag.id = some id := by
      simp [lastDeclaration?]
    rw [← Registry.isSome_get?_iff, ← hSome]
    generalize lastDeclaration? declaration id = last? at hRel ⊢
    generalize Registry.get? _ id = type? at hRel ⊢
    cases hRel <;> simp
  · intro id last hDeclared
    have hRel := hLast id
    rw [hDeclared] at hRel
    generalize Registry.get? _ id = type? at hRel ⊢
    cases hRel with
    | some hType => exact ⟨_, hType, rfl⟩

/-- Exactly the sections that follow the grammar are read, and the last declaration of an id wins. -/
theorem exists_ofXml_iff_and_keepsLast :
    ((∃ types, ofXml declaration = .ok types) ↔ IsDataModel declaration) ∧
      ∀ types, ofXml declaration = .ok types → KeepsLast declaration types :=
  ⟨succeeds_ofXml_iff, fun _ => keepsLast_of_ofXml⟩

/-- A section in which an entity has the id of an enumeration before it. -/
def redeclared : Element where
  name := Tag.dataModel
  attributes := []
  children := [
    ⟨Tag.enumeration, [], [⟨Tag.id, [], [], "T", 2⟩], "", 2⟩,
    ⟨Tag.entity, [], [⟨Tag.id, [], [], "T", 3⟩], "", 3⟩]
  text := ""
  line := 1

theorem keepsLast_redeclared :
    ofXml redeclared = .ok ⟨[("T", .entity ⟨"T", "", false, []⟩)], by decide⟩ ∧
      KeepsLast redeclared ⟨[("T", .entity ⟨"T", "", false, []⟩)], by decide⟩ := by
  have hRead : ofXml redeclared = .ok ⟨[("T", .entity ⟨"T", "", false, []⟩)], by decide⟩ := by
    cbv
  exact ⟨hRead, exists_ofXml_iff_and_keepsLast.2 _ hRead⟩

end ContractDoc.DataModel

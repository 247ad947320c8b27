import ContractDoc.Proofs.DataModel.Parts
import ContractDoc.Proofs.Text.Case
import ContractDoc.Proofs.Xml.Content

/-! # The names of types

A type is named by its word in any case of ASCII letters, and by nothing else. A property takes the
name between the white space at the two ends of a child's text.
-/

namespace ContractDoc.DataModel

open Outcome (LastReadAs)
open Text (SameUpToCase Trims)
open Xml (Element)

namespace ScalarType

/-- The words for types, in small letters. -/
def namedTypes : List (String × ScalarType) :=
  [("number", .int), ("bool", .bool), ("text", .string), ("reference", .reference),
    ("address", .address), ("addresspayable", .addressPayable), ("positivenumber", .uint),
    ("datetime", .dateTime)]

/-- A text names a type when it is the word for it, up to the case of ASCII letters. -/
def Names (literal : String) (type : ScalarType) : Prop :=
  ∃ word, (word, type) ∈ namedTypes ∧ SameUpToCase literal word

theorem mem_namedTypes_iff {word : String} {type : ScalarType} :
    (word, type) ∈ namedTypes ↔ Keyword.word type = word := by
  cases type <;> simp [namedTypes, Keyword.word, eq_comm]

theorem isPlain_word (type : ScalarType) : Text.IsPlain (Keyword.word type).toList := by
  cases type <;> decide

theorem map_toLower_word (type : ScalarType) :
    (Keyword.word type).toList.map Char.toLower = (Keyword.word type).toList := by
  cases type <;> decide

theorem ofWord?_word (type : ScalarType) : Keyword.ofWord? (Keyword.word type) = some type := by
  cases type <;> decide

theorem names_iff {literal : String} {type : ScalarType} :
    Names literal type ↔ literal.toLower = Keyword.word type := by
  rw [← String.toList_inj, Text.toList_toLower, ← map_toLower_word]
  simp only [Names, mem_namedTypes_iff, exists_eq_left', Text.sameUpToCase_iff]

/-- The words can be looked up as if only ASCII letters had a lower case. -/
theorem ofWord?_of_isLower {literal lowered : String}
    (h : Text.IsLower literal.toList lowered.toList) :
    (Keyword.ofWord? lowered : Option ScalarType) = Keyword.ofWord? literal.toLower := by
  have hWord (type : ScalarType) : (Keyword.word type == lowered) =
      (Keyword.word type == literal.toLower) := by
    have hIff := Text.eq_word_iff (isPlain_word type) h
    rw [← Text.toList_toLower, String.toList_inj, String.toList_inj] at hIff
    rw [Bool.eq_iff_iff, beq_iff_eq, beq_iff_eq, eq_comm, hIff, eq_comm]
  simp only [Keyword.ofWord?, hWord]

theorem ofLiteral?_eq (literal : String) :
    ofLiteral? literal = Keyword.ofWord? literal.toLower := by
  apply ofWord?_of_isLower
  rw [Text.lower, String.toList_ofList]
  exact Text.isLower_lower literal.toList

theorem ofLiteral?_eq_some_iff {literal : String} {type : ScalarType} :
    ofLiteral? literal = some type ↔ Names literal type := by
  rw [ofLiteral?_eq, names_iff]
  constructor
  · exact fun h => (Keyword.word_of_ofWord? h).symm
  · intro h
    rw [h, ofWord?_word]

theorem ofLiteral_eq_ok_iff {literal : String} {type : ScalarType} :
    ofLiteral literal = .ok type ↔ Names literal type := by
  rw [ofLiteral, ← ofLiteral?_eq_some_iff]
  split <;> simp_all

theorem ofLiteral_eq_error_iff {literal : String} {error : DocumentError} :
    ofLiteral literal = .error error ↔
      error = .unrecognizedDataType literal ∧ ∀ type, ¬ Names literal type := by
  simp only [ofLiteral, ← ofLiteral?_eq_some_iff]
  cases ofLiteral? literal with
  | some type => simp
  | none => simp [eq_comm]

end ScalarType

namespace Property

open ScalarType (Names)

def GivesType (child : Element) : Prop := child.name = Tag.dataType ∨ child.name = Tag.keyDataType

/-- The type is the one that the last of the elements names; there is none without an element. -/
def LastNames (elements : List Element) (type? : Option ScalarType) : Prop :=
  match elements.getLast? with
  | none => type? = none
  | some last => ∃ literal type, Trims last.text.toList literal.toList ∧ Names literal type ∧
      type? = some type

theorem lastNames_iff {elements : List Element} {type? : Option ScalarType} :
    LastNames elements type? ↔ LastReadAs scalarValue none elements type? := by
  unfold LastNames LastReadAs
  cases elements.getLast? with
  | none => rfl
  | some last =>
      simp only [← Text.trim_eq_iff, scalarValue, Outcome.map_eq_ok_iff, ScalarType.ofXml,
        ScalarType.ofLiteral_eq_ok_iff]
      constructor
      · rintro ⟨literal, type, rfl, hNames, rfl⟩
        exact ⟨type, hNames, rfl⟩
      · rintro ⟨type, hNames, rfl⟩
        exact ⟨_, type, rfl, hNames, rfl⟩

theorem ofXml_eq_unrecognized_iff {child : Element} {literal : String} :
    ScalarType.ofXml child = .error (.unrecognizedDataType literal) ↔
      Trims child.text.toList literal.toList ∧ ∀ type, ¬ Names literal type := by
  rw [ScalarType.ofXml, ScalarType.ofLiteral_eq_error_iff, ← Text.trim_eq_iff,
    DocumentError.unrecognizedDataType.injEq, eq_comm]
  exact and_congr_right fun h => by rw [h]

theorem boolValue_ne_unrecognized {child : Element} {literal : String} :
    child.boolValue ≠ .error (.unrecognizedDataType literal) := by
  unfold Element.boolValue
  dsimp only
  repeat' split
  all_goals simp [Element.defect]

theorem parseText_ne_unrecognized {α : Type} {read : String → Option α} {expected : String}
    {child : Element} {literal : String} :
    child.parseText read expected ≠ .error (.unrecognizedDataType literal) := by
  unfold Element.parseText
  dsimp only
  split <;> simp [Element.defect]

theorem add_eq_unrecognized_iff {property : Property} {child : Element} {literal : String} :
    property.add child = .error (.unrecognizedDataType literal) ↔
      GivesType child ∧ Trims child.text.toList literal.toList ∧ ∀ type, ¬ Names literal type := by
  unfold add GivesType
  repeat' split
  all_goals
    simp_all [Outcome.bind_ok_eq_error_iff, boolValue_ne_unrecognized, parseText_ne_unrecognized,
      ofXml_eq_unrecognized_iff, Tag.name, Tag.isMandatory, Tag.propertyType, Tag.dataType,
      Tag.keyDataType, Tag.entityId]

/-- How a property takes its types from its children. -/
structure ReadsTypes (declaration : Element) : Prop where
  /-- The first part that is wrong is a type, and the error holds what it names instead of one. -/
  refused (literal : String) : ofXml declaration = .error (.unrecognizedDataType literal) ↔
    ∃ id front child back property, declaration.childText? Tag.id = some id ∧
      declaration.children = front ++ child :: back ∧
      front.foldlM add (ofId id) = .ok property ∧ GivesType child ∧
      Trims child.text.toList literal.toList ∧ ∀ type, ¬ Names literal type
  accepted (property : Property) (h : ofXml declaration = .ok property) :
    LastNames (declaration.childrenNamed Tag.dataType) property.dataType ∧
      LastNames (declaration.childrenNamed Tag.keyDataType) property.keyDataType

theorem readsTypes (declaration : Element) : ReadsTypes declaration := by
  constructor
  · intro literal
    rw [ofXml, Element.requireText]
    split
    · next id hId =>
        simp only [Outcome.ok_bind, Outcome.foldlM_eq_error_iff, add_eq_unrecognized_iff]
        constructor
        · rintro ⟨front, child, back, property, hChildren, hFront, hChild⟩
          exact ⟨id, front, child, back, property, hId, hChildren, hFront, hChild⟩
        · rintro ⟨other, front, child, back, property, hOther, hChildren, hFront, hChild⟩
          obtain rfl : id = other := Option.some.inj (hId.symm.trans hOther)
          exact ⟨front, child, back, property, hChildren, hFront, hChild⟩
    · next hId => simp [hId, Element.defect]
  · intro property h
    obtain ⟨id, hId, hFold⟩ := Outcome.bind_eq_ok_iff.1 h
    simp only [lastNames_iff]
    constructor
    · exact lastReadAs_of_named hFold Tag.dataType scalarValue Property.dataType
        fun _ _ _ hNext => (adds_of_add hNext).dataType
    · exact lastReadAs_of_named hFold Tag.keyDataType scalarValue Property.keyDataType
        fun _ _ _ hNext => (adds_of_add hNext).keyDataType

end Property

/-- Names of types are read up to the case of ASCII letters and no further, for every text and
however its lower case is written. -/
structure FoldsAsciiOnly : Prop where
  accepted (literal : String) (type : ScalarType) :
    ScalarType.ofLiteral literal = .ok type ↔ ScalarType.Names literal type
  refused (literal : String) (error : DocumentError) :
    ScalarType.ofLiteral literal = .error error ↔
      error = .unrecognizedDataType literal ∧ ∀ type, ¬ ScalarType.Names literal type
  lowered (literal lowered : String) (h : Text.IsLower literal.toList lowered.toList) :
    Keyword.ofWord? lowered = ScalarType.ofLiteral? literal
  properties (declaration : Element) : Property.ReadsTypes declaration

theorem foldsAsciiOnly : FoldsAsciiOnly where
  accepted _ _ := ScalarType.ofLiteral_eq_ok_iff
  refused _ _ := ScalarType.ofLiteral_eq_error_iff
  lowered literal lowered h := by rw [ScalarType.ofWord?_of_isLower h, ScalarType.ofLiteral?_eq]
  properties := Property.readsTypes

end ContractDoc.DataModel

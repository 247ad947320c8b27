import ContractDoc.Proofs.Xml.Content
import ContractDoc.Workflow.OfXml

/-! # Loop cardinalities

An integer in an element stands between white space. It is read exactly if it fits in 32 bits, and
otherwise the error holds the text and the line. How often a task is repeated is read in this way.
-/

namespace ContractDoc

open Text (Trims)
open Xml (Element)

namespace Xml.Element

/-- Between the white space at its two ends the text writes an integer of 32 bits. -/
def WritesInt32 (element : Element) (n : Int32) : Prop :=
  ∃ text value, Trims element.text.toList text ∧ Text.WritesInteger text value ∧
    -2147483648 ≤ value ∧ value ≤ 2147483647 ∧ n.toInt = value

/-- The error for a text that writes no such integer, with the text between the white space. -/
def RefusesText (element : Element) (expected : String) (error : DocumentError) : Prop :=
  ∃ text, Trims element.text.toList text.toList ∧
    error = .invalid (.unreadable text expected) (some element.line) ∧
    error.message = text ++ " is not a valid " ++ expected ++ " (line " ++ Nat.repr element.line ++
      ")"

variable (element : Element) (expected : String)

theorem int32?_trim_eq_some_iff {n : Int32} :
    Text.int32? (Text.trim element.text) = some n ↔ element.WritesInt32 n := by
  simp only [Text.int32?_eq_some_iff, WritesInt32, ← Text.trimChars_eq_iff, Text.trim,
    String.toList_ofList]
  constructor
  · rintro ⟨value, h⟩
    exact ⟨_, value, rfl, h⟩
  · rintro ⟨_, value, rfl, h⟩
    exact ⟨value, h⟩

theorem refusesText_iff {error : DocumentError} : element.RefusesText expected error ↔
    error = element.defect (.unreadable (Text.trim element.text) expected) := by
  constructor
  · rintro ⟨text, hTrims, rfl, -⟩
    rw [defect, Text.trim_eq_iff.2 hTrims]
  · rintro rfl
    exact ⟨_, Text.trim_eq_iff.1 rfl, rfl, rfl⟩

/-- Integers in the text of an element are read exactly or not at all. -/
structure ReadsInt32 : Prop where
  accepted (n : Int32) :
    element.parseText Text.int32? expected = .ok n ↔ element.WritesInt32 n
  refused (error : DocumentError) :
    element.parseText Text.int32? expected = .error error ↔
      (∀ n, ¬ element.WritesInt32 n) ∧ element.RefusesText expected error
  /-- The decimal text of every integer of 32 bits is one of its texts, with any white space. -/
  padded (n : Int32) (front back : List Char)
    (hSpace : ∀ c ∈ front ++ back, c.toNat ∈ Text.whiteSpace)
    (hText : element.text.toList = front ++ (toString n.toInt).toList ++ back) :
    element.parseText Text.int32? expected = .ok n

theorem parseText_int32?_eq_ok_iff {n : Int32} :
    element.parseText Text.int32? expected = .ok n ↔ element.WritesInt32 n := by
  rw [← int32?_trim_eq_some_iff, parseText]
  split <;> simp_all

theorem parseText_int32?_eq_error_iff {error : DocumentError} :
    element.parseText Text.int32? expected = .error error ↔
      (∀ n, ¬ element.WritesInt32 n) ∧ element.RefusesText expected error := by
  simp only [← int32?_trim_eq_some_iff, refusesText_iff, parseText]
  cases Text.int32? (Text.trim element.text) with
  | some n => simp
  | none => simp [eq_comm]

/-- A decimal text has no blank of its own, so trimming leaves it. -/
theorem trims_toString_int {n : Int} {front back : List Char}
    (hSpace : ∀ c ∈ front ++ back, c.toNat ∈ Text.whiteSpace) :
    Trims (front ++ (toString n).toList ++ back) (toString n).toList := by
  have hNone : ∀ c ∈ (toString n).toList, c.toNat ∉ Text.whiteSpace := by
    intro c hc
    rw [Text.toList_toString_int] at hc
    rw [← Text.isBlank_iff, Text.hasNoBlank_numberChars n c (by simpa using hc)]
    exact Bool.false_ne_true
  exact ⟨⟨front, back, rfl, hSpace⟩, fun c hc => hNone c (List.mem_of_mem_head? hc),
    fun c hc => hNone c (List.mem_of_mem_getLast? hc)⟩

theorem readsInt32 : element.ReadsInt32 expected where
  accepted _ := parseText_int32?_eq_ok_iff element expected
  refused _ := parseText_int32?_eq_error_iff element expected
  padded n front back hSpace hText := by
    have hTrim : Text.trim element.text = toString n.toInt :=
      Text.trim_eq_iff.2 (hText ▸ trims_toString_int hSpace)
    have hDecimal : toString n.toInt = String.ofList (Json.numberChars n.toInt) := by
      rw [← Text.toList_toString_int, String.ofList_toList]
    rw [parseText_int32?_eq_ok_iff, ← int32?_trim_eq_some_iff, hTrim, hDecimal,
      Text.int32?_numberChars]

end Xml.Element

namespace Workflow.TaskSettings

def typeValue (declaration : Element) : Except DocumentError (Option InstanceType) :=
  declaration.readChild? Tag.instanceType (·.parseText Keyword.ofText? "instance type")

/-- A task is repeated as often as its first child with that tag says. -/
structure ReadsCardinality (declaration : Element) : Prop where
  absent (hNone : declaration.child? Tag.loopCardinality = none) (settings : TaskSettings)
    (h : ofXml declaration = .ok settings) : settings.loopCardinality = none
  accepted (count : Element) (hCount : declaration.child? Tag.loopCardinality = some count)
    (settings : TaskSettings) (h : ofXml declaration = .ok settings) :
    ∃ n, settings.loopCardinality = some n ∧ count.WritesInt32 n
  /-- The instance type is read before. -/
  refused (count : Element) (hCount : declaration.child? Tag.loopCardinality = some count)
    (hWrites : ∀ n, ¬ count.WritesInt32 n) (type? : Option InstanceType)
    (hType : typeValue declaration = .ok type?) :
    ∃ error, ofXml declaration = .error error ∧
      count.RefusesText "loop cardinality, it must be an integer" error

theorem cardinality_of_ofXml {declaration : Element} {settings : TaskSettings}
    (h : ofXml declaration = .ok settings) :
    declaration.readChild? Tag.loopCardinality
      (·.parseText Text.int32? "loop cardinality, it must be an integer") =
        .ok settings.loopCardinality := by
  obtain ⟨type?, _, h⟩ := Outcome.bind_eq_ok_iff.1 h
  obtain ⟨cardinality, hCardinality, h⟩ := Outcome.bind_eq_ok_iff.1 h
  obtain rfl := Except.ok.inj h
  exact hCardinality

theorem readsCardinality (declaration : Element) : ReadsCardinality declaration := by
  constructor
  · intro hNone settings h
    have hRead := cardinality_of_ofXml h
    rw [Element.readChild?, hNone] at hRead
    exact (Except.ok.inj hRead).symm
  · intro count hCount settings h
    have hRead := cardinality_of_ofXml h
    simp only [Element.readChild?, hCount] at hRead
    obtain ⟨n, hText, hSome⟩ := Outcome.map_eq_ok_iff.1 hRead
    exact ⟨n, hSome.symm, (Element.parseText_int32?_eq_ok_iff count _).1 hText⟩
  · intro count hCount hWrites type? hType
    refine ⟨_, ?_, (Element.refusesText_iff count _).2 rfl⟩
    have hText := (Element.parseText_int32?_eq_error_iff count _).2
      ⟨hWrites, (Element.refusesText_iff count "loop cardinality, it must be an integer").2 rfl⟩
    rw [typeValue] at hType
    rw [ofXml, hType, Outcome.ok_bind, Element.readChild?, hCount]
    simp only [hText]
    rfl

end Workflow.TaskSettings

/-- Loop cardinalities are read exactly or refused: the integer of 32 bits that a text writes, and
otherwise an error with the text and its line, in every element and as a part of every task. -/
theorem readsInt32_and_cardinality :
    (∀ element expected, Element.ReadsInt32 element expected) ∧
      ∀ declaration, Workflow.TaskSettings.ReadsCardinality declaration :=
  ⟨Element.readsInt32, Workflow.TaskSettings.readsCardinality⟩

end ContractDoc

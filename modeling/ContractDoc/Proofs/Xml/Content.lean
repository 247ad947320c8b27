import ContractDoc.Keyword
import ContractDoc.Proofs.Outcome
import ContractDoc.Proofs.Text.Numeral
import ContractDoc.Xml.Value
import ContractDoc.Xml.Walk

/-! # What elements contain

Conditions on an element that can be stated without reading it: which children and descendants it
has, and which words or numerals its text spells. Each reader of an element succeeds exactly under
one of them.
-/

namespace ContractDoc

theorem Text.toList_toLower (text : String) :
    text.toLower.toList = text.toList.map Char.toLower := String.toList_map

namespace Keyword

variable {α : Type} [Keyword α]

def words (α : Type) [Keyword α] : List String := (values : List α).map word

theorem word_of_ofWord? {text : String} {value : α} (h : ofWord? text = some value) :
    word value = text := by
  unfold ofWord? at h
  simpa using List.find?_some h

theorem isSome_ofWord?_iff {text : String} :
    (ofWord? text : Option α).isSome ↔ text ∈ words α := by
  rw [ofWord?, List.find?_isSome, words, List.mem_map]
  simp only [beq_iff_eq]

theorem isSome_ofText?_trim_iff {text : String} :
    (ofText? (Text.trim text) : Option α).isSome ↔ Text.trim text ∈ words α := by
  rw [ofText?, Text.trim_trim, isSome_ofWord?_iff]

end Keyword

namespace Xml.Element

open Outcome (Succeeds)

def HasChild (element : Element) (name : String) : Prop :=
  ∃ child ∈ element.children, child.name = name

def HasDescendant (element : Element) (name : String) : Prop :=
  ∃ below ∈ element.descendants, below.name = name

/-- The text between the blanks at its ends is one of the words. -/
def Spells (words : List String) (element : Element) : Prop := Text.trim element.text ∈ words

/-- The text between the blanks at its ends is one of the words, which are given in small letters,
in any case. -/
def SpellsInAnyCase (words : List String) (element : Element) : Prop :=
  (Text.trim element.text).toLower ∈ words

def IsBoolean (element : Element) : Prop := element.SpellsInAnyCase ["true", "false"]

def IsInt32 (element : Element) : Prop := Text.IsInt32 (Text.trim element.text)

variable {element : Element} {name : String}

theorem isSome_child?_iff : (element.child? name).isSome ↔ element.HasChild name := by
  simp [child?, HasChild]

theorem isSome_firstDescendant?_iff :
    (element.firstDescendant? name).isSome ↔ element.HasDescendant name := by
  simp [firstDescendant?, HasDescendant]

theorem forall_mem_childrenNamed {P : Element → Prop} :
    (∀ child ∈ element.childrenNamed name, P child) ↔
      ∀ child ∈ element.children, child.name = name → P child := by
  simp only [childrenNamed, List.mem_filter, beq_iff_eq, and_imp]

theorem forall_mem_descendantsNamed {P : Element → Prop} :
    (∀ below ∈ element.descendantsNamed name, P below) ↔
      ∀ below ∈ element.descendants, below.name = name → P below := by
  simp only [descendantsNamed, List.mem_filter, beq_iff_eq, and_imp]

theorem requireText_eq_ok_iff {missing : Defect} {text : String} :
    element.requireText name missing = .ok text ↔ element.childText? name = some text := by
  unfold requireText
  split <;> simp_all

theorem succeeds_requireText_iff {missing : Defect} :
    Succeeds (element.requireText name missing) ↔ element.HasChild name := by
  simp only [Succeeds, requireText_eq_ok_iff]
  rw [← isSome_child?_iff, ← Option.isSome_iff_exists, childText?, Option.isSome_map]

theorem succeeds_readChild?_iff {α : Type} {read : Element → Except DocumentError α} :
    Succeeds (element.readChild? name read) ↔
      ∀ child ∈ element.child? name, Succeeds (read child) := by
  unfold readChild?
  split <;> simp_all

theorem succeeds_parseText_iff {α : Type} {read : String → Option α} {expected : String} :
    Succeeds (element.parseText read expected) ↔ (read (Text.trim element.text)).isSome := by
  unfold parseText
  dsimp only
  split <;> simp_all

theorem succeeds_parseText_ofText?_iff {α : Type} [Keyword α] {expected : String} :
    Succeeds (element.parseText (Keyword.ofText? : String → Option α) expected) ↔
      element.Spells (Keyword.words α) := by
  rw [succeeds_parseText_iff, Keyword.isSome_ofText?_trim_iff, Spells]

theorem succeeds_parseText_int32?_iff {expected : String} :
    Succeeds (element.parseText Text.int32? expected) ↔ element.IsInt32 := by
  rw [succeeds_parseText_iff, Text.isSome_int32?_iff, IsInt32]

theorem sameLetters_iff {text word : String} (h : word.toList.map Char.toLower = word.toList) :
    sameLetters text word = true ↔ text.toLower = word := by
  rw [sameLetters, beq_iff_eq, h, ← String.toList_inj, Text.toList_toLower]

theorem succeeds_boolValue_iff : Succeeds element.boolValue ↔ element.IsBoolean := by
  have hTrue : sameLetters (Text.trim element.text) "true" = true ↔
      (Text.trim element.text).toLower = "true" := sameLetters_iff (by decide)
  have hFalse : sameLetters (Text.trim element.text) "false" = true ↔
      (Text.trim element.text).toLower = "false" := sameLetters_iff (by decide)
  unfold boolValue IsBoolean SpellsInAnyCase
  dsimp only
  split
  · simp_all
  · split <;> simp_all

end Xml.Element
end ContractDoc

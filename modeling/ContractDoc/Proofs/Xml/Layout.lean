import ContractDoc.Proofs.Outcome
import ContractDoc.Proofs.Xml.Preorder
import ContractDoc.Xml.Value

/-! # Values on other lines

The values that are taken out of an element do not depend on the lines of the tree. When one
cannot be taken out, a line shows nowhere but in the error, where it changes with the tree.
-/

namespace ContractDoc

/-- The error with its line, if it has one, changed by `f`. -/
def DocumentError.relocate (f : UInt32 → UInt32) : DocumentError → DocumentError
  | .invalid defect line => .invalid defect (line.map f)
  | .unrecognizedDataType literal => .unrecognizedDataType literal
  | .malformed fault line => .malformed fault (f line)

namespace Xml.Element

/-- The tree with the line of every element changed by `f`. -/
def relocate (f : UInt32 → UInt32) : Element → Element
  | ⟨name, attributes, children, text, line⟩ =>
      ⟨name, attributes, relocateAll children, text, f line⟩
where
  relocateAll : List Element → List Element
    | [] => []
    | e :: es => e.relocate f :: relocateAll es

theorem relocateAll_eq_map (f : UInt32 → UInt32) (elements : List Element) :
    relocate.relocateAll f elements = elements.map (relocate f) := by
  induction elements with
  | nil => rfl
  | cons e es ih => rw [relocate.relocateAll, ih, List.map_cons]

variable (f : UInt32 → UInt32)

section

variable (element : Element)

@[simp] theorem name_relocate : (element.relocate f).name = element.name := by
  cases element
  rfl

@[simp] theorem attributes_relocate : (element.relocate f).attributes = element.attributes := by
  cases element
  rfl

@[simp] theorem text_relocate : (element.relocate f).text = element.text := by
  cases element
  rfl

@[simp] theorem line_relocate : (element.relocate f).line = f element.line := by
  cases element
  rfl

@[simp] theorem children_relocate :
    (element.relocate f).children = element.children.map (relocate f) := by
  cases element
  exact relocateAll_eq_map f _

@[simp] theorem defect_relocate (cause : Defect) :
    (element.relocate f).defect cause = (element.defect cause).relocate f := by
  cases element
  rfl

theorem beq_name_comp_relocate (name : String) :
    (fun e : Element => e.name == name) ∘ relocate f = fun e => e.name == name :=
  funext fun e => congrArg (· == name) (name_relocate f e)

@[simp] theorem child?_relocate (name : String) :
    (element.relocate f).child? name = (element.child? name).map (relocate f) := by
  rw [child?, children_relocate, List.find?_map, beq_name_comp_relocate, child?]

@[simp] theorem childText?_relocate (name : String) :
    (element.relocate f).childText? name = element.childText? name := by
  rw [childText?, child?_relocate, Option.map_map,
    show Element.text ∘ relocate f = Element.text from funext (text_relocate f), childText?]

@[simp] theorem childrenNamed_relocate (name : String) :
    (element.relocate f).childrenNamed name = (element.childrenNamed name).map (relocate f) := by
  rw [childrenNamed, children_relocate, List.filter_map, beq_name_comp_relocate, childrenNamed]

@[simp] theorem attribute?_relocate (uri : Option String) (name : String) :
    (element.relocate f).attribute? uri name = element.attribute? uri name := by
  rw [attribute?, attributes_relocate, attribute?]

end

theorem descendants_relocate (element : Element) :
    (element.relocate f).descendants = element.descendants.map (relocate f) := by
  induction hSize : element.size using Nat.strongRecOn generalizing element with
  | ind n ih =>
      rw [descendants_eq_flatMap, children_relocate, descendants_eq_flatMap element,
        List.map_flatMap, List.flatMap_map]
      apply List.flatMap_congr
      intro child hChild
      rw [List.map_cons, ih child.size (hSize ▸ size_lt_of_mem_children hChild) child rfl]

@[simp] theorem descendantsNamed_relocate (element : Element) (name : String) :
    (element.relocate f).descendantsNamed name =
      (element.descendantsNamed name).map (relocate f) := by
  rw [descendantsNamed, descendants_relocate, List.filter_map, beq_name_comp_relocate,
    descendantsNamed]

@[simp] theorem firstDescendant?_relocate (element : Element) (name : String) :
    (element.relocate f).firstDescendant? name =
      (element.firstDescendant? name).map (relocate f) := by
  rw [firstDescendant?, descendants_relocate, List.find?_map, beq_name_comp_relocate,
    firstDescendant?]

theorem requireText_relocate (element : Element) (name : String) (missing : Defect) :
    (element.relocate f).requireText name missing =
      (element.requireText name missing).mapError (DocumentError.relocate f) := by
  simp only [requireText, childText?_relocate, defect_relocate]
  cases element.childText? name <;> rfl

theorem readChild?_relocate {α : Type} (element : Element) (name : String)
    {read : Element → Except DocumentError α}
    (h : ∀ child, read (child.relocate f) = (read child).mapError (DocumentError.relocate f)) :
    (element.relocate f).readChild? name read =
      (element.readChild? name read).mapError (DocumentError.relocate f) := by
  simp only [readChild?, child?_relocate]
  cases element.child? name with
  | none => rfl
  | some child =>
      simp only [Option.map_some, h]
      cases read child <;> rfl

theorem parseText_relocate {α : Type} (element : Element) (read : String → Option α)
    (expected : String) :
    (element.relocate f).parseText read expected =
      (element.parseText read expected).mapError (DocumentError.relocate f) := by
  simp only [parseText, text_relocate, defect_relocate]
  cases read (Text.trim element.text) <;> rfl

theorem boolValue_relocate (element : Element) :
    (element.relocate f).boolValue = element.boolValue.mapError (DocumentError.relocate f) := by
  simp only [boolValue, text_relocate, name_relocate, defect_relocate]
  split
  · rfl
  · split <;> rfl

end Xml.Element
end ContractDoc

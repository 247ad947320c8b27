import ContractDoc.Proofs.Xml.RoundTrip
import ContractDoc.Vocabulary

/-! # Outlines

An outline is a tree of named parts of which only the leaves hold text, and some other parts a
type. It is written in one fixed way: without white space, with text escaped where it has to be,
and with a prefix for the type attribute that the root declares.
-/

namespace ContractDoc.Xml

open Written

/-- A text in which `&` and the character that would end it are written as references. -/
def escape (stop : Char) (body : List Char) (stands : Reference.StandsFor body stop)
    (text : List Char) : List (Glyph stop) :=
  text.map fun c =>
    if hAmp : c = '&' then .reference ['a', 'm', 'p'] '&' .amp
    else if hStop : c = stop then .reference body stop stands
    else .raw c ⟨hAmp, hStop⟩

theorem map_char_escape {stop : Char} {body : List Char} (stands : Reference.StandsFor body stop)
    (text : List Char) : (escape stop body stands text).map Glyph.char = text := by
  rw [escape, List.map_map]
  apply List.map_id''
  intro c
  simp only [Function.comp_apply]
  split
  · next hAmp => exact hAmp.symm
  · split
    · next hStop => exact hStop.symm
    · rfl

def escapeText (text : String) : List (Glyph '<') :=
  escape '<' ['l', 't'] .lt text.toList

def escapeValue (text : String) : List (Glyph Quote.double.char) :=
  escape '"' ['q', 'u', 'o', 't'] .quot text.toList

def isLabel (chars : List Char) : Bool :=
  match chars with
  | [] => false
  | c :: cs => c != '!' && c != '?' && (c :: cs).all isWordChar

/-- The text can stand as a name. -/
class IsLabel (name : String) : Prop where
  chars : isLabel name.toList = true

theorem IsLabel.ofList {chars : List Char} (h : isLabel chars = true) :
    IsLabel (String.ofList chars) := by
  constructor
  rwa [String.toList_ofList]

structure Label where
  name : String
  valid : IsLabel name

inductive Outline
  | leaf (label : Label) (text : String)
  | branch (label : Label) (type : Option String) (parts : List Outline)

namespace Label

def word (label : Label) : Word where
  chars := label.name.toList
  nonempty hNil := by
    have hValid := label.valid.chars
    rw [hNil] at hValid
    cases hValid
  isWordChar c hc := by
    have hValid := label.valid.chars
    unfold isLabel at hValid
    split at hValid
    · cases hValid
    · next hChars =>
        rw [hChars] at hc
        simp only [Bool.and_eq_true] at hValid
        exact List.all_eq_true.1 hValid.2 c hc
  head c hc := by
    have hValid := label.valid.chars
    unfold isLabel at hValid
    split at hValid
    · cases hValid
    · next hChars =>
        rw [hChars] at hc
        obtain rfl := Option.some.inj hc
        simp only [Bool.and_eq_true, bne_iff_ne, ne_eq] at hValid
        exact ⟨hValid.1.1, hValid.1.2⟩

end Label

namespace Outline

/-- The prefix of the namespace of type attributes. -/
def typePrefix : List Char := ['x', 's', 'i']

def attr (key : Key) (value : String) : Written.Attribute where
  gap := .blank
  gapNonempty := by decide
  key := key
  before := .nothing
  after := .nothing
  quote := .double
  value := escapeValue value

def typeKey : Key := ⟨['x', 's', 'i', ':', 't', 'y', 'p', 'e'], by decide, by decide⟩

def declarationKey : Key :=
  ⟨['x', 'm', 'l', 'n', 's', ':', 'x', 's', 'i'], by decide, by decide⟩

def tag (label : Label) (type : Option String) : Written.Tag where
  name := ⟨none, label.word⟩
  attributes := type.toList.map (attr typeKey)
  space := .nothing

def toItem : Outline → Item
  | leaf label text => .element (tag label none) [.text (escapeText text)] .nothing
  | branch label type parts => .element (tag label type) (toItemAll parts) .nothing
where
  toItemAll : List Outline → List Item
    | [] => []
    | part :: parts => part.toItem :: toItemAll parts

/-- The element that the outline is written for. Its lines are left open. -/
def toElement : Outline → Element
  | leaf label text => ⟨label.name, [], [], text, 0⟩
  | branch label type parts =>
      ⟨label.name, type.toList.map (Attribute.mk (some schemaInstanceUri) typeAttribute),
        toElementAll parts, "", 0⟩
where
  toElementAll : List Outline → List Element
    | [] => []
    | part :: parts => part.toElement :: toElementAll parts

def field (name text : String) [valid : IsLabel name] : Outline :=
  leaf ⟨name, valid⟩ text

def group (name : String) (parts : List Outline) [valid : IsLabel name] : Outline :=
  branch ⟨name, valid⟩ none parts

def rootTag (label : Label) : Written.Tag where
  name := ⟨none, label.word⟩
  attributes := [attr declarationKey schemaInstanceUri]
  space := .nothing

/-- The document whose root declares the prefix of type attributes and has the given parts. -/
def document (label : Label) (parts : List Outline) : Written.Document where
  prolog := []
  root := .element (rootTag label) (toItem.toItemAll parts) .nothing
  epilog := []
  isElement := trivial
  isOuter := by simp

theorem toElementAll_eq_map (parts : List Outline) :
    toElement.toElementAll parts = parts.map toElement := by
  induction parts with
  | nil => rfl
  | cons part parts ih => rw [toElement.toElementAll, ih, List.map_cons]

theorem toItemAll_eq_map (parts : List Outline) :
    toItem.toItemAll parts = parts.map toItem := by
  induction parts with
  | nil => rfl
  | cons part parts ih => rw [toItem.toItemAll, ih, List.map_cons]

theorem source_schemaInstanceUri :
    (attr declarationKey schemaInstanceUri).source = schemaInstanceUri.toList := by
  decide

theorem binding?_declaration :
    (attr declarationKey schemaInstanceUri).binding? =
      some (typePrefix, schemaInstanceUri.toList) := by
  rw [Written.Attribute.binding?, source_schemaInstanceUri]
  rfl

theorem binding?_type (type : String) : (attr typeKey type).binding? = none := rfl

def innerScope : Scope := ⟨(typePrefix, schemaInstanceUri.toList) :: Scope.reserved.bindings⟩

theorem scopeIn_rootTag (label : Label) : (rootTag label).scopeIn .reserved = innerScope := by
  simp [Tag.scopeIn, rootTag, binding?_declaration, innerScope]

theorem scopeIn_tag (label : Label) (type : Option String) (scope : Scope) :
    (tag label type).scopeIn scope = scope := by
  cases type with
  | none => rfl
  | some type =>
      simp only [Tag.scopeIn, tag, Option.toList_some, List.map_singleton,
        List.filterMap_cons_none (binding?_type type)]
      rfl

theorem resolved_type (type : String) :
    (attr typeKey type).resolved innerScope =
      ⟨some schemaInstanceUri, typeAttribute, type⟩ := by
  have hUri : innerScope.namespaceOf? typeKey.chars = some schemaInstanceUri.toList := by decide
  have hName : String.ofList (localName typeKey.chars) = typeAttribute := by decide
  have hValue : (attr typeKey type).value.map Glyph.char = type.toList := map_char_escape _ _
  rw [Written.Attribute.resolved, hValue, String.ofList_toList]
  change Attribute.mk ((innerScope.namespaceOf? typeKey.chars).map String.ofList)
    (String.ofList (localName typeKey.chars)) type = _
  rw [hUri, hName, Option.map_some, String.ofList_toList]

theorem element_tag (label : Label) (type : Option String) (text : List Char)
    (children : List Element) :
    (tag label type).element innerScope text children =
      ⟨label.name, type.toList.map (Attribute.mk (some schemaInstanceUri) typeAttribute), children,
        String.ofList text, 0⟩ := by
  have hName : String.ofList (tag label type).name.base.chars = label.name :=
    String.ofList_toList
  have hAttributes : (tag label type).attributes.map
      (Attribute.resolved ((tag label type).scopeIn innerScope)) =
      type.toList.map (Attribute.mk (some schemaInstanceUri) typeAttribute) := by
    rw [scopeIn_tag]
    cases type with
    | none => rfl
    | some type => simp [tag, resolved_type]
  rw [Tag.element, hName, hAttributes]

theorem sound_tag (label : Label) (type : Option String) : (tag label type).Sound := by
  constructor
  · cases type <;> simp [tag]
  · intro a ha binding hBinding
    obtain ⟨type, -, rfl⟩ := List.mem_map.1 ha
    rw [binding?_type] at hBinding
    cases hBinding

theorem sound_rootTag (label : Label) : (rootTag label).Sound := by
  constructor
  · simp [rootTag]
  · intro a ha binding hBinding
    obtain rfl := List.mem_singleton.1 ha
    rw [binding?_declaration] at hBinding
    obtain rfl := Option.some.inj hBinding
    decide

theorem chars_toItem (outline : Outline) : outline.toItem.chars = [] := by
  cases outline <;> rfl

theorem flatMap_chars_toItemAll (parts : List Outline) :
    (toItem.toItemAll parts).flatMap Item.chars = [] := by
  rw [toItemAll_eq_map, List.flatMap_eq_nil_iff]
  intro item hItem
  obtain ⟨part, -, rfl⟩ := List.mem_map.1 hItem
  exact chars_toItem part

mutual

theorem elements_toItem : (outline : Outline) →
    outline.toItem.elements innerScope = [outline.toElement]
  | leaf label text => by
      have hText : [Item.text (escapeText text)].flatMap Item.chars = text.toList := by
        rw [List.flatMap_singleton]
        exact map_char_escape _ _
      rw [toItem, Item.elements, element_tag, hText, String.ofList_toList]
      rfl
  | branch label type parts => by
      rw [toItem, Item.elements, element_tag, flatMap_chars_toItemAll, scopeIn_tag,
        elementsAll_toItemAll parts]
      rfl

theorem elementsAll_toItemAll : (parts : List Outline) →
    Item.elements.elementsAll innerScope (toItem.toItemAll parts) = toElement.toElementAll parts
  | [] => rfl
  | part :: parts => by
      rw [toItem.toItemAll, Item.elements.elementsAll, elements_toItem part,
        elementsAll_toItemAll parts, toElement.toElementAll]
      rfl

end

mutual

theorem sound_tags_toItem : (outline : Outline) → ∀ t ∈ outline.toItem.tags, t.Sound
  | leaf label text, t, ht => by
      obtain rfl := List.mem_singleton.1 ht
      exact sound_tag label none
  | branch label type parts, t, ht => by
      rcases List.mem_cons.1 ht with rfl | ht
      · exact sound_tag label type
      · exact sound_tagsAll_toItemAll parts t ht

theorem sound_tagsAll_toItemAll : (parts : List Outline) →
    ∀ t ∈ Item.tags.tagsAll (toItem.toItemAll parts), t.Sound
  | [], _, ht => absurd ht List.not_mem_nil
  | part :: parts, t, ht => by
      rcases List.mem_append.1 ht with ht | ht
      · exact sound_tags_toItem part t ht
      · exact sound_tagsAll_toItemAll parts t ht

end

theorem heightAll_le_iff {n : Nat} {items : List Item} :
    Item.height.heightAll items ≤ n ↔ ∀ item ∈ items, item.height ≤ n := by
  induction items with
  | nil => simp [Item.height.heightAll]
  | cons item items ih =>
      rw [Item.height.heightAll, Nat.max_le, ih, List.forall_mem_cons]

theorem heightAll_toItemAll_le_iff {n : Nat} {parts : List Outline} :
    Item.height.heightAll (toItem.toItemAll parts) ≤ n ↔
      ∀ part ∈ parts, part.toItem.height ≤ n := by
  rw [toItemAll_eq_map, heightAll_le_iff, List.forall_mem_map]

@[simp] theorem height_field_le (n : Nat) (name text : String) {_ : IsLabel name} :
    (field name text).toItem.height ≤ n + 1 :=
  Nat.le_add_left 1 n

@[simp] theorem height_branch_le (n : Nat) (label : Label) (type : Option String)
    (parts : List Outline) :
    (branch label type parts).toItem.height ≤ n + 1 ↔
      ∀ part ∈ parts, part.toItem.height ≤ n := by
  rw [toItem, Item.height, Nat.add_comm, Nat.add_le_add_iff_right, heightAll_toItemAll_le_iff]

@[simp] theorem height_group_le (n : Nat) (name : String) (parts : List Outline)
    {_ : IsLabel name} :
    (group name parts).toItem.height ≤ n + 1 ↔
      ∀ part ∈ parts, part.toItem.height ≤ n :=
  height_branch_le n ⟨name, _⟩ none parts

def rootElement (label : Label) (parts : List Outline) : Element :=
  (rootTag label).element .reserved [] (parts.map toElement)

theorem tree_document (label : Label) (parts : List Outline) :
    (document label parts).tree = rootElement label parts := by
  have hParts : Item.elements.elementsAll innerScope (toItem.toItemAll parts) =
      parts.map toElement := by
    rw [elementsAll_toItemAll, toElementAll_eq_map]
  simp only [Written.Document.tree, document, Item.elements, flatMap_chars_toItemAll,
    scopeIn_rootTag, hParts, List.head_cons, rootElement]

/-- The text of an outline is read back as the element that it is written for, up to lines. -/
theorem parse_document (label : Label) {parts : List Outline}
    (h : ∀ part ∈ parts, part.toItem.height ≤ 511) :
    ∃ root, Document.parse (document label parts).text = .ok root ∧
      root.withoutLines = (rootElement label parts).withoutLines := by
  have hSound : ∀ t ∈ (document label parts).root.tags, t.Sound := by
    intro t ht
    rcases List.mem_cons.1 ht with rfl | ht
    · exact sound_rootTag label
    · exact sound_tagsAll_toItemAll parts t ht
  have hHeight : (document label parts).root.height ≤ maxDepth := by
    rw [document, Item.height]
    exact Nat.add_le_add_left (heightAll_toItemAll_le_iff.2 h) 1
  obtain ⟨root, hDocument, hSame⟩ := (document label parts).isDocument_ofText hSound hHeight
  exact ⟨root, hDocument.ofLexemes, hSame.trans (by rw [tree_document])⟩

end Outline
end ContractDoc.Xml

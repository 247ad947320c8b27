import ContractDoc.Proofs.Xml.Validity

/-! # Namespaces by lexical scope

The namespace of an attribute is decided by its own tag and the tags around it alone: by the nearest
of them that declares its prefix, or by none, if the prefix is not reserved. What other elements
declare does not matter.
-/

namespace ContractDoc.Xml

open Written

def declarationKey (bound : List Char) : List Char := declarationWord ++ ':' :: bound

theorem splitName_declarationKey (bound : List Char) :
    splitName (declarationKey bound) = (some declarationWord, bound) :=
  splitName_append (by decide) bound

theorem eq_of_splitName {key before after : List Char} (h : splitName key = (some before, after)) :
    key = before ++ ':' :: after := by
  unfold splitName at h
  split at h
  · next hMark =>
      obtain ⟨hBefore, rfl⟩ := Prod.mk.inj h
      obtain rfl := Option.some.inj hBefore
      simpa using Text.upToMark?_eq hMark
  · simp at h

theorem Scope.declared?_eq_some_iff {key bound : List Char} :
    Scope.declared? key = some bound ↔ key = declarationKey bound := by
  constructor
  · intro h
    unfold Scope.declared? at h
    split at h
    · next hSplit =>
        split at h
        · next hWord =>
            obtain rfl := Option.some.inj h
            rw [eq_of_splitName hSplit, hWord, declarationKey]
        · cases h
    · cases h
  · rintro rfl
    simp [Scope.declared?, splitName_declarationKey]

theorem declarationKey_inj {bound other : List Char} :
    declarationKey bound = declarationKey other ↔ bound = other := by
  simp [declarationKey]

namespace Written

/-- The namespace name that a tag declares for a prefix, as it is written there. -/
def Tag.declared? (tag : Tag) (bound : List Char) : Option (List Char) :=
  (tag.attributes.find? fun attr => attr.key.chars == declarationKey bound).map Attribute.source

/-- The declaration of a prefix nearest to an element, given the tags of the element and of those
around it, the innermost one first. -/
def nearest? (path : List Tag) (bound : List Char) : Option (List Char) :=
  path.findSome? (·.declared? bound)

def reservedUri? (bound : List Char) : Option (List Char) :=
  if bound = ['x', 'm', 'l'] then some xmlUri.toList
  else if bound = declarationWord then some xmlnsUri.toList
  else none

/-- The namespace that a prefix stands for. An empty name takes the prefix back. -/
def uriOf? (path : List Tag) (bound : List Char) : Option (List Char) :=
  if bound = [] then none
  else
    match nearest? path bound with
    | some uri => if uri = [] then none else some uri
    | none => reservedUri? bound

/-- An attribute as it is read. Without a prefix it has no namespace. -/
def Attribute.readIn (path : List Tag) (attr : Attribute) : Xml.Attribute where
  uri := ((splitName attr.key.chars).1.bind (uriOf? path)).map String.ofList
  name := String.ofList (localName attr.key.chars)
  value := String.ofList (attr.value.map Glyph.char)

def attributesIn : List Tag → List Xml.Attribute
  | [] => []
  | tag :: around => tag.attributes.map (Attribute.readIn (tag :: around))

/-- The tags of every element and of those around it, element by element in document order. -/
def Item.paths (around : List Tag) : Item → List (List Tag)
  | empty tag => [tag :: around]
  | element tag items _ => (tag :: around) :: pathsAll (tag :: around) items
  | _ => []
where
  pathsAll (around : List Tag) : List Item → List (List Tag)
    | [] => []
    | item :: items => item.paths around ++ pathsAll around items

def scopeAt : List Tag → Scope
  | [] => .reserved
  | tag :: around => tag.scopeIn (scopeAt around)

theorem Attribute.binding?_eq_some_iff {attr : Attribute} {bound uri : List Char} :
    attr.binding? = some (bound, uri) ↔
      attr.key.chars = declarationKey bound ∧ attr.source = uri := by
  simp [binding?, Scope.declared?_eq_some_iff]

/-- As no key stands twice, it does not matter which declaration of a prefix counts. -/
theorem lookup_reverse_bindings {attrs : List Attribute}
    (h : (attrs.map fun attr => attr.key.chars).Nodup) (bound : List Char) :
    (attrs.filterMap Attribute.binding?).reverse.lookup bound =
      (attrs.find? fun attr => attr.key.chars == declarationKey bound).map Attribute.source := by
  induction attrs with
  | nil => rfl
  | cons attr attrs ih =>
      rw [List.map_cons, List.nodup_cons] at h
      have hRest := ih h.2
      by_cases hKey : attr.key.chars = declarationKey bound
      · have hNone : attrs.find? (fun other => other.key.chars == declarationKey bound) = none := by
          simp only [List.find?_eq_none, beq_iff_eq]
          intro other hOther hSame
          exact h.1 (List.mem_map.2 ⟨other, hOther, hSame.trans hKey.symm⟩)
        rw [hNone, Option.map_none] at hRest
        rw [List.filterMap_cons_some (Attribute.binding?_eq_some_iff.2 ⟨hKey, rfl⟩),
          List.reverse_cons, List.lookup_append, hRest,
          List.find?_cons_of_pos (by simpa using hKey)]
        simp
      · rw [List.find?_cons_of_neg (by simpa using hKey), ← hRest]
        cases hBinding : attr.binding? with
        | none => rw [List.filterMap_cons_none hBinding]
        | some binding =>
            obtain ⟨other, uri⟩ := binding
            have hOther : (bound == other) = false := by
              rw [beq_eq_false_iff_ne]
              rintro rfl
              exact hKey (Attribute.binding?_eq_some_iff.1 hBinding).1
            rw [List.filterMap_cons_some hBinding, List.reverse_cons, List.lookup_append]
            simp [List.lookup_cons, hOther]

theorem lookup_reserved (bound : List Char) :
    Scope.reserved.bindings.lookup bound = reservedUri? bound := by
  unfold reservedUri?
  split
  · next hXml => rw [hXml]; rfl
  · next hXml =>
      split
      · next hWord => rw [hWord]; rfl
      · next hWord =>
          simp [Scope.reserved, List.lookup_cons, beq_false_of_ne hXml, beq_false_of_ne hWord]

theorem ne_nil_of_reservedUri? {bound uri : List Char} (h : reservedUri? bound = some uri) :
    uri ≠ [] := by
  unfold reservedUri? at h
  split at h
  · obtain rfl := Option.some.inj h
    decide
  · split at h
    · obtain rfl := Option.some.inj h
      decide
    · cases h

theorem lookup_scopeAt {path : List Tag} (hSound : ∀ tag ∈ path, tag.Sound) (bound : List Char) :
    (scopeAt path).bindings.lookup bound = (nearest? path bound).or (reservedUri? bound) := by
  induction path with
  | nil => exact lookup_reserved bound
  | cons tag around ih =>
      rw [scopeAt, Tag.scopeIn, List.lookup_append,
        lookup_reverse_bindings (hSound tag List.mem_cons_self).distinct, ← Tag.declared?,
        ih fun t ht => hSound t (List.mem_cons_of_mem tag ht), nearest?, nearest?,
        List.findSome?_cons]
      cases tag.declared? bound <;> simp

theorem resolve?_scopeAt {path : List Tag} (hSound : ∀ tag ∈ path, tag.Sound)
    (bound : List Char) : (scopeAt path).resolve? bound = uriOf? path bound := by
  rw [Scope.resolve?, lookup_scopeAt hSound, uriOf?]
  simp only [List.isEmpty_iff]
  split
  · rfl
  · cases nearest? path bound with
    | some uri => rfl
    | none =>
        cases hReserved : reservedUri? bound with
        | none => rfl
        | some uri => exact if_neg (ne_nil_of_reservedUri? hReserved)

theorem Attribute.resolved_scopeAt {path : List Tag} (hSound : ∀ tag ∈ path, tag.Sound)
    (attr : Attribute) : attr.resolved (scopeAt path) = attr.readIn path := by
  have hUri : (scopeAt path).namespaceOf? attr.key.chars =
      (splitName attr.key.chars).1.bind (uriOf? path) := by
    rw [Scope.namespaceOf?]
    congr 1
    funext bound
    exact resolve?_scopeAt hSound bound
  rw [resolved, readIn, hUri]

theorem attributes_element {tag : Tag} {around : List Tag}
    (hSound : ∀ t ∈ tag :: around, t.Sound) (text : List Char) (children : List Element) :
    (tag.element (scopeAt around) text children).attributes = attributesIn (tag :: around) := by
  rw [Tag.element, attributesIn]
  exact List.map_congr_left fun attr _ => attr.resolved_scopeAt hSound

theorem map_attributes_preorder (element : Element) :
    element.preorder.map Element.attributes =
      element.attributes ::
        (element.children.flatMap Element.preorder).map Element.attributes := by
  rw [Element.preorder, Element.descendants_eq_flatMap]
  rfl

mutual

theorem Item.attributes_elements : (item : Item) → (around : List Tag) →
    (∀ tag ∈ item.tags, tag.Sound) → (∀ tag ∈ around, tag.Sound) →
    ((item.elements (scopeAt around)).flatMap Element.preorder).map Element.attributes =
      (item.paths around).map attributesIn
  | .text _, _, _, _ | .cdata _ _, _, _, _ | .remark _ _ _, _, _, _ => rfl
  | .empty tag, around, hTags, hAround => by
      have hSound := List.forall_mem_cons.2 ⟨hTags tag List.mem_cons_self, hAround⟩
      rw [Item.elements, List.flatMap_cons, List.flatMap_nil, List.append_nil,
        map_attributes_preorder, attributes_element hSound]
      rfl
  | .element tag items _, around, hTags, hAround => by
      have hSound := List.forall_mem_cons.2 ⟨hTags tag List.mem_cons_self, hAround⟩
      have hBelow := Item.attributes_elementsAll items (tag :: around)
        (fun t ht => hTags t (List.mem_cons_of_mem tag ht)) hSound
      rw [Item.elements, List.flatMap_cons, List.flatMap_nil, List.append_nil,
        map_attributes_preorder, attributes_element hSound, Item.paths, List.map_cons, ← hBelow]
      rfl

theorem Item.attributes_elementsAll : (items : List Item) → (around : List Tag) →
    (∀ tag ∈ Item.tags.tagsAll items, tag.Sound) → (∀ tag ∈ around, tag.Sound) →
    ((Item.elements.elementsAll (scopeAt around) items).flatMap Element.preorder).map
        Element.attributes =
      (Item.paths.pathsAll around items).map attributesIn
  | [], _, _, _ => rfl
  | item :: items, around, hTags, hAround => by
      have hFirst := Item.attributes_elements item around
        (fun t ht => hTags t (List.mem_append_left _ ht)) hAround
      have hRest := Item.attributes_elementsAll items around
        (fun t ht => hTags t (List.mem_append_right _ ht)) hAround
      rw [Item.elements.elementsAll, List.flatMap_append, List.map_append, hFirst, hRest,
        Item.paths.pathsAll, List.map_append]

end

theorem map_attributes_withoutLines (root : Element) :
    root.withoutLines.preorder.map Element.attributes =
      root.preorder.map Element.attributes := by
  rw [root.withoutLines_eq_relocate, Element.preorder, Element.preorder,
    Element.descendants_relocate]
  simp [Function.comp_def]

theorem Document.elements_root (document : Document) :
    document.root.elements .reserved = [document.tree] := by
  obtain ⟨prolog, root, epilog, hElement, hOuter⟩ := document
  cases root <;> first | exact hElement.elim | rfl

/-- The attributes of every element of an accepted document are those of its tag, each with the
namespace that the nearest declaration around it gives to its prefix. -/
theorem Document.attributes_of_parse {document : Document} {root : Element}
    (h : Xml.Document.parse document.text = .ok root) :
    root.preorder.map Element.attributes = (document.root.paths []).map attributesIn := by
  have hElements := document.root.attributes_elements [] (Document.sound_of_parse h)
    (List.forall_mem_nil _)
  rw [show scopeAt [] = .reserved from rfl, document.elements_root, List.flatMap_cons,
    List.flatMap_nil, List.append_nil] at hElements
  rw [← hElements, ← map_attributes_withoutLines, Document.withoutLines_of_parse h,
    map_attributes_withoutLines]

/-- One item stands in the place of another, somewhere among some items, with `n` elements before
it in document order. -/
inductive Replaced (old new : Item) : Nat → List Item → List Item → Prop
  | here (rest : List Item) : Replaced old new 0 (old :: rest) (new :: rest)
  | later (item : Item) {n : Nat} {rest rest' : List Item} (hRest : Replaced old new n rest rest') :
      Replaced old new (item.tags.length + n) (item :: rest) (item :: rest')
  | inside (tag : Tag) {n : Nat} {items items' : List Item} (stop : Space) (rest : List Item)
      (hItems : Replaced old new n items items') :
      Replaced old new (n + 1) (.element tag items stop :: rest) (.element tag items' stop :: rest)

mutual

theorem Item.length_paths : (item : Item) → (around : List Tag) →
    (item.paths around).length = item.tags.length
  | .text _, _ | .cdata _ _, _ | .remark _ _ _, _ | .empty _, _ => rfl
  | .element tag items _, around =>
      congrArg Nat.succ (Item.length_pathsAll items (tag :: around))

theorem Item.length_pathsAll : (items : List Item) → (around : List Tag) →
    (Item.paths.pathsAll around items).length = (Item.tags.tagsAll items).length
  | [], _ => rfl
  | item :: items, around => by
      rw [Item.paths.pathsAll, Item.tags.tagsAll, List.length_append, List.length_append,
        Item.length_paths item, Item.length_pathsAll items]

end

/-- Elements before, around and behind the item have the same tags around them as ever. -/
theorem Replaced.exists_paths {old new : Item} {n : Nat} {items items' : List Item}
    (h : Replaced old new n items items') (around : List Tag) :
    ∃ before outside after, before.length = n ∧
      Item.paths.pathsAll around items = before ++ old.paths outside ++ after ∧
        Item.paths.pathsAll around items' = before ++ new.paths outside ++ after := by
  induction h generalizing around with
  | here rest => exact ⟨[], around, Item.paths.pathsAll around rest, rfl, rfl, rfl⟩
  | later item _ ih =>
      obtain ⟨before, outside, after, hLength, hItems, hItems'⟩ := ih around
      refine ⟨item.paths around ++ before, outside, after, ?_, ?_, ?_⟩
      · rw [List.length_append, item.length_paths, hLength]
      · simp [Item.paths.pathsAll, hItems]
      · simp [Item.paths.pathsAll, hItems']
  | inside tag stop rest _ ih =>
      obtain ⟨before, outside, after, hLength, hItems, hItems'⟩ := ih (tag :: around)
      refine ⟨(tag :: around) :: before, outside, after ++ Item.paths.pathsAll around rest, ?_, ?_,
        ?_⟩
      · rw [List.length_cons, hLength]
      · simp [Item.paths.pathsAll, Item.paths, hItems]
      · simp [Item.paths.pathsAll, Item.paths, hItems']

theorem pathsAll_root (document : Document) :
    Item.paths.pathsAll [] [document.root] = document.root.paths [] := List.append_nil _

/-- What is declared in an item shows in no element outside of it. -/
theorem Replaced.exists_attributes {old new : Item} {n : Nat} {document other : Document}
    {root root' : Element} (hReplaced : Replaced old new n [document.root] [other.root])
    (h : Xml.Document.parse document.text = .ok root)
    (h' : Xml.Document.parse other.text = .ok root') :
    ∃ before inner inner' after, before.length = n ∧ inner.length = old.tags.length ∧
      inner'.length = new.tags.length ∧
        root.preorder.map Element.attributes = before ++ inner ++ after ∧
          root'.preorder.map Element.attributes = before ++ inner' ++ after := by
  obtain ⟨before, outside, after, hLength, hPaths, hPaths'⟩ := hReplaced.exists_paths []
  rw [pathsAll_root] at hPaths hPaths'
  refine ⟨before.map attributesIn, (old.paths outside).map attributesIn,
    (new.paths outside).map attributesIn, after.map attributesIn, ?_, ?_, ?_, ?_, ?_⟩
  · rw [List.length_map, hLength]
  · rw [List.length_map, old.length_paths]
  · rw [List.length_map, new.length_paths]
  · rw [Document.attributes_of_parse h, hPaths, List.map_append, List.map_append]
  · rw [Document.attributes_of_parse h', hPaths', List.map_append, List.map_append]

end Written
end ContractDoc.Xml

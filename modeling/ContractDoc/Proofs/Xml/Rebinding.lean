import ContractDoc.Proofs.Xml.Namespace
import Mathlib.Data.List.Nodup

/-! # Other places of declarations

An attribute is found by its namespace and its local name. So all attributes are found as before
when a declaration is moved to an element further out, as long as no attribute outside of its old
scope gets another namespace by it.
-/

namespace ContractDoc.Xml

/-- Attributes are looked up in both trees with the same results, element by element in document
order, if they are not declarations. -/
def SameLookups (root root' : Element) : Prop :=
  ∀ uri name, uri ≠ some xmlnsUri →
    root'.preorder.map (·.attribute? uri name) = root.preorder.map (·.attribute? uri name)

def withoutDeclarations (attributes : List Attribute) : List Attribute :=
  attributes.filter (·.uri ≠ some xmlnsUri)

theorem find?_withoutDeclarations {attributes : List Attribute} {uri : Option String}
    {name : String} (h : uri ≠ some xmlnsUri) :
    (withoutDeclarations attributes).find? (fun a => a.name == name && a.uri == uri) =
      attributes.find? fun a => a.name == name && a.uri == uri := by
  rw [withoutDeclarations, List.find?_filter]
  congr 1
  funext a
  by_cases hUri : a.uri = uri
  · simp [hUri, h, Bool.beq_eq_decide_eq]
  · simp [hUri]

theorem sameLookups_of_withoutDeclarations {root root' : Element}
    (h : (root'.preorder.map Element.attributes).map withoutDeclarations =
      (root.preorder.map Element.attributes).map withoutDeclarations) : SameLookups root root' := by
  intro uri name hUri
  have hLookup (element : Element) : element.attribute? uri name =
      ((withoutDeclarations element.attributes).find?
        fun a => a.name == name && a.uri == uri).map Attribute.value := by
    rw [find?_withoutDeclarations hUri, Element.attribute?]
  have hAll := congrArg (List.map fun attributes =>
    (attributes.find? fun a => a.name == name && a.uri == uri).map Attribute.value) h
  simp only [List.map_map, Function.comp_def] at hAll
  simpa only [hLookup] using hAll

namespace Written

variable {tag tag' : Tag} {around around' path path' : List Tag} {bound uri : List Char}
  {items items' : List Item}

theorem nearest?_cons (tag : Tag) (around : List Tag) (bound : List Char) :
    nearest? (tag :: around) bound = (tag.declared? bound).or (nearest? around bound) := by
  rw [nearest?, List.findSome?_cons]
  cases tag.declared? bound <;> rfl

theorem uriOf?_congr {bound' : List Char} (hEmpty : bound = [] ↔ bound' = [])
    (hNearest : nearest? path bound = nearest? path' bound')
    (hReserved : reservedUri? bound = reservedUri? bound') :
    uriOf? path bound = uriOf? path' bound' := by
  simp only [uriOf?, hEmpty, hNearest, hReserved]

theorem Attribute.readIn_congr {attr : Attribute}
    (h : ∀ bound, (splitName attr.key.chars).1 = some bound →
      nearest? path bound = nearest? path' bound) : attr.readIn path = attr.readIn path' := by
  have hUri : (splitName attr.key.chars).1.bind (uriOf? path) =
      (splitName attr.key.chars).1.bind (uriOf? path') := by
    cases hPrefix : (splitName attr.key.chars).1 with
    | none => rfl
    | some bound => exact uriOf?_congr Iff.rfl (h bound hPrefix) rfl
  rw [readIn, readIn, hUri]

/-- An attribute of the tag has the prefix. -/
def Tag.Uses (tag : Tag) (bound : List Char) : Prop :=
  ∃ attr ∈ tag.attributes, (splitName attr.key.chars).1 = some bound

/-- The prefix is used in the item, and what it stands for there is not declared in the item. -/
def Item.Uses (bound : List Char) : Item → Prop
  | empty tag => tag.declared? bound = none ∧ tag.Uses bound
  | element tag items _ => tag.declared? bound = none ∧ (tag.Uses bound ∨ usesAny bound items)
  | _ => False
where
  usesAny (bound : List Char) : List Item → Prop
    | [] => False
    | item :: items => item.Uses bound ∨ usesAny bound items

theorem attributesIn_congr
    (h : ∀ bound, tag.Uses bound →
      nearest? (tag :: around) bound = nearest? (tag :: around') bound) :
    attributesIn (tag :: around) = attributesIn (tag :: around') :=
  List.map_congr_left fun attr hAttr => Attribute.readIn_congr fun bound hPrefix =>
    h bound ⟨attr, hAttr, hPrefix⟩

/-- The declarations around agree on what is not declared by a tag itself. -/
theorem nearest?_cons_congr
    (h : tag.declared? bound = none → nearest? around bound = nearest? around' bound) :
    nearest? (tag :: around) bound = nearest? (tag :: around') bound := by
  rw [nearest?_cons, nearest?_cons]
  cases hDeclared : tag.declared? bound with
  | some uri => rfl
  | none => exact h hDeclared

mutual

/-- What an item depends on are the prefixes used in it. -/
theorem Item.attributes_congr : (item : Item) → (around around' : List Tag) →
    (∀ bound, item.Uses bound → nearest? around bound = nearest? around' bound) →
    (item.paths around).map attributesIn = (item.paths around').map attributesIn
  | .text _, _, _, _ | .cdata _ _, _, _, _ | .remark _ _ _, _, _, _ => rfl
  | .empty tag, around, around', h => by
      have hTag : attributesIn (tag :: around) = attributesIn (tag :: around') :=
        attributesIn_congr fun bound hUses =>
          nearest?_cons_congr fun hDeclared => h bound ⟨hDeclared, hUses⟩
      rw [Item.paths, Item.paths, List.map_singleton, List.map_singleton, hTag]
  | .element tag items _, around, around', h => by
      have hTag : attributesIn (tag :: around) = attributesIn (tag :: around') :=
        attributesIn_congr fun bound hUses =>
          nearest?_cons_congr fun hDeclared => h bound ⟨hDeclared, .inl hUses⟩
      have hBelow := Item.attributesAll_congr items (tag :: around) (tag :: around')
        fun bound hUses => nearest?_cons_congr fun hDeclared => h bound ⟨hDeclared, .inr hUses⟩
      rw [Item.paths, Item.paths, List.map_cons, List.map_cons, hTag, hBelow]

theorem Item.attributesAll_congr : (items : List Item) → (around around' : List Tag) →
    (∀ bound, Item.Uses.usesAny bound items → nearest? around bound = nearest? around' bound) →
    (Item.paths.pathsAll around items).map attributesIn =
      (Item.paths.pathsAll around' items).map attributesIn
  | [], _, _, _ => rfl
  | item :: items, around, around', h => by
      rw [Item.paths.pathsAll, Item.paths.pathsAll, List.map_append, List.map_append,
        Item.attributes_congr item around around' fun bound hUses => h bound (.inl hUses),
        Item.attributesAll_congr items around around' fun bound hUses => h bound (.inr hUses)]

end

theorem Tag.Sound.declared?_declarationWord (h : tag.Sound) :
    tag.declared? declarationWord = none := by
  rw [Tag.declared?, Option.map_eq_none_iff, List.find?_eq_none]
  intro attr hAttr hKey
  have hBinding : attr.binding? = some (declarationWord, attr.source) :=
    Attribute.binding?_eq_some_iff.2 ⟨by simpa using hKey, rfl⟩
  have hAdmits : Scope.admits declarationWord attr.source = true := h.admitted attr hAttr _ hBinding
  rw [Scope.admits, if_neg (by decide)] at hAdmits
  simp at hAdmits

theorem nearest?_declarationWord (hSound : ∀ tag ∈ path, tag.Sound) :
    nearest? path declarationWord = none := by
  rw [nearest?, List.findSome?_eq_none_iff]
  exact fun tag hTag => (hSound tag hTag).declared?_declarationWord

/-- A declaration is read as an attribute in the namespace of declarations. -/
theorem Attribute.uri_readIn_declaration {attr : Attribute} (hSound : ∀ tag ∈ path, tag.Sound)
    (hKey : attr.key.chars = declarationKey bound) :
    (attr.readIn path).uri = some xmlnsUri := by
  have hUri : uriOf? path declarationWord = some xmlnsUri.toList := by
    rw [uriOf?, nearest?_declarationWord hSound]
    rfl
  rw [readIn, hKey, splitName_declarationKey]
  simp [hUri]

/-- The attributes of an element that are not declarations, given the tags around it. -/
def visibleIn (path : List Tag) : List Xml.Attribute := withoutDeclarations (attributesIn path)

theorem sameLookups_of_visibleIn {document other : Document} {root root' : Element}
    (h : Xml.Document.parse document.text = .ok root)
    (h' : Xml.Document.parse other.text = .ok root')
    (hSame : (Item.paths.pathsAll [] [other.root]).map visibleIn =
      (Item.paths.pathsAll [] [document.root]).map visibleIn) : SameLookups root root' := by
  apply sameLookups_of_withoutDeclarations
  rw [Document.attributes_of_parse h, Document.attributes_of_parse h', List.map_map, List.map_map,
    ← pathsAll_root, ← pathsAll_root]
  exact hSame

theorem visibleIn_congr
    (h : ∀ bound, tag.Uses bound →
      nearest? (tag :: around) bound = nearest? (tag :: around') bound) :
    visibleIn (tag :: around) = visibleIn (tag :: around') :=
  congrArg withoutDeclarations (attributesIn_congr h)

theorem visibleAll_congr (items : List Item)
    (h : ∀ bound, Item.Uses.usesAny bound items → nearest? around bound = nearest? around' bound) :
    (Item.paths.pathsAll around items).map visibleIn =
      (Item.paths.pathsAll around' items).map visibleIn := by
  have hAll := congrArg (List.map withoutDeclarations) (Item.attributesAll_congr items _ _ h)
  rwa [List.map_map, List.map_map] at hAll

/-- The second tag is the first one with a declaration more, at any place. -/
def AddsDeclaration (bound uri : List Char) (tag tag' : Tag) : Prop :=
  ∃ front back declaration, tag.attributes = front ++ back ∧
    tag' = { tag with attributes := front ++ declaration :: back } ∧
      declaration.key.chars = declarationKey bound ∧ declaration.source = uri

namespace AddsDeclaration

theorem sound_of_sound (h : AddsDeclaration bound uri tag tag') (hSound : tag'.Sound) :
    tag.Sound := by
  obtain ⟨front, back, declaration, hAttributes, rfl, -, -⟩ := h
  have hSublist : tag.attributes.Sublist (front ++ declaration :: back) := by
    rw [hAttributes]
    exact (List.Sublist.refl front).append (List.sublist_cons_self declaration back)
  exact ⟨hSound.distinct.sublist (hSublist.map _),
    fun attr hAttr => hSound.admitted attr (hSublist.subset hAttr)⟩

theorem admits (h : AddsDeclaration bound uri tag tag') (hSound : tag'.Sound) :
    Scope.admits bound uri = true := by
  obtain ⟨front, back, declaration, -, rfl, hKey, hSource⟩ := h
  exact hSound.admitted declaration (List.mem_append_right front List.mem_cons_self) (bound, uri)
    (Attribute.binding?_eq_some_iff.2 ⟨hKey, hSource⟩)

theorem declared?_eq_none (h : AddsDeclaration bound uri tag tag') (hSound : tag'.Sound) :
    tag.declared? bound = none := by
  obtain ⟨front, back, declaration, hAttributes, rfl, hKey, -⟩ := h
  have hDistinct := hSound.distinct
  rw [List.map_append, List.map_cons, List.nodup_middle, ← List.map_append, ← hAttributes,
    List.nodup_cons, hKey] at hDistinct
  rw [Tag.declared?, Option.map_eq_none_iff, List.find?_eq_none]
  intro attr hAttr hSame
  exact hDistinct.1 (List.mem_map.2 ⟨attr, hAttr, beq_iff_eq.1 hSame⟩)

theorem sound (h : AddsDeclaration bound uri tag tag') (hSound : tag.Sound)
    (hNone : tag.declared? bound = none) (hAdmits : Scope.admits bound uri = true) :
    tag'.Sound := by
  obtain ⟨front, back, declaration, hAttributes, rfl, hKey, rfl⟩ := h
  rw [Tag.declared?, Option.map_eq_none_iff, List.find?_eq_none] at hNone
  constructor
  · rw [List.map_append, List.map_cons, List.nodup_middle, ← List.map_append, ← hAttributes,
      List.nodup_cons, hKey]
    refine ⟨?_, hSound.distinct⟩
    rintro hMem
    obtain ⟨attr, hAttr, hSame⟩ := List.mem_map.1 hMem
    exact hNone attr hAttr (beq_iff_eq.2 hSame)
  · intro attr hAttr binding hBinding
    rcases List.mem_append.1 hAttr with hFront | hRest
    · exact hSound.admitted attr (hAttributes ▸ List.mem_append_left back hFront) binding hBinding
    · rcases List.mem_cons.1 hRest with rfl | hBack
      · rw [Attribute.binding?_eq_some_iff.2 ⟨hKey, rfl⟩] at hBinding
        obtain rfl := Option.some.inj hBinding
        exact hAdmits
      · exact hSound.admitted attr (hAttributes ▸ List.mem_append_right front hBack) binding
          hBinding

theorem declared?_self (h : AddsDeclaration bound uri tag tag')
    (hNone : tag.declared? bound = none) : tag'.declared? bound = some uri := by
  obtain ⟨front, back, declaration, hAttributes, rfl, hKey, rfl⟩ := h
  rw [Tag.declared?, Option.map_eq_none_iff, hAttributes, List.find?_append,
    Option.or_eq_none_iff] at hNone
  rw [Tag.declared?, List.find?_append, hNone.1, List.find?_cons_of_pos (by simpa using hKey)]
  rfl

theorem declared?_other (h : AddsDeclaration bound uri tag tag') {other : List Char}
    (hOther : other ≠ bound) : tag'.declared? other = tag.declared? other := by
  obtain ⟨front, back, declaration, hAttributes, rfl, hKey, -⟩ := h
  have hBack : (declaration :: back).find? (fun attr => attr.key.chars == declarationKey other) =
      back.find? fun attr => attr.key.chars == declarationKey other := by
    apply List.find?_cons_of_neg
    rw [beq_iff_eq, hKey, declarationKey_inj]
    exact hOther.symm
  rw [Tag.declared?, Tag.declared?, hAttributes, List.find?_append, List.find?_append, hBack]

/-- The declaration apart, the attributes are the same if their prefixes are. -/
theorem visibleIn_eq (h : AddsDeclaration bound uri tag tag')
    (hSound : ∀ t ∈ tag' :: around', t.Sound)
    (hUses : ∀ other, tag.Uses other →
      nearest? (tag' :: around') other = nearest? (tag :: around) other) :
    visibleIn (tag' :: around') = visibleIn (tag :: around) := by
  have hRead : tag.attributes.map (Attribute.readIn (tag' :: around')) =
      attributesIn (tag :: around) :=
    List.map_congr_left fun attr hAttr => Attribute.readIn_congr fun other hPrefix =>
      hUses other ⟨attr, hAttr, hPrefix⟩
  obtain ⟨front, back, declaration, hAttributes, rfl, hKey, -⟩ := h
  have hDropped := Attribute.uri_readIn_declaration hSound hKey
  rw [visibleIn, visibleIn, ← hRead, hAttributes, attributesIn, withoutDeclarations,
    withoutDeclarations]
  simp [hDropped]

end AddsDeclaration

section

variable {known : Prop}

/-- A declaration is taken out of one of the elements in some items, and no element around that one
declares the prefix. Outside of it the prefix is only used under declarations of its own, unless it
is known there: `known` says that it stands for the name also without the declaration. -/
inductive LosesDeclaration (bound uri : List Char) (known : Prop) : List Item → List Item → Prop
  | empty {tag tag' : Tag} {rest : List Item} (hTag : AddsDeclaration bound uri tag' tag)
      (hRest : Item.Uses.usesAny bound rest → known) :
      LosesDeclaration bound uri known (.empty tag :: rest) (.empty tag' :: rest)
  | element {tag tag' : Tag} (items : List Item) (stop : Space) {rest : List Item}
      (hTag : AddsDeclaration bound uri tag' tag) (hRest : Item.Uses.usesAny bound rest → known) :
      LosesDeclaration bound uri known (.element tag items stop :: rest)
        (.element tag' items stop :: rest)
  | inside {tag : Tag} {items items' : List Item} (stop : Space) {rest : List Item}
      (hNone : tag.declared? bound = none) (hUses : tag.Uses bound → known)
      (hItems : LosesDeclaration bound uri known items items')
      (hRest : Item.Uses.usesAny bound rest → known) :
      LosesDeclaration bound uri known (.element tag items stop :: rest)
        (.element tag items' stop :: rest)
  | later {item : Item} {rest rest' : List Item} (hUses : item.Uses bound → known)
      (hRest : LosesDeclaration bound uri known rest rest') :
      LosesDeclaration bound uri known (item :: rest) (item :: rest')

/-- A declaration is moved from an element to one around it that does not declare the prefix, and
neither does one in between. Where the prefix is used in the new scope, but not in the old one, it
stood for the same name before. -/
inductive Moves (bound uri : List Char) : List Tag → List Item → List Item → Prop
  | here {around : List Tag} {tag tag' : Tag} {items items' : List Item} (stop : Space)
      (rest : List Item) (hTag : AddsDeclaration bound uri tag tag')
      (hNone : tag.declared? bound = none)
      (hUses : tag.Uses bound → nearest? around bound = some uri)
      (hItems : LosesDeclaration bound uri (nearest? around bound = some uri) items items') :
      Moves bound uri around (.element tag items stop :: rest) (.element tag' items' stop :: rest)
  | inside {around : List Tag} (tag : Tag) {items items' : List Item} (stop : Space)
      (rest : List Item) (hItems : Moves bound uri (tag :: around) items items') :
      Moves bound uri around (.element tag items stop :: rest) (.element tag items' stop :: rest)
  | later {around : List Tag} (item : Item) {rest rest' : List Item}
      (hRest : Moves bound uri around rest rest') :
      Moves bound uri around (item :: rest) (item :: rest')

namespace LosesDeclaration

theorem sound_tags (h : LosesDeclaration bound uri known items items')
    (hSound : ∀ tag ∈ Item.tags.tagsAll items, tag.Sound) :
    Scope.admits bound uri = true ∧ ∀ tag ∈ Item.tags.tagsAll items', tag.Sound := by
  induction h with
  | empty hTag _ | element items stop hTag _ =>
      obtain ⟨hFirst, hOthers⟩ := List.forall_mem_cons.1 hSound
      exact ⟨hTag.admits hFirst, List.forall_mem_cons.2 ⟨hTag.sound_of_sound hFirst, hOthers⟩⟩
  | inside stop _ _ _ _ ih =>
      obtain ⟨hFirst, hOthers⟩ := List.forall_mem_cons.1 hSound
      obtain ⟨hItems, hRest⟩ := List.forall_mem_append.1 hOthers
      obtain ⟨hAdmits, hItems'⟩ := ih hItems
      exact ⟨hAdmits,
        List.forall_mem_cons.2 ⟨hFirst, List.forall_mem_append.2 ⟨hItems', hRest⟩⟩⟩
  | later _ _ ih =>
      obtain ⟨hItem, hRest⟩ := List.forall_mem_append.1 hSound
      obtain ⟨hAdmits, hRest'⟩ := ih hRest
      exact ⟨hAdmits, List.forall_mem_append.2 ⟨hItem, hRest'⟩⟩

theorem heightAll_eq (h : LosesDeclaration bound uri known items items') :
    Item.height.heightAll items' = Item.height.heightAll items := by
  induction h with
  | empty | element => rfl
  | inside stop _ _ _ _ ih => simp only [Item.height.heightAll, Item.height, ih]
  | later _ _ ih => rw [Item.height.heightAll, Item.height.heightAll, ih]

end LosesDeclaration

/-- In the second of two places a prefix stands for a name, in the first one it does if that is
known, and all other prefixes stand for the same in both. -/
structure Gains (bound uri : List Char) (known : Prop) (around around' : List Tag) : Prop where
  other : ∀ other, other ≠ bound → nearest? around' other = nearest? around other
  self : nearest? around' bound = some uri
  ofKnown : known → nearest? around bound = some uri

namespace Gains

theorem nearest?_eq (h : Gains bound uri known around around') {other : List Char}
    (hUses : other = bound → known) : nearest? around' other = nearest? around other := by
  by_cases hSame : other = bound
  · rw [hSame, h.self, h.ofKnown (hUses hSame)]
  · exact h.other other hSame

theorem cons (h : Gains bound uri known around around') (hNone : tag.declared? bound = none) :
    Gains bound uri known (tag :: around) (tag :: around') where
  other other hOther := nearest?_cons_congr fun _ => h.other other hOther
  self := by rw [nearest?_cons, hNone, h.self, Option.none_or]
  ofKnown hKnown := by rw [nearest?_cons, hNone, h.ofKnown hKnown, Option.none_or]

/-- Inside the declaring element nothing changes. -/
theorem nearest?_cons_eq (h : Gains bound uri known around around')
    (hTag : AddsDeclaration bound uri tag' tag) (hSound : tag.Sound) (other : List Char) :
    nearest? (tag' :: around') other = nearest? (tag :: around) other := by
  have hNone := hTag.declared?_eq_none hSound
  rw [nearest?_cons, nearest?_cons]
  by_cases hSame : other = bound
  · rw [hSame, hNone, h.self, hTag.declared?_self hNone, Option.none_or, Option.some_or]
  · rw [hTag.declared?_other hSame, h.other other hSame]

theorem visibleIn_eq (h : Gains bound uri known around around')
    (hTag : AddsDeclaration bound uri tag' tag) (hSound : ∀ t ∈ tag :: around, t.Sound) :
    visibleIn (tag' :: around') = visibleIn (tag :: around) :=
  (hTag.visibleIn_eq hSound fun other _ =>
    (h.nearest?_cons_eq hTag (hSound tag List.mem_cons_self) other).symm).symm

theorem map_visibleIn (h : Gains bound uri known around around') {items : List Item}
    (hUses : Item.Uses.usesAny bound items → known) :
    (Item.paths.pathsAll around' items).map visibleIn =
      (Item.paths.pathsAll around items).map visibleIn :=
  visibleAll_congr items fun _ hUsed => h.nearest?_eq fun hSame => hUses (hSame ▸ hUsed)

end Gains

/-- In a scope that knows the prefix it does not matter where the declaration was. -/
theorem LosesDeclaration.map_visibleIn (h : LosesDeclaration bound uri known items items')
    (hTags : ∀ tag ∈ Item.tags.tagsAll items, tag.Sound) (hAround : ∀ tag ∈ around, tag.Sound)
    (hGains : Gains bound uri known around around') :
    (Item.paths.pathsAll around' items').map visibleIn =
      (Item.paths.pathsAll around items).map visibleIn := by
  induction h generalizing around around' with
  | @empty tag tag' rest hTag hRest =>
      obtain ⟨hSound, -⟩ := List.forall_mem_cons.1 hTags
      have hVisible := hGains.visibleIn_eq hTag (List.forall_mem_cons.2 ⟨hSound, hAround⟩)
      simp only [Item.paths.pathsAll, Item.paths, List.map_append, List.map_cons, hVisible,
        hGains.map_visibleIn hRest]
  | @element tag tag' items stop rest hTag hRest =>
      obtain ⟨hSound, -⟩ := List.forall_mem_cons.1 hTags
      have hVisible := hGains.visibleIn_eq hTag (List.forall_mem_cons.2 ⟨hSound, hAround⟩)
      have hBelow := visibleAll_congr items fun other _ => hGains.nearest?_cons_eq hTag hSound other
      simp only [Item.paths.pathsAll, Item.paths, List.map_append, List.map_cons, hVisible, hBelow,
        hGains.map_visibleIn hRest]
  | @inside tag items items' stop rest hNone hUses hItems hRest ih =>
      obtain ⟨hSound, hOthers⟩ := List.forall_mem_cons.1 hTags
      have hInside := hGains.cons hNone
      have hVisible : visibleIn (tag :: around') = visibleIn (tag :: around) :=
        visibleIn_congr fun other hUsed => hInside.nearest?_eq fun hSame => hUses (hSame ▸ hUsed)
      have hBelow := ih (List.forall_mem_append.1 hOthers).1
        (List.forall_mem_cons.2 ⟨hSound, hAround⟩) hInside
      simp only [Item.paths.pathsAll, Item.paths, List.map_append, List.map_cons, hVisible, hBelow,
        hGains.map_visibleIn hRest]
  | @later item rest rest' hUses hRest ih =>
      have hItem : (Item.paths.pathsAll around' [item]).map visibleIn =
          (Item.paths.pathsAll around [item]).map visibleIn :=
        hGains.map_visibleIn fun hUsed => hUsed.elim hUses False.elim
      simp only [Item.paths.pathsAll, List.append_nil] at hItem
      simp only [Item.paths.pathsAll, List.map_append, hItem,
        ih (List.forall_mem_append.1 hTags).2 hAround hGains]

end

namespace Moves

theorem sound_tags (h : Moves bound uri around items items')
    (hSound : ∀ tag ∈ Item.tags.tagsAll items, tag.Sound) :
    ∀ tag ∈ Item.tags.tagsAll items', tag.Sound := by
  induction h with
  | here stop rest hTag hNone _ hItems =>
      obtain ⟨hFirst, hOthers⟩ := List.forall_mem_cons.1 hSound
      obtain ⟨hBelow, hRest⟩ := List.forall_mem_append.1 hOthers
      obtain ⟨hAdmits, hBelow'⟩ := hItems.sound_tags hBelow
      exact List.forall_mem_cons.2
        ⟨hTag.sound hFirst hNone hAdmits, List.forall_mem_append.2 ⟨hBelow', hRest⟩⟩
  | inside tag stop rest _ ih =>
      obtain ⟨hFirst, hOthers⟩ := List.forall_mem_cons.1 hSound
      obtain ⟨hBelow, hRest⟩ := List.forall_mem_append.1 hOthers
      exact List.forall_mem_cons.2 ⟨hFirst, List.forall_mem_append.2 ⟨ih hBelow, hRest⟩⟩
  | later item _ ih =>
      obtain ⟨hItem, hRest⟩ := List.forall_mem_append.1 hSound
      exact List.forall_mem_append.2 ⟨hItem, ih hRest⟩

theorem heightAll_eq (h : Moves bound uri around items items') :
    Item.height.heightAll items' = Item.height.heightAll items := by
  induction h with
  | here stop rest _ _ _ hItems =>
      simp only [Item.height.heightAll, Item.height, hItems.heightAll_eq]
  | inside tag stop rest _ ih => simp only [Item.height.heightAll, Item.height, ih]
  | later item _ ih => rw [Item.height.heightAll, Item.height.heightAll, ih]

theorem map_visibleIn (h : Moves bound uri around items items')
    (hTags : ∀ tag ∈ Item.tags.tagsAll items, tag.Sound) (hAround : ∀ tag ∈ around, tag.Sound) :
    (Item.paths.pathsAll around items').map visibleIn =
      (Item.paths.pathsAll around items).map visibleIn := by
  induction h with
  | @here around tag tag' items items' stop rest hTag hNone hUses hItems =>
      obtain ⟨hFirst, hOthers⟩ := List.forall_mem_cons.1 hTags
      obtain ⟨hBelow, hRest⟩ := List.forall_mem_append.1 hOthers
      have hFirst' : tag'.Sound := hTag.sound hFirst hNone (hItems.sound_tags hBelow).1
      have hGains : Gains bound uri (nearest? around bound = some uri) (tag :: around)
          (tag' :: around) := by
        refine ⟨fun other hOther => ?_, ?_, fun hKnown => ?_⟩
        · rw [nearest?_cons, nearest?_cons, hTag.declared?_other hOther]
        · rw [nearest?_cons, hTag.declared?_self hNone, Option.some_or]
        · rw [nearest?_cons, hNone, hKnown, Option.none_or]
      have hVisible : visibleIn (tag' :: around) = visibleIn (tag :: around) :=
        hTag.visibleIn_eq (List.forall_mem_cons.2 ⟨hFirst', hAround⟩)
          fun other hUsed => hGains.nearest?_eq fun hSame => hUses (hSame ▸ hUsed)
      have hInside := hItems.map_visibleIn hBelow (List.forall_mem_cons.2 ⟨hFirst, hAround⟩) hGains
      simp only [Item.paths.pathsAll, Item.paths, List.map_append, List.map_cons, hVisible, hInside]
  | inside tag stop rest _ ih =>
      obtain ⟨hFirst, hOthers⟩ := List.forall_mem_cons.1 hTags
      obtain ⟨hBelow, -⟩ := List.forall_mem_append.1 hOthers
      have hInside := ih hBelow (List.forall_mem_cons.2 ⟨hFirst, hAround⟩)
      simp only [Item.paths.pathsAll, Item.paths, List.map_append, List.map_cons, hInside]
  | later item _ ih =>
      have hRest := ih (List.forall_mem_append.1 hTags).2 hAround
      simp only [Item.paths.pathsAll, List.map_append, hRest]

end Moves

/-- A document with as sound tags, as many levels and the same attributes, declarations apart, is
accepted and looked up in with the same results. -/
theorem exists_sameLookups {document other : Document} {root : Element}
    (h : Xml.Document.parse document.text = .ok root)
    (hTags : ∀ tag ∈ Item.tags.tagsAll [other.root], tag.Sound)
    (hHeight : Item.height.heightAll [other.root] = Item.height.heightAll [document.root])
    (hSame : (Item.paths.pathsAll [] [other.root]).map visibleIn =
      (Item.paths.pathsAll [] [document.root]).map visibleIn) :
    ∃ root', Xml.Document.parse other.text = .ok root' ∧ SameLookups root root' := by
  have hSound : ∀ tag ∈ other.root.tags, tag.Sound :=
    fun tag hTag => hTags tag (List.mem_append_left _ hTag)
  simp only [Item.height.heightAll, Nat.max_zero] at hHeight
  obtain ⟨root', h'⟩ := Document.exists_parse_iff.2
    ⟨hSound, hHeight ▸ Document.height_le_of_parse h⟩
  exact ⟨root', h', sameLookups_of_visibleIn h h' hSame⟩

theorem sound_tagsAll_root {document : Document} {root : Element}
    (h : Xml.Document.parse document.text = .ok root) :
    ∀ tag ∈ Item.tags.tagsAll [document.root], tag.Sound := by
  rw [Item.tags.tagsAll, Item.tags.tagsAll, List.append_nil]
  exact Document.sound_of_parse h

/-- A declaration may move to an element further out. -/
theorem Moves.exists_sameLookups {document other : Document} {root : Element}
    (hMoves : Moves bound uri [] [document.root] [other.root])
    (h : Xml.Document.parse document.text = .ok root) :
    ∃ root', Xml.Document.parse other.text = .ok root' ∧ SameLookups root root' := by
  have hTags := sound_tagsAll_root h
  exact Written.exists_sameLookups h (hMoves.sound_tags hTags) hMoves.heightAll_eq
    (hMoves.map_visibleIn hTags (List.forall_mem_nil _))

end Written
end ContractDoc.Xml

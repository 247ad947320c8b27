import ContractDoc.Proofs.Xml.Rebinding
import Mathlib.Data.List.Infix

/-! # Renamed prefixes

A declaration may get another prefix, and with it the attributes in its scope that have the old one.
As long as the new prefix is not mentioned in that scope, the attributes are still found under the
same namespaces.
-/

namespace ContractDoc.Xml

theorem colon_not_mem_of_splitName {key before after : List Char}
    (h : splitName key = (some before, after)) : ':' ∉ before := by
  unfold splitName at h
  split at h
  · next hMark =>
      obtain ⟨hBefore, rfl⟩ := Prod.mk.inj h
      obtain rfl := Option.some.inj hBefore
      have hInfix := Text.not_infix_of_upToMark? (List.cons_ne_nil _ _) hMark
      rwa [List.singleton_infix_iff] at hInfix
  · simp at h

namespace Written

variable {old new outer inner : Word} {bound key : List Char}

/-- The prefix that stands in the place of a prefix. -/
def renamed (old new : Word) (bound : List Char) : List Char :=
  if bound = old.chars then new.chars else bound

/-- The key that stands in the place of a key: another prefix is used, or another one declared. -/
def renamedKey (old new : Word) (key : List Char) : List Char :=
  match splitName key with
  | (some before, after) =>
      if before = declarationWord then declarationKey (renamed old new after)
      else renamed old new before ++ ':' :: after
  | (none, _) => key

/-- A key has the prefix or declares it. -/
def KeyMentions (bound key : List Char) : Prop :=
  (splitName key).1 = some bound ∨ key = declarationKey bound

instance (bound key : List Char) : Decidable (KeyMentions bound key) :=
  inferInstanceAs (Decidable (_ ∨ _))

theorem renamed_renamed (h : new.chars ≠ old.chars → bound ≠ new.chars) :
    renamed new old (renamed old new bound) = bound := by
  by_cases hOld : bound = old.chars
  · rw [renamed, renamed, if_pos hOld, if_pos rfl, hOld]
  · have hNew : bound ≠ new.chars := fun hNew => h (fun hSame => hOld (hNew.trans hSame)) hNew
    rw [renamed, renamed, if_neg hOld, if_neg hNew]

theorem renamedKey_declarationKey (old new : Word) (bound : List Char) :
    renamedKey old new (declarationKey bound) = declarationKey (renamed old new bound) := by
  rw [renamedKey, splitName_declarationKey]
  exact if_pos rfl

/-- A key has no prefix, or it declares one, or it has one that is not for declarations. -/
theorem key_cases (key : List Char) :
    (splitName key).1 = none ∨ (∃ bound, key = declarationKey bound) ∨
      ∃ before after, splitName key = (some before, after) ∧ before ≠ declarationWord := by
  rcases hSplit : splitName key with ⟨_ | before, after⟩
  · exact .inl rfl
  · by_cases hWord : before = declarationWord
    · refine .inr (.inl ⟨after, ?_⟩)
      rw [eq_of_splitName hSplit, hWord, declarationKey]
    · exact .inr (.inr ⟨before, after, rfl, hWord⟩)

theorem renamedKey_of_none (h : (splitName key).1 = none) : renamedKey old new key = key := by
  unfold renamedKey
  split
  · next hSplit => rw [hSplit] at h; cases h
  · rfl

section

variable {before after : List Char}

theorem renamedKey_of_some (h : splitName key = (some before, after))
    (hWord : before ≠ declarationWord) :
    renamedKey old new key = renamed old new before ++ ':' :: after := by
  rw [renamedKey, h]
  exact if_neg hWord

theorem splitName_renamedKey (h : splitName key = (some before, after))
    (hWord : before ≠ declarationWord) :
    splitName (renamedKey old new key) = (some (renamed old new before), after) := by
  rw [renamedKey_of_some h hWord]
  apply splitName_append
  rw [renamed]
  split
  · exact new.colon_not_mem
  · exact colon_not_mem_of_splitName h

theorem renamed_ne_declarationWord (hNew : new.chars ≠ declarationWord)
    (hWord : before ≠ declarationWord) : renamed old new before ≠ declarationWord := by
  rw [renamed]
  split
  · exact hNew
  · exact hWord

end

/-- Nothing is lost if the new prefix is not mentioned. -/
theorem renamedKey_renamedKey (hNew : new.chars ≠ declarationWord)
    (hFresh : new.chars ≠ old.chars → ¬ KeyMentions new.chars key) :
    renamedKey new old (renamedKey old new key) = key := by
  rcases key_cases key with hNone | ⟨bound, rfl⟩ | ⟨before, after, hSplit, hWord⟩
  · rw [renamedKey_of_none hNone, renamedKey_of_none hNone]
  · have hBound : new.chars ≠ old.chars → bound ≠ new.chars :=
      fun hOther hSame => hFresh hOther (.inr (by rw [hSame]))
    rw [renamedKey_declarationKey, renamedKey_declarationKey, renamed_renamed hBound]
  · have hBefore : new.chars ≠ old.chars → before ≠ new.chars :=
      fun hOther hSame => hFresh hOther (.inl (by rw [hSplit, hSame]))
    rw [renamedKey_of_some (splitName_renamedKey hSplit hWord)
      (renamed_ne_declarationWord hNew hWord), renamed_renamed hBefore, eq_of_splitName hSplit]

theorem renamedKey_eq_declarationKey_iff (hNew : new.chars ≠ declarationWord)
    (hFresh : new.chars ≠ old.chars → ¬ KeyMentions new.chars key)
    (hBound : new.chars ≠ old.chars → bound ≠ new.chars) :
    renamedKey old new key = declarationKey (renamed old new bound) ↔
      key = declarationKey bound := by
  constructor
  · intro h
    rw [← renamedKey_renamedKey hNew hFresh, h, renamedKey_declarationKey, renamed_renamed hBound]
  · rintro rfl
    exact renamedKey_declarationKey old new bound

theorem declared?_renamedKey (hNew : new.chars ≠ declarationWord) (key : List Char) :
    Scope.declared? (renamedKey old new key) = (Scope.declared? key).map (renamed old new) := by
  rcases key_cases key with hNone | ⟨bound, rfl⟩ | ⟨before, after, hSplit, hWord⟩
  · have hDeclared : Scope.declared? key = none := by
      rw [Scope.declared?, show splitName key = (none, (splitName key).2) from Prod.ext hNone rfl]
    rw [renamedKey_of_none hNone, hDeclared, Option.map_none]
  · rw [renamedKey_declarationKey, Scope.declared?_eq_some_iff.2 rfl,
      Scope.declared?_eq_some_iff.2 rfl, Option.map_some]
  · have hRenamed : renamed old new before ≠ declarationWord :=
      renamed_ne_declarationWord hNew hWord
    rw [Scope.declared?, Scope.declared?, splitName_renamedKey hSplit hWord, hSplit]
    dsimp only
    rw [if_neg hRenamed, if_neg hWord, Option.map_none]

theorem ne_of_reservedUri? (h : reservedUri? bound = none) :
    bound ≠ ['x', 'm', 'l'] ∧ bound ≠ declarationWord := by
  unfold reservedUri? at h
  split at h
  · cases h
  · next hXml =>
      split at h
      · cases h
      · next hWord => exact ⟨hXml, hWord⟩

theorem reservedUri?_renamed (hOld : reservedUri? old.chars = none)
    (hNew : reservedUri? new.chars = none) (bound : List Char) :
    reservedUri? (renamed old new bound) = reservedUri? bound := by
  rw [renamed]
  split
  · next hSame => rw [hNew, hSame, hOld]
  · rfl

theorem admits_renamed (hOld : reservedUri? old.chars = none)
    (hNew : reservedUri? new.chars = none) (bound uri : List Char) :
    Scope.admits (renamed old new bound) uri = Scope.admits bound uri := by
  obtain ⟨hXml, hWord⟩ := ne_of_reservedUri? hOld
  obtain ⟨hXml', hWord'⟩ := ne_of_reservedUri? hNew
  rw [renamed]
  split
  · next hSame => simp [hSame, Scope.admits, hXml, hWord, hXml', hWord']
  · rfl

/-- Only the key changes, to the one that stands in its place. -/
def RenamesAttribute (old new : Word) (attr attr' : Attribute) : Prop :=
  ∃ key : Key, key.chars = renamedKey old new attr.key.chars ∧ attr' = { attr with key := key }

def Tag.Mentions (tag : Tag) (bound : List Char) : Prop :=
  ∃ attr ∈ tag.attributes, KeyMentions bound attr.key.chars

theorem Tag.Uses.mentions {tag : Tag} (h : tag.Uses bound) : tag.Mentions bound := by
  obtain ⟨attr, hAttr, hPrefix⟩ := h
  exact ⟨attr, hAttr, .inl hPrefix⟩

/-- In the place of the prefix `old`, which has become `outer` around a tag, stands `inner` in the
tag and in those below it. These two differ only if the tag declares the prefix. -/
structure RenamesTag (old outer inner : Word) (tag tag' : Tag) (below : List Tag) : Prop where
  base : tag'.name.base = tag.name.base
  attributes : List.Forall₂ (RenamesAttribute old inner) tag.attributes tag'.attributes
  inherited : tag.declared? old.chars = none → inner = outer
  free : reservedUri? inner.chars = none
  fresh : inner.chars ≠ old.chars → ∀ t ∈ tag :: below, ¬ t.Mentions inner.chars

variable {tag tag' : Tag} {below around around' : List Tag}

namespace RenamesTag

theorem fresh_key (h : RenamesTag old outer inner tag tag' below) {attr : Attribute}
    (hAttr : attr ∈ tag.attributes) :
    inner.chars ≠ old.chars → ¬ KeyMentions inner.chars attr.key.chars :=
  fun hOther hMentions => h.fresh hOther tag List.mem_cons_self ⟨attr, hAttr, hMentions⟩

theorem forall₂_fresh (h : RenamesTag old outer inner tag tag' below) :
    List.Forall₂ (fun attr attr' => (inner.chars ≠ old.chars →
      ¬ KeyMentions inner.chars attr.key.chars) ∧ RenamesAttribute old inner attr attr')
      tag.attributes tag'.attributes :=
  (List.forall₂_and_left _ _).2 ⟨fun _ hAttr => h.fresh_key hAttr, h.attributes⟩

theorem declared?_eq (h : RenamesTag old outer inner tag tag' below)
    (hBound : inner.chars ≠ old.chars → bound ≠ inner.chars) :
    tag'.declared? (renamed old inner bound) = tag.declared? bound := by
  have hWord := (ne_of_reservedUri? h.free).2
  have hFound : Option.Rel (fun attr attr' => (inner.chars ≠ old.chars →
      ¬ KeyMentions inner.chars attr.key.chars) ∧ RenamesAttribute old inner attr attr')
      (tag.attributes.find? fun attr => attr.key.chars == declarationKey bound)
      (tag'.attributes.find? fun attr =>
        attr.key.chars == declarationKey (renamed old inner bound)) := by
    refine Outcome.rel_find?_of_forall₂ ?_ h.forall₂_fresh
    rintro attr _ ⟨hFresh, key, hKey, rfl⟩
    rw [Bool.eq_iff_iff, beq_iff_eq, beq_iff_eq, hKey,
      renamedKey_eq_declarationKey_iff hWord hFresh hBound]
  rw [Tag.declared?, Tag.declared?]
  generalize tag.attributes.find? _ = found, tag'.attributes.find? _ = found' at hFound
  cases hFound with
  | none => rfl
  | some hAttr =>
      obtain ⟨-, key, -, rfl⟩ := hAttr
      rfl

theorem sound (h : RenamesTag old outer inner tag tag' below)
    (hOld : reservedUri? old.chars = none) (hSound : tag.Sound) : tag'.Sound := by
  have hWord := (ne_of_reservedUri? h.free).2
  constructor
  · have hKeys : tag'.attributes.map (fun attr => attr.key.chars) =
        (tag.attributes.map fun attr => attr.key.chars).map (renamedKey old inner) := by
      rw [List.map_map]
      symm
      refine Outcome.map_eq_map_of_forall₂ ?_ h.attributes
      rintro attr _ ⟨key, hKey, rfl⟩
      exact hKey.symm
    rw [hKeys]
    refine List.Nodup.map_on ?_ hSound.distinct
    intro key hKey key' hKey' hSame
    obtain ⟨attr, hAttr, rfl⟩ := List.mem_map.1 hKey
    obtain ⟨attr', hAttr', rfl⟩ := List.mem_map.1 hKey'
    rw [← renamedKey_renamedKey hWord (h.fresh_key hAttr), hSame,
      renamedKey_renamedKey hWord (h.fresh_key hAttr')]
  · have hBindings : tag'.attributes.map Attribute.binding? = tag.attributes.map fun attr =>
        attr.binding?.map fun binding => (renamed old inner binding.1, binding.2) := by
      symm
      refine Outcome.map_eq_map_of_forall₂ ?_ h.attributes
      rintro attr _ ⟨key, hKey, rfl⟩
      rw [Attribute.binding?, Attribute.binding?, hKey, declared?_renamedKey hWord]
      simp [Function.comp_def, Attribute.source]
    intro attr' hAttr' binding hBinding
    have hMem : attr'.binding? ∈ tag'.attributes.map Attribute.binding? :=
      List.mem_map_of_mem hAttr'
    rw [hBindings] at hMem
    obtain ⟨attr, hAttr, hSame⟩ := List.mem_map.1 hMem
    rw [← hSame] at hBinding
    obtain ⟨⟨bound, uri⟩, hOriginal, rfl⟩ := Option.mem_map.1 hBinding
    exact (admits_renamed hOld h.free bound uri).trans (hSound.admitted attr hAttr _ hOriginal)

theorem nearest?_eq (h : RenamesTag old outer inner tag tag' below)
    (hBound : inner.chars ≠ old.chars → bound ≠ inner.chars)
    (hAround : nearest? around' (renamed old outer bound) = nearest? around bound) :
    nearest? (tag' :: around') (renamed old inner bound) = nearest? (tag :: around) bound := by
  rw [nearest?_cons, nearest?_cons, h.declared?_eq hBound]
  cases hDeclared : tag.declared? bound with
  | some uri => rfl
  | none =>
      rw [Option.none_or, Option.none_or, ← hAround]
      by_cases hSame : bound = old.chars
      · rw [h.inherited (hSame ▸ hDeclared)]
      · rw [renamed, renamed, if_neg hSame, if_neg hSame]

end RenamesTag

/-- The prefix `old`, and every prefix used in one of some tags, stands for the same around both. -/
def Agree (old outer : Word) (tags around around' : List Tag) : Prop :=
  ∀ bound, (bound = old.chars ∨ ∃ t ∈ tags, t.Uses bound) →
    nearest? around' (renamed old outer bound) = nearest? around bound

theorem Agree.mono {tags tags' : List Tag} (h : Agree old outer tags around around')
    (hSubset : tags' ⊆ tags) : Agree old outer tags' around around' :=
  fun bound hUses => h bound (hUses.imp_right fun ⟨t, ht, hUsed⟩ => ⟨t, hSubset ht, hUsed⟩)

/-- What stands for the same around a renamed tag, stands for the same in it. -/
theorem Agree.cons (h : Agree old outer (tag :: below) around around')
    (hTag : RenamesTag old outer inner tag tag' below) :
    Agree old inner (tag :: below) (tag :: around) (tag' :: around') := by
  intro bound hUses
  refine hTag.nearest?_eq (fun hOther hSame => ?_) (h bound hUses)
  rcases hUses with hOld | ⟨t, ht, hUsed⟩
  · exact hOther (hSame.symm.trans hOld)
  · exact hTag.fresh hOther t ht (hSame ▸ hUsed.mentions)

theorem RenamesAttribute.readIn_eq {attr attr' : Attribute} {path path' : List Tag}
    (h : RenamesAttribute old new attr attr') (hOld : reservedUri? old.chars = none)
    (hNew : reservedUri? new.chars = none) (hNot : ∀ bound, attr.key.chars ≠ declarationKey bound)
    (hPath : ∀ bound, (splitName attr.key.chars).1 = some bound →
      nearest? path' (renamed old new bound) = nearest? path bound) :
    attr'.readIn path' = attr.readIn path := by
  obtain ⟨key, hKey, rfl⟩ := h
  rcases key_cases attr.key.chars with hNone | ⟨bound, hDeclares⟩ | ⟨before, after, hSplit, hWord⟩
  · rw [renamedKey_of_none hNone] at hKey
    rw [Attribute.readIn, Attribute.readIn, hKey, hNone]
    rfl
  · exact absurd hDeclares (hNot bound)
  · have hEmpty : renamed old new before = [] ↔ before = [] := by
      rw [renamed]
      split
      · next hSame => simp [hSame, old.nonempty, new.nonempty]
      · exact Iff.rfl
    have hUri : uriOf? path' (renamed old new before) = uriOf? path before :=
      uriOf?_congr hEmpty (hPath before (by rw [hSplit])) (reservedUri?_renamed hOld hNew before)
    rw [Attribute.readIn, Attribute.readIn, hKey, localName, localName,
      splitName_renamedKey hSplit hWord, hSplit, Option.bind_some, Option.bind_some, hUri]

theorem withoutDeclarations_map_eq {f g : Attribute → Xml.Attribute} {attrs attrs' : List Attribute}
    (h : List.Forall₂ (fun attr attr' => g attr' = f attr ∨
      (g attr').uri = some xmlnsUri ∧ (f attr).uri = some xmlnsUri) attrs attrs') :
    withoutDeclarations (attrs'.map g) = withoutDeclarations (attrs.map f) := by
  unfold withoutDeclarations
  induction h with
  | nil => rfl
  | cons hFirst _ ih =>
      rcases hFirst with hSame | ⟨hDropped', hDropped⟩
      · simp only [List.map_cons, List.filter_cons, hSame, ih]
      · simpa [hDropped', hDropped] using ih

/-- Declarations apart, the attributes of a renamed tag are as before. -/
theorem RenamesTag.visibleIn_eq (h : RenamesTag old outer inner tag tag' below)
    (hOld : reservedUri? old.chars = none) (hSound : ∀ t ∈ tag :: around, t.Sound)
    (hSound' : ∀ t ∈ tag' :: around', t.Sound)
    (hAgree : Agree old inner (tag :: below) (tag :: around) (tag' :: around')) :
    visibleIn (tag' :: around') = visibleIn (tag :: around) := by
  apply withoutDeclarations_map_eq
  have hEach : ∀ attr ∈ tag.attributes, ∀ bound, (splitName attr.key.chars).1 = some bound →
      nearest? (tag' :: around') (renamed old inner bound) = nearest? (tag :: around) bound :=
    fun attr hAttr bound hPrefix =>
      hAgree bound (.inr ⟨tag, List.mem_cons_self, attr, hAttr, hPrefix⟩)
  refine ((List.forall₂_and_left _ _).2 ⟨hEach, h.attributes⟩).imp ?_
  rintro attr attr' ⟨hPath, hAttr⟩
  by_cases hDeclares : ∃ bound, attr.key.chars = declarationKey bound
  · obtain ⟨bound, hKey⟩ := hDeclares
    obtain ⟨key, hKey', rfl⟩ := hAttr
    rw [hKey, renamedKey_declarationKey] at hKey'
    exact .inr ⟨Attribute.uri_readIn_declaration hSound' hKey',
      Attribute.uri_readIn_declaration hSound hKey⟩
  · exact .inl (hAttr.readIn_eq hOld h.free (not_exists.1 hDeclares) hPath)

/-- In the scope of some declarations of the prefix `old`, another prefix stands in its place; each
declaration may be given its own. Around the items this is `outer`. -/
inductive Renames (old : Word) : Word → List Item → List Item → Prop
  | nil (outer : Word) : Renames old outer [] []
  | other {outer : Word} {item : Item} {rest rest' : List Item} (hItem : ¬ item.IsElement)
      (hRest : Renames old outer rest rest') : Renames old outer (item :: rest) (item :: rest')
  | empty {outer inner : Word} {tag tag' : Tag} {rest rest' : List Item}
      (hTag : RenamesTag old outer inner tag tag' []) (hRest : Renames old outer rest rest') :
      Renames old outer (.empty tag :: rest) (.empty tag' :: rest')
  | element {outer inner : Word} {tag tag' : Tag} {items items' : List Item} (stop : Space)
      {rest rest' : List Item}
      (hTag : RenamesTag old outer inner tag tag' (Item.tags.tagsAll items))
      (hItems : Renames old inner items items') (hRest : Renames old outer rest rest') :
      Renames old outer (.element tag items stop :: rest) (.element tag' items' stop :: rest')

theorem paths_of_not_isElement {item : Item} (h : ¬ item.IsElement) (around : List Tag) :
    item.paths around = [] := by
  cases item <;> first | rfl | exact absurd trivial h

theorem tags_of_not_isElement {item : Item} (h : ¬ item.IsElement) : item.tags = [] := by
  cases item <;> first | rfl | exact absurd trivial h

namespace Renames

variable {items items' : List Item}

theorem sound_tags (h : Renames old outer items items') (hOld : reservedUri? old.chars = none)
    (hSound : ∀ t ∈ Item.tags.tagsAll items, t.Sound) :
    ∀ t ∈ Item.tags.tagsAll items', t.Sound := by
  induction h with
  | nil => exact hSound
  | other hItem _ ih =>
      rw [Item.tags.tagsAll, tags_of_not_isElement hItem] at hSound ⊢
      exact ih hSound
  | empty hTag _ ih =>
      obtain ⟨hFirst, hRest⟩ := List.forall_mem_cons.1 hSound
      exact List.forall_mem_cons.2 ⟨hTag.sound hOld hFirst, ih hRest⟩
  | element stop hTag _ _ ihItems ihRest =>
      obtain ⟨hFirst, hOthers⟩ := List.forall_mem_cons.1 hSound
      obtain ⟨hItems, hRest⟩ := List.forall_mem_append.1 hOthers
      exact List.forall_mem_cons.2 ⟨hTag.sound hOld hFirst,
        List.forall_mem_append.2 ⟨ihItems hItems, ihRest hRest⟩⟩

theorem heightAll_eq (h : Renames old outer items items') :
    Item.height.heightAll items' = Item.height.heightAll items := by
  induction h with
  | nil => rfl
  | other _ _ ih => rw [Item.height.heightAll, Item.height.heightAll, ih]
  | empty _ _ ih => simp only [Item.height.heightAll, Item.height, ih]
  | element stop _ _ _ ihItems ihRest =>
      simp only [Item.height.heightAll, Item.height, ihItems, ihRest]

theorem map_visibleIn (h : Renames old outer items items') (hOld : reservedUri? old.chars = none)
    (hTags : ∀ t ∈ Item.tags.tagsAll items, t.Sound) (hAround : ∀ t ∈ around, t.Sound)
    (hAround' : ∀ t ∈ around', t.Sound)
    (hAgree : Agree old outer (Item.tags.tagsAll items) around around') :
    (Item.paths.pathsAll around' items').map visibleIn =
      (Item.paths.pathsAll around items).map visibleIn := by
  induction h generalizing around around' with
  | nil => rfl
  | other hItem _ ih =>
      rw [Item.tags.tagsAll, tags_of_not_isElement hItem, List.nil_append] at hTags hAgree
      have hRest := ih hTags hAround hAround' hAgree
      rwa [Item.paths.pathsAll, Item.paths.pathsAll, paths_of_not_isElement hItem,
        paths_of_not_isElement hItem, List.nil_append, List.nil_append]
  | @empty outer inner tag tag' rest rest' hTag _ ih =>
      obtain ⟨hFirst, hRest⟩ := List.forall_mem_cons.1 hTags
      have hInside := (hAgree.mono (List.cons_subset_cons tag (List.nil_subset _))).cons hTag
      have hVisible := hTag.visibleIn_eq hOld (List.forall_mem_cons.2 ⟨hFirst, hAround⟩)
        (List.forall_mem_cons.2 ⟨hTag.sound hOld hFirst, hAround'⟩) hInside
      have hBehind := ih hRest hAround hAround' (hAgree.mono (List.subset_cons_self tag _))
      simp only [Item.paths.pathsAll, Item.paths, List.map_append, List.map_cons, hVisible,
        hBehind]
  | @element outer inner tag tag' items items' stop rest rest' hTag _ _ ihItems ihRest =>
      obtain ⟨hFirst, hOthers⟩ := List.forall_mem_cons.1 hTags
      obtain ⟨hItems, hRest⟩ := List.forall_mem_append.1 hOthers
      have hSound := List.forall_mem_cons.2 ⟨hFirst, hAround⟩
      have hSound' := List.forall_mem_cons.2 ⟨hTag.sound hOld hFirst, hAround'⟩
      have hInside := (hAgree.mono (List.cons_subset_cons tag (List.subset_append_left _ _))).cons
        hTag
      have hVisible := hTag.visibleIn_eq hOld hSound hSound' hInside
      have hBelow := ihItems hItems hSound hSound' (hInside.mono (List.subset_cons_self tag _))
      have hBehind := ihRest hRest hAround hAround'
        (hAgree.mono fun t ht => List.mem_cons_of_mem tag (List.mem_append_right _ ht))
      simp only [Item.paths.pathsAll, Item.paths, List.map_append, List.map_cons, hVisible, hBelow,
        hBehind]

/-- Prefixes may be renamed in their scopes. -/
theorem exists_sameLookups {document other : Document} {root : Element}
    (hRenames : Renames old outer [document.root] [other.root])
    (hOld : reservedUri? old.chars = none) (h : Xml.Document.parse document.text = .ok root) :
    ∃ root', Xml.Document.parse other.text = .ok root' ∧ SameLookups root root' := by
  have hTags := sound_tagsAll_root h
  refine Written.exists_sameLookups h (hRenames.sound_tags hOld hTags) hRenames.heightAll_eq ?_
  exact hRenames.map_visibleIn hOld hTags (List.forall_mem_nil _) (List.forall_mem_nil _)
    fun _ _ => rfl

end Renames

end Written
end ContractDoc.Xml

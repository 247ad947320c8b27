import ContractDoc.Proofs.Xml.Outline
import ContractDoc.Proofs.Xml.Renaming

/-! # Lexical scope

In every accepted document the nearest declaration decides about the namespace of an attribute.
Nothing outside of an element depends on what is declared in it, and lookups by namespace depend
neither on the prefixes nor on the places of the declarations.
-/

namespace ContractDoc.Xml

open Written

/-- The namespaces of the attributes in the tree follow the lexical scope of the declarations in the
document. -/
structure ResolvesLexically (document : Written.Document) (root : Element) : Prop where
  attributes :
    root.preorder.map Element.attributes = (document.root.paths []).map attributesIn
  /-- What is written in the place of an item shows in no element before, around or behind it. -/
  contained : ∀ {old new : Item} {n : Nat} {other : Written.Document} {root' : Element},
    Replaced old new n [document.root] [other.root] → Document.parse other.text = .ok root' →
      ∃ before inner inner' after, before.length = n ∧ inner.length = old.tags.length ∧
        inner'.length = new.tags.length ∧
          root.preorder.map Element.attributes = before ++ inner ++ after ∧
            root'.preorder.map Element.attributes = before ++ inner' ++ after
  renamed : ∀ {old outer : Word} {other : Written.Document}, reservedUri? old.chars = none →
    Renames old outer [document.root] [other.root] →
      ∃ root', Document.parse other.text = .ok root' ∧ SameLookups root root'
  moved : ∀ {bound uri : List Char} {other : Written.Document},
    Moves bound uri [] [document.root] [other.root] →
      ∃ root', Document.parse other.text = .ok root' ∧ SameLookups root root'

theorem resolvesLexically_of_parse {document : Written.Document} {root : Element}
    (h : Document.parse document.text = .ok root) : ResolvesLexically document root where
  attributes := Written.Document.attributes_of_parse h
  contained hReplaced h' := hReplaced.exists_attributes h h'
  renamed hOld hRenames := hRenames.exists_sameLookups hOld h
  moved hMoves := hMoves.exists_sameLookups h

namespace Written

theorem isOuter_nil : ∀ token ∈ ([] : List Token), token.IsOuter ∧ token.Complete :=
  List.forall_mem_nil _

/-- An empty element in another one, each with some attributes. -/
def nested (outside inside : List Attribute) : Document where
  prolog := []
  root := .element ⟨⟨none, ⟨['o', 'u', 't'], by decide, by decide, by simp⟩⟩, outside, .nothing⟩
    [.empty ⟨⟨none, ⟨['i', 'n'], by decide, by decide, by simp⟩⟩, inside, .nothing⟩] .nothing
  epilog := []
  isElement := trivial
  isOuter := isOuter_nil

def typePrefix : Word := ⟨Outline.typePrefix, by decide, by decide, by simp [Outline.typePrefix]⟩

def shortPrefix : Word := ⟨['p'], by decide, by decide, by simp⟩

def typeDeclaration : Attribute := Outline.attr Outline.declarationKey schemaInstanceUri

def shortDeclaration : Attribute :=
  Outline.attr ⟨['x', 'm', 'l', 'n', 's', ':', 'p'], by decide, by decide⟩ schemaInstanceUri

def typed : Attribute := Outline.attr Outline.typeKey "x"

def shortTyped : Attribute :=
  Outline.attr ⟨['p', ':', 't', 'y', 'p', 'e'], by decide, by decide⟩ "x"

theorem moves_nested : Moves Outline.typePrefix schemaInstanceUri.toList []
    [(nested [] [typeDeclaration, typed]).root] [(nested [typeDeclaration] [typed]).root] := by
  have hSource : typeDeclaration.source = schemaInstanceUri.toList :=
    Outline.source_schemaInstanceUri
  refine .here .nothing [] ⟨[], [], typeDeclaration, rfl, rfl, rfl, hSource⟩ rfl ?_ (.empty
    ⟨[], [typed], typeDeclaration, rfl, rfl, rfl, hSource⟩ False.elim)
  rintro ⟨attr, hAttr, -⟩
  cases hAttr

theorem renames_nested : Renames typePrefix typePrefix
    [(nested [] [typeDeclaration, typed]).root]
    [(nested [] [shortDeclaration, shortTyped]).root] := by
  have hOutside : reservedUri? typePrefix.chars = none := by decide
  have hInside : reservedUri? shortPrefix.chars = none := by decide
  have hDeclaration : RenamesAttribute typePrefix shortPrefix typeDeclaration shortDeclaration :=
    ⟨shortDeclaration.key, by decide, rfl⟩
  have hTyped : RenamesAttribute typePrefix shortPrefix typed shortTyped :=
    ⟨shortTyped.key, by decide, rfl⟩
  have hFresh : ∀ attr ∈ [typeDeclaration, typed],
      ¬ KeyMentions shortPrefix.chars attr.key.chars := by decide
  refine .element .nothing ⟨rfl, .nil, fun _ => rfl, hOutside, fun h => absurd rfl h⟩
    (.empty ⟨rfl, .cons hDeclaration (.cons hTyped .nil), fun h => ?_, hInside, fun _ => ?_⟩
      (.nil typePrefix)) (.nil typePrefix)
  · exact absurd h (by decide)
  · simp only [List.mem_singleton, forall_eq]
    rintro ⟨attr, hAttr, hMentions⟩
    exact hFresh attr hAttr hMentions

end Written

/-- A declaration on the element that uses it, its prefix renamed there, or moved outwards. -/
theorem resolvesLexically_nested : ∃ root renamed moved,
    Document.parse (nested [] [typeDeclaration, typed]).text = .ok root ∧
      ResolvesLexically (nested [] [typeDeclaration, typed]) root ∧
        Document.parse (nested [] [shortDeclaration, shortTyped]).text = .ok renamed ∧
          SameLookups root renamed ∧
            Document.parse (nested [typeDeclaration] [typed]).text = .ok moved ∧
              SameLookups root moved := by
  have h : Document.parse (nested [] [typeDeclaration, typed]).text =
      .ok ⟨"out", [], [⟨"in", [⟨some xmlnsUri, "xsi", schemaInstanceUri⟩,
        ⟨some schemaInstanceUri, "type", "x"⟩], [], "", 1⟩], "", 1⟩ := by
    decide +kernel
  have hLexical := resolvesLexically_of_parse h
  obtain ⟨renamed, hRenamed, hRenamedSame⟩ := hLexical.renamed (by decide) renames_nested
  obtain ⟨moved, hMoved, hMovedSame⟩ := hLexical.moved moves_nested
  exact ⟨_, renamed, moved, h, hLexical, hRenamed, hRenamedSame, hMoved, hMovedSame⟩

/-- The prefix `xml` has a namespace that is declared nowhere. And a declaration that is moved
outwards shows in an element outside of its old scope that has the prefix without a declaration. -/
theorem lookups_of_undeclared :
    Document.parse "<a xml:lang='en'/>" =
        .ok ⟨"a", [⟨some xmlUri, "lang", "en"⟩], [], "", 1⟩ ∧
      ∃ root moved,
        Document.parse ("<a><b p:type='x'/><c xmlns:p='" ++ schemaInstanceUri ++ "'/></a>") =
          .ok root ∧
        Document.parse ("<a xmlns:p='" ++ schemaInstanceUri ++ "'><b p:type='x'/><c/></a>") =
          .ok moved ∧
        root.preorder.map (·.attribute? (some schemaInstanceUri) typeAttribute) =
          [none, none, none] ∧
        moved.preorder.map (·.attribute? (some schemaInstanceUri) typeAttribute) =
          [none, some "x", none] :=
  ⟨by decide +kernel, ⟨"a", [], [⟨"b", [⟨none, "type", "x"⟩], [], "", 1⟩,
      ⟨"c", [⟨some xmlnsUri, "p", schemaInstanceUri⟩], [], "", 1⟩], "", 1⟩,
    ⟨"a", [⟨some xmlnsUri, "p", schemaInstanceUri⟩],
      [⟨"b", [⟨some schemaInstanceUri, "type", "x"⟩], [], "", 1⟩, ⟨"c", [], [], "", 1⟩], "", 1⟩,
    by decide +kernel, by decide +kernel, by decide +kernel, by decide +kernel⟩

end ContractDoc.Xml

import ContractDoc.Proofs.Xml.Cutting
import ContractDoc.Proofs.Xml.Position
import ContractDoc.Proofs.Xml.WrittenTag

/-! # Written documents are read back

Whatever way a document is written in, reading it gives the element tree that it stands for. The
lexemes of a written item are content, which is shown for the tokens as they are cut, that is with
neighbouring text runs joined, and with any lines.
-/

namespace ContractDoc.Xml

def Token.atNoLine (token : Token) : Lexeme := ⟨token, 0, 0⟩

theorem withoutLinesAll_eq_map (elements : List Element) :
    Element.withoutLines.withoutLinesAll elements = elements.map Element.withoutLines := by
  induction elements with
  | nil => rfl
  | cons e es ih => rw [Element.withoutLines.withoutLinesAll, ih, List.map_cons]

theorem Element.withoutLines_eq_relocate (element : Element) :
    element.withoutLines = element.relocate fun _ => 0 := by
  induction hSize : element.size using Nat.strongRecOn generalizing element with
  | ind n ih =>
      obtain ⟨name, attributes, children, text, line⟩ := element
      rw [withoutLines, relocate, relocateAll_eq_map, withoutLinesAll_eq_map]
      congr 1
      apply List.map_congr_left
      intro child hChild
      exact ih child.size (hSize ▸ size_lt_of_mem_children hChild) child rfl

theorem Element.withoutLines_relocate (f : UInt32 → UInt32) (element : Element) :
    (element.relocate f).withoutLines = element.withoutLines := by
  induction hSize : element.size using Nat.strongRecOn generalizing element with
  | ind n ih =>
      obtain ⟨name, attributes, children, text, line⟩ := element
      rw [relocate, withoutLines, withoutLines, relocateAll_eq_map, withoutLinesAll_eq_map,
        withoutLinesAll_eq_map, List.map_map]
      congr 1
      apply List.map_congr_left
      intro child hChild
      exact ih child.size (hSize ▸ size_lt_of_mem_children hChild) child rfl

theorem withoutLines_closeWith (element : OpenElement) (line : UInt32) (text : List Char)
    {children children' : List Element}
    (h : children.map Element.withoutLines = children'.map Element.withoutLines) :
    ({ element with line }.closeWith text children).withoutLines =
      (element.closeWith text children').withoutLines := by
  simp [OpenElement.closeWith, Element.withoutLines, withoutLinesAll_eq_map, h, OpenElement.name]

theorem Opens.withLine {scope : Scope} {depth : Nat} {line : UInt32} {content : List Char}
    {element : OpenElement} (h : Opens scope depth content line element) (line' : UInt32) :
    Opens scope depth content line' { element with line := line' } :=
  { h with line := rfl }

/-- The same tokens on other lines are content with the same text and children. -/
theorem Content.relined {scope : Scope} {depth : Nat} {lexemes : List Lexeme} {text : List Char}
    {children : List Element} (h : Content scope depth lexemes text children)
    {lexemes' : List Lexeme}
    (hTokens : lexemes'.map Lexeme.token = lexemes.map Lexeme.token) :
    ∃ children', Content scope depth lexemes' text children' ∧
      children'.map Element.withoutLines = children.map Element.withoutLines := by
  induction h generalizing lexemes' with
  | nil =>
      obtain rfl := List.map_eq_nil_iff.1 hTokens
      exact ⟨[], .nil, rfl⟩
  | text hRun _ ih =>
      obtain ⟨⟨token, line, endLine⟩, rest, rfl, rfl, hRest⟩ := List.map_eq_cons_iff.1 hTokens
      obtain ⟨children', hContent, hSame⟩ := ih hRest
      exact ⟨children', .text hRun hContent, hSame⟩
  | cdata _ ih =>
      obtain ⟨⟨token, line, endLine⟩, rest, rfl, rfl, hRest⟩ := List.map_eq_cons_iff.1 hTokens
      obtain ⟨children', hContent, hSame⟩ := ih hRest
      exact ⟨children', .cdata hContent, hSame⟩
  | remark hRemark _ ih =>
      obtain ⟨lexeme, rest, rfl, hToken, hRest⟩ := List.map_eq_cons_iff.1 hTokens
      obtain ⟨children', hContent, hSame⟩ := ih hRest
      exact ⟨children', .remark (hToken ▸ hRemark) hContent, hSame⟩
  | @empty scope depth _ _ _ _ element _ _ hOpens _ ih =>
      obtain ⟨⟨token, line, endLine⟩, rest, rfl, rfl, hRest⟩ := List.map_eq_cons_iff.1 hTokens
      obtain ⟨children', hContent, hSame⟩ := ih hRest
      refine ⟨_, .empty (hOpens.withLine line) hContent, ?_⟩
      rw [List.map_cons, List.map_cons, hSame, withoutLines_closeWith element line [] rfl]
  | @nested scope depth _ _ _ _ _ _ inner _ element _ _ _ _ hOpens _ hStop _ ihBody ih =>
      obtain ⟨⟨token, line, endLine⟩, rest, rfl, rfl, hRest⟩ := List.map_eq_cons_iff.1 hTokens
      rw [List.map_append] at hRest
      obtain ⟨body', rest', rfl, hBody, hRest⟩ := List.map_eq_append_iff.1 hRest
      obtain ⟨⟨token, stopLine, stopEndLine⟩, rest'', rfl, rfl, hAfter⟩ :=
        List.map_eq_cons_iff.1 hRest
      obtain ⟨below', hInner, hSameBelow⟩ := ihBody hBody
      obtain ⟨children', hContent, hSame⟩ := ih hAfter
      refine ⟨_, .nested (hOpens.withLine line) hInner hStop hContent, ?_⟩
      rw [List.map_cons, List.map_cons, hSame, withoutLines_closeWith element line inner hSameBelow]

theorem IsElement.relined {scope : Scope} {depth : Nat} {lexemes : List Lexeme}
    {element : Element} (h : IsElement scope depth lexemes element) {lexemes' : List Lexeme}
    (hTokens : lexemes'.map Lexeme.token = lexemes.map Lexeme.token) :
    ∃ element', IsElement scope depth lexemes' element' ∧
      element'.withoutLines = element.withoutLines := by
  cases h with
  | @empty _ _ _ element hOpens =>
      obtain ⟨⟨token, line, endLine⟩, rest, rfl, rfl, hRest⟩ := List.map_eq_cons_iff.1 hTokens
      obtain rfl := List.map_eq_nil_iff.1 hRest
      exact ⟨_, .empty (hOpens.withLine line), withoutLines_closeWith element line [] rfl⟩
  | @nested _ _ _ _ _ _ inner element _ _ hOpens hBody hStop =>
      obtain ⟨⟨token, line, endLine⟩, rest, rfl, rfl, hRest⟩ := List.map_eq_cons_iff.1 hTokens
      rw [List.map_append] at hRest
      obtain ⟨body', rest', rfl, hBody', hRest⟩ := List.map_eq_append_iff.1 hRest
      obtain ⟨⟨token, stopLine, stopEndLine⟩, rest'', rfl, rfl, hAfter⟩ :=
        List.map_eq_cons_iff.1 hRest
      obtain rfl := List.map_eq_nil_iff.1 hAfter
      obtain ⟨below', hInner, hSame⟩ := hBody.relined hBody'
      exact ⟨_, .nested (hOpens.withLine line) hInner hStop,
        withoutLines_closeWith element line inner hSame⟩

theorem isOuter_relined {lexemes lexemes' : List Lexeme}
    (h : ∀ lexeme ∈ lexemes, lexeme.token.IsOuter)
    (hTokens : lexemes'.map Lexeme.token = lexemes.map Lexeme.token) :
    ∀ lexeme ∈ lexemes', lexeme.token.IsOuter := by
  intro lexeme hLexeme
  have hMem : lexeme.token ∈ lexemes.map Lexeme.token := hTokens ▸ List.mem_map_of_mem hLexeme
  obtain ⟨other, hOther, hEq⟩ := List.mem_map.1 hMem
  exact hEq ▸ h other hOther

theorem IsDocument.relined {lexemes : List Lexeme} {root : Element} (h : IsDocument lexemes root)
    {lexemes' : List Lexeme} (hTokens : lexemes'.map Lexeme.token = lexemes.map Lexeme.token) :
    ∃ root', IsDocument lexemes' root' ∧ root'.withoutLines = root.withoutLines := by
  obtain ⟨hBefore, hElement, hAfter⟩ := h
  rw [List.map_append, List.map_append] at hTokens
  obtain ⟨front, after', rfl, hFront, hAfter'⟩ := List.map_eq_append_iff.1 hTokens
  obtain ⟨before', lexemes', rfl, hBefore', hLexemes⟩ := List.map_eq_append_iff.1 hFront
  obtain ⟨root', hRoot, hSame⟩ := hElement.relined hLexemes
  exact ⟨root', .intro (isOuter_relined hBefore hBefore') hRoot (isOuter_relined hAfter hAfter'),
    hSame⟩

theorem Content.joinText {scope : Scope} {depth : Nat} {tokens : List Token}
    {text run chars : List Char} {children : List Element}
    (h : Content scope depth (tokens.map Token.atNoLine) text children)
    (hRun : Reference.Decodes run chars) :
    Content scope depth ((Token.joinText run tokens).map Token.atNoLine) (chars ++ text)
      children := by
  have hPlain : Content scope depth
      ((if run = [] then tokens else .text run :: tokens).map Token.atNoLine) (chars ++ text)
      children := by
    split
    · next hNil =>
        subst hNil
        cases hRun
        exact h
    · exact .text hRun h
  cases tokens with
  | nil => exact hPlain
  | cons token tokens =>
      cases token with
      | text more =>
          cases h with
          | text hMore hRest =>
              rw [← List.append_assoc]
              exact .text (hRun.append hMore) hRest
          | remark hRemark => exact hRemark.elim
      | _ => exact hPlain

theorem isOuter_merge {tokens : List Token} (h : ∀ token ∈ tokens, token.IsOuter) :
    ∀ token ∈ Token.merge tokens, token.IsOuter := by
  induction tokens with
  | nil => exact h
  | cons first rest ih =>
      have hRest := ih fun token hToken => h token (List.mem_cons_of_mem first hToken)
      by_cases hText : first.IsText
      · cases first with
        | text run =>
            rw [Token.merge]
            cases hMerge : Token.merge rest with
            | nil => by_cases hRun : run = [] <;> simp [Token.joinText, hRun, Token.IsOuter]
            | cons next others =>
                rw [hMerge] at hRest
                cases next <;> by_cases hRun : run = [] <;>
                  simp_all [Token.joinText, Token.IsOuter]
        | _ => exact hText.elim
      · rw [Token.merge_cons_of_not_isText hText]
        intro token hToken
        rcases List.mem_cons.1 hToken with rfl | hToken
        · exact h token List.mem_cons_self
        · exact hRest token hToken

namespace Written

mutual

theorem Item.complete : (item : Item) → ∀ token ∈ item.tokens, token.Complete
  | .text run, token, hToken => by
      obtain rfl := List.mem_singleton.1 hToken
      exact Glyph.stop_not_mem (by decide) run
  | .cdata _ complete, token, hToken => List.mem_singleton.1 hToken ▸ complete
  | .remark _ _ complete, token, hToken => List.mem_singleton.1 hToken ▸ complete
  | .empty tag, token, hToken => List.mem_singleton.1 hToken ▸ tag.complete_emptyTag
  | .element tag items stop, token, hToken => by
      rcases List.mem_cons.1 hToken with rfl | hToken
      · exact tag.complete_startTag
      · rcases List.mem_append.1 hToken with hToken | hToken
        · exact Item.complete_tokensAll items token hToken
        · obtain rfl := List.mem_singleton.1 hToken
          exact tag.complete_endTag stop

theorem Item.complete_tokensAll :
    (items : List Item) → ∀ token ∈ Item.tokens.tokensAll items, token.Complete
  | [], _, hToken => absurd hToken List.not_mem_nil
  | item :: items, token, hToken => by
      rcases List.mem_append.1 hToken with hToken | hToken
      · exact Item.complete item token hToken
      · exact Item.complete_tokensAll items token hToken

end

mutual

/-- A written item in front of content adds its own text and its own element to it. -/
theorem Item.content : (item : Item) → (scope : Scope) → (depth : Nat) → (rest : List Token) →
    (data : List Char) → (children : List Element) →
    (∀ tag ∈ item.tags, tag.Sound) → depth + item.height ≤ maxDepth →
    Content scope depth ((Token.merge rest).map Token.atNoLine) data children →
    Content scope depth ((Token.merge (item.tokens ++ rest)).map Token.atNoLine)
      (item.chars ++ data) (item.elements scope ++ children)
  | .text run, scope, depth, rest, data, children, _, _, h => h.joinText (Glyph.decodes run)
  | .cdata content _, scope, depth, rest, data, children, _, _, h => .cdata h
  | .remark token isRemark _, scope, depth, rest, data, children, _, _, h => by
      have hMarkup : ¬ token.IsText := by
        cases token <;> first | exact isRemark.elim | exact id
      rw [Item.tokens, List.singleton_append, Token.merge_cons_of_not_isText hMarkup]
      exact .remark isRemark h
  | .empty tag, scope, depth, rest, data, children, hSound, hDepth, h => by
      have hOpens := (hSound tag List.mem_cons_self).opens scope hDepth 0
      have hContent : Content scope depth
          (Token.atNoLine (.emptyTag tag.content) :: (Token.merge rest).map Token.atNoLine) data
          ((tag.opened scope 0).closeWith [] [] :: children) := .empty hOpens h
      rwa [tag.closeWith_opened] at hContent
  | .element tag items stop, scope, depth, rest, data, children, hSound, hDepth, h => by
      rw [Item.height] at hDepth
      have hRoom : depth < maxDepth := by omega
      have hBelow : depth + 1 + Item.height.heightAll items ≤ maxDepth := by omega
      have hOpens := (hSound tag List.mem_cons_self).opens scope hRoom 0
      have hBody := Item.content_all items (tag.scopeIn scope) (depth + 1)
        (fun t ht => hSound t (List.mem_cons_of_mem tag ht)) hBelow
      have hContent : Content scope depth
          (Token.atNoLine (.startTag tag.content) ::
            ((Token.merge (Item.tokens.tokensAll items)).map Token.atNoLine ++
              Token.atNoLine (.endTag (tag.name.chars ++ stop.chars)) ::
                (Token.merge rest).map Token.atNoLine)) data
          ((tag.opened scope 0).closeWith (items.flatMap Item.chars)
            (Item.elements.elementsAll (tag.scopeIn scope) items) :: children) :=
        .nested hOpens hBody (tag.endName_eq stop) h
      rw [tag.closeWith_opened] at hContent
      rwa [Item.tokens, List.cons_append, List.append_assoc, List.singleton_append,
        Token.merge_cons_of_not_isText id, Token.merge_append_of_not_isText id, List.map_cons,
        List.map_append, List.map_cons]

theorem Item.content_all : (items : List Item) → (scope : Scope) → (depth : Nat) →
    (∀ tag ∈ Item.tags.tagsAll items, tag.Sound) → depth + Item.height.heightAll items ≤ maxDepth →
    Content scope depth ((Token.merge (Item.tokens.tokensAll items)).map Token.atNoLine)
      (items.flatMap Item.chars) (Item.elements.elementsAll scope items)
  | [], scope, depth, _, _ => .nil
  | item :: items, scope, depth, hSound, hDepth => by
      rw [Item.height.heightAll] at hDepth
      have hFirst : depth + item.height ≤ maxDepth := by omega
      have hOthers : depth + Item.height.heightAll items ≤ maxDepth := by omega
      have hRest := Item.content_all items scope depth
        (fun t ht => hSound t (List.mem_append_right item.tags ht)) hOthers
      exact Item.content item scope depth _ _ _
        (fun t ht => hSound t (List.mem_append_left _ ht)) hFirst hRest

end

theorem Item.isElement {item : Item} (h : item.IsElement)
    (hSound : ∀ tag ∈ item.tags, tag.Sound) (hHeight : item.height ≤ maxDepth)
    (before after : List Token) (hBefore : ∀ token ∈ before, token.IsOuter)
    (hAfter : ∀ token ∈ after, token.IsOuter) :
    IsDocument ((Token.merge (before ++ item.tokens ++ after)).map Token.atNoLine)
      ((item.elements .reserved).head (Item.elements_ne_nil h _)) := by
  have hOuter : ∀ tokens : List Token, (∀ token ∈ tokens, token.IsOuter) →
      ∀ lexeme ∈ (Token.merge tokens).map Token.atNoLine, lexeme.token.IsOuter := by
    intro tokens hTokens lexeme hLexeme
    obtain ⟨token, hToken, rfl⟩ := List.mem_map.1 hLexeme
    exact isOuter_merge hTokens token hToken
  cases item with
  | text | cdata | remark => exact h.elim
  | empty tag =>
      have hOpens := (hSound tag List.mem_cons_self).opens .reserved (Nat.succ_pos 511) 0
      have hElement : Xml.IsElement .reserved 0 [Token.atNoLine (.emptyTag tag.content)]
          ((tag.opened .reserved 0).closeWith [] []) := .empty hOpens
      rw [tag.closeWith_opened] at hElement
      have hDocument := IsDocument.intro (hOuter before hBefore) hElement (hOuter after hAfter)
      rw [Item.tokens, List.append_assoc, List.singleton_append,
        Token.merge_append_of_not_isText id, List.map_append, List.map_cons]
      simpa using! hDocument
  | element tag items stop =>
      have hOpens := (hSound tag List.mem_cons_self).opens .reserved (Nat.succ_pos 511) 0
      rw [Item.height] at hHeight
      have hBody := Item.content_all items (tag.scopeIn .reserved) 1
        (fun t ht => hSound t (List.mem_cons_of_mem tag ht)) hHeight
      have hElement : Xml.IsElement .reserved 0 (Token.atNoLine (.startTag tag.content) ::
          ((Token.merge (Item.tokens.tokensAll items)).map Token.atNoLine ++
            [Token.atNoLine (.endTag (tag.name.chars ++ stop.chars))]))
          ((tag.opened .reserved 0).closeWith (items.flatMap Item.chars)
            (Item.elements.elementsAll (tag.scopeIn .reserved) items)) :=
        .nested hOpens hBody (tag.endName_eq stop)
      rw [tag.closeWith_opened] at hElement
      have hDocument := IsDocument.intro (hOuter before hBefore) hElement (hOuter after hAfter)
      rw [Item.tokens, List.append_assoc, List.cons_append, List.append_assoc,
        List.singleton_append, Token.merge_append_of_not_isText id,
        Token.merge_append_of_not_isText id, List.map_append, List.map_cons, List.map_append,
        List.map_cons]
      simpa using! hDocument

/-- The second prolog is the first one without its byte order mark, whatever other text follows. -/
structure Unmarked (prolog prolog' : List Token) : Prop where
  outer : ∀ token ∈ prolog', token.IsOuter ∧ token.Complete
  source : ∀ rest : List Char, rest.head? ≠ some Lexeme.byteOrderMark →
    Lexeme.withoutMark (prolog.flatMap Token.source ++ rest) = prolog'.flatMap Token.source ++ rest

/-- A byte order mark at the start belongs to the prolog, which loses nothing else with it. -/
theorem exists_unmarked {prolog : List Token}
    (h : ∀ token ∈ prolog, token.IsOuter ∧ token.Complete) :
    ∃ prolog', Unmarked prolog prolog' := by
  induction prolog with
  | nil => exact ⟨[], by simp, fun rest hRest => Lexeme.withoutMark_eq_self hRest⟩
  | cons token prolog ih =>
      have hProlog : ∀ t ∈ prolog, t.IsOuter ∧ t.Complete :=
        fun t ht => h t (List.mem_cons_of_mem token ht)
      obtain ⟨hOuter, hComplete⟩ := h token List.mem_cons_self
      cases token with
      | text run =>
          cases run with
          | nil =>
              obtain ⟨prolog', hUnmarked⟩ := ih hProlog
              exact ⟨prolog', hUnmarked.outer, hUnmarked.source⟩
          | cons c cs =>
              by_cases hMark : c = Lexeme.byteOrderMark
              · have hTail : (Token.text cs).Complete := fun hMem =>
                  hComplete (List.mem_cons_of_mem c hMem)
                refine ⟨.text cs :: prolog, ?_, fun rest _ => ?_⟩
                · intro t ht
                  rcases List.mem_cons.1 ht with rfl | ht
                  · exact ⟨trivial, hTail⟩
                  · exact hProlog t ht
                · simp [Lexeme.withoutMark, Token.source, hMark]
              · exact ⟨.text (c :: cs) :: prolog, h,
                  fun rest _ => by simp [Lexeme.withoutMark, Token.source, hMark]⟩
      | startTag | emptyTag | endTag | broken => exact hOuter.elim
      | comment | cdata | instruction | doctype => exact ⟨_, h, fun _ _ => rfl⟩

theorem Item.source_tokens {item : Item} (h : item.IsElement) :
    ∃ rest, item.tokens.flatMap Token.source = '<' :: rest := by
  cases item <;> first | exact h.elim | exact ⟨_, rfl⟩

theorem Document.exists_unmarked (document : Document) :
    ∃ prolog, Unmarked document.prolog prolog :=
  Written.exists_unmarked fun token hToken =>
    document.isOuter token (List.mem_append_left document.epilog hToken)

/-- The tokens of a written document come back with their text runs joined, where `prolog` is what
the prolog is without a byte order mark. -/
theorem Document.cut_text (document : Document) {prolog : List Token}
    (hProlog : Unmarked document.prolog prolog) :
    Token.cut (Lexeme.withoutMark document.text.toList) =
      Token.merge (prolog ++ document.root.tokens ++ document.epilog) := by
  obtain ⟨rest, hSource⟩ := Item.source_tokens document.isElement
  have hText : Lexeme.withoutMark document.text.toList =
      (prolog ++ document.root.tokens ++ document.epilog).flatMap Token.source := by
    have hRest := hProlog.source ('<' :: (rest ++ document.epilog.flatMap Token.source))
      (by simp; decide)
    rw [Document.text, String.toList_ofList, Document.tokens]
    simpa [hSource] using hRest
  have hComplete : ∀ token ∈ prolog ++ document.root.tokens ++ document.epilog,
      token.Complete := by
    intro token hToken
    rcases List.mem_append.1 hToken with hToken | hToken
    · rcases List.mem_append.1 hToken with hToken | hToken
      · exact (hProlog.outer token hToken).2
      · exact document.root.complete token hToken
    · exact (document.isOuter token (List.mem_append_right document.prolog hToken)).2
  rw [hText, Token.cut_flatMap_source hComplete]

/-- The tokens of a written document come back with their text runs joined, and without a byte order
mark. -/
theorem Document.exists_cut_text (document : Document) :
    ∃ prolog : List Token, (∀ token ∈ prolog, token.IsOuter ∧ token.Complete) ∧
      Token.cut (Lexeme.withoutMark document.text.toList) =
        Token.merge (prolog ++ document.root.tokens ++ document.epilog) := by
  obtain ⟨prolog, hProlog⟩ := document.exists_unmarked
  exact ⟨prolog, hProlog.outer, document.cut_text hProlog⟩

/-- The lexemes of a written document are those of its tree, up to their lines. -/
theorem Document.isDocument_ofText (document : Document)
    (hSound : ∀ tag ∈ document.root.tags, tag.Sound)
    (hHeight : document.root.height ≤ maxDepth) :
    ∃ root, IsDocument (Lexeme.ofText document.text) root ∧
      root.withoutLines = document.tree.withoutLines := by
  obtain ⟨prolog, hProlog, hCut⟩ := document.exists_cut_text
  have hTokens := Lexeme.map_token_ofText document.text
  rw [hCut] at hTokens
  have hDocument := Item.isElement document.isElement hSound hHeight prolog document.epilog
    (fun token hToken => (hProlog token hToken).1)
    (fun token hToken => (document.isOuter token (List.mem_append_right _ hToken)).1)
  apply hDocument.relined
  rw [hTokens, List.map_map]
  exact (List.map_id _).symm

theorem Attribute.resolved_eq_plain {attr : Attribute} (h : ':' ∉ attr.key.chars)
    (scope : Scope) : attr.resolved scope = attr.plain := by
  simp [resolved, plain, Scope.namespaceOf?, localName, splitName_of_colon_not_mem h]

theorem Tag.sound_of_unprefixed {tag : Tag} (h : ∀ attr ∈ tag.attributes, ':' ∉ attr.key.chars)
    (hDistinct : (tag.attributes.map fun attr => attr.key.chars).Nodup) : tag.Sound := by
  refine ⟨hDistinct, fun attr hAttr binding hBinding => ?_⟩
  have hNone : attr.binding? = none := by
    simp [Attribute.binding?, Scope.declared?, splitName_of_colon_not_mem (h attr hAttr)]
  rw [hNone] at hBinding
  cases hBinding

theorem Tag.element_eq_plain {tag : Tag} (h : ∀ attr ∈ tag.attributes, ':' ∉ attr.key.chars)
    (scope : Scope) : tag.element scope = tag.plainElement := by
  funext text children
  have hAttributes : tag.attributes.map (Attribute.resolved (tag.scopeIn scope)) =
      tag.attributes.map Attribute.plain :=
    List.map_congr_left fun attr hAttr => Attribute.resolved_eq_plain (h attr hAttr) _
  rw [element, plainElement, hAttributes]

mutual

theorem Item.elements_eq_plain : (item : Item) → (scope : Scope) →
    (∀ tag ∈ item.tags, ∀ attr ∈ tag.attributes, ':' ∉ attr.key.chars) →
    item.elements scope = item.plainElements
  | .text _, _, _ | .cdata _ _, _, _ | .remark _ _ _, _, _ => rfl
  | .empty tag, scope, h => by
      rw [elements, Tag.element_eq_plain (h tag List.mem_cons_self), plainElements]
  | .element tag items _, scope, h => by
      have hBelow := Item.elementsAll_eq_plain items (tag.scopeIn scope)
        fun t ht => h t (List.mem_cons_of_mem tag ht)
      rw [elements, Tag.element_eq_plain (h tag List.mem_cons_self), hBelow, plainElements]

theorem Item.elementsAll_eq_plain : (items : List Item) → (scope : Scope) →
    (∀ tag ∈ Item.tags.tagsAll items, ∀ attr ∈ tag.attributes, ':' ∉ attr.key.chars) →
    Item.elements.elementsAll scope items = Item.plainElements.plainElementsAll items
  | [], _, _ => rfl
  | item :: items, scope, h => by
      rw [Item.elements.elementsAll, Item.plainElements.plainElementsAll,
        Item.elements_eq_plain item scope fun t ht => h t (List.mem_append_left _ ht),
        Item.elementsAll_eq_plain items scope fun t ht => h t (List.mem_append_right _ ht)]

end

/-- Every way of writing a tree down is read back as the tree, with the lines that the elements
then stand on. -/
theorem parse_text_of_unprefixed (document : Document)
    (hUnprefixed : ∀ tag ∈ document.root.tags, ∀ attr ∈ tag.attributes, ':' ∉ attr.key.chars)
    (hDistinct : ∀ tag ∈ document.root.tags,
      (tag.attributes.map fun attr => attr.key.chars).Nodup)
    (hHeight : document.root.height ≤ maxDepth) :
    ∃ root, Document.parse document.text = .ok root ∧
      root.withoutLines = document.plainTree.withoutLines := by
  have hSound : ∀ tag ∈ document.root.tags, tag.Sound := fun tag hTag =>
    Tag.sound_of_unprefixed (hUnprefixed tag hTag) (hDistinct tag hTag)
  obtain ⟨root, hDocument, hSame⟩ := document.isDocument_ofText hSound hHeight
  refine ⟨root, hDocument.ofLexemes, ?_⟩
  have hPlain := document.root.elements_eq_plain .reserved hUnprefixed
  simp only [hSame, Document.tree, Document.plainTree, hPlain]

def sampleTag : Tag where
  name := ⟨some ⟨['a'], by decide, by decide, by simp⟩, ⟨['r'], by decide, by decide, by simp⟩⟩
  attributes :=
    [{ gap := ⟨['\n', ' '], by decide⟩
       gapNonempty := by decide
       key := ⟨['k'], by decide, by decide⟩
       before := .blank
       after := .nothing
       quote := .single
       value := [.raw '>' (by decide), .reference ['l', 't'] '<' .lt] }]
  space := ⟨['\t'], by decide⟩

theorem complete_sample_cdata : (Token.cdata ['<', ']', ']']).Complete := by
  show ¬ [']', ']', '>'] <:+: ['<', ']', ']']
  decide

theorem complete_sample_comment : (Token.comment ['-', '>']).Complete := by
  show ¬ ['-', '-', '>'] <:+: ['-', '>']
  decide

def sampleDocument : Document where
  prolog := [.comment ['-', '>'], .text ['\n']]
  root := .element sampleTag
    [.text [.raw ']' (by decide), .reference ['a', 'm', 'p'] '&' .amp],
      .cdata ['<', ']', ']'] complete_sample_cdata,
      .remark (.comment ['-', '>']) trivial complete_sample_comment, .empty sampleTag]
    .blank
  epilog := []
  isElement := trivial
  isOuter := by
    have hText : (Token.text ['\n']).Complete := by
      show '<' ∉ ['\n']
      decide
    simpa [Token.IsOuter, complete_sample_comment] using hText

theorem parse_text_of_sample :
    sampleDocument.text =
        "<!--->-->\n<a:r\n k ='>&lt;'\t>]&amp;<![CDATA[<]]]]><!--->--><a:r\n k ='>&lt;'\t/></a:r >" ∧
      sampleDocument.plainTree =
        ⟨"r", [⟨none, "k", "><"⟩], [⟨"r", [⟨none, "k", "><"⟩], [], "", 0⟩], "]&<]]", 0⟩ ∧
      ∃ root, Xml.Document.parse sampleDocument.text = .ok root ∧
        root.withoutLines = sampleDocument.plainTree.withoutLines := by
  refine ⟨by rfl, by rfl, parse_text_of_unprefixed sampleDocument ?_ ?_ ?_⟩
  · decide
  · decide
  · decide

end Written
end ContractDoc.Xml

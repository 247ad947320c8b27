import ContractDoc.Proofs.Xml.Depth
import ContractDoc.Proofs.Xml.RoundTrip

/-! # Which written documents are accepted

A written document is accepted exactly if no key stands twice in a tag, no declaration binds what is
reserved, and its tree is not higher than the limit: everything else that can go wrong cannot be
written down.
-/

namespace ContractDoc.Xml

/-- Every tag that is taken in opens an element. -/
theorem exists_opens_of_foldlM {lexemes : List Lexeme} {builder final : Builder}
    (h : lexemes.foldlM Builder.step builder = .ok final) {lexeme : Lexeme} {content : List Char}
    (hLexeme : lexeme ∈ lexemes)
    (hTag : lexeme.token = .startTag content ∨ lexeme.token = .emptyTag content) :
    ∃ scope depth element, Opens scope depth content lexeme.line element := by
  obtain ⟨before, after, rfl⟩ := List.append_of_mem hLexeme
  obtain ⟨reached, -, hFrom⟩ := Outcome.foldlM_append_eq_ok_iff.1 h
  obtain ⟨next, hStep, -⟩ := Outcome.foldlM_cons_eq_ok_iff.1 hFrom
  obtain ⟨token, line, endLine⟩ := lexeme
  rcases hTag with rfl | rfl <;>
  · obtain ⟨element, hBegin, -⟩ := Outcome.bind_eq_ok_iff.1 hStep
    exact ⟨_, _, element, Builder.begin_eq_ok_iff.1 hBegin⟩

namespace Written

theorem admits_of_declare {scope next : Scope} {position : Nat} {attrs : List Attribute}
    (h : scope.declare (rawFrom position attrs) = .ok next) :
    ∀ attr ∈ attrs, ∀ binding ∈ attr.binding?, Scope.admits binding.1 binding.2 = true := by
  induction attrs generalizing scope position with
  | nil => exact fun _ h => absurd h List.not_mem_nil
  | cons first rest ih =>
      obtain ⟨middle, hFirst, hRest⟩ := Outcome.foldlM_cons_eq_ok_iff.1 h
      refine List.forall_mem_cons.2 ⟨fun binding hBinding => ?_, ih hRest⟩
      obtain ⟨bound, hBound, rfl⟩ := Option.map_eq_some_iff.1 hBinding
      rw [Scope.declareOne, show (first.raw position).key = first.key.chars from rfl, hBound,
        show (first.raw position).value = .ok first.source from rfl] at hFirst
      dsimp only at hFirst
      split at hFirst
      · assumption
      · cases hFirst

theorem distinct_of_foldlM_add {scope : Scope} {position : Nat} {attrs : List Attribute}
    {attributes final : AttributeList}
    (h : (rawFrom position attrs).foldlM (AttributeList.add scope) attributes = .ok final) :
    (attrs.map fun attr => attr.key.chars).Nodup ∧
      ∀ raw ∈ attributes.earlier, ∀ attr ∈ attrs, raw.key ≠ attr.key.chars := by
  induction attrs generalizing attributes position with
  | nil => simp
  | cons first rest ih =>
      obtain ⟨next, hFirst, hRest⟩ := Outcome.foldlM_cons_eq_ok_iff.1 h
      obtain ⟨hDistinct, hNew⟩ := ih hRest
      have hNext : next.earlier = first.raw position :: attributes.earlier ∧
          ∀ raw ∈ attributes.earlier, raw.key ≠ first.key.chars := by
        unfold AttributeList.add at hFirst
        split at hFirst
        · cases hFirst
        · next hFind =>
            simp only [List.find?_eq_none, beq_iff_eq] at hFind
            split at hFirst
            · cases hFirst
            · split at hFirst
              · cases hFirst
              · obtain rfl := Except.ok.inj hFirst
                exact ⟨rfl, hFind⟩
      rw [hNext.1] at hNew
      obtain ⟨hFirstNew, hEarlier⟩ := List.forall_mem_cons.1 hNew
      constructor
      · rw [List.map_cons, List.nodup_cons, List.mem_map]
        refine ⟨?_, hDistinct⟩
        rintro ⟨attr, hAttr, hKey⟩
        exact hFirstNew attr hAttr hKey.symm
      · intro raw hRaw
        exact List.forall_mem_cons.2 ⟨hNext.2 raw hRaw, hEarlier raw hRaw⟩

theorem Tag.sound_of_opens {scope : Scope} {depth : Nat} {line : UInt32} {tag : Tag}
    {element : OpenElement}
    (h : Opens scope depth tag.content line element) : tag.Sound := by
  have hDeclares := h.declares
  have hResolves := h.resolves
  rw [tag.ofContent_content] at hDeclares hResolves
  obtain ⟨attributes, hFold, -⟩ := Outcome.bind_eq_ok_iff.1 hResolves
  exact ⟨(distinct_of_foldlM_add hFold).1, admits_of_declare hDeclares⟩

/-- The token is the start tag or the empty tag of an element with that tag. -/
def Tag.WrittenAs (tag : Tag) (token : Token) : Prop :=
  token = .startTag tag.content ∨ token = .emptyTag tag.content

mutual

theorem Item.exists_writtenAs : (item : Item) → ∀ tag ∈ item.tags,
    ∃ token ∈ item.tokens, tag.WrittenAs token
  | .text _, _, hTag | .cdata _ _, _, hTag | .remark _ _ _, _, hTag =>
      absurd hTag List.not_mem_nil
  | .empty _, tag, hTag => by
      obtain rfl := List.mem_singleton.1 hTag
      exact ⟨_, List.mem_singleton_self _, .inr rfl⟩
  | .element first items _, tag, hTag => by
      rcases List.mem_cons.1 hTag with rfl | hTag
      · exact ⟨_, List.mem_cons_self, .inl rfl⟩
      · obtain ⟨token, hToken, hWritten⟩ := Item.exists_writtenAs_tagsAll items tag hTag
        exact ⟨token, List.mem_cons_of_mem _ (List.mem_append_left _ hToken), hWritten⟩

theorem Item.exists_writtenAs_tagsAll : (items : List Item) → ∀ tag ∈ Item.tags.tagsAll items,
    ∃ token ∈ Item.tokens.tokensAll items, tag.WrittenAs token
  | [], _, hTag => absurd hTag List.not_mem_nil
  | item :: items, tag, hTag => by
      rcases List.mem_append.1 hTag with hTag | hTag
      · obtain ⟨token, hToken, hWritten⟩ := Item.exists_writtenAs item tag hTag
        exact ⟨token, List.mem_append_left _ hToken, hWritten⟩
      · obtain ⟨token, hToken, hWritten⟩ := Item.exists_writtenAs_tagsAll items tag hTag
        exact ⟨token, List.mem_append_right _ hToken, hWritten⟩

end

mutual

/-- The tags of an item that is written down are all closed in it. -/
theorem Item.foldl_hold : (item : Item) → (held : List (List Char)) →
    item.tokens.foldl Token.hold held = held
  | .text _, _ | .cdata _ _, _ | .empty _, _ => rfl
  | .remark token isRemark _, held => by
      cases token <;> first | rfl | exact isRemark.elim
  | .element tag items stop, held => by
      rw [Item.tokens, List.foldl_cons, List.foldl_append, Item.foldl_hold_tokensAll items]
      rfl

theorem Item.foldl_hold_tokensAll : (items : List Item) → (held : List (List Char)) →
    (Item.tokens.tokensAll items).foldl Token.hold held = held
  | [], _ => rfl
  | item :: items, held => by
      rw [Item.tokens.tokensAll, List.foldl_append, Item.foldl_hold item,
        Item.foldl_hold_tokensAll items]

end

/-- Among the tokens is one that begins an element with so many more tags held open around it. -/
def HasTagAt (depth : Nat) (tokens : List Token) : Prop :=
  ∃ before tag after, tokens = before ++ tag :: after ∧ tag.beginsElement ∧
    ∀ held : List (List Char), (before.foldl Token.hold held).length = held.length + depth

theorem HasTagAt.append {depth : Nat} {tokens : List Token} (h : HasTagAt depth tokens)
    (back : List Token) : HasTagAt depth (tokens ++ back) := by
  obtain ⟨before, tag, after, rfl, hTag, hHeld⟩ := h
  exact ⟨before, tag, after ++ back, by simp, hTag, hHeld⟩

theorem HasTagAt.prepend {depth n : Nat} {front tokens : List Token} (h : HasTagAt depth tokens)
    (hFront : ∀ held : List (List Char), (front.foldl Token.hold held).length = held.length + n) :
    HasTagAt (n + depth) (front ++ tokens) := by
  obtain ⟨before, tag, after, rfl, hTag, hHeld⟩ := h
  refine ⟨front ++ before, tag, after, (List.append_assoc ..).symm, hTag, fun held => ?_⟩
  rw [List.foldl_append, hHeld, hFront, Nat.add_assoc]

mutual

/-- An item that is so high has a tag so deep. -/
theorem Item.hasTagAt : (item : Item) → ∀ depth < item.height, HasTagAt depth item.tokens
  | .text _, _, h | .cdata _ _, _, h | .remark _ _ _, _, h => absurd h (Nat.not_lt_zero _)
  | .empty tag, depth, h => by
      obtain rfl := Nat.lt_one_iff.1 h
      exact ⟨[], _, [], rfl, rfl, fun _ => rfl⟩
  | .element tag items stop, depth, h => by
      cases depth with
      | zero => exact ⟨[], _, _, rfl, rfl, fun _ => rfl⟩
      | succ depth =>
          have hLess : depth < Item.height.heightAll items := by
            rw [Item.height] at h
            omega
          have hBelow := (Item.hasTagAt_tokensAll items depth hLess).append
            [.endTag (tag.name.chars ++ stop.chars)]
          have hStart : ∀ held : List (List Char),
              ([Token.startTag tag.content].foldl Token.hold held).length = held.length + 1 :=
            fun _ => rfl
          have hAll := hBelow.prepend hStart
          rwa [Nat.add_comm] at hAll

theorem Item.hasTagAt_tokensAll : (items : List Item) →
    ∀ depth < Item.height.heightAll items, HasTagAt depth (Item.tokens.tokensAll items)
  | [], _, h => absurd h (Nat.not_lt_zero _)
  | item :: items, depth, h => by
      rcases lt_max_iff.1 h with hFirst | hRest
      · exact (Item.hasTagAt item depth hFirst).append _
      · have hItem : ∀ held : List (List Char),
            (item.tokens.foldl Token.hold held).length = held.length + 0 :=
          fun held => congrArg List.length (item.foldl_hold held)
        have hAll := (Item.hasTagAt_tokensAll items depth hRest).prepend hItem
        rwa [Nat.zero_add] at hAll

end

theorem foldl_hold_joinText (run : List Char) (tokens : List Token) (held : List (List Char)) :
    (Token.joinText run tokens).foldl Token.hold held = tokens.foldl Token.hold held := by
  unfold Token.joinText
  split
  · rfl
  · split <;> rfl

/-- Joining text runs does not change which tags are open. -/
theorem foldl_hold_merge (tokens : List Token) (held : List (List Char)) :
    (Token.merge tokens).foldl Token.hold held = tokens.foldl Token.hold held := by
  induction tokens generalizing held with
  | nil => rfl
  | cons token tokens ih =>
      cases token with
      | text run => rw [Token.merge, foldl_hold_joinText, ih]; rfl
      | _ => rw [Token.merge_cons_of_not_isText id, List.foldl_cons, ih, List.foldl_cons]

theorem foldl_hold_outer {tokens : List Token} (h : ∀ token ∈ tokens, token.IsOuter)
    (held : List (List Char)) : tokens.foldl Token.hold held = held := by
  induction tokens with
  | nil => rfl
  | cons token tokens ih =>
      have hFirst := h token List.mem_cons_self
      rw [List.foldl_cons]
      cases token <;> first
        | exact ih fun t ht => h t (List.mem_cons_of_mem _ ht)
        | exact hFirst.elim

theorem not_isText_of_beginsElement {token : Token} (h : token.beginsElement) :
    ¬ token.IsText := by
  cases token <;> first | exact id | exact absurd h Bool.false_ne_true

theorem mem_merge_of_not_isText {token : Token} {tokens : List Token} (hMem : token ∈ tokens)
    (h : ¬ token.IsText) : token ∈ Token.merge tokens := by
  obtain ⟨before, after, rfl⟩ := List.append_of_mem hMem
  rw [Token.merge_append_of_not_isText h]
  exact List.mem_append_right _ List.mem_cons_self

variable {document : Document} {root : Element}

theorem Document.sound_of_parse (h : Xml.Document.parse document.text = .ok root) :
    ∀ tag ∈ document.root.tags, tag.Sound := by
  intro tag hTag
  obtain ⟨final, hFold, -⟩ := Xml.Document.exists_builder h
  obtain ⟨prolog, -, hCut⟩ := document.exists_cut_text
  obtain ⟨token, hToken, hWritten⟩ := document.root.exists_writtenAs tag hTag
  have hMarkup : ¬ token.IsText := by
    rcases hWritten with rfl | rfl <;> exact id
  have hMem : token ∈ (Lexeme.ofText document.text).map Lexeme.token := by
    rw [Lexeme.map_token_ofText, hCut]
    apply mem_merge_of_not_isText _ hMarkup
    exact List.mem_append_left _ (List.mem_append_right _ hToken)
  obtain ⟨lexeme, hLexeme, rfl⟩ := List.mem_map.1 hMem
  obtain ⟨scope, depth, element, hOpens⟩ := exists_opens_of_foldlM hFold hLexeme hWritten
  exact Tag.sound_of_opens hOpens

theorem Document.height_le_of_parse (h : Xml.Document.parse document.text = .ok root) :
    document.root.height ≤ maxDepth := by
  by_contra hHigh
  obtain ⟨final, hFold, -⟩ := Xml.Document.exists_builder h
  obtain ⟨prolog, hProlog, hCut⟩ := document.exists_cut_text
  -- the innermost tag is met with all tags around it open
  obtain ⟨before, tag, after, hTokens, hTag, hHeld⟩ :=
    document.root.hasTagAt maxDepth (Nat.lt_of_not_le hHigh)
  have hSplit : (Lexeme.ofText document.text).map Lexeme.token =
      Token.merge (prolog ++ before) ++ tag :: Token.merge (after ++ document.epilog) := by
    rw [Lexeme.map_token_ofText, hCut, hTokens,
      ← Token.merge_append_of_not_isText (not_isText_of_beginsElement hTag)]
    simp
  obtain ⟨front, rest, hLexemes, hFront, hRest⟩ := List.map_eq_append_iff.1 hSplit
  obtain ⟨lexeme, back, rfl, rfl, -⟩ := List.map_eq_cons_iff.1 hRest
  rw [hLexemes] at hFold
  obtain ⟨reached, hReached, hFrom⟩ := Outcome.foldlM_append_eq_ok_iff.1 hFold
  obtain ⟨next, hStep, -⟩ := Outcome.foldlM_cons_eq_ok_iff.1 hFrom
  have hOpened := congrArg List.length (opened_foldlM hReached)
  have hOuter := foldl_hold_outer (fun token hToken => (hProlog token hToken).1) []
  rw [hFront, Token.heldOpen, foldl_hold_merge, List.foldl_append, hOuter, hHeld, List.length_map,
    List.length_nil, Nat.zero_add] at hOpened
  exact Nat.lt_irrefl _ (hOpened ▸ Builder.length_opened_lt hTag hStep)

/-- Exactly the written documents with sound tags and not too many levels are accepted. -/
theorem Document.exists_parse_iff :
    (∃ root, Xml.Document.parse document.text = .ok root) ↔
      (∀ tag ∈ document.root.tags, tag.Sound) ∧ document.root.height ≤ maxDepth := by
  constructor
  · rintro ⟨root, h⟩
    exact ⟨sound_of_parse h, height_le_of_parse h⟩
  · rintro ⟨hSound, hHeight⟩
    obtain ⟨root, hDocument, -⟩ := document.isDocument_ofText hSound hHeight
    exact ⟨root, hDocument.ofLexemes⟩

/-- Lines apart, an accepted document is read as the tree that it stands for. -/
theorem Document.withoutLines_of_parse (h : Xml.Document.parse document.text = .ok root) :
    root.withoutLines = document.tree.withoutLines := by
  obtain ⟨root', hDocument, hSame⟩ :=
    document.isDocument_ofText (sound_of_parse h) (height_le_of_parse h)
  obtain rfl := Except.ok.inj (h.symm.trans hDocument.ofLexemes)
  exact hSame

end Written
end ContractDoc.Xml

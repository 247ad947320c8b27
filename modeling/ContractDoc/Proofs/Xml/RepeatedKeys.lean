import ContractDoc.Proofs.Xml.Namespace
import ContractDoc.Proofs.Xml.Outline
import Mathlib.Data.List.Nodup

/-! # Keys that are written twice

In a tag no key may stand twice, in whatever way the tag is written down. A document is refused for
the first tag that breaks this rule, with the positions of the first key that repeats an earlier
one. Up to that tag the document is read like one whose tags have lost their repeated keys.
-/

namespace ContractDoc.Xml

namespace Written

open Text (byteLength)

namespace Tag

/-- No two attributes have the same key. Keys are compared with their prefixes. -/
def HasDistinctKeys (tag : Tag) : Prop := (tag.attributes.map fun attr => attr.key.chars).Nodup

instance (tag : Tag) : Decidable tag.HasDistinctKeys :=
  inferInstanceAs (Decidable (List.Nodup _))

/-- Namespaces are declared for no reserved prefix, and the reserved ones for no other. -/
def IsAdmitted (tag : Tag) : Prop :=
  ∀ attr ∈ tag.attributes, ∀ binding ∈ attr.binding?, Scope.admits binding.1 binding.2 = true

/-- The byte position of the key of an attribute in the content of a tag, where other attributes
stand before it. -/
def keyPosition (tag : Tag) (before : List Attribute) (attr : Attribute) : Nat :=
  byteLength tag.name.chars + byteLength (before.flatMap Attribute.chars) +
    byteLength attr.gap.chars

/-- The first key that an earlier attribute has as well, by the positions of both keys. -/
inductive Repeats (tag : Tag) : Nat → Nat → Prop
  | intro {front middle back : List Attribute} {known repeated : Attribute}
      (hAttributes : tag.attributes = front ++ known :: middle ++ repeated :: back)
      (hKey : repeated.key.chars = known.key.chars)
      (hDistinct : ((front ++ known :: middle).map fun attr => attr.key.chars).Nodup) :
      Repeats tag (tag.keyPosition front known)
        (tag.keyPosition (front ++ known :: middle) repeated)

theorem exists_repeats {tag : Tag} (h : ¬ tag.HasDistinctKeys) :
    ∃ first second, tag.Repeats first second := by
  obtain ⟨name, attributes, space⟩ := tag
  rw [HasDistinctKeys] at h
  dsimp only at h
  -- the shortest list of attributes at the front that has the key of the next attribute
  suffices hSplit : ∃ front known middle repeated back,
      attributes = front ++ known :: middle ++ repeated :: back ∧
        repeated.key.chars = known.key.chars ∧
          ((front ++ known :: middle).map fun attr => attr.key.chars).Nodup by
    obtain ⟨front, known, middle, repeated, back, hAttributes, hKey, hDistinct⟩ := hSplit
    exact ⟨_, _, .intro hAttributes hKey hDistinct⟩
  induction attributes using List.reverseRecOn with
  | nil => exact absurd List.nodup_nil h
  | append_singleton init last ih =>
      by_cases hInit : (init.map fun attr => attr.key.chars).Nodup
      · have hMem : last.key.chars ∈ init.map fun attr => attr.key.chars := by
          by_contra hNew
          rw [List.map_append, List.map_singleton, ← List.concat_eq_append] at h
          exact h (hInit.concat hNew)
        obtain ⟨known, hKnown, hKey⟩ := List.mem_map.1 hMem
        obtain ⟨front, middle, rfl⟩ := List.append_of_mem hKnown
        exact ⟨front, known, middle, last, [], rfl, hKey.symm, hInit⟩
      · obtain ⟨front, known, middle, repeated, back, rfl, hKey, hDistinct⟩ := ih hInit
        exact ⟨front, known, middle, repeated, back ++ [last], by simp, hKey, hDistinct⟩

end Tag

theorem map_key_rawFrom (position : Nat) (attrs : List Attribute) :
    (rawFrom position attrs).map RawAttribute.key = attrs.map fun attr => attr.key.chars := by
  induction attrs generalizing position with
  | nil => rfl
  | cons attr attrs ih => rw [rawFrom, List.map_cons, ih, List.map_cons, Attribute.raw]

theorem rawFrom_append (position : Nat) (attrs more : List Attribute) :
    rawFrom position (attrs ++ more) =
      rawFrom position attrs ++
        rawFrom (position + byteLength (attrs.flatMap Attribute.chars)) more := by
  induction attrs generalizing position with
  | nil => rfl
  | cons attr attrs ih =>
      rw [List.cons_append, rawFrom, ih, rawFrom, List.flatMap_cons, Text.byteLength_append,
        Nat.add_assoc, List.cons_append]

/-- Among attributes with distinct keys, each is found by its key. -/
theorem find?_reverse_rawFrom (position : Nat) {front middle : List Attribute} {attr : Attribute}
    (hDistinct : ((front ++ attr :: middle).map fun attr => attr.key.chars).Nodup) :
    (rawFrom position (front ++ attr :: middle)).reverse.find?
        (fun raw => raw.key == attr.key.chars) =
      some (attr.raw (position + byteLength (front.flatMap Attribute.chars))) := by
  rw [List.map_append, List.map_cons, List.nodup_append, List.nodup_cons] at hDistinct
  have hMiddle (p : Nat) : ∀ raw ∈ (rawFrom p middle).reverse, raw.key ≠ attr.key.chars := by
    intro raw hRaw hKey
    have hMem := List.mem_map_of_mem (f := RawAttribute.key) (List.mem_reverse.1 hRaw)
    rw [map_key_rawFrom, hKey] at hMem
    exact hDistinct.2.1.1 hMem
  rw [rawFrom_append, rawFrom, List.reverse_append, List.reverse_cons, List.append_assoc,
    List.find?_append, List.find?_eq_none.2 (by simpa using hMiddle _)]
  simp [Attribute.raw]

/-- The run through the attributes ends at the first key that repeats an earlier one. -/
theorem foldlM_add_of_repeats (scope : Scope) {tag : Tag} {first second : Nat}
    (h : tag.Repeats first second) :
    (rawFrom (byteLength tag.name.chars) tag.attributes).foldlM (AttributeList.add scope)
      ⟨[], []⟩ = .error (.badAttribute ⟨second, .duplicated first⟩) := by
  cases h with
  | @intro front middle back known repeated hAttributes hKey hDistinct =>
      have hFind := find?_reverse_rawFrom (byteLength tag.name.chars) hDistinct
      rw [← hKey] at hFind
      rw [hAttributes, rawFrom_append, List.foldlM_append,
        foldlM_add_rawFrom scope _ [] hDistinct (by simp), Outcome.ok_bind, List.append_nil,
        rawFrom, List.foldlM_cons, AttributeList.add]
      simp only [Attribute.raw, hFind]
      rfl

theorem Tag.begin_of_repeats {tag : Tag} {first second : Nat} (h : tag.Repeats first second)
    (hAdmitted : tag.IsAdmitted) {builder : Builder} (hRoom : builder.opened.length < maxDepth)
    (line endLine : UInt32) :
    builder.begin tag.content line endLine =
      .error (.malformed (.badAttribute ⟨second, .duplicated first⟩) line) := by
  rw [Builder.begin, tag.ofContent_content]
  simp only [declare_rawFrom _ _ hAdmitted, Outcome.mapError_ok, Outcome.ok_bind,
    if_neg (Nat.not_le_of_lt hRoom), OpenElement.ofTag, RawTag.resolve, foldlM_add_of_repeats _ h]
  rfl

theorem Tag.step_of_repeats {tag : Tag} {first second : Nat} (h : tag.Repeats first second)
    (hAdmitted : tag.IsAdmitted) {builder : Builder} (hRoom : builder.opened.length < maxDepth)
    {token : Token} (hWritten : tag.WrittenAs token) (line endLine : UInt32) :
    builder.step ⟨token, line, endLine⟩ =
      .error (.malformed (.badAttribute ⟨second, .duplicated first⟩) line) := by
  rcases hWritten with rfl | rfl <;>
  · rw [Builder.step]
    simp only [tag.begin_of_repeats h hAdmitted hRoom]
    rfl

theorem Tag.WrittenAs.beginsElement {tag : Tag} {token : Token} (h : tag.WrittenAs token) :
    token.beginsElement = true := by
  rcases h with rfl | rfl <;> rfl

/-- The item with other tags. The end tags keep to the start tags. -/
def Item.mapTags (f : Tag → Tag) : Item → Item
  | empty tag => .empty (f tag)
  | element tag items stop => .element (f tag) (mapTagsAll f items) stop
  | item => item
where
  mapTagsAll (f : Tag → Tag) : List Item → List Item
    | [] => []
    | item :: items => item.mapTags f :: mapTagsAll f items

open Item.mapTags (mapTagsAll)

variable {f : Tag → Tag}

theorem Item.isElement_mapTags {item : Item} (h : item.IsElement) :
    (item.mapTags f).IsElement := by
  cases item <;> first | exact h.elim | exact trivial

mutual

theorem Item.tags_mapTags : (item : Item) → (item.mapTags f).tags = item.tags.map f
  | .text _ | .cdata _ _ | .remark _ _ _ | .empty _ => rfl
  | .element tag items _ => by
      rw [Item.mapTags, Item.tags, Item.tagsAll_mapTags items, Item.tags, List.map_cons]

theorem Item.tagsAll_mapTags : (items : List Item) →
    Item.tags.tagsAll (mapTagsAll f items) = (Item.tags.tagsAll items).map f
  | [] => rfl
  | item :: items => by
      rw [mapTagsAll, Item.tags.tagsAll, Item.tags_mapTags item, Item.tagsAll_mapTags items,
        Item.tags.tagsAll, List.map_append]

end

mutual

theorem Item.height_mapTags : (item : Item) → (item.mapTags f).height = item.height
  | .text _ | .cdata _ _ | .remark _ _ _ | .empty _ => rfl
  | .element tag items _ => by
      rw [Item.mapTags, Item.height, Item.heightAll_mapTags items, Item.height]

theorem Item.heightAll_mapTags : (items : List Item) →
    Item.height.heightAll (mapTagsAll f items) = Item.height.heightAll items
  | [] => rfl
  | item :: items => by
      rw [mapTagsAll, Item.height.heightAll, Item.height_mapTags item,
        Item.heightAll_mapTags items, Item.height.heightAll]

end

mutual

theorem Item.mapTags_eq_self : (item : Item) → (∀ tag ∈ item.tags, f tag = tag) →
    item.mapTags f = item
  | .text _, _ | .cdata _ _, _ | .remark _ _ _, _ => rfl
  | .empty tag, h => by rw [Item.mapTags, h tag List.mem_cons_self]
  | .element tag items _, h => by
      rw [Item.mapTags, h tag List.mem_cons_self,
        Item.mapTagsAll_eq_self items fun t ht => h t (List.mem_cons_of_mem tag ht)]

theorem Item.mapTagsAll_eq_self : (items : List Item) →
    (∀ tag ∈ Item.tags.tagsAll items, f tag = tag) → mapTagsAll f items = items
  | [], _ => rfl
  | item :: items, h => by
      rw [mapTagsAll, Item.mapTags_eq_self item fun t ht => h t (List.mem_append_left _ ht),
        Item.mapTagsAll_eq_self items fun t ht => h t (List.mem_append_right _ ht)]

end

mutual

theorem Item.countP_tokens : (item : Item) →
    item.tokens.countP Token.beginsElement = item.tags.length
  | .text _ | .cdata _ _ | .empty _ => rfl
  | .remark token isRemark _ => by
      cases token <;> first | rfl | exact isRemark.elim
  | .element tag items stop => by
      rw [Item.tokens, List.countP_cons_of_pos rfl, List.countP_append,
        Item.countP_tokensAll items]
      rfl

theorem Item.countP_tokensAll : (items : List Item) →
    (Item.tokens.tokensAll items).countP Token.beginsElement = (Item.tags.tagsAll items).length
  | [] => rfl
  | item :: items => by
      rw [Item.tokens.tokensAll, List.countP_append, Item.countP_tokens item,
        Item.countP_tokensAll items, Item.tags.tagsAll, List.length_append]

end

/-- Two lists of tokens are the same up to the token of a tag, which is that of the changed tag in
the other list. -/
structure SplitAt (f : Tag → Tag) (earlier : List Tag) (tag : Tag) (tokens tokens' : List Token)
    (before : List Token) : Prop where
  number : before.countP Token.beginsElement = earlier.length
  split : ∃ token after, tokens = before ++ token :: after ∧ tag.WrittenAs token
  split' : ∃ token after, tokens' = before ++ token :: after ∧ (f tag).WrittenAs token

theorem SplitAt.append {earlier : List Tag} {tag : Tag} {tokens tokens' before : List Token}
    (h : SplitAt f earlier tag tokens tokens' before) (back back' : List Token) :
    SplitAt f earlier tag (tokens ++ back) (tokens' ++ back') before := by
  obtain ⟨hNumber, ⟨token, after, rfl, hWritten⟩, ⟨token', after', rfl, hWritten'⟩⟩ := h
  exact ⟨hNumber, ⟨token, after ++ back, by simp, hWritten⟩,
    ⟨token', after' ++ back', by simp, hWritten'⟩⟩

theorem SplitAt.prepend {earlier front : List Tag} {tag : Tag}
    {tokens tokens' before added : List Token}
    (h : SplitAt f earlier tag tokens tokens' before)
    (hAdded : added.countP Token.beginsElement = front.length) :
    SplitAt f (front ++ earlier) tag (added ++ tokens) (added ++ tokens') (added ++ before) := by
  obtain ⟨hNumber, ⟨token, after, rfl, hWritten⟩, ⟨token', after', rfl, hWritten'⟩⟩ := h
  refine ⟨?_, ⟨token, after, by simp, hWritten⟩, ⟨token', after', by simp, hWritten'⟩⟩
  rw [List.countP_append, List.length_append, hAdded, hNumber]

mutual

/-- Up to a tag the tokens stay the same if all tags before it do. -/
theorem Item.exists_splitAt : (item : Item) → (earlier : List Tag) → (tag : Tag) →
    (later : List Tag) → item.tags = earlier ++ tag :: later → (∀ t ∈ earlier, f t = t) →
    ∃ before, SplitAt f earlier tag item.tokens (item.mapTags f).tokens before
  | .text _, earlier, _, _, h, _ | .cdata _ _, earlier, _, _, h, _
  | .remark _ _ _, earlier, _, _, h, _ => by
      cases earlier <;> cases h
  | .empty _, earlier, tag, later, h, _ => by
      cases earlier with
      | cons t earlier => cases earlier <;> cases h
      | nil =>
          obtain ⟨rfl, -⟩ := List.cons.inj h
          exact ⟨[], rfl, ⟨_, [], rfl, .inr rfl⟩, ⟨_, [], rfl, .inr rfl⟩⟩
  | .element first items stop, earlier, tag, later, h, hFixed => by
      cases earlier with
      | nil =>
          obtain ⟨rfl, -⟩ := List.cons.inj h
          exact ⟨[], rfl, ⟨_, _, rfl, .inl rfl⟩, ⟨_, _, rfl, .inl rfl⟩⟩
      | cons t earlier =>
          obtain ⟨rfl, hItems⟩ := List.cons.inj h
          obtain ⟨before, hSplit⟩ := Item.exists_splitAt_tokensAll items earlier tag later hItems
            fun t ht => hFixed t (List.mem_cons_of_mem _ ht)
          have hEnd := hSplit.append [.endTag (first.name.chars ++ stop.chars)]
            [.endTag (first.name.chars ++ stop.chars)]
          have hStart : [Token.startTag first.content].countP Token.beginsElement =
              [first].length := rfl
          rw [Item.mapTags, hFixed first List.mem_cons_self]
          exact ⟨_, hEnd.prepend hStart⟩

theorem Item.exists_splitAt_tokensAll : (items : List Item) → (earlier : List Tag) →
    (tag : Tag) → (later : List Tag) → Item.tags.tagsAll items = earlier ++ tag :: later →
    (∀ t ∈ earlier, f t = t) →
    ∃ before, SplitAt f earlier tag (Item.tokens.tokensAll items)
      (Item.tokens.tokensAll (mapTagsAll f items)) before
  | [], earlier, _, _, h, _ => by cases earlier <;> cases h
  | item :: items, earlier, tag, later, h, hFixed => by
      have hBehind : ∀ rest, earlier = item.tags ++ rest →
          Item.tags.tagsAll items = rest ++ tag :: later →
          ∃ before, SplitAt f earlier tag (Item.tokens.tokensAll (item :: items))
            (Item.tokens.tokensAll (mapTagsAll f (item :: items))) before := by
        rintro rest rfl hItems
        obtain ⟨before, hSplit⟩ := Item.exists_splitAt_tokensAll items rest tag later hItems
          fun t ht => hFixed t (List.mem_append_right _ ht)
        rw [mapTagsAll, item.mapTags_eq_self fun t ht => hFixed t (List.mem_append_left _ ht)]
        exact ⟨_, hSplit.prepend item.countP_tokens⟩
      rw [Item.tags.tagsAll] at h
      rcases List.append_eq_append_iff.1 h with ⟨rest, hEarlier, hItems⟩ | ⟨rest, hItem, hRest⟩
      · exact hBehind rest hEarlier hItems
      · cases rest with
        | nil => exact hBehind [] (by rw [hItem]; simp) hRest.symm
        | cons t rest =>
            obtain ⟨rfl, -⟩ := List.cons.inj hRest
            obtain ⟨before, hSplit⟩ := Item.exists_splitAt item earlier tag rest hItem hFixed
            exact ⟨before, hSplit.append _ _⟩

end

/-- The tag, without its attributes if a key stands twice. -/
def Tag.cleared (tag : Tag) : Tag :=
  if tag.HasDistinctKeys then tag else { tag with attributes := [] }

theorem Tag.cleared_eq_self {tag : Tag} (h : tag.HasDistinctKeys) : tag.cleared = tag := if_pos h

theorem Tag.sound_cleared {tag : Tag} (h : tag.IsAdmitted) : tag.cleared.Sound := by
  unfold cleared
  split
  · next hDistinct => exact ⟨hDistinct, h⟩
  · exact ⟨List.nodup_nil, fun _ hAttr => absurd hAttr List.not_mem_nil⟩

def Document.cleared (document : Document) : Document :=
  { document with
    root := document.root.mapTags Tag.cleared
    isElement := Item.isElement_mapTags document.isElement }

theorem Document.exists_parse_cleared {document : Document}
    (hAdmitted : ∀ tag ∈ document.root.tags, tag.IsAdmitted)
    (hHeight : document.root.height ≤ maxDepth) :
    ∃ root, Xml.Document.parse document.cleared.text = .ok root := by
  rw [Document.exists_parse_iff, cleared, Item.tags_mapTags, Item.height_mapTags]
  refine ⟨fun tag hTag => ?_, hHeight⟩
  obtain ⟨other, hOther, rfl⟩ := List.mem_map.1 hTag
  exact Tag.sound_cleared (hAdmitted other hOther)

/-- Behind some tokens stands the first tag with a repeated key, and the two positions are those of
the first key in it that repeats an earlier one and of that earlier key. -/
structure FirstRepeat (document : Document) (earlier : List Tag) (tag : Tag) (before : List Token)
    (first second : Nat) : Prop where
  tags : ∃ later, document.root.tags = earlier ++ tag :: later
  distinct : ∀ other ∈ earlier, other.HasDistinctKeys
  repeats : tag.Repeats first second
  tokens : ∃ token after, document.tokens = before ++ token :: after ∧ tag.WrittenAs token
  number : before.countP Token.beginsElement = earlier.length

/-- What a text is refused with for a tag behind some tokens, on the line of the tag. A byte order
mark is not counted in the position that the line is taken from. -/
structure RefusedFor (text : String) (before : List Token) (fault : Fault) (line : UInt32) :
    Prop where
  outcome : Xml.Document.parse text = .error (.malformed fault line)
  place : line = Text.lineAt (Text.utf8 text.toList)
    (byteLength (Lexeme.withoutMark (before.flatMap Token.source)))
  unmarked : text.toList.head? ≠ some Lexeme.byteOrderMark →
    line = 1 + UInt32.ofNat ((Text.utf8 (before.flatMap Token.source)).count 10)
  /-- The number itself, and not only its lowest 32 bits. -/
  exact : text.toList.head? ≠ some Lexeme.byteOrderMark → Text.FewLines (Text.utf8 text.toList) →
    line.toNat = 1 + (Text.utf8 (before.flatMap Token.source)).count 10

theorem refusedFor_of_parse {text : String} {before : List Token} {rest : List Char} {fault : Fault}
    {line : UInt32} (hText : text.toList = before.flatMap Token.source ++ rest)
    (h : Xml.Document.parse text = .error (.malformed fault line))
    (hLine : line = Text.lineAt (Text.utf8 text.toList)
      (byteLength (Lexeme.withoutMark (before.flatMap Token.source)))) :
    RefusedFor text before fault line := by
  have hSame (hMark : text.toList.head? ≠ some Lexeme.byteOrderMark) :
      Lexeme.withoutMark (before.flatMap Token.source) = before.flatMap Token.source := by
    cases hBefore : before.flatMap Token.source with
    | nil => rfl
    | cons c cs =>
        rw [hText, hBefore] at hMark
        exact Lexeme.withoutMark_eq_self hMark
  refine ⟨h, hLine, fun hMark => ?_, fun hMark hFew => ?_⟩
  · rw [hLine, hSame hMark, Text.lineAt_byteLength hText]
    rfl
  · rw [hLine, hSame hMark, hFew.toNat_lineAt_byteLength hText]
    rfl

namespace Document

variable {document : Document} {prolog before after : List Token} {token : Token}

/-- The lexemes of a document up to a token of its root and from there on. -/
theorem exists_ofText_eq_append (hProlog : Unmarked document.prolog prolog)
    (hTokens : document.root.tokens = before ++ token :: after) (hMarkup : ¬ token.IsText) :
    ∃ endLine rest, Lexeme.ofText document.text =
      Lexeme.placed (Text.lineAt (Text.utf8 document.text.toList)) 0
          (Token.merge (prolog ++ before)) ++
        ⟨token, Text.lineAt (Text.utf8 document.text.toList)
          (byteLength ((prolog ++ before).flatMap Token.source)), endLine⟩ :: rest := by
  have hMerge : Token.merge (prolog ++ document.root.tokens ++ document.epilog) =
      Token.merge (prolog ++ before) ++ token :: Token.merge (after ++ document.epilog) := by
    rw [← Token.merge_append_of_not_isText hMarkup, hTokens]
    simp
  rw [Lexeme.ofText_eq_placed, document.cut_text hProlog, hMerge, Lexeme.placed_append,
    Lexeme.placed, Nat.zero_add, Token.flatMap_source_merge]
  exact ⟨_, _, rfl⟩

theorem head?_flatMap_source (hTokens : document.root.tokens = before ++ token :: after) :
    (before.flatMap Token.source).head? ≠ some Lexeme.byteOrderMark := by
  obtain ⟨rest, hSource⟩ := Item.source_tokens document.isElement
  rw [hTokens, List.flatMap_append] at hSource
  cases hBefore : before.flatMap Token.source with
  | nil => simp
  | cons c cs =>
      rw [hBefore, List.cons_append] at hSource
      rw [List.head?_cons, (List.cons.inj hSource).1]
      decide

theorem countP_prolog (document : Document) : document.prolog.countP Token.beginsElement = 0 := by
  rw [List.countP_eq_zero]
  intro token hToken hBegins
  have hOuter := (document.isOuter token (List.mem_append_left document.epilog hToken)).1
  cases token <;> first | exact hOuter | exact Bool.false_ne_true hBegins

/-- What stands before a tag of the document without repeated keys is read, on any lines, and there
is room for the tag behind it. -/
theorem exists_foldlM_before (hAdmitted : ∀ tag ∈ document.root.tags, tag.IsAdmitted)
    (hHeight : document.root.height ≤ maxDepth) (hProlog : Unmarked document.prolog prolog)
    (hTokens : document.cleared.root.tokens = before ++ token :: after)
    (hBegins : token.beginsElement = true) (lineOf : Nat → UInt32) :
    ∃ reached,
      (Lexeme.placed lineOf 0 (Token.merge (prolog ++ before))).foldlM Builder.step .empty =
        .ok reached ∧ reached.opened.length < maxDepth := by
  obtain ⟨root, hRoot⟩ := document.exists_parse_cleared hAdmitted hHeight
  obtain ⟨final, hFold, -⟩ := Xml.Document.exists_builder hRoot
  obtain ⟨endLine, rest, hLexemes⟩ := document.cleared.exists_ofText_eq_append hProlog hTokens
    (not_isText_of_beginsElement hBegins)
  rw [hLexemes] at hFold
  obtain ⟨reached, hReached, hFrom⟩ := Outcome.foldlM_append_eq_ok_iff.1 hFold
  obtain ⟨next, hNext, -⟩ := Outcome.foldlM_cons_eq_ok_iff.1 hFrom
  obtain ⟨other, hOther, hLength⟩ := Builder.exists_foldlM_placed hReached lineOf
  exact ⟨other, hOther, hLength ▸ Builder.length_opened_lt hBegins hNext⟩

/-- The document is refused at a tag with a repeated key if all tags before it have none. -/
theorem refusedFor_of_repeats (hAdmitted : ∀ tag ∈ document.root.tags, tag.IsAdmitted)
    (hHeight : document.root.height ≤ maxDepth) {earlier later : List Tag} {tag : Tag}
    (hTags : document.root.tags = earlier ++ tag :: later)
    (hEarlier : ∀ other ∈ earlier, other.HasDistinctKeys) {first second : Nat}
    (hRepeats : tag.Repeats first second) :
    ∃ before line, FirstRepeat document earlier tag before first second ∧
      RefusedFor document.text before (.badAttribute ⟨second, .duplicated first⟩) line := by
  obtain ⟨prolog, hProlog⟩ := document.exists_unmarked
  obtain ⟨before, hNumber, ⟨token, after, hTokens, hWritten⟩,
    ⟨token', after', hTokens', hWritten'⟩⟩ := document.root.exists_splitAt earlier tag later hTags
      fun other hOther => Tag.cleared_eq_self (hEarlier other hOther)
  have hWhole : document.tokens =
      document.prolog ++ before ++ token :: (after ++ document.epilog) := by
    simp [Document.tokens, hTokens]
  -- the document without repeated keys has the same tokens before the tag
  obtain ⟨reached, hReached, hRoom⟩ := exists_foldlM_before hAdmitted hHeight hProlog hTokens'
    hWritten'.beginsElement (Text.lineAt (Text.utf8 document.text.toList))
  obtain ⟨endLine, rest, hLexemes⟩ := document.exists_ofText_eq_append hProlog hTokens
    (not_isText_of_beginsElement hWritten.beginsElement)
  have hStep := tag.step_of_repeats hRepeats (hAdmitted tag (by simp [hTags])) hRoom hWritten
    (Text.lineAt (Text.utf8 document.text.toList)
      (byteLength ((prolog ++ before).flatMap Token.source))) endLine
  have hPosition : Lexeme.withoutMark ((document.prolog ++ before).flatMap Token.source) =
      (prolog ++ before).flatMap Token.source := by
    rw [List.flatMap_append, List.flatMap_append, hProlog.source _ (head?_flatMap_source hTokens)]
  have hText : document.text.toList = (document.prolog ++ before).flatMap Token.source ++
      (token :: (after ++ document.epilog)).flatMap Token.source := by
    rw [Document.text, String.toList_ofList, hWhole, List.flatMap_append]
  refine ⟨document.prolog ++ before, _, ⟨⟨later, hTags⟩, hEarlier, hRepeats,
    ⟨token, _, hWhole, hWritten⟩, ?_⟩, refusedFor_of_parse hText ?_ rfl⟩
  · rw [List.countP_append, document.countP_prolog, Nat.zero_add, hNumber]
  · rw [hPosition, Xml.Document.parse, hLexemes]
    exact ofLexemes_of_step_eq_error hReached hStep

/-- A document is refused for its first tag with a repeated key, and without one it is accepted with
all attributes of all its tags, in order. -/
structure ChecksKeys (document : Document) : Prop where
  refused : (∃ tag ∈ document.root.tags, ¬ tag.HasDistinctKeys) →
    ∃ earlier tag before first second line,
      FirstRepeat document earlier tag before first second ∧
        RefusedFor document.text before (.badAttribute ⟨second, .duplicated first⟩) line
  accepted : (∀ tag ∈ document.root.tags, tag.HasDistinctKeys) →
    ∃ root, Xml.Document.parse document.text = .ok root ∧
      root.preorder.map Element.attributes = (document.root.paths []).map attributesIn

/-- Whatever else stands in the tags of a written document, it is refused exactly if a key stands
twice in one of them. -/
theorem checksKeys (document : Document) (hAdmitted : ∀ tag ∈ document.root.tags, tag.IsAdmitted)
    (hHeight : document.root.height ≤ maxDepth) : ChecksKeys document where
  refused := by
    rintro ⟨repeating, hRepeating, hNot⟩
    have hSome : (document.root.tags.find? fun tag => ¬ tag.HasDistinctKeys).isSome :=
      List.find?_isSome.2 ⟨repeating, hRepeating, decide_eq_true hNot⟩
    obtain ⟨tag, hFind⟩ := Option.isSome_iff_exists.1 hSome
    obtain ⟨hTag, earlier, later, hTags, hEarlier⟩ := List.find?_eq_some_iff_append.1 hFind
    have hDistinct : ∀ other ∈ earlier, other.HasDistinctKeys := fun other hOther => by
      simpa using hEarlier other hOther
    obtain ⟨first, second, hRepeats⟩ := Tag.exists_repeats (of_decide_eq_true hTag)
    obtain ⟨before, line, hFirst, hRefused⟩ :=
      refusedFor_of_repeats hAdmitted hHeight hTags hDistinct hRepeats
    exact ⟨earlier, tag, before, first, second, line, hFirst, hRefused⟩
  accepted hDistinct := by
    obtain ⟨root, hRoot⟩ := Document.exists_parse_iff.2
      ⟨fun tag hTag => ⟨hDistinct tag hTag, hAdmitted tag hTag⟩, hHeight⟩
    exact ⟨root, hRoot, Document.attributes_of_parse hRoot⟩

end Document

def plainKey : Key := ⟨['m'], by decide, by decide⟩

def prefixedKey : Key := ⟨['p', ':', 'm'], by decide, by decide⟩

/-- Behind an empty line an element in which two keys come back. -/
def repeating : Document where
  prolog := [.text ['\n']]
  root := .element ⟨⟨none, ⟨['s'], by decide, by decide, by simp⟩⟩, [], .nothing⟩
    [.empty ⟨⟨none, ⟨['t'], by decide, by decide, by simp⟩⟩,
      [plainKey, prefixedKey, plainKey, prefixedKey].map fun key => Outline.attr key "",
      .nothing⟩]
    .nothing
  epilog := []
  isElement := trivial
  isOuter := by
    have hText : (Token.text ['\n']).Complete := by
      show '<' ∉ ['\n']
      decide
    simpa [Token.IsOuter] using hText

/-- Keys with and without a prefix are different keys, and the one that comes back first is reported
with its own position. -/
theorem checksKeys_repeating :
    repeating.text = "\n<s><t m=\"\" p:m=\"\" m=\"\" p:m=\"\"/></s>" ∧
      Text.FewLines (Text.utf8 repeating.text.toList) ∧
      (∀ tag ∈ repeating.root.tags, tag.IsAdmitted) ∧ repeating.root.height ≤ maxDepth ∧
      repeating.ChecksKeys ∧
      Xml.Document.parse repeating.text =
        .error (.malformed (.badAttribute ⟨14, .duplicated 2⟩) 2) := by
  have hAdmitted : ∀ tag ∈ repeating.root.tags, tag.IsAdmitted := by
    unfold Tag.IsAdmitted
    decide
  have hHeight : repeating.root.height ≤ maxDepth := by decide
  exact ⟨by rfl, by decide, hAdmitted, hHeight, Document.checksKeys _ hAdmitted hHeight,
    by decide +kernel⟩

end Written
end ContractDoc.Xml

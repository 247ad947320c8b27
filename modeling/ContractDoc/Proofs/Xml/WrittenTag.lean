import ContractDoc.Proofs.Xml.Written

/-! # Written tags

A written tag ends at its own `>`, its content is cut into the name and the attributes that were
written, and it opens the element that it stands for.
-/

namespace ContractDoc.Xml

namespace Written

open Text (upToMark? byteLength)

theorem isKeyChar_iff {c : Char} :
    isKeyChar c = true ↔
      isSpace c = false ∧ c ≠ '"' ∧ c ≠ '\'' ∧ c ≠ '<' ∧ c ≠ '>' ∧ c ≠ '/' ∧ c ≠ '=' := by
  simp [isKeyChar]

theorem isWordChar_iff {c : Char} :
    isWordChar c = true ↔ isKeyChar c = true ∧ c ≠ ':' ∧ c ≠ '&' := by
  simp [isWordChar]

theorem isKeyChar_of_rawTag {c : Char} (h : isKeyChar c = true) : RawTag.isKeyChar c = true := by
  obtain ⟨hSpace, -, -, -, -, -, hEquals⟩ := isKeyChar_iff.1 h
  simp [RawTag.isKeyChar, hSpace, hEquals]

theorem not_quote_of_isSpace {c : Char} (h : isSpace c = true) :
    c ≠ '"' ∧ c ≠ '\'' ∧ c ≠ '>' ∧ c ≠ '=' ∧ c ≠ '/' := by
  simp only [isSpace, Bool.or_eq_true, beq_iff_eq] at h
  rcases h with ((rfl | rfl) | rfl) | rfl <;> decide

theorem Quote.char_eq (quote : Quote) : quote.char = '"' ∨ quote.char = '\'' := by
  cases quote
  · exact .inr rfl
  · exact .inl rfl

theorem Word.colon_not_mem (word : Word) : ':' ∉ word.chars := by
  intro hMem
  exact (isWordChar_iff.1 (word.isWordChar ':' hMem)).2.1 rfl

theorem splitName_of_colon_not_mem {key : List Char} (h : ':' ∉ key) :
    splitName key = (none, key) := by
  rw [splitName, Text.upToMark?_eq_none h]

theorem splitName_append {before : List Char} (h : ':' ∉ before) (after : List Char) :
    splitName (before ++ ':' :: after) = (some before, after) := by
  rw [splitName, Text.upToMark?_char h]

namespace Name

theorem localName_chars (name : Name) : localName name.chars = name.base.chars := by
  obtain ⟨qualifier, base⟩ := name
  cases qualifier with
  | none => rw [localName, chars, splitName_of_colon_not_mem base.colon_not_mem]
  | some word => rw [localName, chars, splitName_append word.colon_not_mem]

theorem isKeyChar_of_mem (name : Name) : ∀ c ∈ name.chars, isKeyChar c = true := by
  have hWord : ∀ word : Word, ∀ c ∈ word.chars, isKeyChar c = true :=
    fun word c hc => (isWordChar_iff.1 (word.isWordChar c hc)).1
  obtain ⟨qualifier, base⟩ := name
  intro c hc
  cases qualifier with
  | none => exact hWord base c hc
  | some word =>
      rcases List.mem_append.1 hc with hc | hc
      · exact hWord word c hc
      · rcases List.mem_cons.1 hc with rfl | hc
        · decide
        · exact hWord base c hc

theorem exists_cons (name : Name) :
    ∃ c cs, name.chars = c :: cs ∧ c ≠ '!' ∧ c ≠ '?' ∧ c ≠ '/' := by
  obtain ⟨word, rest, hChars⟩ :
      ∃ (word : Word) (rest : List Char), name.chars = word.chars ++ rest := by
    obtain ⟨qualifier, base⟩ := name
    cases qualifier with
    | none => exact ⟨base, [], (List.append_nil _).symm⟩
    | some word => exact ⟨word, _, rfl⟩
  obtain ⟨c, cs, hWord⟩ := List.exists_cons_of_ne_nil word.nonempty
  obtain ⟨hBang, hQuestion⟩ := word.head c (by rw [hWord]; rfl)
  have hSlash := (isKeyChar_iff.1 (isWordChar_iff.1 (word.isWordChar c (by simp [hWord]))).1)
  exact ⟨c, cs ++ rest, by rw [hChars, hWord, List.cons_append], hBang, hQuestion,
    hSlash.2.2.2.2.2.1⟩

end Name

theorem foldlM_tagStep_outside {cs : List Char}
    (h : ∀ c ∈ cs, c ≠ '"' ∧ c ≠ '\'' ∧ c ≠ '>') : cs.foldlM tagStep none = some none := by
  induction cs with
  | nil => rfl
  | cons c cs ih =>
      obtain ⟨hDouble, hSingle, hClose⟩ := h c List.mem_cons_self
      have hStep : tagStep none c = some none := by
        unfold tagStep
        split <;> simp_all
      rw [List.foldlM_cons, hStep]
      exact ih fun d hd => h d (List.mem_cons_of_mem c hd)

theorem foldlM_tagStep_inside {quote : Char} {cs : List Char} (h : quote ∉ cs) :
    cs.foldlM tagStep (some quote) = some (some quote) := by
  induction cs with
  | nil => rfl
  | cons c cs ih =>
      obtain ⟨hFirst, hRest⟩ := not_or.1 (mt List.mem_cons.2 h)
      have hStep : tagStep (some quote) c = some (some quote) := if_neg (Ne.symm hFirst)
      rw [List.foldlM_cons, hStep]
      exact ih hRest

theorem tagStep_quote (quote : Quote) : tagStep none quote.char = some (some quote.char) := by
  cases quote <;> rfl

theorem Space.foldlM_tagStep (space : Space) : space.chars.foldlM tagStep none = some none := by
  apply foldlM_tagStep_outside
  intro c hc
  obtain ⟨hDouble, hSingle, hClose, -⟩ := not_quote_of_isSpace (space.isSpace c hc)
  exact ⟨hDouble, hSingle, hClose⟩

theorem foldlM_tagStep_key {cs : List Char} (h : ∀ c ∈ cs, isKeyChar c = true) :
    cs.foldlM tagStep none = some none := by
  apply foldlM_tagStep_outside
  intro c hc
  obtain ⟨-, hDouble, hSingle, -, hClose, -⟩ := isKeyChar_iff.1 (h c hc)
  exact ⟨hDouble, hSingle, hClose⟩

theorem Glyph.stop_not_mem {stop : Char} (hStop : stop ∈ ['<', '"', '\''])
    (run : List (Glyph stop)) : stop ∉ run.flatMap Glyph.source := by
  rw [List.mem_flatMap]
  rintro ⟨glyph, -, hMem⟩
  cases glyph with
  | raw c plain => exact plain.2 (List.mem_singleton.1 hMem).symm
  | reference body c stands =>
      have hOther : ∀ d ∈ ['<', '"', '\''], d ∈ Reference.nonDigits ∧ d ≠ '&' ∧ d ≠ ';' := by decide
      obtain ⟨hNone, hAmp, hSemicolon⟩ := hOther stop hStop
      rcases List.mem_cons.1 hMem with hEq | hMem
      · exact hAmp hEq
      · rcases List.mem_append.1 hMem with hMem | hMem
        · exact stands.not_mem_nonDigits stop hMem hNone
        · exact hSemicolon (List.mem_singleton.1 hMem)

theorem Glyph.decodes {stop : Char} (run : List (Glyph stop)) :
    Reference.Decodes (run.flatMap Glyph.source) (run.map Glyph.char) := by
  induction run with
  | nil => exact .nil
  | cons glyph run ih =>
      rw [List.flatMap_cons, List.map_cons]
      cases glyph with
      | raw c plain => exact .plain plain.1 ih
      | reference body c stands =>
          have hWhole := Reference.Decodes.reference stands ih
          simpa [Glyph.source, Glyph.char] using hWhole

theorem Attribute.foldlM_tagStep (attr : Attribute) :
    attr.chars.foldlM tagStep none = some none := by
  have hQuote : attr.quote.char ∈ ['<', '"', '\''] := by
    rcases attr.quote.char_eq with h | h <;> rw [h] <;> decide
  have hValue : attr.source.foldlM tagStep (some attr.quote.char) = some (some attr.quote.char) :=
    foldlM_tagStep_inside (Glyph.stop_not_mem hQuote attr.value)
  have hClose : tagStep (some attr.quote.char) attr.quote.char = some none := if_pos rfl
  simp [chars, List.foldlM_append, attr.gap.foldlM_tagStep, foldlM_tagStep_key attr.key.isKeyChar,
    attr.before.foldlM_tagStep, attr.after.foldlM_tagStep, tagStep_quote, hValue, hClose,
    show tagStep none '=' = some none from rfl]

theorem Tag.foldlM_tagStep (tag : Tag) : tag.content.foldlM tagStep none = some none := by
  have hAttributes : (tag.attributes.flatMap Attribute.chars).foldlM tagStep none = some none := by
    induction tag.attributes with
    | nil => rfl
    | cons attr rest ih =>
        rw [List.flatMap_cons, List.foldlM_append, attr.foldlM_tagStep]
        exact ih
  simp [content, List.foldlM_append, foldlM_tagStep_key tag.name.isKeyChar_of_mem, hAttributes,
    tag.space.foldlM_tagStep]

theorem Tag.head_content (tag : Tag) : ∀ c ∈ tag.content.head?, c ≠ '!' ∧ c ≠ '?' ∧ c ≠ '/' := by
  obtain ⟨c, cs, hName, hHead⟩ := tag.name.exists_cons
  intro d hd
  rw [content, hName] at hd
  obtain rfl := Option.some.inj hd
  exact hHead

theorem getLast?_append_ne {c : Char} {l l' : List Char} (h : l.getLast? ≠ some c)
    (h' : l'.getLast? ≠ some c) : (l ++ l').getLast? ≠ some c := by
  rw [List.getLast?_append]
  cases hLast : l'.getLast? with
  | none => simpa using h
  | some d => simpa [hLast] using h'

theorem Tag.getLast?_content (tag : Tag) : tag.content.getLast? ≠ some '/' := by
  have hName : tag.name.chars.getLast? ≠ some '/' := by
    intro hLast
    have hKey := tag.name.isKeyChar_of_mem '/' (List.mem_of_getLast? hLast)
    exact absurd hKey (by decide)
  have hSpace : tag.space.chars.getLast? ≠ some '/' := by
    intro hLast
    have hIsSpace := tag.space.isSpace '/' (List.mem_of_getLast? hLast)
    exact absurd hIsSpace (by decide)
  have hAttributes : (tag.attributes.flatMap Attribute.chars).getLast? ≠ some '/' := by
    induction tag.attributes with
    | nil => simp
    | cons attr rest ih =>
        rw [List.flatMap_cons]
        apply getLast?_append_ne _ ih
        have hQuote : attr.chars.getLast? = some attr.quote.char := by
          simp [Attribute.chars, List.getLast?_append, List.getLast?_cons]
        rw [hQuote]
        rcases attr.quote.char_eq with h | h <;> rw [h] <;> decide
  exact getLast?_append_ne hName (getLast?_append_ne hAttributes hSpace)

theorem Tag.complete_startTag (tag : Tag) : (Token.startTag tag.content).Complete :=
  ⟨⟨tag.foldlM_tagStep, tag.head_content⟩, tag.getLast?_content⟩

theorem Tag.complete_emptyTag (tag : Tag) : (Token.emptyTag tag.content).Complete := by
  constructor
  · rw [List.foldlM_append, tag.foldlM_tagStep]
    rfl
  · intro c hc
    obtain ⟨d, ds, hName, -⟩ := tag.name.exists_cons
    apply tag.head_content
    simpa [content, hName] using hc

theorem Tag.complete_endTag (tag : Tag) (stop : Space) :
    (Token.endTag (tag.name.chars ++ stop.chars)).Complete := by
  show (tag.name.chars ++ stop.chars).foldlM tagStep none = some none
  rw [List.foldlM_append, foldlM_tagStep_key tag.name.isKeyChar_of_mem]
  exact stop.foldlM_tagStep

theorem Tag.endName_eq (tag : Tag) (stop : Space) :
    endName (tag.name.chars ++ stop.chars) = tag.name.chars := by
  have hNotSpace : ∀ c ∈ tag.name.chars, isSpace c = false :=
    fun c hc => (isKeyChar_iff.1 (tag.name.isKeyChar_of_mem c hc)).1
  obtain ⟨c, cs, hName, -⟩ := tag.name.exists_cons
  have hSome : (tag.name.chars ++ stop.chars).all isSpace = false := by
    rw [hName, List.cons_append, List.all_cons, hNotSpace c (by simp [hName]), Bool.false_and]
  have hSpaces : ∀ c ∈ stop.chars.reverse, isSpace c = true :=
    fun c hc => stop.isSpace c (List.mem_reverse.1 hc)
  have hDrop : tag.name.chars.reverse.dropWhile isSpace = tag.name.chars.reverse := by
    cases hReverse : tag.name.chars.reverse with
    | nil => rfl
    | cons d ds =>
        have hd : d ∈ tag.name.chars := List.mem_reverse.1 (hReverse ▸ List.mem_cons_self)
        rw [List.dropWhile_cons_of_neg (by simp [hNotSpace d hd])]
  rw [endName, hSome, if_neg (by simp), List.reverse_append, List.dropWhile_append_of_pos hSpaces,
    hDrop, List.reverse_reverse]

theorem skip_append (p : Char → Bool) (position : Nat) {run : List Char} (rest : List Char)
    (hRun : ∀ c ∈ run, p c = true) (hRest : ∀ c ∈ rest.head?, p c = false) :
    (ContentCursor.mk position (run ++ rest)).skip p = ⟨position + byteLength run, rest⟩ ∧
      (ContentCursor.mk position (run ++ rest)).run p = run := by
  have hTake : (run ++ rest).takeWhile p = run := by
    rw [List.takeWhile_append_of_pos hRun]
    cases rest with
    | nil => simp
    | cons c cs => simp [hRest c rfl]
  have hDrop : (run ++ rest).dropWhile p = rest := by
    rw [List.dropWhile_append_of_pos hRun]
    cases rest with
    | nil => simp
    | cons c cs => simp [hRest c rfl]
  simp [ContentCursor.skip, ContentCursor.run, hTake, hDrop]

/-- One attribute is cut off when its key, its equals sign and its value are found in turn. -/
theorem cutAttributes_step {total position : Nat} {done : List RawAttribute}
    {cursor after : ContentCursor} {c : Char} {cs value rest : List Char} {equals : Nat}
    (hStart : cursor.skip isSpace = ⟨position, c :: cs⟩)
    (hKey : (((ContentCursor.mk position (c :: cs)).pass c cs).skip RawTag.isKeyChar).skip isSpace =
      ⟨equals, '=' :: rest⟩)
    (hValue : RawTag.cutValue total ((ContentCursor.mk equals ('=' :: rest)).pass '=' rest) =
      .quoted value after) :
    RawTag.cutAttributes total done cursor =
      RawTag.cutAttributes total
        (⟨position, c :: ((ContentCursor.mk position (c :: cs)).pass c cs).run RawTag.isKeyChar,
          .ok value⟩ :: done) after := by
  rw [RawTag.cutAttributes]
  dsimp only
  split
  · next h => rw [hStart] at h; cases h
  · next d ds h =>
      rw [hStart] at h
      obtain ⟨rfl, rfl⟩ := List.cons.inj h
      rw [hStart]
      split
      · next h' => rw [hKey] at h'; cases h'
      · next rest' h' =>
          rw [hKey] at h'
          obtain ⟨-, rfl⟩ := List.cons.inj h'
          split
          · next h'' => rw [hKey, hValue] at h''; cases h''
          · next h'' =>
              rw [hKey, hValue] at h''
              obtain ⟨rfl, rfl⟩ := RawTag.ValueCut.quoted.inj h''
              rfl
      · next d ds hNot h' =>
          rw [hKey] at h'
          exact absurd (List.cons.inj h').1.symm hNot

namespace Attribute

theorem quote_mem (attr : Attribute) : attr.quote.char ∈ ['<', '"', '\''] := by
  rcases attr.quote.char_eq with h | h <;> rw [h] <;> decide

theorem cutValue (attr : Attribute) (total position : Nat) (rest : List Char) :
    RawTag.cutValue total ⟨position, attr.after.chars ++ attr.quote.char ::
        (attr.source ++ attr.quote.char :: rest)⟩ =
      .quoted attr.source
        ⟨position + byteLength attr.after.chars + byteLength attr.source + 2, rest⟩ := by
  have hQuote : isSpace attr.quote.char = false := by
    rcases attr.quote.char_eq with h | h <;> rw [h] <;> decide
  have hSkip := (skip_append isSpace position (attr.quote.char :: (attr.source ++
    attr.quote.char :: rest)) attr.after.isSpace (by rintro c ⟨⟩; exact hQuote)).1
  have hSource : attr.quote.char ∉ attr.source := Glyph.stop_not_mem attr.quote_mem attr.value
  have hMark := Text.upToMark?_char hSource rest
  simp [RawTag.cutValue, hSkip, attr.quote.char_eq, hMark]

def raw (position : Nat) (attr : Attribute) : RawAttribute :=
  ⟨position + byteLength attr.gap.chars, attr.key.chars, .ok attr.source⟩

theorem cutAttributes (attr : Attribute) (total position : Nat) (done : List RawAttribute)
    (rest : List Char) :
    RawTag.cutAttributes total done ⟨position, attr.chars ++ rest⟩ =
      RawTag.cutAttributes total (attr.raw position :: done)
        ⟨position + byteLength attr.chars, rest⟩ := by
  obtain ⟨c, cs, hKeyChars⟩ := List.exists_cons_of_ne_nil attr.key.nonempty
  have hKeyChar : ∀ d ∈ c :: cs, isKeyChar d = true := hKeyChars ▸ attr.key.isKeyChar
  have hTail : ∀ d ∈ cs, RawTag.isKeyChar d = true :=
    fun d hd => isKeyChar_of_rawTag (hKeyChar d (List.mem_cons_of_mem c hd))
  let value := attr.after.chars ++ attr.quote.char :: (attr.source ++ attr.quote.char :: rest)
  have hChars : attr.chars ++ rest =
      attr.gap.chars ++ (c :: (cs ++ (attr.before.chars ++ '=' :: value))) := by
    simp [chars, hKeyChars, value]
  have hStart := (skip_append isSpace position (c :: (cs ++ (attr.before.chars ++ '=' :: value)))
    attr.gap.isSpace (by
      rintro d ⟨⟩
      exact (isKeyChar_iff.1 (hKeyChar c List.mem_cons_self)).1)).1
  have hKey := skip_append RawTag.isKeyChar
    (position + byteLength attr.gap.chars + c.utf8Size) (attr.before.chars ++ '=' :: value) hTail (by
      intro d hd
      cases hBefore : attr.before.chars with
      | nil =>
          rw [hBefore] at hd
          obtain rfl := Option.some.inj hd
          rfl
      | cons e es =>
          rw [hBefore] at hd
          obtain rfl := Option.some.inj hd
          simp [RawTag.isKeyChar, attr.before.isSpace e (by simp [hBefore])])
  have hEquals := (skip_append isSpace
    (position + byteLength attr.gap.chars + c.utf8Size + byteLength cs) ('=' :: value)
    attr.before.isSpace (by rintro d ⟨⟩; rfl)).1
  have hValue := attr.cutValue total (position + byteLength attr.gap.chars + c.utf8Size +
    byteLength cs + byteLength attr.before.chars + '='.utf8Size) rest
  have hRun : ((ContentCursor.mk (position + byteLength attr.gap.chars) (c :: (cs ++
      (attr.before.chars ++ '=' :: value)))).pass c (cs ++ (attr.before.chars ++ '=' :: value))).run
      RawTag.isKeyChar = cs := hKey.2
  have hAfterKey : (((ContentCursor.mk (position + byteLength attr.gap.chars) (c :: (cs ++
      (attr.before.chars ++ '=' :: value)))).pass c
      (cs ++ (attr.before.chars ++ '=' :: value))).skip RawTag.isKeyChar).skip isSpace =
      ⟨position + byteLength attr.gap.chars + c.utf8Size + byteLength cs +
        byteLength attr.before.chars, '=' :: value⟩ := by
    rw [ContentCursor.pass, hKey.1, hEquals]
  rw [hChars, cutAttributes_step hStart hAfterKey hValue, hRun, raw, hKeyChars]
  have hQuote : attr.quote.char.utf8Size = 1 := by cases attr.quote <;> rfl
  have hEqualsSize : '='.utf8Size = 1 := rfl
  congr 2
  simp only [chars, hKeyChars, Text.byteLength_append, Text.byteLength_cons, Text.byteLength_nil,
    hQuote, hEqualsSize]
  omega

end Attribute

/-- The attributes as they are cut off from a byte position on. -/
def rawFrom (position : Nat) : List Attribute → List RawAttribute
  | [] => []
  | attr :: attrs => attr.raw position :: rawFrom (position + byteLength attr.chars) attrs

theorem cutAttributes_space (total position : Nat) (done : List RawAttribute) (space : Space) :
    RawTag.cutAttributes total done ⟨position, space.chars⟩ = (done.reverse, none) := by
  have hSkip := (skip_append isSpace position [] space.isSpace (by simp)).1
  rw [List.append_nil] at hSkip
  rw [RawTag.cutAttributes]
  dsimp only
  split
  · rfl
  · next h => rw [hSkip] at h; cases h

theorem cutAttributes_flatMap (total position : Nat) (done : List RawAttribute)
    (attrs : List Attribute) (space : Space) :
    RawTag.cutAttributes total done
        ⟨position, attrs.flatMap Attribute.chars ++ space.chars⟩ =
      (done.reverse ++ rawFrom position attrs, none) := by
  induction attrs generalizing position done with
  | nil => simp [rawFrom, cutAttributes_space]
  | cons attr attrs ih =>
      rw [List.flatMap_cons, List.append_assoc, attr.cutAttributes, ih]
      simp [rawFrom]

theorem ofContent_append {name rest : List Char} (hName : ∀ c ∈ name, isSpace c = false)
    (hRest : ∀ c ∈ rest.head?, isSpace c = true) {attributes : List RawAttribute}
    {fault? : Option AttributeFault}
    (hCut : RawTag.cutAttributes (byteLength (name ++ rest)) []
      ⟨byteLength name, rest⟩ = (attributes, fault?)) :
    RawTag.ofContent (name ++ rest) = ⟨name, attributes, fault?⟩ := by
  have hPass : ∀ c ∈ name, (!isSpace c) = true := fun c hc => by simp [hName c hc]
  have hStop : ∀ c ∈ rest.head?, (!isSpace c) = false := fun c hc => by simp [hRest c hc]
  have hSkip := skip_append (fun c => !isSpace c) 0 rest hPass hStop
  rw [Nat.zero_add] at hSkip
  rw [RawTag.ofContent]
  simp only [hSkip, hCut]

/-- The written parts are what the content of the tag is cut into. -/
theorem Tag.ofContent_content (tag : Tag) :
    RawTag.ofContent tag.content =
      ⟨tag.name.chars, rawFrom (byteLength tag.name.chars) tag.attributes, none⟩ := by
  apply ofContent_append
  · intro c hc
    exact (isKeyChar_iff.1 (tag.name.isKeyChar_of_mem c hc)).1
  · intro c hc
    cases hAttributes : tag.attributes with
    | nil =>
        rw [hAttributes] at hc
        exact tag.space.isSpace c (List.mem_of_mem_head? hc)
    | cons attr attrs =>
        obtain ⟨d, ds, hGap⟩ := List.exists_cons_of_ne_nil attr.gapNonempty
        rw [hAttributes, List.flatMap_cons, Attribute.chars, hGap] at hc
        obtain rfl := Option.some.inj hc
        exact attr.gap.isSpace d (by simp [hGap])
  · rw [cutAttributes_flatMap]
    rfl

theorem declare_rawFrom (scope : Scope) (position : Nat) {attrs : List Attribute}
    (h : ∀ attr ∈ attrs, ∀ binding ∈ attr.binding?,
      Scope.admits binding.1 binding.2 = true) :
    scope.declare (rawFrom position attrs) =
      .ok ⟨(attrs.filterMap Attribute.binding?).reverse ++ scope.bindings⟩ := by
  induction attrs generalizing scope position with
  | nil => rfl
  | cons attr attrs ih =>
      have hRest := fun s => ih s (position + byteLength attr.chars)
        fun a ha => h a (List.mem_cons_of_mem attr ha)
      have hAdmit := h attr List.mem_cons_self
      rw [rawFrom, Scope.declare, List.foldlM_cons]
      cases hBinding : Scope.declared? attr.key.chars with
      | none =>
          have hNone : attr.binding? = none := by simp [Attribute.binding?, hBinding]
          have hStep : scope.declareOne (attr.raw position) = .ok scope := by
            simp [Scope.declareOne, Attribute.raw, hBinding]
          rw [hStep, Outcome.ok_bind, ← Scope.declare, hRest, List.filterMap_cons_none hNone]
      | some bound =>
          have hSome : attr.binding? = some (bound, attr.source) := by
            simp [Attribute.binding?, hBinding]
          have hStep : scope.declareOne (attr.raw position) =
              .ok ⟨(bound, attr.source) :: scope.bindings⟩ := by
            simp [Scope.declareOne, Attribute.raw, hBinding, hAdmit _ hSome]
          rw [hStep, Outcome.ok_bind, ← Scope.declare, hRest, List.filterMap_cons_some hSome]
          simp

theorem add_raw (scope : Scope) (position : Nat) (attr : Attribute) {earlier : List RawAttribute}
    (resolved : List Xml.Attribute) (h : ∀ raw ∈ earlier, raw.key ≠ attr.key.chars) :
    AttributeList.add scope ⟨earlier, resolved⟩ (attr.raw position) =
      .ok ⟨attr.raw position :: earlier, attr.resolved scope :: resolved⟩ := by
  have hFind : earlier.find? (fun a => a.key == attr.key.chars) = none := by
    rw [List.find?_eq_none]
    intro raw hRaw
    simpa using h raw hRaw
  have hDecode := Reference.decode_eq_ok_iff.2 (Glyph.decodes attr.value)
  simp [AttributeList.add, Attribute.raw, hFind, Attribute.source, hDecode, Attribute.resolved]

theorem foldlM_add_rawFrom (scope : Scope) (position : Nat) {attrs : List Attribute}
    {earlier : List RawAttribute} (resolved : List Xml.Attribute)
    (hDistinct : (attrs.map fun attr => attr.key.chars).Nodup)
    (hNew : ∀ raw ∈ earlier, ∀ attr ∈ attrs, raw.key ≠ attr.key.chars) :
    (rawFrom position attrs).foldlM (AttributeList.add scope) ⟨earlier, resolved⟩ =
      .ok ⟨(rawFrom position attrs).reverse ++ earlier,
        (attrs.map (Attribute.resolved scope)).reverse ++ resolved⟩ := by
  induction attrs generalizing position earlier resolved with
  | nil => rfl
  | cons attr attrs ih =>
      rw [List.map_cons, List.nodup_cons] at hDistinct
      have hFirst := add_raw scope position attr resolved
        fun raw hRaw => hNew raw hRaw attr List.mem_cons_self
      have hRest : ∀ raw ∈ attr.raw position :: earlier, ∀ a ∈ attrs,
          raw.key ≠ a.key.chars := by
        intro raw hRaw a ha
        rcases List.mem_cons.1 hRaw with rfl | hRaw
        · intro hEq
          exact hDistinct.1 (List.mem_map.2 ⟨a, ha, hEq.symm⟩)
        · exact hNew raw hRaw a (List.mem_cons_of_mem attr ha)
      rw [rawFrom, List.foldlM_cons, hFirst, Outcome.ok_bind, ih _ _ hDistinct.2 hRest]
      simp

def Tag.opened (scope : Scope) (line : UInt32) (tag : Tag) : OpenElement where
  rawName := tag.name.chars
  scope := tag.scopeIn scope
  attributes := tag.attributes.map (Attribute.resolved (tag.scopeIn scope))
  children := []
  text := ""
  line := line

theorem Tag.Sound.opens {tag : Tag} (h : tag.Sound) (scope : Scope) {depth : Nat}
    (hDepth : depth < maxDepth) (line : UInt32) :
    Opens scope depth tag.content line (tag.opened scope line) where
  room := hDepth
  rawName := by rw [tag.ofContent_content]; rfl
  declares := by
    rw [tag.ofContent_content]
    exact declare_rawFrom scope _ h.admitted
  resolves := by
    rw [tag.ofContent_content, RawTag.resolve]
    dsimp only
    rw [foldlM_add_rawFrom _ _ [] h.distinct (by simp), Outcome.ok_bind]
    simp [opened]
  line := rfl
  text := rfl
  children := rfl

theorem Tag.closeWith_opened (tag : Tag) (scope : Scope) (text : List Char)
    (children : List Element) :
    (tag.opened scope 0).closeWith text children = tag.element scope text children := by
  simp [opened, OpenElement.closeWith, OpenElement.name, element, tag.name.localName_chars]

end Written
end ContractDoc.Xml

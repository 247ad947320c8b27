import ContractDoc.Proofs.Xml.Cutting
import ContractDoc.Proofs.Xml.Position
import ContractDoc.Proofs.Xml.WrittenTag

/-! # Character data is decoded once

Which texts may stand in an element or in an attribute, said without reading them: every `&` begins
a reference that names a character. Such a text is written in pieces, one for each character that it
is read as, so what a reference stands for is never looked at again.
-/

namespace ContractDoc.Xml

namespace Reference

open Text (Radix)

/-- The body of a reference and the character that it names, by a word or by its number. -/
inductive Names : List Char → Char → Prop
  | lt : Names ['l', 't'] '<'
  | gt : Names ['g', 't'] '>'
  | amp : Names ['a', 'm', 'p'] '&'
  | apos : Names ['a', 'p', 'o', 's'] '\''
  | quot : Names ['q', 'u', 'o', 't'] '"'
  | decimal {digits : List Char} {c : Char} :
      Radix.decimal.Writes digits c.toNat → c ≠ '\x00' → Names ('#' :: digits) c
  | hexadecimal {digits : List Char} {c : Char} :
      Radix.hexadecimal.Writes digits c.toNat → c ≠ '\x00' → Names ('#' :: 'x' :: digits) c

/-- Every `&` begins a reference, which ends at the next `;` and names a character. -/
def AllRefer (text : List Char) : Prop :=
  ∀ before after, text = before ++ '&' :: after →
    ∃ body rest c, after = body ++ ';' :: rest ∧ '&' ∉ body ∧ ';' ∉ body ∧ Names body c

/-- How one character is written: as it is, or as a reference. -/
inductive Piece : List Char → Char → Prop
  | plain {c : Char} : c ≠ '&' → Piece [c] c
  | reference {body : List Char} {c : Char} : Names body c → Piece ('&' :: (body ++ [';'])) c

/-- The text with every reference in it replaced by its character: one piece of the text after the
other is read as one character. -/
def ReadsAs (text chars : List Char) : Prop :=
  ∃ pieces, List.Forall₂ Piece pieces chars ∧ text = pieces.flatten

variable {body text chars : List Char} {c : Char}

theorem standsFor_iff_names : StandsFor body c ↔ Names body c := by
  constructor
  · intro h
    cases h with
    | named hName =>
        simp only [named, List.mem_cons, Prod.mk.injEq, List.not_mem_nil, or_false] at hName
        rcases hName with ⟨rfl, rfl⟩ | ⟨rfl, rfl⟩ | ⟨rfl, rfl⟩ | ⟨rfl, rfl⟩ | ⟨rfl, rfl⟩
        · exact .lt
        · exact .gt
        · exact .amp
        · exact .apos
        · exact .quot
    | decimal hDigits hNull => exact .decimal (Radix.denotes_iff_writes.1 hDigits) hNull
    | hexadecimal hDigits hNull => exact .hexadecimal (Radix.denotes_iff_writes.1 hDigits) hNull
  · intro h
    cases h with
    | lt | gt | amp | apos | quot => exact .named (by decide)
    | decimal hDigits hNull => exact .decimal (Radix.denotes_iff_writes.2 hDigits) hNull
    | hexadecimal hDigits hNull => exact .hexadecimal (Radix.denotes_iff_writes.2 hDigits) hNull

theorem StandsFor.not_mem (h : StandsFor body c) : '&' ∉ body ∧ ';' ∉ body := by
  constructor
  · intro hMem
    exact h.not_mem_nonDigits '&' hMem (by decide)
  · intro hMem
    exact h.not_mem_nonDigits ';' hMem (by decide)

theorem decodes_iff_readsAs : Decodes text chars ↔ ReadsAs text chars := by
  constructor
  · intro h
    induction h with
    | nil => exact ⟨[], .nil, rfl⟩
    | @plain c text cs hc _ ih =>
        obtain ⟨pieces, hPieces, rfl⟩ := ih
        exact ⟨[c] :: pieces, .cons (.plain hc) hPieces, rfl⟩
    | @reference body text cs c hBody _ ih =>
        obtain ⟨pieces, hPieces, rfl⟩ := ih
        refine ⟨('&' :: (body ++ [';'])) :: pieces, ?_, by simp⟩
        exact .cons (.reference (standsFor_iff_names.1 hBody)) hPieces
  · rintro ⟨pieces, hPieces, rfl⟩
    induction hPieces with
    | nil => exact .nil
    | @cons piece c pieces cs hPiece _ ih =>
        cases hPiece with
        | plain hc => exact .plain hc ih
        | reference hBody => simpa using Decodes.reference (standsFor_iff_names.2 hBody) ih

theorem AllRefer.of_append (front : List Char) {back : List Char}
    (h : AllRefer (front ++ back)) : AllRefer back := by
  rintro before after rfl
  exact h (front ++ before) after (List.append_assoc ..).symm

theorem allRefer_of_decodes (h : Decodes text chars) : AllRefer text := by
  induction h with
  | nil =>
      intro before after hText
      simp at hText
  | @plain c text cs hc _ ih =>
      rintro (_ | ⟨d, before⟩) after hText
      · exact absurd (List.cons.inj hText).1 hc
      · exact ih before after (List.cons.inj hText).2
  | @reference body text cs c hBody _ ih =>
      obtain ⟨hAmp, hSemicolon⟩ := hBody.not_mem
      rintro (_ | ⟨d, before⟩) after hText
      · exact ⟨body, text, c, (List.cons.inj hText).2.symm, hAmp, hSemicolon,
          standsFor_iff_names.1 hBody⟩
      · -- the next `&` stands behind the body, which has none
        rcases List.append_eq_append_iff.1 (List.cons.inj hText).2 with
          ⟨more, rfl, hRest⟩ | ⟨more, rfl, hRest⟩
        · cases more with
          | nil => simp at hRest
          | cons e more => exact ih more after (List.cons.inj hRest).2
        · cases more with
          | nil => simp at hRest
          | cons e more =>
              obtain ⟨rfl, -⟩ := List.cons.inj hRest
              simp at hAmp

theorem exists_decodes_of_allRefer (h : AllRefer text) : ∃ chars, Decodes text chars := by
  induction hLength : text.length using Nat.strongRecOn generalizing text with
  | ind n ih =>
      cases text with
      | nil => exact ⟨[], .nil⟩
      | cons c cs =>
          by_cases hc : c = '&'
          · subst hc
            obtain ⟨body, rest, c, rfl, -, -, hNames⟩ := h [] cs rfl
            have hRest : AllRefer rest := by
              apply AllRefer.of_append ('&' :: (body ++ [';']))
              simpa using h
            obtain ⟨chars, hChars⟩ := ih rest.length (by simp at hLength; omega) hRest rfl
            exact ⟨c :: chars, .reference (standsFor_iff_names.2 hNames) hChars⟩
          · have hRest : AllRefer cs := AllRefer.of_append [c] h
            obtain ⟨chars, hChars⟩ := ih cs.length (by simp at hLength; omega) hRest rfl
            exact ⟨c :: chars, .plain hc hChars⟩

/-- The texts that can be decoded are those in which every `&` begins a reference. -/
theorem exists_decodes_iff : (∃ chars, Decodes text chars) ↔ AllRefer text := by
  constructor
  · rintro ⟨chars, h⟩
    exact allRefer_of_decodes h
  · exact exists_decodes_of_allRefer

/-- The text with each `&` written as a reference. -/
def escapeAmp (text : List Char) : List Char :=
  text.flatMap fun c => if c = '&' then ['&', 'a', 'm', 'p', ';'] else [c]

theorem decodes_escapeAmp (text : List Char) : Decodes (escapeAmp text) text := by
  induction text with
  | nil => exact .nil
  | cons c cs ih =>
      rw [escapeAmp, List.flatMap_cons]
      split
      · next hAmp =>
          subst hAmp
          exact .reference .amp ih
      · next hAmp => exact .plain hAmp ih

theorem not_mem_escapeAmp {stop : Char} (hStop : stop ∉ ['&', 'a', 'm', 'p', ';'])
    (h : stop ∉ text) : stop ∉ escapeAmp text := by
  rw [escapeAmp, List.mem_flatMap]
  rintro ⟨c, hc, hMem⟩
  split at hMem
  · exact hStop hMem
  · exact h (List.mem_singleton.1 hMem ▸ hc)

end Reference

namespace Document

/-- The outcome of a document on one line that has a single text to decode. -/
def fromText (text : List Char) (element : String → Element) : Except DocumentError Element :=
  match Reference.decode text with
  | .ok chars => .ok (element (String.ofList chars))
  | .error fault => .error (.malformed (.badReference fault) 1)

/-- Such a document is accepted exactly if every `&` in its text begins a reference, and its element
then holds what the text is read as. -/
structure DecodesOnce (outcome : Except DocumentError Element) (text : List Char)
    (element : String → Element) : Prop where
  accepted_iff : (∃ root, outcome = .ok root) ↔ Reference.AllRefer text
  value : ∀ root, outcome = .ok root ↔
    ∃ chars, Reference.ReadsAs text chars ∧ root = element (String.ofList chars)
  refused : ¬ Reference.AllRefer text →
    ∃ fault, outcome = .error (.malformed (.badReference fault) 1)

theorem fromText_eq_ok_iff {text : List Char} {element : String → Element} {root : Element} :
    fromText text element = .ok root ↔
      ∃ chars, Reference.ReadsAs text chars ∧ root = element (String.ofList chars) := by
  simp only [← Reference.decodes_iff_readsAs, ← Reference.decode_eq_ok_iff, fromText]
  cases Reference.decode text with
  | error fault => simp
  | ok chars => simp [eq_comm]

theorem decodesOnce_fromText (text : List Char) (element : String → Element) :
    DecodesOnce (fromText text element) text element := by
  have hAccepted : (∃ root, fromText text element = .ok root) ↔ Reference.AllRefer text := by
    rw [← Reference.exists_decodes_iff]
    constructor
    · rintro ⟨root, hRoot⟩
      obtain ⟨chars, hChars, -⟩ := fromText_eq_ok_iff.1 hRoot
      exact ⟨chars, Reference.decodes_iff_readsAs.2 hChars⟩
    · rintro ⟨chars, hChars⟩
      exact ⟨_, fromText_eq_ok_iff.2 ⟨chars, Reference.decodes_iff_readsAs.1 hChars, rfl⟩⟩
  refine ⟨hAccepted, fun root => fromText_eq_ok_iff, fun hBad => ?_⟩
  cases hDecode : Reference.decode text with
  | ok chars => exact absurd (hAccepted.1 ⟨_, by rw [fromText, hDecode]⟩) hBad
  | error fault => exact ⟨fault, by rw [fromText, hDecode]⟩

theorem fromText_of_decodes {text chars : List Char} (h : Reference.Decodes text chars)
    (element : String → Element) : fromText text element = .ok (element (String.ofList chars)) := by
  rw [fromText, Reference.decode_eq_ok_iff.2 h]

def openedWith (attributes : List Attribute) : OpenElement where
  rawName := ['a']
  scope := .reserved
  attributes := attributes
  children := []
  text := ""
  line := 1

theorem ofContent_bare : RawTag.ofContent ['a'] = ⟨['a'], [], none⟩ := by
  apply @Written.ofContent_append ['a'] []
  · decide
  · simp
  · exact Written.cutAttributes_space _ _ _ .nothing

theorem opens_bare : Opens .reserved 0 ['a'] 1 (openedWith []) := by
  refine ⟨by decide, ?_, ?_, ?_, rfl, rfl, rfl⟩ <;> rw [ofContent_bare] <;> rfl

/-- A start tag and an end tag around a run of characters, or around nothing. -/
theorem ofLexemes_around (run : List Char) (l₁ l₂ l₃ l₄ : UInt32) :
    ofLexemes [⟨.startTag ['a'], 1, l₁⟩, ⟨.text run, 1, l₂⟩, ⟨.endTag ['a'], l₃, l₄⟩] =
      fromText run fun text => ⟨"a", [], [], text, 1⟩ := by
  have hStart := step_startTag .empty l₁ opens_bare
  rw [ofLexemes_eq, List.foldlM_cons, hStart, Outcome.ok_bind, fromText]
  cases hDecode : Reference.decode run with
  | error fault => simp [Builder.step, hDecode]
  | ok chars =>
      rw [List.foldlM_cons, Builder.step_text (by simp) (Reference.decode_eq_ok_iff.1 hDecode),
        Outcome.ok_bind, Builder.addText_cons, List.foldlM_cons, step_endTag _ _ _ _ _ rfl]
      simp [Builder.empty, OpenElement.close, OpenElement.name, OpenElement.addText, openedWith]
      rfl

theorem ofLexemes_adjacent (l₁ l₃ l₄ : UInt32) :
    ofLexemes [⟨.startTag ['a'], 1, l₁⟩, ⟨.endTag ['a'], l₃, l₄⟩] = .ok ⟨"a", [], [], "", 1⟩ := by
  rw [ofLexemes_eq, List.foldlM_cons, step_startTag .empty l₁ opens_bare, Outcome.ok_bind,
    List.foldlM_cons, step_endTag _ _ _ _ _ rfl]
  rfl

/-- A text that is written as complete tokens, beginning with a tag, is read as these tokens. -/
theorem parse_eq_ofLexemes {text : String} {tokens : List Token}
    (hText : text.toList = tokens.flatMap Token.source)
    (hComplete : ∀ token ∈ tokens, token.Complete) (hHead : text.toList.head? = some '<') :
    parse text =
      ofLexemes (Lexeme.placed (Text.lineAt (Text.utf8 text.toList)) 0 (Token.merge tokens)) := by
  have hMark : text.toList.head? ≠ some Lexeme.byteOrderMark := by
    rw [hHead]
    decide
  rw [parse, Lexeme.ofText_eq_placed, Lexeme.withoutMark_eq_self hMark,
    ← Token.cut_flatMap_source hComplete, ← hText]

theorem parse_around {text : String} (h : '<' ∉ text.toList) :
    parse ("<a>" ++ text ++ "</a>") = fromText text.toList fun text => ⟨"a", [], [], text, 1⟩ := by
  have hTokens : ("<a>" ++ text ++ "</a>").toList =
      [Token.startTag ['a'], .text text.toList, .endTag ['a']].flatMap Token.source := by
    simp [Token.source]
  have hComplete : ∀ token ∈ [Token.startTag ['a'], .text text.toList, .endTag ['a']],
      token.Complete := by
    simp only [List.forall_mem_cons, List.not_mem_nil, false_imp_iff, implies_true, and_true]
    exact ⟨⟨⟨rfl, by simp⟩, by simp⟩, h, rfl⟩
  have hFront (position : Nat) (hPosition : position ≤ 3) :
      Text.lineAt (Text.utf8 ("<a>" ++ text ++ "</a>").toList) position = 1 := by
    rw [String.toList_append, String.toList_append, List.append_assoc]
    exact Text.lineAt_front (by decide) hPosition _
  rw [parse_eq_ofLexemes hTokens hComplete (by simp)]
  generalize Text.lineAt _ = lineOf at hFront
  by_cases hEmpty : text.toList = []
  · have hMerge : Token.merge [.startTag ['a'], .text text.toList, .endTag ['a']] =
        [.startTag ['a'], .endTag ['a']] := by
      rw [hEmpty]
      rfl
    rw [hMerge, hEmpty, fromText_of_decodes .nil]
    simp only [Lexeme.placed, hFront 0 (by decide)]
    exact ofLexemes_adjacent _ _ _
  · have hMerge : Token.merge [.startTag ['a'], .text text.toList, .endTag ['a']] =
        [.startTag ['a'], .text text.toList, .endTag ['a']] := by
      simp [Token.merge, Token.joinText, hEmpty]
    have hRun : lineOf (0 + Text.byteLength (Token.startTag ['a']).source) = 1 :=
      hFront 3 le_rfl
    rw [hMerge]
    simp only [Lexeme.placed, hFront 0 (by decide), hRun]
    exact ofLexemes_around _ _ _ _ _

def quotedContent (value : List Char) : List Char :=
  ['a'] ++ ([' ', 'k', '=', '"'] ++ (value ++ ['"']))

theorem ofContent_quoted {value : List Char} (h : '"' ∉ value) :
    RawTag.ofContent (quotedContent value) =
      ⟨['a'], [⟨2, ['k'], .ok value⟩], none⟩ := by
  apply Written.ofContent_append
  · decide
  · rintro c ⟨⟩
    rfl
  · have hValue (total : Nat) : RawTag.cutValue total ⟨4, '"' :: (value ++ ['"'])⟩ =
        .quoted value ⟨4 + Text.byteLength value + 2, []⟩ := by
      have hMark := Text.upToMark?_char h []
      have hSkip : (ContentCursor.mk 4 ('"' :: (value ++ ['"']))).skip isSpace =
          ⟨4, '"' :: (value ++ ['"'])⟩ := rfl
      simp [RawTag.cutValue, hSkip, hMark]
    rw [Written.cutAttributes_step rfl rfl (hValue _)]
    exact Written.cutAttributes_space _ _ _ .nothing

theorem resolve_quoted (value : List Char) :
    RawTag.resolve ⟨['a'], [⟨2, ['k'], .ok value⟩], none⟩ .reserved =
      match Reference.decode value with
      | .ok chars => .ok [⟨none, "k", String.ofList chars⟩]
      | .error fault => .error (.badReference fault) := by
  have hUri : Scope.reserved.namespaceOf? ['k'] = none := rfl
  have hName : localName ['k'] = ['k'] := rfl
  rw [RawTag.resolve]
  simp only [List.foldlM_cons, List.foldlM_nil, AttributeList.add, List.find?_nil, hUri, hName]
  cases Reference.decode value with
  | error fault => rfl
  | ok chars => rfl

theorem ofLexemes_quoted {value : List Char} (h : '"' ∉ value) (l : UInt32) :
    ofLexemes [⟨.emptyTag (quotedContent value), 1, l⟩] =
      fromText value fun value => ⟨"a", [⟨none, "k", value⟩], [], "", 1⟩ := by
  have hDeclares : Scope.reserved.declare [⟨2, ['k'], .ok value⟩] = .ok .reserved := rfl
  have hRoom : ¬ maxDepth ≤ Builder.empty.opened.length := by decide
  have hBegin : Builder.empty.begin (quotedContent value) 1 l =
      match Reference.decode value with
      | .ok chars => .ok (openedWith [⟨none, "k", String.ofList chars⟩])
      | .error fault => .error (.malformed (.badReference fault) 1) := by
    rw [Builder.begin, ofContent_quoted h]
    show (Scope.reserved.declare _).mapError _ >>= _ = _
    rw [hDeclares, Outcome.mapError_ok, Outcome.ok_bind, if_neg hRoom,
      OpenElement.ofTag, resolve_quoted]
    cases Reference.decode value with
    | error fault => rfl
    | ok chars => rfl
  rw [ofLexemes_eq, List.foldlM_cons, Builder.step]
  simp only [hBegin, fromText]
  cases Reference.decode value with
  | error fault => rfl
  | ok chars => rfl

theorem parse_quoted {value : String} (h : '"' ∉ value.toList) :
    parse ("<a k=\"" ++ value ++ "\"/>") =
      fromText value.toList fun value => ⟨"a", [⟨none, "k", value⟩], [], "", 1⟩ := by
  have hTokens : ("<a k=\"" ++ value ++ "\"/>").toList =
      [Token.emptyTag (quotedContent value.toList)].flatMap Token.source := by
    simp [Token.source, quotedContent]
  have hComplete : (Token.emptyTag (quotedContent value.toList)).Complete := by
    constructor
    · have hInside := Written.foldlM_tagStep_inside h
      have hOpen : ['a', ' ', 'k', '=', '"'].foldlM tagStep none = some (some '"') := rfl
      have hSplit : quotedContent value.toList ++ ['/'] =
          ['a', ' ', 'k', '=', '"'] ++ (value.toList ++ ['"', '/']) := by simp [quotedContent]
      rw [hSplit, List.foldlM_append, hOpen]
      show (value.toList ++ ['"', '/']).foldlM tagStep (some '"') = some none
      rw [List.foldlM_append, hInside]
      rfl
    · rintro c ⟨⟩
      decide
  have hFront : Text.lineAt (Text.utf8 ("<a k=\"" ++ value ++ "\"/>").toList) 0 = 1 := rfl
  rw [parse_eq_ofLexemes hTokens (by simpa using hComplete) (by simp)]
  generalize Text.lineAt _ = lineOf at hFront
  rw [Token.merge_cons_of_not_isText id, Token.merge, Lexeme.placed, hFront, Lexeme.placed]
  exact ofLexemes_quoted h _

/-- Character data and attribute values are decoded exactly once: what a reference is replaced by is
kept, even where it reads like the beginning of another reference. -/
theorem decodesOnce_parse :
    (∀ text : String, '<' ∉ text.toList →
      DecodesOnce (parse ("<a>" ++ text ++ "</a>")) text.toList
        fun text => ⟨"a", [], [], text, 1⟩) ∧
    (∀ value : String, '"' ∉ value.toList →
      DecodesOnce (parse ("<a k=\"" ++ value ++ "\"/>")) value.toList
        fun value => ⟨"a", [⟨none, "k", value⟩], [], "", 1⟩) ∧
    (∀ text : String, '<' ∉ text.toList →
      parse ("<a>" ++ String.ofList (Reference.escapeAmp text.toList) ++ "</a>") =
        .ok ⟨"a", [], [], text, 1⟩) ∧
    ∀ value : String, '"' ∉ value.toList →
      parse ("<a k=\"" ++ String.ofList (Reference.escapeAmp value.toList) ++ "\"/>") =
        .ok ⟨"a", [⟨none, "k", value⟩], [], "", 1⟩ := by
  refine ⟨fun text h => ?_, fun value h => ?_, fun text h => ?_, fun value h => ?_⟩
  · rw [parse_around h]
    exact decodesOnce_fromText _ _
  · rw [parse_quoted h]
    exact decodesOnce_fromText _ _
  · have hEscaped := Reference.not_mem_escapeAmp (by decide) h
    rw [← String.toList_ofList (l := Reference.escapeAmp text.toList)] at hEscaped
    rw [parse_around hEscaped, String.toList_ofList,
      fromText_of_decodes (Reference.decodes_escapeAmp _), String.ofList_toList]
  · have hEscaped := Reference.not_mem_escapeAmp (by decide) h
    rw [← String.toList_ofList (l := Reference.escapeAmp value.toList)] at hEscaped
    rw [parse_quoted hEscaped, String.toList_ofList,
      fromText_of_decodes (Reference.decodes_escapeAmp _), String.ofList_toList]

theorem decodesOnce_nested_reference :
    parse ("<a>" ++ "&#x26;lt;" ++ "</a>") = .ok ⟨"a", [], [], "&lt;", 1⟩ ∧
      ∃ fault, parse ("<a k=\"" ++ "&&lt;" ++ "\"/>") =
        .error (.malformed (.badReference fault) 1) := by
  constructor
  · apply ((decodesOnce_parse.1 "&#x26;lt;" (by decide)).value _).2
    refine ⟨['&', 'l', 't', ';'], ⟨[['&', '#', 'x', '2', '6', ';'], ['l'], ['t'], [';']], ?_, rfl⟩,
      rfl⟩
    have hNumber : Text.Radix.hexadecimal.Writes ['2', '6'] '&'.toNat :=
      ⟨by decide, by decide, by decide⟩
    exact .cons (.reference (.hexadecimal hNumber (by decide))) (.cons (.plain (by decide))
      (.cons (.plain (by decide)) (.cons (.plain (by decide)) .nil)))
  · apply (decodesOnce_parse.2.1 "&&lt;" (by decide)).refused
    intro hRefer
    obtain ⟨body, rest, c, hAfter, hAmp, -⟩ := hRefer [] ['&', 'l', 't', ';'] rfl
    cases body with
    | nil => cases hAfter
    | cons d ds =>
        obtain ⟨rfl, -⟩ := List.cons.inj hAfter
        exact hAmp List.mem_cons_self

end Document

end ContractDoc.Xml

import ContractDoc.Contract.OfXml
import ContractDoc.Proofs.Xml.Position
import ContractDoc.Proofs.Xml.Soundness

/-! # Truncated texts

What is read up to the end of the root element does not depend on what follows it, and nothing
shorter is accepted: the tokens of a shorter text, up to the end of its own root, would be the first
tokens of the longer one, where only text and remarks could follow them.
-/

namespace ContractDoc

namespace Xml

namespace Lexeme

def markOf (cs : List Char) : List Char :=
  if cs.head? = some byteOrderMark then [byteOrderMark] else []

theorem markOf_append_withoutMark (cs : List Char) : markOf cs ++ withoutMark cs = cs := by
  cases cs with
  | nil => rfl
  | cons c cs => by_cases h : c = byteOrderMark <;> simp [markOf, withoutMark, h]

theorem withoutMark_markOf_append {cs part : List Char} (h : part <+: withoutMark cs) :
    withoutMark (markOf cs ++ part) = part := by
  by_cases hMark : cs.head? = some byteOrderMark
  · simp [markOf, hMark, withoutMark]
  · rw [withoutMark_eq_self hMark] at h
    rw [markOf, if_neg hMark, List.nil_append]
    apply withoutMark_eq_self
    intro hPart
    obtain ⟨rest, rfl⟩ := h
    exact hMark (by rw [List.head?_append, hPart]; rfl)

/-- What a text begins with behind its mark, it begins with together with the mark. -/
theorem exists_prefix_of_prefix_withoutMark {text : String} {part : List Char}
    (h : part <+: withoutMark text.toList) :
    ∃ front : String, front.toList = markOf text.toList ++ part ∧ front.toList <+: text.toList ∧
      withoutMark front.toList = part := by
  refine ⟨String.ofList (markOf text.toList ++ part), String.toList_ofList, ?_, ?_⟩
  · rw [String.toList_ofList]
    conv_rhs => rw [← markOf_append_withoutMark text.toList]
    exact (List.prefix_append_right_inj _).2 h
  · rw [String.toList_ofList, withoutMark_markOf_append h]

theorem withoutMark_prefix {part whole : List Char} (h : part <+: whole) :
    withoutMark part <+: withoutMark whole := by
  obtain ⟨rest, rfl⟩ := h
  cases part with
  | nil => exact List.nil_prefix
  | cons c cs => by_cases hMark : c = byteOrderMark <;> simp [withoutMark, hMark]

theorem eq_of_withoutMark_eq {part whole : List Char} (h : part <+: whole)
    (hPart : withoutMark part ≠ []) (hSame : withoutMark part = withoutMark whole) :
    part = whole := by
  obtain ⟨rest, rfl⟩ := h
  cases part with
  | nil => exact absurd rfl hPart
  | cons c cs => by_cases hMark : c = byteOrderMark <;> simpa [withoutMark, hMark] using hSame

theorem byteLength_withoutMark_le (cs : List Char) :
    Text.byteLength (withoutMark cs) ≤ Text.byteLength cs := by
  conv_rhs => rw [← markOf_append_withoutMark cs, Text.byteLength_append]
  exact Nat.le_add_left _ _

/-- A text is given its lines by the text up to its own end. -/
theorem placed_of_prefix {part whole : List Char} (h : part <+: whole) {tokens : List Token}
    (hTokens : tokens.flatMap Token.source <+: withoutMark part) :
    placed (Text.lineAt (Text.utf8 part)) 0 tokens =
      placed (Text.lineAt (Text.utf8 whole)) 0 tokens := by
  apply placed_congr
  intro position hPosition
  obtain ⟨rest, rfl⟩ := h
  obtain ⟨others, hOthers⟩ := hTokens
  have hPart := byteLength_withoutMark_le part
  rw [← hOthers, Text.byteLength_append] at hPart
  rw [Text.utf8_append, Text.lineAt_append]
  rw [Text.length_utf8]
  omega

/-- The first tokens of a text are the first of its lexemes. -/
theorem eq_placed_of_append {f : Nat → UInt32} {position : Nat} {tokens : List Token}
    {before after : List Lexeme} (h : placed f position tokens = before ++ after) :
    before = placed f position (before.map token) := by
  have hTokens := congrArg (List.map token) h
  rw [map_token_placed, List.map_append] at hTokens
  rw [hTokens, placed_append] at h
  refine (List.append_inj_left h ?_).symm
  rw [← List.length_map token, map_token_placed, List.length_map]

end Lexeme

/-- The lexemes of a document up to the end of its root. -/
inductive EndsWithRoot : List Lexeme → Element → Prop
  | intro {before lexemes : List Lexeme} {root : Element} :
      (∀ lexeme ∈ before, lexeme.token.IsOuter) → IsElement .reserved 0 lexemes root →
      EndsWithRoot (before ++ lexemes) root

theorem IsDocument.exists_endsWithRoot {lexemes : List Lexeme} {root : Element}
    (h : IsDocument lexemes root) :
    ∃ front after, lexemes = front ++ after ∧ EndsWithRoot front root := by
  obtain @⟨before, lexemes, after, _, hBefore, hElement, -⟩ := h
  exact ⟨before ++ lexemes, after, rfl, .intro hBefore hElement⟩

namespace EndsWithRoot

variable {lexemes : List Lexeme} {root : Element}

theorem isDocument (h : EndsWithRoot lexemes root) : IsDocument lexemes root := by
  obtain ⟨hBefore, hElement⟩ := h
  have hDocument := IsDocument.intro hBefore hElement (List.forall_mem_nil _)
  rwa [List.append_nil] at hDocument

theorem foldlM_step (h : EndsWithRoot lexemes root) :
    lexemes.foldlM Builder.step .empty = .ok ⟨[], some root⟩ := by
  obtain ⟨hBefore, hElement⟩ := h
  rw [List.foldlM_append, Builder.empty, Builder.foldlM_step_outer hBefore, Outcome.ok_bind,
    hElement.foldlM_step]

theorem exists_last (h : EndsWithRoot lexemes root) :
    ∃ front last, lexemes = front ++ [last] ∧ ¬ last.token.IsOuter ∧
      last.token.source.getLast? = some '>' := by
  obtain @⟨before, _, _, hBefore, hElement⟩ := h
  cases hElement with
  | empty hOpens =>
      refine ⟨before, _, rfl, id, ?_⟩
      rw [Token.source, List.getLast?_append]
      rfl
  | @nested line endLine stopLine stopEndLine content stop inner element body below =>
      refine ⟨before ++ ⟨.startTag content, line, endLine⟩ :: body,
        ⟨.endTag stop, stopLine, stopEndLine⟩, by simp, id, ?_⟩
      rw [Token.source, List.getLast?_append]
      rfl

theorem withoutMark_ne_nil (h : EndsWithRoot lexemes root) {text : String} {after : List Lexeme}
    (hSplit : Lexeme.ofText text = lexemes ++ after) : Lexeme.withoutMark text.toList ≠ [] := by
  intro hNil
  have hTokens := Lexeme.map_token_ofText text
  obtain ⟨_, _, rfl, -⟩ := h.exists_last
  rw [hNil, Token.cut_nil, hSplit] at hTokens
  simp at hTokens

/-- Once the root is closed, nothing but text and remarks is accepted. -/
theorem isOuter_of_append (h : EndsWithRoot lexemes root) {more : List Lexeme} {element : Element}
    (hMore : Document.ofLexemes (lexemes ++ more) = .ok element) :
    ∀ lexeme ∈ more, lexeme.token.IsOuter := by
  obtain ⟨final, hFold, hFinish⟩ := Document.exists_builder hMore
  obtain ⟨next, hNext, hRest⟩ := Outcome.foldlM_append_eq_ok_iff.1 hFold
  obtain rfl := Except.ok.inj (h.foldlM_step.symm.trans hNext)
  refine (isOuter_of_foldlM hRest ?_).1
  unfold Builder.finish at hFinish
  split at hFinish
  · simp at hFinish
  · assumption
  · simp at hFinish

end EndsWithRoot

/-- The lexemes of an accepted text in two parts: the tokens of the first one are complete, no two
of them can be joined, and the second one covers what they leave. -/
theorem split_of_parse {text : String} {root : Element} (h : Document.parse text = .ok root)
    {front after : List Lexeme} (hSplit : Lexeme.ofText text = front ++ after) :
    (∀ token ∈ front.map Lexeme.token, token.Complete) ∧
      Token.merge (front.map Lexeme.token) = front.map Lexeme.token ∧
      (front.map Lexeme.token).flatMap Token.source ++
          (after.map Lexeme.token).flatMap Token.source = Lexeme.withoutMark text.toList := by
  obtain ⟨hComplete, hCovers, hSeparated⟩ := tokens_of_parse h
  rw [← Lexeme.map_token_ofText, hSplit, List.map_append] at hComplete hCovers hSeparated
  refine ⟨fun token hToken => hComplete token (List.mem_append_left _ hToken),
    hSeparated.left.merge_eq, ?_⟩
  rwa [← List.flatMap_append]

theorem Token.not_isText_of_not_isOuter {token : Token} (h : ¬ token.IsOuter) : ¬ token.IsText := by
  cases token <;> first | exact id | exact absurd trivial h

/-- Whatever follows the root of an accepted text, the tokens up to its end stay the first ones. -/
theorem cut_append_of_endsWithRoot {part : String} {root : Element}
    (hPart : Document.parse part = .ok root) {front after : List Lexeme}
    (hSplit : Lexeme.ofText part = front ++ after) (hFront : EndsWithRoot front root)
    (rest : List Char) :
    Token.cut (Lexeme.withoutMark part.toList ++ rest) =
      front.map Lexeme.token ++
        Token.cut ((after.map Lexeme.token).flatMap Token.source ++ rest) := by
  obtain ⟨hComplete, hMerge, hCovers⟩ := split_of_parse hPart hSplit
  obtain ⟨init, last, rfl, hLast, -⟩ := hFront.exists_last
  rw [List.map_append, List.map_singleton] at hMerge hComplete hCovers ⊢
  have hCut := Token.cut_flatMap_source_append
    (fun token hToken => hComplete token (List.mem_append_left _ hToken))
    (hComplete last.token (by simp)) (Token.not_isText_of_not_isOuter hLast)
    ((after.map Lexeme.token).flatMap Token.source ++ rest)
  rw [hMerge] at hCut
  rw [← hCut, ← hCovers, List.append_assoc]

/-- The first lexemes of a text, up to the end of its root, are the first ones of every longer text
that has their tokens in front. -/
theorem ofText_of_cut_append {part whole : String} {root : Element}
    (hPrefix : part.toList <+: whole.toList) (hPart : Document.parse part = .ok root)
    {front after : List Lexeme} (hSplit : Lexeme.ofText part = front ++ after)
    {tokens : List Token}
    (hCut : Token.cut (Lexeme.withoutMark whole.toList) = front.map Lexeme.token ++ tokens) :
    ∃ more, Lexeme.ofText whole = front ++ more ∧ more.map Lexeme.token = tokens := by
  obtain ⟨-, -, hCovers⟩ := split_of_parse hPart hSplit
  rw [Lexeme.ofText_eq_placed] at hSplit ⊢
  have hFront := Lexeme.eq_placed_of_append hSplit
  rw [Lexeme.placed_of_prefix hPrefix ⟨_, hCovers⟩] at hFront
  rw [hCut, Lexeme.placed_append, ← hFront]
  exact ⟨_, rfl, Lexeme.map_token_placed _ _ tokens⟩

/-- A text that is accepted, and goes on as an accepted text that ends with its root, is the whole
of that text. -/
theorem eq_of_prefix {part whole : String} {root root' : Element}
    (hPrefix : part.toList <+: whole.toList) (hPart : Document.parse part = .ok root')
    (hWhole : EndsWithRoot (Lexeme.ofText whole) root) : part = whole := by
  obtain ⟨rest, hRest⟩ := Lexeme.withoutMark_prefix hPrefix
  obtain ⟨front, after, hSplit, hFront⟩ := (ofLexemes_eq_ok_iff.1 hPart).exists_endsWithRoot
  have hCut := cut_append_of_endsWithRoot hPart hSplit hFront rest
  obtain ⟨more, hMore, hMoreTokens⟩ :=
    ofText_of_cut_append hPrefix hPart hSplit (hRest ▸ hCut)
  obtain ⟨init, last, hInit, hLast, -⟩ := hWhole.exists_last
  rcases List.eq_nil_or_concat more with rfl | ⟨others, other, rfl⟩
  · -- Nothing follows the root, so no character can have been cut off.
    have hNone := List.append_eq_nil_iff.1 (Token.cut_eq_nil_iff.1 hMoreTokens.symm)
    have hPartNe := hFront.withoutMark_ne_nil hSplit
    rw [hNone.2, List.append_nil] at hRest
    exact String.toList_inj.1 (Lexeme.eq_of_withoutMark_eq hPrefix hPartNe hRest)
  · -- What follows the root ends with the tag that closes the root of the longer text.
    have hOuter := hFront.isOuter_of_append (hMore ▸ hWhole.isDocument.ofLexemes)
    rw [hMore, List.concat_eq_append, ← List.append_assoc] at hInit
    obtain rfl := List.singleton_inj.1 (List.append_inj' hInit rfl).2
    exact absurd (hOuter other (by simp)) hLast

theorem exists_endsWithRoot_of_parse {text : String} {root : Element}
    (h : Document.parse text = .ok root) :
    ∃ (whole : String) (after : List Lexeme), whole.toList <+: text.toList ∧
      whole.toList.getLast? = some '>' ∧ Lexeme.ofText text = Lexeme.ofText whole ++ after ∧
        EndsWithRoot (Lexeme.ofText whole) root := by
  obtain ⟨front, after, hSplit, hFront⟩ := (ofLexemes_eq_ok_iff.1 h).exists_endsWithRoot
  obtain ⟨hComplete, hMerge, hCovers⟩ := split_of_parse h hSplit
  have hPart : (front.map Lexeme.token).flatMap Token.source <+: Lexeme.withoutMark text.toList :=
    ⟨_, hCovers⟩
  obtain ⟨whole, hWhole, hPrefix, hText⟩ := Lexeme.exists_prefix_of_prefix_withoutMark hPart
  have hCut : Token.cut (Lexeme.withoutMark whole.toList) = front.map Lexeme.token := by
    rw [hText, Token.cut_flatMap_source hComplete, hMerge]
  have hLexemes : Lexeme.ofText whole = front := by
    rw [Lexeme.ofText_eq_placed] at hSplit
    rw [Lexeme.ofText_eq_placed, hCut, Lexeme.eq_placed_of_append hSplit,
      Lexeme.map_token_placed]
    exact Lexeme.placed_of_prefix hPrefix (hText ▸ List.prefix_rfl)
  refine ⟨whole, after, hPrefix, ?_, by rw [hLexemes, hSplit], hLexemes ▸ hFront⟩
  obtain ⟨init, last, rfl, -, hLast⟩ := hFront.exists_last
  rw [hWhole, List.map_append, List.flatMap_append, ← List.append_assoc, List.getLast?_append,
    List.map_singleton, List.flatMap_singleton, hLast]
  rfl

end Xml

/-- An accepted text has a prefix that ends with the last tag of its root and is accepted alike,
with the same lines, while no proper prefix of that one is. So no part of a contract document is
accepted that lacks the end of the root. -/
theorem exists_prefix_up_to_root {text : String} {root : Xml.Element}
    (h : Xml.Document.parse text = .ok root) :
    ∃ whole : String, whole.toList <+: text.toList ∧ whole.toList.getLast? = some '>' ∧
      (∃ after, Xml.Lexeme.ofText text = Xml.Lexeme.ofText whole ++ after) ∧
      Xml.EndsWithRoot (Xml.Lexeme.ofText whole) root ∧
      Xml.Document.parse whole = .ok root ∧ Contract.parse whole = Contract.parse text ∧
      (∀ part : String, part.toList <+: whole.toList → part ≠ whole →
        ∃ error, Xml.Document.parse part = .error error) ∧
      ∀ part : String, part.toList <+: text.toList → ¬ whole.toList <+: part.toList →
        ∃ error, Contract.parse part = .error error := by
  obtain ⟨whole, after, hPrefix, hLast, hSplit, hWhole⟩ := Xml.exists_endsWithRoot_of_parse h
  have hParse : Xml.Document.parse whole = .ok root := hWhole.isDocument.ofLexemes
  have hParts : ∀ part : String, part.toList <+: whole.toList → part ≠ whole →
      ∃ error, Xml.Document.parse part = .error error := by
    intro part hPart hne
    cases hResult : Xml.Document.parse part with
    | error error => exact ⟨error, rfl⟩
    | ok root' => exact absurd (Xml.eq_of_prefix hPart hResult hWhole) hne
  refine ⟨whole, hPrefix, hLast, ⟨after, hSplit⟩, hWhole, hParse, ?_, hParts, ?_⟩
  · rw [Contract.parse, Contract.parse, hParse, h]
  · intro part hPart hLacks
    rcases List.prefix_or_prefix_of_prefix hPart hPrefix with hShort | hLong
    · have hne : part ≠ whole := fun hEq => hLacks (hEq ▸ List.prefix_rfl)
      obtain ⟨error, hError⟩ := hParts part hShort hne
      refine ⟨error, ?_⟩
      rw [Contract.parse, hError]
      rfl
    · exact absurd hLong hLacks

/-- A text with a mark, a comment in front and another behind the root. -/
theorem exists_prefix_up_to_short_root :
    Xml.Document.parse "\uFEFF<!-- > -->\n<a k='>'>1<b/></a ><!-- -->\n" =
        .ok ⟨"a", [⟨none, "k", ">"⟩], [⟨"b", [], [], "", 2⟩], "1", 1⟩ ∧
      ∃ whole : String,
        whole.toList <+: "\uFEFF<!-- > -->\n<a k='>'>1<b/></a ><!-- -->\n".toList ∧
          whole.toList.getLast? = some '>' ∧
            Xml.Document.parse whole =
              .ok ⟨"a", [⟨none, "k", ">"⟩], [⟨"b", [], [], "", 2⟩], "1", 1⟩ ∧
              ∀ part : String, part.toList <+: whole.toList → part ≠ whole →
                ∃ error, Xml.Document.parse part = .error error := by
  have hParse : Xml.Document.parse "\uFEFF<!-- > -->\n<a k='>'>1<b/></a ><!-- -->\n" =
      .ok ⟨"a", [⟨none, "k", ">"⟩], [⟨"b", [], [], "", 2⟩], "1", 1⟩ := by
    decide +kernel
  obtain ⟨whole, hPrefix, hLast, -, -, hWhole, -, hParts, -⟩ := exists_prefix_up_to_root hParse
  exact ⟨hParse, whole, hPrefix, hLast, hWhole, hParts⟩

end ContractDoc

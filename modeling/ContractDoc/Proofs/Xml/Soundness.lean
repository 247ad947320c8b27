import ContractDoc.Proofs.Xml.Acceptance

/-! # Accounting for accepted texts

Nothing of an accepted text is skipped, read twice or put in another place. Its tokens cover it
without gaps, their tags are nested like the elements of the tree, and at every point the reader
holds open exactly the tags that the text has open there, with one open element for each of them.
-/

namespace ContractDoc.Xml

namespace Token

/-- The raw names of the tags that are open after one more token, the innermost one first. -/
def hold (held : List (List Char)) : Token → List (List Char)
  | startTag content => (RawTag.ofContent content).name :: held
  | endTag _ => held.tail
  | _ => held

/-- The raw names of the tags that some tokens leave open, the innermost one first. -/
def heldOpen (tokens : List Token) : List (List Char) := tokens.foldl hold []

/-- The tags that begin elements, in order, by local name and with the number of tags that are open
around them. -/
def outlineFrom (depth : Nat) : List Token → List (Nat × String)
  | [] => []
  | startTag content :: tokens =>
      (depth, String.ofList (localName (RawTag.ofContent content).name)) ::
        outlineFrom (depth + 1) tokens
  | emptyTag content :: tokens =>
      (depth, String.ofList (localName (RawTag.ofContent content).name)) :: outlineFrom depth tokens
  | endTag _ :: tokens => outlineFrom (depth - 1) tokens
  | _ :: tokens => outlineFrom depth tokens

end Token

/-- The elements of a tree in document order, by name and with the number of elements around
them. -/
def Element.outline (depth : Nat) : Element → List (Nat × String)
  | ⟨name, _, children, _, _⟩ => (depth, name) :: outlineAll (depth + 1) children
where
  outlineAll (depth : Nat) : List Element → List (Nat × String)
    | [] => []
    | e :: es => e.outline depth ++ outlineAll depth es

def Reader.rawNames (reader : Reader) : List (List Char) := reader.held.map HeldTag.rawName

theorem Reader.Reads.isBroken_eq_false {reader next : Reader} {token : Token} {event : Event}
    (h : reader.Reads token event next) : token.isBroken = false := by
  cases h <;> rfl

/-- A reader changes the tags that it holds as the token changes the open tags, and an end tag finds
the tag open whose name it repeats. -/
theorem Reader.Reads.rawNames {reader next : Reader} {token : Token} {event : Event}
    (h : reader.Reads token event next) :
    next.rawNames = Token.hold reader.rawNames token ∧
      ∀ stop, token = .endTag stop → reader.rawNames.head? = some (endName stop) := by
  cases h with
  | stop hHeld hName =>
      rw [Reader.rawNames, Reader.rawNames, hHeld]
      refine ⟨rfl, ?_⟩
      rintro _ ⟨rfl⟩
      exact congrArg some hName
  | start | empty | text | cdata | comment | instruction | doctype =>
      refine ⟨rfl, ?_⟩
      rintro _ ⟨⟩

theorem Loop.rawNames_step {loop next : Loop} {lexeme : Lexeme} (h : loop.step lexeme = .ok next) :
    next.reader.rawNames = Token.hold loop.reader.rawNames lexeme.token ∧
      ∀ stop, lexeme.token = .endTag stop →
        loop.reader.rawNames.head? = some (endName stop) := by
  obtain ⟨event, hRead, -⟩ := step_eq_ok_iff.1 h
  exact (Reader.reads_of_read hRead).rawNames

theorem Loop.rawNames_foldlM {loop next : Loop} {lexemes : List Lexeme}
    (h : lexemes.foldlM Loop.step loop = .ok next) :
    next.reader.rawNames =
      (lexemes.map Lexeme.token).foldl Token.hold loop.reader.rawNames := by
  induction lexemes generalizing loop with
  | nil =>
      obtain rfl := Except.ok.inj h
      rfl
  | cons lexeme rest ih =>
      obtain ⟨between, hStep, hRest⟩ := Outcome.foldlM_cons_eq_ok_iff.1 h
      rw [ih hRest, (rawNames_step hStep).1]
      rfl

theorem rawNames_loop (builder : Builder) :
    builder.loop.reader.rawNames = builder.opened.map OpenElement.rawName := by
  simp only [Builder.loop, Reader.rawNames, List.map_map]
  rfl

/-- A step changes the open elements as its token changes the open tags. -/
theorem opened_step {builder next : Builder} {lexeme : Lexeme}
    (h : builder.step lexeme = .ok next) :
    next.opened.map OpenElement.rawName =
      Token.hold (builder.opened.map OpenElement.rawName) lexeme.token := by
  have hStep : builder.loop.step lexeme = .ok next.loop := by
    rw [Builder.step_loop, h]
    rfl
  rw [← rawNames_loop, ← rawNames_loop]
  exact (Loop.rawNames_step hStep).1

theorem opened_foldlM {builder : Builder} {lexemes : List Lexeme}
    (h : lexemes.foldlM Builder.step .empty = .ok builder) :
    builder.opened.map OpenElement.rawName = Token.heldOpen (lexemes.map Lexeme.token) := by
  have hFold : lexemes.foldlM Loop.step .initial = .ok builder.loop := by
    rw [foldlM_loop, h]
    rfl
  rw [← rawNames_loop]
  exact Loop.rawNames_foldlM hFold

theorem outlineAll_eq_flatMap (depth : Nat) (elements : List Element) :
    Element.outline.outlineAll depth elements = elements.flatMap (Element.outline depth) := by
  induction elements with
  | nil => rfl
  | cons e es ih => rw [Element.outline.outlineAll, ih, List.flatMap_cons]

theorem outline_closeWith {scope : Scope} {depth : Nat} {line : UInt32} {content : List Char}
    {element : OpenElement} (h : Opens scope depth content line element) (text : List Char)
    (children : List Element) (d : Nat) :
    (element.closeWith text children).outline d =
      (d, String.ofList (localName (RawTag.ofContent content).name)) ::
        children.flatMap (Element.outline (d + 1)) := by
  rw [OpenElement.closeWith, Element.outline, outlineAll_eq_flatMap, OpenElement.name, h.rawName]

theorem Content.outlineFrom {scope : Scope} {depth : Nat} {lexemes : List Lexeme}
    {text : List Char} {children : List Element} (h : Content scope depth lexemes text children)
    (rest : List Token) :
    Token.outlineFrom depth (lexemes.map Lexeme.token ++ rest) =
      children.flatMap (Element.outline depth) ++ Token.outlineFrom depth rest := by
  induction h generalizing rest with
  | nil => rfl
  | text _ _ ih => exact ih rest
  | cdata _ ih => exact ih rest
  | @remark scope depth lexeme text lexemes children hRemark _ ih =>
      obtain ⟨token, line, endLine⟩ := lexeme
      cases token <;> first | exact ih rest | exact hRemark.elim
  | empty hOpens _ ih =>
      rw [List.flatMap_cons, outline_closeWith hOpens]
      simp [Token.outlineFrom, ih]
  | nested hOpens _ _ _ ihBody ih =>
      rw [List.flatMap_cons, outline_closeWith hOpens]
      simp [Token.outlineFrom, ihBody, ih]

theorem IsElement.outlineFrom {scope : Scope} {depth : Nat} {lexemes : List Lexeme}
    {element : Element} (h : IsElement scope depth lexemes element) (rest : List Token) :
    Token.outlineFrom depth (lexemes.map Lexeme.token ++ rest) =
      element.outline depth ++ Token.outlineFrom depth rest := by
  cases h with
  | empty hOpens =>
      rw [outline_closeWith hOpens]
      simp [Token.outlineFrom]
  | nested hOpens hBody =>
      rw [outline_closeWith hOpens]
      simp [Token.outlineFrom, hBody.outlineFrom]

theorem outlineFrom_outer (depth : Nat) {lexemes : List Lexeme}
    (h : ∀ lexeme ∈ lexemes, lexeme.token.IsOuter) (rest : List Token) :
    Token.outlineFrom depth (lexemes.map Lexeme.token ++ rest) = Token.outlineFrom depth rest := by
  induction lexemes with
  | nil => rfl
  | cons lexeme lexemes ih =>
      have hRest := ih fun l hl => h l (List.mem_cons_of_mem _ hl)
      have hFirst := h lexeme List.mem_cons_self
      obtain ⟨token, line, endLine⟩ := lexeme
      cases token <;> first | exact hRest | exact hFirst.elim

theorem IsDocument.outlineFrom {lexemes : List Lexeme} {root : Element}
    (h : IsDocument lexemes root) :
    Token.outlineFrom 0 (lexemes.map Lexeme.token) = root.outline 0 := by
  obtain ⟨hBefore, hElement, hAfter⟩ := h
  have hRest := outlineFrom_outer 0 hAfter []
  rw [List.append_nil] at hRest
  rw [List.map_append, List.map_append, List.append_assoc, outlineFrom_outer 0 hBefore,
    hElement.outlineFrom, hRest]
  simp [Token.outlineFrom]

/-- The lexemes account for every character of a text and for every part of an element tree. -/
structure Accounts (chars : List Char) (lexemes : List Lexeme) (root : Element) : Prop where
  covers : (lexemes.map Lexeme.token).flatMap Token.source = chars
  complete : ∀ lexeme ∈ lexemes, lexeme.token.Complete
  separated : Token.Separated (lexemes.map Lexeme.token)
  document : IsDocument lexemes root
  outline : Token.outlineFrom 0 (lexemes.map Lexeme.token) = root.outline 0
  held : ∀ before lexeme after, lexemes = before ++ lexeme :: after →
    ∃ loop, before.foldlM Loop.step .initial = .ok loop ∧
      loop.reader.rawNames = Token.heldOpen (before.map Lexeme.token) ∧
        ∀ stop, lexeme.token = .endTag stop →
          loop.reader.rawNames.head? = some (endName stop)

/-- The elements that are open belong to the tags that the reader holds open, one to one and in
order, so that there is one to close wherever a tag ends. -/
structure Loop.Lockstep (loop : Loop) : Prop where
  names : loop.assembly.opened.map UnclosedElement.name = loop.reader.held.map HeldTag.name
  length : loop.assembly.opened.length = loop.reader.held.length
  stop : ∀ token reader, loop.reader.read token = .ok (.stop, reader) → loop.assembly.opened ≠ []

theorem not_isBroken_of_foldlM {lexemes : List Lexeme} {loop final : Loop}
    (h : lexemes.foldlM Loop.step loop = .ok final) :
    ∀ lexeme ∈ lexemes, lexeme.token.isBroken = false := by
  induction lexemes generalizing loop with
  | nil => simp
  | cons lexeme rest ih =>
      obtain ⟨next, hStep, hRest⟩ := Outcome.foldlM_cons_eq_ok_iff.1 h
      intro l hl
      rcases List.mem_cons.1 hl with rfl | hl
      · obtain ⟨event, hRead, -⟩ := Loop.step_eq_ok_iff.1 hStep
        exact (Reader.reads_of_read hRead).isBroken_eq_false
      · exact ih hRest l hl

/-- The tokens of an accepted text are complete, cover it and are separated. -/
theorem tokens_of_parse {text : String} {root : Element} (h : Document.parse text = .ok root) :
    (∀ token ∈ Token.cut (Lexeme.withoutMark text.toList), token.Complete) ∧
      (Token.cut (Lexeme.withoutMark text.toList)).flatMap Token.source =
        Lexeme.withoutMark text.toList ∧
      Token.Separated (Token.cut (Lexeme.withoutMark text.toList)) := by
  obtain ⟨final, hFold, -⟩ := Outcome.bind_eq_ok_iff.1 h
  have hWhole : ∀ token ∈ Token.cut (Lexeme.withoutMark text.toList), token.isBroken = false := by
    rw [← Lexeme.map_token_ofText]
    exact List.forall_mem_map.2 (not_isBroken_of_foldlM hFold)
  obtain ⟨hComplete, hSeparated⟩ := Token.complete_and_separated_cut hWhole
  exact ⟨hComplete, Token.flatMap_source_cut hWhole, hSeparated⟩

/-- The lexemes of an accepted text account for all of it, a byte order mark apart, and for the
whole tree that is built from it. In the states of the loop, on whatever lexemes it comes there, the
two stacks are in step. -/
theorem accounts_of_parse {text : String} {root : Element} (h : Document.parse text = .ok root) :
    Accounts (Lexeme.withoutMark text.toList) (Lexeme.ofText text) root ∧
      ∀ loop : Loop, loop.Reachable → loop.Lockstep := by
  obtain ⟨hComplete, hCovers, hSeparated⟩ := tokens_of_parse h
  have hDocument := ofLexemes_eq_ok_iff.1 h
  have hTokens := Lexeme.map_token_ofText text
  refine ⟨?_, fun loop hLoop => ?_⟩
  · refine
      { covers := hTokens ▸ hCovers
        complete := fun lexeme hLexeme => hComplete _ (hTokens ▸ List.mem_map_of_mem hLexeme)
        separated := hTokens ▸ hSeparated
        document := hDocument
        outline := hDocument.outlineFrom
        held := fun before lexeme after hSplit => ?_ }
    obtain ⟨final, hFold, -⟩ := Outcome.bind_eq_ok_iff.1 h
    rw [hSplit] at hFold
    obtain ⟨loop, hBefore, hFrom⟩ := Outcome.foldlM_append_eq_ok_iff.1 hFold
    obtain ⟨next, hStep, -⟩ := Outcome.foldlM_cons_eq_ok_iff.1 hFrom
    exact ⟨loop, hBefore, Loop.rawNames_foldlM hBefore, (Loop.rawNames_step hStep).2⟩
  · exact
      { names := hLoop.inStep
        length := hLoop.inStep.length_eq
        stop := fun _ _ => hLoop.inStep.opened_ne_nil }

/-- A text with a byte order mark, a prolog, references, a character data section and tags of all
three kinds. -/
theorem accounts_of_mixed_parse :
    Document.parse "\uFEFF<?xml?><a:r x='1'>1&lt;2<!-- < --><b /><![CDATA[&]]></a:r >\n" =
        .ok ⟨"r", [⟨none, "x", "1"⟩], [⟨"b", [], [], "", 1⟩], "1<2&", 1⟩ ∧
      Accounts (Lexeme.withoutMark
          "\uFEFF<?xml?><a:r x='1'>1&lt;2<!-- < --><b /><![CDATA[&]]></a:r >\n".toList)
        (Lexeme.ofText "\uFEFF<?xml?><a:r x='1'>1&lt;2<!-- < --><b /><![CDATA[&]]></a:r >\n")
        ⟨"r", [⟨none, "x", "1"⟩], [⟨"b", [], [], "", 1⟩], "1<2&", 1⟩ ∧
      ∀ loop : Loop, loop.Reachable → loop.Lockstep := by
  have h : Document.parse "\uFEFF<?xml?><a:r x='1'>1&lt;2<!-- < --><b /><![CDATA[&]]></a:r >\n" =
      .ok ⟨"r", [⟨none, "x", "1"⟩], [⟨"b", [], [], "", 1⟩], "1<2&", 1⟩ := by
    decide +kernel
  exact ⟨h, accounts_of_parse h⟩

end ContractDoc.Xml

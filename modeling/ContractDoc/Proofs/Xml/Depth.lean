import ContractDoc.Proofs.Xml.Lines

/-! # The limit on depth

Apart from the limit, a document is well formed if its tags are nested and each tag and each text in
it is valid. Of these documents exactly the ones whose trees are not higher than the limit are
accepted, and every other one is refused at the first tag with as many open tags around it as the
limit allows.
-/

namespace ContractDoc.Xml

/-- How many elements stand in each other, the element itself included. -/
def Element.height : Element → Nat
  | ⟨_, _, children, _, _⟩ => heightAll children + 1
where
  heightAll : List Element → Nat
    | [] => 0
    | e :: es => max e.height (heightAll es)

/-- The lexemes between two tags, and the character data and the children that they make up,
however deep they stand. -/
inductive NestedContent : Scope → List Lexeme → List Char → List Element → Prop
  | nil {scope : Scope} : NestedContent scope [] [] []
  | text {scope : Scope} {line endLine : UInt32} {run chars text : List Char} {lexemes : List Lexeme}
      {children : List Element} :
      Reference.Decodes run chars → NestedContent scope lexemes text children →
      NestedContent scope (⟨.text run, line, endLine⟩ :: lexemes) (chars ++ text) children
  | cdata {scope : Scope} {line endLine : UInt32} {content text : List Char} {lexemes : List Lexeme}
      {children : List Element} :
      NestedContent scope lexemes text children →
      NestedContent scope (⟨.cdata content, line, endLine⟩ :: lexemes) (content ++ text) children
  | remark {scope : Scope} {lexeme : Lexeme} {text : List Char} {lexemes : List Lexeme}
      {children : List Element} :
      lexeme.token.IsRemark → NestedContent scope lexemes text children →
      NestedContent scope (lexeme :: lexemes) text children
  | empty {scope : Scope} {line endLine : UInt32} {content text : List Char} {element : OpenElement}
      {lexemes : List Lexeme} {children : List Element} :
      Opens scope 0 content line element → NestedContent scope lexemes text children →
      NestedContent scope (⟨.emptyTag content, line, endLine⟩ :: lexemes) text
        (element.closeWith [] [] :: children)
  | nested {scope : Scope} {line endLine stopLine stopEndLine : UInt32}
      {content stop inner text : List Char} {element : OpenElement} {body lexemes : List Lexeme}
      {below children : List Element} :
      Opens scope 0 content line element → NestedContent element.scope body inner below →
      endName stop = element.rawName → NestedContent scope lexemes text children →
      NestedContent scope
        (⟨.startTag content, line, endLine⟩ ::
          (body ++ ⟨.endTag stop, stopLine, stopEndLine⟩ :: lexemes)) text
        (element.closeWith inner below :: children)

inductive IsNestedElement (scope : Scope) : List Lexeme → Element → Prop
  | empty {line endLine : UInt32} {content : List Char} {element : OpenElement} :
      Opens scope 0 content line element →
      IsNestedElement scope [⟨.emptyTag content, line, endLine⟩] (element.closeWith [] [])
  | nested {line endLine stopLine stopEndLine : UInt32} {content stop inner : List Char}
      {element : OpenElement} {body : List Lexeme} {below : List Element} :
      Opens scope 0 content line element → NestedContent element.scope body inner below →
      endName stop = element.rawName →
      IsNestedElement scope
        (⟨.startTag content, line, endLine⟩ ::
          (body ++ [⟨.endTag stop, stopLine, stopEndLine⟩])) (element.closeWith inner below)

inductive IsNestedDocument : List Lexeme → Element → Prop
  | intro {before lexemes after : List Lexeme} {root : Element} :
      (∀ lexeme ∈ before, lexeme.token.IsOuter) → IsNestedElement .reserved lexemes root →
      (∀ lexeme ∈ after, lexeme.token.IsOuter) → IsNestedDocument (before ++ lexemes ++ after) root

theorem IsNestedElement.isNestedDocument {lexemes : List Lexeme} {root : Element}
    (h : IsNestedElement .reserved lexemes root) : IsNestedDocument lexemes root := by
  have hDocument := IsNestedDocument.intro (List.forall_mem_nil _) h (List.forall_mem_nil _)
  rwa [List.append_nil] at hDocument

open Element.height (heightAll)

variable {scope : Scope} {depth : Nat} {line : UInt32} {content text : List Char}
  {element : OpenElement}
  {lexemes : List Lexeme} {children : List Element} {root : Element}

/-- Apart from the limit, it does not matter how deep a tag stands. -/
theorem Opens.at_depth {depth' : Nat} (h : Opens scope depth content line element)
    (hRoom : depth' < maxDepth) : Opens scope depth' content line element :=
  { h with room := hRoom }

theorem maxDepth_pos : 0 < maxDepth := by decide

theorem Content.toNested (h : Content scope depth lexemes text children) :
    NestedContent scope lexemes text children := by
  induction h with
  | nil => exact .nil
  | text hRun _ ih => exact .text hRun ih
  | cdata _ ih => exact .cdata ih
  | remark hRemark _ ih => exact .remark hRemark ih
  | empty hOpens _ ih => exact .empty (hOpens.at_depth maxDepth_pos) ih
  | nested hOpens _ hStop _ ihBody ih =>
      exact .nested (hOpens.at_depth maxDepth_pos) ihBody hStop ih

theorem Content.height_le (h : Content scope depth lexemes text children)
    (hDepth : depth ≤ maxDepth) : depth + heightAll children ≤ maxDepth := by
  induction h with
  | nil => exact hDepth
  | text _ _ ih | cdata _ ih | remark _ _ ih => exact ih hDepth
  | empty hOpens _ ih =>
      have hRoom := hOpens.room
      have hRest := ih hDepth
      simp only [heightAll, OpenElement.closeWith, Element.height]
      omega
  | nested hOpens _ _ _ ihBody ih =>
      have hBody := ihBody hOpens.room
      have hRest := ih hDepth
      simp only [heightAll, OpenElement.closeWith, Element.height]
      omega

theorem NestedContent.toContent (h : NestedContent scope lexemes text children)
    (hHeight : depth + heightAll children ≤ maxDepth) :
    Content scope depth lexemes text children := by
  induction h generalizing depth with
  | nil => exact .nil
  | text hRun _ ih => exact .text hRun (ih hHeight)
  | cdata _ ih => exact .cdata (ih hHeight)
  | remark hRemark _ ih => exact .remark hRemark (ih hHeight)
  | empty hOpens _ ih =>
      simp only [heightAll, OpenElement.closeWith, Element.height] at hHeight
      exact .empty (hOpens.at_depth (by omega)) (ih (by omega))
  | nested hOpens _ hStop _ ihBody ih =>
      simp only [heightAll, OpenElement.closeWith, Element.height] at hHeight
      exact .nested (hOpens.at_depth (by omega)) (ihBody (by omega)) hStop (ih (by omega))

theorem isElement_iff :
    IsElement scope depth lexemes root ↔
      IsNestedElement scope lexemes root ∧ depth + root.height ≤ maxDepth := by
  constructor
  · intro h
    cases h with
    | empty hOpens =>
        exact ⟨.empty (hOpens.at_depth maxDepth_pos), hOpens.room⟩
    | nested hOpens hBody hStop =>
        refine ⟨.nested (hOpens.at_depth maxDepth_pos) hBody.toNested hStop, ?_⟩
        have hHeight := hBody.height_le hOpens.room
        simp only [OpenElement.closeWith, Element.height]
        omega
  · rintro ⟨h, hHeight⟩
    cases h with
    | empty hOpens => exact .empty (hOpens.at_depth hHeight)
    | nested hOpens hBody hStop =>
        simp only [OpenElement.closeWith, Element.height] at hHeight
        exact .nested (hOpens.at_depth (by omega)) (hBody.toContent (by omega)) hStop

theorem isDocument_iff :
    IsDocument lexemes root ↔ IsNestedDocument lexemes root ∧ root.height ≤ maxDepth := by
  constructor
  · rintro ⟨hBefore, hElement, hAfter⟩
    obtain ⟨hNested, hHeight⟩ := isElement_iff.1 hElement
    exact ⟨.intro hBefore hNested hAfter, by omega⟩
  · rintro ⟨⟨hBefore, hNested, hAfter⟩, hHeight⟩
    exact .intro hBefore (isElement_iff.2 ⟨hNested, by omega⟩) hAfter

namespace Builder

variable {builder next : Builder}

theorem length_opened_of_step {lexeme : Lexeme} (hRoom : builder.opened.length ≤ maxDepth)
    (h : builder.step lexeme = .ok next) : next.opened.length ≤ maxDepth := by
  have hHold := congrArg List.length (opened_step h)
  obtain ⟨token, line, endLine⟩ := lexeme
  cases token with
  | startTag content =>
      obtain ⟨element, hBegin, hNext⟩ := Outcome.bind_eq_ok_iff.1 h
      obtain rfl := Except.ok.inj hNext
      exact (begin_eq_ok_iff.1 hBegin).room
  | endTag stop =>
      simp only [Token.hold, List.length_map, List.length_tail] at hHold
      omega
  | _ =>
      simp only [Token.hold, List.length_map] at hHold
      omega

theorem length_opened_of_foldlM (h : lexemes.foldlM step .empty = .ok next) :
    next.opened.length ≤ maxDepth := by
  have hStart : empty.opened.length ≤ maxDepth := Nat.zero_le maxDepth
  exact Outcome.foldlM_invariant (fun _ _ _ _ => length_opened_of_step) hStart h

theorem length_opened_lt {lexeme : Lexeme} (hBegins : lexeme.token.beginsElement)
    (h : builder.step lexeme = .ok next) : builder.opened.length < maxDepth := by
  obtain ⟨token, line, endLine⟩ := lexeme
  cases token with
  | startTag content | emptyTag content =>
      obtain ⟨element, hBegin, -⟩ := Outcome.bind_eq_ok_iff.1 h
      exact (begin_eq_ok_iff.1 hBegin).room
  | _ => exact absurd hBegins Bool.false_ne_true

theorem begin_full (endLine : UInt32) (hOpens : Opens builder.scope 0 content line element)
    (hFull : builder.opened.length = maxDepth) :
    builder.begin content line endLine = .error (.invalid (.tooDeep maxDepth) (some line)) := by
  rw [begin, hOpens.declares, hFull]
  simp

theorem step_startTag_full (endLine : UInt32) (hOpens : Opens builder.scope 0 content line element)
    (hFull : builder.opened.length = maxDepth) :
    builder.step ⟨.startTag content, line, endLine⟩ =
      .error (.invalid (.tooDeep maxDepth) (some line)) := by
  simp [step, begin_full endLine hOpens hFull]

theorem step_emptyTag_full (endLine : UInt32) (hOpens : Opens builder.scope 0 content line element)
    (hFull : builder.opened.length = maxDepth) :
    builder.step ⟨.emptyTag content, line, endLine⟩ =
      .error (.invalid (.tooDeep maxDepth) (some line)) := by
  simp [step, begin_full endLine hOpens hFull]

end Builder

/-- The tag is the first one in document order with as many open tags around it as the limit
allows. -/
structure FirstTooDeep (before : List Token) (tag : Token) : Prop where
  begins : tag.beginsElement
  full : (Token.heldOpen before).length = maxDepth
  first : ∀ earlier other later, before = earlier ++ other :: later → other.beginsElement →
    (Token.heldOpen earlier).length < maxDepth

/-- Taking in the lexemes ends at a tag inside as many open elements as the limit allows. -/
def StopsAtLimit (builder : Builder) (lexemes : List Lexeme) : Prop :=
  ∃ before tag after full, lexemes = before ++ tag :: after ∧
    before.foldlM Builder.step builder = .ok full ∧ full.opened.length = maxDepth ∧
      tag.token.beginsElement ∧
        full.step tag = .error (.invalid (.tooDeep maxDepth) (some tag.line))

/-- All tags before one at the limit are taken in, so it is the first one. -/
theorem firstTooDeep_of_foldlM {before : List Lexeme} {tag : Token} {full : Builder}
    (hBefore : before.foldlM Builder.step .empty = .ok full)
    (hFull : full.opened.length = maxDepth) (hTag : tag.beginsElement) :
    FirstTooDeep (before.map Lexeme.token) tag := by
  have hHeld (part : List Lexeme) (reached : Builder)
      (hPart : part.foldlM Builder.step .empty = .ok reached) :
      (Token.heldOpen (part.map Lexeme.token)).length = reached.opened.length := by
    have hOpened := congrArg List.length (opened_foldlM hPart)
    rw [List.length_map] at hOpened
    exact hOpened.symm
  refine ⟨hTag, (hHeld _ _ hBefore).trans hFull, ?_⟩
  intro earlier other later hSplit hOther
  obtain ⟨part, rest, rfl, rfl, hRest⟩ := List.map_eq_append_iff.1 hSplit
  obtain ⟨lexeme, tail, rfl, rfl, -⟩ := List.map_eq_cons_iff.1 hRest
  obtain ⟨reached, hPart, hFrom⟩ := Outcome.foldlM_append_eq_ok_iff.1 hBefore
  obtain ⟨next, hNext, -⟩ := Outcome.foldlM_cons_eq_ok_iff.1 hFrom
  rw [hHeld part reached hPart]
  exact Builder.length_opened_lt hOther hNext

theorem ofLexemes_of_step_eq_error {before after : List Lexeme} {lexeme : Lexeme} {full : Builder}
    {error : DocumentError} (hBefore : before.foldlM Builder.step .empty = .ok full)
    (hStep : full.step lexeme = .error error) :
    Document.ofLexemes (before ++ lexeme :: after) = .error error := by
  rw [Document.ofLexemes_eq, List.foldlM_append, hBefore, Outcome.ok_bind, List.foldlM_cons, hStep]
  rfl

namespace StopsAtLimit

variable {builder next : Builder} {endLine : UInt32}

theorem of_startTag (hOpens : Opens builder.scope 0 content line element)
    (hFull : builder.opened.length = maxDepth) :
    StopsAtLimit builder (⟨.startTag content, line, endLine⟩ :: lexemes) :=
  ⟨[], _, lexemes, builder, rfl, rfl, hFull, rfl, Builder.step_startTag_full endLine hOpens hFull⟩

theorem of_emptyTag (hOpens : Opens builder.scope 0 content line element)
    (hFull : builder.opened.length = maxDepth) :
    StopsAtLimit builder (⟨.emptyTag content, line, endLine⟩ :: lexemes) :=
  ⟨[], _, lexemes, builder, rfl, rfl, hFull, rfl, Builder.step_emptyTag_full endLine hOpens hFull⟩

theorem prepend {front : List Lexeme} (hFront : front.foldlM Builder.step builder = .ok next)
    (h : StopsAtLimit next lexemes) : StopsAtLimit builder (front ++ lexemes) := by
  obtain ⟨before, tag, after, full, rfl, hBefore, hFull, hTag, hStep⟩ := h
  refine ⟨front ++ before, tag, after, full, (List.append_assoc ..).symm, ?_, hFull, hTag, hStep⟩
  exact Outcome.foldlM_append_eq_ok_iff.2 ⟨next, hFront, hBefore⟩

theorem cons {lexeme : Lexeme} (hFirst : builder.step lexeme = .ok next)
    (h : StopsAtLimit next lexemes) : StopsAtLimit builder (lexeme :: lexemes) :=
  have hFront : [lexeme].foldlM Builder.step builder = .ok next :=
    Outcome.foldlM_cons_eq_ok_iff.2 ⟨next, hFirst, rfl⟩
  h.prepend hFront

theorem append (h : StopsAtLimit builder lexemes) (back : List Lexeme) :
    StopsAtLimit builder (lexemes ++ back) := by
  obtain ⟨before, tag, after, full, rfl, hStop⟩ := h
  exact ⟨before, tag, after ++ back, full, by simp, hStop⟩

end StopsAtLimit

/-- Content that is too high for the place where it stands is not taken in. -/
theorem NestedContent.stopsAtLimit (h : NestedContent scope lexemes text children)
    (parent : OpenElement) (outer : List OpenElement) (root : Option Element)
    (hScope : parent.scope = scope) (hRoom : outer.length + 1 ≤ maxDepth)
    (hHeight : maxDepth < outer.length + 1 + heightAll children) :
    StopsAtLimit ⟨parent :: outer, root⟩ lexemes := by
  induction h generalizing parent outer with
  | nil => exact absurd hHeight (Nat.not_lt.2 hRoom)
  | @text scope line endLine run chars text lexemes children hRun _ ih =>
      exact (ih (parent.addText chars) outer hScope hRoom hHeight).cons
        (Builder.step_text (by simp) hRun)
  | @cdata scope line endLine content text lexemes children _ ih =>
      exact (ih (parent.addText content) outer hScope hRoom hHeight).cons rfl
  | remark hRemark _ ih =>
      exact (ih parent outer hScope hRoom hHeight).cons (Builder.step_remark _ hRemark)
  | @empty scope line endLine content text element lexemes children hOpens _ ih =>
      subst hScope
      rcases Nat.lt_or_eq_of_le hRoom with hLess | hFull
      · have hRest : maxDepth < outer.length + 1 + heightAll children := by
          simp only [heightAll, OpenElement.closeWith, Element.height] at hHeight
          omega
        exact (ih (parent.addChild _) outer rfl hRoom hRest).cons
          (step_emptyTag ⟨parent :: outer, root⟩ endLine (hOpens.at_depth hLess))
      · exact .of_emptyTag hOpens hFull
  | @nested scope line endLine stopLine stopEndLine content stop inner text element body lexemes
      below children hOpens hBody hStop _ ihBody ih =>
      subst hScope
      rcases Nat.lt_or_eq_of_le hRoom with hLess | hFull
      · have hStart := step_startTag ⟨parent :: outer, root⟩ endLine (hOpens.at_depth hLess)
        refine .cons hStart ?_
        -- either the body is too high already, or it is taken in and the rest is too high
        by_cases hBelow : maxDepth < outer.length + 1 + 1 + heightAll below
        · exact (ihBody element (parent :: outer) rfl hLess hBelow).append _
        · have hRest : maxDepth < outer.length + 1 + heightAll children := by
            simp only [heightAll, OpenElement.closeWith, Element.height] at hHeight
            omega
          have hFold := (hBody.toContent (Nat.not_lt.1 hBelow)).foldlM_step element
            (parent :: outer) root rfl rfl
          have hEnd := step_endTag (element.fill inner below) (parent :: outer) root stopLine
            stopEndLine hStop
          exact .prepend hFold (.cons hEnd (ih (parent.addChild _) outer rfl hRoom hRest))
      · exact .of_startTag hOpens hFull

/-- A document that is too high is refused at its first tag that stands too deep. -/
theorem IsNestedDocument.stopsAtLimit (h : IsNestedDocument lexemes root)
    (hHeight : maxDepth < root.height) : StopsAtLimit .empty lexemes := by
  obtain ⟨hBefore, hElement, -⟩ := h
  refine .append (.prepend (Builder.foldlM_step_outer hBefore) ?_) _
  cases hElement with
  | empty hOpens => exact absurd hHeight (Nat.not_lt.2 maxDepth_pos)
  | nested hOpens hBody =>
      refine .cons (step_startTag ⟨[], none⟩ _ hOpens) (.append ?_ _)
      refine hBody.stopsAtLimit _ [] none rfl (by decide) ?_
      simp only [OpenElement.closeWith, Element.height] at hHeight
      simpa [Nat.add_comm] using hHeight

theorem Token.flatMap_source_cut_prefix (input : List Char) :
    (Token.cut input).flatMap Token.source <+: input := by
  induction hLength : input.length using Nat.strongRecOn generalizing input with
  | ind n ih =>
      cases hNext : Token.next? input with
      | none =>
          cases input with
          | nil => simp [Token.cut_nil]
          | cons c cs => by_cases hc : c = '<' <;> simp_all [Token.next?]
      | some first =>
          obtain ⟨token, rest⟩ := first
          have hRest := ih rest.length (hLength ▸ Token.length_lt_of_next? hNext) rest rfl
          rw [Token.cut_of_next? hNext, Token.source_next? hNext, List.flatMap_cons,
            List.prefix_append_right_inj]
          split
          · exact List.nil_prefix
          · exact hRest

theorem Lexeme.line_of_placed_eq_append {f : Nat → UInt32} {position : Nat} {tokens : List Token}
    {before after : List Lexeme} {lexeme : Lexeme}
    (h : placed f position tokens = before ++ lexeme :: after) :
    lexeme.line = f (position + Text.byteLength ((before.map token).flatMap Token.source)) := by
  have hTokens := congrArg (List.map token) h
  rw [map_token_placed, List.map_append] at hTokens
  rw [hTokens, placed_append] at h
  have hLength : (placed f position (before.map token)).length = before.length := by
    rw [← List.length_map token, map_token_placed, List.length_map]
  have hRest := List.append_inj_right h hLength
  rw [List.map_cons, placed] at hRest
  exact (congrArg Lexeme.line (List.cons.inj hRest).1).symm

/-- What a document is refused with for a tag that stands too deep behind some tokens: the line of
the tag, counted from the start of the text, and behind a byte order mark the line of the position
three bytes before it. -/
structure RefusedBehind (text : String) (before : List Token) (line : UInt32) : Prop where
  outcome : Document.parse text = .error (.invalid (.tooDeep maxDepth) (some line))
  unmarked : text.toList.head? ≠ some Lexeme.byteOrderMark →
    line = 1 + UInt32.ofNat ((Text.utf8 (before.flatMap Token.source)).count 10)
  /-- The number itself, and not only its lowest 32 bits. -/
  exact : text.toList.head? ≠ some Lexeme.byteOrderMark → Text.FewLines (Text.utf8 text.toList) →
    line.toNat = 1 + (Text.utf8 (before.flatMap Token.source)).count 10
  marked : ∀ chars, text.toList = Lexeme.byteOrderMark :: chars →
    line = Text.lineAt (Text.utf8 chars) (Text.byteLength (before.flatMap Token.source) - 3)

theorem StopsAtLimit.refusedBehind {text : String} (h : StopsAtLimit .empty (Lexeme.ofText text)) :
    ∃ before tag after line, Token.cut (Lexeme.withoutMark text.toList) = before ++ tag :: after ∧
      FirstTooDeep before tag ∧ RefusedBehind text before line := by
  obtain ⟨before, tag, after, full, hSplit, hBefore, hFull, hTag, hStep⟩ := h
  have hTokens := congrArg (List.map Lexeme.token) hSplit
  rw [Lexeme.map_token_ofText, List.map_append, List.map_cons] at hTokens
  refine ⟨before.map Lexeme.token, tag.token, after.map Lexeme.token, tag.line, hTokens,
    firstTooDeep_of_foldlM hBefore hFull hTag, ?_⟩
  have hLine := Lexeme.line_of_placed_eq_append ((Lexeme.ofText_eq_placed text).symm.trans hSplit)
  rw [Nat.zero_add] at hLine
  have hText (hMark : text.toList.head? ≠ some Lexeme.byteOrderMark) :
      ∃ rest, text.toList = (before.map Lexeme.token).flatMap Token.source ++ rest := by
    obtain ⟨rest, hRest⟩ := Token.flatMap_source_cut_prefix (Lexeme.withoutMark text.toList)
    rw [hTokens, List.flatMap_append, List.append_assoc, Lexeme.withoutMark_eq_self hMark] at hRest
    exact ⟨_, hRest.symm⟩
  refine ⟨?_, fun hMark => ?_, fun hMark hFew => ?_, fun chars hChars => ?_⟩
  · rw [Document.parse, hSplit]
    exact ofLexemes_of_step_eq_error hBefore hStep
  · obtain ⟨rest, hRest⟩ := hText hMark
    rw [hLine, Text.lineAt_byteLength hRest]
    rfl
  · obtain ⟨rest, hRest⟩ := hText hMark
    rw [hLine, hFew.toNat_lineAt_byteLength hRest]
    rfl
  · rw [hLine, hChars]
    exact Text.lineAt_append_left (by decide) (Text.utf8 chars) _

/-- The limit on depth is exact: a text is accepted exactly if it is a document apart from the limit
and its tree is not higher than that, at no point of the loop more elements are open, and any other
such document is refused at the first tag that stands too deep. -/
structure LimitsDepth (text : String) : Prop where
  accepted : ∀ root, Document.parse text = .ok root ↔
    IsNestedDocument (Lexeme.ofText text) root ∧ root.height ≤ maxDepth
  reachable : ∀ before after loop, Lexeme.ofText text = before ++ after →
    before.foldlM Loop.step .initial = .ok loop → loop.assembly.opened.length ≤ maxDepth
  refused : ∀ root, IsNestedDocument (Lexeme.ofText text) root → maxDepth < root.height →
    ∃ before tag after line, Token.cut (Lexeme.withoutMark text.toList) = before ++ tag :: after ∧
      FirstTooDeep before tag ∧ RefusedBehind text before line

theorem limitsDepth (text : String) : LimitsDepth text where
  accepted _ := ofLexemes_eq_ok_iff.trans isDocument_iff
  reachable _ _ _ _ h := by
    obtain ⟨builder, hBuilder, rfl⟩ := Loop.exists_builder h
    simpa [Builder.loop] using Builder.length_opened_of_foldlM hBuilder
  refused _ hDocument hHeight := (hDocument.stopsAtLimit hHeight).refusedBehind

/-- The innermost element stands on a line of its own. -/
def tower (height : Nat) : List Token :=
  List.replicate height (.startTag ['a']) ++
    .text ['\n'] :: .emptyTag ['a'] :: List.replicate height (.endTag ['a'])

def markedTower (height : Nat) : String :=
  String.ofList (Lexeme.byteOrderMark :: (tower height).flatMap Token.source)

def towerFront (height : Nat) : List Token :=
  List.replicate height (.startTag ['a']) ++ [.text ['\n']]

theorem tower_succ (height : Nat) :
    tower (height + 1) = .startTag ['a'] :: (tower height ++ [.endTag ['a']]) := by
  rw [tower, List.replicate_succ, List.replicate_succ', tower]
  simp

theorem tower_eq (height : Nat) :
    tower height =
      towerFront height ++ .emptyTag ['a'] :: List.replicate height (.endTag ['a']) := by
  simp [tower, towerFront]

theorem complete_of_mem_tower {height : Nat} {token : Token} (h : token ∈ tower height) :
    token.Complete := by
  have hCases : token = .startTag ['a'] ∨ token = .text ['\n'] ∨ token = .emptyTag ['a'] ∨
      token = .endTag ['a'] := by
    simp only [tower, List.mem_append, List.mem_cons, List.mem_replicate] at h
    tauto
  rcases hCases with rfl | rfl | rfl | rfl
  · exact ⟨⟨rfl, by simp⟩, by simp⟩
  · simp [Token.Complete]
  · exact ⟨rfl, by simp⟩
  · rfl

theorem merge_replicate_append {token : Token} (h : ¬ token.IsText) (n : Nat)
    (tokens : List Token) :
    Token.merge (List.replicate n token ++ tokens) =
      List.replicate n token ++ Token.merge tokens := by
  induction n with
  | zero => rfl
  | succ n ih =>
      rw [List.replicate_succ, List.cons_append, Token.merge_cons_of_not_isText h, ih]
      rfl

theorem cut_tower (height : Nat) :
    Token.cut ((tower height).flatMap Token.source) = tower height := by
  have hEnd : Token.merge (List.replicate height (.endTag ['a'])) =
      List.replicate height (.endTag ['a']) := by
    have hAppend := @merge_replicate_append (.endTag ['a']) id height []
    simpa [Token.merge] using hAppend
  rw [Token.cut_flatMap_source fun _ => complete_of_mem_tower, tower, merge_replicate_append id,
    Token.merge, Token.merge_cons_of_not_isText id, hEnd]
  rfl

/-- What the tag of every element in the tower opens. -/
def towerElement (line : UInt32) : OpenElement := ⟨['a'], .reserved, [], [], "", line⟩

theorem opens_towerElement {depth : Nat} (hRoom : depth < maxDepth) (line : UInt32) :
    Opens .reserved depth ['a'] line (towerElement line) := by
  have hName : (RawTag.ofContent ['a']).name = ['a'] := by decide +kernel
  have hAttributes : (RawTag.ofContent ['a']).attributes = [] :=
    List.isEmpty_iff.1 (by decide +kernel)
  have hFault : (RawTag.ofContent ['a']).fault? = none := by decide +kernel
  refine ⟨hRoom, hName.symm, ?_, ?_, rfl, rfl, rfl⟩
  · rw [hAttributes]
    rfl
  · rw [RawTag.resolve, hAttributes, hFault]
    rfl

theorem endName_towerElement (line : UInt32) : endName ['a'] = (towerElement line).rawName := by
  show endName ['a'] = ['a']
  decide

theorem nestedContent_tower (f : Nat → UInt32) (height position : Nat) :
    ∃ text children, NestedContent .reserved (Lexeme.placed f position (tower height)) text
      children ∧ heightAll children = height + 1 := by
  induction height generalizing position with
  | zero =>
      have hText : Reference.Decodes ['\n'] ['\n'] := .plain (by decide) .nil
      exact ⟨_, _, .text hText (.empty (opens_towerElement maxDepth_pos _) .nil), rfl⟩
  | succ height ih =>
      obtain ⟨text, children, hContent, hHeight⟩ := ih (position + Text.byteLength ['<', 'a', '>'])
      rw [tower_succ, Lexeme.placed, Lexeme.placed_append]
      refine ⟨_, _, .nested (opens_towerElement maxDepth_pos _) hContent (endName_towerElement _)
        .nil, ?_⟩
      simp [heightAll, OpenElement.closeWith, Element.height, hHeight]

theorem exists_isNestedDocument_tower (f : Nat → UInt32) (height position : Nat) :
    ∃ root, IsNestedDocument (Lexeme.placed f position (tower (height + 1))) root ∧
      root.height = height + 2 := by
  obtain ⟨text, children, hContent, hHeight⟩ :=
    nestedContent_tower f height (position + Text.byteLength ['<', 'a', '>'])
  rw [tower_succ, Lexeme.placed, Lexeme.placed_append]
  refine ⟨_, IsNestedElement.isNestedDocument (.nested (opens_towerElement maxDepth_pos _) hContent
    (endName_towerElement _)), ?_⟩
  simp [OpenElement.closeWith, Element.height, hHeight]

theorem exists_foldlM_replicate (f : Nat → UInt32) (n position : Nat) {builder : Builder}
    (hScope : builder.scope = .reserved) (hRoom : builder.opened.length + n ≤ maxDepth) :
    ∃ next, (Lexeme.placed f position (List.replicate n (.startTag ['a']))).foldlM Builder.step
        builder = .ok next ∧
      next.scope = .reserved ∧ next.opened.length = builder.opened.length + n := by
  induction n generalizing builder position with
  | zero => exact ⟨builder, rfl, hScope, rfl⟩
  | succ n ih =>
      have hOpens : Opens builder.scope builder.opened.length ['a'] (f position)
          (towerElement (f position)) := hScope ▸ opens_towerElement (by omega) _
      obtain ⟨next, hRest, hNext, hLength⟩ := @ih (position + Text.byteLength ['<', 'a', '>'])
        { builder with opened := towerElement (f position) :: builder.opened } rfl
        (by simp only [List.length_cons]; omega)
      refine ⟨next, ?_, hNext, ?_⟩
      · rw [List.replicate_succ, Lexeme.placed]
        exact Outcome.foldlM_cons_eq_ok_iff.2 ⟨_, step_startTag builder _ hOpens, hRest⟩
      · rw [hLength, List.length_cons]
        omega

theorem exists_foldlM_towerFront (f : Nat → UInt32) :
    ∃ full, (Lexeme.placed f 0 (towerFront maxDepth)).foldlM Builder.step .empty = .ok full ∧
      full.scope = .reserved ∧ full.opened.length = maxDepth := by
  obtain ⟨⟨opened, root⟩, hFold, hScope, hLength⟩ :=
    @exists_foldlM_replicate f maxDepth 0 .empty rfl (Nat.le_of_eq (Nat.zero_add maxDepth))
  rw [show Builder.empty.opened.length = 0 from rfl, Nat.zero_add] at hLength
  have hText : Reference.Decodes ['\n'] ['\n'] := .plain (by decide) .nil
  cases opened with
  | nil => exact absurd hLength (Nat.ne_of_lt maxDepth_pos)
  | cons innermost outer =>
      refine ⟨⟨innermost.addText ['\n'] :: outer, root⟩, ?_, hScope, hLength⟩
      rw [towerFront, Lexeme.placed_append]
      refine Outcome.foldlM_append_eq_ok_iff.2 ⟨_, hFold, Outcome.foldlM_cons_eq_ok_iff.2 ?_⟩
      exact ⟨_, Builder.step_text (by simp) hText, rfl⟩

theorem count_utf8_replicate (height : Nat) :
    (Text.utf8 ((List.replicate height (Token.startTag ['a'])).flatMap Token.source)).count 10 =
      0 := by
  rw [List.count_eq_zero]
  intro hMem
  simp only [Text.utf8, List.mem_flatMap, List.mem_replicate] at hMem
  obtain ⟨c, ⟨token, ⟨-, rfl⟩, hc⟩, hByte⟩ := hMem
  simp only [Token.source, List.cons_append, List.nil_append, List.mem_cons, List.not_mem_nil,
    or_false] at hc
  rcases hc with rfl | rfl | rfl <;> revert hByte <;> decide

theorem count_utf8_towerFront (height : Nat) :
    (Text.utf8 ((towerFront height).flatMap Token.source)).count 10 = 1 := by
  rw [towerFront, List.flatMap_append, Text.utf8_append, List.count_append, count_utf8_replicate]
  decide

/-- The line feed in front of the innermost element is among the last three bytes there. -/
theorem lineAt_markedTower (height : Nat) :
    Text.lineAt (Text.utf8 (markedTower height).toList)
      (Text.byteLength ((towerFront height).flatMap Token.source)) = 1 := by
  have hSplit : (markedTower height).toList =
      (Lexeme.byteOrderMark :: (List.replicate height (Token.startTag ['a'])).flatMap Token.source) ++
      (Token.text ['\n'] :: .emptyTag ['a'] ::
        List.replicate height (.endTag ['a'])).flatMap Token.source := by
    rw [markedTower, String.toList_ofList, tower, List.flatMap_append, List.cons_append]
  have hPosition : Text.byteLength ((towerFront height).flatMap Token.source) ≤
      Text.byteLength (Lexeme.byteOrderMark ::
        (List.replicate height (Token.startTag ['a'])).flatMap Token.source) := by
    rw [Text.byteLength_cons, towerFront, List.flatMap_append, Text.byteLength_append, Nat.add_comm]
    exact Nat.add_le_add_right (by decide) _
  rw [hSplit]
  refine Text.lineAt_front (fun hMem => ?_) hPosition _
  rw [← List.singleton_append, Text.utf8_append, List.mem_append] at hMem
  rcases hMem with hMark | hTags
  · exact absurd hMark (by decide)
  · exact List.count_eq_zero.1 (count_utf8_replicate height) hTags

/-- The limit is not exact about lines: the first tag that stands too deep is on the second line of
the text, and the error says that it is on the first. -/
theorem refused_markedTower :
    ∃ root, IsNestedDocument (Lexeme.ofText (markedTower maxDepth)) root ∧
      maxDepth < root.height ∧
      Token.cut (Lexeme.withoutMark (markedTower maxDepth).toList) =
        towerFront maxDepth ++ .emptyTag ['a'] :: List.replicate maxDepth (.endTag ['a']) ∧
      FirstTooDeep (towerFront maxDepth) (.emptyTag ['a']) ∧
      1 + (Text.utf8 ((towerFront maxDepth).flatMap Token.source)).count 10 = 2 ∧
      Document.parse (markedTower maxDepth) =
        .error (.invalid (.tooDeep maxDepth) (some 1)) := by
  have hCut : Token.cut (Lexeme.withoutMark (markedTower maxDepth).toList) = tower maxDepth := by
    rw [markedTower, String.toList_ofList, Lexeme.withoutMark, if_pos rfl, cut_tower]
  have hPlaced := Lexeme.ofText_eq_placed (markedTower maxDepth)
  rw [hCut] at hPlaced
  obtain ⟨root, hDocument, hHeight⟩ := exists_isNestedDocument_tower
    (Text.lineAt (Text.utf8 (markedTower maxDepth).toList)) (maxDepth - 1) 0
  rw [Nat.sub_add_cancel maxDepth_pos] at hDocument
  obtain ⟨full, hFold, hScope, hFull⟩ := exists_foldlM_towerFront
    (Text.lineAt (Text.utf8 (markedTower maxDepth).toList))
  have hFirst := firstTooDeep_of_foldlM hFold hFull (rfl : (Token.emptyTag ['a']).beginsElement)
  rw [Lexeme.map_token_placed] at hFirst
  refine ⟨root, hPlaced ▸ hDocument, by omega, hCut.trans (tower_eq maxDepth), hFirst, ?_, ?_⟩
  · rw [count_utf8_towerFront]
  · rw [Document.parse, hPlaced, tower_eq, Lexeme.placed_append, Lexeme.placed, Nat.zero_add,
      lineAt_markedTower]
    have hOpens : Opens full.scope 0 ['a'] 1 (towerElement 1) :=
      hScope ▸ opens_towerElement maxDepth_pos 1
    exact ofLexemes_of_step_eq_error hFold (Builder.step_emptyTag_full _ hOpens hFull)

end ContractDoc.Xml

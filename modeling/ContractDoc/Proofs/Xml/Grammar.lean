import ContractDoc.Proofs.Xml.Lockstep
import ContractDoc.Proofs.Xml.Reference

/-! # The grammar of documents

Which lexemes make up an element, said without a stack: a start tag, the content of the element,
and an end tag that repeats its name. A builder that stands inside an element takes in exactly the
lexemes of its content, whatever is open around it.
-/

namespace ContractDoc.Xml

/-- What the content of a tag on a given line opens, inside `depth` elements and in a scope. -/
structure Opens (scope : Scope) (depth : Nat) (content : List Char) (line : UInt32)
    (element : OpenElement) : Prop where
  room : depth < maxDepth
  rawName : element.rawName = (RawTag.ofContent content).name
  declares : scope.declare (RawTag.ofContent content).attributes = .ok element.scope
  resolves : (RawTag.ofContent content).resolve element.scope = .ok element.attributes
  line : element.line = line
  text : element.text = ""
  children : element.children = []

def OpenElement.closeWith (element : OpenElement) (text : List Char) (children : List Element) :
    Element where
  name := element.name
  attributes := element.attributes
  children := children
  text := String.ofList text
  line := element.line

def OpenElement.fill (element : OpenElement) (text : List Char) (children : List Element) :
    OpenElement :=
  { element with
    text := element.text ++ String.ofList text
    children := children.reverse ++ element.children }

/-- Markup that stands for nothing. -/
def Token.IsRemark : Token → Prop
  | comment _ | instruction _ | doctype _ => True
  | _ => False

/-- What may stand outside the root: anything but tags. -/
def Token.IsOuter : Token → Prop
  | text _ | cdata _ | comment _ | instruction _ | doctype _ => True
  | _ => False

/-- The lexemes between two tags, and the character data and the children that they make up inside
`depth` elements. -/
inductive Content : Scope → Nat → List Lexeme → List Char → List Element → Prop
  | nil {scope : Scope} {depth : Nat} : Content scope depth [] [] []
  | text {scope : Scope} {depth : Nat} {line endLine : UInt32} {run chars text : List Char}
      {lexemes : List Lexeme} {children : List Element} :
      Reference.Decodes run chars → Content scope depth lexemes text children →
      Content scope depth (⟨.text run, line, endLine⟩ :: lexemes) (chars ++ text) children
  | cdata {scope : Scope} {depth : Nat} {line endLine : UInt32} {content text : List Char}
      {lexemes : List Lexeme} {children : List Element} :
      Content scope depth lexemes text children →
      Content scope depth (⟨.cdata content, line, endLine⟩ :: lexemes) (content ++ text) children
  | remark {scope : Scope} {depth : Nat} {lexeme : Lexeme} {text : List Char}
      {lexemes : List Lexeme} {children : List Element} :
      lexeme.token.IsRemark → Content scope depth lexemes text children →
      Content scope depth (lexeme :: lexemes) text children
  | empty {scope : Scope} {depth : Nat} {line endLine : UInt32} {content text : List Char}
      {element : OpenElement} {lexemes : List Lexeme} {children : List Element} :
      Opens scope depth content line element → Content scope depth lexemes text children →
      Content scope depth (⟨.emptyTag content, line, endLine⟩ :: lexemes) text
        (element.closeWith [] [] :: children)
  | nested {scope : Scope} {depth : Nat} {line endLine stopLine stopEndLine : UInt32}
      {content stop inner text : List Char} {element : OpenElement} {body lexemes : List Lexeme}
      {below children : List Element} :
      Opens scope depth content line element → Content element.scope (depth + 1) body inner below →
      endName stop = element.rawName → Content scope depth lexemes text children →
      Content scope depth
        (⟨.startTag content, line, endLine⟩ ::
          (body ++ ⟨.endTag stop, stopLine, stopEndLine⟩ :: lexemes)) text
        (element.closeWith inner below :: children)

inductive IsElement (scope : Scope) (depth : Nat) : List Lexeme → Element → Prop
  | empty {line endLine : UInt32} {content : List Char} {element : OpenElement} :
      Opens scope depth content line element →
      IsElement scope depth [⟨.emptyTag content, line, endLine⟩] (element.closeWith [] [])
  | nested {line endLine stopLine stopEndLine : UInt32} {content stop inner : List Char}
      {element : OpenElement} {body : List Lexeme} {below : List Element} :
      Opens scope depth content line element → Content element.scope (depth + 1) body inner below →
      endName stop = element.rawName →
      IsElement scope depth
        (⟨.startTag content, line, endLine⟩ ::
          (body ++ [⟨.endTag stop, stopLine, stopEndLine⟩])) (element.closeWith inner below)

inductive IsDocument : List Lexeme → Element → Prop
  | intro {before lexemes after : List Lexeme} {root : Element} :
      (∀ lexeme ∈ before, lexeme.token.IsOuter) → IsElement .reserved 0 lexemes root →
      (∀ lexeme ∈ after, lexeme.token.IsOuter) → IsDocument (before ++ lexemes ++ after) root

namespace OpenElement

theorem fill_nil (element : OpenElement) : element.fill [] [] = element := by
  simp [fill]

theorem addText_fill (element : OpenElement) (chars text : List Char) (children : List Element) :
    (element.addText chars).fill text children = element.fill (chars ++ text) children := by
  simp [fill, addText, String.append_assoc]

theorem addChild_fill (element : OpenElement) (child : Element) (text : List Char)
    (children : List Element) :
    (element.addChild child).fill text children = element.fill text (child :: children) := by
  simp [fill, addChild]

end OpenElement

theorem Opens.close_fill {scope : Scope} {depth : Nat} {line : UInt32} {content : List Char}
    {element : OpenElement} (h : Opens scope depth content line element) (text : List Char)
    (children : List Element) :
    (element.fill text children).close = element.closeWith text children := by
  simp [OpenElement.fill, OpenElement.close, OpenElement.closeWith, OpenElement.name, h.text,
    h.children]

namespace Builder

@[simp] theorem addText_cons (innermost : OpenElement) (outer : List OpenElement)
    (root : Option Element) (chars : List Char) :
    (Builder.mk (innermost :: outer) root).addText chars =
      ⟨innermost.addText chars :: outer, root⟩ := rfl

@[simp] theorem attach_cons (parent : OpenElement) (outer : List OpenElement)
    (root : Option Element) (child : Element) :
    (Builder.mk (parent :: outer) root).attach child = .ok ⟨parent.addChild child :: outer, root⟩ :=
  rfl

@[simp] theorem attach_nil (root : Element) :
    (Builder.mk [] none).attach root = .ok ⟨[], some root⟩ := rfl

/-- Whether a tag opens an element does not depend on anything but the scope and the depth. -/
theorem begin_eq_ok_iff {builder : Builder} {content : List Char} {line endLine : UInt32}
    {element : OpenElement} :
    builder.begin content line endLine = .ok element ↔
      Opens builder.scope builder.opened.length content line element := by
  unfold begin
  simp only [Outcome.bind_eq_ok_iff, Outcome.mapError_eq_ok_iff]
  constructor
  · rintro ⟨scope, hScope, h⟩
    split at h
    · simp at h
    · next hRoom =>
        obtain ⟨attributes, hAttributes, h⟩ := Outcome.bind_eq_ok_iff.1 h
        rw [Outcome.mapError_eq_ok_iff] at hAttributes
        obtain rfl := Except.ok.inj h
        exact ⟨Nat.lt_of_not_le hRoom, rfl, hScope, hAttributes, rfl, rfl, rfl⟩
  · rintro ⟨hRoom, hName, hScope, hAttributes, hLine, hText, hChildren⟩
    refine ⟨element.scope, hScope, ?_⟩
    rw [if_neg (Nat.not_le_of_lt hRoom), OpenElement.ofTag, Outcome.bind_eq_ok_iff]
    refine ⟨element.attributes, Outcome.mapError_eq_ok_iff.2 hAttributes, ?_⟩
    obtain ⟨_, _, _, _, _, _⟩ := element
    simp_all

theorem step_text {builder : Builder} {run chars : List Char} {line endLine : UInt32}
    (hOpen : builder.opened ≠ []) (h : Reference.Decodes run chars) :
    builder.step ⟨.text run, line, endLine⟩ = .ok (builder.addText chars) := by
  simp [step, hOpen, Reference.decode_eq_ok_iff.2 h]

theorem step_remark (builder : Builder) {lexeme : Lexeme} (h : lexeme.token.IsRemark) :
    builder.step lexeme = .ok builder := by
  obtain ⟨token, line, endLine⟩ := lexeme
  cases token <;> first | rfl | exact h.elim

theorem step_outer {root : Option Element} {lexeme : Lexeme} (h : lexeme.token.IsOuter) :
    (Builder.mk [] root).step lexeme = .ok ⟨[], root⟩ := by
  obtain ⟨token, line, endLine⟩ := lexeme
  cases token <;> first | rfl | exact h.elim

theorem foldlM_step_outer {root : Option Element} {lexemes : List Lexeme}
    (h : ∀ lexeme ∈ lexemes, lexeme.token.IsOuter) :
    lexemes.foldlM step ⟨[], root⟩ = .ok ⟨[], root⟩ := by
  induction lexemes with
  | nil => rfl
  | cons lexeme rest ih =>
      rw [List.foldlM_cons, step_outer (h lexeme List.mem_cons_self), Outcome.ok_bind]
      exact ih fun l hl => h l (List.mem_cons_of_mem _ hl)

end Builder

theorem step_startTag (builder : Builder) (endLine : UInt32) {content : List Char} {line : UInt32}
    {element : OpenElement}
    (h : Opens builder.scope builder.opened.length content line element) :
    builder.step ⟨.startTag content, line, endLine⟩ =
      .ok { builder with opened := element :: builder.opened } := by
  rw [Builder.step]
  simp only [Builder.begin_eq_ok_iff.2 h, Outcome.ok_bind]

theorem step_emptyTag (builder : Builder) (endLine : UInt32) {content : List Char} {line : UInt32}
    {element : OpenElement}
    (h : Opens builder.scope builder.opened.length content line element) :
    builder.step ⟨.emptyTag content, line, endLine⟩ = builder.attach (element.closeWith [] []) := by
  rw [Builder.step]
  simp only [Builder.begin_eq_ok_iff.2 h, Outcome.ok_bind]
  rw [← h.close_fill, OpenElement.fill_nil]

theorem step_endTag (innermost : OpenElement) (outer : List OpenElement) (root : Option Element)
    (line endLine : UInt32) {stop : List Char} (h : endName stop = innermost.rawName) :
    (Builder.mk (innermost :: outer) root).step ⟨.endTag stop, line, endLine⟩ =
      (Builder.mk outer root).attach innermost.close := by
  simp [Builder.step, Builder.closeNamed, h]

/-- Inside an element, a builder takes in the lexemes of the content and ends where it was. -/
theorem Content.foldlM_step {scope : Scope} {depth : Nat} {lexemes : List Lexeme}
    {text : List Char} {children : List Element} (h : Content scope depth lexemes text children)
    (parent : OpenElement) (outer : List OpenElement) (root : Option Element)
    (hScope : parent.scope = scope) (hDepth : outer.length + 1 = depth) :
    lexemes.foldlM Builder.step ⟨parent :: outer, root⟩ =
      .ok ⟨parent.fill text children :: outer, root⟩ := by
  induction h generalizing parent outer with
  | nil => simp [OpenElement.fill_nil]
  | @text scope depth line endLine run chars text lexemes children hRun _ ih =>
      have hRest := ih (parent.addText chars) outer hScope hDepth
      rw [List.foldlM_cons, Builder.step_text (by simp) hRun, Outcome.ok_bind,
        Builder.addText_cons, hRest, OpenElement.addText_fill]
  | @cdata scope depth line endLine content text lexemes children _ ih =>
      have hStep : (Builder.mk (parent :: outer) root).step ⟨.cdata content, line, endLine⟩ =
          .ok ⟨parent.addText content :: outer, root⟩ := rfl
      have hRest := ih (parent.addText content) outer hScope hDepth
      rw [List.foldlM_cons, hStep, Outcome.ok_bind, hRest, OpenElement.addText_fill]
  | remark hRemark _ ih =>
      rw [List.foldlM_cons, Builder.step_remark _ hRemark, Outcome.ok_bind,
        ih parent outer hScope hDepth]
  | @empty scope depth line endLine content text element lexemes children hOpens _ ih =>
      subst hScope hDepth
      have hStep := step_emptyTag ⟨parent :: outer, root⟩ endLine hOpens
      have hRest := ih (parent.addChild (element.closeWith [] [])) outer rfl rfl
      rw [List.foldlM_cons, hStep, Builder.attach_cons, Outcome.ok_bind, hRest,
        OpenElement.addChild_fill]
  | @nested scope depth line endLine stopLine stopEndLine content stop inner text element body
      lexemes below children hOpens _ hStop _ ihBody ih =>
      subst hScope hDepth
      have hStart := step_startTag ⟨parent :: outer, root⟩ endLine hOpens
      have hBody := ihBody element (parent :: outer) rfl rfl
      have hEnd := step_endTag (element.fill inner below) (parent :: outer) root stopLine
        stopEndLine hStop
      have hRest := ih (parent.addChild (element.closeWith inner below)) outer rfl rfl
      rw [List.foldlM_cons, hStart, Outcome.ok_bind, List.foldlM_append, hBody, Outcome.ok_bind,
        List.foldlM_cons, hEnd, hOpens.close_fill, Builder.attach_cons, Outcome.ok_bind, hRest,
        OpenElement.addChild_fill]

/-- Outside every element, a builder takes in the lexemes of an element and makes it the root. -/
theorem IsElement.foldlM_step {lexemes : List Lexeme} {root : Element}
    (h : IsElement .reserved 0 lexemes root) :
    lexemes.foldlM Builder.step ⟨[], none⟩ = .ok ⟨[], some root⟩ := by
  cases h with
  | @empty line endLine content element hOpens =>
      have hStep := step_emptyTag ⟨[], none⟩ endLine hOpens
      rw [List.foldlM_cons, hStep]
      rfl
  | @nested line endLine stopLine stopEndLine content stop inner element body below hOpens hBody
      hStop =>
      have hStart := step_startTag ⟨[], none⟩ endLine hOpens
      have hFold := hBody.foldlM_step element [] none rfl rfl
      have hEnd := step_endTag (element.fill inner below) [] none stopLine stopEndLine hStop
      rw [List.foldlM_cons, hStart, Outcome.ok_bind, List.foldlM_append, hFold, Outcome.ok_bind,
        List.foldlM_cons, hEnd, hOpens.close_fill]
      rfl

theorem IsDocument.ofLexemes {lexemes : List Lexeme} {root : Element}
    (h : IsDocument lexemes root) : Document.ofLexemes lexemes = .ok root := by
  obtain ⟨hBefore, hElement, hAfter⟩ := h
  rw [Document.ofLexemes_eq, List.foldlM_append, List.foldlM_append, Builder.empty,
    Builder.foldlM_step_outer hBefore, Outcome.ok_bind, hElement.foldlM_step, Outcome.ok_bind,
    Builder.foldlM_step_outer hAfter]
  rfl

end ContractDoc.Xml

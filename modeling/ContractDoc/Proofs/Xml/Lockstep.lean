import ContractDoc.Proofs.Outcome
import ContractDoc.Xml.Document

/-! # Two stacks in step

The loop keeps a stack of open elements beside the tags that its reader holds open. The same events
change both, so there is one open element for each held tag, and no end is met without one. A
builder that keeps every element together with its tag therefore does what the loop does.
-/

namespace ContractDoc.Xml

def HeldTag.name (tag : HeldTag) : String := String.ofList (localName tag.rawName)

/-- The event that is made of a token, and the tags that are held open then. -/
inductive Reader.Reads (reader : Reader) : Token → Event → Reader → Prop
  | start {content : List Char} {scope : Scope}
      (hScope : reader.scope.declare (RawTag.ofContent content).attributes = .ok scope) :
      reader.Reads (.startTag content) (.start (RawTag.ofContent content) scope)
        ⟨⟨(RawTag.ofContent content).name, scope⟩ :: reader.held⟩
  | empty {content : List Char} {scope : Scope}
      (hScope : reader.scope.declare (RawTag.ofContent content).attributes = .ok scope) :
      reader.Reads (.emptyTag content) (.empty (RawTag.ofContent content) scope) reader
  | stop {content : List Char} {tag : HeldTag} {outer : List HeldTag}
      (hHeld : reader.held = tag :: outer) (hName : tag.rawName = endName content) :
      reader.Reads (.endTag content) .stop ⟨outer⟩
  | text {run : List Char} : reader.Reads (.text run) (.text run) reader
  | cdata {content : List Char} : reader.Reads (.cdata content) (.cdata content) reader
  | comment {body : List Char} : reader.Reads (.comment body) .remark reader
  | instruction {body : List Char} : reader.Reads (.instruction body) .remark reader
  | doctype {body : List Char} : reader.Reads (.doctype body) .remark reader

theorem Reader.exists_held_of_release {reader outer : Reader} {name : List Char}
    (h : reader.release name = .ok outer) :
    ∃ tag, reader.held = tag :: outer.held ∧ tag.rawName = name := by
  unfold release at h
  split at h
  · cases h
  · next innermost rest hHeld =>
      split at h
      · next hName =>
          obtain rfl := Except.ok.inj h
          exact ⟨innermost, hHeld, hName⟩
      · cases h

theorem Reader.reads_of_read {reader next : Reader} {token : Token} {event : Event}
    (h : reader.read token = .ok (event, next)) : reader.Reads token event next := by
  cases token with
  | startTag content =>
      obtain ⟨scope, hScope, h⟩ := Outcome.bind_eq_ok_iff.1 h
      obtain ⟨rfl, rfl⟩ := Prod.mk.inj (Except.ok.inj h)
      exact .start hScope
  | emptyTag content =>
      obtain ⟨scope, hScope, h⟩ := Outcome.bind_eq_ok_iff.1 h
      obtain ⟨rfl, rfl⟩ := Prod.mk.inj (Except.ok.inj h)
      exact .empty hScope
  | endTag content =>
      obtain ⟨outer, hOuter, h⟩ := Outcome.bind_eq_ok_iff.1 h
      obtain ⟨rfl, rfl⟩ := Prod.mk.inj (Except.ok.inj h)
      obtain ⟨tag, hHeld, hName⟩ := exists_held_of_release hOuter
      exact .stop hHeld hName
  | text run =>
      obtain ⟨rfl, rfl⟩ := Prod.mk.inj (Except.ok.inj h)
      exact .text
  | cdata content =>
      obtain ⟨rfl, rfl⟩ := Prod.mk.inj (Except.ok.inj h)
      exact .cdata
  | comment body | instruction body | doctype body =>
      obtain ⟨rfl, rfl⟩ := Prod.mk.inj (Except.ok.inj h)
      constructor
  | broken fault read => cases h

namespace Assembly

variable {assembly next : Assembly}

def names (assembly : Assembly) : List String := assembly.opened.map UnclosedElement.name

theorem names_attach {element : Element} (h : assembly.attach element = .ok next) :
    next.names = assembly.names := by
  unfold attach at h
  split at h
  · next parent outer hOpened =>
      obtain rfl := Except.ok.inj h
      rw [names, names, hOpened]
      rfl
  · next hOpened =>
      split at h
      · obtain rfl := Except.ok.inj h
        rfl
      · cases h

theorem names_addText (assembly : Assembly) (text : List Char) :
    (assembly.addText text).names = assembly.names := by
  unfold addText
  split
  · rfl
  · next innermost outer hOpened =>
      rw [names, names, hOpened]
      rfl

theorem name_of_ofTag {tag : RawTag} {scope : Scope} {line : UInt32} {element : UnclosedElement}
    (h : UnclosedElement.ofTag tag scope line = .ok element) :
    element.name = String.ofList (localName tag.name) := by
  obtain ⟨attributes, -, h⟩ := Outcome.bind_eq_ok_iff.1 h
  obtain rfl := Except.ok.inj h
  rfl

def namesAfter (names : List String) : Event → List String
  | .start tag _ => String.ofList (localName tag.name) :: names
  | .stop => names.tail
  | _ => names

theorem names_handle {event : Event} {line : UInt32} (h : assembly.handle event line = .ok next) :
    next.names = namesAfter assembly.names event := by
  cases event with
  | start tag scope =>
      obtain ⟨-, -, h⟩ := Outcome.bind_eq_ok_iff.1 h
      obtain ⟨element, hElement, h⟩ := Outcome.bind_eq_ok_iff.1 h
      obtain rfl := Except.ok.inj h
      rw [namesAfter, ← name_of_ofTag hElement]
      rfl
  | empty tag scope =>
      obtain ⟨-, -, h⟩ := Outcome.bind_eq_ok_iff.1 h
      obtain ⟨element, -, h⟩ := Outcome.bind_eq_ok_iff.1 h
      exact names_attach h
  | stop =>
      dsimp only [handle] at h
      split at h
      · next hOpened =>
          obtain rfl := Except.ok.inj h
          rw [names, hOpened]
          rfl
      · next innermost outer hOpened =>
          rw [names_attach h, names, names, hOpened]
          rfl
  | text run =>
      dsimp only [handle] at h
      split at h
      · obtain rfl := Except.ok.inj h
        rfl
      · split at h
        · cases h
        · obtain rfl := Except.ok.inj h
          exact names_addText assembly _
  | cdata content =>
      obtain rfl := Except.ok.inj h
      exact names_addText assembly content
  | remark =>
      obtain rfl := Except.ok.inj h
      rfl

end Assembly

namespace Loop

variable {loop next : Loop} {lexeme : Lexeme}

/-- There is an open element for each tag that the reader holds open, with the local name of the
tag, and in the same order. -/
def InStep (loop : Loop) : Prop := loop.assembly.names = loop.reader.held.map HeldTag.name

theorem step_eq_ok_iff : loop.step lexeme = .ok next ↔
    ∃ event, loop.reader.read lexeme.token = .ok (event, next.reader) ∧
      loop.assembly.handle event lexeme.line = .ok next.assembly := by
  obtain ⟨reader, assembly⟩ := next
  simp only [step, Outcome.bind_eq_ok_iff, Outcome.mapError_eq_ok_iff, Outcome.pure_eq_ok,
    Except.ok.injEq, Loop.mk.injEq, Prod.exists]
  constructor
  · rintro ⟨event, reader, hRead, assembly, hHandle, rfl, rfl⟩
    exact ⟨event, hRead, hHandle⟩
  · rintro ⟨event, hRead, hHandle⟩
    exact ⟨event, reader, hRead, assembly, hHandle, rfl, rfl⟩

theorem step_of_read {token : Token} {event : Event} {reader : Reader}
    (hRead : loop.reader.read token = .ok (event, reader)) (line endLine : UInt32) :
    loop.step ⟨token, line, endLine⟩ = Loop.mk reader <$> loop.assembly.handle event line := by
  simp only [step, hRead, Except.mapError, Outcome.ok_bind]
  cases loop.assembly.handle event line <;> rfl

theorem step_of_fault {token : Token} {fault : Fault}
    (hRead : loop.reader.read token = .error fault) (line endLine : UInt32) :
    loop.step ⟨token, line, endLine⟩ = .error (.malformed fault endLine) := by
  rw [step, hRead]
  rfl

theorem InStep.step (h : loop.InStep) (hStep : loop.step lexeme = .ok next) : next.InStep := by
  obtain ⟨event, hRead, hHandle⟩ := step_eq_ok_iff.1 hStep
  obtain ⟨token, line, endLine⟩ := lexeme
  obtain ⟨reader, assembly⟩ := next
  rw [InStep, Assembly.names_handle hHandle, h]
  cases Reader.reads_of_read hRead with
  | stop hHeld =>
      rw [hHeld]
      rfl
  | start | empty | text | cdata | comment | instruction | doctype => rfl

/-- The loop comes to this state on some lexemes, whatever follows them. -/
def Reachable (loop : Loop) : Prop :=
  ∃ lexemes : List Lexeme, lexemes.foldlM Loop.step .initial = .ok loop

theorem Reachable.inStep (h : loop.Reachable) : loop.InStep := by
  obtain ⟨lexemes, hFold⟩ := h
  exact Outcome.foldlM_invariant (fun _ _ _ _ hBefore hNext => InStep.step hBefore hNext)
    (rfl : initial.InStep) hFold

theorem InStep.length_eq (h : loop.InStep) :
    loop.assembly.opened.length = loop.reader.held.length := by
  simpa [InStep, Assembly.names] using congrArg List.length h

/-- Where the reader lets go of a tag, an element is open. -/
theorem InStep.opened_ne_nil (h : loop.InStep) {token : Token} {reader : Reader}
    (hRead : loop.reader.read token = .ok (.stop, reader)) : loop.assembly.opened ≠ [] := by
  cases Reader.reads_of_read hRead with
  | stop hHeld =>
      intro hEmpty
      rw [InStep, Assembly.names, hEmpty, hHeld] at h
      cases h

end Loop

/-- An open element together with the raw name of its tag and the scope inside it. -/
structure OpenElement where
  rawName : List Char
  scope : Scope
  attributes : List Attribute
  children : List Element
  text : String
  line : UInt32

namespace OpenElement

def ofTag (tag : RawTag) (scope : Scope) (line : UInt32) : Except DocumentError OpenElement := do
  let attributes ← (tag.resolve scope).mapError fun fault => .malformed fault line
  return { rawName := tag.name, scope, attributes, children := [], text := "", line }

def name (element : OpenElement) : String := String.ofList (localName element.rawName)

def close (element : OpenElement) : Element :=
  { name := element.name
    attributes := element.attributes
    children := element.children.reverse
    text := element.text
    line := element.line }

def addText (element : OpenElement) (text : List Char) : OpenElement :=
  { element with text := element.text ++ String.ofList text }

def addChild (element : OpenElement) (child : Element) : OpenElement :=
  { element with children := child :: element.children }

def held (element : OpenElement) : HeldTag := ⟨element.rawName, element.scope⟩

def unclosed (element : OpenElement) : UnclosedElement :=
  { name := element.name
    attributes := element.attributes
    children := element.children
    text := element.text
    line := element.line }

theorem ofTag_unclosed (tag : RawTag) (scope : Scope) (line : UInt32) :
    UnclosedElement.ofTag tag scope line = unclosed <$> ofTag tag scope line := by
  rw [UnclosedElement.ofTag, ofTag]
  cases tag.resolve scope <;> rfl

theorem held_of_ofTag {tag : RawTag} {scope : Scope} {line : UInt32} {element : OpenElement}
    (h : ofTag tag scope line = .ok element) : element.held = ⟨tag.name, scope⟩ := by
  obtain ⟨attributes, -, h⟩ := Outcome.bind_eq_ok_iff.1 h
  obtain rfl := Except.ok.inj h
  rfl

end OpenElement

/-- One stack in the place of two. -/
structure Builder where
  opened : List OpenElement
  root : Option Element

namespace Builder

def empty : Builder := ⟨[], none⟩

def scope (builder : Builder) : Scope :=
  match builder.opened with
  | [] => .reserved
  | innermost :: _ => innermost.scope

/-- The element that a start or empty tag begins, from the content of the tag and the lines before
and after it. -/
def begin (builder : Builder) (content : List Char) (line endLine : UInt32) :
    Except DocumentError OpenElement := do
  let tag := RawTag.ofContent content
  let scope ← (builder.scope.declare tag.attributes).mapError fun fault => .malformed fault endLine
  if maxDepth ≤ builder.opened.length then .error (.invalid (.tooDeep maxDepth) (some line))
  else OpenElement.ofTag tag scope line

def attach (builder : Builder) (element : Element) : Except DocumentError Builder :=
  match builder.opened with
  | parent :: outer => .ok { builder with opened := parent.addChild element :: outer }
  | [] =>
      match builder.root with
      | none => .ok { builder with root := some element }
      | some _ => .error (.invalid (.secondRoot element.name) (some element.line))

/-- Closes the innermost open element, which the end tag has to name. -/
def closeNamed (builder : Builder) (name : List Char) (endLine : UInt32) :
    Except DocumentError Builder :=
  match builder.opened with
  | [] => .error (.malformed (.badNesting (.unmatchedEnd (String.ofList name))) endLine)
  | innermost :: outer =>
      if innermost.rawName = name then
        { builder with opened := outer }.attach innermost.close
      else
        .error (.malformed
          (.badNesting (.mismatchedEnd (String.ofList innermost.rawName) (String.ofList name)))
          endLine)

def addText (builder : Builder) (text : List Char) : Builder :=
  match builder.opened with
  | [] => builder
  | innermost :: outer => { builder with opened := innermost.addText text :: outer }

def step (builder : Builder) (lexeme : Lexeme) : Except DocumentError Builder :=
  match lexeme.token with
  | .text run =>
      if builder.opened.isEmpty then .ok builder
      else
        match Reference.decode run with
        | .error fault => .error (.malformed (.badReference fault) lexeme.line)
        | .ok text => .ok (builder.addText text)
  | .cdata content => .ok (builder.addText content)
  | .startTag content => do
      let element ← builder.begin content lexeme.line lexeme.endLine
      .ok { builder with opened := element :: builder.opened }
  | .emptyTag content => do
      let element ← builder.begin content lexeme.line lexeme.endLine
      builder.attach element.close
  | .endTag content => builder.closeNamed (endName content) lexeme.endLine
  | .broken fault _ => .error (.malformed (.badMarkup fault) lexeme.endLine)
  | .comment _ | .instruction _ | .doctype _ => .ok builder

def finish (builder : Builder) : Except DocumentError Element :=
  match builder.opened, builder.root with
  | innermost :: _, _ => .error (.invalid (.neverClosed innermost.name) (some innermost.line))
  | [], some root => .ok root
  | [], none => .error (.invalid .noRoot none)

/-- The two stacks apart. -/
def loop (builder : Builder) : Loop where
  reader := ⟨builder.opened.map OpenElement.held⟩
  assembly := ⟨builder.opened.map OpenElement.unclosed, builder.root⟩

theorem attach_loop (builder : Builder) (element : Element) :
    Loop.mk builder.loop.reader <$> builder.loop.assembly.attach element =
      loop <$> builder.attach element := by
  obtain ⟨opened, root⟩ := builder
  cases opened <;> cases root <;> rfl

theorem scope_loop (builder : Builder) : builder.loop.reader.scope = builder.scope := by
  obtain ⟨opened, root⟩ := builder
  cases opened <;> rfl

theorem begin_of_fault {builder : Builder} {content : List Char} {fault : Fault}
    (h : builder.scope.declare (RawTag.ofContent content).attributes = .error fault)
    (line endLine : UInt32) :
    builder.begin content line endLine = .error (.malformed fault endLine) := by
  rw [begin, h]
  rfl

theorem begin_of_declares {builder : Builder} {content : List Char} {scope : Scope}
    (h : builder.scope.declare (RawTag.ofContent content).attributes = .ok scope)
    (line endLine : UInt32) :
    builder.begin content line endLine = builder.loop.assembly.checkDepth line >>= fun _ =>
      OpenElement.ofTag (RawTag.ofContent content) scope line := by
  simp only [begin, h, Except.mapError, Outcome.ok_bind, Assembly.checkDepth, loop,
    List.length_map]
  split <;> rfl

/-- Both kinds of tags are taken in alike, up to what is held open and where the element goes. -/
theorem tag_loop {builder : Builder} {token : Token} {content : List Char} {line : UInt32}
    {event : Scope → Event} {reader : Scope → Reader}
    {put : UnclosedElement → Except DocumentError Assembly}
    {take : OpenElement → Except DocumentError Builder}
    (hRead : builder.loop.reader.read token =
      builder.loop.reader.scope.declare (RawTag.ofContent content).attributes >>= fun scope =>
        .ok (event scope, reader scope))
    (hHandle : ∀ scope, builder.loop.assembly.handle (event scope) line =
      builder.loop.assembly.checkDepth line >>= fun _ =>
        UnclosedElement.ofTag (RawTag.ofContent content) scope line >>= put)
    (hPut : ∀ {scope element},
      OpenElement.ofTag (RawTag.ofContent content) scope line = .ok element →
        Loop.mk (reader scope) <$> put element.unclosed = loop <$> take element)
    (endLine : UInt32) :
    builder.loop.step ⟨token, line, endLine⟩ =
      loop <$> (builder.begin content line endLine >>= take) := by
  rw [scope_loop] at hRead
  cases hDeclare : builder.scope.declare (RawTag.ofContent content).attributes with
  | error fault =>
      rw [hDeclare] at hRead
      rw [Loop.step_of_fault hRead, begin_of_fault hDeclare]
      rfl
  | ok scope =>
      rw [hDeclare] at hRead
      rw [Loop.step_of_read hRead, hHandle, begin_of_declares hDeclare, OpenElement.ofTag_unclosed]
      cases builder.loop.assembly.checkDepth line with
      | error error => rfl
      | ok _ =>
          cases hElement : OpenElement.ofTag (RawTag.ofContent content) scope line with
          | error error => rfl
          | ok element => exact hPut hElement

theorem startTag_loop (builder : Builder) (content : List Char) (line endLine : UInt32) :
    builder.loop.step ⟨.startTag content, line, endLine⟩ =
      loop <$> builder.step ⟨.startTag content, line, endLine⟩ := by
  refine tag_loop rfl (fun _ => rfl) (fun {scope element} hElement => ?_) endLine
  rw [← OpenElement.held_of_ofTag hElement]
  rfl

theorem emptyTag_loop (builder : Builder) (content : List Char) (line endLine : UInt32) :
    builder.loop.step ⟨.emptyTag content, line, endLine⟩ =
      loop <$> builder.step ⟨.emptyTag content, line, endLine⟩ :=
  tag_loop rfl (fun _ => rfl) (fun {_ element} _ => attach_loop builder element.close) endLine

theorem endTag_loop (builder : Builder) (content : List Char) (line endLine : UInt32) :
    builder.loop.step ⟨.endTag content, line, endLine⟩ =
      loop <$> builder.step ⟨.endTag content, line, endLine⟩ := by
  obtain ⟨opened, root⟩ := builder
  cases opened with
  | nil => rfl
  | cons innermost outer =>
      simp only [step, closeNamed]
      by_cases hName : innermost.rawName = endName content
      · have hRead : (Builder.mk (innermost :: outer) root).loop.reader.read (.endTag content) =
            .ok (.stop, (Builder.mk outer root).loop.reader) := by
          simp [Reader.read, Reader.release, loop, OpenElement.held, hName]
        rw [Loop.step_of_read hRead]
        simp only [hName, ↓reduceIte]
        exact attach_loop ⟨outer, root⟩ innermost.close
      · simp [Loop.step_of_fault, Reader.read, Reader.release, loop, OpenElement.held, hName]

theorem text_loop (builder : Builder) (run : List Char) (line endLine : UInt32) :
    builder.loop.step ⟨.text run, line, endLine⟩ =
      loop <$> builder.step ⟨.text run, line, endLine⟩ := by
  have hRead : builder.loop.reader.read (.text run) = .ok (.text run, builder.loop.reader) := rfl
  simp only [Loop.step_of_read hRead, Assembly.handle, step]
  obtain ⟨opened, root⟩ := builder
  cases opened with
  | nil => rfl
  | cons innermost outer => cases Reference.decode run <;> rfl

theorem cdata_loop (builder : Builder) (content : List Char) (line endLine : UInt32) :
    builder.loop.step ⟨.cdata content, line, endLine⟩ =
      loop <$> builder.step ⟨.cdata content, line, endLine⟩ := by
  obtain ⟨opened, root⟩ := builder
  cases opened <;> rfl

/-- The loop does what the builder does. -/
theorem step_loop (builder : Builder) (lexeme : Lexeme) :
    builder.loop.step lexeme = loop <$> builder.step lexeme := by
  obtain ⟨token, line, endLine⟩ := lexeme
  cases token with
  | startTag content => exact startTag_loop builder content line endLine
  | emptyTag content => exact emptyTag_loop builder content line endLine
  | endTag content => exact endTag_loop builder content line endLine
  | text run => exact text_loop builder run line endLine
  | cdata content => exact cdata_loop builder content line endLine
  | comment body | instruction body | doctype body | broken fault read => rfl

theorem finish_loop (builder : Builder) : builder.loop.assembly.finish = builder.finish := by
  obtain ⟨opened, root⟩ := builder
  cases opened <;> cases root <;> rfl

end Builder

theorem foldlM_loop (lexemes : List Lexeme) :
    lexemes.foldlM Loop.step .initial =
      Builder.loop <$> lexemes.foldlM Builder.step .empty :=
  Outcome.foldlM_map_eq Builder.step_loop .empty lexemes

theorem Loop.exists_builder {lexemes : List Lexeme} {loop : Loop}
    (h : lexemes.foldlM Loop.step .initial = .ok loop) :
    ∃ builder, lexemes.foldlM Builder.step .empty = .ok builder ∧ builder.loop = loop := by
  rw [foldlM_loop] at h
  exact Outcome.map_eq_ok_iff.1 h

theorem Document.ofLexemes_eq (lexemes : List Lexeme) :
    ofLexemes lexemes = lexemes.foldlM Builder.step .empty >>= Builder.finish := by
  rw [ofLexemes, foldlM_loop]
  cases lexemes.foldlM Builder.step .empty with
  | error error => rfl
  | ok builder => exact builder.finish_loop

theorem Document.exists_builder {lexemes : List Lexeme} {root : Element}
    (h : ofLexemes lexemes = .ok root) :
    ∃ builder, lexemes.foldlM Builder.step .empty = .ok builder ∧ builder.finish = .ok root := by
  rw [ofLexemes_eq] at h
  exact Outcome.bind_eq_ok_iff.1 h

end ContractDoc.Xml

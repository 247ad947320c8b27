import ContractDoc.Proofs.Xml.Cutting
import ContractDoc.Proofs.Xml.Grammar

/-! # What an accepted document consists of

A builder accepts nothing but the lexemes of a document: every element that it opens is either left
open or closed after lexemes that are its content, and a second root is refused. On the way its open
elements are the tags that are open in the text, one for one.
-/

namespace ContractDoc.Xml

/-- From inside `parent`, the lexemes either leave it open or lead up to its end tag, after which
the rest is taken in without it. -/
def StaysOrCloses (parent : OpenElement) (outer : List OpenElement) (root : Option Element)
    (lexemes : List Lexeme) (final : Builder) : Prop :=
  outer.length < final.opened.length ∨
    ∃ body stop line endLine rest text children next,
      lexemes = body ++ ⟨.endTag stop, line, endLine⟩ :: rest ∧
        Content parent.scope (outer.length + 1) body text children ∧
          endName stop = parent.rawName ∧
            (Builder.mk outer root).attach (parent.fill text children).close = .ok next ∧
              rest.foldlM Builder.step next = .ok final

variable {parent : OpenElement} {outer : List OpenElement} {root : Option Element}
  {lexemes : List Lexeme} {final : Builder}

/-- Lexemes that add to the content of `parent` may be put in front. -/
theorem StaysOrCloses.prepend (front : List Lexeme) {chars : List Char} {kids : List Element}
    (h : StaysOrCloses (parent.fill chars kids) outer root lexemes final)
    (hContent : ∀ body text children,
      Content parent.scope (outer.length + 1) body text children →
        Content parent.scope (outer.length + 1) (front ++ body) (chars ++ text)
          (kids ++ children)) :
    StaysOrCloses parent outer root (front ++ lexemes) final := by
  rcases h with h | ⟨body, stop, line, endLine, rest, text, children, next, rfl, hBody, hStop, hNext,
    hRest⟩
  · exact .inl h
  · refine .inr ⟨front ++ body, stop, line, endLine, rest, chars ++ text, kids ++ children, next,
      by simp, hContent body text children hBody, hStop, ?_, hRest⟩
    rwa [show (parent.fill chars kids).fill text children =
      parent.fill (chars ++ text) (kids ++ children) by
        simp [OpenElement.fill, String.append_assoc]] at hNext

/-- What one step does inside an element: it adds to the content, opens an element below, or closes
the innermost one. -/
theorem step_inside {lexeme : Lexeme} {next : Builder}
    (h : (Builder.mk (parent :: outer) root).step lexeme = .ok next) :
    (∃ chars kids, next = ⟨parent.fill chars kids :: outer, root⟩ ∧
      ∀ body text children, Content parent.scope (outer.length + 1) body text children →
        Content parent.scope (outer.length + 1) (lexeme :: body) (chars ++ text)
          (kids ++ children)) ∨
    (∃ content line endLine element, lexeme = ⟨.startTag content, line, endLine⟩ ∧
      Opens parent.scope (outer.length + 1) content line element ∧
        next = ⟨element :: parent :: outer, root⟩) ∨
    (∃ stop line endLine, lexeme = ⟨.endTag stop, line, endLine⟩ ∧
      endName stop = parent.rawName ∧ (Builder.mk outer root).attach parent.close = .ok next) := by
  obtain ⟨token, line, endLine⟩ := lexeme
  cases token with
  | text run =>
      left
      simp only [Builder.step, List.isEmpty_cons, Bool.false_eq_true, ↓reduceIte] at h
      cases hDecode : Reference.decode run with
      | error fault => simp [hDecode] at h
      | ok chars =>
          simp only [hDecode, Builder.addText_cons, Except.ok.injEq] at h
          refine ⟨chars, [], ?_, fun body text children hBody => ?_⟩
          · rw [← h, ← OpenElement.fill_nil (parent.addText chars), OpenElement.addText_fill,
              List.append_nil]
          · exact .text (Reference.decode_eq_ok_iff.1 hDecode) hBody
  | cdata content =>
      left
      obtain rfl := Except.ok.inj h
      refine ⟨content, [], ?_, fun body text children hBody => .cdata hBody⟩
      rw [Builder.addText_cons, ← OpenElement.fill_nil (parent.addText content),
        OpenElement.addText_fill, List.append_nil]
  | comment body | instruction body | doctype body =>
      left
      obtain rfl := Except.ok.inj h
      refine ⟨[], [], ?_, fun body text children hBody => .remark trivial hBody⟩
      rw [OpenElement.fill_nil]
  | startTag content =>
      right; left
      obtain ⟨element, hBegin, hNext⟩ := Outcome.bind_eq_ok_iff.1 h
      obtain rfl := Except.ok.inj hNext
      exact ⟨content, line, endLine, element, rfl, Builder.begin_eq_ok_iff.1 hBegin, rfl⟩
  | emptyTag content =>
      left
      obtain ⟨element, hBegin, hNext⟩ := Outcome.bind_eq_ok_iff.1 h
      have hOpens := Builder.begin_eq_ok_iff.1 hBegin
      obtain rfl := Except.ok.inj hNext
      refine ⟨[], [element.closeWith [] []], ?_, fun body text children hBody =>
        .empty hOpens hBody⟩
      rw [← hOpens.close_fill, OpenElement.fill_nil, ← OpenElement.addChild_fill,
        OpenElement.fill_nil]
  | endTag stop =>
      right; right
      simp only [Builder.step, Builder.closeNamed] at h
      split at h
      · next hName => exact ⟨stop, line, endLine, rfl, hName.symm, h⟩
      · simp at h
  | broken fault read => simp [Builder.step] at h

theorem staysOrCloses_of_foldlM
    (h : lexemes.foldlM Builder.step ⟨parent :: outer, root⟩ = .ok final) :
    StaysOrCloses parent outer root lexemes final := by
  induction hLength : lexemes.length using Nat.strongRecOn generalizing lexemes parent outer with
  | ind n ih =>
      cases lexemes with
      | nil =>
          obtain rfl := Except.ok.inj h
          exact .inl (Nat.lt_succ_self outer.length)
      | cons lexeme rest =>
          obtain ⟨next, hStep, hRest⟩ := Outcome.foldlM_cons_eq_ok_iff.1 h
          have hShort : rest.length < n := by
            rw [← hLength]
            exact Nat.lt_succ_self rest.length
          rcases step_inside hStep with ⟨chars, kids, rfl, hContent⟩ |
            ⟨content, line, endLine, element, rfl, hOpens, rfl⟩ |
            ⟨stop, line, endLine, rfl, hStop, hAttach⟩
          · exact (ih rest.length hShort hRest rfl).prepend [lexeme] hContent
          · -- The element below closes first; what follows its end tag is shorter still.
            rcases ih rest.length hShort hRest rfl with hStays | ⟨body, stop, stopLine,
              stopEndLine, rest', text, children, next, rfl, hBody, hStop, hAttach, hAfter⟩
            · exact .inl (Nat.lt_of_succ_lt hStays)
            · obtain rfl := Except.ok.inj hAttach
              rw [hOpens.close_fill] at hAfter
              have hShort' : rest'.length < n := by
                simp only [List.length_append, List.length_cons] at hShort
                omega
              rw [← OpenElement.fill_nil (parent.addChild _), OpenElement.addChild_fill] at hAfter
              have hRest' := ih rest'.length hShort' hAfter rfl
              have hFront := hRest'.prepend
                (⟨.startTag content, line, endLine⟩ ::
                  (body ++ [⟨.endTag stop, stopLine, stopEndLine⟩]))
                fun body' text' children' hBody' => by
                  rw [List.cons_append, List.append_assoc]
                  exact .nested hOpens hBody hStop hBody'
              simpa using hFront
          · refine .inr ⟨[], stop, line, endLine, rest, [], [], next, rfl, .nil, hStop, ?_, hRest⟩
            rwa [OpenElement.fill_nil]

theorem step_outside {lexeme : Lexeme} {next : Builder}
    (h : (Builder.mk [] root).step lexeme = .ok next) :
    (lexeme.token.IsOuter ∧ next = ⟨[], root⟩) ∨
    (∃ content line endLine element, lexeme = ⟨.startTag content, line, endLine⟩ ∧
      Opens .reserved 0 content line element ∧ next = ⟨[element], root⟩) ∨
    (∃ content line endLine element, lexeme = ⟨.emptyTag content, line, endLine⟩ ∧
      Opens .reserved 0 content line element ∧
        (Builder.mk [] root).attach (element.closeWith [] []) = .ok next) := by
  obtain ⟨token, line, endLine⟩ := lexeme
  cases token with
  | text run | cdata content | comment body | instruction body | doctype body =>
      exact .inl ⟨trivial, (Except.ok.inj h).symm⟩
  | startTag content =>
      obtain ⟨element, hBegin, hNext⟩ := Outcome.bind_eq_ok_iff.1 h
      obtain rfl := Except.ok.inj hNext
      exact .inr (.inl ⟨content, line, endLine, element, rfl, Builder.begin_eq_ok_iff.1 hBegin, rfl⟩)
  | emptyTag content =>
      obtain ⟨element, hBegin, hNext⟩ := Outcome.bind_eq_ok_iff.1 h
      have hOpens := Builder.begin_eq_ok_iff.1 hBegin
      rw [← OpenElement.fill_nil element, hOpens.close_fill] at hNext
      exact .inr (.inr ⟨content, line, endLine, element, rfl, hOpens, hNext⟩)
  | endTag stop => simp [Builder.step, Builder.closeNamed] at h
  | broken fault read => simp [Builder.step] at h

theorem isOuter_of_foldlM {element : Element}
    (h : lexemes.foldlM Builder.step ⟨[], some element⟩ = .ok final) (hClosed : final.opened = []) :
    (∀ lexeme ∈ lexemes, lexeme.token.IsOuter) ∧ final.root = some element := by
  induction lexemes with
  | nil =>
      obtain rfl := Except.ok.inj h
      simp
  | cons lexeme rest ih =>
      obtain ⟨next, hStep, hRest⟩ := Outcome.foldlM_cons_eq_ok_iff.1 h
      rcases step_outside hStep with ⟨hOuter, rfl⟩ | ⟨content, line, endLine, opened, rfl, -, rfl⟩ |
        ⟨content, line, endLine, opened, rfl, -, hAttach⟩
      · obtain ⟨hAll, hRoot⟩ := ih hRest
        exact ⟨by simpa using ⟨hOuter, hAll⟩, hRoot⟩
      · rcases staysOrCloses_of_foldlM hRest with hStays | ⟨_, _, _, _, _, _, _, _, -, -, -, hNext, -⟩
        · simp [hClosed] at hStays
        · simp [Builder.attach] at hNext
      · simp [Builder.attach] at hAttach

/-- From the start on, nothing but the lexemes of a document is accepted. -/
theorem isDocument_of_foldlM {element : Element}
    (h : lexemes.foldlM Builder.step ⟨[], none⟩ = .ok final) (hClosed : final.opened = [])
    (hRoot : final.root = some element) : IsDocument lexemes element := by
  induction lexemes with
  | nil =>
      obtain rfl := Except.ok.inj h
      simp at hRoot
  | cons lexeme rest ih =>
      obtain ⟨next, hStep, hRest⟩ := Outcome.foldlM_cons_eq_ok_iff.1 h
      rcases step_outside hStep with ⟨hOuter, rfl⟩ |
        ⟨content, line, endLine, opened, rfl, hOpens, rfl⟩ |
        ⟨content, line, endLine, opened, rfl, hOpens, hAttach⟩
      · obtain @⟨before, lexemes, after, _, hBefore, hElement, hAfter⟩ := ih hRest
        have hAll : ∀ l ∈ lexeme :: before, l.token.IsOuter := by simpa using ⟨hOuter, hBefore⟩
        exact .intro hAll hElement hAfter
      · rcases staysOrCloses_of_foldlM hRest with hStays | ⟨body, stop, stopLine, stopEndLine, rest',
          text, children, next, rfl, hBody, hStop, hNext, hAfter⟩
        · simp [hClosed] at hStays
        · rw [hOpens.close_fill, Builder.attach_nil] at hNext
          obtain rfl := Except.ok.inj hNext
          obtain ⟨hOuter, hFinal⟩ := isOuter_of_foldlM hAfter hClosed
          obtain rfl := Option.some.inj (hRoot.symm.trans hFinal)
          have hElement : IsElement .reserved 0 (⟨.startTag content, line, endLine⟩ ::
              (body ++ [⟨.endTag stop, stopLine, stopEndLine⟩]))
              (opened.closeWith text children) := .nested hOpens hBody hStop
          simpa using IsDocument.intro (List.forall_mem_nil _) hElement hOuter
      · rw [Builder.attach_nil] at hAttach
        obtain rfl := Except.ok.inj hAttach
        obtain ⟨hOuter, hFinal⟩ := isOuter_of_foldlM hRest hClosed
        obtain rfl := Option.some.inj (hRoot.symm.trans hFinal)
        exact .intro (List.forall_mem_nil _) (.empty hOpens) hOuter

/-- Exactly the lexemes of documents are accepted. -/
theorem ofLexemes_eq_ok_iff {element : Element} :
    Document.ofLexemes lexemes = .ok element ↔ IsDocument lexemes element := by
  refine ⟨fun h => ?_, IsDocument.ofLexemes⟩
  obtain ⟨final, hFold, hFinish⟩ := Document.exists_builder h
  unfold Builder.finish at hFinish
  split at hFinish
  · simp at hFinish
  · next hClosed hRoot =>
      obtain rfl := Except.ok.inj hFinish
      exact isDocument_of_foldlM hFold hClosed hRoot
  · simp at hFinish

end ContractDoc.Xml

import ContractDoc.Proofs.Xml.Position
import ContractDoc.Proofs.Xml.Soundness

/-! # The lines of elements

In a text without a byte order mark, every element stands on the line on which its tag begins: the
line is one more than the number of line feeds before the `<` of the tag, in whatever construct
they stand. Lines are counted in 32 bits, so they go up as long as none of them wraps around.
-/

namespace ContractDoc.Xml

/-- The token is a start tag or an empty tag. -/
def Token.beginsElement : Token → Bool
  | startTag _ | emptyTag _ => true
  | _ => false

/-- An element and everything below it, in document order. -/
def Element.preorder (element : Element) : List Element := element :: element.descendants

theorem preorder_closeWith (element : OpenElement) (text : List Char) (children : List Element) :
    (element.closeWith text children).preorder =
      element.closeWith text children :: children.flatMap Element.preorder := by
  rw [Element.preorder, Element.descendants_eq_flatMap]
  rfl

theorem Content.lines {scope : Scope} {depth : Nat} {lexemes : List Lexeme} {text : List Char}
    {children : List Element} (h : Content scope depth lexemes text children) :
    (children.flatMap Element.preorder).map Element.line =
      (lexemes.filter (·.token.beginsElement)).map Lexeme.line := by
  induction h with
  | nil => rfl
  | text _ _ ih => exact ih
  | cdata _ ih => exact ih
  | @remark scope depth lexeme text lexemes children hRemark _ ih =>
      obtain ⟨token, line, endLine⟩ := lexeme
      cases token <;> first | exact ih | exact hRemark.elim
  | @empty scope depth line endLine content text element lexemes children hOpens _ ih =>
      rw [List.flatMap_cons, preorder_closeWith]
      simpa [OpenElement.closeWith, hOpens.line, Token.beginsElement] using ih
  | @nested scope depth line endLine stopLine stopEndLine content stop inner text element body
      lexemes below children hOpens _ _ _ ihBody ih =>
      rw [List.flatMap_cons, preorder_closeWith]
      simp [OpenElement.closeWith, hOpens.line, Token.beginsElement, List.filter_append, ihBody, ih]

theorem IsElement.lines {scope : Scope} {depth : Nat} {lexemes : List Lexeme} {element : Element}
    (h : IsElement scope depth lexemes element) :
    element.preorder.map Element.line =
      (lexemes.filter (·.token.beginsElement)).map Lexeme.line := by
  cases h with
  | empty hOpens =>
      rw [preorder_closeWith]
      simp [OpenElement.closeWith, hOpens.line, Token.beginsElement]
  | nested hOpens hBody =>
      rw [preorder_closeWith, List.map_cons, hBody.lines]
      simp [OpenElement.closeWith, hOpens.line, Token.beginsElement, List.filter_append]

theorem filter_beginsElement_outer {lexemes : List Lexeme}
    (h : ∀ lexeme ∈ lexemes, lexeme.token.IsOuter) :
    lexemes.filter (·.token.beginsElement) = [] := by
  rw [List.filter_eq_nil_iff]
  rintro ⟨token, line, endLine⟩ hLexeme
  have hOuter := h _ hLexeme
  cases token <;> first | exact Bool.false_ne_true | exact hOuter.elim

/-- The elements of a document stand on the lines of its start and empty tags, in order. -/
theorem IsDocument.lines {lexemes : List Lexeme} {root : Element} (h : IsDocument lexemes root) :
    root.preorder.map Element.line =
      (lexemes.filter (·.token.beginsElement)).map Lexeme.line := by
  obtain ⟨hBefore, hElement, hAfter⟩ := h
  rw [List.filter_append, List.filter_append, filter_beginsElement_outer hBefore,
    filter_beginsElement_outer hAfter, List.nil_append, List.append_nil, hElement.lines]

namespace Lexeme

end Lexeme

end ContractDoc.Xml

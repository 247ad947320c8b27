import ContractDoc.Text.Cut

/-! # Where markup ends

White space as markup knows it, and the automata that find the closing `>` of tags and of document
types. Neither automaton stops at any other character.
-/

namespace ContractDoc.Xml

open Text

/-- White space of XML markup: space, tab, carriage return and line feed. -/
def isSpace (c : Char) : Bool := c == ' ' || c == '\t' || c == '\r' || c == '\n'

/-- The end of a tag is a `>` outside quotes. The state is the quote that is open. -/
def tagStep : Option Char → Char → Option (Option Char)
  | none, '>' => none
  | none, '"' => some (some '"')
  | none, '\'' => some (some '\'')
  | none, _ => some none
  | some quote, c => if c = quote then some none else some (some quote)

/-- The end of a document type is a `>` that closes no inner `<`. The state counts the inner `<`
that are open. -/
def doctypeStep : Nat → Char → Option Nat
  | 0, '>' => none
  | depth + 1, '>' => some depth
  | depth, '<' => some (depth + 1)
  | depth, _ => some depth

theorem closesAt_tagStep : ClosesAt tagStep '>' := by
  intro state c h
  cases state with
  | none => unfold tagStep at h; split at h <;> simp_all
  | some quote => simp only [tagStep] at h; split at h <;> simp at h

theorem closesAt_doctypeStep : ClosesAt doctypeStep '>' := by
  intro state c h
  unfold doctypeStep at h
  split at h <;> simp_all

end ContractDoc.Xml

import ContractDoc.Proofs.Contract.Layout
import ContractDoc.Proofs.Xml.Lines

/-! # Byte order marks

A byte order mark is not part of a document, but its bytes are part of the text whose line feeds
are counted. So it changes nothing of an outcome but the lines: behind a mark, every place is given
the line of the byte three bytes before it.
-/

namespace ContractDoc

open Xml (Element Lexeme Token)
open Text (FewLines lineAt utf8)

namespace Xml

/-- Trees that differ in their lines alone, which two functions make of one list of positions. -/
structure Element.Alike (f g : Nat → UInt32) (first second : Element) : Prop where
  withoutLines : first.withoutLines = second.withoutLines
  lines : ∃ positions : List Nat, first.preorder.map Element.line = positions.map f ∧
    second.preorder.map Element.line = positions.map g

theorem Lexeme.exists_positions (position : Nat) (tokens : List Token) :
    ∃ positions : List Nat, ∀ f : Nat → UInt32,
      ((placed f position tokens).filter (·.token.beginsElement)).map line = positions.map f := by
  induction tokens generalizing position with
  | nil => exact ⟨[], fun _ => rfl⟩
  | cons first rest ih =>
      obtain ⟨positions, hPositions⟩ := ih (position + Text.byteLength first.source)
      by_cases hFirst : first.beginsElement
      · refine ⟨position :: positions, fun f => ?_⟩
        simp only [placed, List.filter_cons, hFirst, ↓reduceIte, List.map_cons, hPositions]
      · refine ⟨positions, fun f => ?_⟩
        simp only [placed, List.filter_cons, hFirst, Bool.false_eq_true, ↓reduceIte, hPositions]

theorem Document.passesLines (tokens : List Token) :
    PassesLines fun lineOf => Element.withoutLines <$> ofTokens lineOf tokens := by
  intro f lineOf
  dsimp only
  rw [ofTokens_comp, Outcome.mapError_map]
  cases ofTokens lineOf tokens with
  | error error => rfl
  | ok root => exact congrArg Except.ok (root.withoutLines_relocate f)

/-- The same tokens make up the same document by position, whatever lines there are. -/
theorem Document.agreeByPosition (f g : Nat → UInt32) (tokens : List Token) :
    AgreeByPosition f g (Element.Alike f g) (ofTokens f tokens) (ofTokens g tokens) := by
  have hAgree := (passesLines tokens).agreeByPosition f g
  cases hFirst : ofTokens f tokens with
  | error error =>
      cases hSecond : ofTokens g tokens with
      | error other =>
          rw [hFirst, hSecond] at hAgree
          cases hAgree with
          | error error position => exact .error error position
      | ok other =>
          rw [hFirst, hSecond] at hAgree
          cases hAgree
  | ok root =>
      cases hSecond : ofTokens g tokens with
      | error other =>
          rw [hFirst, hSecond] at hAgree
          cases hAgree
      | ok other =>
          rw [hFirst, hSecond] at hAgree
          cases hAgree with
          | ok hSame =>
              obtain ⟨positions, hPositions⟩ := Lexeme.exists_positions 0 tokens
              exact .ok
                { withoutLines := hSame
                  lines := ⟨positions, (ofLexemes_eq_ok_iff.1 hFirst).lines.trans (hPositions f),
                    (ofLexemes_eq_ok_iff.1 hSecond).lines.trans (hPositions g)⟩ }

end Xml

theorem Contract.passesLines (tokens : List Token) :
    PassesLines fun lineOf => Xml.Document.ofTokens lineOf tokens >>= Contract.ofXml := by
  intro f lineOf
  dsimp only
  rw [Xml.Document.ofTokens_comp]
  cases Xml.Document.ofTokens lineOf tokens with
  | error error => rfl
  | ok root => exact ofXml_relocate f root

def marked (text : String) : String := String.ofList (Lexeme.byteOrderMark :: text.toList)

def exactLine (text : String) (position : Nat) : UInt32 := lineAt (utf8 text.toList) position

/-- The line of the position three bytes before. -/
def delayedLine (text : String) (position : Nat) : UInt32 := exactLine text (position - 3)

/-- The three bytes of the mark hold no line feed, and they push all others back. -/
theorem exactLine_marked (text : String) : exactLine (marked text) = delayedLine text := by
  funext position
  rw [exactLine, marked, String.toList_ofList]
  have hFront : Text.LineCursor.lineFeed ∉ utf8 [Lexeme.byteOrderMark] := by decide
  exact Text.lineAt_append_left hFront (utf8 text.toList) position

theorem parse_marked_eq_ofTokens (text : String) :
    Xml.Document.parse (marked text) =
      Xml.Document.ofTokens (delayedLine text) (Token.cut text.toList) := by
  have hMark : Lexeme.withoutMark (marked text).toList = text.toList := by
    simp [marked, Lexeme.withoutMark]
  rw [Xml.Document.parse_eq_ofTokens, hMark]
  exact congrArg (Xml.Document.ofTokens · _) (exactLine_marked text)

/-- With a mark and without one, a text has the same outcome by position, as a document and as a
contract: the same tree, or the same error. What differs are the lines that are made from the
positions, and those behind a mark are never the later ones, unless lines wrap around. -/
theorem parse_marked {text : String} (h : text.toList.head? ≠ some Lexeme.byteOrderMark) :
    (Xml.Document.parse text =
        Xml.Document.ofTokens (exactLine text) (Token.cut text.toList)) ∧
      (Xml.Document.parse (marked text) =
        Xml.Document.ofTokens (delayedLine text) (Token.cut text.toList)) ∧
      AgreeByPosition (exactLine text) (delayedLine text)
        (Element.Alike (exactLine text) (delayedLine text))
        (Xml.Document.parse text) (Xml.Document.parse (marked text)) ∧
      AgreeByPosition (exactLine text) (delayedLine text) Eq
        (Contract.parse text) (Contract.parse (marked text)) ∧
      (∀ contract, Contract.parse (marked text) = .ok contract ↔
        Contract.parse text = .ok contract) ∧
      (FewLines (utf8 text.toList) →
        ∀ position, delayedLine text position ≤ exactLine text position) := by
  have hExact : Xml.Document.parse text =
      Xml.Document.ofTokens (exactLine text) (Token.cut text.toList) := by
    rw [Xml.Document.parse_eq_ofTokens, Lexeme.withoutMark_eq_self h]
    rfl
  have hDelayed := parse_marked_eq_ofTokens text
  have hLines := Contract.passesLines (Token.cut text.toList)
  refine ⟨hExact, hDelayed, ?_, ?_, fun contract => ?_, fun hFew position => ?_⟩
  · rw [hExact, hDelayed]
    exact Xml.Document.agreeByPosition _ _ _
  · rw [Contract.parse, Contract.parse, hExact, hDelayed]
    exact hLines.agreeByPosition _ _
  · rw [Contract.parse, Contract.parse, hExact, hDelayed]
    exact ⟨hLines.eq_ok, hLines.eq_ok⟩
  · exact hFew.lineAt_mono (Nat.sub_le position 3)

/-- The line feed before the root is one of the last three bytes before it. -/
theorem parse_marked_line_feed :
    "\n<a/>".toList.head? ≠ some Lexeme.byteOrderMark ∧
      AgreeByPosition (exactLine "\n<a/>") (delayedLine "\n<a/>")
        (Element.Alike (exactLine "\n<a/>") (delayedLine "\n<a/>"))
        (Xml.Document.parse "\n<a/>") (Xml.Document.parse (marked "\n<a/>")) ∧
      AgreeByPosition (exactLine "\n<a/>") (delayedLine "\n<a/>") Eq
        (Contract.parse "\n<a/>") (Contract.parse (marked "\n<a/>")) ∧
      delayedLine "\n<a/>" 1 ≤ exactLine "\n<a/>" 1 ∧
      (exactLine "\n<a/>" 1, delayedLine "\n<a/>" 1) = (2, 1) := by
  have hMark : "\n<a/>".toList.head? ≠ some Lexeme.byteOrderMark := by decide
  have hFew : FewLines (utf8 "\n<a/>".toList) := by decide
  obtain ⟨-, -, hDocument, hContract, -, hLe⟩ := parse_marked hMark
  exact ⟨hMark, hDocument, hContract, hLe hFew 1, by decide⟩

/-- A mark is not transparent: the root stands on the second line, and with a mark on the first. -/
theorem parse_marked_ne :
    "\n<a/>".toList.head? ≠ some Lexeme.byteOrderMark ∧
      Xml.Document.parse "\n<a/>" = .ok ⟨"a", [], [], "", 2⟩ ∧
      Xml.Document.parse (marked "\n<a/>") = .ok ⟨"a", [], [], "", 1⟩ ∧
      Contract.parse "\n<a/>" = .error (.invalid (.wrongRoot "EditorContract" "a") (some 2)) ∧
      Contract.parse (marked "\n<a/>") =
        .error (.invalid (.wrongRoot "EditorContract" "a") (some 1)) := by
  refine ⟨by decide, ?_, ?_, ?_, ?_⟩ <;> decide +kernel

end ContractDoc

import ContractDoc.Text.LineCursor
import ContractDoc.Xml.Token

/-! # Tokens with their lines

A lexeme is a token together with the line on which it begins and the line that is reached after
it. Byte positions count from the end of a byte order mark, while line feeds are counted from the
very start of the text, so a mark delays every line feed by its own length.
-/

namespace ContractDoc.Xml

/-- A token, the line of its first character and the line after its last one. -/
structure Lexeme where
  token : Token
  line : UInt32
  endLine : UInt32
  deriving DecidableEq, Repr

namespace Lexeme

/-- Follows the tokens with a cursor from a byte position on; `done` holds the lexemes before, the
last one first. -/
def locateFrom (cursor : Text.LineCursor) (position : Nat) (done : List Lexeme) :
    List Token → List Lexeme
  | [] => done.reverse
  | token :: tokens =>
      let start := cursor.advanceTo position
      let next := position + Text.byteLength token.source
      let stop := start.advanceTo next
      locateFrom stop next (⟨token, start.line, stop.line⟩ :: done) tokens

/-- The mark that may stand before the first character of a text. -/
def byteOrderMark : Char := '\uFEFF'

/-- The characters of a text after a byte order mark, if it begins with one. -/
def withoutMark : List Char → List Char
  | [] => []
  | c :: cs => if c = byteOrderMark then cs else c :: cs

def ofText (text : String) : List Lexeme :=
  locateFrom (Text.LineCursor.ofText text) 0 [] (Token.cut (withoutMark text.toList))

theorem map_token_locateFrom (cursor : Text.LineCursor) (position : Nat) (done : List Lexeme)
    (tokens : List Token) :
    (locateFrom cursor position done tokens).map token = (done.map token).reverse ++ tokens := by
  induction tokens generalizing cursor position done with
  | nil => simp [locateFrom]
  | cons first rest ih => simp [locateFrom, ih]

theorem map_token_ofText (text : String) :
    (ofText text).map token = Token.cut (withoutMark text.toList) := by
  simp [ofText, map_token_locateFrom]

end Lexeme
end ContractDoc.Xml

import ContractDoc.Text.Utf8

/-! # Counting lines

A cursor stands at a byte position of a text and knows the line it is on. It only moves forward,
so each line feed is counted once however often the cursor is asked. Lines are numbers of 32 bits:
a count is cut down to 32 bits before it is added, and the sum wraps around.
-/

namespace ContractDoc.Text

/-- A byte position in a text, the bytes from there on, and the line counted from 1. -/
structure LineCursor where
  rest : List UInt8
  offset : Nat
  line : UInt32
  deriving DecidableEq, Repr

namespace LineCursor

def lineFeed : UInt8 := 10

def ofText (text : String) : LineCursor := ⟨utf8 text.toList, 0, 1⟩

/-- Moves to a byte position, but never past the end of the text and never back. -/
def advanceTo (cursor : LineCursor) (position : Nat) : LineCursor :=
  let passed := cursor.rest.take (position - cursor.offset)
  { rest := cursor.rest.drop (position - cursor.offset)
    offset := cursor.offset + passed.length
    line := cursor.line + UInt32.ofNat (passed.count lineFeed) }

end LineCursor
end ContractDoc.Text

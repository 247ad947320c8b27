/-! # Sources of documents

A source hands out bytes in chunks and may fail after the last of them. Where the chunks are cut
does not matter: a character may be split between two.
-/

namespace ContractDoc

/-- The chunks that a source hands out, and the failure that follows them, if there is one. -/
structure Source where
  chunks : List ByteArray
  failure : Option String

namespace Source

def bytes (source : Source) : ByteArray := source.chunks.foldl (· ++ ·) ByteArray.empty

def ofText (text : String) : Source := ⟨[text.toUTF8], none⟩

/-- The reason given for bytes that encode no text. -/
def notUtf8 : String := "stream did not contain valid UTF-8"

/-- The text that the bytes of a source encode, or the reason why there is none. A failure of the
source itself comes before anything that is wrong with its bytes. -/
def text (source : Source) : Except String String :=
  match source.failure with
  | some reason => .error reason
  | none =>
      match String.fromUTF8? source.bytes with
      | some text => .ok text
      | none => .error notUtf8

end Source
end ContractDoc

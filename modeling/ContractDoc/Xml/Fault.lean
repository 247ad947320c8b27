import ContractDoc.Text.Numeral
import ContractDoc.Text.Utf8

/-! # Faults of a document as XML

Every reason for which a text is no well-formed document is a value of `Fault`. The wording of a
fault is in its `message`; the line it is reported at is kept apart from it.
-/

namespace ContractDoc.Xml

/-- Markup that is not a complete construct. -/
inductive MarkupFault
  | unknownDeclaration
  | unclosedInstruction
  | unclosedComment
  | unclosedDoctype
  | unclosedCdata
  | unclosedTag
  | namelessDoctype
  deriving DecidableEq, Repr

/-- An end tag that does not close the innermost open element. -/
inductive NestingFault
  | unmatchedEnd (found : String)
  | mismatchedEnd (expected found : String)
  deriving DecidableEq, Repr

inductive AttributeCause
  | expectedEquals
  | expectedValue
  | unquotedValue
  | expectedQuote (quote : Char)
  | duplicated (first : Nat)
  deriving DecidableEq, Repr

/-- A faulty attribute, at a byte position counted from the start of the tag's content. -/
structure AttributeFault where
  position : Nat
  cause : AttributeCause
  deriving DecidableEq, Repr

/-- A reference that stands for no character. Byte ranges count from the start of the text. -/
inductive ReferenceFault
  | unterminated (start stop : Nat)
  | unknownName (start stop : Nat) (name : String)
  | signedNumber
  | badNumber (fault : Text.NumeralFault)
  | notScalar (code : Nat)
  | nullCharacter
  deriving DecidableEq, Repr

inductive Fault
  | badMarkup (fault : MarkupFault)
  | badNesting (fault : NestingFault)
  | badAttribute (fault : AttributeFault)
  | badReference (fault : ReferenceFault)
  | reservedBinding (bound : List Char) (uri : List Char)
  deriving DecidableEq, Repr

namespace MarkupFault

def message : MarkupFault → String
  | unknownDeclaration => "syntax error: unknown or missed symbol in markup"
  | unclosedInstruction =>
      "syntax error: processing instruction or xml declaration not closed: " ++
        "`?>` not found before end of input"
  | unclosedComment => "syntax error: comment not closed: `-->` not found before end of input"
  | unclosedDoctype => "syntax error: DOCTYPE not closed: `>` not found before end of input"
  | unclosedCdata => "syntax error: CDATA not closed: `]]>` not found before end of input"
  | unclosedTag => "syntax error: tag not closed: `>` not found before end of input"
  | namelessDoctype =>
      "ill-formed document: " ++
        "`<!DOCTYPE>` declaration does not contain a name of a document type"

end MarkupFault

namespace NestingFault

def message : NestingFault → String
  | unmatchedEnd found =>
      "ill-formed document: close tag `</" ++ found ++ ">` does not match any open tag"
  | mismatchedEnd expected found =>
      "ill-formed document: expected `</" ++ expected ++ ">`, but `</" ++ found ++ ">` was found"

end NestingFault

namespace AttributeCause

def message : AttributeCause → String
  | expectedEquals => "attribute key must be directly followed by `=` or space"
  | expectedValue => "`=` must be followed by an attribute value"
  | unquotedValue => "attribute value must be enclosed in `\"` or `'`"
  | expectedQuote quote =>
      "missing closing quote `" ++ String.singleton quote ++ "` in attribute value"
  | duplicated first =>
      "duplicated attribute, previous declaration at position " ++ Nat.repr first

end AttributeCause

namespace AttributeFault

def message (fault : AttributeFault) : String :=
  "error while parsing attribute: position " ++ Nat.repr fault.position ++ ": " ++
    fault.cause.message

end AttributeFault

namespace ReferenceFault

def range (start stop : Nat) : String := Nat.repr start ++ ".." ++ Nat.repr stop

def message : ReferenceFault → String
  | unterminated start stop =>
      "Error while escaping character at range " ++ range start stop ++
        ": Cannot find ';' after '&'"
  | unknownName start stop name =>
      "at " ++ range start stop ++ ": unrecognized entity `" ++ name ++ "`"
  | signedNumber => "invalid character reference: unexpected number sign"
  | badNumber fault => "invalid character reference: " ++ fault.message
  | notScalar code =>
      "invalid character reference: `" ++ Nat.repr code ++ "` is not a valid codepoint"
  | nullCharacter => "invalid character reference: 0x0 character is not permitted in XML"

end ReferenceFault

/-- One byte of a quoted name: printable ASCII as it is, all else as an upper-case hexadecimal
number. -/
def quotedByte (byte : UInt8) : List Char :=
  if byte = 34 then ['\\', '"']
  else if 32 ≤ byte ∧ byte ≤ 126 then [Char.ofNat byte.toNat]
  else '0' :: 'x' :: (Nat.toDigits 16 byte.toNat).map Char.toUpper

/-- The bytes of a name between quotation marks. -/
def quotedBytes (name : List Char) : String :=
  String.ofList ('"' :: (Text.utf8 name).flatMap quotedByte ++ ['"'])

namespace Fault

def message : Fault → String
  | badMarkup fault => fault.message
  | badNesting fault => fault.message
  | badAttribute fault => fault.message
  | badReference fault => fault.message
  | reservedBinding bound uri =>
      "The namespace prefix '" ++ quotedBytes bound ++ "' cannot be bound to '" ++
        quotedBytes uri ++ "'"

end Fault
end ContractDoc.Xml

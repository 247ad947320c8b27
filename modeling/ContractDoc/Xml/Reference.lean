import ContractDoc.Text.Numeral
import ContractDoc.Text.Utf8
import ContractDoc.Xml.Fault

/-! # References in character data

A reference stands for one character: `&name;` with one of five names, or `&#` and the number of a
Unicode scalar value other than zero. Decoding replaces each reference once, from left to right,
and leaves all else as it is.
-/

namespace ContractDoc.Xml.Reference

def named : List (List Char × Char) :=
  [(['l', 't'], '<'), (['g', 't'], '>'), (['a', 'm', 'p'], '&'), (['a', 'p', 'o', 's'], '\''),
    (['q', 'u', 'o', 't'], '"')]

/-- Character numbers are read below this bound, so that they fit in 32 bits. -/
def codeBound : Nat := 4294967296

def scalar (code : Nat) : Except ReferenceFault Char :=
  if code = 0 then .error .nullCharacter
  else if h : code.isValidChar then .ok (Char.ofNatAux code h)
  else .error (.notScalar code)

/-- The character with the number that the digits denote. A sign is refused. -/
def numbered (radix : Text.Radix) (digits : List Char) : Except ReferenceFault Char :=
  if digits.head? = some '+' ∨ digits.head? = some '-' then .error .signedNumber
  else
    match radix.read codeBound digits with
    | .error fault => .error (.badNumber fault)
    | .ok code => scalar code

/-- The character that `&body;` stands for, where `body` begins at the byte position `start`. -/
def value (start : Nat) (body : List Char) : Except ReferenceFault Char :=
  match body with
  | '#' :: 'x' :: digits => numbered .hexadecimal digits
  | '#' :: digits => numbered .decimal digits
  | _ =>
      match named.lookup body with
      | some c => .ok c
      | none =>
          .error (.unknownName start (start + Text.byteLength body) (String.ofList body))

/-- The characters that end the body of a reference. Only `;` ends it well. -/
def isBodyEnd (c : Char) : Bool := c == '&' || c == ';'

/-- Decodes from the byte position `position` of a text of `total` bytes; `done` holds the
characters decoded before, the last one first. -/
def decodeFrom (total position : Nat) (done : List Char) (text : List Char) :
    Except ReferenceFault (List Char) :=
  match text with
  | [] => .ok done.reverse
  | c :: cs =>
      if c = '&' then
        let body := cs.takeWhile fun c => !isBodyEnd c
        match _h : cs.dropWhile fun c => !isBodyEnd c with
        | ';' :: rest =>
            match value (position + 1) body with
            | .error fault => .error fault
            | .ok decoded =>
                decodeFrom total (position + Text.byteLength body + 2) (decoded :: done) rest
        | _ => .error (.unterminated position total)
      else decodeFrom total (position + c.utf8Size) (c :: done) cs
termination_by text.length
decreasing_by
  · have := (List.dropWhile_sublist (p := fun c => !isBodyEnd c) (l := cs)).length_le
    rw [_h, List.length_cons] at this
    simp only [List.length_cons]
    omega
  · simp

def decode (text : List Char) : Except ReferenceFault (List Char) :=
  decodeFrom (Text.byteLength text) 0 [] text

end ContractDoc.Xml.Reference

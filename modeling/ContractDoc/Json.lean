/-! # JSON texts

JSON values and their text over several lines: two spaces for every level, a space after each
colon, and nothing between the brackets of an empty array or object. Object fields keep the order
in which they are given.
-/

namespace ContractDoc

/-- A JSON value. Numbers are integers. -/
inductive Json
  | null
  | bool (value : Bool)
  | number (value : Int)
  | string (text : String)
  | array (items : List Json)
  | object (fields : List (String × Json))

namespace Json

def digits (value : Nat) : List Char := Nat.toDigits 10 value

def numberChars : Int → List Char
  | .ofNat value => digits value
  | .negSucc value => '-' :: digits (value + 1)

/-- A hexadecimal escape of a character below U+0020. -/
def hexEscape (c : Char) : List Char :=
  ['\\', 'u', '0', '0', Nat.digitChar (c.toNat / 16), Nat.digitChar (c.toNat % 16)]

/-- One character inside quotation marks. Only quotes, backslashes and control characters below
U+0020 are escaped. -/
def escapeChar (c : Char) : List Char :=
  if c = '"' then ['\\', '"']
  else if c = '\\' then ['\\', '\\']
  else if c = '\x08' then ['\\', 'b']
  else if c = '\x0c' then ['\\', 'f']
  else if c = '\n' then ['\\', 'n']
  else if c = '\r' then ['\\', 'r']
  else if c = '\t' then ['\\', 't']
  else if c.toNat < 0x20 then hexEscape c
  else [c]

def stringChars (text : String) : List Char :=
  '"' :: text.toList.flatMap escapeChar ++ ['"']

/-- A line feed and the indentation of a level. -/
def lineBreak (level : Nat) : List Char := '\n' :: List.replicate (2 * level) ' '

mutual

/-- The text of a value that begins on a given level. -/
def chars (level : Nat) : Json → List Char
  | null => ['n', 'u', 'l', 'l']
  | bool true => ['t', 'r', 'u', 'e']
  | bool false => ['f', 'a', 'l', 's', 'e']
  | number value => numberChars value
  | string text => stringChars text
  | array [] => ['[', ']']
  | array (item :: items) =>
      '[' :: lineBreak (level + 1) ++ chars (level + 1) item ++ itemsChars (level + 1) items ++
        lineBreak level ++ [']']
  | object [] => ['{', '}']
  | object ((key, value) :: fields) =>
      '{' :: lineBreak (level + 1) ++ stringChars key ++ [':', ' '] ++ chars (level + 1) value ++
        fieldsChars (level + 1) fields ++ lineBreak level ++ ['}']

def itemsChars (level : Nat) : List Json → List Char
  | [] => []
  | item :: items => ',' :: lineBreak level ++ chars level item ++ itemsChars level items

def fieldsChars (level : Nat) : List (String × Json) → List Char
  | [] => []
  | (key, value) :: fields =>
      ',' :: lineBreak level ++ stringChars key ++ [':', ' '] ++ chars level value ++
        fieldsChars level fields

end

def pretty (json : Json) : String := String.ofList (json.chars 0)

/-- The text if there is one, and null otherwise. -/
def ofOption {α : Type} (encode : α → Json) : Option α → Json
  | some value => encode value
  | none => null

def ofTexts (texts : List String) : Json := array (texts.map string)

end Json
end ContractDoc

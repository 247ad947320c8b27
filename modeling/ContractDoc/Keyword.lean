import ContractDoc.Text.Blank

/-! # Closed sets of keywords

A type whose values are written as fixed words. A text names a value when it is the value's word,
after trimming where the format allows blanks around it.
-/

namespace ContractDoc

/-- A type with finitely many values, each with a word of its own. -/
class Keyword (α : Type) where
  values : List α
  word : α → String

namespace Keyword

variable {α : Type} [Keyword α]

/-- The value whose word is exactly the text. -/
def ofWord? (text : String) : Option α := (values : List α).find? fun value => word value == text

/-- The value whose word is the text without the blanks around it. -/
def ofText? (text : String) : Option α := ofWord? (Text.trim text)

end Keyword
end ContractDoc

/-! # File names

A file name is the last part of a path, and its extension is what follows the last dot of it. A
name that begins with its only dot has no extension.
-/

namespace ContractDoc.FileName

/-- The parts of a path between slashes; `current` holds the characters of the first part so far,
the last one first. -/
def partsFrom (current : List Char) : List Char → List (List Char)
  | [] => [current.reverse]
  | c :: cs => if c = '/' then current.reverse :: partsFrom [] cs else partsFrom (c :: current) cs

/-- The parts of a path, without empty ones and those that stay where they are. -/
def parts (path : List Char) : List (List Char) :=
  (partsFrom [] path).filter fun part => part ≠ [] && part ≠ ['.']

/-- The file that a path names, unless it ends by going up. -/
def ofPath? (path : List Char) : Option (List Char) :=
  (parts path).getLast?.bind fun part => if part = ['.', '.'] then none else some part

/-- The text after the last dot of a name, if there is something before that dot. -/
def extension? (name : List Char) : Option (List Char) :=
  match name.reverse.dropWhile (· != '.') with
  | _ :: _ :: _ => some (name.reverse.takeWhile (· != '.')).reverse
  | _ => none

end ContractDoc.FileName

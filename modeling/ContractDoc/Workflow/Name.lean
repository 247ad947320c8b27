import ContractDoc.Text.Blank
import ContractDoc.Text.Cut
import ContractDoc.Workflow.Basic

/-! # Names with assignees

The name of a node as it is written, `[assignee] Visible Name`, holds both a display name and the
assignee of a user task. The display name is what follows the first `]`, without blanks.
-/

namespace ContractDoc.Workflow.Name

/-- The text that follows the first occurrence of a character. -/
def after? (c : Char) (text : List Char) : Option (List Char) :=
  (Text.upToMark? [c] text).map Prod.snd

def display (raw : String) : String :=
  Text.strip (String.ofList ((after? ']' raw.toList).getD raw.toList))

/-- An assignee text is an address when it begins with `0x`. -/
def assigneeOf (text : List Char) : Assignee :=
  match text with
  | '0' :: 'x' :: _ => .address (String.ofList text)
  | _ => .username (String.ofList text)

/-- The assignee in a written name: the text from the first `[` up to the next `]` or to the end.
A name without any `]` has none. -/
def assignee? (raw : String) : Option Assignee :=
  if raw.toList.contains ']' then
    (after? '[' raw.toList).map fun rest => assigneeOf (rest.takeWhile (· != ']'))
  else none

end ContractDoc.Workflow.Name

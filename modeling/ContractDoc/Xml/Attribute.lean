import ContractDoc.Text.Utf8
import ContractDoc.Xml.Delimiter
import ContractDoc.Xml.Fault

/-! # The content of a start tag

The content of a start or empty tag is a name and then attributes, each a key, an equals sign and a
quoted value. Here the content is only cut into these parts, every key with its byte position; the
first attribute that cannot be cut ends the list.
-/

namespace ContractDoc.Xml

open Text

/-- A key with its byte position and the raw text of its value, or the fault met after the equals
sign in place of a value. -/
structure RawAttribute where
  position : Nat
  key : List Char
  value : Except AttributeFault (List Char)

/-- The parts of a tag: its name, its attributes in order, and the fault at which the list ended
without a further key. -/
structure RawTag where
  name : List Char
  attributes : List RawAttribute
  fault? : Option AttributeFault

/-- A byte position in the content of a tag and the characters from there on. -/
structure ContentCursor where
  position : Nat
  rest : List Char

namespace ContentCursor

def pass (cursor : ContentCursor) (c : Char) (rest : List Char) : ContentCursor :=
  ⟨cursor.position + c.utf8Size, rest⟩

def run (cursor : ContentCursor) (p : Char → Bool) : List Char := cursor.rest.takeWhile p

def skip (cursor : ContentCursor) (p : Char → Bool) : ContentCursor :=
  ⟨cursor.position + Text.byteLength (cursor.run p), cursor.rest.dropWhile p⟩

theorem length_skip_le (cursor : ContentCursor) (p : Char → Bool) :
    (cursor.skip p).rest.length ≤ cursor.rest.length :=
  (List.dropWhile_sublist p).length_le

end ContentCursor

namespace RawTag

def isKeyChar (c : Char) : Bool := c != '=' && !isSpace c

inductive ValueCut
  | missing (cause : AttributeFault)
  | quoted (value : List Char) (after : ContentCursor)

/-- Cuts the value that should follow an equals sign, in a content of `total` bytes. -/
def cutValue (total : Nat) (cursor : ContentCursor) : ValueCut :=
  let start := cursor.skip isSpace
  match start.rest with
  | [] => .missing ⟨total, .expectedValue⟩
  | quote :: inner =>
      if quote = '"' ∨ quote = '\'' then
        match upToMark? [quote] inner with
        | none => .missing ⟨total, .expectedQuote quote⟩
        | some (value, rest) =>
            .quoted value ⟨start.position + Text.byteLength value + 2, rest⟩
      else .missing ⟨start.position, .unquotedValue⟩

theorem length_cutValue {total : Nat} {cursor after : ContentCursor} {value : List Char}
    (h : cutValue total cursor = .quoted value after) :
    after.rest.length ≤ cursor.rest.length := by
  have hSkip := cursor.length_skip_le isSpace
  unfold cutValue at h
  dsimp only at h
  split at h
  · simp at h
  · next quote inner hRest =>
      split at h
      · split at h
        · simp at h
        · next rest hMark =>
            obtain ⟨rfl, rfl⟩ := ValueCut.quoted.inj h
            have hInner := congrArg List.length (upToMark?_eq hMark)
            simp only [List.length_append, List.length_singleton] at hInner
            rw [hRest, List.length_cons] at hSkip
            dsimp only
            omega
      · simp at h

/-- Cuts the attributes from the cursor on, in a content of `total` bytes; `done` holds those
before, the last one first. The first character of a key is any but space, so an equals sign can
begin one. -/
def cutAttributes (total : Nat) (done : List RawAttribute) (cursor : ContentCursor) :
    List RawAttribute × Option AttributeFault :=
  let start := cursor.skip isSpace
  match _hStart : start.rest with
  | [] => (done.reverse, none)
  | c :: cs =>
      let inKey := start.pass c cs
      let key := c :: inKey.run isKeyChar
      let afterKey := (inKey.skip isKeyChar).skip isSpace
      match _hKey : afterKey.rest with
      | [] => (done.reverse, some ⟨total, .expectedEquals⟩)
      | '=' :: rest =>
          match _hValue : cutValue total (afterKey.pass '=' rest) with
          | .missing fault => ((⟨start.position, key, .error fault⟩ :: done).reverse, none)
          | .quoted value after =>
              cutAttributes total (⟨start.position, key, .ok value⟩ :: done) after
      | _ :: _ => (done.reverse, some ⟨afterKey.position, .expectedEquals⟩)
termination_by cursor.rest.length
decreasing_by
  have hSkip : start.rest.length ≤ cursor.rest.length := cursor.length_skip_le isSpace
  have hRun : (inKey.skip isKeyChar).rest.length ≤ cs.length := inKey.length_skip_le isKeyChar
  have hSpace : afterKey.rest.length ≤ (inKey.skip isKeyChar).rest.length :=
    (inKey.skip isKeyChar).length_skip_le isSpace
  have hAfter : after.rest.length ≤ rest.length := length_cutValue _hValue
  rw [_hStart, List.length_cons] at hSkip
  rw [_hKey, List.length_cons] at hSpace
  omega

/-- Cuts the content of a tag. The name runs up to the first space and may be empty. -/
def ofContent (content : List Char) : RawTag :=
  let start : ContentCursor := ⟨0, content⟩
  let cut := cutAttributes (Text.byteLength content) [] (start.skip fun c => !isSpace c)
  ⟨start.run fun c => !isSpace c, cut.1, cut.2⟩

end RawTag
end ContractDoc.Xml

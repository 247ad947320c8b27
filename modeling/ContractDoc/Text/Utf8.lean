/-! # UTF-8 lengths

Positions in a document count bytes of its UTF-8 form, while its text is a list of characters.
The length of the encoding is the sum of the lengths of its characters.
-/

namespace ContractDoc.Text

def utf8 (cs : List Char) : List UInt8 := cs.flatMap String.utf8EncodeChar

/-- How many bytes the UTF-8 encoding of a list of characters has. -/
def byteLength (cs : List Char) : Nat := cs.foldl (fun length c => length + c.utf8Size) 0

theorem foldl_utf8Size (n : Nat) (cs : List Char) :
    cs.foldl (fun length c => length + c.utf8Size) n = n + byteLength cs := by
  unfold byteLength
  induction cs generalizing n with
  | nil => rfl
  | cons c cs ih => rw [List.foldl_cons, List.foldl_cons, ih, ih (0 + _)]; omega

@[simp] theorem byteLength_nil : byteLength [] = 0 := rfl

@[simp] theorem byteLength_cons (c : Char) (cs : List Char) :
    byteLength (c :: cs) = c.utf8Size + byteLength cs := by
  rw [byteLength, List.foldl_cons, foldl_utf8Size]
  omega

@[simp] theorem byteLength_append (cs ds : List Char) :
    byteLength (cs ++ ds) = byteLength cs + byteLength ds := by
  rw [byteLength, List.foldl_append, foldl_utf8Size, foldl_utf8Size]
  omega

theorem length_utf8 (cs : List Char) : (utf8 cs).length = byteLength cs := by
  induction cs with
  | nil => rfl
  | cons c cs ih => simpa [utf8] using ih

end ContractDoc.Text

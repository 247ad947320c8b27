import ContractDoc.Xml.Delimiter
import ContractDoc.Xml.Fault

/-! # The lexical parts of a document

A document is a sequence of text runs and markup constructs. Cutting it into them looks at nothing
but the characters: whether tags are nested well is not decided here. Every token knows the exact
text it was cut from, and the texts of all tokens make up the document again.
-/

namespace ContractDoc.Xml

open Text

inductive Token
  | text (run : List Char)
  | comment (body : List Char)
  | cdata (content : List Char)
  | instruction (body : List Char)
  | doctype (body : List Char)
  | startTag (content : List Char)
  | emptyTag (content : List Char)
  | endTag (content : List Char)
  /-- Markup that is no construct, with the text that was read before this was known. -/
  | broken (fault : MarkupFault) (read : List Char)
  deriving DecidableEq, Repr

namespace Token

def source : Token → List Char
  | text run => run
  | comment body => ['<', '!', '-', '-'] ++ body ++ ['-', '-', '>']
  | cdata content => ['<', '!', '[', 'C', 'D', 'A', 'T', 'A', '['] ++ content ++ [']', ']', '>']
  | instruction body => ['<', '?'] ++ body ++ ['?', '>']
  | doctype body => ['<', '!'] ++ body ++ ['>']
  | startTag content => ['<'] ++ content ++ ['>']
  | emptyTag content => ['<'] ++ content ++ ['/', '>']
  | endTag content => ['<', '/'] ++ content ++ ['>']
  | broken _ read => read

def isBroken : Token → Bool
  | broken _ _ => true
  | _ => false

/-- A comment, given what follows `<!-`. The character in the place of the second hyphen is never
part of the closing mark. -/
def commentAfter (cs : List Char) : Token × List Char :=
  match cs with
  | [] => (broken .unclosedComment ['<', '!', '-'], [])
  | c :: inner =>
      match upToMark? ['-', '-', '>'] inner with
      | none => (broken .unclosedComment (['<', '!', '-', c] ++ inner), [])
      | some (body, rest) =>
          if c = '-' then (comment body, rest)
          else (broken .unclosedComment (['<', '!', '-', c] ++ body ++ ['-', '-', '>']), rest)

def cdataAfter (cs : List Char) : Token × List Char :=
  match upToMark? [']', ']', '>'] cs with
  | none => (broken .unclosedCdata (['<', '!', '['] ++ cs), [])
  | some (body, rest) =>
      match afterMark? ['C', 'D', 'A', 'T', 'A', '['] body with
      | some content => (cdata content, rest)
      | none => (broken .unclosedCdata (['<', '!', '['] ++ body ++ [']', ']', '>']), rest)

def doctypeKeyword : List Char := ['D', 'O', 'C', 'T', 'Y', 'P', 'E']

/-- A document type, given what follows `<!`. Its keyword is read in any case, and something other
than space has to follow. -/
def doctypeAfter (cs : List Char) : Token × List Char :=
  match upToClose? doctypeStep 0 cs with
  | none => (broken .unclosedDoctype (['<', '!'] ++ cs), [])
  | some (body, rest) =>
      if (body.take doctypeKeyword.length).map Char.toUpper ≠ doctypeKeyword then
        (broken .unclosedDoctype (['<', '!'] ++ body ++ ['>']), rest)
      else if (body.drop doctypeKeyword.length).all isSpace then
        (broken .namelessDoctype (['<', '!'] ++ body ++ ['>']), rest)
      else (doctype body, rest)

def declarationAfter : List Char → Token × List Char
  | '-' :: cs => commentAfter cs
  | '[' :: cs => cdataAfter cs
  | 'D' :: cs => doctypeAfter ('D' :: cs)
  | 'd' :: cs => doctypeAfter ('d' :: cs)
  | cs => (broken .unknownDeclaration ['<'], '!' :: cs)

/-- A processing instruction, given what follows `<?`. The opening question mark closes an
instruction at once when `>` follows it, and such an instruction is broken. -/
def instructionAfter (cs : List Char) : Token × List Char :=
  match cs with
  | '>' :: rest => (broken .unclosedInstruction ['<', '?', '>'], rest)
  | _ =>
      match upToMark? ['?', '>'] cs with
      | none => (broken .unclosedInstruction (['<', '?'] ++ cs), [])
      | some (body, rest) => (instruction body, rest)

def endTagAfter (cs : List Char) : Token × List Char :=
  match upToClose? tagStep none cs with
  | none => (broken .unclosedTag (['<', '/'] ++ cs), [])
  | some (content, rest) => (endTag content, rest)

/-- A start tag, or an empty tag if its content ends in `/`, given what follows `<`. -/
def startTagAfter (cs : List Char) : Token × List Char :=
  match upToClose? tagStep none cs with
  | none => (broken .unclosedTag (['<'] ++ cs), [])
  | some (content, rest) =>
      if content.getLast? = some '/' then (emptyTag content.dropLast, rest)
      else (startTag content, rest)

/-- The construct that begins with `<`, given what follows it. -/
def markupAfter : List Char → Token × List Char
  | '!' :: cs => declarationAfter cs
  | '?' :: cs => instructionAfter cs
  | '/' :: cs => endTagAfter cs
  | cs => startTagAfter cs

def next? : List Char → Option (Token × List Char)
  | [] => none
  | '<' :: cs => some (markupAfter cs)
  | c :: cs => some (text (c :: cs.takeWhile (· != '<')), cs.dropWhile (· != '<'))

theorem commentAfter_source (cs : List Char) :
    (commentAfter cs).1.source ++ (commentAfter cs).2 = ['<', '!', '-'] ++ cs := by
  unfold commentAfter
  split
  · simp [source]
  · next c inner =>
      split
      · simp [source]
      · next body rest h =>
          have := upToMark?_eq h
          split <;> simp_all [source]

theorem cdataAfter_source (cs : List Char) :
    (cdataAfter cs).1.source ++ (cdataAfter cs).2 = ['<', '!', '['] ++ cs := by
  unfold cdataAfter
  split
  · simp [source]
  · next body rest h =>
      have := upToMark?_eq h
      split
      · next content hc => simp_all [source, afterMark?_eq_some_iff.1 hc]
      · simp_all [source]

theorem doctypeAfter_source (cs : List Char) :
    (doctypeAfter cs).1.source ++ (doctypeAfter cs).2 = ['<', '!'] ++ cs := by
  unfold doctypeAfter
  split
  · simp [source]
  · next body rest h =>
      have := upToClose?_eq closesAt_doctypeStep h
      split
      · simp_all [source]
      · split <;> simp_all [source]

theorem declarationAfter_source (cs : List Char) :
    (declarationAfter cs).1.source ++ (declarationAfter cs).2 = ['<', '!'] ++ cs := by
  unfold declarationAfter
  split
  · simpa using commentAfter_source _
  · simpa using cdataAfter_source _
  · exact doctypeAfter_source _
  · exact doctypeAfter_source _
  · simp [source]

theorem instructionAfter_source (cs : List Char) :
    (instructionAfter cs).1.source ++ (instructionAfter cs).2 = ['<', '?'] ++ cs := by
  unfold instructionAfter
  split
  · simp [source]
  · split
    · simp [source]
    · next body rest h => simp [source, upToMark?_eq h]

theorem endTagAfter_source (cs : List Char) :
    (endTagAfter cs).1.source ++ (endTagAfter cs).2 = ['<', '/'] ++ cs := by
  unfold endTagAfter
  split
  · simp [source]
  · next content rest h => simp [source, upToClose?_eq closesAt_tagStep h]

theorem startTagAfter_source (cs : List Char) :
    (startTagAfter cs).1.source ++ (startTagAfter cs).2 = ['<'] ++ cs := by
  unfold startTagAfter
  split
  · simp [source]
  · next content rest h =>
      have hcs := upToClose?_eq closesAt_tagStep h
      split
      · next hLast =>
          obtain ⟨front, rfl⟩ := List.getLast?_eq_some_iff.1 hLast
          simp [source, hcs]
      · simp [source, hcs]

theorem markupAfter_source (cs : List Char) :
    (markupAfter cs).1.source ++ (markupAfter cs).2 = ['<'] ++ cs := by
  unfold markupAfter
  split
  · simpa using declarationAfter_source _
  · simpa using instructionAfter_source _
  · simpa using endTagAfter_source _
  · exact startTagAfter_source _

theorem source_next? {input rest : List Char} {token : Token}
    (h : next? input = some (token, rest)) : input = token.source ++ rest := by
  unfold next? at h
  split at h
  · simp at h
  · next cs =>
      have hs := markupAfter_source cs
      rw [Option.some.inj h] at hs
      simpa using hs.symm
  · obtain ⟨rfl, rfl⟩ := Prod.mk.inj (Option.some.inj h)
    simp [source]

theorem markupAfter_source_ne_nil (cs : List Char) : (markupAfter cs).1.source ≠ [] := by
  unfold markupAfter declarationAfter commentAfter cdataAfter doctypeAfter instructionAfter
    endTagAfter startTagAfter
  repeat' split
  all_goals simp [source]

theorem source_ne_nil_of_next? {input rest : List Char} {token : Token}
    (h : next? input = some (token, rest)) : token.source ≠ [] := by
  unfold next? at h
  split at h
  · simp at h
  · next cs =>
      have hs := markupAfter_source_ne_nil cs
      rwa [Option.some.inj h] at hs
  · obtain ⟨rfl, rfl⟩ := Prod.mk.inj (Option.some.inj h)
    simp [source]

theorem length_lt_of_next? {input rest : List Char} {token : Token}
    (h : next? input = some (token, rest)) : rest.length < input.length := by
  have := List.length_pos_iff.2 (source_ne_nil_of_next? h)
  rw [source_next? h, List.length_append]
  omega

/-- Cuts a text into tokens; `done` holds the tokens before it, the last one first. Nothing is
read after broken markup. -/
def cutFrom (done : List Token) (input : List Char) : List Token :=
  match _h : next? input with
  | none => done.reverse
  | some (token, rest) =>
      if token.isBroken then (token :: done).reverse else cutFrom (token :: done) rest
termination_by input.length
decreasing_by exact length_lt_of_next? _h

/-- The tokens of a text. Only the last one can be broken. -/
def cut (input : List Char) : List Token := cutFrom [] input

theorem cutFrom_of_next? {done : List Token} {input rest : List Char} {token : Token}
    (h : next? input = some (token, rest)) :
    cutFrom done input =
      if token.isBroken then (token :: done).reverse else cutFrom (token :: done) rest := by
  rw [cutFrom]
  split
  · simp_all
  · next h' => obtain ⟨rfl, rfl⟩ := Prod.mk.inj (Option.some.inj (h.symm.trans h')); rfl

theorem cutFrom_append (done earlier : List Token) (input : List Char) :
    cutFrom (done ++ earlier) input = earlier.reverse ++ cutFrom done input := by
  fun_induction cutFrom done input with
  | case1 done input hNext => rw [cutFrom]; split <;> simp_all
  | case2 done input token rest hNext hBroken => simp [cutFrom_of_next? hNext, hBroken]
  | case3 done input token rest hNext hBroken ih =>
      rw [cutFrom_of_next? hNext, if_neg hBroken, ← ih, List.cons_append]

theorem cut_nil : cut [] = [] := by simp [cut, cutFrom, next?]

theorem cut_of_next? {input rest : List Char} {token : Token}
    (h : next? input = some (token, rest)) :
    cut input = token :: if token.isBroken then [] else cut rest := by
  rw [cut, cutFrom_of_next? h]
  split
  · rfl
  · exact cutFrom_append [] [token] rest

/-- If no token is broken, the texts of all tokens make up the text they were cut from. -/
theorem flatMap_source_cut {input : List Char} (h : ∀ token ∈ cut input, token.isBroken = false) :
    (cut input).flatMap source = input := by
  induction hLength : input.length using Nat.strongRecOn generalizing input with
  | ind n ih =>
      cases hNext : next? input with
      | none =>
          cases input with
          | nil => simp [cut_nil]
          | cons c cs => by_cases hc : c = '<' <;> simp_all [next?]
      | some first =>
          obtain ⟨token, rest⟩ := first
          have hWhole : token.isBroken = false := h token (by simp [cut_of_next? hNext])
          have hCut : cut input = token :: cut rest := by simp [cut_of_next? hNext, hWhole]
          have hRest := ih rest.length (hLength ▸ length_lt_of_next? hNext)
            (fun t ht => h t (by simp [hCut, ht])) rfl
          rw [hCut, List.flatMap_cons, hRest, ← source_next? hNext]

end Token
end ContractDoc.Xml

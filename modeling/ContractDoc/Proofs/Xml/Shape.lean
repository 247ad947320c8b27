import ContractDoc.Proofs.Text.Cut
import ContractDoc.Xml.Token

/-! # The shape of tokens

A complete token is one that nothing before its end could have ended. Such a token is cut out of
every text that begins with it, and cutting makes nothing else: the tokens of a text are the only
way to write it as complete constructs with maximal text runs between them.
-/

namespace ContractDoc.Xml.Token

open Text

/-- A tag's content that no `>` outside quotes ends early, and that begins like a name. -/
structure OpensTag (content : List Char) : Prop where
  runs : content.foldlM tagStep none = some none
  head : ∀ c ∈ content.head?, c ≠ '!' ∧ c ≠ '?' ∧ c ≠ '/'

/-- A document type that begins with its keyword, names something and has no `>` too many. -/
structure IsDoctype (body : List Char) : Prop where
  keyword : (body.take doctypeKeyword.length).map Char.toUpper = doctypeKeyword
  named : (body.drop doctypeKeyword.length).all isSpace = false
  runs : body.foldlM doctypeStep 0 = some 0

/-- The token is a run without markup, or one construct that does not end before its end. -/
def Complete : Token → Prop
  | text run => '<' ∉ run
  | comment body => ¬ ['-', '-', '>'] <:+: body
  | cdata content => ¬ [']', ']', '>'] <:+: content
  | instruction body => ¬ ['?', '>'] <:+: '?' :: body
  | doctype body => IsDoctype body
  | startTag content => OpensTag content ∧ content.getLast? ≠ some '/'
  | emptyTag content => OpensTag (content ++ ['/'])
  | endTag content => content.foldlM tagStep none = some none
  | broken _ _ => False

def IsText : Token → Prop
  | text _ => True
  | _ => False

/-- The token is text, or ends where the text ends or markup begins. -/
def EndsBefore (token : Token) (rest : List Char) : Prop := token.IsText → ∀ c ∈ rest.head?, c = '<'

theorem upToClose?_tagStep_iff {text content rest : List Char} :
    upToClose? tagStep none text = some (content, rest) ↔
      content.foldlM tagStep none = some none ∧ text = content ++ '>' :: rest := by
  rw [upToClose?_eq_some_iff]
  constructor
  · rintro ⟨stop, c, hRun, hStop, rfl⟩
    obtain rfl := closesAt_tagStep stop c hStop
    cases stop with
    | none => exact ⟨hRun, rfl⟩
    | some quote => simp only [tagStep] at hStop; split at hStop <;> simp at hStop
  · rintro ⟨hRun, rfl⟩
    exact ⟨none, '>', hRun, rfl, rfl⟩

theorem upToClose?_doctypeStep_iff {text body rest : List Char} :
    upToClose? doctypeStep 0 text = some (body, rest) ↔
      body.foldlM doctypeStep 0 = some 0 ∧ text = body ++ '>' :: rest := by
  rw [upToClose?_eq_some_iff]
  constructor
  · rintro ⟨stop, c, hRun, hStop, rfl⟩
    obtain rfl := closesAt_doctypeStep stop c hStop
    cases stop with
    | zero => exact ⟨hRun, rfl⟩
    | succ depth => simp [doctypeStep] at hStop
  · rintro ⟨hRun, rfl⟩
    exact ⟨0, '>', hRun, rfl, rfl⟩

theorem eq_of_toUpper_eq_d {c : Char} (h : c.toUpper = 'D') : c = 'D' ∨ c = 'd' := by
  unfold Char.toUpper at h
  split at h
  · right
    have hVal := congrArg Char.val h
    dsimp only at hVal
    refine Char.ext ?_
    rw [show 'd'.val = 'D'.val - ('A'.val - 'a'.val) from rfl, ← hVal]
    simp
  · exact .inl h

theorem IsDoctype.head {body : List Char} (h : IsDoctype body) :
    ∃ cs, body = 'D' :: cs ∨ body = 'd' :: cs := by
  have hKeyword := h.keyword
  cases body with
  | nil => simp [doctypeKeyword] at hKeyword
  | cons c cs =>
      have hc : c.toUpper = 'D' := (List.cons.inj hKeyword).1
      exact ⟨cs, (eq_of_toUpper_eq_d hc).imp (congrArg (· :: cs)) (congrArg (· :: cs))⟩

theorem commentAfter_of_complete {body : List Char} (h : (comment body).Complete)
    (rest : List Char) :
    commentAfter ('-' :: (body ++ '-' :: '-' :: '>' :: rest)) = (comment body, rest) := by
  have hBody : ¬ ['-', '-'] ++ ['>'] <:+: body := h
  have hMark := upToMark?_append (by decide) hBody rest
  simp only [List.append_assoc, List.cons_append, List.nil_append] at hMark
  simp [commentAfter, hMark]

theorem cdataAfter_of_complete {content : List Char} (h : (cdata content).Complete)
    (rest : List Char) :
    cdataAfter ('C' :: 'D' :: 'A' :: 'T' :: 'A' :: '[' :: (content ++ ']' :: ']' :: '>' :: rest)) =
      (cdata content, rest) := by
  have hBody : ¬ [']', ']'] ++ ['>'] <:+: 'C' :: 'D' :: 'A' :: 'T' :: 'A' :: '[' :: content := by
    simpa [List.infix_cons_iff, List.cons_prefix_cons] using! h
  have hMark := upToMark?_append (by decide) hBody rest
  have hAfter : afterMark? ['C', 'D', 'A', 'T', 'A', '[']
      ('C' :: 'D' :: 'A' :: 'T' :: 'A' :: '[' :: content) = some content :=
    afterMark?_eq_some_iff.2 rfl
  simp only [List.append_assoc, List.cons_append, List.nil_append] at hMark
  simp [cdataAfter, hMark, hAfter]

theorem doctypeAfter_of_complete {body : List Char} (h : IsDoctype body) (rest : List Char) :
    doctypeAfter (body ++ '>' :: rest) = (doctype body, rest) := by
  have hClose := upToClose?_doctypeStep_iff.2 ⟨h.runs, Eq.refl (body ++ '>' :: rest)⟩
  simp [doctypeAfter, hClose, h.keyword, h.named]

theorem declarationAfter_of_doctype {body : List Char} (h : IsDoctype body) (rest : List Char) :
    declarationAfter (body ++ '>' :: rest) = (doctype body, rest) := by
  have hAfter := doctypeAfter_of_complete h rest
  obtain ⟨cs, rfl | rfl⟩ := h.head
  · exact hAfter
  · exact hAfter

theorem instructionAfter_of_complete {body : List Char} (h : (instruction body).Complete)
    (rest : List Char) :
    instructionAfter (body ++ '?' :: '>' :: rest) = (instruction body, rest) := by
  have hBody : ¬ ['?'] ++ ['>'] <:+: body := fun hInfix =>
    h (hInfix.trans (List.suffix_cons '?' body).isInfix)
  have hMark := upToMark?_append (by decide) hBody rest
  simp only [List.append_assoc, List.cons_append, List.nil_append] at hMark
  unfold instructionAfter
  split
  · next more hText =>
      cases body with
      | nil => simp at hText
      | cons c cs =>
          obtain ⟨rfl, -⟩ := List.cons.inj hText
          exact absurd (List.IsPrefix.isInfix ⟨cs, rfl⟩) h
  · rw [hMark]

theorem endTagAfter_of_complete {content : List Char} (h : (endTag content).Complete)
    (rest : List Char) : endTagAfter (content ++ '>' :: rest) = (endTag content, rest) := by
  have hClose := upToClose?_tagStep_iff.2 ⟨h, Eq.refl (content ++ '>' :: rest)⟩
  simp [endTagAfter, hClose]

theorem startTagAfter_of_opens {content : List Char} (h : OpensTag content) (rest : List Char) :
    startTagAfter (content ++ '>' :: rest) =
      if content.getLast? = some '/' then (emptyTag content.dropLast, rest)
      else (startTag content, rest) := by
  have hClose := upToClose?_tagStep_iff.2 ⟨h.runs, Eq.refl (content ++ '>' :: rest)⟩
  simp [startTagAfter, hClose]

theorem markupAfter_of_opens {content : List Char} (h : OpensTag content) (rest : List Char) :
    markupAfter (content ++ '>' :: rest) = startTagAfter (content ++ '>' :: rest) := by
  cases content with
  | nil => rfl
  | cons c cs =>
      obtain ⟨hBang, hQuestion, hSlash⟩ := h.head c rfl
      unfold markupAfter
      split <;> simp_all

/-- A complete construct is the first token of every text that begins with it. -/
theorem next?_source_append {token : Token} (h : token.Complete) (hMarkup : ¬ token.IsText)
    (rest : List Char) : next? (token.source ++ rest) = some (token, rest) := by
  cases token with
  | text run => exact absurd trivial hMarkup
  | comment body =>
      simp [source, next?, markupAfter, declarationAfter, commentAfter_of_complete h]
  | cdata content =>
      simp [source, next?, markupAfter, declarationAfter, cdataAfter_of_complete h]
  | instruction body => simp [source, next?, markupAfter, instructionAfter_of_complete h]
  | doctype body => simp [source, next?, markupAfter, declarationAfter_of_doctype h]
  | startTag content =>
      simp [source, next?, markupAfter_of_opens h.1, startTagAfter_of_opens h.1, h.2]
  | emptyTag content =>
      have hMarkup := markupAfter_of_opens h rest
      rw [startTagAfter_of_opens h, if_pos (by simp), List.dropLast_concat] at hMarkup
      simpa [source, next?] using hMarkup
  | endTag content => simp [source, next?, markupAfter, endTagAfter_of_complete h]
  | broken fault read => exact h.elim

theorem not_isText_markupAfter (cs : List Char) : ¬ (markupAfter cs).1.IsText := by
  unfold markupAfter declarationAfter commentAfter cdataAfter doctypeAfter instructionAfter
    endTagAfter startTagAfter
  repeat' split
  all_goals simp [IsText]

theorem complete_commentAfter {cs : List Char} (h : (commentAfter cs).1.isBroken = false) :
    (commentAfter cs).1.Complete := by
  unfold commentAfter at h ⊢
  split at h
  · simp [isBroken] at h
  · split at h
    · simp [isBroken] at h
    · next body rest hMark =>
        split at h
        · next hHyphen =>
            rw [if_pos hHyphen]
            exact not_infix_of_upToMark? (by simp) hMark
        · simp [isBroken] at h

theorem complete_cdataAfter {cs : List Char} (h : (cdataAfter cs).1.isBroken = false) :
    (cdataAfter cs).1.Complete := by
  unfold cdataAfter at h ⊢
  split at h
  · simp [isBroken] at h
  · next body rest hMark =>
      split at h
      · next content hContent =>
          have hBody := not_infix_of_upToMark? (by simp) hMark
          rw [afterMark?_eq_some_iff.1 hContent] at hBody
          exact fun hInfix => hBody (hInfix.trans (List.suffix_append _ content).isInfix)
      · simp [isBroken] at h

theorem complete_doctypeAfter {cs : List Char} (h : (doctypeAfter cs).1.isBroken = false) :
    (doctypeAfter cs).1.Complete := by
  unfold doctypeAfter at h ⊢
  split at h
  · simp [isBroken] at h
  · next body rest hClose =>
      split at h
      · simp [isBroken] at h
      · next hKeyword =>
          split at h
          · simp [isBroken] at h
          · next hNamed =>
              rw [if_neg hKeyword, if_neg hNamed]
              exact ⟨by simpa using hKeyword, by simpa using hNamed,
                (upToClose?_doctypeStep_iff.1 hClose).1⟩

theorem complete_declarationAfter {cs : List Char}
    (h : (declarationAfter cs).1.isBroken = false) : (declarationAfter cs).1.Complete := by
  unfold declarationAfter at h ⊢
  split at h
  · exact complete_commentAfter h
  · exact complete_cdataAfter h
  · exact complete_doctypeAfter h
  · exact complete_doctypeAfter h
  · simp [isBroken] at h

theorem complete_instructionAfter {cs : List Char}
    (h : (instructionAfter cs).1.isBroken = false) : (instructionAfter cs).1.Complete := by
  unfold instructionAfter at h ⊢
  split at h
  · simp [isBroken] at h
  · next hFirst =>
      split at h
      · simp [isBroken] at h
      · next body rest hMark =>
          show ¬ ['?', '>'] <:+: '?' :: body
          rw [List.infix_cons_iff, List.cons_prefix_cons]
          rintro (⟨-, more, hMore⟩ | hInfix)
          · have hText := upToMark?_eq hMark
            rw [← hMore] at hText
            exact hFirst _ hText
          · exact not_infix_of_upToMark? (by simp) hMark hInfix

theorem complete_endTagAfter {cs : List Char} (h : (endTagAfter cs).1.isBroken = false) :
    (endTagAfter cs).1.Complete := by
  unfold endTagAfter at h ⊢
  split at h
  · simp [isBroken] at h
  · next content rest hClose =>
      exact (upToClose?_tagStep_iff.1 hClose).1

theorem complete_startTagAfter {cs : List Char}
    (hHead : ∀ c ∈ cs.head?, c ≠ '!' ∧ c ≠ '?' ∧ c ≠ '/')
    (h : (startTagAfter cs).1.isBroken = false) : (startTagAfter cs).1.Complete := by
  unfold startTagAfter at h ⊢
  split at h
  · simp [isBroken] at h
  · next content rest hClose =>
      obtain ⟨hRuns, rfl⟩ := upToClose?_tagStep_iff.1 hClose
      have hOpens : OpensTag content := by
        refine ⟨hRuns, fun c hc => hHead c ?_⟩
        simp only [Option.mem_def] at hc ⊢
        simp [List.head?_append, hc]
      by_cases hLast : content.getLast? = some '/'
      · obtain ⟨front, rfl⟩ := List.getLast?_eq_some_iff.1 hLast
        simpa using! hOpens
      · rw [if_neg hLast]
        exact ⟨hOpens, hLast⟩

theorem complete_markupAfter {cs : List Char} (h : (markupAfter cs).1.isBroken = false) :
    (markupAfter cs).1.Complete := by
  unfold markupAfter at h ⊢
  split at h
  · exact complete_declarationAfter h
  · exact complete_instructionAfter h
  · exact complete_endTagAfter h
  · next hBang hQuestion hSlash =>
      refine complete_startTagAfter ?_ h
      intro c hc
      obtain ⟨more, rfl⟩ := List.head?_eq_some_iff.1 hc
      exact ⟨fun hEq => hBang more (hEq ▸ rfl), fun hEq => hQuestion more (hEq ▸ rfl),
        fun hEq => hSlash more (hEq ▸ rfl)⟩

/-- A token that is not broken is complete, and a text run goes on as far as it can. -/
theorem complete_of_next? {input rest : List Char} {token : Token}
    (h : next? input = some (token, rest)) (hWhole : token.isBroken = false) :
    token.Complete ∧ token.EndsBefore rest := by
  unfold next? at h
  split at h
  · simp at h
  · next cs =>
      have hComplete := @complete_markupAfter cs
      have hMarkup := not_isText_markupAfter cs
      rw [Option.some.inj h] at hComplete hMarkup
      exact ⟨hComplete hWhole, fun hText => absurd hText hMarkup⟩
  · next c cs hc =>
      obtain ⟨rfl, rfl⟩ := Prod.mk.inj (Option.some.inj h)
      constructor
      · simp only [Complete, List.mem_cons, not_or]
        refine ⟨fun hEq => hc hEq.symm, fun hMem => ?_⟩
        simpa using List.all_eq_true.1 List.all_takeWhile '<' hMem
      · intro _ d hd
        have hStop := List.head?_dropWhile_not (· != '<') cs
        rw [Option.mem_def.1 hd] at hStop
        simpa using hStop

end ContractDoc.Xml.Token

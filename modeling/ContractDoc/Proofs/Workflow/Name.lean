import ContractDoc.Proofs.Text.Blank
import ContractDoc.Proofs.Text.Cut
import ContractDoc.Proofs.Workflow.WellFormed

/-! # How written names are taken apart

The assignee and the visible part of a name are looked for separately, one behind the first `[` and
the other behind the first `]`. For every way in which brackets can stand in a name this says what
the two searches find, and that a tag in front of a name is found again.
-/

namespace ContractDoc.Workflow.Name

open Text (HasNoBlank strip)

theorem after?_of_not_mem {c : Char} {text : List Char} (h : c ∉ text) : after? c text = none := by
  rw [after?, Text.upToMark?_eq_none h]
  rfl

theorem after?_append {c : Char} {before : List Char} (h : c ∉ before) (rest : List Char) :
    after? c (before ++ c :: rest) = some rest := by
  rw [after?, Text.upToMark?_char h]
  rfl

theorem takeWhile_eq_self {c : Char} {text : List Char} (h : c ∉ text) :
    text.takeWhile (· != c) = text := by
  rw [List.takeWhile_eq_self_iff]
  intro d hd
  simpa using fun hEq : d = c => h (hEq ▸ hd)

theorem takeWhile_append {c : Char} {text : List Char} (h : c ∉ text) (rest : List Char) :
    (text ++ c :: rest).takeWhile (· != c) = text := by
  rw [List.takeWhile_append, takeWhile_eq_self h, if_pos rfl, List.takeWhile_cons_of_neg (by simp),
    List.append_nil]

section

variable {raw visible : String} {front rest : List Char}

theorem display_of_not_mem (h : ']' ∉ raw.toList) : display raw = strip raw := by
  rw [display, after?_of_not_mem h, Option.getD_none, String.ofList_toList]

theorem display_eq_strip (hFront : ']' ∉ front) (hRaw : raw.toList = front ++ ']' :: visible.toList) :
    display raw = strip visible := by
  rw [display, hRaw, after?_append hFront, Option.getD_some, String.ofList_toList]

theorem assignee?_of_not_mem (h : ']' ∉ raw.toList) : assignee? raw = none := by
  rw [assignee?, if_neg]
  simpa using h

theorem assignee?_of_unopened (h : '[' ∉ raw.toList) : assignee? raw = none := by
  unfold assignee?
  split
  · rw [after?_of_not_mem h]
    rfl
  · rfl

theorem assignee?_eq_some (hClose : ']' ∈ raw.toList) (hFront : '[' ∉ front)
    (hRaw : raw.toList = front ++ '[' :: rest) :
    assignee? raw = some (assigneeOf (rest.takeWhile (· != ']'))) := by
  rw [assignee?, if_pos (by simpa using hClose), hRaw, after?_append hFront]
  rfl

theorem assignee?_eq_none_iff : assignee? raw = none ↔ '[' ∉ raw.toList ∨ ']' ∉ raw.toList := by
  constructor
  · intro h
    by_contra hBoth
    obtain ⟨hOpen, hClose⟩ := not_or.1 hBoth
    obtain ⟨front, rest, hRaw, hFront⟩ := List.eq_append_cons_of_mem (not_not.1 hOpen)
    rw [assignee?_eq_some (not_not.1 hClose) hFront hRaw] at h
    cases h
  · rintro (hOpen | hClose)
    · exact assignee?_of_unopened hOpen
    · exact assignee?_of_not_mem hClose

end

def assigneeFor (token : String) : Assignee :=
  if ['0', 'x'] <+: token.toList then .address token else .username token

theorem assigneeOf_toList (token : String) : assigneeOf token.toList = assigneeFor token := by
  unfold assigneeOf assigneeFor
  split
  · next rest hText =>
      rw [if_pos ⟨rest, hText.symm⟩]
      exact congrArg Assignee.address String.ofList_toList
  · next hOther =>
      rw [if_neg, String.ofList_toList]
      rintro ⟨rest, hText⟩
      exact hOther rest hText.symm

theorem text_assigneeFor (token : String) : (assigneeFor token).text = token := by
  rw [← assigneeOf_toList, text_assigneeOf, String.ofList_toList]

/-- The kind of a well-formed assignee is told by its text. -/
theorem assigneeFor_text {assignee : Assignee} (h : assignee.WellFormed) :
    assigneeFor assignee.text = assignee := by
  cases assignee with
  | address text => exact if_pos (h.address.1 ⟨text, rfl⟩)
  | username text =>
      apply if_neg
      intro hAddress
      obtain ⟨other, hOther⟩ := h.address.2 hAddress
      cases hOther

section

variable {raw token : String} {front : List Char}

theorem assignee?_closed (rest : List Char) (hFront : '[' ∉ front) (hToken : ']' ∉ token.toList)
    (hRaw : raw.toList = front ++ '[' :: (token.toList ++ ']' :: rest)) :
    assignee? raw = some (assigneeFor token) := by
  have hClose : ']' ∈ raw.toList := by
    rw [hRaw]
    simp
  rw [assignee?_eq_some hClose hFront hRaw, takeWhile_append hToken, assigneeOf_toList]

theorem assignee?_open (hClose : ']' ∈ front) (hFront : '[' ∉ front) (hToken : ']' ∉ token.toList)
    (hRaw : raw.toList = front ++ '[' :: token.toList) :
    assignee? raw = some (assigneeFor token) := by
  have hMem : ']' ∈ raw.toList := by
    rw [hRaw]
    exact List.mem_append_left _ hClose
  rw [assignee?_eq_some hMem hFront hRaw, takeWhile_eq_self hToken, assigneeOf_toList]

end

/-- A name with the token of its tag, if it has a tag, and its visible part. -/
inductive Arranged : String → Option String → String → Prop
  | unclosed {raw : String} : ']' ∉ raw.toList → Arranged raw none raw
  | unopened {front visible : String} :
      ']' ∉ front.toList → '[' ∉ front.toList → '[' ∉ visible.toList →
      Arranged (front ++ "]" ++ visible) none visible
  | tagged {front token visible : String} :
      '[' ∉ front.toList → ']' ∉ front.toList → ']' ∉ token.toList →
      Arranged (front ++ "[" ++ token ++ "]" ++ visible) (some token) visible
  /-- The first `]` stands before the tag, so the tag is visible. -/
  | reversed {front between token rest : String} :
      ']' ∉ front.toList → '[' ∉ front.toList → '[' ∉ between.toList → ']' ∉ token.toList →
      Arranged (front ++ "]" ++ (between ++ "[" ++ token ++ "]" ++ rest)) (some token)
        (between ++ "[" ++ token ++ "]" ++ rest)
  /-- The tag goes on to the end. -/
  | reversedOpen {front between token : String} :
      ']' ∉ front.toList → '[' ∉ front.toList → '[' ∉ between.toList → ']' ∉ token.toList →
      Arranged (front ++ "]" ++ (between ++ "[" ++ token)) (some token)
        (between ++ "[" ++ token)

/-- What a name is taken apart into. -/
structure Splits (raw : String) (token? : Option String) (visible : String) : Prop where
  assignee : assignee? raw = token?.map assigneeFor
  display : display raw = strip visible

theorem Arranged.splits {raw visible : String} {token? : Option String}
    (h : Arranged raw token? visible) : Splits raw token? visible := by
  cases h with
  | unclosed hRaw => exact ⟨assignee?_of_not_mem hRaw, display_of_not_mem hRaw⟩
  | @unopened front visible hClose hOpen hVisible =>
      constructor
      · apply assignee?_of_unopened
        simp [hOpen, hVisible]
      · apply display_eq_strip hClose
        simp
  | @tagged front token visible hOpen hClose hToken =>
      constructor
      · apply assignee?_closed visible.toList hOpen hToken
        simp
      · have hFront : ']' ∉ front.toList ++ '[' :: token.toList := by simp [hClose, hToken]
        apply display_eq_strip hFront
        simp
  | @reversed front between token rest hClose hOpen hBetween hToken =>
      constructor
      · have hFront : '[' ∉ front.toList ++ ']' :: between.toList := by simp [hOpen, hBetween]
        apply assignee?_closed rest.toList hFront hToken
        simp
      · apply display_eq_strip hClose
        simp
  | @reversedOpen front between token hClose hOpen hBetween hToken =>
      constructor
      · have hFront : '[' ∉ front.toList ++ ']' :: between.toList := by simp [hOpen, hBetween]
        apply assignee?_open (by simp) hFront hToken
        simp
      · apply display_eq_strip hClose
        simp

theorem exists_eq_append {c : Char} {mark text : String} (hMark : mark.toList = [c])
    (h : c ∈ text.toList) : ∃ front rest, text = front ++ mark ++ rest ∧ c ∉ front.toList := by
  obtain ⟨front, rest, hText, hFront⟩ := List.eq_append_cons_of_mem h
  refine ⟨String.ofList front, String.ofList rest, ?_, ?_⟩
  · rw [← String.toList_inj]
    simp [hText, hMark]
  · rwa [String.toList_ofList]

/-- There is no other way to arrange brackets. -/
theorem exists_arranged (raw : String) : ∃ token? visible, Arranged raw token? visible := by
  by_cases hClose : ']' ∈ raw.toList
  · obtain ⟨front, visible, rfl, hFront⟩ := @exists_eq_append _ "]" _ rfl hClose
    by_cases hTag : '[' ∈ front.toList
    · obtain ⟨before, token, rfl, hBefore⟩ := @exists_eq_append _ "[" _ rfl hTag
      simp only [String.toList_append, List.mem_append, not_or] at hFront
      exact ⟨some token, visible, .tagged hBefore hFront.1.1 hFront.2⟩
    · by_cases hOpen : '[' ∈ visible.toList
      · obtain ⟨between, rest, rfl, hBetween⟩ := @exists_eq_append _ "[" _ rfl hOpen
        by_cases hEnd : ']' ∈ rest.toList
        · obtain ⟨token, after, rfl, hToken⟩ := @exists_eq_append _ "]" _ rfl hEnd
          have hRest : between ++ "[" ++ (token ++ "]" ++ after) =
              between ++ "[" ++ token ++ "]" ++ after := by
            simp only [String.append_assoc]
          rw [hRest]
          exact ⟨some token, _, .reversed hFront hTag hBetween hToken⟩
        · exact ⟨some rest, _, .reversedOpen hFront hTag hBetween hEnd⟩
      · exact ⟨none, visible, .unopened hFront hTag hOpen⟩
  · exact ⟨none, raw, .unclosed hClose⟩

section

variable {token : String} (h : ']' ∉ token.toList) (visible : String)

include h

theorem assignee?_tag : assignee? ("[" ++ token ++ "]" ++ visible) = some (assigneeFor token) := by
  apply assignee?_closed visible.toList List.not_mem_nil h
  simp

theorem display_tag : display ("[" ++ token ++ "]" ++ visible) = strip visible := by
  have hFront : ']' ∉ '[' :: token.toList := by simp [h]
  apply display_eq_strip hFront
  simp

end

/-- The assignee and the visible part of a name, for every arrangement of brackets, with what
stripping keeps of the visible part. A tag that is put in front of a name is found again. -/
theorem splits_of_arranged :
    (∀ raw, assignee? raw = none ↔ '[' ∉ raw.toList ∨ ']' ∉ raw.toList) ∧
    (∀ raw, ∃ token? visible, Arranged raw token? visible) ∧
    (∀ raw token? visible, Arranged raw token? visible → Splits raw token? visible) ∧
    (∀ text, (strip text).toList = text.toList.filter fun c => c.toNat ∉ Text.whiteSpace) ∧
    (∀ text, strip (strip text) = strip text) ∧
    (∀ text more, strip (text ++ more) = strip text ++ strip more) ∧
    ∀ token visible : String, ']' ∉ token.toList →
      (∀ c ∈ visible.toList, c.toNat ∉ Text.whiteSpace) →
      (assignee? ("[" ++ token ++ "]" ++ visible)).map Assignee.text = some token ∧
        display ("[" ++ token ++ "]" ++ visible) = visible := by
  refine ⟨fun raw => assignee?_eq_none_iff, exists_arranged, fun _ _ _ => Arranged.splits,
    Text.toList_strip, Text.strip_strip, Text.strip_append, ?_⟩
  intro token visible hToken hVisible
  have hBlank : HasNoBlank visible := fun c hc => by
    simpa [← Text.isBlank_iff] using hVisible c hc
  constructor
  · rw [assignee?_tag hToken, Option.map_some, text_assigneeFor]
  · rw [display_tag hToken, Text.strip_eq_self hBlank]

theorem splits_of_reversed_brackets :
    Splits ("Pay" ++ "]" ++ ("now" ++ "[" ++ "0xAB" ++ "]" ++ " late")) (some "0xAB")
        ("now" ++ "[" ++ "0xAB" ++ "]" ++ " late") ∧
      (assignee? ("[" ++ "[bob" ++ "]" ++ "Sign")).map Assignee.text = some "[bob" ∧
        display ("[" ++ "[bob" ++ "]" ++ "Sign") = "Sign" := by
  constructor
  · apply splits_of_arranged.2.2.1
    exact .reversed (by decide) (by decide) (by decide) (by decide)
  · exact splits_of_arranged.2.2.2.2.2.2 "[bob" "Sign" (by decide) (by decide)

end ContractDoc.Workflow.Name

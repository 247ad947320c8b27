import ContractDoc.Text.Cut

/-! # Where a text is cut

A mark is found exactly where it stands first, and an automaton closes a text exactly at the
character that stops its run. A mark that ends in a character of its own cannot overlap itself, so
it is enough that the text before it does not contain it.
-/

namespace ContractDoc.Text

theorem upToMarkFrom_eq_map (mark seen text : List Char) :
    upToMarkFrom mark seen text =
      (upToMark? mark text).map fun cut => (seen.reverse ++ cut.1, cut.2) := by
  unfold upToMark?
  induction text generalizing seen with
  | nil => rfl
  | cons c cs ih =>
      rw [upToMarkFrom, upToMarkFrom]
      split
      · simp
      · rw [ih (c :: seen), ih [c], Option.map_map]
        congr 1
        funext cut
        simp

theorem upToMark?_nil (mark : List Char) : upToMark? mark [] = none := rfl

theorem upToMark?_here {mark text : List Char} (hText : text ≠ []) (h : mark <+: text) :
    upToMark? mark text = some ([], text.drop mark.length) := by
  obtain ⟨rest, rfl⟩ := h
  obtain ⟨c, cs, hcs⟩ := List.exists_cons_of_ne_nil hText
  rw [hcs, upToMark?, upToMarkFrom, ← hcs, afterMark?_eq_some_iff.2 rfl]
  simp

theorem upToMark?_later {mark : List Char} {c : Char} {cs : List Char}
    (h : ¬ mark <+: c :: cs) :
    upToMark? mark (c :: cs) = (upToMark? mark cs).map fun cut => (c :: cut.1, cut.2) := by
  have hAfter : afterMark? mark (c :: cs) = none := by
    cases hSome : afterMark? mark (c :: cs) with
    | none => rfl
    | some after => exact absurd ⟨after, (afterMark?_eq_some_iff.1 hSome).symm⟩ h
  rw [upToMark?, upToMarkFrom, hAfter]
  simpa using upToMarkFrom_eq_map mark [c] cs

theorem not_prefix_of_overlap {front q rest : List Char} {last : Char} (hLast : last ∉ front)
    (hq : q ≠ []) (hInfix : ¬ front ++ [last] <+: q) :
    ¬ front ++ [last] <+: q ++ (front ++ [last]) ++ rest := by
  intro hPrefix
  have hqPrefix : q <+: q ++ (front ++ [last]) ++ rest := by simp
  rcases List.prefix_or_prefix_of_prefix hPrefix hqPrefix with h | ⟨r, hr⟩
  · exact hInfix h
  · -- `r` is what the mark has left behind `q`: it ends in the last character, and it is short
    -- enough to stand in the front of the second mark.
    have hne : r ≠ [] := by
      rintro rfl
      exact hInfix (by simp [← hr])
    have hLastR : r.getLast hne = last := by
      have := congrArg List.getLast? hr
      simpa [List.getLast?_append, List.getLast?_eq_some_getLast hne] using this
    have hrPrefix : r <+: front ++ [last] ++ rest := by
      refine (List.prefix_append_right_inj q).1 ?_
      rwa [hr, ← List.append_assoc]
    have hShort : r.length ≤ front.length := by
      have := List.length_pos_iff.2 hq
      have := congrArg List.length hr
      simp only [List.length_append, List.length_singleton] at this
      omega
    have hrFront : r <+: front :=
      List.prefix_of_prefix_length_le hrPrefix (by simp) hShort
    exact hLast (hrFront.subset (hLastR ▸ List.getLast_mem hne))

/-- A mark whose last character stands nowhere else in it is found right after a text that does
not contain it. -/
theorem upToMark?_append {front body : List Char} {last : Char} (hLast : last ∉ front)
    (hBody : ¬ front ++ [last] <:+: body) (rest : List Char) :
    upToMark? (front ++ [last]) (body ++ (front ++ [last]) ++ rest) = some (body, rest) := by
  induction body with
  | nil =>
      rw [upToMark?_here (by simp) (by simp)]
      simp
  | cons c cs ih =>
      have hPrefix : ¬ front ++ [last] <+: c :: cs ++ (front ++ [last]) ++ rest :=
        not_prefix_of_overlap hLast (by simp) fun h => hBody h.isInfix
      have hRest := ih fun h => hBody (h.trans (List.suffix_cons c cs).isInfix)
      rw [List.cons_append, List.cons_append] at hPrefix ⊢
      rw [upToMark?_later hPrefix, hRest]
      rfl

theorem upToMark?_char {c : Char} {before : List Char} (h : c ∉ before) (after : List Char) :
    upToMark? [c] (before ++ c :: after) = some (before, after) := by
  have hBefore : ¬ [] ++ [c] <:+: before := fun hInfix => h (hInfix.subset (by simp))
  simpa using upToMark?_append List.not_mem_nil hBefore after

theorem upToMark?_eq_none {c : Char} {text : List Char} (h : c ∉ text) :
    upToMark? [c] text = none := by
  cases hCut : upToMark? [c] text with
  | none => rfl
  | some cut =>
      obtain ⟨body, rest⟩ := cut
      rw [upToMark?_eq hCut] at h
      simp at h

/-- The text before the mark that was found does not contain it. -/
theorem not_infix_of_upToMark? {mark text body rest : List Char} (hMark : mark ≠ [])
    (h : upToMark? mark text = some (body, rest)) : ¬ mark <:+: body := by
  induction text generalizing body with
  | nil => simp [upToMark?_nil] at h
  | cons c cs ih =>
      by_cases hPrefix : mark <+: c :: cs
      · rw [upToMark?_here (by simp) hPrefix] at h
        obtain ⟨rfl, -⟩ := Prod.mk.inj (Option.some.inj h)
        rwa [List.infix_nil]
      · have hText := upToMark?_eq h
        rw [upToMark?_later hPrefix, Option.map_eq_some_iff] at h
        obtain ⟨⟨more, rest'⟩, hMore, hCut⟩ := h
        obtain ⟨rfl, rfl⟩ := Prod.mk.inj hCut
        rw [List.infix_cons_iff]
        rintro (hHere | hLater)
        · refine hPrefix (hHere.trans ?_)
          rw [hText, List.append_assoc]
          exact List.prefix_append _ _
        · exact ih hMore hLater

variable {σ : Type}

theorem upToCloseFrom_eq_map (step : σ → Char → Option σ) (state : σ) (seen text : List Char) :
    upToCloseFrom step state seen text =
      (upToClose? step state text).map fun cut => (seen.reverse ++ cut.1, cut.2) := by
  unfold upToClose?
  induction text generalizing state seen with
  | nil => rfl
  | cons c cs ih =>
      rw [upToCloseFrom, upToCloseFrom]
      split
      · simp
      · next next _ =>
          rw [ih next (c :: seen), ih next [c], Option.map_map]
          congr 1
          funext cut
          simp

theorem upToClose?_cons (step : σ → Char → Option σ) (state : σ) (c : Char) (cs : List Char) :
    upToClose? step state (c :: cs) =
      match step state c with
      | none => some ([], cs)
      | some next => (upToClose? step next cs).map fun cut => (c :: cut.1, cut.2) := by
  rw [upToClose?, upToCloseFrom]
  cases step state c with
  | none => rfl
  | some next => simpa using upToCloseFrom_eq_map step next [c] cs

/-- An automaton closes a text after the body that it runs through and before the first character
that stops it. -/
theorem upToClose?_eq_some_iff {step : σ → Char → Option σ} {state : σ}
    {text body rest : List Char} :
    upToClose? step state text = some (body, rest) ↔
      ∃ stop c, body.foldlM step state = some stop ∧ step stop c = none ∧
        text = body ++ c :: rest := by
  induction text generalizing state body with
  | nil => simp [upToClose?, upToCloseFrom]
  | cons c cs ih =>
      rw [upToClose?_cons]
      cases hStep : step state c with
      | none =>
          constructor
          · intro h
            obtain ⟨rfl, rfl⟩ := Prod.mk.inj (Option.some.inj h)
            exact ⟨state, c, rfl, hStep, rfl⟩
          · rintro ⟨stop, d, hRun, hStop, hText⟩
            cases body with
            | nil => simp_all
            | cons b bs =>
                obtain ⟨rfl, -⟩ := List.cons.inj hText
                simp [hStep] at hRun
      | some next =>
          simp only [Option.map_eq_some_iff, Prod.exists, Prod.mk.injEq]
          constructor
          · rintro ⟨more, _, hMore, rfl, rfl⟩
            obtain ⟨stop, d, hRun, hStop, rfl⟩ := ih.1 hMore
            exact ⟨stop, d, by simpa [hStep] using hRun, hStop, rfl⟩
          · rintro ⟨stop, d, hRun, hStop, hText⟩
            cases body with
            | nil =>
                obtain ⟨rfl, rfl⟩ := List.cons.inj hText
                simp_all
            | cons b bs =>
                rw [List.cons_append] at hText
                obtain ⟨rfl, hRest⟩ := List.cons.inj hText
                refine ⟨bs, rest, ih.2 ⟨stop, d, ?_, hStop, hRest⟩, rfl, rfl⟩
                simpa [hStep] using hRun

end ContractDoc.Text

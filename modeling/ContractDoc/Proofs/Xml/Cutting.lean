import Mathlib.Data.List.Chain
import ContractDoc.Proofs.Xml.Shape

/-! # Cutting as an inverse of writing

Complete tokens written one after the other are cut apart again, except that neighbouring text runs
come back as one run and empty ones not at all. The other way round, the tokens of a text without
broken markup are complete and no two text runs stand side by side.
-/

namespace ContractDoc.Xml.Token

/-- Puts characters in front of tokens, into the first text run if there is one at the front. -/
def joinText (run : List Char) : List Token → List Token
  | text more :: tokens => text (run ++ more) :: tokens
  | tokens => if run = [] then tokens else text run :: tokens

/-- Joins neighbouring text runs and drops empty ones. -/
def merge : List Token → List Token
  | [] => []
  | text run :: tokens => joinText run (merge tokens)
  | token :: tokens => token :: merge tokens

/-- No two text runs stand side by side, and none is empty. -/
structure Separated (tokens : List Token) : Prop where
  apart : tokens.IsChain fun a b => ¬ (a.IsText ∧ b.IsText)
  nonempty : ∀ token ∈ tokens, token.source ≠ []

theorem joinText_nil (tokens : List Token) : joinText [] tokens = tokens := by
  unfold joinText
  split <;> simp

theorem merge_cons_of_not_isText {token : Token} (h : ¬ token.IsText) (tokens : List Token) :
    merge (token :: tokens) = token :: merge tokens := by
  cases token <;> first | rfl | exact absurd trivial h

theorem joinText_cons_of_not_isText {token : Token} (h : ¬ token.IsText) (run : List Char)
    (tokens : List Token) : joinText run (token :: tokens) = joinText run [] ++ token :: tokens := by
  cases token with
  | text more => exact absurd trivial h
  | _ => by_cases hRun : run = [] <;> simp [joinText, hRun]

theorem joinText_append_of_not_isText {token : Token} (h : ¬ token.IsText) (run : List Char)
    (before after : List Token) :
    joinText run (before ++ token :: after) = joinText run before ++ token :: after := by
  cases before with
  | nil => exact joinText_cons_of_not_isText h run after
  | cons first rest => cases first <;> by_cases hRun : run = [] <;> simp [joinText, hRun]

theorem merge_append_of_not_isText {token : Token} (h : ¬ token.IsText)
    (before after : List Token) :
    merge (before ++ token :: after) = merge before ++ token :: merge after := by
  induction before with
  | nil => exact merge_cons_of_not_isText h after
  | cons first rest ih =>
      by_cases hFirst : first.IsText
      · cases first with
        | text run => rw [List.cons_append, merge, ih, merge, joinText_append_of_not_isText h]
        | _ => exact hFirst.elim
      · rw [List.cons_append, merge_cons_of_not_isText hFirst, merge_cons_of_not_isText hFirst, ih,
          List.cons_append]

theorem flatMap_source_joinText (run : List Char) (tokens : List Token) :
    (joinText run tokens).flatMap source = run ++ tokens.flatMap source := by
  unfold joinText
  split
  · simp [source]
  · split <;> simp_all [source]

theorem flatMap_source_merge (tokens : List Token) :
    (merge tokens).flatMap source = tokens.flatMap source := by
  induction tokens with
  | nil => rfl
  | cons token tokens ih =>
      cases token with
      | text run => rw [merge, flatMap_source_joinText, ih, List.flatMap_cons, source]
      | _ => rw [merge_cons_of_not_isText id, List.flatMap_cons, ih, List.flatMap_cons]

theorem isBroken_of_complete {token : Token} (h : token.Complete) : token.isBroken = false := by
  cases token <;> first | rfl | exact h.elim

theorem cut_source_append {token : Token} (h : token.Complete) (hMarkup : ¬ token.IsText)
    (rest : List Char) : cut (token.source ++ rest) = token :: cut rest := by
  rw [cut_of_next? (next?_source_append h hMarkup rest), isBroken_of_complete h]
  simp

theorem cut_cons_of_ne {c : Char} (h : c ≠ '<') (cs : List Char) :
    cut (c :: cs) = text (c :: cs.takeWhile (· != '<')) :: cut (cs.dropWhile (· != '<')) := by
  have hNext : next? (c :: cs) =
      some (text (c :: cs.takeWhile (· != '<')), cs.dropWhile (· != '<')) := by
    rw [next?]
    exact h
  rw [cut_of_next? hNext]
  simp [isBroken]

theorem cut_markup (cs : List Char) :
    cut ('<' :: cs) =
      (markupAfter cs).1 :: if (markupAfter cs).1.isBroken then [] else cut (markupAfter cs).2 :=
  @cut_of_next? ('<' :: cs) (markupAfter cs).2 (markupAfter cs).1 rfl

theorem joinText_cut_markup {run : List Char} (h : run ≠ []) (cs : List Char) :
    joinText run (cut ('<' :: cs)) = text run :: cut ('<' :: cs) := by
  rw [cut_markup, joinText_cons_of_not_isText (not_isText_markupAfter cs)]
  simp [joinText, h]

/-- Characters without markup in front of a text go into its first run. -/
theorem cut_text_append {run : List Char} (h : '<' ∉ run) (rest : List Char) :
    cut (run ++ rest) = joinText run (cut rest) := by
  cases run with
  | nil => exact (joinText_nil _).symm
  | cons c cs =>
      obtain ⟨hc, hcs⟩ := not_or.1 (mt List.mem_cons.2 h)
      have hPass : ∀ d ∈ cs, (d != '<') = true := fun d hd => by
        simpa using fun hEq : d = '<' => hcs (hEq ▸ hd)
      rw [List.cons_append, cut_cons_of_ne (Ne.symm hc), List.takeWhile_append_of_pos hPass,
        List.dropWhile_append_of_pos hPass]
      cases rest with
      | nil => simp [cut_nil, joinText]
      | cons d ds =>
          by_cases hd : d = '<'
          · subst hd
            simp [joinText_cut_markup]
          · rw [cut_cons_of_ne hd]
            simp [joinText, hd]

/-- Complete tokens are read back from their texts. -/
theorem cut_flatMap_source {tokens : List Token} (h : ∀ token ∈ tokens, token.Complete) :
    cut (tokens.flatMap source) = merge tokens := by
  induction tokens with
  | nil => exact cut_nil
  | cons token rest ih =>
      have hRest := ih fun t ht => h t (List.mem_cons_of_mem _ ht)
      have hFirst := h token List.mem_cons_self
      rw [List.flatMap_cons]
      by_cases hText : token.IsText
      · cases token with
        | text run => rw [source, cut_text_append hFirst, hRest, merge]
        | _ => exact hText.elim
      · rw [cut_source_append hFirst hText, hRest, merge_cons_of_not_isText hText]

/-- Complete tokens up to a markup construct are read back whatever follows them. -/
theorem cut_flatMap_source_append {tokens : List Token} {last : Token}
    (h : ∀ token ∈ tokens, token.Complete) (hLast : last.Complete) (hMarkup : ¬ last.IsText)
    (rest : List Char) :
    cut ((tokens ++ [last]).flatMap source ++ rest) = merge (tokens ++ [last]) ++ cut rest := by
  induction tokens with
  | nil =>
      rw [List.nil_append, List.flatMap_singleton, cut_source_append hLast hMarkup,
        merge_cons_of_not_isText hMarkup]
      rfl
  | cons token others ih =>
      have hRest := ih fun t ht => h t (List.mem_cons_of_mem _ ht)
      have hFirst := h token List.mem_cons_self
      rw [List.cons_append, List.flatMap_cons, List.append_assoc]
      by_cases hText : token.IsText
      · cases token with
        | text run =>
            rw [source, cut_text_append hFirst, hRest, merge,
              merge_append_of_not_isText hMarkup, List.append_assoc, List.cons_append,
              joinText_append_of_not_isText hMarkup, joinText_append_of_not_isText hMarkup,
              List.append_assoc]
            rfl
        | _ => exact hText.elim
      · rw [cut_source_append hFirst hText, hRest, merge_cons_of_not_isText hText,
          List.cons_append]

theorem Separated.left {front back : List Token} (h : Separated (front ++ back)) :
    Separated front :=
  ⟨h.apart.left_of_append, fun token hToken => h.nonempty token (List.mem_append_left back hToken)⟩

/-- Separated tokens are joined already. -/
theorem Separated.merge_eq {tokens : List Token} (h : Separated tokens) : merge tokens = tokens := by
  induction tokens with
  | nil => rfl
  | cons token rest ih =>
      obtain ⟨hHead, hTail⟩ := List.isChain_cons.1 h.apart
      have hRest := ih ⟨hTail, fun t ht => h.nonempty t (List.mem_cons_of_mem token ht)⟩
      by_cases hText : token.IsText
      · cases token with
        | text run =>
            have hRun : run ≠ [] := h.nonempty _ List.mem_cons_self
            rw [merge, hRest]
            cases rest with
            | nil => exact if_neg hRun
            | cons next others =>
                have hNext : ¬ next.IsText := fun hBoth => hHead next rfl ⟨trivial, hBoth⟩
                rw [joinText_cons_of_not_isText hNext, joinText, if_neg hRun]
                · rfl
                · simp
        | _ => exact hText.elim
      · rw [merge_cons_of_not_isText hText, hRest]

theorem cut_eq_nil_iff {input : List Char} : cut input = [] ↔ input = [] := by
  constructor
  · intro h
    have hWhole : ∀ token ∈ cut input, token.isBroken = false := by simp [h]
    rw [← flatMap_source_cut hWhole, h]
    rfl
  · rintro rfl
    exact cut_nil

theorem not_isText_head_cut {input : List Char} (h : ∀ c ∈ input.head?, c = '<') :
    ∀ token ∈ (cut input).head?, ¬ token.IsText := by
  cases input with
  | nil => simp [cut_nil]
  | cons c cs =>
      obtain rfl := h c rfl
      intro token hToken
      rw [cut_markup] at hToken
      obtain rfl := Option.some.inj hToken
      exact not_isText_markupAfter cs

/-- Without broken markup, every token of a text is complete and text runs are maximal. -/
theorem complete_and_separated_cut {input : List Char}
    (h : ∀ token ∈ cut input, token.isBroken = false) :
    (∀ token ∈ cut input, token.Complete) ∧ Separated (cut input) := by
  induction hLength : input.length using Nat.strongRecOn generalizing input with
  | ind n ih =>
      cases hNext : next? input with
      | none =>
          obtain rfl : input = [] := by
            cases input with
            | nil => rfl
            | cons c cs => by_cases hc : c = '<' <;> simp_all [next?]
          simp [cut_nil, Separated.mk]
      | some first =>
          obtain ⟨token, rest⟩ := first
          have hWhole : token.isBroken = false := h token (by simp [cut_of_next? hNext])
          have hCut : cut input = token :: cut rest := by simp [cut_of_next? hNext, hWhole]
          obtain ⟨hComplete, hEnds⟩ := complete_of_next? hNext hWhole
          obtain ⟨hAll, hSeparated⟩ := ih rest.length (hLength ▸ length_lt_of_next? hNext)
            (fun t ht => h t (by simp [hCut, ht])) rfl
          rw [hCut]
          refine ⟨?_, ?_, ?_⟩
          · simpa using ⟨hComplete, hAll⟩
          · refine List.isChain_cons.2 ⟨fun next hHead => ?_, hSeparated.apart⟩
            rintro ⟨hText, hTextNext⟩
            exact not_isText_head_cut (hEnds hText) next hHead hTextNext
          · simpa using ⟨source_ne_nil_of_next? hNext, hSeparated.nonempty⟩

end ContractDoc.Xml.Token

import ContractDoc.Proofs.Text.Numeral
import ContractDoc.Text.Case
import Mathlib.Data.List.Forall2

/-! # Words in any case

Outside ASCII only the Kelvin sign has a lower case that lies in ASCII. So a word of ASCII letters
without a `k` is the lower case of exactly those texts that differ from it in the case of ASCII
letters, however the small sigma is written.
-/

namespace ContractDoc.Text

/-- A capital ASCII letter and its small letter. -/
def IsCapitalOf (capital small : Char) : Prop :=
  65 ≤ capital.toNat ∧ capital.toNat ≤ 90 ∧ small.toNat = capital.toNat + 32

/-- The same character, or one ASCII letter in its two cases. -/
def SameLetter (c d : Char) : Prop := c = d ∨ IsCapitalOf c d ∨ IsCapitalOf d c

/-- Texts of one length that differ at most in the case of ASCII letters. -/
def SameUpToCase (text word : String) : Prop := List.Forall₂ SameLetter text.toList word.toList

theorem toNat_toLower (c : Char) :
    c.toLower.toNat = if 65 ≤ c.toNat ∧ c.toNat ≤ 90 then c.toNat + 32 else c.toNat := by
  rcases Nat.lt_or_ge c.toNat 128 with h | h
  · exact of_ascii (p := fun c => c.toLower.toNat =
      if 65 ≤ c.toNat ∧ c.toNat ≤ 90 then c.toNat + 32 else c.toNat) (by decide +kernel) h
  · rw [toLower_eq_self h, if_neg (by omega)]

theorem sameLetter_iff {c d : Char} : SameLetter c d ↔ c.toLower = d.toLower := by
  rw [SameLetter, IsCapitalOf, IsCapitalOf, ← Char.toNat_inj, ← Char.toNat_inj, toNat_toLower,
    toNat_toLower]
  split <;> split <;> omega

theorem sameUpToCase_iff {text word : String} :
    SameUpToCase text word ↔ text.toList.map Char.toLower = word.toList.map Char.toLower := by
  have hLetter : SameLetter = fun c d => c.toLower = d.toLower := by
    funext c d
    exact propext sameLetter_iff
  rw [SameUpToCase, hLetter, ← List.forall₂_eq_eq_eq, List.forall₂_map_left_iff,
    List.forall₂_map_right_iff]

/-- Past ASCII the table stays past ASCII, the Kelvin sign apart. -/
theorem caseRuns_past_ascii : ∀ run ∈ caseRuns, run.last < 128 ∨
    (run.first = 0x212A ∧ run.last = 0x212A ∧ run.shift = 0x6B - 0x212A) ∨
    (128 ≤ run.first + run.shift ∧ (run.last + run.shift < 0xD800 ∨
      0xDFFF < run.first + run.shift ∧ run.last + run.shift < 0x110000)) := by
  decide +kernel

theorem smallLetter_of_lt {c : Char} (h : c.toNat < 128) : smallLetter c = c.toLower :=
  of_ascii (p := fun c => smallLetter c = c.toLower) (by decide +kernel) h

theorem le_toNat_smallLetter {c : Char} (h : 128 ≤ c.toNat) :
    128 ≤ (smallLetter c).toNat ∨ smallLetter c = 'k' := by
  unfold smallLetter
  split
  · next run hFind =>
      have hCovers := List.find?_some hFind
      simp only [CaseRun.covers, Bool.and_eq_true, decide_eq_true_eq] at hCovers
      rcases caseRuns_past_ascii run (List.mem_of_find?_eq_some hFind) with
        hAscii | ⟨hFirst, hLast, hShift⟩ | ⟨hLower, hValid⟩
      · omega
      · right
        have hKelvin : (c.toNat + run.shift).toNat = 0x6B := by omega
        rw [hKelvin]
      · left
        have hChar : (c.toNat + run.shift).toNat.isValidChar := by
          simp only [Nat.isValidChar]
          omega
        rw [Char.ofNat, dif_pos hChar]
        change 128 ≤ (c.toNat + run.shift).toNat
        omega
  · exact .inl h

/-- The ways to write the lower case of a character: at the end of a word a capital sigma becomes
another small letter than inside. -/
def lowerForms (c : Char) : List (List Char) :=
  if c = 'Σ' then [['σ'], ['ς']] else [lowerChar c]

/-- The second text is the first one in lower case, with either small letter for a capital sigma. -/
inductive IsLower : List Char → List Char → Prop
  | nil : IsLower [] []
  | cons {c : Char} {form text lowered : List Char} (hForm : form ∈ lowerForms c)
      (hRest : IsLower text lowered) : IsLower (c :: text) (form ++ lowered)

theorem isLower_lower (text : List Char) : IsLower text (text.flatMap lowerChar) := by
  have hForm (c : Char) : lowerChar c ∈ lowerForms c := by
    unfold lowerForms
    split
    · next h => rw [h]; decide
    · exact List.mem_singleton.2 rfl
  induction text with
  | nil => exact .nil
  | cons c text ih => exact .cons (hForm c) ih

theorem lowerForms_of_lt {c : Char} (h : c.toNat < 128) : lowerForms c = [[c.toLower]] := by
  have hSigma : c ≠ 'Σ' := by
    rintro rfl
    exact absurd h (by decide)
  have hDotted : c ≠ '\u0130' := by
    rintro rfl
    exact absurd h (by decide)
  rw [lowerForms, if_neg hSigma, lowerChar, if_neg hDotted, smallLetter_of_lt h]

theorem exists_mem_lowerForm {c : Char} {form : List Char} (h : 128 ≤ c.toNat)
    (hForm : form ∈ lowerForms c) : ∃ d ∈ form, 128 ≤ d.toNat ∨ d = 'k' := by
  unfold lowerForms lowerChar at hForm
  split at hForm
  · rcases List.mem_pair.1 hForm with rfl | rfl
    · exact ⟨'σ', List.mem_cons_self, .inl (by decide)⟩
    · exact ⟨'ς', List.mem_cons_self, .inl (by decide)⟩
  · split at hForm
    · obtain rfl := List.mem_singleton.1 hForm
      exact ⟨'\u0307', List.mem_cons_of_mem _ List.mem_cons_self, .inl (by decide)⟩
    · rw [List.mem_singleton.1 hForm]
      exact ⟨_, List.mem_singleton_self _, le_toNat_smallLetter h⟩

/-- A word of ASCII characters that no other character is folded onto. -/
def IsPlain (word : List Char) : Prop := ∀ c ∈ word, c.toNat < 128 ∧ c ≠ 'k'

instance (word : List Char) : Decidable (IsPlain word) :=
  inferInstanceAs (Decidable (∀ c ∈ word, c.toNat < 128 ∧ c ≠ 'k'))

theorem eq_word_iff {word text lowered : List Char} (hWord : IsPlain word)
    (h : IsLower text lowered) : lowered = word ↔ text.map Char.toLower = word := by
  induction h generalizing word with
  | nil => rfl
  | @cons c form text lowered hForm hRest ih =>
      rcases Nat.lt_or_ge c.toNat 128 with hAscii | hOther
      · rw [lowerForms_of_lt hAscii, List.mem_singleton] at hForm
        rw [hForm, List.singleton_append, List.map_cons]
        cases word with
        | nil => simp
        | cons d word =>
            rw [List.cons.injEq, List.cons.injEq, ih fun e he => hWord e (.tail d he)]
      · -- neither lower case has only characters of a plain word
        have hForm' : form ++ lowered ≠ word := by
          rintro rfl
          obtain ⟨d, hd, hPast | hKelvin⟩ := exists_mem_lowerForm hOther hForm
          all_goals have hPlain := hWord d (List.mem_append_left lowered hd)
          · omega
          · exact hPlain.2 hKelvin
        have hSelf : (c :: text).map Char.toLower ≠ word := by
          rw [List.map_cons, toLower_eq_self hOther]
          rintro rfl
          have := hWord c List.mem_cons_self
          omega
        exact iff_of_false hForm' hSelf

end ContractDoc.Text

import ContractDoc.Text.Blank
import Mathlib.Data.List.DropRight

/-! # Texts without blanks

Stripping leaves a text without blanks, and neither stripping nor trimming changes a text that has
none. What trimming leaves is trimmed.
-/

namespace ContractDoc.Text

/-- Whether something holds of all characters of a text is decided along the text, and not by a
search through all characters that there are. -/
instance (priority := high) decidableForallMem {p : Char → Prop} [DecidablePred p]
    (text : List Char) : Decidable (∀ c ∈ text, p c) :=
  List.decidableBAll p text

/-- The code points with the Unicode property White_Space, one by one. -/
def whiteSpace : List Nat :=
  [0x09, 0x0A, 0x0B, 0x0C, 0x0D, 0x20, 0x85, 0xA0, 0x1680, 0x2000, 0x2001, 0x2002, 0x2003, 0x2004,
    0x2005, 0x2006, 0x2007, 0x2008, 0x2009, 0x200A, 0x2028, 0x2029, 0x202F, 0x205F, 0x3000]

theorem isBlank_iff {c : Char} : isBlank c = true ↔ c.toNat ∈ whiteSpace := by
  have hPoints : whiteSpace = blankRanges.flatMap fun range =>
      List.range' range.1 (range.2 + 1 - range.1) := by decide
  have hRange (range : Nat × Nat) : range.1 ≤ c.toNat ∧ c.toNat ≤ range.2 ↔
      c.toNat ∈ List.range' range.1 (range.2 + 1 - range.1) := by
    rw [List.mem_range'_1]
    omega
  simp only [isBlank, hPoints, List.any_eq_true, List.mem_flatMap, Bool.and_eq_true,
    decide_eq_true_eq, hRange]

def HasNoBlank (text : String) : Prop := ∀ c ∈ text.toList, isBlank c = false

instance (text : String) : Decidable (HasNoBlank text) :=
  inferInstanceAs (Decidable (∀ c ∈ text.toList, isBlank c = false))

theorem hasNoBlank_strip (text : String) : HasNoBlank (strip text) := by
  intro c hc
  rw [strip, String.toList_ofList, List.mem_filter] at hc
  simpa using hc.2

theorem hasNoBlank_empty : HasNoBlank "" := by
  intro c hc
  simp at hc

theorem toList_strip (text : String) :
    (strip text).toList = text.toList.filter fun c => c.toNat ∉ whiteSpace := by
  rw [strip, String.toList_ofList]
  congr 1
  funext c
  rw [Bool.eq_iff_iff]
  simp [← isBlank_iff]

theorem strip_append (text more : String) : strip (text ++ more) = strip text ++ strip more := by
  rw [strip, strip, strip, String.toList_append, List.filter_append, String.ofList_append]

theorem strip_eq_self {text : String} (h : HasNoBlank text) : strip text = text := by
  rw [strip, List.filter_eq_self.2 fun c hc => by simp [h c hc], String.ofList_toList]

theorem strip_strip (text : String) : strip (strip text) = strip text :=
  strip_eq_self (hasNoBlank_strip text)

theorem trim_eq_self {text : String} (h : HasNoBlank text) : trim text = text := by
  have hDrop : ∀ cs : List Char, (∀ c ∈ cs, isBlank c = false) → cs.dropWhile isBlank = cs := by
    intro cs hcs
    cases cs with
    | nil => rfl
    | cons c cs => rw [List.dropWhile_cons_of_neg (by simp [hcs c List.mem_cons_self])]
  have hReverse : ∀ c ∈ text.toList.reverse, isBlank c = false :=
    fun c hc => h c (List.mem_reverse.1 hc)
  rw [trim, trimChars, hDrop _ h, hDrop _ hReverse, List.reverse_reverse, String.ofList_toList]

/-- The second text is what stands between the white space at the two ends of the first. -/
structure Trims (text core : List Char) : Prop where
  between : ∃ front back, text = front ++ core ++ back ∧ ∀ c ∈ front ++ back, c.toNat ∈ whiteSpace
  first : ∀ c ∈ core.head?, c.toNat ∉ whiteSpace
  last : ∀ c ∈ core.getLast?, c.toNat ∉ whiteSpace

theorem dropWhile_append_of_blank {front rest : List Char} (h : ∀ c ∈ front, isBlank c = true) :
    (front ++ rest).dropWhile isBlank = rest.dropWhile isBlank := by
  rw [List.dropWhile_append, List.dropWhile_eq_nil_iff.2 h]
  rfl

theorem dropWhile_append_of_head? {core : List Char} (h : ∀ c ∈ core.head?, isBlank c = false)
    (hCore : core ≠ []) (back : List Char) :
    (core ++ back).dropWhile isBlank = core ++ back := by
  obtain ⟨c, cs, rfl⟩ := List.exists_cons_of_ne_nil hCore
  rw [List.cons_append, List.dropWhile_cons_of_neg (by simp [h c rfl])]

theorem Trims.trimChars_eq {text core : List Char} (h : Trims text core) :
    trimChars text = core := by
  obtain ⟨⟨front, back, rfl, hBlank⟩, hFirst, hLast⟩ := h
  simp only [← isBlank_iff, Bool.not_eq_true] at hBlank hFirst hLast
  have hFront : ∀ c ∈ front, isBlank c = true := fun c hc => hBlank c (List.mem_append_left _ hc)
  have hBack : ∀ c ∈ back.reverse, isBlank c = true :=
    fun c hc => hBlank c (List.mem_append_right _ (List.mem_reverse.1 hc))
  rw [trimChars, List.append_assoc, dropWhile_append_of_blank hFront]
  rcases eq_or_ne core [] with rfl | hCore
  · have hNil := List.dropWhile_eq_nil_iff.2 fun c hc => hBack c (List.mem_reverse.2 hc)
    rw [List.nil_append, hNil]
    rfl
  · have hReverse : core.reverse.dropWhile isBlank = core.reverse := by
      have := dropWhile_append_of_head? (by simpa using hLast) (List.reverse_ne_nil_iff.2 hCore) []
      simpa using this
    rw [dropWhile_append_of_head? hFirst hCore, List.reverse_append,
      dropWhile_append_of_blank hBack, hReverse, List.reverse_reverse]

theorem isBlank_of_mem_head?_dropWhile (cs : List Char) :
    ∀ c ∈ (cs.dropWhile isBlank).head?, isBlank c = false := by
  intro c hc
  rw [← List.find?_not_eq_head?_dropWhile] at hc
  simpa using List.find?_some hc

theorem trims_trimChars (text : List Char) : Trims text (trimChars text) := by
  have hFront := List.takeWhile_append_dropWhile (p := isBlank) (l := text)
  have hFirst := isBlank_of_mem_head?_dropWhile text
  generalize hRest : text.dropWhile isBlank = rest at hFront hFirst
  have hTrim : trimChars text = rest.rdropWhile isBlank := by rw [trimChars, hRest]; rfl
  have hBack := List.rdropWhile_append_rtakeWhile (p := isBlank) (l := rest)
  rw [← hTrim] at hBack
  constructor
  · refine ⟨text.takeWhile isBlank, rest.rtakeWhile isBlank, ?_, ?_⟩
    · rw [List.append_assoc, hBack, hFront]
    · intro c hc
      rcases List.mem_append.1 hc with hc | hc
      · exact isBlank_iff.1 (List.mem_takeWhile_imp hc)
      · exact isBlank_iff.1 (List.mem_rtakeWhile_imp hc)
  · intro c hc
    have hHead : c ∈ rest.head? := by
      rw [← hBack, List.head?_append, hc]
      rfl
    rw [← isBlank_iff, hFirst c hHead]
    exact Bool.false_ne_true
  · intro c hc
    rw [hTrim, List.rdropWhile, List.getLast?_reverse] at hc
    rw [← isBlank_iff, isBlank_of_mem_head?_dropWhile _ c hc]
    exact Bool.false_ne_true

theorem trimChars_eq_iff {text core : List Char} : trimChars text = core ↔ Trims text core :=
  ⟨fun h => h ▸ trims_trimChars text, Trims.trimChars_eq⟩

theorem trimChars_trimChars (cs : List Char) : trimChars (trimChars cs) = trimChars cs :=
  have hTrims := trims_trimChars cs
  trimChars_eq_iff.2 ⟨⟨[], [], by simp, by simp⟩, hTrims.first, hTrims.last⟩

theorem trim_eq_iff {text core : String} : trim text = core ↔ Trims text.toList core.toList := by
  rw [← trimChars_eq_iff, ← String.toList_inj, trim, String.toList_ofList]

theorem trim_trim (text : String) : trim (trim text) = trim text := by
  rw [trim, trim, String.toList_ofList, trimChars_trimChars]

theorem isBlank_of_isDigit {c : Char} (h : c.isDigit = true) : isBlank c = false := by
  simp only [Char.isDigit, Bool.and_eq_true, decide_eq_true_eq] at h
  have hLower : 48 ≤ c.toNat := UInt32.le_iff_toNat_le.1 h.1
  have hUpper : c.toNat ≤ 57 := UInt32.le_iff_toNat_le.1 h.2
  simp [isBlank, blankRanges]
  omega

end ContractDoc.Text

import ContractDoc.Proofs.Text.Numeral
import ContractDoc.Xml.Reference

/-! # What references stand for

Decoding succeeds exactly on texts in which every `&` begins a reference that stands for a
character. The relation between such a text and the characters it stands for makes no use of
positions, and texts that are decoded apart can be decoded together.
-/

namespace ContractDoc.Xml.Reference

open Text (Radix)

/-- The body of a reference and the character it stands for. -/
inductive StandsFor : List Char → Char → Prop
  | named {name : List Char} {c : Char} : (name, c) ∈ named → StandsFor name c
  | decimal {digits : List Char} {c : Char} :
      Radix.decimal.Denotes digits c.toNat → c ≠ '\x00' → StandsFor ('#' :: digits) c
  | hexadecimal {digits : List Char} {c : Char} :
      Radix.hexadecimal.Denotes digits c.toNat → c ≠ '\x00' → StandsFor ('#' :: 'x' :: digits) c

namespace StandsFor

theorem amp : StandsFor ['a', 'm', 'p'] '&' := .named (by decide)

theorem lt : StandsFor ['l', 't'] '<' := .named (by decide)

theorem quot : StandsFor ['q', 'u', 'o', 't'] '"' := .named (by decide)

end StandsFor

/-- A text and the characters it stands for. -/
inductive Decodes : List Char → List Char → Prop
  | nil : Decodes [] []
  | plain {c : Char} {text cs : List Char} :
      c ≠ '&' → Decodes text cs → Decodes (c :: text) (c :: cs)
  | reference {body text cs : List Char} {c : Char} :
      StandsFor body c → Decodes text cs → Decodes ('&' :: (body ++ ';' :: text)) (c :: cs)

theorem scalar_eq_ok_iff {code : Nat} {c : Char} :
    scalar code = .ok c ↔ code = c.toNat ∧ c ≠ '\x00' := by
  by_cases hZero : code = 0
  · rw [scalar, if_pos hZero]
    constructor
    · rintro ⟨⟩
    · rintro ⟨hCode, hNull⟩
      have hSame : c.toNat = '\x00'.toNat := by
        rw [← hCode, hZero]
        rfl
      exact absurd (Char.toNat_inj.1 hSame) hNull
  · by_cases hValid : code.isValidChar
    · rw [scalar, if_neg hZero, dif_pos hValid, Except.ok.injEq]
      constructor
      · rintro rfl
        exact ⟨rfl, fun hNull => hZero (congrArg Char.toNat hNull)⟩
      · rintro ⟨rfl, -⟩
        rfl
    · rw [scalar, if_neg hZero, dif_neg hValid]
      constructor
      · rintro ⟨⟩
      · rintro ⟨rfl, -⟩
        exact absurd c.valid hValid

def nonDigits : List Char := ['+', '-', '&', ';', '<', '"', '\'']

theorem digit?_eq_none (radix : Radix) {c : Char} (h : c ∈ nonDigits) : radix.digit? c = none := by
  revert h c
  cases radix <;> decide

theorem not_mem_nonDigits {radix : Radix} {c : Char} (h : (radix.digit? c).isSome) :
    c ∉ nonDigits := by
  intro hMem
  rw [digit?_eq_none radix hMem] at h
  cases h

theorem toNat_lt_codeBound (c : Char) : c.toNat < codeBound := c.val.toNat_lt

theorem numbered_eq_ok_iff {radix : Radix} {digits : List Char} {c : Char} :
    numbered radix digits = .ok c ↔ radix.Denotes digits c.toNat ∧ c ≠ '\x00' := by
  unfold numbered
  split
  · next hSign =>
      simp only [reduceCtorEq, false_iff, not_and]
      intro hDenotes
      rcases hSign with hSign | hSign
      · have := hDenotes.isDigit _ (List.mem_of_mem_head? hSign)
        exact absurd (by decide) (not_mem_nonDigits this)
      · have := hDenotes.isDigit _ (List.mem_of_mem_head? hSign)
        exact absurd (by decide) (not_mem_nonDigits this)
  · constructor
    · intro h
      split at h
      · simp at h
      · next code hRead =>
          obtain ⟨rfl, hNull⟩ := scalar_eq_ok_iff.1 h
          exact ⟨((Radix.read_eq_ok_iff (by decide)).1 hRead).1, hNull⟩
    · rintro ⟨hDenotes, hNull⟩
      rw [(Radix.read_eq_ok_iff (by decide)).2 ⟨hDenotes, toNat_lt_codeBound c⟩]
      exact scalar_eq_ok_iff.2 ⟨rfl, hNull⟩

/-- A reference has a value exactly if it stands for a character. -/
theorem value_eq_ok_iff {start : Nat} {body : List Char} {c : Char} :
    value start body = .ok c ↔ StandsFor body c := by
  constructor
  · intro h
    unfold value at h
    split at h
    · exact .hexadecimal (numbered_eq_ok_iff.1 h).1 (numbered_eq_ok_iff.1 h).2
    · exact .decimal (numbered_eq_ok_iff.1 h).1 (numbered_eq_ok_iff.1 h).2
    · split at h
      · next d hLookup =>
          obtain rfl := Except.ok.inj h
          obtain ⟨before, after, hNamed, -⟩ := List.lookup_eq_some_iff.1 hLookup
          exact .named (by rw [hNamed]; simp)
      · simp at h
  · intro h
    cases h with
    | named hName =>
        simp only [named, List.mem_cons, Prod.mk.injEq, List.not_mem_nil, or_false] at hName
        rcases hName with ⟨rfl, rfl⟩ | ⟨rfl, rfl⟩ | ⟨rfl, rfl⟩ | ⟨rfl, rfl⟩ | ⟨rfl, rfl⟩ <;> rfl
    | @decimal digits _ hDenotes hNull =>
        -- A decimal numeral does not begin with the letter that marks a hexadecimal one.
        have hHead : ∀ more, digits ≠ 'x' :: more := by
          rintro more rfl
          simpa [Radix.digit?] using hDenotes.isDigit 'x' List.mem_cons_self
        unfold value
        split
        · next more hBody => exact absurd (List.cons.inj hBody).2 (hHead more)
        · next more _ hBody =>
            obtain ⟨-, rfl⟩ := List.cons.inj hBody
            exact numbered_eq_ok_iff.2 ⟨hDenotes, hNull⟩
        · next _ hBody => exact absurd rfl (hBody digits)
    | hexadecimal hDenotes hNull =>
        rw [value]
        exact numbered_eq_ok_iff.2 ⟨hDenotes, hNull⟩

/-- No character that could end a text or a reference early stands in a reference. -/
theorem StandsFor.not_mem_nonDigits {body : List Char} {c : Char} (h : StandsFor body c) :
    ∀ d ∈ body, d ∉ nonDigits := by
  intro d hd
  cases h with
  | named hName =>
      have hNames : ∀ entry ∈ Reference.named, ∀ d ∈ entry.1, d ∉ nonDigits := by decide
      exact hNames _ hName d hd
  | decimal hDenotes =>
      rcases List.mem_cons.1 hd with rfl | hd
      · decide
      · exact Reference.not_mem_nonDigits (hDenotes.isDigit d hd)
  | hexadecimal hDenotes =>
      rcases List.mem_cons.1 hd with rfl | hd
      · decide
      · rcases List.mem_cons.1 hd with rfl | hd
        · decide
        · exact Reference.not_mem_nonDigits (hDenotes.isDigit d hd)

theorem StandsFor.not_isBodyEnd {body : List Char} {c : Char} (h : StandsFor body c) :
    ∀ d ∈ body, (!isBodyEnd d) = true := by
  intro d hd
  have hNone := h.not_mem_nonDigits d hd
  simp only [nonDigits, List.mem_cons, List.not_mem_nil, or_false, not_or] at hNone
  obtain ⟨-, -, hAmp, hSemicolon, -⟩ := hNone
  simp [isBodyEnd, hAmp, hSemicolon]

theorem Decodes.append {x y cs ds : List Char} (hx : Decodes x cs) (hy : Decodes y ds) :
    Decodes (x ++ y) (cs ++ ds) := by
  induction hx with
  | nil => exact hy
  | plain hc _ ih => exact .plain hc ih
  | reference hBody _ ih => simpa using Decodes.reference hBody ih

theorem decodeFrom_of_decodes {text cs : List Char} (h : Decodes text cs)
    (total position : Nat) (done : List Char) :
    decodeFrom total position done text = .ok (done.reverse ++ cs) := by
  induction h generalizing position done with
  | nil => simp [decodeFrom]
  | plain hc _ ih => simp [decodeFrom, hc, ih]
  | @reference body text cs c hBody _ ih =>
      have hTake : (body ++ ';' :: text).takeWhile (fun d => !isBodyEnd d) = body := by
        rw [List.takeWhile_append_of_pos hBody.not_isBodyEnd,
          List.takeWhile_cons_of_neg (by decide), List.append_nil]
      have hDrop : (body ++ ';' :: text).dropWhile (fun d => !isBodyEnd d) = ';' :: text := by
        rw [List.dropWhile_append_of_pos hBody.not_isBodyEnd,
          List.dropWhile_cons_of_neg (by decide)]
      rw [decodeFrom, if_pos rfl]
      dsimp only
      rw [hTake]
      split
      · next rest hRest =>
          rw [hDrop] at hRest
          obtain ⟨-, rfl⟩ := List.cons.inj hRest
          rw [value_eq_ok_iff.2 hBody]
          dsimp only
          rw [ih]
          simp
      · next hRest => exact absurd hDrop (hRest text)

theorem decodes_of_decodeFrom {total position : Nat} {done text out : List Char}
    (h : decodeFrom total position done text = .ok out) :
    ∃ cs, Decodes text cs ∧ out = done.reverse ++ cs := by
  fun_induction decodeFrom total position done text with
  | case1 => exact ⟨[], .nil, by simpa using h.symm⟩
  | case2 => simp at h
  | case3 position done cs body rest hRest decoded hValue ih =>
      obtain ⟨more, hMore, rfl⟩ := ih h
      have hText : cs = body ++ ';' :: rest := by
        rw [← hRest]
        exact List.takeWhile_append_dropWhile.symm
      refine ⟨decoded :: more, ?_, by simp⟩
      rw [hText]
      exact .reference (value_eq_ok_iff.1 hValue) hMore
  | case4 => simp at h
  | case5 position done c cs hc ih =>
      obtain ⟨more, hMore, rfl⟩ := ih h
      exact ⟨c :: more, .plain hc hMore, by simp⟩

/-- Decoding succeeds exactly on the texts whose references stand for characters. -/
theorem decode_eq_ok_iff {text cs : List Char} : decode text = .ok cs ↔ Decodes text cs := by
  constructor
  · intro h
    obtain ⟨ds, hDecodes, rfl⟩ := decodes_of_decodeFrom h
    exact hDecodes
  · exact fun h => decodeFrom_of_decodes h _ _ _

end ContractDoc.Xml.Reference

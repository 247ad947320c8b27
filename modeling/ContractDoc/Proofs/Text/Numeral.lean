import ContractDoc.Json
import ContractDoc.Proofs.Text.Blank
import ContractDoc.Text.Numeral
import Mathlib.Data.Nat.Digits.Defs

/-! # The numbers that numerals denote

Reading a numeral below a bound succeeds exactly on one or more digits whose value is below the
bound. The value grows with every digit, so checking each step is the same as checking the end, and
in the end it is the number that the places of the digits give them.
Signed numerals are read exactly when their value fits in 32 bits, and the decimal texts of integers
are read back as the integers.
-/

namespace ContractDoc.Text

namespace Radix

/-- The value of a numeral with one more digit; a character that is no digit counts as zero. -/
def extend (radix : Radix) (value : Nat) (c : Char) : Nat :=
  value * radix.base + (radix.digit? c).getD 0

def valueOf (radix : Radix) (digits : List Char) : Nat := digits.foldl radix.extend 0

/-- One or more digits that are worth `value`. -/
structure Denotes (radix : Radix) (digits : List Char) (value : Nat) : Prop where
  nonempty : digits ≠ []
  isDigit : ∀ c ∈ digits, (radix.digit? c).isSome
  value : radix.valueOf digits = value

theorem le_extend (radix : Radix) (value : Nat) (c : Char) : value ≤ radix.extend value c := by
  have hBase : 1 ≤ radix.base := by cases radix <;> decide
  have := Nat.le_mul_of_pos_right value hBase
  simp only [extend]
  omega

theorem le_foldl_extend (radix : Radix) (value : Nat) (digits : List Char) :
    value ≤ digits.foldl radix.extend value := by
  induction digits generalizing value with
  | nil => exact Nat.le_refl value
  | cons c cs ih => exact Nat.le_trans (le_extend radix value c) (ih _)

theorem readFrom_eq_ok_iff {radix : Radix} {bound value number : Nat} {digits : List Char}
    (h : value < bound) :
    radix.readFrom bound value digits = .ok number ↔
      (∀ c ∈ digits, (radix.digit? c).isSome) ∧
        digits.foldl radix.extend value = number ∧ number < bound := by
  induction digits generalizing value with
  | nil =>
      simp only [readFrom, Except.ok.injEq, List.not_mem_nil, false_implies, implies_true,
        List.foldl_nil, true_and]
      exact ⟨fun hEq => ⟨hEq, hEq ▸ h⟩, And.left⟩
  | cons c cs ih =>
      cases hDigit : radix.digit? c with
      | none => simp [readFrom, hDigit]
      | some digit =>
          have hExtend : radix.extend value c = value * radix.base + digit := by
            simp [extend, hDigit]
          rw [List.foldl_cons, hExtend]
          by_cases hNext : value * radix.base + digit < bound
          · simp [readFrom, hDigit, hNext, ih]
          · have := le_foldl_extend radix (value * radix.base + digit) cs
            simp only [readFrom, hDigit, hNext, ↓reduceIte, reduceCtorEq, false_iff, not_and]
            rintro - rfl
            omega

theorem read_eq_ok_iff {radix : Radix} {bound number : Nat} {digits : List Char}
    (h : 0 < bound) :
    radix.read bound digits = .ok number ↔ radix.Denotes digits number ∧ number < bound := by
  unfold read
  split
  · next hEmpty =>
      simp only [reduceCtorEq, false_iff, not_and]
      exact fun hDenotes => absurd (List.isEmpty_iff.1 hEmpty) hDenotes.nonempty
  · next hEmpty =>
      rw [readFrom_eq_ok_iff h]
      constructor
      · rintro ⟨hDigits, hValue, hBound⟩
        exact ⟨⟨fun hNil => hEmpty (List.isEmpty_iff.2 hNil), hDigits, hValue⟩, hBound⟩
      · rintro ⟨⟨_, hDigits, hValue⟩, hBound⟩
        exact ⟨hDigits, hValue, hBound⟩

end Radix

/-- What holds of the first 128 characters holds of every ASCII character. -/
theorem of_ascii {p : Char → Prop} (hAll : ∀ n < 128, p (Char.ofNat n)) {c : Char}
    (h : c.toNat < 128) : p c := by
  rw [← Char.ofNat_toNat c]
  exact hAll c.toNat h

theorem toLower_eq_self {c : Char} (h : 128 ≤ c.toNat) : c.toLower = c := by
  have hUpper : ¬ (c.val ≥ 'A'.val ∧ c.val ≤ 'Z'.val) := by
    rintro ⟨-, hZ⟩
    have : c.toNat ≤ 90 := UInt32.le_iff_toNat_le.1 hZ
    omega
  exact dif_neg hUpper

namespace Radix

def decimalDigits : List Char := ['0', '1', '2', '3', '4', '5', '6', '7', '8', '9']

/-- The digits in the order of their values, letters in lower case. -/
def alphabet : Radix → List Char
  | decimal => decimalDigits
  | hexadecimal => decimalDigits ++ ['a', 'b', 'c', 'd', 'e', 'f']

/-- One or more digits, letters in either case, and the number that their places give them. -/
structure Writes (radix : Radix) (digits : List Char) (value : Nat) : Prop where
  nonempty : digits ≠ []
  isDigit : ∀ c ∈ digits, c.toLower ∈ radix.alphabet
  value : Nat.ofDigits radix.alphabet.length
    (digits.reverse.map fun c => radix.alphabet.idxOf c.toLower) = value

theorem length_alphabet (radix : Radix) : radix.alphabet.length = radix.base := by
  cases radix <;> rfl

theorem lt_of_mem_alphabet {radix : Radix} {c : Char} (h : c ∈ radix.alphabet) : c.toNat < 128 := by
  revert c
  cases radix <;> decide

theorem digit?_of_le {radix : Radix} {c : Char} (h : 128 ≤ c.toNat) : radix.digit? c = none := by
  have hAbove : ∀ d : Char, d.toNat < 128 → ¬ c ≤ d := by
    intro d hd hle
    have : c.toNat ≤ d.toNat := UInt32.le_iff_toNat_le.1 hle
    omega
  have hNine := hAbove '9' (by decide)
  have hLower := hAbove 'f' (by decide)
  have hUpper := hAbove 'F' (by decide)
  cases radix <;> simp [digit?, hNine, hLower, hUpper]

theorem digit?_eq (radix : Radix) (c : Char) :
    radix.digit? c =
      if c.toLower ∈ radix.alphabet then some (radix.alphabet.idxOf c.toLower) else none := by
  rcases Nat.lt_or_ge c.toNat 128 with h | h
  · refine of_ascii (p := fun c => radix.digit? c = if c.toLower ∈ radix.alphabet then
        some (radix.alphabet.idxOf c.toLower) else none) ?_ h
    cases radix <;> decide +kernel
  · have hOther : c ∉ radix.alphabet := by
      intro hMem
      have := lt_of_mem_alphabet hMem
      omega
    rw [toLower_eq_self h, if_neg hOther, digit?_of_le h]

theorem isSome_digit?_iff {radix : Radix} {c : Char} :
    (radix.digit? c).isSome ↔ c.toLower ∈ radix.alphabet := by
  rw [digit?_eq]
  split <;> simp_all

theorem valueOf_eq_ofDigits {radix : Radix} {digits : List Char}
    (h : ∀ c ∈ digits, c.toLower ∈ radix.alphabet) :
    radix.valueOf digits =
      Nat.ofDigits radix.base (digits.reverse.map fun c => radix.alphabet.idxOf c.toLower) := by
  induction digits using List.reverseRecOn with
  | nil => rfl
  | append_singleton front last ih =>
      have hFront := ih fun c hc => h c (List.mem_append_left _ hc)
      have hLast : radix.digit? last = some (radix.alphabet.idxOf last.toLower) := by
        rw [digit?_eq, if_pos (h last (by simp))]
      rw [valueOf] at hFront
      rw [valueOf, List.foldl_append, hFront, List.foldl_cons, List.foldl_nil, extend, hLast]
      simp [Nat.ofDigits_cons, Nat.mul_comm, Nat.add_comm]

/-- What is read digit by digit is the number that the digits write. -/
theorem denotes_iff_writes {radix : Radix} {digits : List Char} {value : Nat} :
    radix.Denotes digits value ↔ radix.Writes digits value := by
  constructor
  · rintro ⟨hNonempty, hDigits, rfl⟩
    have hAll : ∀ c ∈ digits, c.toLower ∈ radix.alphabet :=
      fun c hc => isSome_digit?_iff.1 (hDigits c hc)
    exact ⟨hNonempty, hAll, by rw [length_alphabet, valueOf_eq_ofDigits hAll]⟩
  · rintro ⟨hNonempty, hDigits, rfl⟩
    refine ⟨hNonempty, fun c hc => isSome_digit?_iff.2 (hDigits c hc), ?_⟩
    rw [length_alphabet, valueOf_eq_ofDigits hDigits]

end Radix

/-- Decimal digits after at most one sign, and the integer that they denote. -/
inductive Signed : List Char → Int → Prop
  | bare {digits : List Char} {value : Nat} (h : Radix.decimal.Denotes digits value) :
      Signed digits value
  | plus {digits : List Char} {value : Nat} (h : Radix.decimal.Denotes digits value) :
      Signed ('+' :: digits) value
  | minus {digits : List Char} {value : Nat} (h : Radix.decimal.Denotes digits value) :
      Signed ('-' :: digits) (-value)

/-- A signed numeral whose value fits in 32 bits. -/
def IsInt32 (text : String) : Prop :=
  ∃ value, Signed text.toList value ∧ -2147483648 ≤ value ∧ value ≤ 2147483647

theorem foldlM_digits_eq_some_iff {digits : List Char} {start value : Nat} :
    digits.foldlM (fun value c => (Radix.decimal.digit? c).map (value * 10 + ·)) start =
        some value ↔
      (∀ c ∈ digits, (Radix.decimal.digit? c).isSome) ∧
        digits.foldl Radix.decimal.extend start = value := by
  induction digits generalizing start with
  | nil => simp
  | cons c cs ih =>
      rw [List.foldlM_cons, List.foldl_cons, List.forall_mem_cons]
      cases hDigit : Radix.decimal.digit? c with
      | none => simp
      | some digit =>
          have hExtend : Radix.decimal.extend start c = start * 10 + digit := by
            simp [Radix.extend, Radix.base, hDigit]
          simp [hExtend, ih]

theorem natural?_eq_some_iff {digits : List Char} {value : Nat} :
    natural? digits = some value ↔ Radix.decimal.Denotes digits value := by
  unfold natural?
  split
  · next hEmpty =>
      simp only [reduceCtorEq, false_iff]
      exact fun hDenotes => hDenotes.nonempty (List.isEmpty_iff.1 hEmpty)
  · next hEmpty =>
      rw [foldlM_digits_eq_some_iff]
      constructor
      · rintro ⟨hDigits, hValue⟩
        exact ⟨fun hNil => hEmpty (List.isEmpty_iff.2 hNil), hDigits, hValue⟩
      · exact fun hDenotes => ⟨hDenotes.isDigit, hDenotes.value⟩

theorem integer?_eq_some_iff {cs : List Char} {value : Int} :
    integer? cs = some value ↔ Signed cs value := by
  constructor
  · intro h
    unfold integer? at h
    split at h
    all_goals
      obtain ⟨magnitude, hMagnitude, rfl⟩ := Option.map_eq_some_iff.1 h
      have hDenotes := natural?_eq_some_iff.1 hMagnitude
    · exact .plus hDenotes
    · exact .minus hDenotes
    · exact .bare hDenotes
  · intro h
    cases h with
    | @bare _ magnitude hDenotes =>
        -- a sign is no digit, so digits alone are not taken for a signed numeral
        have hHead : ∀ c rest, cs = c :: rest → (Radix.decimal.digit? c).isSome := by
          rintro c rest rfl
          exact hDenotes.isDigit c List.mem_cons_self
        unfold integer?
        split
        · next rest => exact absurd (hHead '+' rest rfl) (by decide)
        · next rest => exact absurd (hHead '-' rest rfl) (by decide)
        · rw [natural?_eq_some_iff.2 hDenotes]
          rfl
    | plus hDenotes | minus hDenotes =>
        rw [integer?, natural?_eq_some_iff.2 hDenotes]
        rfl

theorem isSome_int32?_iff {text : String} : (int32? text).isSome ↔ IsInt32 text := by
  rw [int32?, IsInt32]
  cases hValue : integer? text.toList with
  | none =>
      simp only [Option.bind_none, Option.isSome_none, Bool.false_eq_true, false_iff, not_exists,
        not_and]
      intro value hSigned
      rw [integer?_eq_some_iff.2 hSigned] at hValue
      cases hValue
  | some value =>
      have hSigned : ∀ other, Signed text.toList other ↔ value = other := fun other => by
        rw [← integer?_eq_some_iff, hValue, Option.some_inj]
      simp only [hSigned, exists_eq_left', Option.bind_some]
      split <;> simp_all

/-- Decimal digits after at most one sign, and the integer that the places of the digits give. -/
inductive WritesInteger : List Char → Int → Prop
  | bare {digits : List Char} {value : Nat} (h : Radix.decimal.Writes digits value) :
      WritesInteger digits value
  | plus {digits : List Char} {value : Nat} (h : Radix.decimal.Writes digits value) :
      WritesInteger ('+' :: digits) value
  | minus {digits : List Char} {value : Nat} (h : Radix.decimal.Writes digits value) :
      WritesInteger ('-' :: digits) (-value)

theorem signed_iff_writesInteger {cs : List Char} {value : Int} :
    Signed cs value ↔ WritesInteger cs value := by
  constructor
  · rintro (h | h | h)
    · exact .bare (Radix.denotes_iff_writes.1 h)
    · exact .plus (Radix.denotes_iff_writes.1 h)
    · exact .minus (Radix.denotes_iff_writes.1 h)
  · rintro (h | h | h)
    · exact .bare (Radix.denotes_iff_writes.2 h)
    · exact .plus (Radix.denotes_iff_writes.2 h)
    · exact .minus (Radix.denotes_iff_writes.2 h)

/-- What is read is the integer that is written, and an integer that does not fit is not read. -/
theorem int32?_eq_some_iff {text : String} {n : Int32} :
    int32? text = some n ↔ ∃ value, WritesInteger text.toList value ∧
      -2147483648 ≤ value ∧ value ≤ 2147483647 ∧ n.toInt = value := by
  simp only [int32?, Option.bind_eq_some_iff, integer?_eq_some_iff, signed_iff_writesInteger]
  constructor
  · rintro ⟨value, hWrites, hValue⟩
    obtain ⟨⟨hLower, hUpper⟩, rfl⟩ := by simpa using hValue
    exact ⟨value, hWrites, hLower, hUpper, Int32.toInt_ofInt_of_le hLower (by omega)⟩
  · rintro ⟨value, hWrites, hLower, hUpper, rfl⟩
    exact ⟨n.toInt, hWrites, by rw [if_pos ⟨hLower, hUpper⟩, Int32.ofInt_toInt]⟩

theorem digit?_digitChar {n : Nat} (h : n < 10) :
    Radix.decimal.digit? (Nat.digitChar n) = some n := by
  revert n
  decide

theorem foldlM_toDigits (n : Nat) :
    (Nat.toDigits 10 n).foldlM
      (fun value c => (Radix.decimal.digit? c).map (value * 10 + ·)) 0 = some n := by
  induction n using Nat.strongRecOn with
  | ind n ih =>
      rw [Nat.toDigits_eq_if (by decide)]
      split
      · next h => simp [digit?_digitChar h]
      · next h =>
          have hDiv : n / 10 < n := Nat.div_lt_self (by omega) (by decide)
          have hMod : n % 10 < 10 := Nat.mod_lt n (by decide)
          rw [List.foldlM_append, ih (n / 10) hDiv]
          simp only [Option.bind_eq_bind, Option.bind_some, List.foldlM_cons, List.foldlM_nil,
            digit?_digitChar hMod, Option.map_some, Option.pure_def, Option.some.injEq]
          omega

theorem natural?_toDigits (n : Nat) : natural? (Nat.toDigits 10 n) = some n := by
  rw [natural?, if_neg]
  · exact foldlM_toDigits n
  · exact fun hEmpty => Nat.toDigits_ne_nil (List.isEmpty_iff.1 hEmpty)

theorem integer?_numberChars (n : Int) : integer? (Json.numberChars n) = some n := by
  cases n with
  | ofNat value =>
      have hSign : ∀ c ∈ ['+', '-'], c ∉ Nat.toDigits 10 value := by
        intro c hc hMem
        have hDigit := Nat.isDigit_of_mem_toDigits (by decide) (by decide) hMem
        have hNone : ∀ d ∈ ['+', '-'], d.isDigit = false := by decide
        rw [hNone c hc] at hDigit
        cases hDigit
      have hDigits : Json.numberChars (Int.ofNat value) = Nat.toDigits 10 value := rfl
      unfold integer?
      split
      · next digits h =>
          rw [hDigits] at h
          exact absurd (h ▸ List.mem_cons_self) (hSign '+' (by decide))
      · next digits h =>
          rw [hDigits] at h
          exact absurd (h ▸ List.mem_cons_self) (hSign '-' (by decide))
      · rw [hDigits, natural?_toDigits]
        rfl
  | negSucc value =>
      have hDigits : Json.numberChars (Int.negSucc value) = '-' :: Nat.toDigits 10 (value + 1) :=
        rfl
      rw [hDigits, integer?, natural?_toDigits]
      rfl

theorem toList_toString_int (n : Int) : (toString n).toList = Json.numberChars n := by
  cases n with
  | ofNat value =>
      change (Nat.repr value).toList = _
      rw [Nat.repr, String.toList_ofList]
      rfl
  | negSucc value =>
      change ("-" ++ Nat.repr (value + 1)).toList = _
      rw [String.toList_append, Nat.repr, String.toList_ofList, String.toList_ofList]
      rfl

theorem hasNoBlank_numberChars (n : Int) : HasNoBlank (String.ofList (Json.numberChars n)) := by
  intro c hc
  rw [String.toList_ofList] at hc
  have hDigits : ∀ value, c ∈ Nat.toDigits 10 value → isBlank c = false := fun value hMem =>
    isBlank_of_isDigit (Nat.isDigit_of_mem_toDigits (by decide) (by decide) hMem)
  cases n with
  | ofNat value => exact hDigits value hc
  | negSucc value =>
      rcases List.mem_cons.1 hc with rfl | hc
      · decide
      · exact hDigits (value + 1) hc

/-- The decimal text of a 32-bit integer is read back as the integer. -/
theorem int32?_numberChars (n : Int32) :
    int32? (String.ofList (Json.numberChars n.toInt)) = some n := by
  have hLower := n.le_toInt
  have hUpper := n.toInt_lt
  rw [int32?, String.toList_ofList, integer?_numberChars, Option.bind_some, if_pos (by omega),
    Int32.ofInt_toInt]

end ContractDoc.Text

import ContractDoc.Proofs.Text.Numeral
import Mathlib.Data.List.TakeWhile

/-! # JSON texts determine values

The text of a value can be told apart from whatever comes after it: a string ends at the first
quotation mark that is not escaped, a number at the first character that is no digit, and arrays and
objects at their brackets. So no two values have the same text.
-/

namespace ContractDoc.Json

open Text (Radix)

/-- The characters that are escaped by a letter, under their letters. -/
def escapes : List (Char × Char) :=
  [('"', '"'), ('\\', '\\'), ('b', '\x08'), ('f', '\x0c'), ('n', '\n'), ('r', '\r'), ('t', '\t')]

/-- Reads one character between quotation marks; there is none at a quotation mark. -/
def readChar? : List Char → Option (Char × List Char)
  | '\\' :: 'u' :: '0' :: '0' :: high :: low :: rest => do
      let high ← Radix.hexadecimal.digit? high
      let low ← Radix.hexadecimal.digit? low
      return (Char.ofNat (16 * high + low), rest)
  | '\\' :: letter :: rest => (escapes.lookup letter).map (·, rest)
  | '"' :: _ => none
  | c :: rest => some (c, rest)
  | [] => none

theorem digit?_digitChar_hexadecimal {n : Nat} (h : n < 16) :
    Radix.hexadecimal.digit? (Nat.digitChar n) = some n := by
  revert n
  decide

theorem readChar?_hexEscape {c : Char} (h : c.toNat < 0x20) (rest : List Char) :
    readChar? (hexEscape c ++ rest) = some (c, rest) := by
  have hHigh : c.toNat / 16 < 16 := by omega
  have hLow : c.toNat % 16 < 16 := by omega
  have hValue : 16 * (c.toNat / 16) + c.toNat % 16 = c.toNat := by omega
  simp only [hexEscape, List.cons_append, List.nil_append, readChar?,
    digit?_digitChar_hexadecimal hHigh, digit?_digitChar_hexadecimal hLow]
  simp [hValue]

theorem escapeChar_of_named {c letter : Char} (h : (letter, c) ∈ escapes) :
    escapeChar c = ['\\', letter] := by
  simp only [escapes, List.mem_cons, Prod.mk.injEq, List.not_mem_nil, or_false] at h
  rcases h with ⟨rfl, rfl⟩ | ⟨rfl, rfl⟩ | ⟨rfl, rfl⟩ | ⟨rfl, rfl⟩ | ⟨rfl, rfl⟩ | ⟨rfl, rfl⟩ |
    ⟨rfl, rfl⟩ <;> rfl

theorem escapeChar_of_unnamed {c : Char} (h : c ∉ escapes.map Prod.snd) :
    escapeChar c = if c.toNat < 0x20 then hexEscape c else [c] := by
  simp only [escapes, List.map_cons, List.map_nil, List.mem_cons, List.not_mem_nil,
    or_false, not_or] at h
  obtain ⟨hQuote, hBackslash, hBack, hFeed, hLine, hReturn, hTab⟩ := h
  rw [escapeChar, if_neg hQuote, if_neg hBackslash, if_neg hBack, if_neg hFeed, if_neg hLine,
    if_neg hReturn, if_neg hTab]

theorem readChar?_escapeChar (c : Char) (rest : List Char) :
    readChar? (escapeChar c ++ rest) = some (c, rest) := by
  by_cases hNamed : c ∈ escapes.map Prod.snd
  · simp only [escapes, List.map_cons, List.map_nil, List.mem_cons, List.not_mem_nil,
      or_false] at hNamed
    rcases hNamed with rfl | rfl | rfl | rfl | rfl | rfl | rfl <;> rfl
  · rw [escapeChar_of_unnamed hNamed]
    split
    · next hControl => exact readChar?_hexEscape hControl rest
    · simp only [escapes, List.map_cons, List.map_nil, List.mem_cons, List.not_mem_nil,
        or_false, not_or] at hNamed
      rw [List.singleton_append]
      unfold readChar?
      split <;> simp_all

theorem flatMap_escapeChar_append_inj {rest rest' : List Char} : (cs ds : List Char) →
    cs.flatMap escapeChar ++ '"' :: rest = ds.flatMap escapeChar ++ '"' :: rest' →
      cs = ds ∧ rest = rest'
  | [], [], h => ⟨rfl, (List.cons.inj h).2⟩
  | [], d :: ds, h => by
      have hRead := congrArg readChar? h
      rw [List.flatMap_cons, List.append_assoc, readChar?_escapeChar] at hRead
      cases hRead
  | c :: cs, [], h => by
      have hRead := congrArg readChar? h
      rw [List.flatMap_cons, List.append_assoc, readChar?_escapeChar] at hRead
      cases hRead
  | c :: cs, d :: ds, h => by
      have hRead := congrArg readChar? h
      rw [List.flatMap_cons, List.flatMap_cons, List.append_assoc, List.append_assoc,
        readChar?_escapeChar, readChar?_escapeChar, Option.some_inj, Prod.mk.injEq] at hRead
      obtain ⟨rfl, hRest⟩ := hRead
      obtain ⟨rfl, hEnd⟩ := flatMap_escapeChar_append_inj cs ds hRest
      exact ⟨rfl, hEnd⟩

theorem stringChars_append_inj {a b : String} {rest rest' : List Char}
    (h : stringChars a ++ rest = stringChars b ++ rest') : a = b ∧ rest = rest' := by
  simp only [stringChars, List.cons_append, List.append_assoc, List.nil_append, List.cons.injEq,
    true_and] at h
  obtain ⟨hChars, hRest⟩ := flatMap_escapeChar_append_inj _ _ h
  exact ⟨String.toList_inj.1 hChars, hRest⟩

/-- What may come after a value: nothing, a comma or a line break. -/
def Follows (rest : List Char) : Prop := ∀ c ∈ rest.head?, c = ',' ∨ c = '\n'

def isNumberChar (c : Char) : Bool := c.isDigit || c == '-'

theorem isNumberChar_of_mem {n : Int} {c : Char} (h : c ∈ numberChars n) :
    isNumberChar c = true := by
  have hDigit : ∀ value, c ∈ Nat.toDigits 10 value → isNumberChar c = true := fun value hMem => by
    rw [isNumberChar, Nat.isDigit_of_mem_toDigits (by decide) (by decide) hMem, Bool.true_or]
  cases n with
  | ofNat value => exact hDigit value h
  | negSucc value =>
      rcases List.mem_cons.1 h with rfl | h
      · rfl
      · exact hDigit (value + 1) h

theorem takeWhile_numberChars_append {n : Int} {rest : List Char} (h : Follows rest) :
    (numberChars n ++ rest).takeWhile isNumberChar = numberChars n := by
  have hRest : rest.takeWhile isNumberChar = [] := by
    cases rest with
    | nil => rfl
    | cons c cs =>
        rw [List.takeWhile_cons_of_neg]
        rcases h c rfl with rfl | rfl <;> decide
  rw [List.takeWhile_append_of_pos fun c hc => isNumberChar_of_mem hc, hRest, List.append_nil]

theorem numberChars_append_inj {m n : Int} {rest rest' : List Char} (hRest : Follows rest)
    (hRest' : Follows rest') (h : numberChars m ++ rest = numberChars n ++ rest') :
    m = n ∧ rest = rest' := by
  have hChars : numberChars m = numberChars n := by
    rw [← takeWhile_numberChars_append hRest, h, takeWhile_numberChars_append hRest']
  have hValue : m = n := by
    rw [← Option.some_inj, ← Text.integer?_numberChars, hChars, Text.integer?_numberChars]
  subst hValue
  exact ⟨rfl, List.append_cancel_left h⟩

section

variable {α : Type}

/-- The text of an item can be told apart from what may come after it. -/
def Delimited (write : α → List Char) (item : α) : Prop :=
  ∀ other rest rest', Follows rest → Follows rest' → write item ++ rest = write other ++ rest' →
    item = other ∧ rest = rest'

/-- The items after the first one, each with the comma before it. -/
def separated (level : Nat) (write : α → List Char) (items : List α) : List Char :=
  items.flatMap fun item => ',' :: lineBreak level ++ write item

/-- Items between brackets, on a level of their own. -/
def bracketed (opening closing : Char) (level : Nat) (write : α → List Char) :
    List α → List Char
  | [] => [opening, closing]
  | item :: items =>
      opening :: lineBreak (level + 1) ++ write item ++ separated (level + 1) write items ++
        lineBreak level ++ [closing]

variable {level : Nat} {write : α → List Char} {items others : List α} {rest rest' : List Char}

theorem follows_separated (items : List α) (rest : List Char) :
    Follows (separated level write items ++ '\n' :: rest) := by
  intro c hc
  cases items with
  | nil => exact .inr (Option.some.inj hc).symm
  | cons item items => exact .inl (Option.some.inj hc).symm

theorem separated_append_inj (hItems : ∀ item ∈ items, Delimited write item)
    (h : separated level write items ++ '\n' :: rest =
      separated level write others ++ '\n' :: rest') : items = others ∧ rest = rest' := by
  induction items generalizing others with
  | nil =>
      cases others with
      | nil => exact ⟨rfl, (List.cons.inj h).2⟩
      | cons other others => exact absurd (List.cons.inj h).1 (by decide)
  | cons item items ih =>
      cases others with
      | nil => exact absurd (List.cons.inj h).1 (by decide)
      | cons other others =>
          simp only [separated, List.flatMap_cons, List.append_assoc, List.cons_append,
            List.cons.injEq, true_and, List.append_cancel_left_eq] at h
          obtain ⟨rfl, hRest⟩ := hItems item List.mem_cons_self other _ _
            (follows_separated items rest) (follows_separated others rest') h
          obtain ⟨rfl, hEnd⟩ := ih (fun item hItem => hItems item (List.mem_cons_of_mem _ hItem))
            hRest
          exact ⟨rfl, hEnd⟩

theorem bracketed_append_inj {opening closing : Char} (hClosing : closing ≠ '\n')
    (hItems : ∀ item ∈ items, Delimited write item)
    (h : bracketed opening closing level write items ++ rest =
      bracketed opening closing level write others ++ rest') : items = others ∧ rest = rest' := by
  cases items with
  | nil =>
      cases others with
      | nil => exact ⟨rfl, (List.cons.inj (List.cons.inj h).2).2⟩
      | cons other others => exact absurd (List.cons.inj (List.cons.inj h).2).1 hClosing
  | cons item items =>
      cases others with
      | nil => exact absurd (List.cons.inj (List.cons.inj h).2).1.symm hClosing
      | cons other others =>
          simp only [bracketed, lineBreak, List.append_assoc, List.cons_append, List.cons.injEq,
            true_and, List.append_cancel_left_eq] at h
          obtain ⟨rfl, hRest⟩ := hItems item List.mem_cons_self other _ _
            (follows_separated items _) (follows_separated others _) h
          obtain ⟨rfl, hEnd⟩ := separated_append_inj
            (fun item hItem => hItems item (List.mem_cons_of_mem _ hItem)) hRest
          have hLast := List.append_cancel_left hEnd
          exact ⟨rfl, (List.cons.inj hLast).2⟩

end

def fieldChars (level : Nat) (field : String × Json) : List Char :=
  stringChars field.1 ++ [':', ' '] ++ chars level field.2

theorem itemsChars_eq (level : Nat) (items : List Json) :
    itemsChars level items = separated level (chars level) items := by
  induction items with
  | nil => rfl
  | cons item items ih => rw [itemsChars, ih]; rfl

theorem fieldsChars_eq (level : Nat) (fields : List (String × Json)) :
    fieldsChars level fields = separated level (fieldChars level) fields := by
  induction fields with
  | nil => rfl
  | cons field fields ih =>
      rw [fieldsChars, ih]
      simp [separated, fieldChars]

theorem chars_array (level : Nat) (items : List Json) :
    chars level (array items) = bracketed '[' ']' level (chars (level + 1)) items := by
  cases items with
  | nil => rfl
  | cons item items => rw [chars, itemsChars_eq]; rfl

theorem chars_object (level : Nat) (fields : List (String × Json)) :
    chars level (object fields) = bracketed '{' '}' level (fieldChars (level + 1)) fields := by
  cases fields with
  | nil => rfl
  | cons field fields =>
      rw [chars, fieldsChars_eq]
      simp [bracketed, fieldChars]

theorem delimited_fieldChars {level : Nat} {field : String × Json}
    (h : Delimited (chars level) field.2) : Delimited (fieldChars level) field := by
  obtain ⟨key, value⟩ := field
  rintro ⟨otherKey, other⟩ rest rest' hRest hRest' hEq
  simp only [fieldChars, List.append_assoc, List.cons_append, List.nil_append] at hEq
  obtain ⟨rfl, hValue⟩ := stringChars_append_inj hEq
  simp only [List.cons.injEq, true_and] at hValue
  obtain ⟨rfl, hEnd⟩ := h other rest rest' hRest hRest' hValue
  exact ⟨rfl, hEnd⟩

inductive Kind
  | null
  | bool
  | number
  | string
  | array
  | object

def kind : Json → Kind
  | null => .null
  | bool _ => .bool
  | number _ => .number
  | string _ => .string
  | array _ => .array
  | object _ => .object

/-- The kind of the values whose texts begin with the character. -/
def Kind.ofChar (c : Char) : Kind :=
  if c = 'n' then .null
  else if c = 't' ∨ c = 'f' then .bool
  else if c = '"' then .string
  else if c = '[' then .array
  else if c = '{' then .object
  else .number

theorem Kind.ofChar_of_isNumberChar {c : Char} (h : isNumberChar c = true) :
    Kind.ofChar c = .number := by
  have hOther : ∀ d ∈ ['n', 't', 'f', '"', '[', '{'], isNumberChar d = false := by decide
  have hNe : ∀ d ∈ ['n', 't', 'f', '"', '[', '{'], c ≠ d := by
    rintro d hd rfl
    rw [hOther c hd] at h
    cases h
  simp [Kind.ofChar, hNe]

theorem exists_chars_eq_cons (level : Nat) (json : Json) :
    ∃ c cs, json.chars level = c :: cs ∧ Kind.ofChar c = json.kind := by
  cases json with
  | null => exact ⟨_, _, rfl, rfl⟩
  | bool value => cases value <;> exact ⟨_, _, rfl, rfl⟩
  | string text => exact ⟨_, _, rfl, rfl⟩
  | array items => cases items <;> exact ⟨_, _, rfl, rfl⟩
  | object fields => cases fields <;> exact ⟨_, _, rfl, rfl⟩
  | number value =>
      have hSome : numberChars value ≠ [] := by
        cases value with
        | ofNat value => exact Nat.toDigits_ne_nil
        | negSucc value => exact List.cons_ne_nil _ _
      obtain ⟨c, cs, hChars⟩ := List.exists_cons_of_ne_nil hSome
      have hNumber : isNumberChar c = true :=
        isNumberChar_of_mem (hChars ▸ List.mem_cons_self)
      exact ⟨c, cs, hChars, Kind.ofChar_of_isNumberChar hNumber⟩

theorem kind_eq_of_append {level : Nat} {json other : Json} {rest rest' : List Char}
    (h : json.chars level ++ rest = other.chars level ++ rest') : json.kind = other.kind := by
  obtain ⟨c, cs, hChars, hKind⟩ := exists_chars_eq_cons level json
  obtain ⟨d, ds, hChars', hKind'⟩ := exists_chars_eq_cons level other
  rw [hChars, hChars'] at h
  rw [← hKind, ← hKind', (List.cons.inj h).1]

mutual

/-- The text of a value can be told apart from what may come after it. The first character tells the
kind, so only values of the same kind are left to compare. -/
theorem delimited_chars (level : Nat) : (json : Json) → Delimited (chars level) json
  | null => fun other rest rest' _ _ h => by
      have hKind := kind_eq_of_append h
      cases other <;> cases hKind
      exact ⟨rfl, List.append_cancel_left h⟩
  | bool value => fun other rest rest' _ _ h => by
      have hKind := kind_eq_of_append h
      cases other with
      | bool other =>
          cases value <;> cases other
          · exact ⟨rfl, List.append_cancel_left h⟩
          · exact absurd (List.cons.inj h).1 (by decide)
          · exact absurd (List.cons.inj h).1 (by decide)
          · exact ⟨rfl, List.append_cancel_left h⟩
      | null | number _ | string _ | array _ | object _ => cases hKind
  | number value => fun other rest rest' hRest hRest' h => by
      have hKind := kind_eq_of_append h
      cases other with
      | number other =>
          obtain ⟨rfl, hEnd⟩ := numberChars_append_inj hRest hRest' h
          exact ⟨rfl, hEnd⟩
      | null | bool _ | string _ | array _ | object _ => cases hKind
  | string text => fun other rest rest' _ _ h => by
      have hKind := kind_eq_of_append h
      cases other with
      | string other =>
          obtain ⟨rfl, hEnd⟩ := stringChars_append_inj h
          exact ⟨rfl, hEnd⟩
      | null | bool _ | number _ | array _ | object _ => cases hKind
  | array items => fun other rest rest' _ _ h => by
      have hKind := kind_eq_of_append h
      cases other with
      | array others =>
          rw [chars_array, chars_array] at h
          obtain ⟨rfl, hEnd⟩ := bracketed_append_inj (by decide) (delimited_items _ items) h
          exact ⟨rfl, hEnd⟩
      | null | bool _ | number _ | string _ | object _ => cases hKind
  | object fields => fun other rest rest' _ _ h => by
      have hKind := kind_eq_of_append h
      cases other with
      | object others =>
          rw [chars_object, chars_object] at h
          obtain ⟨rfl, hEnd⟩ := bracketed_append_inj (by decide) (delimited_fields _ fields) h
          exact ⟨rfl, hEnd⟩
      | null | bool _ | number _ | string _ | array _ => cases hKind

theorem delimited_items (level : Nat) : (items : List Json) →
    ∀ item ∈ items, Delimited (chars level) item
  | [] => by simp
  | item :: items =>
      List.forall_mem_cons.2 ⟨delimited_chars level item, delimited_items level items⟩

theorem delimited_fields (level : Nat) : (fields : List (String × Json)) →
    ∀ field ∈ fields, Delimited (fieldChars level) field
  | [] => by simp
  | (key, value) :: fields =>
      List.forall_mem_cons.2
        ⟨delimited_fieldChars (delimited_chars level value), delimited_fields level fields⟩

end

theorem pretty_injective : Function.Injective pretty := by
  intro json other h
  have hChars : json.chars 0 ++ [] = other.chars 0 ++ [] := by
    rw [List.append_nil, List.append_nil]
    exact String.ofList_injective h
  have hEnd : Follows [] := by simp [Follows]
  exact (delimited_chars 0 json other [] [] hEnd hEnd hChars).1

end ContractDoc.Json

import ContractDoc.Proofs.Json

/-! # The layout of JSON texts

What the text of a value looks like, character by character, whatever writes it. A value has exactly
one text of this form, and no other value has the same.
-/

namespace ContractDoc.Json

def hexDigits : List Char :=
  ['0', '1', '2', '3', '4', '5', '6', '7', '8', '9', 'a', 'b', 'c', 'd', 'e', 'f']

/-- How a character is spelled between quotation marks. -/
inductive Spells (c : Char) : List Char → Prop
  | plain (hPlain : 0x20 ≤ c.toNat) (hUnnamed : c ∉ escapes.map Prod.snd) : Spells c [c]
  | named {letter : Char} (hNamed : (letter, c) ∈ escapes) : Spells c ['\\', letter]
  | control {high low : Nat} {first second : Char} (hUnnamed : c ∉ escapes.map Prod.snd)
      (hCode : c.toNat = 16 * high + low) (hControl : high < 2)
      (hFirst : hexDigits[high]? = some first) (hSecond : hexDigits[low]? = some second) :
      Spells c ['\\', 'u', '0', '0', first, second]

/-- How characters are spelled one after the other, up to the closing quotation mark. -/
inductive SpellsAll : List Char → List Char → Prop
  | stop : SpellsAll [] ['"']
  | next {c : Char} {cs spelled rest : List Char} (hFirst : Spells c spelled)
      (hRest : SpellsAll cs rest) : SpellsAll (c :: cs) (spelled ++ rest)

/-- A line of its own, two spaces further in on every level. -/
def onLine (level : Nat) (text : List Char) : List Char :=
  '\n' :: (List.replicate (2 * level) ' ' ++ text)

mutual

/-- The text of a value that begins on a given level. -/
inductive LaidOut : Nat → Json → List Char → Prop
  | null {level : Nat} : LaidOut level null ['n', 'u', 'l', 'l']
  | yes {level : Nat} : LaidOut level (bool true) ['t', 'r', 'u', 'e']
  | no {level : Nat} : LaidOut level (bool false) ['f', 'a', 'l', 's', 'e']
  | number {level : Nat} {value : Int} : LaidOut level (number value) (toString value).toList
  | string {level : Nat} {text : String} {spelled : List Char}
      (hText : SpellsAll text.toList spelled) : LaidOut level (string text) ('"' :: spelled)
  | emptyArray {level : Nat} : LaidOut level (array []) ['[', ']']
  | array {level : Nat} {items : List Json} {lines : List Char}
      (hItems : LaidOutItems (level + 1) items lines) :
      LaidOut level (array items) ('[' :: lines ++ onLine level [']'])
  | emptyObject {level : Nat} : LaidOut level (object []) ['{', '}']
  | object {level : Nat} {fields : List (String × Json)} {lines : List Char}
      (hFields : LaidOutFields (level + 1) fields lines) :
      LaidOut level (object fields) ('{' :: lines ++ onLine level ['}'])

/-- Items on lines of their own, with commas between them. -/
inductive LaidOutItems : Nat → List Json → List Char → Prop
  | last {level : Nat} {item : Json} {text : List Char} (hItem : LaidOut level item text) :
      LaidOutItems level [item] (onLine level text)
  | next {level : Nat} {item : Json} {items : List Json} {text lines : List Char}
      (hItem : LaidOut level item text) (hItems : LaidOutItems level items lines) :
      LaidOutItems level (item :: items) (onLine level text ++ ',' :: lines)

/-- Fields on lines of their own, with commas between them. -/
inductive LaidOutFields : Nat → List (String × Json) → List Char → Prop
  | last {level : Nat} {key : String} {value : Json} {spelled text : List Char}
      (hKey : SpellsAll key.toList spelled) (hValue : LaidOut level value text) :
      LaidOutFields level [(key, value)] (onLine level ('"' :: spelled ++ ':' :: ' ' :: text))
  | next {level : Nat} {key : String} {value : Json} {fields : List (String × Json)}
      {spelled text lines : List Char} (hKey : SpellsAll key.toList spelled)
      (hValue : LaidOut level value text) (hFields : LaidOutFields level fields lines) :
      LaidOutFields level ((key, value) :: fields)
        (onLine level ('"' :: spelled ++ ':' :: ' ' :: text) ++ ',' :: lines)

end

theorem getElem?_hexDigits {n : Nat} (h : n < 16) : hexDigits[n]? = some (Nat.digitChar n) := by
  revert n
  decide

theorem spells_iff {c : Char} {cs : List Char} : Spells c cs ↔ cs = escapeChar c := by
  constructor
  · rintro (⟨hPlain, hUnnamed⟩ | hNamed | @⟨high, low, first, second, hUnnamed, hCode, hControl,
      hFirst, hSecond⟩)
    · rw [escapeChar_of_unnamed hUnnamed, if_neg (Nat.not_lt.2 hPlain)]
    · rw [escapeChar_of_named hNamed]
    · have hLow : low < 16 := (List.getElem?_eq_some_iff.1 hSecond).1
      rw [getElem?_hexDigits (by omega), Option.some_inj] at hFirst
      rw [getElem?_hexDigits hLow, Option.some_inj] at hSecond
      have hDigits : c.toNat / 16 = high ∧ c.toNat % 16 = low := by omega
      rw [escapeChar_of_unnamed hUnnamed, if_pos (by omega), hexEscape, hDigits.1, hDigits.2,
        hFirst, hSecond]
  · rintro rfl
    by_cases hNamed : c ∈ escapes.map Prod.snd
    · obtain ⟨⟨letter, c⟩, hLetter, rfl⟩ := List.mem_map.1 hNamed
      rw [escapeChar_of_named hLetter]
      exact .named hLetter
    · rw [escapeChar_of_unnamed hNamed]
      split
      · next hControl =>
          exact .control hNamed (Nat.div_add_mod c.toNat 16).symm (by omega)
            (getElem?_hexDigits (by omega)) (getElem?_hexDigits (by omega))
      · next hPlain => exact .plain (Nat.not_lt.1 hPlain) hNamed

theorem spellsAll_iff {cs text : List Char} :
    SpellsAll cs text ↔ text = cs.flatMap escapeChar ++ ['"'] := by
  constructor
  · intro h
    induction h with
    | stop => rfl
    | next hFirst _ ih => rw [spells_iff.1 hFirst, ih, List.flatMap_cons, List.append_assoc]
  · rintro rfl
    induction cs with
    | nil => exact .stop
    | cons c cs ih =>
        rw [List.flatMap_cons, List.append_assoc]
        exact .next (spells_iff.2 rfl) ih

theorem toList_toString (value : Int) : (toString value).toList = numberChars value := by
  cases value with
  | ofNat value => exact Nat.toList_repr
  | negSucc value =>
      show ("-" ++ (value + 1).repr).toList = '-' :: digits (value + 1)
      rw [String.toList_append, Nat.toList_repr]
      rfl

theorem itemsChars_cons (level : Nat) (item : Json) (items : List Json) :
    itemsChars level (item :: items) =
      ',' :: (onLine level (item.chars level) ++ itemsChars level items) := by
  simp [itemsChars, onLine, lineBreak]

theorem fieldsChars_cons (level : Nat) (key : String) (value : Json)
    (fields : List (String × Json)) :
    fieldsChars level ((key, value) :: fields) =
      ',' :: (onLine level ('"' :: (key.toList.flatMap escapeChar ++ ['"']) ++
        ':' :: ' ' :: value.chars level) ++ fieldsChars level fields) := by
  simp [fieldsChars, onLine, lineBreak, stringChars]

theorem chars_array_cons (level : Nat) {item : Json} {items : List Json} {lines : List Char}
    (h : itemsChars (level + 1) (item :: items) = ',' :: lines) :
    (array (item :: items)).chars level = '[' :: lines ++ onLine level [']'] := by
  rw [itemsChars_cons] at h
  rw [← (List.cons.inj h).2, chars]
  simp [onLine, lineBreak]

theorem chars_object_cons (level : Nat) {field : String × Json} {fields : List (String × Json)}
    {lines : List Char} (h : fieldsChars (level + 1) (field :: fields) = ',' :: lines) :
    (object (field :: fields)).chars level = '{' :: lines ++ onLine level ['}'] := by
  rw [fieldsChars_cons] at h
  rw [← (List.cons.inj h).2, chars]
  simp [onLine, lineBreak, stringChars]

theorem laidOut_array_iff {level : Nat} {items : List Json} {text : List Char}
    (hItems : ∀ lines,
      LaidOutItems (level + 1) items lines ↔ itemsChars (level + 1) items = ',' :: lines) :
    LaidOut level (array items) text ↔ text = (array items).chars level := by
  cases items with
  | nil =>
      constructor
      · intro h
        cases h with
        | emptyArray => rfl
        | array hLines => cases hLines
      · rintro rfl
        exact .emptyArray
  | cons item items =>
      constructor
      · intro h
        cases h with
        | array hLines => exact (chars_array_cons level ((hItems _).1 hLines)).symm
      · rintro rfl
        have hLines := itemsChars_cons (level + 1) item items
        rw [chars_array_cons level hLines]
        exact .array ((hItems _).2 hLines)

theorem laidOut_object_iff {level : Nat} {fields : List (String × Json)} {text : List Char}
    (hFields : ∀ lines,
      LaidOutFields (level + 1) fields lines ↔ fieldsChars (level + 1) fields = ',' :: lines) :
    LaidOut level (object fields) text ↔ text = (object fields).chars level := by
  cases fields with
  | nil =>
      constructor
      · intro h
        cases h with
        | emptyObject => rfl
        | object hLines => cases hLines
      · rintro rfl
        exact .emptyObject
  | cons field fields =>
      constructor
      · intro h
        cases h with
        | object hLines => exact (chars_object_cons level ((hFields _).1 hLines)).symm
      · rintro rfl
        have hLines := fieldsChars_cons (level + 1) field.1 field.2 fields
        rw [chars_object_cons level hLines]
        exact .object ((hFields _).2 hLines)

mutual

/-- The text that is written for a value is the only one of this form. -/
theorem laidOut_iff {level : Nat} {text : List Char} : (json : Json) →
    (LaidOut level json text ↔ text = json.chars level)
  | null => by
      constructor
      · rintro ⟨⟩
        rfl
      · rintro rfl
        exact .null
  | bool value => by
      constructor
      · rintro ⟨⟩ <;> rfl
      · rintro rfl
        cases value
        · exact .no
        · exact .yes
  | number value => by
      rw [chars, ← toList_toString]
      constructor
      · rintro ⟨⟩
        rfl
      · rintro rfl
        exact .number
  | string text => by
      rw [chars, stringChars, List.cons_append]
      constructor
      · rintro ⟨⟩
        next hText => rw [spellsAll_iff.1 hText]
      · rintro rfl
        exact .string (spellsAll_iff.2 rfl)
  | array items => laidOut_array_iff fun lines => laidOutItems_iff (level + 1) lines items
  | object fields => laidOut_object_iff fun lines => laidOutFields_iff (level + 1) lines fields

theorem laidOutItems_iff (level : Nat) (lines : List Char) : (items : List Json) →
    (LaidOutItems level items lines ↔ itemsChars level items = ',' :: lines)
  | [] => by
      constructor
      · rintro ⟨⟩
      · rintro ⟨⟩
  | item :: items => by
      have hRest := fun lines => laidOutItems_iff level lines items
      rw [itemsChars_cons, List.cons.injEq, and_iff_right rfl]
      constructor
      · intro h
        cases h with
        | last hItem =>
            rw [(laidOut_iff item).1 hItem]
            exact List.append_nil _
        | next hItem hItems => rw [(laidOut_iff item).1 hItem, (hRest _).1 hItems]
      · rintro rfl
        have hItem := (laidOut_iff item).2 (rfl : _ = item.chars level)
        cases items with
        | nil =>
            rw [itemsChars, List.append_nil]
            exact .last hItem
        | cons second items =>
            have hItems := itemsChars_cons level second items
            rw [hItems]
            exact .next hItem ((hRest _).2 hItems)

theorem laidOutFields_iff (level : Nat) (lines : List Char) : (fields : List (String × Json)) →
    (LaidOutFields level fields lines ↔ fieldsChars level fields = ',' :: lines)
  | [] => by
      constructor
      · rintro ⟨⟩
      · rintro ⟨⟩
  | (key, value) :: fields => by
      have hRest := fun lines => laidOutFields_iff level lines fields
      rw [fieldsChars_cons, List.cons.injEq, and_iff_right rfl]
      constructor
      · intro h
        cases h with
        | last hKey hValue =>
            rw [spellsAll_iff.1 hKey, (laidOut_iff value).1 hValue]
            exact List.append_nil _
        | next hKey hValue hFields =>
            rw [spellsAll_iff.1 hKey, (laidOut_iff value).1 hValue, (hRest _).1 hFields]
      · rintro rfl
        have hKey := spellsAll_iff.2 (rfl : _ = key.toList.flatMap escapeChar ++ ['"'])
        have hValue := (laidOut_iff value).2 (rfl : _ = value.chars level)
        cases fields with
        | nil =>
            rw [fieldsChars, List.append_nil]
            exact .last hKey hValue
        | cons second fields =>
            have hFields := fieldsChars_cons level second.1 second.2 fields
            rw [hFields]
            exact .next hKey hValue ((hRest _).2 hFields)

end

theorem laidOut_pretty (json : Json) : LaidOut 0 json json.pretty.toList := by
  rw [laidOut_iff, pretty, String.toList_ofList]

theorem LaidOut.eq_pretty {json : Json} {text : String} (h : LaidOut 0 json text.toList) :
    text = json.pretty := by
  rw [laidOut_iff] at h
  rw [pretty, ← h, String.ofList_toList]

/-- No text is that of two values. -/
theorem LaidOut.unique {json other : Json} {text : String} (h : LaidOut 0 json text.toList)
    (hOther : LaidOut 0 other text.toList) : json = other :=
  pretty_injective (h.eq_pretty.symm.trans hOther.eq_pretty)

/-- A number in an array, and a key with a line feed in it. -/
example : LaidOut 0 (object [("a\n", array [number (-1)])])
    "\x7b\n  \"a\\n\": [\n    -1\n  ]\n\x7d".toList := by
  rw [laidOut_iff]
  decide

end ContractDoc.Json

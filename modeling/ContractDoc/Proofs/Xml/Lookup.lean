import ContractDoc.Proofs.Outcome
import ContractDoc.Proofs.Xml.Layout
import ContractDoc.Proofs.Xml.Outline

/-! # Looking up parts of outlines

What is found in the element of an outline is the element of what is found in the outline. A part
whose names are all foreign is passed over by every search for one of the others.
-/

namespace ContractDoc.Xml.Outline

def name : Outline → String
  | leaf label _ => label.name
  | branch label _ _ => label.name

def text : Outline → String
  | leaf _ text => text
  | branch _ _ _ => ""

def parts : Outline → List Outline
  | leaf _ _ => []
  | branch _ _ parts => parts

/-- All parts of parts, in document order. -/
def inner : Outline → List Outline
  | leaf _ _ => []
  | branch _ _ parts => innerAll parts
where
  innerAll : List Outline → List Outline
    | [] => []
    | part :: parts => part :: (part.inner ++ innerAll parts)

def lookup (parts : List Outline) (name : String) : Option Outline :=
  parts.find? fun part => part.name == name

/-- The first of the parts and everything below them with the given name. -/
def search (parts : List Outline) (name : String) : Option Outline :=
  (inner.innerAll parts).find? fun part => part.name == name

/-- None of the names in the list stands at the outline or below it. -/
def Foreign (names : List String) (outline : Outline) : Prop :=
  ∀ part ∈ outline :: outline.inner, part.name ∉ names

def field? (name : String) (text? : Option String) [IsLabel name] : List Outline :=
  (text?.map fun text => field name text).toList

def booleanText (value : Bool) : String := if value then "true" else "false"

section

variable (n text : String) {_ : IsLabel n} (ps : List Outline)

@[simp] theorem name_field : (field n text).name = n := rfl

@[simp] theorem text_field : (field n text).text = text := rfl

@[simp] theorem parts_field : (field n text).parts = [] := rfl

@[simp] theorem inner_field : (field n text).inner = [] := rfl

@[simp] theorem name_group : (group n ps).name = n := rfl

@[simp] theorem parts_group : (group n ps).parts = ps := rfl

@[simp] theorem parts_branch (label : Label) (type : Option String) :
    (branch label type ps).parts = ps := rfl

@[simp] theorem inner_group : (group n ps).inner = inner.innerAll ps := rfl

end

theorem inner_eq (outline : Outline) : outline.inner = inner.innerAll outline.parts := by
  cases outline <;> rfl

section

variable (outline : Outline)

@[simp] theorem name_toElement : outline.toElement.name = outline.name := by
  cases outline <;> rfl

@[simp] theorem text_toElement : outline.toElement.text = outline.text := by
  cases outline <;> rfl

@[simp] theorem children_toElement :
    outline.toElement.children = outline.parts.map toElement := by
  cases outline with
  | leaf label text => rfl
  | branch label type parts => exact toElementAll_eq_map parts

theorem beq_name_comp_toElement (m : String) :
    (fun e : Element => e.name == m) ∘ toElement = fun part => part.name == m :=
  funext fun part => congrArg (· == m) (name_toElement part)

@[simp] theorem child?_toElement (m : String) :
    outline.toElement.child? m = (lookup outline.parts m).map toElement := by
  rw [Element.child?, children_toElement, List.find?_map, beq_name_comp_toElement, lookup]

@[simp] theorem childText?_toElement (m : String) :
    outline.toElement.childText? m = (lookup outline.parts m).map text := by
  rw [Element.childText?, child?_toElement, Option.map_map,
    show Element.text ∘ toElement = text from funext text_toElement]

theorem requireText_toElement {m : String} {part : Outline} (missing : Defect)
    (h : lookup outline.parts m = some part) :
    outline.toElement.requireText m missing = .ok part.text := by
  simp [Element.requireText, h]

theorem boolValue_field (n : String) {_ : IsLabel n} (value : Bool) :
    (field n (booleanText value)).toElement.boolValue = .ok value := by
  have hTrue : Element.sameLetters (Text.trim "true") "true" = true := by decide
  have hFalse : Element.sameLetters (Text.trim "false") "true" = false := by decide
  have hFalse' : Element.sameLetters (Text.trim "false") "false" = true := by decide
  cases value <;> simp [Element.boolValue, booleanText, hTrue, hFalse, hFalse']

/-- A value that may be left out is read back if what it is written as denotes it. -/
theorem readChild?_toElement {α : Type} {m : String} {_ : IsLabel m}
    {read : String → Option α} {write : α → String} {a? : Option α}
    (hRead : ∀ a, read (Text.trim (write a)) = some a) (expected : String)
    (h : lookup outline.parts m = a?.map fun a => field m (write a)) :
    outline.toElement.readChild? m (·.parseText read expected) = .ok a? := by
  rw [Element.readChild?, child?_toElement, h]
  cases a? with
  | none => rfl
  | some a =>
      simp only [Option.map_some, Element.parseText, text_toElement, text_field, hRead]
      rfl

end

mutual

theorem descendants_toElement : (outline : Outline) →
    outline.toElement.descendants = outline.inner.map toElement
  | leaf label text => by
      rw [Element.descendants_eq_flatMap, children_toElement]
      rfl
  | branch label type parts => by
      rw [Element.descendants_eq_flatMap, children_toElement]
      exact flatMap_descendants_toElement parts

theorem flatMap_descendants_toElement : (parts : List Outline) →
    (parts.map toElement).flatMap (fun e => e :: e.descendants) =
      (inner.innerAll parts).map toElement
  | [] => rfl
  | part :: parts => by
      rw [List.map_cons, List.flatMap_cons, flatMap_descendants_toElement parts,
        descendants_toElement part]
      simp [inner.innerAll]

end

@[simp] theorem firstDescendant?_toElement (outline : Outline) (m : String) :
    outline.toElement.firstDescendant? m = (search outline.parts m).map toElement := by
  rw [Element.firstDescendant?, descendants_toElement, List.find?_map, beq_name_comp_toElement,
    inner_eq, search]

@[simp] theorem descendantsNamed_toElement (outline : Outline) (m : String) :
    outline.toElement.descendantsNamed m =
      (outline.inner.filter fun part => part.name == m).map toElement := by
  rw [Element.descendantsNamed, descendants_toElement, List.filter_map, beq_name_comp_toElement]

section

variable (m : String) (part : Outline) (ps qs : List Outline)

@[simp] theorem innerAll_append :
    inner.innerAll (ps ++ qs) = inner.innerAll ps ++ inner.innerAll qs := by
  induction ps with
  | nil => rfl
  | cons p ps ih => simp [inner.innerAll, ih]

@[simp] theorem lookup_nil : lookup [] m = none := rfl

@[simp] theorem lookup_cons :
    lookup (part :: ps) m = if part.name = m then some part else lookup ps m := by
  by_cases h : part.name = m <;> simp [lookup, h]

@[simp] theorem lookup_append :
    lookup (ps ++ qs) m = (lookup ps m).or (lookup qs m) := List.find?_append

@[simp] theorem search_nil : search [] m = none := rfl

@[simp] theorem search_cons :
    search (part :: ps) m =
      if part.name = m then some part else (search part.parts m).or (search ps m) := by
  by_cases h : part.name = m <;> simp [search, inner.innerAll, h, inner_eq]

@[simp] theorem search_append :
    search (ps ++ qs) m = (search ps m).or (search qs m) := by
  simp [search]

@[simp] theorem lookup_field? (n : String) (text? : Option String) {_ : IsLabel n} :
    lookup (field? n text?) m =
      if n = m then text?.map fun text => field n text else none := by
  by_cases h : n = m <;> cases text? <;> simp [field?, h]

@[simp] theorem search_field? (n : String) (text? : Option String) {_ : IsLabel n} :
    search (field? n text?) m =
      if n = m then text?.map fun text => field n text else none := by
  by_cases h : n = m <;> cases text? <;> simp [field?, h]

@[simp] theorem innerAll_field? (n : String) (text? : Option String)
    {_ : IsLabel n} :
    inner.innerAll (field? n text?) = field? n text? := by
  cases text? <;> rfl

theorem filter_field? (n : String) (text? : Option String) {_ : IsLabel n}
    (h : n ≠ m) : (field? n text?).filter (fun part => part.name == m) = [] := by
  cases text? <;> simp [field?, h]

theorem search_map_field {α : Type} {n : String} (text : α → String) {_ : IsLabel n}
    (as : List α) (hn : n ≠ m) : search (as.map fun a => field n (text a)) m = none := by
  induction as with
  | nil => rfl
  | cons a as ih => simp [hn, ih]

theorem innerAll_map_field {α : Type} {n : String} (text : α → String) {_ : IsLabel n}
    (as : List α) :
    inner.innerAll (as.map fun a => field n (text a)) =
      as.map fun a => field n (text a) := by
  induction as with
  | nil => rfl
  | cons a as ih => simp [inner.innerAll, ih]

end

variable {names : List String} {m : String}

theorem Foreign.mono {outline : Outline} {fewer : List String} (h : outline.Foreign names)
    (hFewer : fewer ⊆ names) : outline.Foreign fewer :=
  fun part hPart hName => h part hPart (hFewer hName)

@[simp] theorem mem_field? {n : String} {text? : Option String} {_ : IsLabel n}
    {part : Outline} :
    part ∈ field? n text? ↔ ∃ text ∈ text?, field n text = part := by
  simp [field?]

@[simp] theorem foreign_field (n text : String) {_ : IsLabel n} :
    (field n text).Foreign names ↔ n ∉ names := by
  simp [Foreign]

theorem mem_innerAll {ps : List Outline} {part : Outline} (h : part ∈ inner.innerAll ps) :
    ∃ p ∈ ps, part ∈ p :: p.inner := by
  induction ps with
  | nil => cases h
  | cons p ps ih =>
      rcases List.mem_cons.1 h with rfl | h
      · exact ⟨part, List.mem_cons_self, List.mem_cons_self⟩
      · rcases List.mem_append.1 h with h | h
        · exact ⟨p, List.mem_cons_self, List.mem_cons_of_mem p h⟩
        · obtain ⟨q, hq, hPart⟩ := ih h
          exact ⟨q, List.mem_cons_of_mem p hq, hPart⟩

theorem mem_innerAll_of_mem {ps : List Outline} {p part : Outline} (hp : p ∈ ps)
    (h : part ∈ p :: p.inner) : part ∈ inner.innerAll ps := by
  induction ps with
  | nil => cases hp
  | cons q ps ih =>
      rw [inner.innerAll, ← List.cons_append, List.mem_append]
      rcases List.mem_cons.1 hp with rfl | hp
      · exact .inl h
      · exact .inr (ih hp)

theorem foreign_iff {outline : Outline} :
    outline.Foreign names ↔ outline.name ∉ names ∧ ∀ part ∈ outline.parts, part.Foreign names := by
  constructor
  · intro h
    refine ⟨h outline List.mem_cons_self, fun p hp part hPart => h part ?_⟩
    exact List.mem_cons_of_mem outline (inner_eq outline ▸ mem_innerAll_of_mem hp hPart)
  · rintro ⟨hName, hParts⟩ part hPart
    rcases List.mem_cons.1 hPart with rfl | hPart
    · exact hName
    · obtain ⟨p, hp, hBelow⟩ := mem_innerAll (inner_eq outline ▸ hPart)
      exact hParts p hp part hBelow

theorem foreign_of_parts {outline : Outline} {fewer : List String} (hName : outline.name ∉ fewer)
    (h : ∀ part ∈ outline.parts, part.Foreign names) (hFewer : fewer ⊆ names) :
    outline.Foreign fewer :=
  foreign_iff.2 ⟨hName, fun part hPart => (h part hPart).mono hFewer⟩

@[simp] theorem foreign_branch (label : Label) (type : Option String) (ps : List Outline) :
    (branch label type ps).Foreign names ↔
      label.name ∉ names ∧ ∀ part ∈ ps, part.Foreign names :=
  foreign_iff

@[simp] theorem foreign_group (n : String) (ps : List Outline) {_ : IsLabel n} :
    (group n ps).Foreign names ↔ n ∉ names ∧ ∀ part ∈ ps, part.Foreign names :=
  foreign_iff

theorem search_foreign {ps : List Outline} (h : ∀ part ∈ ps, part.Foreign names)
    (hm : m ∈ names) : search ps m = none := by
  rw [search, List.find?_eq_none]
  intro part hPart hName
  obtain ⟨p, hp, hBelow⟩ := mem_innerAll hPart
  obtain rfl : part.name = m := by simpa using hName
  exact h p hp part hBelow hm

theorem lookup_eq_none {ps : List Outline} (h : ∀ part ∈ ps, part.name ≠ m) :
    lookup ps m = none := by
  rw [lookup, List.find?_eq_none]
  intro part hPart
  simpa using h part hPart

theorem filter_foreign {ps : List Outline} (h : ∀ part ∈ ps, part.Foreign names)
    (hm : m ∈ names) : (inner.innerAll ps).filter (fun part => part.name == m) = [] := by
  rw [List.filter_eq_nil_iff]
  intro part hPart hName
  obtain ⟨p, hp, hBelow⟩ := mem_innerAll hPart
  obtain rfl : part.name = m := by simpa using hName
  exact h p hp part hBelow hm

/-- Of parts with one name, which does not stand below them, none other is found by that name. -/
theorem filter_innerAll_map {α : Type} {f : α → Outline} {as : List α}
    (hName : ∀ a, (f a).name = m) (h : ∀ a ∈ as, ∀ part ∈ (f a).parts, part.Foreign names)
    (hm : m ∈ names) :
    (inner.innerAll (as.map f)).filter (fun part => part.name == m) = as.map f := by
  induction as with
  | nil => rfl
  | cons a as ih =>
      rw [List.map_cons, inner.innerAll, List.filter_cons_of_pos (by simp [hName]),
        List.filter_append, inner_eq, filter_foreign (h a List.mem_cons_self) hm,
        List.nil_append, ih fun b hb => h b (List.mem_cons_of_mem a hb)]

section

variable {ε σ : Type} {step : σ → Element → Except ε σ}

/-- A part that is left out has to change nothing. -/
theorem foldlM_field? {n : String} {text? : Option String} {_ : IsLabel n} {s t : σ}
    (hNone : text? = none → s = t)
    (hSome : ∀ text ∈ text?, step s (field n text).toElement = .ok t) :
    ((field? n text?).map toElement).foldlM step s = .ok t := by
  cases text? with
  | none => exact congrArg Except.ok (hNone rfl)
  | some text =>
      change [(field n text).toElement].foldlM step s = _
      rw [List.foldlM_cons, hSome text rfl]
      rfl

theorem foldlM_map_field? {α : Type} {n : String} {a? : Option α} {write : α → String}
    {_ : IsLabel n} {s t : σ} (hNone : a? = none → s = t)
    (hSome : ∀ a ∈ a?, step s (field n (write a)).toElement = .ok t) :
    ((field? n (a?.map write)).map toElement).foldlM step s = .ok t := by
  apply foldlM_field?
  · intro hNothing
    exact hNone (Option.map_eq_none_iff.1 hNothing)
  · intro text hText
    obtain ⟨a, ha, rfl⟩ := Option.map_eq_some_iff.1 hText
    exact hSome a ha

variable (hStep : ∀ part : Outline, part.name ∉ names → ∀ s, step s part.toElement = .ok s)

include hStep

theorem foldlM_foreign {ps : List Outline} (h : ∀ part ∈ ps, part.Foreign names) (s : σ) :
    ((inner.innerAll ps).map toElement).foldlM step s = .ok s := by
  apply Outcome.foldlM_eq_ok_of_skip
  intro element hElement
  obtain ⟨part, hPart, rfl⟩ := List.mem_map.1 hElement
  obtain ⟨p, hp, hBelow⟩ := mem_innerAll hPart
  exact hStep part (h p hp part hBelow)

/-- Only the parts themselves count if everything below them is foreign. -/
theorem foldlM_innerAll_map {α : Type} {f : α → Outline} {as : List α}
    (h : ∀ a ∈ as, ∀ part ∈ (f a).parts, part.Foreign names) (s : σ) :
    ((inner.innerAll (as.map f)).map toElement).foldlM step s =
      (as.map fun a => (f a).toElement).foldlM step s := by
  induction as generalizing s with
  | nil => rfl
  | cons a as ih =>
      rw [List.map_cons, inner.innerAll, List.map_cons, List.foldlM_cons, List.map_cons,
        List.foldlM_cons]
      congr 1
      funext t
      rw [List.map_append, List.foldlM_append, inner_eq,
        foldlM_foreign hStep (h a List.mem_cons_self), Outcome.ok_bind]
      exact ih (fun b hb => h b (List.mem_cons_of_mem a hb)) t

end

end ContractDoc.Xml.Outline

/-! # Cutting texts

Two ways to cut a text in two: around the first occurrence of a mark, or at the first character
that an automaton names as the closing one. Either way the part before, what is cut out and the
part after make up the text again.
-/

namespace ContractDoc.Text

/-- What follows `mark`, if the text begins with it. -/
def afterMark? : List Char → List Char → Option (List Char)
  | [], text => some text
  | _ :: _, [] => none
  | m :: mark, c :: text => if m = c then afterMark? mark text else none

theorem afterMark?_eq_some_iff {mark text rest : List Char} :
    afterMark? mark text = some rest ↔ text = mark ++ rest := by
  induction mark generalizing text with
  | nil => simp [afterMark?]
  | cons m mark ih =>
      cases text with
      | nil => simp [afterMark?]
      | cons c text => by_cases h : m = c <;> simp [afterMark?, h, ih, eq_comm]

/-- Looks for `mark`; `seen` holds the characters passed so far, the last one first. -/
def upToMarkFrom (mark seen : List Char) : List Char → Option (List Char × List Char)
  | [] => none
  | c :: cs =>
      match afterMark? mark (c :: cs) with
      | some rest => some (seen.reverse, rest)
      | none => upToMarkFrom mark (c :: seen) cs

def upToMark? (mark text : List Char) : Option (List Char × List Char) :=
  upToMarkFrom mark [] text

theorem upToMarkFrom_eq {mark seen text body rest : List Char}
    (h : upToMarkFrom mark seen text = some (body, rest)) :
    seen.reverse ++ text = body ++ mark ++ rest := by
  induction text generalizing seen with
  | nil => simp [upToMarkFrom] at h
  | cons c cs ih =>
      rw [upToMarkFrom] at h
      split at h
      · next after hAfter =>
          obtain ⟨rfl, rfl⟩ := Prod.mk.inj (Option.some.inj h)
          rw [afterMark?_eq_some_iff.1 hAfter, List.append_assoc]
      · simpa using ih h

theorem upToMark?_eq {mark text body rest : List Char}
    (h : upToMark? mark text = some (body, rest)) : text = body ++ mark ++ rest := by
  simpa using upToMarkFrom_eq h

variable {σ : Type}

/-- Runs the automaton `step` until it has no next state; `seen` as for marks. -/
def upToCloseFrom (step : σ → Char → Option σ) (state : σ) (seen : List Char) :
    List Char → Option (List Char × List Char)
  | [] => none
  | c :: cs =>
      match step state c with
      | none => some (seen.reverse, cs)
      | some next => upToCloseFrom step next (c :: seen) cs

def upToClose? (step : σ → Char → Option σ) (state : σ) (text : List Char) :
    Option (List Char × List Char) :=
  upToCloseFrom step state [] text

/-- The automaton closes at nothing but the character `close`. -/
def ClosesAt (step : σ → Char → Option σ) (close : Char) : Prop :=
  ∀ state c, step state c = none → c = close

theorem upToCloseFrom_eq {step : σ → Char → Option σ} {close : Char} (hc : ClosesAt step close)
    {state : σ} {seen text body rest : List Char}
    (h : upToCloseFrom step state seen text = some (body, rest)) :
    seen.reverse ++ text = body ++ close :: rest := by
  induction text generalizing state seen with
  | nil => simp [upToCloseFrom] at h
  | cons c cs ih =>
      rw [upToCloseFrom] at h
      split at h
      · next hStep =>
          obtain ⟨rfl, rfl⟩ := Prod.mk.inj (Option.some.inj h)
          rw [hc state c hStep]
      · simpa using ih h

theorem upToClose?_eq {step : σ → Char → Option σ} {close : Char} (hc : ClosesAt step close)
    {state : σ} {text body rest : List Char}
    (h : upToClose? step state text = some (body, rest)) : text = body ++ close :: rest := by
  simpa using upToCloseFrom_eq hc h

end ContractDoc.Text

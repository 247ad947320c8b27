import Mathlib.Data.List.Forall2
import Mathlib.Data.List.Induction
import Mathlib.Data.List.Perm.Basic

/-! # Runs that may fail

Facts about the results of steps that return a value or an error: when a chain of steps succeeds,
with which value, and what a whole fold keeps if each of its steps keeps it.
-/

namespace ContractDoc.Outcome

variable {ε ε' α β σ : Type}

@[simp] theorem ok_bind (a : α) (f : α → Except ε β) : (Except.ok a >>= f) = f a := rfl

@[simp] theorem error_bind (e : ε) (f : α → Except ε β) : (Except.error e >>= f) = .error e := rfl

@[simp] theorem map_ok (f : α → β) (a : α) : (f <$> (Except.ok a : Except ε α)) = .ok (f a) := rfl

@[simp] theorem map_error (f : α → β) (e : ε) :
    (f <$> (Except.error e : Except ε α)) = .error e := rfl

@[simp] theorem pure_eq_ok (a : α) : (pure a : Except ε α) = .ok a := rfl

theorem exceptMap_bind {γ : Type} (x : Except ε α) (f : α → β) (g : β → Except ε γ) :
    x.map f >>= g = x >>= fun a => g (f a) := by
  cases x <;> rfl

theorem bind_eq_ok_iff {x : Except ε α} {f : α → Except ε β} {b : β} :
    x >>= f = .ok b ↔ ∃ a, x = .ok a ∧ f a = .ok b := by
  cases x <;> simp

theorem bind_ok_eq_error_iff {x : Except ε α} {f : α → β} {e : ε} :
    (x >>= fun a => .ok (f a)) = .error e ↔ x = .error e := by
  cases x <;> simp

theorem map_eq_ok_iff {x : Except ε α} {f : α → β} {b : β} :
    f <$> x = .ok b ↔ ∃ a, x = .ok a ∧ f a = b := by
  cases x <;> simp

theorem mapError_eq_ok_iff {x : Except ε α} {f : ε → ε'} {a : α} :
    x.mapError f = .ok a ↔ x = .ok a := by
  cases x <;> simp [Except.mapError]

theorem foldlM_cons_eq_ok_iff {step : σ → α → Except ε σ} {s s' : σ} {a : α} {as : List α} :
    (a :: as).foldlM step s = .ok s' ↔ ∃ t, step s a = .ok t ∧ as.foldlM step t = .ok s' := by
  rw [List.foldlM_cons, bind_eq_ok_iff]

theorem foldlM_append_eq_ok_iff {step : σ → α → Except ε σ} {s s' : σ} {as bs : List α} :
    (as ++ bs).foldlM step s = .ok s' ↔
      ∃ t, as.foldlM step s = .ok t ∧ bs.foldlM step t = .ok s' := by
  rw [List.foldlM_append, bind_eq_ok_iff]

/-- A fold fails with the error of the first item that cannot be taken in. -/
theorem foldlM_eq_error_iff {step : σ → α → Except ε σ} {s : σ} {as : List α} {e : ε} :
    as.foldlM step s = .error e ↔ ∃ front a back t, as = front ++ a :: back ∧
      front.foldlM step s = .ok t ∧ step t a = .error e := by
  constructor
  · intro h
    induction as generalizing s with
    | nil => cases h
    | cons a as ih =>
        rw [List.foldlM_cons] at h
        cases hFirst : step s a with
        | error e' =>
            rw [hFirst, error_bind, Except.error.injEq] at h
            exact ⟨[], a, as, s, rfl, rfl, h ▸ hFirst⟩
        | ok t =>
            rw [hFirst] at h
            obtain ⟨front, a', back, u, rfl, hFront, hStep⟩ := ih h
            exact ⟨a :: front, a', back, u, rfl, foldlM_cons_eq_ok_iff.2 ⟨t, hFirst, hFront⟩, hStep⟩
  · rintro ⟨front, a, back, t, rfl, hFront, hStep⟩
    rw [List.foldlM_append, hFront, ok_bind, List.foldlM_cons, hStep]
    rfl

/-- What every step keeps, the whole fold keeps. -/
theorem foldlM_invariant {step : σ → α → Except ε σ} {P : σ → Prop} {as : List α}
    (hStep : ∀ s a t, a ∈ as → P s → step s a = .ok t → P t) {s s' : σ} (hs : P s)
    (h : as.foldlM step s = .ok s') : P s' := by
  induction as generalizing s with
  | nil => exact Except.ok.inj h ▸ hs
  | cons a as ih =>
      obtain ⟨t, hFirst, hRest⟩ := foldlM_cons_eq_ok_iff.1 h
      exact ih (fun s b u hb => hStep s b u (List.mem_cons_of_mem a hb))
        (hStep s a t List.mem_cons_self hs hFirst) hRest

/-- A part of the state that no step changes is the same after the whole fold. -/
theorem foldlM_keeps {γ : Type} {step : σ → α → Except ε σ} {part : σ → γ}
    (hStep : ∀ s a t, step s a = .ok t → part t = part s) {as : List α} {s s' : σ}
    (h : as.foldlM step s = .ok s') : part s' = part s :=
  foldlM_invariant (fun _ _ _ _ hBefore hNext => (hStep _ _ _ hNext).trans hBefore) rfl h

/-- A map that goes along with every step goes along with the whole fold. -/
theorem foldlM_map_eq {τ : Type} {step : σ → α → Except ε σ} {step' : τ → α → Except ε τ}
    {f : σ → τ} (h : ∀ s a, step' (f s) a = f <$> step s a) (s : σ) (as : List α) :
    as.foldlM step' (f s) = f <$> as.foldlM step s := by
  induction as generalizing s with
  | nil => rfl
  | cons a as ih =>
      rw [List.foldlM_cons, List.foldlM_cons, h]
      cases step s a with
      | error e => rfl
      | ok t => exact ih t

/-- Steps that change nothing amount to nothing. -/
theorem foldlM_eq_ok_of_skip {step : σ → α → Except ε σ} {as : List α}
    (h : ∀ a ∈ as, ∀ s, step s a = .ok s) (s : σ) : as.foldlM step s = .ok s := by
  induction as with
  | nil => rfl
  | cons a as ih =>
      rw [List.foldlM_cons, h a List.mem_cons_self, ok_bind]
      exact ih fun b hb => h b (List.mem_cons_of_mem a hb)

/-- Items that every step passes over can be left out. -/
theorem foldlM_filter_eq {step : σ → α → Except ε σ} {p : α → Bool}
    (h : ∀ s a, p a = false → step s a = .ok s) (as : List α) (s : σ) :
    (as.filter p).foldlM step s = as.foldlM step s := by
  rw [List.foldlM_filter]
  congr 1
  funext s a
  cases hItem : p a with
  | false => exact (h s a hItem).symm
  | true => rfl

/-- A list is mapped successfully exactly to the list of the values of its items. -/
theorem mapM_eq_ok_iff {f : α → Except ε β} {as : List α} {bs : List β} :
    as.mapM f = .ok bs ↔ List.Forall₂ (fun a b => f a = .ok b) as bs := by
  induction as generalizing bs with
  | nil => simp [eq_comm]
  | cons a as ih =>
      rw [List.mapM_cons, bind_eq_ok_iff, List.forall₂_cons_left_iff]
      constructor
      · rintro ⟨b, hFirst, h⟩
        obtain ⟨rest, hRest, hList⟩ := bind_eq_ok_iff.1 h
        exact ⟨b, rest, hFirst, ih.1 hRest, (Except.ok.inj hList).symm⟩
      · rintro ⟨b, rest, hFirst, hRest, rfl⟩
        exact ⟨b, hFirst, bind_eq_ok_iff.2 ⟨rest, ih.2 hRest, rfl⟩⟩

theorem exists_of_mem_mapM {f : α → Except ε β} {as : List α} {bs : List β} {b : β}
    (h : as.mapM f = .ok bs) (hb : b ∈ bs) : ∃ a ∈ as, f a = .ok b := by
  have hEach := mapM_eq_ok_iff.1 h
  clear h
  induction hEach with
  | nil => exact absurd hb List.not_mem_nil
  | @cons a b' as bs hFirst _ ih =>
      rcases List.mem_cons.1 hb with rfl | hRest
      · exact ⟨a, List.mem_cons_self, hFirst⟩
      · obtain ⟨a', hMem, hValue⟩ := ih hRest
        exact ⟨a', List.mem_cons_of_mem a hMem, hValue⟩

/-- Reads an item into a field if it is selected, and keeps the field otherwise. -/
def ReadInto (read : α → Except ε β) (selected : Bool) (a : α) (before after : β) : Prop :=
  if selected then read a = .ok after else after = before

/-- The value is what the last item is read as, and the start value if there is no item. -/
def LastReadAs (read : α → Except ε β) (start : β) (as : List α) (value : β) : Prop :=
  match as.getLast? with
  | none => value = start
  | some last => read last = .ok value

theorem LastReadAs.unique {read : α → Except ε β} {start b b' : β} {as : List α}
    (h : LastReadAs read start as b) (h' : LastReadAs read start as b') : b = b' := by
  unfold LastReadAs at h h'
  cases hLast : as.getLast? with
  | none =>
      rw [hLast] at h h'
      exact h.trans h'.symm
  | some last =>
      rw [hLast] at h h'
      exact Except.ok.inj (h.symm.trans h')

theorem lastReadAs_ok_iff {f : α → β} {start value : β} {as : List α} :
    LastReadAs (fun a => (.ok (f a) : Except ε β)) start as value ↔
      value = (as.getLast?.map f).getD start := by
  unfold LastReadAs
  cases as.getLast? with
  | none => rfl
  | some last => simp [eq_comm]

/-- If every step reads the selected items into a field, a fold leaves there what the last of them
is read as. -/
theorem lastReadAs_of_foldlM {step : σ → α → Except ε σ} {selects : α → Bool}
    {read : α → Except ε β} {field : σ → β}
    (hStep : ∀ s a t, step s a = .ok t → ReadInto read (selects a) a (field s) (field t))
    {as : List α} {s t : σ} (h : as.foldlM step s = .ok t) :
    LastReadAs read (field s) (as.filter selects) (field t) := by
  induction as using List.reverseRecOn generalizing t with
  | nil => exact congrArg field (Except.ok.inj h).symm
  | append_singleton as a ih =>
      obtain ⟨u, hBefore, hLast⟩ := foldlM_append_eq_ok_iff.1 h
      obtain ⟨v, hStepped, hEnd⟩ := foldlM_cons_eq_ok_iff.1 hLast
      obtain rfl : v = t := Except.ok.inj hEnd
      have hField := hStep u a v hStepped
      rw [List.filter_append]
      cases hSelects : selects a with
      | false =>
          have hKept : field v = field u := by simpa [ReadInto, hSelects] using hField
          rw [List.filter_cons_of_neg (by simp [hSelects]), List.filter_nil, List.append_nil, hKept]
          exact ih hBefore
      | true =>
          rw [List.filter_cons_of_pos hSelects, List.filter_nil, LastReadAs,
            List.getLast?_concat]
          simpa [ReadInto, hSelects] using hField

/-- If every step gathers what the parts of the selected items are read as, a fold gathers what all
of these parts are read as, taken together. -/
theorem gathers_of_foldlM {γ : Type} {step : σ → α → Except ε σ} {selects : α → Bool}
    {parts : α → List γ} {read : γ → Except ε β} {field : σ → List β}
    {gather : List β → List β → List β} {as : List α} {s t : σ} (h : as.foldlM step s = .ok t)
    (hNil : ∀ bs, gather bs [] = bs)
    (hAppend : ∀ bs cs ds, gather bs (cs ++ ds) = gather (gather bs cs) ds)
    (hTake : ∀ s a t, step s a = .ok t → selects a = true →
      ∃ bs, (parts a).mapM read = .ok bs ∧ field t = gather (field s) bs)
    (hKeep : ∀ s a t, step s a = .ok t → selects a = false → field t = field s) :
    ∃ bs, ((as.filter selects).flatMap parts).mapM read = .ok bs ∧
      field t = gather (field s) bs := by
  induction as generalizing s with
  | nil =>
      obtain rfl := Except.ok.inj h
      exact ⟨[], rfl, (hNil _).symm⟩
  | cons a as ih =>
      obtain ⟨u, hFirst, hRest⟩ := foldlM_cons_eq_ok_iff.1 h
      obtain ⟨bs, hRead, hField⟩ := ih hRest
      cases hSelects : selects a with
      | false =>
          rw [List.filter_cons_of_neg (by simp [hSelects]), ← hKeep s a u hFirst hSelects]
          exact ⟨bs, hRead, hField⟩
      | true =>
          obtain ⟨front, hFront, hMiddle⟩ := hTake s a u hFirst hSelects
          refine ⟨front ++ bs, ?_, ?_⟩
          · rw [List.filter_cons_of_pos hSelects, List.flatMap_cons, List.mapM_append, hFront,
              ok_bind, hRead]
            rfl
          · rw [hAppend, ← hMiddle, hField]

/-- If the items come in another order, then so do the values. -/
theorem exists_perm_of_mapM {f : α → Except ε β} {as as' : List α} {bs : List β}
    (hPerm : as.Perm as') (h : as.mapM f = .ok bs) :
    ∃ bs', as'.mapM f = .ok bs' ∧ bs'.Perm bs := by
  obtain ⟨bs', hEach, hValues⟩ := List.perm_comp_forall₂ hPerm.symm (mapM_eq_ok_iff.1 h)
  exact ⟨bs', mapM_eq_ok_iff.2 hEach, hValues⟩

theorem map_eq_map_of_forall₂ {γ : Type} {R : α → β → Prop} {f : α → γ} {g : β → γ}
    {as : List α} {bs : List β} (hEqual : ∀ a b, R a b → f a = g b)
    (h : List.Forall₂ R as bs) : as.map f = bs.map g := by
  induction h with
  | nil => rfl
  | cons hFirst _ ih => rw [List.map_cons, List.map_cons, hEqual _ _ hFirst, ih]

theorem mapM_eq_mapM_of_forall₂ {γ : Type} {R : α → β → Prop} {f : α → Except ε γ}
    {g : β → Except ε γ} {as : List α} {bs : List β} (hEqual : ∀ a b, R a b → f a = g b)
    (h : List.Forall₂ R as bs) : as.mapM f = bs.mapM g := by
  induction h with
  | nil => rfl
  | cons hFirst _ ih => rw [List.mapM_cons, List.mapM_cons, hEqual _ _ hFirst, ih]

/-- A search that finds an item among the first finds its result among the second. -/
theorem rel_find?_of_forall₂ {R : α → β → Prop} {p : α → Bool} {q : β → Bool} {as : List α}
    {bs : List β} (hEqual : ∀ a b, R a b → p a = q b) (h : List.Forall₂ R as bs) :
    Option.Rel R (as.find? p) (bs.find? q) := by
  induction h with
  | nil => exact .none
  | @cons a b as bs hFirst _ ih =>
      rw [List.find?_cons, List.find?_cons, hEqual a b hFirst]
      cases q b with
      | true => exact .some hFirst
      | false => exact ih

/-- What each item is written as is read back, so the list is. -/
theorem mapM_map_eq_ok {γ : Type} {read : γ → Except ε α} {write : α → γ} {as : List α}
    (h : ∀ a ∈ as, read (write a) = .ok a) : (as.map write).mapM read = .ok as := by
  induction as with
  | nil => rfl
  | cons a as ih =>
      rw [List.map_cons, List.mapM_cons, h a List.mem_cons_self, ok_bind,
        ih fun b hb => h b (List.mem_cons_of_mem a hb)]
      rfl

/-- A run succeeds when it returns a value. -/
def Succeeds (x : Except ε α) : Prop := ∃ a, x = .ok a

@[simp] theorem succeeds_ok (a : α) : Succeeds (Except.ok a : Except ε α) := ⟨a, rfl⟩

@[simp] theorem succeeds_pure (a : α) : Succeeds (pure a : Except ε α) := ⟨a, rfl⟩

@[simp] theorem not_succeeds_error (e : ε) : ¬ Succeeds (Except.error e : Except ε α) := by
  rintro ⟨a, h⟩
  cases h

@[simp] theorem exists_eq_ok_iff {x : Except ε α} : (∃ a, x = .ok a) ↔ Succeeds x := Iff.rfl

@[simp] theorem succeeds_map_iff {x : Except ε α} {f : α → β} :
    Succeeds (f <$> x) ↔ Succeeds x := by
  cases x <;> simp

@[simp] theorem succeeds_exceptMap_iff {x : Except ε α} {f : α → β} :
    Succeeds (x.map f) ↔ Succeeds x := succeeds_map_iff

theorem succeeds_bind_iff {x : Except ε α} {f : α → Except ε β} :
    Succeeds (x >>= f) ↔ ∃ a, x = .ok a ∧ Succeeds (f a) := by
  cases x <;> simp

/-- If it does not depend on the first value whether the rest succeeds, then each of the two has to
succeed by itself. -/
theorem succeeds_bind_iff_and {x : Except ε α} {f : α → Except ε β} {Q : Prop}
    (h : ∀ a, Succeeds (f a) ↔ Q) : Succeeds (x >>= f) ↔ Succeeds x ∧ Q := by
  simp only [succeeds_bind_iff, h, exists_and_right, exists_eq_ok_iff]

theorem succeeds_foldlM_iff {step : σ → α → Except ε σ} {P : α → Prop}
    (h : ∀ s a, Succeeds (step s a) ↔ P a) {as : List α} {s : σ} :
    Succeeds (as.foldlM step s) ↔ ∀ a ∈ as, P a := by
  induction as generalizing s with
  | nil => simp
  | cons a as ih =>
      rw [List.foldlM_cons, succeeds_bind_iff_and fun t => ih, h s a, List.forall_mem_cons]

theorem succeeds_mapM_iff {f : α → Except ε β} {as : List α} :
    Succeeds (as.mapM f) ↔ ∀ a ∈ as, Succeeds (f a) := by
  induction as with
  | nil => simp
  | cons a as ih =>
      have hRest (b : β) : Succeeds (as.mapM f >>= fun bs => pure (b :: bs)) ↔
          ∀ a ∈ as, Succeeds (f a) := by
        rw [bind_pure_comp, succeeds_map_iff, ih]
      rw [List.mapM_cons, succeeds_bind_iff_and hRest, List.forall_mem_cons]

/-- Every error that a run may end with has the property. -/
def FailsWith (P : ε → Prop) (x : Except ε α) : Prop := ∀ e, x = .error e → P e

section

variable {P Q : ε → Prop} {x : Except ε α}

@[simp] theorem failsWith_ok (a : α) : FailsWith P (Except.ok a) := by
  intro e h
  cases h

@[simp] theorem failsWith_pure (a : α) : FailsWith P (pure a : Except ε α) := failsWith_ok a

@[simp] theorem failsWith_error_iff {e : ε} : FailsWith P (Except.error e : Except ε α) ↔ P e := by
  simp [FailsWith]

@[simp] theorem failsWith_map_iff {f : α → β} : FailsWith P (f <$> x) ↔ FailsWith P x := by
  cases x <;> simp

@[simp] theorem failsWith_exceptMap_iff {f : α → β} : FailsWith P (x.map f) ↔ FailsWith P x :=
  failsWith_map_iff

@[simp] theorem failsWith_bind_iff {f : α → Except ε β} :
    FailsWith P (x >>= f) ↔ FailsWith P x ∧ ∀ a, x = .ok a → FailsWith P (f a) := by
  cases x <;> simp

@[simp] theorem failsWith_mapError_iff {g : ε' → ε} {x : Except ε' α} :
    FailsWith P (x.mapError g) ↔ FailsWith (fun e => P (g e)) x := by
  cases x <;> simp [Except.mapError]

@[simp] theorem failsWith_true : FailsWith (fun _ => True) x := fun _ _ => trivial

theorem FailsWith.mono (h : FailsWith P x) (hImp : ∀ e, P e → Q e) : FailsWith Q x :=
  fun e he => hImp e (h e he)

theorem FailsWith.mapM {f : α → Except ε β} {as : List α} (h : ∀ a ∈ as, FailsWith P (f a)) :
    FailsWith P (as.mapM f) := by
  induction as with
  | nil => exact failsWith_ok []
  | cons a as ih =>
      have hRest := ih fun b hb => h b (List.mem_cons_of_mem a hb)
      simp [List.mapM_cons, h a List.mem_cons_self, hRest]

theorem FailsWith.foldlM {step : σ → α → Except ε σ} {as : List α}
    (h : ∀ s, ∀ a ∈ as, FailsWith P (step s a)) (s : σ) : FailsWith P (as.foldlM step s) := by
  induction as generalizing s with
  | nil => exact failsWith_ok s
  | cons a as ih =>
      rw [List.foldlM_cons, failsWith_bind_iff]
      exact ⟨h s a List.mem_cons_self,
        fun t _ => ih (fun s b hb => h s b (List.mem_cons_of_mem a hb)) t⟩

end

def error? : Except ε α → Option ε
  | .ok _ => none
  | .error e => some e

@[simp] theorem error?_ok (a : α) : error? (Except.ok a : Except ε α) = none := rfl

@[simp] theorem error?_pure (a : α) : error? (pure a : Except ε α) = none := rfl

@[simp] theorem error?_error (e : ε) : error? (Except.error e : Except ε α) = some e := rfl

@[simp] theorem error?_map (f : α → β) (x : Except ε α) : error? (f <$> x) = error? x := by
  cases x <;> rfl

@[simp] theorem error?_exceptMap (f : α → β) (x : Except ε α) : error? (x.map f) = error? x :=
  error?_map f x

theorem error?_bind_pure (x : Except ε α) (f : α → β) :
    error? (x >>= fun a => pure (f a)) = error? x := by
  cases x <;> rfl

theorem error?_eq_some_iff {x : Except ε α} {e : ε} : error? x = some e ↔ x = .error e := by
  cases x <;> simp

theorem error?_eq_none_iff {x : Except ε α} : error? x = none ↔ Succeeds x := by
  cases x <;> simp

/-- The first of two steps that fails has the error of both. -/
theorem error?_bind {x : Except ε α} {f : α → Except ε β} {rest : Option ε}
    (h : ∀ a, x = .ok a → error? (f a) = rest) : error? (x >>= f) = (error? x).or rest := by
  cases x with
  | error e => rfl
  | ok a => exact h a rfl

theorem findSome?_cons_eq_or (f : α → Option β) (a : α) (as : List α) :
    (a :: as).findSome? f = (f a).or (as.findSome? f) := by
  rw [List.findSome?_cons]
  cases f a <;> rfl

theorem findSome?_flatMap {γ : Type} (f : β → Option γ) (g : α → List β) (as : List α) :
    (as.flatMap g).findSome? f = as.findSome? fun a => (g a).findSome? f := by
  induction as with
  | nil => rfl
  | cons a as ih => rw [List.flatMap_cons, List.findSome?_append, ih, findSome?_cons_eq_or]

theorem error?_mapM (f : α → Except ε β) (as : List α) :
    error? (as.mapM f) = as.findSome? fun a => error? (f a) := by
  induction as with
  | nil => rfl
  | cons a as ih =>
      rw [List.mapM_cons, error?_bind fun b _ => error?_bind_pure _ _, ih, findSome?_cons_eq_or]

/-- If it does not depend on the state whether a step fails, the error of a fold is that of the
first item that lets a step fail. -/
theorem error?_foldlM {step : σ → α → Except ε σ} {failure? : α → Option ε}
    (h : ∀ s a, error? (step s a) = failure? a) (as : List α) (s : σ) :
    error? (as.foldlM step s) = as.findSome? failure? := by
  induction as generalizing s with
  | nil => rfl
  | cons a as ih =>
      rw [List.foldlM_cons, error?_bind fun t _ => ih t, h, findSome?_cons_eq_or]

@[simp] theorem mapError_ok (g : ε → ε') (a : α) :
    (Except.ok a : Except ε α).mapError g = .ok a := rfl

@[simp] theorem mapError_error (g : ε → ε') (e : ε) :
    (Except.error e : Except ε α).mapError g = .error (g e) := rfl

theorem mapError_bind (g : ε → ε') (x : Except ε α) (f : α → Except ε β) :
    (x >>= f).mapError g = x.mapError g >>= fun a => (f a).mapError g := by
  cases x <;> rfl

theorem mapError_map (g : ε → ε') (x : Except ε α) (f : α → β) :
    (f <$> x).mapError g = f <$> x.mapError g := by
  cases x <;> rfl

theorem map_mapError_bind {γ δ : Type} {g : ε → ε'} {k : α → γ} {l : β → δ} {x : Except ε α}
    {f : α → Except ε β} {f' : γ → Except ε' δ} (h : ∀ a, f' (k a) = l <$> (f a).mapError g) :
    k <$> x.mapError g >>= f' = l <$> (x >>= f).mapError g := by
  cases x with
  | error e => rfl
  | ok a => exact h a

/-- If every step changes its states and its errors alike, then so does the fold. -/
theorem map_mapError_foldlM {γ τ : Type} {g : ε → ε'} {k : σ → τ} {step : σ → α → Except ε σ}
    {step' : τ → γ → Except ε' τ} {change : α → γ}
    (h : ∀ s a, step' (k s) (change a) = k <$> (step s a).mapError g) (as : List α) (s : σ) :
    (as.map change).foldlM step' (k s) = k <$> (as.foldlM step s).mapError g := by
  induction as generalizing s with
  | nil => rfl
  | cons a as ih =>
      rw [List.map_cons, List.foldlM_cons, List.foldlM_cons, h]
      exact map_mapError_bind ih

/-- If every step changes its errors alike, then so does the fold. -/
theorem mapError_foldlM {γ : Type} {g : ε → ε'} {step : σ → α → Except ε σ}
    {step' : σ → γ → Except ε' σ} {change : α → γ}
    (h : ∀ s a, step' s (change a) = (step s a).mapError g) (as : List α) (s : σ) :
    (as.map change).foldlM step' s = (as.foldlM step s).mapError g := by
  have hId : ∀ s a, step' (id s) (change a) = id <$> (step s a).mapError g := by
    intro s a
    rw [id_map]
    exact h s a
  have hFold := map_mapError_foldlM hId as s
  rwa [id_map] at hFold

theorem mapError_mapM {γ : Type} {g : ε → ε'} {f : α → Except ε β} {f' : γ → Except ε' β}
    {change : α → γ} (h : ∀ a, f' (change a) = (f a).mapError g) (as : List α) :
    (as.map change).mapM f' = (as.mapM f).mapError g := by
  induction as with
  | nil => rfl
  | cons a as ih =>
      rw [List.map_cons, List.mapM_cons, List.mapM_cons, mapError_bind, h]
      congr 1
      funext b
      rw [mapError_bind, ih]
      rfl

end ContractDoc.Outcome

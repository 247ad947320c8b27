/-! # Registries

A registry holds values under ids, in ascending order of the ids. The order is part of the type,
so two registries with the same contents are equal.
-/

namespace ContractDoc

/-- Values under ids. Ids are compared character by character, by code point. -/
structure Registry (α : Type) where
  entries : List (String × α)
  ascending : entries.Pairwise fun a b => a.1 < b.1
  deriving DecidableEq

namespace Registry

variable {α : Type}

def empty : Registry α := ⟨[], .nil⟩

def ids (registry : Registry α) : List String := registry.entries.map Prod.fst

def values (registry : Registry α) : List α := registry.entries.map Prod.snd

def get? (registry : Registry α) (id : String) : Option α := registry.entries.lookup id

/-- Puts an entry into its place among ascending entries; an entry with the same id gives way. -/
def insertEntry (id : String) (value : α) : List (String × α) → List (String × α)
  | [] => [(id, value)]
  | (key, old) :: rest =>
      if id < key then (id, value) :: (key, old) :: rest
      else if id = key then (id, value) :: rest
      else (key, old) :: insertEntry id value rest

theorem mem_insertEntry {id : String} {value : α} {entry : String × α}
    {entries : List (String × α)} (h : entry ∈ insertEntry id value entries) :
    entry = (id, value) ∨ entry ∈ entries := by
  induction entries with
  | nil => simpa [insertEntry] using h
  | cons first rest ih =>
      obtain ⟨key, old⟩ := first
      rw [insertEntry] at h
      split at h
      · simpa using h
      · split at h
        · rcases List.mem_cons.1 h with rfl | h
          · exact .inl rfl
          · exact .inr (List.mem_cons_of_mem _ h)
        · rcases List.mem_cons.1 h with rfl | h
          · exact .inr List.mem_cons_self
          · exact (ih h).imp_right (List.mem_cons_of_mem _)

theorem lt_of_not_lt_of_ne {a b : String} (h : ¬a < b) (hne : a ≠ b) : b < a := by
  rcases String.le_total a b with hab | hba
  · exact absurd (String.le_antisymm hab (String.not_lt.1 h)) hne
  · exact String.not_le.1 fun hab => hne (String.le_antisymm hab hba)

theorem ascending_insertEntry (id : String) (value : α) {entries : List (String × α)}
    (h : entries.Pairwise fun a b => a.1 < b.1) :
    (insertEntry id value entries).Pairwise fun a b => a.1 < b.1 := by
  induction entries with
  | nil => simp [insertEntry]
  | cons first rest ih =>
      obtain ⟨key, old⟩ := first
      obtain ⟨hFirst, hRest⟩ := List.pairwise_cons.1 h
      rw [insertEntry]
      split
      · next hLt =>
          refine List.pairwise_cons.2 ⟨fun entry hEntry => ?_, h⟩
          rcases List.mem_cons.1 hEntry with rfl | hEntry
          · exact hLt
          · exact String.lt_trans hLt (hFirst entry hEntry)
      · next hLt =>
          split
          · next hEq =>
              exact List.pairwise_cons.2 ⟨fun entry hEntry => hEq ▸ hFirst entry hEntry, hRest⟩
          · next hNe =>
              refine List.pairwise_cons.2 ⟨fun entry hEntry => ?_, ih hRest⟩
              rcases mem_insertEntry hEntry with rfl | hEntry
              · exact lt_of_not_lt_of_ne hLt hNe
              · exact hFirst entry hEntry

/-- Puts a value under an id. A value that was there before is replaced. -/
def insert (registry : Registry α) (id : String) (value : α) : Registry α :=
  ⟨insertEntry id value registry.entries, ascending_insertEntry id value registry.ascending⟩

/-- Puts a value under an id that is not yet in use. -/
def register? (registry : Registry α) (id : String) (value : α) : Option (Registry α) :=
  if (registry.get? id).isSome then none else some (registry.insert id value)

end Registry
end ContractDoc

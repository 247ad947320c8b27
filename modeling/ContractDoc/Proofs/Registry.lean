import ContractDoc.Proofs.Outcome
import ContractDoc.Registry

/-! # What registries keep

A property of all entries is kept by every insertion of an entry that has it. In particular a
registry that is filled under the ids of its own values stays keyed by them. Values that are put in
one after the other are all there if their ids differ, and otherwise the last one with an id is. A
registry whose entries are put into an empty one in their order is filled as it was. If no id is put
in twice, the order in which values are put in does not matter.
-/

namespace ContractDoc.Registry

variable {α : Type}

def Holds (P : String → α → Prop) (registry : Registry α) : Prop :=
  ∀ entry ∈ registry.entries, P entry.1 entry.2

theorem pairwise_ids (registry : Registry α) : registry.ids.Pairwise (· < ·) :=
  List.pairwise_map.2 registry.ascending

variable {P : String → α → Prop}

theorem holds_empty : (empty : Registry α).Holds P := by
  intro entry hEntry
  exact absurd hEntry List.not_mem_nil

theorem Holds.insert {registry : Registry α} {id : String} {value : α} (h : registry.Holds P)
    (hNew : P id value) : (registry.insert id value).Holds P := by
  intro entry hEntry
  rcases mem_insertEntry hEntry with rfl | hOld
  · exact hNew
  · exact h entry hOld

theorem Holds.register? {registry next : Registry α} {id : String} {value : α}
    (h : registry.Holds P) (hNew : P id value)
    (hNext : registry.register? id value = some next) : next.Holds P := by
  unfold Registry.register? at hNext
  split at hNext
  · exact absurd hNext (by simp)
  · obtain rfl := Option.some.inj hNext
    exact h.insert hNew

theorem lookup_cons_eq_ite (key id : String) (value : α) (entries : List (String × α)) :
    ((id, value) :: entries).lookup key = if key = id then some value else entries.lookup key := by
  rw [List.lookup_cons]
  cases hKey : key == id <;> simp_all

theorem lookup_insertEntry (id key : String) (value : α) (entries : List (String × α)) :
    (insertEntry id value entries).lookup key =
      if key = id then some value else entries.lookup key := by
  induction entries with
  | nil => exact lookup_cons_eq_ite key id value []
  | cons first rest ih =>
      obtain ⟨k, old⟩ := first
      rw [insertEntry]
      split
      · exact lookup_cons_eq_ite key id value _
      · split
        · next hId =>
            rw [← hId, lookup_cons_eq_ite, lookup_cons_eq_ite]
            split <;> rfl
        · next hNe =>
            rw [lookup_cons_eq_ite, lookup_cons_eq_ite, ih]
            by_cases hKey : key = k
            · rw [if_pos hKey, if_pos hKey, if_neg (hKey ▸ Ne.symm hNe)]
            · rw [if_neg hKey, if_neg hKey]

theorem get?_insert (registry : Registry α) (id key : String) (value : α) :
    (registry.insert id value).get? key = if key = id then some value else registry.get? key :=
  lookup_insertEntry id key value registry.entries

theorem isSome_get?_iff {registry : Registry α} {id : String} :
    (registry.get? id).isSome ↔ id ∈ registry.ids := by
  rw [get?, List.lookup_isSome_iff, ids, List.mem_map]
  exact exists_congr fun entry => and_congr_right fun _ => beq_iff_eq.trans eq_comm

theorem insertEntry_perm {id : String} (value : α) {entries : List (String × α)}
    (h : id ∉ entries.map Prod.fst) :
    (insertEntry id value entries).Perm ((id, value) :: entries) := by
  induction entries with
  | nil => exact .refl _
  | cons first rest ih =>
      obtain ⟨key, old⟩ := first
      rw [List.map_cons, List.mem_cons, not_or] at h
      rw [insertEntry]
      split
      · exact .refl _
      · rw [if_neg h.1]
        exact ((ih h.2).cons _).trans (.swap _ _ _)

theorem register?_eq_some_iff {registry next : Registry α} {id : String} {value : α} :
    registry.register? id value = some next ↔
      id ∉ registry.ids ∧ registry.insert id value = next := by
  rw [register?, ← isSome_get?_iff]
  split <;> simp_all

theorem register?_eq_none_iff {registry : Registry α} {id : String} {value : α} :
    registry.register? id value = none ↔ id ∈ registry.ids := by
  rw [register?, ← isSome_get?_iff]
  split <;> simp_all

/-- Puts values under ids of their own. A value that was there before is replaced. -/
def insertAll (key : α → String) (registry : Registry α) (values : List α) : Registry α :=
  values.foldl (fun all value => all.insert (key value) value) registry

/-- Puts values under ids of their own, none of which may be in use. -/
def registerAll? (key : α → String) (registry : Registry α) (values : List α) :
    Option (Registry α) :=
  values.foldlM (fun all value => all.register? (key value) value) registry

variable {key : α → String} {values : List α}

theorem registerAll?_cons_eq_some_iff {registry next : Registry α} {value : α} :
    registry.registerAll? key (value :: values) = some next ↔
      ∃ middle, registry.register? (key value) value = some middle ∧
        middle.registerAll? key values = some next := by
  rw [registerAll?, List.foldlM_cons, Option.bind_eq_bind, Option.bind_eq_some_iff]
  rfl

theorem mem_ids_insert {registry : Registry α} {id : String} {value : α}
    (h : id ∉ registry.ids) {other : String} :
    other ∈ (registry.insert id value).ids ↔ other = id ∨ other ∈ registry.ids := by
  have hEntries : (registry.insert id value).entries.Perm ((id, value) :: registry.entries) :=
    insertEntry_perm value h
  rw [ids, (hEntries.map Prod.fst).mem_iff, List.map_cons, List.mem_cons]
  rfl

/-- Values can be put under their ids exactly if these differ from each other and are new. -/
theorem isSome_registerAll?_iff {registry : Registry α} :
    (registry.registerAll? key values).isSome ↔
      (values.map key).Nodup ∧ ∀ value ∈ values, key value ∉ registry.ids := by
  induction values generalizing registry with
  | nil => simp [registerAll?]
  | cons value values ih =>
      simp only [Option.isSome_iff_exists, registerAll?_cons_eq_some_iff, register?_eq_some_iff,
        and_assoc, exists_and_left, exists_eq_left'] at ih ⊢
      rw [ih, List.map_cons, List.nodup_cons, List.forall_mem_cons]
      constructor
      · rintro ⟨hNew, hDistinct, hRest⟩
        refine ⟨⟨?_, hDistinct⟩, hNew, ?_⟩
        · intro hMem
          obtain ⟨other, hOther, hKey⟩ := List.mem_map.1 hMem
          exact hRest other hOther ((mem_ids_insert hNew).2 (.inl hKey))
        · exact fun other hOther hMem => hRest other hOther ((mem_ids_insert hNew).2 (.inr hMem))
      · rintro ⟨⟨hFirst, hDistinct⟩, hNew, hRest⟩
        refine ⟨hNew, hDistinct, fun other hOther hMem => ?_⟩
        rcases (mem_ids_insert hNew).1 hMem with hKey | hMem
        · exact hFirst (List.mem_map.2 ⟨other, hOther, hKey⟩)
        · exact hRest other hOther hMem

/-- Nothing is lost or put in twice. -/
theorem perm_of_registerAll? {registry next : Registry α}
    (h : registry.registerAll? key values = some next) :
    next.entries.Perm (values.map (fun value => (key value, value)) ++ registry.entries) := by
  induction values generalizing registry with
  | nil =>
      obtain rfl := Option.some.inj h
      exact .refl _
  | cons value values ih =>
      obtain ⟨middle, hFirst, hRest⟩ := registerAll?_cons_eq_some_iff.1 h
      obtain ⟨hNew, rfl⟩ := register?_eq_some_iff.1 hFirst
      have hStep := insertEntry_perm value hNew
      exact (ih hRest).trans ((hStep.append_left _).trans List.perm_middle)

/-- Of several values with the same id the last one is found. -/
theorem get?_insertAll (registry : Registry α) (id : String) :
    (registry.insertAll key values).get? id =
      (values.reverse.find? fun value => key value == id).or (registry.get? id) := by
  induction values generalizing registry with
  | nil => rfl
  | cons value values ih =>
      rw [insertAll, List.foldl_cons]
      refine (ih (registry.insert (key value) value)).trans ?_
      rw [get?_insert, List.reverse_cons, List.find?_append, Option.or_assoc,
        List.find?_singleton]
      by_cases hKey : id = key value
      · simp [hKey]
      · simp [hKey, Ne.symm hKey]

theorem ext_entries {registry other : Registry α} (h : registry.entries = other.entries) :
    registry = other := by
  cases registry
  cases other
  cases h
  rfl

theorem insertEntry_of_lt {id : String} (value : α) {entries : List (String × α)}
    (h : ∀ entry ∈ entries, entry.1 < id) :
    insertEntry id value entries = entries ++ [(id, value)] := by
  induction entries with
  | nil => rfl
  | cons first rest ih =>
      obtain ⟨key, old⟩ := first
      have hLt : key < id := h (key, old) List.mem_cons_self
      have hNe : id ≠ key := by
        rintro rfl
        exact String.lt_irrefl id hLt
      rw [insertEntry, if_neg (fun hGt => String.lt_irrefl id (String.lt_trans hGt hLt)),
        if_neg hNe, ih fun entry hEntry => h entry (List.mem_cons_of_mem _ hEntry)]
      rfl

theorem register?_of_lt {registry : Registry α} {id : String} (value : α)
    (h : ∀ entry ∈ registry.entries, entry.1 < id) :
    registry.register? id value = some (registry.insert id value) := by
  have hNone : registry.get? id = none := by
    rw [get?, List.lookup_eq_none_iff]
    intro entry hEntry
    simp only [bne_iff_ne]
    rintro rfl
    exact String.lt_irrefl entry.1 (h entry hEntry)
  rw [register?, hNone]
  rfl

/-- A registry is filled again by steps that each put in the entry behind all those before. -/
theorem foldlM_values {ε σ β : Type} {step : σ → β → Except ε σ} (pack : Registry α → σ)
    {write : α → β} {registry : Registry α}
    (h : ∀ (part : Registry α) (entry : String × α), entry ∈ registry.entries →
      (∀ before ∈ part.entries, before.1 < entry.1) →
      step (pack part) (write entry.2) = .ok (pack (part.insert entry.1 entry.2))) :
    (registry.values.map write).foldlM step (pack .empty) = .ok (pack registry) := by
  -- the entries split into those put in so far and the rest
  have hRest : ∀ (rest : List (String × α)) (part : Registry α),
      registry.entries = part.entries ++ rest →
      ((rest.map Prod.snd).map write).foldlM step (pack part) = .ok (pack registry) := by
    intro rest
    induction rest with
    | nil =>
        intro part hSplit
        rw [List.append_nil] at hSplit
        rw [ext_entries hSplit]
        rfl
    | cons entry rest ih =>
        intro part hSplit
        have hAscending := registry.ascending
        rw [hSplit, List.pairwise_append] at hAscending
        have hLt : ∀ before ∈ part.entries, before.1 < entry.1 := fun before hBefore =>
          hAscending.2.2 before hBefore entry List.mem_cons_self
        have hMem : entry ∈ registry.entries :=
          hSplit ▸ List.mem_append_right part.entries List.mem_cons_self
        have hInsert : (part.insert entry.1 entry.2).entries = part.entries ++ [entry] :=
          insertEntry_of_lt entry.2 hLt
        rw [List.map_cons, List.map_cons, List.foldlM_cons, h part entry hMem hLt,
          Outcome.ok_bind]
        apply ih
        rw [hInsert, hSplit, List.append_assoc]
        rfl
  exact hRest registry.entries .empty rfl

theorem eq_of_perm {registry other : Registry α} (h : registry.entries.Perm other.entries) :
    registry = other :=
  ext_entries <| h.eq_of_pairwise
    (fun a _ _ _ hLt hGt => absurd (String.lt_trans hLt hGt) (String.lt_irrefl a.1))
    registry.ascending other.ascending

/-- A registry holds the values that were put in and what was there before, and nothing more. -/
theorem registerAll?_eq_some_iff {registry next : Registry α} :
    registry.registerAll? key values = some next ↔
      next.entries.Perm (values.map (fun value => (key value, value)) ++ registry.entries) := by
  refine ⟨perm_of_registerAll?, fun hPerm => ?_⟩
  have hIds : (values.map key ++ registry.ids).Nodup := by
    have hNext : next.ids.Nodup := next.pairwise_ids.imp String.ne_of_lt
    have hSame := (hPerm.map Prod.fst).nodup_iff.1 hNext
    rwa [List.map_append, List.map_map] at hSame
  obtain ⟨hDistinct, -, hNew⟩ := List.nodup_append.1 hIds
  have hSome : (registry.registerAll? key values).isSome :=
    isSome_registerAll?_iff.2 ⟨hDistinct, fun value hValue hUsed =>
      hNew _ (List.mem_map_of_mem hValue) _ hUsed rfl⟩
  obtain ⟨other, hOther⟩ := Option.isSome_iff_exists.1 hSome
  rw [hOther, eq_of_perm (hPerm.trans (perm_of_registerAll? hOther).symm)]

theorem registerAll?_eq_of_perm (registry : Registry α) {values' : List α}
    (h : values.Perm values') : registry.registerAll? key values =
      registry.registerAll? key values' := by
  ext next
  rw [registerAll?_eq_some_iff, registerAll?_eq_some_iff]
  have hEntries := (h.map fun value => (key value, value)).append_right registry.entries
  exact ⟨fun hNext => hNext.trans hEntries, fun hNext => hNext.trans hEntries.symm⟩

/-- As long as no value gives way, putting values in and registering them are the same. -/
theorem registerAll?_eq_some_insertAll {registry : Registry α} (hDistinct : (values.map key).Nodup)
    (hNew : ∀ value ∈ values, key value ∉ registry.ids) :
    registry.registerAll? key values = some (registry.insertAll key values) := by
  have hSome := isSome_registerAll?_iff.2 ⟨hDistinct, hNew⟩
  obtain ⟨next, hNext⟩ := Option.isSome_iff_exists.1 hSome
  rw [hNext]
  clear hSome hDistinct hNew
  induction values generalizing registry with
  | nil => exact hNext.symm
  | cons value values ih =>
      obtain ⟨middle, hFirst, hRest⟩ := registerAll?_cons_eq_some_iff.1 hNext
      obtain ⟨-, rfl⟩ := register?_eq_some_iff.1 hFirst
      exact ih hRest

theorem insertAll_eq_of_perm {values' : List α} (hDistinct : (values.map key).Nodup)
    (h : values.Perm values') :
    empty.insertAll key values = empty.insertAll key values' := by
  have hDistinct' := (h.map key).nodup_iff.1 hDistinct
  have hEqual : empty.registerAll? key values = empty.registerAll? key values' :=
    registerAll?_eq_of_perm .empty h
  rw [registerAll?_eq_some_insertAll hDistinct fun _ _ => List.not_mem_nil,
    registerAll?_eq_some_insertAll hDistinct' fun _ _ => List.not_mem_nil] at hEqual
  exact Option.some.inj hEqual

end ContractDoc.Registry

import ContractDoc.Proofs.Xml.Preorder

/-! # Walks and addresses

A walk keeps the elements before it on a stack and pushes the children of each element that it
takes. What it takes is what recursion over the tree lists, and it comes to every address below its
start exactly once.
-/

namespace ContractDoc.Xml

/-- The way down to an element: the number of a child at each level. -/
abbrev Address := List Nat

namespace Element

/-- The elements below an element by recursion: each child, and behind it what is below it. -/
def listing : Element → List Element
  | ⟨_, _, children, _, _⟩ => listAll children
where
  listAll : List Element → List Element
    | [] => []
    | e :: es => e :: (e.listing ++ listAll es)

def at? (element : Element) : Address → Option Element
  | [] => some element
  | number :: address => element.children[number]?.bind (·.at? address)

/-- The addresses below an element by the same recursion as its listing. -/
def addresses : Element → List Address
  | ⟨_, _, children, _, _⟩ => addressesFrom 0 children
where
  addressesFrom (number : Nat) : List Element → List Address
    | [] => []
    | e :: es => [number] :: (e.addresses.map (number :: ·) ++ addressesFrom (number + 1) es)

/-- The addresses of the children, where the element itself stands at `address`. -/
def childAddresses (element : Element) (address : Address) : List Address :=
  (List.range element.children.length).map fun number => address ++ [number]

open listing (listAll)
open addresses (addressesFrom)

theorem listAll_append (es fs : List Element) :
    listAll (es ++ fs) = listAll es ++ listAll fs := by
  induction es with
  | nil => rfl
  | cons e es ih =>
      rw [List.cons_append, listAll, listAll, ih, List.cons_append, List.append_assoc]

theorem listing_eq (element : Element) : element.listing = listAll element.children := by
  cases element
  rfl

theorem size_eq (element : Element) : element.size = size.sizeAll element.children + 1 := by
  obtain ⟨name, attributes, children, text, line⟩ := element
  exact Nat.add_comm 1 _

theorem addresses_eq (element : Element) :
    element.addresses = addressesFrom 0 element.children := by
  cases element
  rfl

theorem at?_append (element : Element) (first second : Address) :
    element.at? (first ++ second) = (element.at? first).bind (·.at? second) := by
  induction first generalizing element with
  | nil => rfl
  | cons number first ih =>
      rw [List.cons_append, at?, at?]
      cases element.children[number]? with
      | none => rfl
      | some child => exact ih child

theorem mem_addressesFrom_iff {number : Nat} {children : List Element} {address : Address} :
    address ∈ addressesFrom number children ↔
      ∃ i child rest, children[i]? = some child ∧ address = (number + i) :: rest ∧
        (rest = [] ∨ rest ∈ child.addresses) := by
  induction children generalizing number with
  | nil => simp [addressesFrom]
  | cons first others ih =>
      rw [addressesFrom, List.mem_cons, List.mem_append, List.mem_map, ih]
      constructor
      · rintro (rfl | ⟨rest, hRest, rfl⟩ | ⟨i, child, rest, hChild, rfl, hRest⟩)
        · exact ⟨0, first, [], rfl, rfl, .inl rfl⟩
        · exact ⟨0, first, rest, rfl, rfl, .inr hRest⟩
        · exact ⟨i + 1, child, rest, hChild, by rw [Nat.add_assoc, Nat.add_comm 1], hRest⟩
      · rintro ⟨_ | i, child, rest, hChild, rfl, hRest⟩
        · obtain rfl := Option.some.inj hChild
          rcases hRest with rfl | hRest
          · exact .inl rfl
          · exact .inr (.inl ⟨rest, hRest, rfl⟩)
        · exact .inr (.inr ⟨i, child, rest, hChild, by rw [Nat.add_assoc, Nat.add_comm 1], hRest⟩)

/-- All addresses are listed but that of the element itself. -/
theorem mem_addresses_iff {element : Element} {address : Address} :
    address ∈ element.addresses ↔ address ≠ [] ∧ (element.at? address).isSome := by
  induction address generalizing element with
  | nil =>
      rw [addresses_eq, mem_addressesFrom_iff]
      simp
  | cons number below ih =>
      rw [addresses_eq, mem_addressesFrom_iff, at?, Option.isSome_bind]
      constructor
      · rintro ⟨i, child, rest, hChild, hAddress, hRest⟩
        obtain ⟨rfl, rfl⟩ := List.cons.inj hAddress
        rw [Nat.zero_add, hChild]
        rcases hRest with rfl | hRest
        · exact ⟨List.cons_ne_nil _ _, rfl⟩
        · exact ⟨List.cons_ne_nil _ _, (ih.1 hRest).2⟩
      · rintro ⟨-, hBelow⟩
        obtain ⟨child, hChild, hBelow⟩ := (Option.any_eq_true _ _).1 hBelow
        refine ⟨number, child, below, hChild, by rw [Nat.zero_add], ?_⟩
        by_cases hEnd : below = []
        · exact .inl hEnd
        · exact .inr (ih.2 ⟨hEnd, hBelow⟩)

/-- Two children, the first of them with two children of its own. -/
example : addresses ⟨"a", [], [⟨"b", [], [⟨"c", [], [], "", 1⟩, ⟨"c", [], [], "", 1⟩], "", 1⟩,
    ⟨"c", [], [], "", 1⟩], "", 1⟩ = [[0], [0, 0], [0, 1], [1]] := by decide

theorem cons_lt_of_mem_addressesFrom {number : Nat} {children : List Element} {address : Address}
    (h : address ∈ addressesFrom (number + 1) children) (rest : Address) :
    number :: rest < address := by
  obtain ⟨i, child, tail, -, rfl, -⟩ := mem_addressesFrom_iff.1 h
  exact List.cons_lt_cons_iff.2 (.inl (by omega))

mutual

/-- The addresses are listed in the order of their numbers. -/
theorem pairwise_addresses : (element : Element) → element.addresses.Pairwise (· < ·)
  | ⟨_, _, children, _, _⟩ => pairwise_addressesFrom 0 children

theorem pairwise_addressesFrom (number : Nat) : (children : List Element) →
    (addressesFrom number children).Pairwise (· < ·)
  | [] => List.Pairwise.nil
  | first :: others => by
      have hFirst : (first.addresses.map (number :: ·)).Pairwise (· < ·) :=
        (pairwise_addresses first).map _ fun _ _ h => List.cons_lt_cons_iff.2 (.inr ⟨rfl, h⟩)
      rw [addressesFrom, List.pairwise_cons, List.pairwise_append]
      refine ⟨fun address hAddress => ?_, hFirst, pairwise_addressesFrom (number + 1) others,
        fun below hBelow address hAddress => ?_⟩
      · rcases List.mem_append.1 hAddress with hBelow | hAfter
        · obtain ⟨rest, hRest, rfl⟩ := List.mem_map.1 hBelow
          obtain ⟨i, tail, rfl⟩ := List.exists_cons_of_ne_nil (mem_addresses_iff.1 hRest).1
          exact List.cons_lt_cons_iff.2 (.inr ⟨rfl, List.nil_lt_cons _ _⟩)
        · exact cons_lt_of_mem_addressesFrom hAfter []
      · obtain ⟨rest, -, rfl⟩ := List.mem_map.1 hBelow
        exact cons_lt_of_mem_addressesFrom hAddress rest

end

theorem nodup_addresses (element : Element) : element.addresses.Nodup := by
  apply (pairwise_addresses element).imp
  rintro address _ hLess rfl
  exact List.lt_irrefl address hLess

end Element

namespace Walk

open Element.listing (listAll)
open Element.addresses (addressesFrom)

variable {walk rest last : Walk} {element : Element} {met : List Element}

/-- The stack of a walk, its top at the end. -/
def stack (walk : Walk) : List Element := walk.pending.reverse

/-- A walk gives the elements, one after the other, and leaves another walk. -/
inductive Produces : Walk → List Element → Walk → Prop
  | refl (walk : Walk) : Produces walk [] walk
  | next {walk rest last : Walk} {element : Element} {met : List Element} :
      walk.next? = some (element, rest) → Produces rest met last →
      Produces walk (element :: met) last

/-- A walk through a tree comes to addresses, one after the other, until nothing is left. The
elements on its stack stand at the addresses `waiting`, the top first. -/
inductive Visits (root : Element) : Walk → List Address → List Address → Prop
  | done {walk : Walk} : walk.next? = none → Visits root walk [] []
  | next {walk rest : Walk} {element : Element} {address : Address}
      {waiting visited : List Address} :
      walk.next? = some (element, rest) → root.at? address = some element →
      Visits root rest (element.childAddresses address ++ waiting) visited →
      Visits root walk (address :: waiting) (address :: visited)

/-- The elements that a walk has before it: those on its stack, each with what is below it. -/
def ahead (walk : Walk) : List Element := listAll walk.pending

theorem next?_eq_some_iff :
    walk.next? = some (element, rest) ↔
      ∃ others, walk.pending = element :: others ∧ rest.pending = element.children ++ others := by
  obtain ⟨pending⟩ := walk
  obtain ⟨after⟩ := rest
  cases pending with
  | nil => simp [next?]
  | cons first others =>
      simp only [next?, Option.some.injEq, Prod.mk.injEq, mk.injEq, List.cons.injEq]
      constructor
      · rintro ⟨rfl, rfl⟩
        exact ⟨others, ⟨rfl, rfl⟩, rfl⟩
      · rintro ⟨_, ⟨rfl, rfl⟩, rfl⟩
        exact ⟨rfl, rfl⟩

theorem next?_eq_none_iff : walk.next? = none ↔ walk.pending = [] := by
  obtain ⟨pending⟩ := walk
  cases pending <;> simp [next?]

/-- A step takes the element on top of the stack and pushes its children, the last one first. -/
theorem next?_eq_some_iff_stack :
    walk.next? = some (element, rest) ↔
      ∃ others, walk.stack = others ++ [element] ∧
        rest.stack = others ++ element.children.reverse := by
  rw [next?_eq_some_iff]
  constructor
  · rintro ⟨others, hWalk, hRest⟩
    exact ⟨others.reverse, by simp [stack, hWalk], by simp [stack, hRest]⟩
  · rintro ⟨others, hWalk, hRest⟩
    exact ⟨others.reverse, by simpa [stack] using congrArg List.reverse hWalk,
      by simpa [stack] using congrArg List.reverse hRest⟩

theorem ahead_of_next? (h : walk.next? = some (element, rest)) :
    walk.ahead = element :: rest.ahead := by
  obtain ⟨others, hWalk, hRest⟩ := next?_eq_some_iff.1 h
  rw [ahead, ahead, hWalk, hRest, Element.listAll_append, ← Element.listing_eq]
  rfl

/-- What a walk has met and what is ahead of it never changes when both are put together, and each
element that is met is one less ahead. -/
theorem Produces.ahead (h : Produces walk met last) :
    walk.ahead = met ++ last.ahead ∧ walk.size = met.length + last.size := by
  induction h with
  | refl => exact ⟨rfl, (Nat.zero_add _).symm⟩
  | next hNext _ ih =>
      rw [ahead_of_next? hNext, size_eq_of_next? hNext, ih.1, ih.2, List.length_cons]
      exact ⟨rfl, by omega⟩

theorem Produces.toList (h : Produces walk met last) : walk.toList = met ++ last.toList := by
  induction h with
  | refl => rfl
  | next hNext _ ih => rw [toList_of_next? hNext, ih, List.cons_append]

theorem Visits.produces {root : Element} {waiting visited : List Address}
    (h : Visits root walk waiting visited) :
    ∃ met last, Produces walk met last ∧ last.next? = none ∧
      visited.map root.at? = met.map some := by
  induction h with
  | done hNext => exact ⟨[], _, .refl _, hNext, rfl⟩
  | @next _ _ element _ _ _ hNext hAt _ ih =>
      obtain ⟨met, last, hRest, hLast, hMet⟩ := ih
      exact ⟨element :: met, last, .next hNext hRest, hLast, by
        rw [List.map_cons, List.map_cons, hAt, hMet]⟩

theorem Visits.unique {root : Element} {waiting visited other : List Address}
    (h : Visits root walk waiting visited) (hOther : Visits root walk waiting other) :
    visited = other := by
  induction h generalizing other with
  | done => cases hOther with | done => rfl
  | next hNext _ _ ih =>
      cases hOther with
      | next hNext' _ hRest =>
          obtain ⟨rfl, rfl⟩ := Prod.mk.inj (Option.some.inj (hNext.symm.trans hNext'))
          rw [ih hRest]

mutual

/-- A walk through what is below an element comes to the addresses there, and then goes on. -/
theorem visits_below {root : Element} {address : Address} {es : List Element}
    {waiting visited : List Address} (h : Visits root ⟨es⟩ waiting visited) :
    (element : Element) → root.at? address = some element →
      Visits root ⟨element.children ++ es⟩ (element.childAddresses address ++ waiting)
        (element.addresses.map (address ++ ·) ++ visited)
  | ⟨name, attributes, children, text, line⟩, hAt => by
      rw [Element.childAddresses, List.range_eq_range']
      exact visits_children h hAt [] children rfl

theorem visits_children {root parent : Element} {address : Address} {es : List Element}
    {waiting visited : List Address} (h : Visits root ⟨es⟩ waiting visited)
    (hAt : root.at? address = some parent) (before : List Element) :
    (children : List Element) → parent.children = before ++ children →
      Visits root ⟨children ++ es⟩
        ((List.range' before.length children.length).map (address ++ [·]) ++ waiting)
        ((addressesFrom before.length children).map (address ++ ·) ++ visited)
  | [], _ => h
  | first :: others, hChildren => by
      -- `before` are the children that were taken, so its length is the number of the next one
      have hFirst : root.at? (address ++ [before.length]) = some first := by
        simp [Element.at?_append, hAt, Element.at?, hChildren]
      have hOthers := visits_children h hAt (before ++ [first]) others (by simp [hChildren])
      have hBelow := visits_below hOthers first hFirst
      simp only [addressesFrom, List.map_cons, List.map_append, List.length_cons,
        List.range'_succ, List.cons_append, List.append_assoc, List.map_map] at hBelow ⊢
      refine .next rfl hFirst ?_
      simpa [Function.comp_def] using hBelow

end

end Walk

namespace Element

open Walk (Visits)
open listing (listAll)

variable {element below : Element}

theorem visits_iff {visited : List Address} :
    Visits element (Walk.below element) (element.childAddresses []) visited ↔
      visited = element.addresses := by
  have hAt : element.at? [] = some element := rfl
  have hDone : Visits element ⟨[]⟩ [] [] := .done rfl
  have hVisits : Visits element (Walk.below element) (element.childAddresses [])
      element.addresses := by
    simpa [Walk.below] using Walk.visits_below hDone element hAt
  constructor
  · exact fun h => h.unique hVisits
  · rintro rfl
    exact hVisits

theorem eq_listing_of_produces {met : List Element} {last : Walk}
    (h : (Walk.below element).Produces met last) (hLast : last.next? = none) :
    met = element.listing := by
  have hAhead := h.ahead.1
  rw [Walk.ahead, Walk.ahead, Walk.next?_eq_none_iff.1 hLast] at hAhead
  simpa [listAll, listing_eq, Walk.below] using hAhead.symm

/-- The walk comes to its end, and has met what recursion lists then. -/
theorem exists_produces_listing (element : Element) :
    ∃ last, (Walk.below element).Produces element.listing last ∧ last.next? = none := by
  obtain ⟨met, last, hRun, hLast, -⟩ := (visits_iff.2 rfl).produces
  exact ⟨last, eq_listing_of_produces hRun hLast ▸ hRun, hLast⟩

theorem descendants_eq_listing (element : Element) : element.descendants = element.listing := by
  obtain ⟨last, hRun, hLast⟩ := exists_produces_listing element
  rw [descendants, hRun.toList, Walk.toList_of_next?_eq_none hLast, List.append_nil]

theorem length_listing (element : Element) : element.listing.length + 1 = element.size := by
  obtain ⟨last, hRun, hLast⟩ := exists_produces_listing element
  have hSize := hRun.ahead.2
  rw [Walk.size, Walk.size, Walk.next?_eq_none_iff.1 hLast, size.sizeAll, Nat.add_zero] at hSize
  rw [size_eq, ← hSize]
  rfl

theorem map_at?_addresses (element : Element) :
    element.addresses.map element.at? = element.listing.map some := by
  obtain ⟨met, last, hRun, hLast, hMet⟩ := (visits_iff.2 rfl).produces
  rw [hMet, eq_listing_of_produces hRun hLast]

theorem size_lt_of_mem_descendants (h : below ∈ element.descendants) :
    below.size < element.size := by
  induction hSize : element.size using Nat.strongRecOn generalizing element with
  | ind n ih =>
      obtain ⟨child, hChild, hBelow⟩ := mem_descendants_iff.1 h
      have hSmall := hSize ▸ size_lt_of_mem_children hChild
      rcases hBelow with rfl | hBelow
      · exact hSmall
      · exact Nat.lt_trans (ih child.size hSmall hBelow rfl) hSmall

theorem isSome_firstDescendant?_of_child? {name : String} (h : (element.child? name).isSome) :
    (element.firstDescendant? name).isSome := by
  obtain ⟨child, hChild, hName⟩ := List.find?_isSome.1 h
  exact List.find?_isSome.2 ⟨child, mem_descendants_iff.2 ⟨child, hChild, .inl rfl⟩, hName⟩

/-- The walk below an element against the recursion over its tree. -/
structure WalksInOrder (element : Element) : Prop where
  starts : (Walk.below element).stack = element.children.reverse
  steps (walk rest : Walk) (next : Element) : walk.next? = some (next, rest) ↔
    ∃ others, walk.stack = others ++ [next] ∧ rest.stack = others ++ next.children.reverse
  stops (walk : Walk) : walk.next? = none ↔ walk.stack = []
  /-- What has been met and what is ahead make up the listing at any time. -/
  invariant (met : List Element) (walk : Walk) (h : (Walk.below element).Produces met walk) :
    element.listing = met ++ walk.ahead ∧ element.size = met.length + walk.size + 1
  ends (met : List Element) :
    (∃ last, (Walk.below element).Produces met last ∧ last.next? = none) ↔ met = element.listing
  collected : element.descendants = element.listing
  length : element.descendants.length + 1 = element.size
  /-- Equal elements may stand at several addresses; the walk comes to each of these. -/
  visits (visited : List Address) :
    Visits element (Walk.below element) (element.childAddresses []) visited ↔
      visited = element.addresses
  elements : element.addresses.map element.at? = element.descendants.map some
  ascending : element.addresses.Pairwise (· < ·)
  once : element.addresses.Nodup
  complete (address : Address) :
    address ∈ element.addresses ↔ address ≠ [] ∧ (element.at? address).isSome
  notItself : element ∉ element.descendants
  named (name : String) :
    element.descendantsNamed name = element.listing.filter fun e => e.name = name
  first (name : String) :
    element.firstDescendant? name = (element.descendantsNamed name).head?
  child (name : String) (h : (element.child? name).isSome) :
    (element.firstDescendant? name).isSome

theorem walksInOrder (element : Element) : WalksInOrder element where
  starts := rfl
  steps _ _ _ := Walk.next?_eq_some_iff_stack
  stops _ := by rw [Walk.next?_eq_none_iff, Walk.stack, List.reverse_eq_nil_iff]
  invariant met walk h := by
    rw [listing_eq, size_eq]
    exact ⟨h.ahead.1, congrArg (· + 1) h.ahead.2⟩
  ends met := by
    constructor
    · rintro ⟨last, hRun, hLast⟩
      exact eq_listing_of_produces hRun hLast
    · rintro rfl
      exact exists_produces_listing element
  collected := descendants_eq_listing element
  length := by rw [descendants_eq_listing, length_listing]
  visits _ := visits_iff
  elements := by rw [descendants_eq_listing, map_at?_addresses]
  ascending := pairwise_addresses element
  once := nodup_addresses element
  complete _ := mem_addresses_iff
  notItself h := Nat.lt_irrefl _ (size_lt_of_mem_descendants h)
  named name := by
    rw [descendantsNamed, descendants_eq_listing]
    rfl
  first name := by rw [firstDescendant?, descendantsNamed, List.head?_filter]
  child _ := isSome_firstDescendant?_of_child?

end Element
end ContractDoc.Xml

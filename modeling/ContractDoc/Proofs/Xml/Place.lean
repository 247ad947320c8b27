import ContractDoc.Proofs.Xml.Preorder
import Mathlib.Data.Multiset.Bind
import Mathlib.Tactic.Abel

/-! # Places in a tree

A place is an element together with the elements that it stands in. Going through a tree place by
place, and each time through what the place stands in, meets the same nestings as going through its
elements, and each time through what is below.
-/

namespace ContractDoc.Xml

/-- An element with its ancestors, the innermost one last. -/
structure Place where
  ancestors : List Element
  element : Element

namespace Element

/-- The places below an element, in document order, where `above` are the ancestors that are common
to all of them. -/
def places (above : List Element) : Element → List Place
  | ⟨_, _, children, _, _⟩ => placesIn above children
where
  placesIn (above : List Element) : List Element → List Place
    | [] => []
    | child :: rest =>
        ⟨above, child⟩ :: (child.places (above ++ [child]) ++ placesIn above rest)

/-- Each of the upper elements named `outer` with each of the lower ones named `inner`. -/
def pairs (outer inner : String) (upper lower : List Element) : List (Element × Element) :=
  (upper.filter (·.name == outer)).flatMap fun high =>
    (lower.filter (·.name == inner)).map (high, ·)

/-- Every element named `inner` below an element, once with each of its ancestors named `outer`. -/
def nestings (outer inner : String) (element : Element) : List (Element × Element) :=
  (element.places []).flatMap fun place => pairs outer inner place.ancestors [place.element]

variable {outer inner : String}

mutual

/-- The places below an element are those of its descendants. -/
theorem map_element_places (above : List Element) : (element : Element) →
    (element.places above).map Place.element = element.descendants
  | ⟨name, attributes, children, text, line⟩ => by
      rw [places, descendants_eq_flatMap]
      exact map_element_placesIn above children

theorem map_element_placesIn (above : List Element) : (children : List Element) →
    (places.placesIn above children).map Place.element =
      children.flatMap fun child => child :: child.descendants
  | [] => rfl
  | child :: rest => by
      rw [places.placesIn, List.map_cons, List.map_append, map_element_places _ child,
        map_element_placesIn above rest, List.flatMap_cons]
      rfl

end

theorem pairs_append_upper (upper more lower : List Element) :
    pairs outer inner (upper ++ more) lower =
      pairs outer inner upper lower ++ pairs outer inner more lower := by
  rw [pairs, List.filter_append, List.flatMap_append]
  rfl

theorem coe_pairs_append_lower (upper lower more : List Element) :
    (pairs outer inner upper (lower ++ more) : Multiset (Element × Element)) =
      pairs outer inner upper lower + pairs outer inner upper more := by
  rw [Multiset.coe_add, Multiset.coe_eq_coe]
  simp only [pairs, List.filter_append, List.map_append]
  exact (List.flatMap_append_perm _ _ _).symm

theorem coe_pairs_cons_lower (upper : List Element) (low : Element) (lower : List Element) :
    (pairs outer inner upper (low :: lower) : Multiset (Element × Element)) =
      pairs outer inner upper [low] + pairs outer inner upper lower :=
  coe_pairs_append_lower upper [low] lower

mutual

theorem flatMap_places_perm (above : List Element) : (element : Element) →
    ((element.places above).flatMap fun place =>
        pairs outer inner place.ancestors [place.element]).Perm
      (pairs outer inner above element.descendants ++
        element.descendants.flatMap fun high => pairs outer inner [high] high.descendants)
  | ⟨name, attributes, children, text, line⟩ => by
      rw [places, descendants_eq_flatMap]
      exact flatMap_placesIn_perm above children

theorem flatMap_placesIn_perm (above : List Element) : (children : List Element) →
    ((places.placesIn above children).flatMap fun place =>
        pairs outer inner place.ancestors [place.element]).Perm
      (pairs outer inner above (children.flatMap fun child => child :: child.descendants) ++
        (children.flatMap fun child => child :: child.descendants).flatMap fun high =>
          pairs outer inner [high] high.descendants)
  | [] => by simp [places.placesIn, pairs]
  | child :: rest => by
      have hChild := Multiset.coe_eq_coe.2 (flatMap_places_perm (above ++ [child]) child)
      have hRest := Multiset.coe_eq_coe.2 (flatMap_placesIn_perm above rest)
      rw [pairs_append_upper] at hChild
      rw [← Multiset.coe_eq_coe]
      simp only [places.placesIn, List.flatMap_cons, List.flatMap_append, List.cons_append,
        ← Multiset.coe_add] at hChild hRest ⊢
      rw [hChild, hRest, coe_pairs_cons_lower above child (_ ++ _), coe_pairs_append_lower]
      abel

end

theorem flatMap_pairs_singleton (elements : List Element) :
    (elements.flatMap fun high => pairs outer inner [high] high.descendants) =
      (elements.filter (·.name == outer)).flatMap fun high =>
        (high.descendantsNamed inner).map (high, ·) := by
  induction elements with
  | nil => rfl
  | cons element elements ih =>
      rw [List.flatMap_cons, ih, pairs, List.filter_cons, List.filter_cons]
      split
      · rw [List.filter_nil, List.flatMap_singleton, List.flatMap_cons]
        rfl
      · rfl

/-- The nestings can be gone through from above as well. -/
theorem nestings_perm (element : Element) :
    (element.nestings outer inner).Perm
      ((element.descendantsNamed outer).flatMap fun high =>
        (high.descendantsNamed inner).map (high, ·)) := by
  have hPerm : (element.nestings outer inner).Perm
      (element.descendants.flatMap fun high => pairs outer inner [high] high.descendants) :=
    flatMap_places_perm [] element
  rwa [flatMap_pairs_singleton] at hPerm

end Element
end ContractDoc.Xml

import ContractDoc.Xml.Walk

/-! # Document order

The elements below an element are its children, each one followed by what is below it. So whatever
is below a descendant is below the element itself.
-/

namespace ContractDoc.Xml

namespace Walk

theorem toList_eq_flatMap (walk : Walk) :
    walk.toList = walk.pending.flatMap fun e => e :: e.descendants := by
  induction hSize : walk.size using Nat.strongRecOn generalizing walk with
  | ind n ih =>
      obtain ⟨pending⟩ := walk
      cases pending with
      | nil => exact toList_of_next?_eq_none rfl
      | cons e es =>
          have hNext : (Walk.mk (e :: es)).next? = some (e, ⟨e.children ++ es⟩) := rfl
          have hStep := size_eq_of_next? hNext
          have hSplit : (Walk.mk (e.children ++ es)).size = (below e).size + (Walk.mk es).size :=
            sizeAll_append e.children es
          have hRest := ih _ (by omega) ⟨e.children ++ es⟩ rfl
          have hBelow := ih _ (by omega) (below e) rfl
          rw [toList_of_next? hNext, hRest, List.flatMap_append, List.flatMap_cons,
            Element.descendants, hBelow]
          rfl

end Walk

namespace Element

theorem descendants_eq_flatMap (element : Element) :
    element.descendants = element.children.flatMap fun child => child :: child.descendants :=
  Walk.toList_eq_flatMap (Walk.below element)

theorem mem_descendants_iff {below element : Element} :
    below ∈ element.descendants ↔
      ∃ child ∈ element.children, below = child ∨ below ∈ child.descendants := by
  simp [descendants_eq_flatMap element]

theorem size_lt_of_mem_children {child element : Element} (h : child ∈ element.children) :
    child.size < element.size := by
  obtain ⟨name, attributes, children, text, line⟩ := element
  have hAll : ∀ es : List Element, child ∈ es → child.size ≤ size.sizeAll es := by
    intro es hMem
    induction es with
    | nil => exact absurd hMem List.not_mem_nil
    | cons e es ih =>
        rw [size.sizeAll]
        rcases List.mem_cons.1 hMem with rfl | hMem
        · omega
        · have := ih hMem
          omega
  have := hAll children h
  rw [size.eq_1 name]
  omega

theorem mem_descendants_trans {low middle high : Element} (hLow : low ∈ middle.descendants)
    (hMiddle : middle ∈ high.descendants) : low ∈ high.descendants := by
  induction hSize : high.size using Nat.strongRecOn generalizing high with
  | ind n ih =>
      obtain ⟨child, hChild, rfl | hBelow⟩ := mem_descendants_iff.1 hMiddle
      · exact mem_descendants_iff.2 ⟨middle, hChild, .inr hLow⟩
      · have hSmall := hSize ▸ size_lt_of_mem_children hChild
        exact mem_descendants_iff.2 ⟨child, hChild, .inr (ih child.size hSmall hBelow rfl)⟩

/-- If some descendant has an element of that name below it, the first one is found. -/
theorem isSome_firstDescendant? {low middle high : Element} {name : String}
    (hLow : middle.firstDescendant? name = some low) (hMiddle : middle ∈ high.descendants) :
    (high.firstDescendant? name).isSome := by
  unfold firstDescendant? at hLow ⊢
  have hName := List.find?_some hLow
  exact List.find?_isSome.2
    ⟨low, mem_descendants_trans (List.mem_of_find?_eq_some hLow) hMiddle, hName⟩

end Element
end ContractDoc.Xml

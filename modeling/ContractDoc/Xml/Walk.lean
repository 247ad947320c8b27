import ContractDoc.Xml.Element

/-! # Walks through a tree

A walk meets the elements below some element in document order. It keeps the elements whose
subtrees are still to be met, and each step trades one of them for its children.
-/

namespace ContractDoc.Xml

/-- A depth-first walk, given by the elements still to be met with their subtrees, in order. -/
structure Walk where
  pending : List Element

namespace Walk

def below (element : Element) : Walk := ⟨element.children⟩

def next? (walk : Walk) : Option (Element × Walk) :=
  match walk.pending with
  | [] => none
  | e :: es => some (e, ⟨e.children ++ es⟩)

def size (walk : Walk) : Nat := Element.size.sizeAll walk.pending

theorem sizeAll_append (es fs : List Element) :
    Element.size.sizeAll (es ++ fs) = Element.size.sizeAll es + Element.size.sizeAll fs := by
  induction es with
  | nil => simp [Element.size.sizeAll]
  | cons e es ih => simp [Element.size.sizeAll, ih, Nat.add_assoc]

theorem size_eq_of_next? {walk rest : Walk} {element : Element}
    (h : walk.next? = some (element, rest)) : walk.size = rest.size + 1 := by
  unfold next? at h
  split at h
  · simp at h
  · next e es hPending =>
      obtain ⟨rfl, rfl⟩ := Prod.mk.inj (Option.some.inj h)
      cases e
      simp only [size, hPending, Element.size.sizeAll, Element.size, sizeAll_append]
      omega

/-- Walks to the end; `done` holds the elements already met, the last one first. -/
def collect (done : List Element) (walk : Walk) : List Element :=
  match _h : walk.next? with
  | none => done.reverse
  | some (element, rest) => rest.collect (element :: done)
termination_by walk.size
decreasing_by
  have := size_eq_of_next? _h
  omega

def toList (walk : Walk) : List Element := walk.collect []

theorem collect_of_next? {walk rest : Walk} {element : Element} {done : List Element}
    (h : walk.next? = some (element, rest)) :
    walk.collect done = rest.collect (element :: done) := by
  rw [collect]
  split
  · simp_all
  · next h' => obtain ⟨rfl, rfl⟩ := Prod.mk.inj (Option.some.inj (h.symm.trans h')); rfl

theorem collect_append (done earlier : List Element) (walk : Walk) :
    walk.collect (done ++ earlier) = earlier.reverse ++ walk.collect done := by
  fun_induction collect done walk with
  | case1 done walk hNext => rw [collect]; split <;> simp_all
  | case2 done walk element rest hNext ih => rw [collect_of_next? hNext, ← ih, List.cons_append]

theorem toList_of_next?_eq_none {walk : Walk} (h : walk.next? = none) : walk.toList = [] := by
  rw [toList, collect]
  split <;> simp_all

theorem toList_of_next? {walk rest : Walk} {element : Element}
    (h : walk.next? = some (element, rest)) : walk.toList = element :: rest.toList := by
  rw [toList, collect_of_next? h]
  exact collect_append [] [element] rest

end Walk

namespace Element

/-- All elements below this one in document order, at any depth. -/
def descendants (element : Element) : List Element := (Walk.below element).toList

def descendantsNamed (element : Element) (name : String) : List Element :=
  element.descendants.filter fun e => e.name == name

def firstDescendant? (element : Element) (name : String) : Option Element :=
  element.descendants.find? fun e => e.name == name

end Element
end ContractDoc.Xml

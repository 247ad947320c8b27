import ContractDoc.Proofs.DataModel.Parts
import Mathlib.Data.List.Nodup

/-! # The properties of an entity

An entity takes in its lists of properties one after the other and leaves out what it has already.
In the end it has every declared property where it was declared first, however the declarations are
spread over the lists.
-/

namespace ContractDoc.DataModel

open Xml (Element)

/-- The properties of a list with each one kept where it stands first. -/
structure FirstOccurrences (all kept : List Property) : Prop where
  mem_iff : ∀ property, property ∈ kept ↔ property ∈ all
  once : ∀ property ∈ all, kept.count property = 1
  order : kept.Pairwise fun first second => all.idxOf first < all.idxOf second

namespace FirstOccurrences

variable {all kept : List Property}

/-- What comes strictly later in the list cannot be the same again. -/
theorem of_order (hMem : ∀ property, property ∈ kept ↔ property ∈ all)
    (hOrder : kept.Pairwise fun first second => all.idxOf first < all.idxOf second) :
    FirstOccurrences all kept := by
  have hDistinct : kept.Nodup := by
    apply hOrder.imp
    rintro first second hBefore rfl
    exact Nat.lt_irrefl _ hBefore
  refine ⟨hMem, fun property hProperty => ?_, hOrder⟩
  exact List.count_eq_one_of_mem hDistinct ((hMem property).2 hProperty)

theorem nodup (h : FirstOccurrences all kept) : kept.Nodup :=
  List.nodup_iff_count_eq_one.2 fun property hProperty =>
    h.once property ((h.mem_iff property).1 hProperty)

theorem nil : FirstOccurrences [] [] := of_order (fun _ => Iff.rfl) .nil

/-- Properties behind the others do not change where the others stand first. -/
theorem order_append (h : FirstOccurrences all kept) (more : List Property) :
    kept.Pairwise fun first second => (all ++ more).idxOf first < (all ++ more).idxOf second := by
  apply h.order.imp_of_mem
  intro first second hFirst hSecond hBefore
  rw [List.idxOf_append_of_mem ((h.mem_iff first).1 hFirst),
    List.idxOf_append_of_mem ((h.mem_iff second).1 hSecond)]
  exact hBefore

/-- One more property is kept exactly if it was not there before. -/
theorem add (h : FirstOccurrences all kept) (property : Property) :
    FirstOccurrences (all ++ [property])
      (if property ∈ kept then kept else kept ++ [property]) := by
  split
  · next hOld =>
      apply of_order _ (h.order_append [property])
      intro other
      rw [List.mem_append, List.mem_singleton, h.mem_iff]
      constructor
      · exact .inl
      · rintro (hOther | rfl)
        · exact hOther
        · exact (h.mem_iff other).1 hOld
  · next hNew =>
      apply of_order
      · intro other
        rw [List.mem_append, List.mem_append, h.mem_iff]
      · rw [List.pairwise_append]
        refine ⟨h.order_append [property], List.pairwise_singleton .., ?_⟩
        intro other hOther last hLast
        obtain rfl := List.mem_singleton.1 hLast
        have hOtherMem : other ∈ all := (h.mem_iff other).1 hOther
        have hLastNew : last ∉ all := fun hMem => hNew ((h.mem_iff last).2 hMem)
        rw [List.idxOf_append_of_mem hOtherMem, List.idxOf_append_of_notMem hLastNew]
        exact Nat.lt_of_lt_of_le (List.idxOf_lt_length_of_mem hOtherMem) (Nat.le_add_right ..)

theorem union (h : FirstOccurrences all kept) (more : List Property) :
    FirstOccurrences (all ++ more) (Property.union kept more) := by
  unfold Property.union
  induction more generalizing all kept with
  | nil =>
      rw [List.append_nil]
      exact h
  | cons property rest ih =>
      rw [List.append_cons, List.foldl_cons]
      exact ih (h.add property)

end FirstOccurrences

namespace Property

theorem union_append (properties more further : List Property) :
    union properties (more ++ further) = union (union properties more) further := by
  unfold union
  exact List.foldl_append

/-- The same values in all fields. -/
structure SameFields (first second : Property) : Prop where
  id : first.id = second.id
  name : first.name = second.name
  isMandatory : first.isMandatory = second.isMandatory
  kind : first.kind = second.kind
  dataType : first.dataType = second.dataType
  keyDataType : first.keyDataType = second.keyDataType
  referencedDataType : first.referencedDataType = second.referencedDataType

theorem sameFields_iff {first second : Property} : first.SameFields second ↔ first = second := by
  constructor
  · intro h
    obtain ⟨id, name, isMandatory, kind, dataType, keyDataType, referencedDataType⟩ := first
    obtain ⟨rfl, rfl, rfl, rfl, rfl, rfl, rfl⟩ := h
    rfl
  · rintro rfl
    exact ⟨rfl, rfl, rfl, rfl, rfl, rfl, rfl⟩

end Property

namespace Entity

variable {declaration : Element}

def propertyDeclarations (declaration : Element) : List Element :=
  (declaration.children.filter isPropertyList).flatMap Element.children

theorem name_of_ofXml {entity : Entity} (h : ofXml declaration = .ok entity) :
    entity.name = declaredName declaration := by
  obtain ⟨id, -, hFold⟩ := Outcome.bind_eq_ok_iff.1 h
  exact Outcome.foldlM_keeps (fun _ _ _ hNext => (adds_of_add hNext).name) hFold

/-- The lists of an entity amount to one list with all that they declare. -/
theorem properties_of_ofXml {entity : Entity} (h : ofXml declaration = .ok entity) :
    ∃ all, (propertyDeclarations declaration).mapM Property.ofXml = .ok all ∧
      entity.properties = Property.union [] all := by
  obtain ⟨id, -, hFold⟩ := Outcome.bind_eq_ok_iff.1 h
  exact Outcome.gathers_of_foldlM hFold (fun _ => rfl) Property.union_append
    (fun _ _ _ hNext => (adds_of_add hNext).list) (fun _ _ _ hNext => (adds_of_add hNext).other)

theorem firstOccurrences_of_ofXml {entity : Entity} (h : ofXml declaration = .ok entity) :
    ∃ all, (propertyDeclarations declaration).mapM Property.ofXml = .ok all ∧
      FirstOccurrences all entity.properties := by
  obtain ⟨all, hAll, hUnion⟩ := properties_of_ofXml h
  refine ⟨all, hAll, ?_⟩
  rw [hUnion]
  exact FirstOccurrences.nil.union all

/-- An entity has each of its declared properties once, in the order in which they are declared
first. Two of them are one and the same only if they agree in every field. -/
theorem keepsFirst_of_ofXml {entity : Entity} (h : ofXml declaration = .ok entity) :
    ∃ all, (propertyDeclarations declaration).mapM Property.ofXml = .ok all ∧
      FirstOccurrences all entity.properties ∧
      ∀ first ∈ all, ∀ second ∈ all,
        entity.properties.idxOf first = entity.properties.idxOf second ↔
          first.SameFields second := by
  obtain ⟨all, hAll, hFirst⟩ := firstOccurrences_of_ofXml h
  refine ⟨all, hAll, hFirst, fun first hMem second _ => ?_⟩
  rw [Property.sameFields_iff]
  exact List.idxOf_inj ((hFirst.mem_iff first).2 hMem)

def referring (target : String) : Element where
  name := Tag.referenceProperty
  attributes := []
  children := [⟨Tag.id, [], [], "p", 1⟩, ⟨Tag.entityId, [], [], target, 1⟩]
  text := ""
  line := 1

/-- An entity with two lists, of which the first repeats a property within itself and the second
one repeats it again. All the properties have the same id. -/
def overlapping : Element where
  name := Tag.entity
  attributes := []
  children :=
    [⟨Tag.id, [], [], "e", 1⟩,
      ⟨Tag.referenceProperties, [], [referring "A", referring "B", referring "A"], "", 1⟩,
      ⟨Tag.primitiveProperties, [], [referring "B", referring "C"], "", 1⟩]
  text := ""
  line := 1

def reference (target : String) : Property :=
  { Property.ofId "p" with referencedDataType := some target }

theorem keepsFirst_of_overlapping :
    ∃ all, (propertyDeclarations overlapping).mapM Property.ofXml = .ok all ∧
      FirstOccurrences all [reference "A", reference "B", reference "C"] ∧
      ∀ first ∈ all, ∀ second ∈ all,
        [reference "A", reference "B", reference "C"].idxOf first =
            [reference "A", reference "B", reference "C"].idxOf second ↔
          first.SameFields second := by
  have hRead : ofXml overlapping =
      .ok ⟨"e", "", false, [reference "A", reference "B", reference "C"]⟩ := by
    cbv
  exact keepsFirst_of_ofXml hRead

end Entity
end ContractDoc.DataModel

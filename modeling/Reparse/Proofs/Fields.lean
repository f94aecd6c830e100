import Reparse.Proofs.Search
import Reparse.Proofs.Stack

/-! # Nodes keep the fields of their children -/
namespace Reparse.Parse
open Data Reparse.Tree

/-- The fields of some elements, with their indices. -/
def indexedFields (elements : List Element) : List (Nat × Field) :=
  elements.zipIdx.filterMap fun (e, i) => e.1.map (i, ·)

private theorem pairwise_indexedFields (elements : List Element) :
    (indexedFields elements).Pairwise fun a b => a.1 < b.1 := by
  have hindices : elements.zipIdx.Pairwise fun a b => a.2 < b.2 := by
    rw [List.pairwise_iff_getElem]
    intro i j hi hj hij
    simpa using hij
  refine hindices.filterMap _ fun a b hab x hx y hy => ?_
  obtain ⟨f, -, rfl⟩ := Option.map_eq_some_iff.1 hx
  obtain ⟨f', -, rfl⟩ := Option.map_eq_some_iff.1 hy
  exact hab

theorem mem_indexedFields {elements : List Element} {i : Nat} {f : Field} :
    (i, f) ∈ indexedFields elements ↔ ∃ t, elements[i]? = some (some f, t) := by
  simp only [indexedFields, List.mem_filterMap, Prod.exists, List.mk_mem_zipIdx_iff_getElem?,
    Option.map_eq_some_iff, Prod.mk.injEq]
  constructor
  · rintro ⟨field, t, j, hget, f', rfl, rfl, rfl⟩
    exact ⟨t, hget⟩
  · rintro ⟨t, hget⟩
    exact ⟨some f, t, i, hget, f, rfl, rfl, rfl⟩

/-- The fields are already in order. -/
theorem sortFields_indexedFields (elements : List Element) :
    sortFields (indexedFields elements) = (indexedFields elements).toArray := by
  unfold sortFields
  rw [List.mergeSort_of_pairwise]
  refine (pairwise_indexedFields elements).imp fun h => ?_
  simp [h]

theorem fields_branchOf (kind : Kind) (elements : List Element) (state : Nat) :
    (branchOf kind elements state).fields = (indexedFields elements).toArray := by
  change (infoOf kind (elements.map (·.2)) (indexedFields elements) state false).fields = _
  rw [fields_infoOf, sortFields_indexedFields]

private theorem fieldOf?_branchOf (kind : Kind) (elements : List Element) (state : Nat) {i : Nat}
    {e : Element} (he : elements[i]? = some e) :
    (branchOf kind elements state).fieldOf? i = e.1 := by
  unfold fieldOf?
  rw [fields_branchOf]
  cases hfield : e.1 with
  | none =>
    rw [Option.eq_none_iff_forall_not_mem]
    intro f hf
    obtain ⟨key, hmem, hkey⟩ := mem_of_lookupSorted hf
    obtain ⟨t, hget⟩ := mem_indexedFields.1 (by simpa using hmem)
    rw [Nat.compare_eq_eq.1 hkey, he] at hget
    obtain rfl := Option.some.inj hget
    contradiction
  | some f =>
    apply lookupSorted_eq_some id fun _ _ => rfl
    · exact pairwise_indexedFields elements
    · have hmem : (i, f) ∈ indexedFields elements := mem_indexedFields.2 ⟨e.2, by rw [he, ← hfield]⟩
      simpa using hmem

/-- The children of a node are the elements that it was made of. -/
theorem labelledChildren_branchOf (kind : Kind) (elements : List Element) (state : Nat) :
    (branchOf kind elements state).labelledChildren = elements := by
  have hchildren : (branchOf kind elements state).children = elements.map (·.2) := rfl
  unfold labelledChildren
  split
  · next hempty =>
    rw [hchildren, List.map_map]
    have hnone : ∀ e ∈ elements, (none, e.2) = e := by
      rintro ⟨field, t⟩ he
      cases field with
      | none => rfl
      | some f =>
        obtain ⟨i, hi⟩ := List.getElem?_of_mem he
        have hmem : (i, f) ∈ indexedFields elements := mem_indexedFields.2 ⟨t, hi⟩
        rw [fields_branchOf] at hempty
        have hnil : indexedFields elements = [] := by simpa using hempty
        rw [hnil] at hmem
        contradiction
    exact (List.map_congr_left hnone).trans (List.map_id' _)
  · rw [hchildren]
    apply List.ext_getElem?
    intro i
    rw [List.getElem?_map, List.getElem?_zipIdx, List.getElem?_map]
    cases he : elements[i]? with
    | none => rfl
    | some e =>
      simp only [Option.map_some, Nat.zero_add]
      rw [fieldOf?_branchOf kind elements state he]

end Reparse.Parse

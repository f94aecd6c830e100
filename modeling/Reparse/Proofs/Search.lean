import Reparse.Data.Search
import Reparse.Symbol

/-! # Binary search finds what is there -/
namespace Reparse.Data

/-- The window ends at its last entry that does not lie above the target, if there is one. -/
theorem searchWindow_eq {above : Nat → Bool} {base size i : Nat} (hbase : base ≤ i)
    (hi : i < base + size) (hbelow : ∀ j ≤ i, above j = false)
    (habove : ∀ j, i < j → j < base + size → above j = true) :
    searchWindow above base size = i := by
  fun_induction searchWindow above base size with
  | case1 base size hsize => omega
  | case2 base size hsize middle ih =>
    by_cases hm : middle ≤ i
    · have hkeep : above middle = false := hbelow middle hm
      simp only [hkeep, Bool.false_eq_true, if_false, dite_false] at ih ⊢
      exact ih hm (by omega) fun j hj hlt => habove j hj (by omega)
    · have hdrop : above middle = true := habove middle (by omega) (by omega)
      simp only [hdrop, if_true, dite_true] at ih ⊢
      exact ih hbase (by omega) fun j hj hlt => habove j hj (by omega)

theorem binarySearch_eq_ok {size i : Nat} {compare : Nat → Ordering} (hi : i < size)
    (heq : compare i = .eq) (hbefore : ∀ j < i, compare j = .lt)
    (hafter : ∀ j, i < j → j < size → compare j = .gt) :
    binarySearch size compare = .ok i := by
  have hwindow : searchWindow (fun j => compare j == .gt) 0 size = i := by
    apply searchWindow_eq (Nat.zero_le i) (by omega)
    · intro j hj
      rcases Nat.lt_or_eq_of_le hj with hlt | rfl
      · simp [hbefore j hlt]
      · simp [heq]
    · intro j hj hlt
      simp [hafter j hj (by omega)]
  unfold binarySearch
  rw [if_neg (by omega)]
  simp only [hwindow, heq]

/-- The window ends inside. -/
private theorem searchWindow_lt {above : Nat → Bool} {base size : Nat} (hsize : 0 < size) :
    searchWindow above base size < base + size := by
  fun_induction searchWindow above base size with
  | case1 base size hle => omega
  | case2 base size hle middle ih =>
    by_cases hm : above middle = true
    · simp only [hm, if_true, dite_true] at ih ⊢
      have hlt := ih (by omega)
      omega
    · simp only [hm, Bool.false_eq_true, if_false, dite_false] at ih ⊢
      have hlt := ih (by omega)
      omega

/-- An entry that is found equals the target. -/
theorem of_binarySearch_eq_ok {size i : Nat} {compare : Nat → Ordering}
    (h : binarySearch size compare = .ok i) :
    i < size ∧ compare i = .eq := by
  unfold binarySearch at h
  split at h
  · contradiction
  · next hsize =>
    have hlt : searchWindow (fun i => compare i == .gt) 0 size < 0 + size :=
      searchWindow_lt (Nat.pos_of_ne_zero hsize)
    simp only at h
    split at h
    · next heq =>
      obtain rfl := Except.ok.inj h
      exact ⟨by omega, heq⟩
    · contradiction
    · contradiction

/-- A window whose entries but the first all lie above the target ends at the first. -/
private theorem searchWindow_eq_base {above : Nat → Bool} {base size : Nat}
    (habove : ∀ j, base < j → j < base + size → above j = true) :
    searchWindow above base size = base := by
  fun_induction searchWindow above base size with
  | case1 base size hsize => rfl
  | case2 base size hsize middle ih =>
    have hdrop : above middle = true := habove middle (by omega) (by omega)
    simp only [hdrop, if_true, dite_true] at ih ⊢
    exact ih fun j hj hlt => habove j hj (by omega)

/-- In a row that begins with `k` entries with the property, and has no others, the search counts
them. -/
theorem partitionPoint_eq {size k : Nat} {below : Nat → Bool} (hk : k ≤ size)
    (hbefore : ∀ j < k, below j = true) (hafter : ∀ j, k ≤ j → j < size → below j = false) :
    partitionPoint size below = k := by
  unfold partitionPoint binarySearch
  by_cases hsize : size = 0
  · simp only [if_pos hsize]
    omega
  · rw [if_neg hsize]
    cases k with
    | zero =>
      have hwindow : searchWindow (fun i => (if below i then Ordering.lt else .gt) == .gt) 0 size =
          0 :=
        searchWindow_eq_base fun j _ hlt => by simp [hafter j (Nat.zero_le _) (by omega)]
      simp [hwindow, hafter 0 (Nat.le_refl _) (by omega)]
    | succ k =>
      have hwindow : searchWindow (fun i => (if below i then Ordering.lt else .gt) == .gt) 0 size =
          k :=
        searchWindow_eq (Nat.zero_le k) (by omega) (fun j hj => by simp [hbefore j (by omega)])
          fun j hj hlt => by simp [hafter j (by omega) (by omega)]
      simp [hwindow, hbefore k (by omega)]

variable {κ α : Type} [Ord κ] {row : Array (κ × α)} {k : κ} {v : α}

/-- What a lookup finds is in the row. -/
theorem mem_of_lookupSorted (h : lookupSorted row k = some v) :
    ∃ key, (key, v) ∈ row ∧ compare key k = .eq := by
  unfold lookupSorted at h
  split at h
  · next i hsearch =>
    obtain ⟨⟨key, v'⟩, hget, rfl⟩ := Option.map_eq_some_iff.1 h
    have heq := (of_binarySearch_eq_ok hsearch).2
    rw [hget] at heq
    exact ⟨key, Array.mem_of_getElem? hget, heq⟩
  · contradiction

/-- A row is sorted by its keys, which are numbered. -/
def SortedBy (number : κ → Nat) (row : Array (κ × α)) : Prop :=
  row.toList.Pairwise fun a b => number a.1 < number b.1

theorem lookupSorted_eq_some (number : κ → Nat)
    (hnumber : ∀ a b : κ, compare a b = compare (number a) (number b)) (hrow : SortedBy number row)
    (hmem : (k, v) ∈ row) : lookupSorted row k = some v := by
  obtain ⟨i, hget⟩ := Array.getElem?_of_mem hmem
  obtain ⟨hi, hgetElem⟩ := Array.getElem?_eq_some_iff.1 hget
  have hsorted := List.pairwise_iff_getElem.1 hrow
  unfold lookupSorted
  rw [binarySearch_eq_ok hi]
  · simp only [hget, Option.map_some]
  · simp only [hget, hnumber, Nat.compare_eq_eq]
  · intro j hj
    have hlt := hsorted j i (by simp; omega) (by simpa using hi) hj
    simp only [Array.getElem_toList, hgetElem] at hlt
    have hj' : row[j]? = some row[j] := Array.getElem?_eq_getElem (by omega)
    simp only [hj', hnumber, Nat.compare_eq_lt]
    exact hlt
  · intro j hj hsize
    have hlt := hsorted i j (by simpa using hi) (by simpa using hsize) hj
    simp only [Array.getElem_toList, hgetElem] at hlt
    have hj' : row[j]? = some row[j] := Array.getElem?_eq_getElem hsize
    simp only [hj', hnumber, Nat.compare_eq_gt]
    exact hlt

end Data

namespace Kind

private theorem compare_eq (a b : Kind) : compare a b = compare a.id b.id := rfl

private theorem eq_of_compare {a b : Kind} (h : compare a b = .eq) : a = b := by
  rw [compare_eq, Nat.compare_eq_eq] at h
  cases a
  cases b
  exact congrArg Kind.mk h

end Kind

namespace Data

theorem mem_of_lookupSorted_kind {α : Type} {row : Array (Kind × α)} {k : Kind} {v : α}
    (h : lookupSorted row k = some v) : (k, v) ∈ row := by
  obtain ⟨key, hmem, hkey⟩ := mem_of_lookupSorted h
  rwa [← Kind.eq_of_compare hkey]

/-- A row with increasing symbols has every entry where it is looked up. -/
theorem lookupSorted_kind {α : Type} {row : Array (Kind × α)} {k : Kind} {v : α}
    (hrow : SortedBy Kind.id row) (hmem : (k, v) ∈ row) : lookupSorted row k = some v :=
  lookupSorted_eq_some Kind.id Kind.compare_eq hrow hmem

/-- A row with increasing symbols has one entry for each. -/
theorem filter_eq_singleton {α : Type} {row : Array (Kind × α)} {k : Kind} {v : α}
    (hrow : SortedBy Kind.id row) (hmem : (k, v) ∈ row) : row.filter (·.1 = k) = #[(k, v)] := by
  obtain ⟨before, after, hsplit⟩ := List.append_of_mem (Array.mem_toList_iff.2 hmem)
  unfold SortedBy at hrow
  rw [hsplit] at hrow
  obtain ⟨-, hafter, hbefore⟩ := List.pairwise_append.1 hrow
  have hothers {entry : Kind × α} (hentry : entry ∈ before ∨ entry ∈ after) : entry.1 ≠ k := by
    rintro rfl
    rcases hentry with hentry | hentry
    · exact Nat.lt_irrefl _ (hbefore entry hentry (entry.1, v) List.mem_cons_self)
    · exact Nat.lt_irrefl _ ((List.pairwise_cons.1 hafter).1 entry hentry)
  apply Array.toList_inj.1
  rw [Array.toList_filter, hsplit, List.filter_append, List.filter_cons_of_pos (by simp),
    List.filter_eq_nil_iff.2 fun entry h => by simpa using hothers (.inl h),
    List.filter_eq_nil_iff.2 fun entry h => by simpa using hothers (.inr h)]
  rfl

end Reparse.Data

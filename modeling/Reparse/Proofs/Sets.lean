import Mathlib.Algebra.Order.BigOperators.Group.Finset
import Reparse.Data.BitSet

/-! # Sets that grow below a bound -/
namespace Reparse.Data

namespace BitSet

/-- Every member of one set is in the other. -/
instance : HasSubset BitSet := ⟨fun s t => ∀ i ∈ s, i ∈ t⟩

variable {s t u : BitSet} {n : Nat}

theorem subset_refl (s : BitSet) : s ⊆ s := fun _ h => h
theorem subset_trans (h : s ⊆ t) (h' : t ⊆ u) : s ⊆ u := fun i hi => h' i (h i hi)
theorem subset_antisymm (h : s ⊆ t) (h' : t ⊆ s) : s = t := ext fun i => ⟨h i, h' i⟩
theorem subset_union_left (s t : BitSet) : s ⊆ s.union t := fun _ h => mem_union.2 (.inl h)
theorem subset_union_right (s t : BitSet) : t ⊆ s.union t := fun _ h => mem_union.2 (.inr h)

theorem union_subset (hs : s ⊆ u) (ht : t ⊆ u) : s.union t ⊆ u := by
  intro i hi
  rcases mem_union.1 hi with hi | hi
  · exact hs i hi
  · exact ht i hi

theorem mem_singleton {i j : Nat} : i ∈ singleton j ↔ i = j := by simp [singleton]

/-- All members are below a bound. -/
def Below (s : BitSet) (n : Nat) : Prop := ∀ i ∈ s, i < n

theorem below_empty (n : Nat) : empty.Below n := fun i hi => absurd hi (not_mem_empty i)

theorem Below.union (hs : s.Below n) (ht : t.Below n) : (s.union t).Below n := by
  intro i hi
  rcases mem_union.1 hi with hi | hi
  · exact hs i hi
  · exact ht i hi

theorem missing_le_of_subset (h : s ⊆ t) (n : Nat) : t.missing n ≤ s.missing n := by
  refine List.countP_mono_left fun i _ hi => ?_
  have hnot : ¬ i ∈ t := by simpa [Membership.mem] using hi
  have : ¬ i ∈ s := fun hs => hnot (h i hs)
  simpa [Membership.mem] using this

theorem missing_le (s : BitSet) (n : Nat) : s.missing n ≤ n := by
  have := List.countP_le_length (p := fun i => !s.contains i) (l := List.range n)
  rwa [List.length_range] at this

/-- A set that grows misses less. -/
theorem missing_lt_of_subset (h : s ⊆ t) (ht : t.Below n) (hne : s ≠ t) :
    t.missing n < s.missing n := by
  have hnew : ∃ i ∈ t, i ∉ s := by
    by_contra hnone
    refine hne (subset_antisymm h fun i hi => ?_)
    by_contra hs
    exact hnone ⟨i, hi, hs⟩
  obtain ⟨i, hi, hs⟩ := hnew
  have hinsert : s.insert i ⊆ t := by
    intro j hj
    rcases mem_insert.1 hj with rfl | hj
    · exact hi
    · exact h j hj
  exact Nat.lt_of_le_of_lt (missing_le_of_subset hinsert n) (missing_insert_lt (ht i hi) hs)

theorem mem_toList {i : Nat} : i ∈ s.toList ↔ i ∈ s := by
  unfold BitSet.toList
  rw [List.mem_filter, List.mem_range]
  constructor
  · exact fun h => h.2
  · intro h
    refine ⟨?_, h⟩
    have hbit : s.bits.testBit i = true := h
    have hne : s.bits ≠ 0 := by
      intro hzero
      rw [hzero, Nat.zero_testBit] at hbit
      contradiction
    have hle := (Nat.le_log2 hne).2 (Nat.ge_two_pow_of_testBit hbit)
    omega

end BitSet
end Reparse.Data

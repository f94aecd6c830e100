/-! # Finite sets of natural numbers, stored as the binary digits of one number -/
namespace Reparse.Data

/-- The digit at position `i` of `bits` tells whether `i` is a member, so equal sets are equal
values. -/
structure BitSet where
  bits : Nat
deriving DecidableEq

namespace BitSet

def empty : BitSet := ⟨0⟩
def contains (s : BitSet) (i : Nat) : Bool := s.bits.testBit i
def insert (s : BitSet) (i : Nat) : BitSet := ⟨s.bits ||| (1 <<< i)⟩
def union (s t : BitSet) : BitSet := ⟨s.bits ||| t.bits⟩
def isEmpty (s : BitSet) : Bool := s.bits == 0
def singleton (i : Nat) : BitSet := empty.insert i

/-- Members in increasing order. -/
def toList (s : BitSet) : List Nat := (List.range (s.bits.log2 + 1)).filter s.contains

instance : Inhabited BitSet := ⟨empty⟩
instance : Membership Nat BitSet := ⟨fun s i => s.contains i = true⟩
instance (i : Nat) (s : BitSet) : Decidable (i ∈ s) :=
  inferInstanceAs (Decidable (s.contains i = true))

/-- Mixes every 64-bit digit of the set, for use as a key. -/
def hashDigits (n : Nat) (h : UInt64) : UInt64 :=
  if n >>> 64 = 0 then mixHash h n.toUInt64 else hashDigits (n >>> 64) (mixHash h n.toUInt64)
termination_by n
decreasing_by
  rw [Nat.shiftRight_eq_div_pow] at *
  exact Nat.div_lt_self (by omega) (by decide)

instance : Hashable BitSet := ⟨fun s => hashDigits s.bits 7⟩

theorem mem_iff {i : Nat} {s : BitSet} : i ∈ s ↔ s.bits.testBit i = true := Iff.rfl

@[simp] theorem not_mem_empty (i : Nat) : ¬ i ∈ empty := by simp [mem_iff, empty]

@[simp] theorem mem_insert {i j : Nat} {s : BitSet} : i ∈ s.insert j ↔ i = j ∨ i ∈ s := by
  simp only [mem_iff, insert, Nat.testBit_or, Nat.one_shiftLeft, Nat.testBit_two_pow,
    Bool.or_eq_true, decide_eq_true_eq]
  exact ⟨fun h => h.elim .inr (fun h => .inl h.symm), fun h => h.elim (fun h => .inr h.symm) .inl⟩

@[simp] theorem mem_union {i : Nat} {s t : BitSet} : i ∈ s.union t ↔ i ∈ s ∨ i ∈ t := by
  simp [mem_iff, union, Nat.testBit_or]

theorem ext {s t : BitSet} (h : ∀ i, i ∈ s ↔ i ∈ t) : s = t := by
  obtain ⟨s⟩ := s; obtain ⟨t⟩ := t
  exact congrArg BitSet.mk (Nat.eq_of_testBit_eq fun i => Bool.eq_iff_iff.2 (h i))

/-- How many numbers below `n` are not members. -/
def missing (s : BitSet) (n : Nat) : Nat := (List.range n).countP fun i => !s.contains i

theorem missing_insert_lt {s : BitSet} {n i : Nat} (hi : i < n) (hs : i ∉ s) :
    (s.insert i).missing n < s.missing n := by
  have hne : s.contains i = false := by simpa [Membership.mem] using hs
  have hmem : (s.insert i).contains i = true := mem_insert.2 (.inl rfl)
  have hle (l : List Nat) : l.countP (fun j => !(s.insert i).contains j) ≤
      l.countP fun j => !s.contains j :=
    List.countP_mono_left fun j _ h => by
      have : ¬ j ∈ s.insert i := by simpa [Membership.mem] using h
      have : ¬ j ∈ s := fun hj => this (mem_insert.2 (.inr hj))
      simpa [Membership.mem] using this
  unfold missing
  obtain ⟨a, b, hab⟩ := List.append_of_mem (List.mem_range.2 hi)
  rw [hab, List.countP_append, List.countP_append, List.countP_cons, List.countP_cons]
  have h1 := hle a
  have h2 := hle b
  simp only [hne, hmem, Bool.not_false, Bool.not_true, if_true]
  simp only [Bool.false_eq_true, if_false]
  omega

end BitSet
end Reparse.Data

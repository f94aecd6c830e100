import Mathlib.Order.Basic
import Reparse.Lexer.ByteSet
import Reparse.Proofs.Search

/-! # Sets of bytes have one form each

Sorted ranges that do not touch are determined by the bytes they cover, because the byte after a
range is left out. -/
namespace Reparse.Lexer
open Data

namespace ByteSet

variable {r t : UInt8 × UInt8} {ranges rest pairs : List (UInt8 × UInt8)} {b : UInt8} {n next : Nat}

/-! ## Ranges -/

/-- Some range covers the number of a byte. -/
def Covers (ranges : List (UInt8 × UInt8)) (n : Nat) : Prop :=
  ∃ r ∈ ranges, r.1.toNat ≤ n ∧ n ≤ r.2.toNat

private theorem covers_nil : ¬ Covers [] n := by simp [Covers]

theorem covers_cons :
    Covers (r :: ranges) n ↔ (r.1.toNat ≤ n ∧ n ≤ r.2.toNat) ∨ Covers ranges n := by
  simp [Covers]

private theorem Covers.lt (h : Covers ranges n) : n < 256 := by
  obtain ⟨r, -, -, hn⟩ := h
  have := r.2.toNat_lt
  omega

/-- Ranges with their ends in order, sorted, disjoint and not adjacent. -/
structure Separated (ranges : List (UInt8 × UInt8)) : Prop where
  ordered : ∀ r ∈ ranges, r.1 ≤ r.2
  apart : ranges.Pairwise fun r t => r.2.toNat + 1 < t.1.toNat

theorem separated_nil : Separated [] := ⟨nofun, .nil⟩

theorem separated_cons : Separated (r :: ranges) ↔
    r.1.toNat ≤ r.2.toNat ∧ (∀ t ∈ ranges, r.2.toNat + 1 < t.1.toNat) ∧ Separated ranges := by
  constructor
  · rintro ⟨hordered, hapart⟩
    obtain ⟨hfirst, hrest⟩ := List.pairwise_cons.1 hapart
    exact ⟨hordered r List.mem_cons_self, hfirst,
      ⟨fun t ht => hordered t (List.mem_cons_of_mem r ht), hrest⟩⟩
  · rintro ⟨hr, hfirst, hrest⟩
    exact ⟨List.forall_mem_cons.2 ⟨hr, hrest.ordered⟩, List.pairwise_cons.2 ⟨hfirst, hrest.apart⟩⟩

/-- Nothing is covered up to the byte after the end of a range but what the range covers itself. -/
theorem lt_of_covers (h : ∀ t ∈ ranges, n < t.1.toNat) {m : Nat} (hm : Covers ranges m) :
    n < m := by
  obtain ⟨t, ht, hle, -⟩ := hm
  exact Nat.lt_of_lt_of_le (h t ht) hle

/-- Separated ranges that cover the same bytes begin at the same byte. -/
private theorem Separated.start_le (h : Separated (r :: ranges)) (ht : t.1.toNat ≤ t.2.toNat)
    (hcovers : Covers (t :: rest) t.1.toNat → Covers (r :: ranges) t.1.toNat) :
    r.1.toNat ≤ t.1.toNat := by
  obtain ⟨hr, hfirst, -⟩ := separated_cons.1 h
  rcases covers_cons.1 (hcovers (covers_cons.2 (.inl ⟨Nat.le_refl _, ht⟩))) with hn | hn
  · exact hn.1
  · have := lt_of_covers hfirst hn
    omega

/-- Separated ranges that begin at the same byte and cover the same bytes end their first range at
the same byte. -/
private theorem Separated.stop_le (h : Separated (r :: ranges)) (hstart : r.1 = t.1)
    (hcovers : ∀ n, Covers (t :: rest) n → Covers (r :: ranges) n) : t.2.toNat ≤ r.2.toNat := by
  obtain ⟨hr, hfirst, -⟩ := separated_cons.1 h
  by_contra hlt
  rcases covers_cons.1
      (hcovers (r.2.toNat + 1) (covers_cons.2 (.inl ⟨by rw [← hstart]; omega, by omega⟩))) with
      hn | hn
  · omega
  · exact Nat.lt_irrefl _ (lt_of_covers hfirst hn)

private theorem eq_of_covers :
    (ranges ranges' : List (UInt8 × UInt8)) → Separated ranges → Separated ranges' →
    (∀ n, Covers ranges n ↔ Covers ranges' n) → ranges = ranges'
  | [], [], _, _, _ => rfl
  | [], t :: _, _, h', hcovers =>
    absurd ((hcovers t.1.toNat).2 (covers_cons.2 (.inl ⟨Nat.le_refl _, (separated_cons.1 h').1⟩)))
      covers_nil
  | r :: _, [], h, _, hcovers =>
    absurd ((hcovers r.1.toNat).1 (covers_cons.2 (.inl ⟨Nat.le_refl _, (separated_cons.1 h).1⟩)))
      covers_nil
  | r :: ranges, t :: ranges', h, h', hcovers => by
    obtain ⟨hr, hfirst, hrest⟩ := separated_cons.1 h
    obtain ⟨ht, hfirst', hrest'⟩ := separated_cons.1 h'
    have hstart : r.1 = t.1 := UInt8.toNat_inj.1
      (Nat.le_antisymm (h.start_le ht (hcovers _).2) (h'.start_le hr (hcovers _).1))
    have hstop : r.2 = t.2 := UInt8.toNat_inj.1
      (Nat.le_antisymm (h'.stop_le hstart.symm fun n => (hcovers n).1)
      (h.stop_le hstart fun n => (hcovers n).2))
    obtain rfl : r = t := Prod.ext hstart hstop
    rw [eq_of_covers ranges ranges' hrest hrest' fun n => ?_]
    -- What the other ranges cover lies behind the first one.
    constructor
    · intro hn
      have hlt := lt_of_covers hfirst hn
      rcases covers_cons.1 ((hcovers n).1 (covers_cons.2 (.inr hn))) with hin | hn'
      · omega
      · exact hn'
    · intro hn
      have hlt := lt_of_covers hfirst' hn
      rcases covers_cons.1 ((hcovers n).2 (covers_cons.2 (.inr hn))) with hin | hn'
      · omega
      · exact hn'

/-! ## Merging -/

/-- Ranges in the order of their first bytes. -/
def Ascending (ranges : List (UInt8 × UInt8)) : Prop :=
  ranges.Pairwise fun r t => r.1.toNat ≤ t.1.toNat

private theorem toNat_max (a c : UInt8) : (max a c).toNat = max a.toNat c.toNat := by
  change (if a ≤ c then c else a).toNat = _
  rw [Nat.max_def]
  simp only [UInt8.le_iff_toNat_le]
  split <;> rfl

/-- A range that overlaps or touches the one before it covers what lies between. -/
private theorem covers_join (hle : r.1.toNat ≤ t.1.toNat) (htouch : t.1.toNat ≤ r.2.toNat + 1) :
    Covers ((r.1, max r.2 t.2) :: ranges) n ↔ Covers (r :: t :: ranges) n := by
  simp only [covers_cons, toNat_max]
  rw [← or_assoc]
  exact or_congr (by omega) Iff.rfl

theorem Ascending.join (h : Ascending (r :: t :: ranges)) :
    Ascending ((r.1, max r.2 t.2) :: ranges) := by
  obtain ⟨hr, ht⟩ := List.pairwise_cons.1 h
  exact List.pairwise_cons.2
    ⟨fun s hs => hr s (List.mem_cons_of_mem t hs), (List.pairwise_cons.1 ht).2⟩

private theorem covers_mergeFrom (h : Ascending (r :: ranges)) :
    Covers (mergeFrom r ranges) n ↔ Covers (r :: ranges) n := by
  induction ranges generalizing r with
  | nil => rfl
  | cons t ranges ih =>
    have hle : r.1.toNat ≤ t.1.toNat := (List.pairwise_cons.1 h).1 t List.mem_cons_self
    rw [mergeFrom]
    split
    · next htouch => rw [ih h.join, covers_join hle htouch]
    · rw [covers_cons, covers_cons, ih (List.pairwise_cons.1 h).2]

/-- Merged ranges begin where the first range does or behind it. -/
private theorem le_of_mem_mergeFrom (h : Ascending (r :: ranges)) (ht : t ∈ mergeFrom r ranges) :
    r.1.toNat ≤ t.1.toNat := by
  induction ranges generalizing r with
  | nil => exact Nat.le_of_eq (congrArg (·.1.toNat) (List.mem_singleton.1 ht).symm)
  | cons s ranges ih =>
    have hle : r.1.toNat ≤ s.1.toNat := (List.pairwise_cons.1 h).1 s List.mem_cons_self
    rw [mergeFrom] at ht
    split at ht
    · have hjoined := ih h.join ht
      exact hjoined
    · rcases List.mem_cons.1 ht with rfl | ht
      · exact Nat.le_refl _
      · exact Nat.le_trans hle (ih (List.pairwise_cons.1 h).2 ht)

private theorem separated_mergeFrom (h : Ascending (r :: ranges))
    (hordered : ∀ t ∈ r :: ranges, t.1.toNat ≤ t.2.toNat) :
    Separated (mergeFrom r ranges) := by
  induction ranges generalizing r with
  | nil => exact separated_cons.2 ⟨hordered r List.mem_cons_self, nofun, separated_nil⟩
  | cons t ranges ih =>
    have hr : r.1.toNat ≤ r.2.toNat := hordered r List.mem_cons_self
    have hbehind : Ascending (t :: ranges) := (List.pairwise_cons.1 h).2
    have hothers : ∀ s ∈ t :: ranges, s.1.toNat ≤ s.2.toNat :=
      fun s hs => hordered s (List.mem_cons_of_mem r hs)
    rw [mergeFrom]
    split
    · refine ih h.join
        (List.forall_mem_cons.2 ⟨?_, fun s hs => hothers s (List.mem_cons_of_mem t hs)⟩)
      rw [toNat_max]
      exact Nat.le_trans hr (Nat.le_max_left _ _)
    · next hgap =>
      refine separated_cons.2 ⟨hr, fun s hs => ?_, ih hbehind hothers⟩
      have hle := le_of_mem_mergeFrom hbehind hs
      omega

private theorem covers_merge (h : Ascending ranges) :
    Covers (merge ranges) n ↔ Covers ranges n := by
  cases ranges with
  | nil => rfl
  | cons r ranges => exact covers_mergeFrom h

private theorem separated_merge (h : Ascending ranges)
    (hordered : ∀ r ∈ ranges, r.1.toNat ≤ r.2.toNat) :
    Separated (merge ranges) := by
  cases ranges with
  | nil => exact separated_nil
  | cons r ranges => exact separated_mergeFrom h hordered

/-! ## Gaps -/

/-- The first byte of a gap and the last one, where some bytes are left out. -/
theorem toNat_gap {a : UInt8} (h : next < a.toNat) :
    next.toUInt8.toNat = next ∧ (a - 1).toNat = a.toNat - 1 := by
  have ha := a.toNat_lt
  have hone : (1 : UInt8) ≤ a := UInt8.le_iff_toNat_le.2 (by change 1 ≤ a.toNat; omega)
  refine ⟨UInt8.toNat_ofNat_of_lt' (Nat.lt_trans h ha), ?_⟩
  rw [UInt8.toNat_sub_of_le _ _ hone]
  rfl

/-- The gaps from a number on cover what the ranges do not. -/
private theorem covers_gaps (h : Separated ranges) (hnext : ∀ r ∈ ranges, next ≤ r.1.toNat)
    (hn : n < 256) :
    Covers (gaps next ranges) n ↔ next ≤ n ∧ ¬ Covers ranges n := by
  induction ranges generalizing next with
  | nil =>
    rw [gaps]
    split
    · next hle =>
      have hfirst : next.toUInt8.toNat = next := UInt8.toNat_ofNat_of_lt' (Nat.lt_succ_of_le hle)
      have hlast : (255 : UInt8).toNat = 255 := rfl
      simp only [covers_cons, covers_nil, hfirst, hlast, not_false_eq_true, and_true, or_false]
      omega
    · simp only [covers_nil, not_false_eq_true, and_true, false_iff]
      omega
  | cons r ranges ih =>
    obtain ⟨hr, hfirst, hrest⟩ := separated_cons.1 h
    have hle : next ≤ r.1.toNat := hnext r List.mem_cons_self
    have hafter := ih hrest fun t ht => Nat.le_of_lt (hfirst t ht)
    have hbehind : Covers ranges n → r.2.toNat + 1 < n := lt_of_covers hfirst
    rw [gaps, covers_cons]
    by_cases hgap : next < r.1.toNat
    · obtain ⟨hstart, hstop⟩ := toNat_gap hgap
      simp only [if_pos hgap, covers_cons, hafter, hstart, hstop]
      by_cases hn : Covers ranges n
      · have hlt := hbehind hn
        simp only [hn, not_true_eq_false, and_false, or_false, or_true, iff_false]
        omega
      · simp only [hn, not_false_eq_true, and_true, or_false]
        omega
    · simp only [if_neg hgap, hafter]
      by_cases hn : Covers ranges n
      · simp [hn]
      · simp only [hn, not_false_eq_true, and_true, or_false]
        omega

private theorem le_of_mem_gaps (h : Separated ranges) (hnext : ∀ r ∈ ranges, next ≤ r.1.toNat)
    (ht : t ∈ gaps next ranges) :
    next ≤ t.1.toNat := by
  induction ranges generalizing next with
  | nil =>
    rw [gaps] at ht
    split at ht
    · next hle =>
      rw [List.mem_singleton.1 ht]
      exact Nat.le_of_eq (UInt8.toNat_ofNat_of_lt' (Nat.lt_succ_of_le hle)).symm
    · exact absurd ht List.not_mem_nil
  | cons r ranges ih =>
    obtain ⟨hr, hfirst, hrest⟩ := separated_cons.1 h
    have hle : next ≤ r.1.toNat := hnext r List.mem_cons_self
    have hafter := ih hrest fun t ht => Nat.le_of_lt (hfirst t ht)
    rw [gaps] at ht
    split at ht
    · next hgap =>
      rcases List.mem_cons.1 ht with rfl | ht
      · exact Nat.le_of_eq (toNat_gap hgap).1.symm
      · have hlt := hafter ht
        omega
    · have hlt := hafter ht
      omega

private theorem separated_gaps (h : Separated ranges) (hnext : ∀ r ∈ ranges, next ≤ r.1.toNat) :
    Separated (gaps next ranges) := by
  induction ranges generalizing next with
  | nil =>
    rw [gaps]
    split
    · next hle =>
      have hfirst : next.toUInt8.toNat = next := UInt8.toNat_ofNat_of_lt' (Nat.lt_succ_of_le hle)
      exact separated_cons.2 ⟨by rw [hfirst]; exact hle, nofun, separated_nil⟩
    · exact separated_nil
  | cons r ranges ih =>
    obtain ⟨hr, hfirst, hrest⟩ := separated_cons.1 h
    have hbehind : ∀ t ∈ ranges, r.2.toNat + 1 ≤ t.1.toNat := fun t ht => Nat.le_of_lt (hfirst t ht)
    rw [gaps]
    split
    · next hgap =>
      obtain ⟨hstart, hstop⟩ := toNat_gap hgap
      refine separated_cons.2 ⟨by simp only [hstart, hstop]; omega,
        fun t ht => ?_, ih hrest hbehind⟩
      have hle := le_of_mem_gaps hrest hbehind ht
      simp only [hstop]
      omega
    · exact ih hrest hbehind

/-! ## Sets -/

/-- The bytes of a set are those that its ranges cover. -/
instance : Membership UInt8 ByteSet := ⟨fun s b => ∃ r ∈ s.ranges, r.1 ≤ b ∧ b ≤ r.2⟩

variable {s s' : ByteSet}

theorem mem_iff_covers : b ∈ s ↔ Covers s.ranges b.toNat := by
  simp only [Covers, ← UInt8.le_iff_toNat_le]
  rfl

/-- The form that a set is brought into. -/
def Canonical (s : ByteSet) : Prop := Separated s.ranges

private theorem rangeLE_iff {r t : UInt8 × UInt8} :
    rangeLE r t = true ↔ r.1.toNat < t.1.toNat ∨ r.1.toNat = t.1.toNat ∧ r.2.toNat ≤ t.2.toNat := by
  simp [rangeLE, UInt8.lt_iff_toNat_lt, UInt8.le_iff_toNat_le, ← UInt8.toNat_inj]

private theorem ascending_mergeSort (ranges : List (UInt8 × UInt8)) :
    Ascending (ranges.mergeSort rangeLE) := by
  have hsorted : (ranges.mergeSort rangeLE).Pairwise fun a b => rangeLE a b = true :=
    List.pairwise_mergeSort (fun a b c => by simp only [rangeLE_iff]; omega)
      (fun a b => by simp only [Bool.or_eq_true, rangeLE_iff]; omega) ranges
  refine hsorted.imp fun h => ?_
  have hle := rangeLE_iff.1 h
  omega

private theorem canonical_ofRanges (pairs : List (UInt8 × UInt8)) : (ofRanges pairs).Canonical := by
  refine separated_merge (ascending_mergeSort _) fun r hr => ?_
  have hordered := (List.mem_filter.1 (List.mem_mergeSort.1 hr)).2
  exact UInt8.le_iff_toNat_le.1 (of_decide_eq_true hordered)

example :
    (ofRanges [(97, 99), (100, 102), (120, 120), (98, 101)]).ranges = [(97, 102), (120, 120)] := by
  cbv

private theorem mem_ofRanges : b ∈ ofRanges pairs ↔ ∃ r ∈ pairs, r.1 ≤ r.2 ∧ r.1 ≤ b ∧ b ≤ r.2 := by
  rw [mem_iff_covers, ofRanges, covers_merge (ascending_mergeSort _)]
  simp only [Covers, ← UInt8.le_iff_toNat_le, List.mem_mergeSort, List.mem_filter,
    decide_eq_true_eq, and_assoc]

private theorem mem_union (hs : s.Canonical) (hs' : s'.Canonical) :
    b ∈ s.union s' ↔ b ∈ s ∨ b ∈ s' := by
  rw [union, mem_ofRanges]
  constructor
  · rintro ⟨r, hr, -, hb⟩
    exact (List.mem_append.1 hr).imp (fun hr => ⟨r, hr, hb⟩) fun hr => ⟨r, hr, hb⟩
  · rintro (⟨r, hr, hb⟩ | ⟨r, hr, hb⟩)
    · exact ⟨r, List.mem_append_left _ hr, hs.ordered r hr, hb⟩
    · exact ⟨r, List.mem_append_right _ hr, hs'.ordered r hr, hb⟩

theorem canonical_complement (hs : s.Canonical) : s.complement.Canonical :=
  separated_gaps hs fun _ _ => Nat.zero_le _

private theorem mem_complement (hs : s.Canonical) : b ∈ s.complement ↔ b ∉ s := by
  rw [mem_iff_covers, mem_iff_covers, complement,
    covers_gaps hs (fun _ _ => Nat.zero_le _) b.toNat_lt]
  simp

/-- Sets in this form are equal if they have the same bytes. -/
theorem eq_of_mem_iff (hs : s.Canonical) (hs' : s'.Canonical) (h : ∀ b, b ∈ s ↔ b ∈ s') :
    s = s' := by
  have hranges : s.ranges = s'.ranges := eq_of_covers _ _ hs hs' fun n => ?_
  · cases s
    cases s'
    exact congrArg ByteSet.mk hranges
  · have hbyte (hn : n < 256) : Covers s.ranges n ↔ Covers s'.ranges n := by
      have hmem := h n.toUInt8
      rwa [mem_iff_covers, mem_iff_covers, UInt8.toNat_ofNat_of_lt' hn] at hmem
    exact ⟨fun hn => (hbyte hn.lt).1 hn, fun hn => (hbyte hn.lt).2 hn⟩

private theorem complement_complement (hs : s.Canonical) : s.complement.complement = s := by
  refine eq_of_mem_iff (canonical_complement (canonical_complement hs)) hs fun b => ?_
  rw [mem_complement (canonical_complement hs), mem_complement hs, Classical.not_not]

/-! ## Search -/

private theorem compareRange_eq_eq : compareRange r b = .eq ↔ r.1 ≤ b ∧ b ≤ r.2 := by
  simp only [compareRange, UInt8.lt_iff_toNat_lt, UInt8.le_iff_toNat_le]
  split
  · simp; omega
  · split
    · simp; omega
    · simp; omega

private theorem compareRange_eq_lt :
    compareRange r b = .lt ↔ r.1.toNat ≤ b.toNat ∧ r.2.toNat < b.toNat := by
  simp only [compareRange, UInt8.lt_iff_toNat_lt]
  split
  · simp; omega
  · split
    · simp; omega
    · simp; omega

private theorem compareRange_eq_gt : compareRange r b = .gt ↔ b.toNat < r.1.toNat := by
  simp only [compareRange, UInt8.lt_iff_toNat_lt]
  split
  · simp; omega
  · split
    · simp; omega
    · simp; omega

/-- The binary search finds the range that covers a byte. -/
theorem contains_iff (hs : s.Canonical) : s.contains b = true ↔ b ∈ s := by
  let compare (i : Nat) : Ordering := compareRange (s.ranges[i]?.getD (0, 0)) b
  have hcompare {i : Nat} (hi : i < s.ranges.length) : compare i = compareRange s.ranges[i] b := by
    simp [compare, hi]
  have hcontains : s.contains b = (binarySearch s.ranges.length compare).isOk := by
    simp [contains, compare]
  rw [hcontains]
  constructor
  · intro h
    cases hsearch : binarySearch s.ranges.length compare with
    | error i => simp [hsearch, Except.isOk, Except.toBool] at h
    | ok i =>
      obtain ⟨hi, heq⟩ := of_binarySearch_eq_ok hsearch
      rw [hcompare hi, compareRange_eq_eq] at heq
      exact ⟨_, List.getElem_mem hi, heq⟩
  · rintro ⟨r, hr, hb⟩
    obtain ⟨i, hi, rfl⟩ := List.getElem_of_mem hr
    have hapart := List.pairwise_iff_getElem.1 hs.apart
    have hlo := UInt8.le_iff_toNat_le.1 hb.1
    have hhi := UInt8.le_iff_toNat_le.1 hb.2
    rw [binarySearch_eq_ok hi (by rw [hcompare hi, compareRange_eq_eq]; exact hb)]
    · rfl
    · intro j hj
      have hlt := hapart j i (by omega) hi hj
      have hordered :=
        UInt8.le_iff_toNat_le.1 (hs.ordered _ (List.getElem_mem (Nat.lt_trans hj hi)))
      rw [hcompare (by omega), compareRange_eq_lt]
      omega
    · intro j hj hsize
      have hlt := hapart i j hi hsize hj
      rw [hcompare hsize, compareRange_eq_gt]
      omega

/-! ## Sets that are made of pairs -/

/-- Sets made of lists of pairs, by unions and complements. -/
inductive Made : ByteSet → Prop
  | ofRanges (pairs : List (UInt8 × UInt8)) : Made (ofRanges pairs)
  | union {s t : ByteSet} (left : Made s) (right : Made t) : Made (s.union t)
  | complement {s : ByteSet} (inner : Made s) : Made s.complement

private theorem Made.canonical (h : s.Made) : s.Canonical := by
  induction h with
  | ofRanges pairs => exact canonical_ofRanges pairs
  | union left right => exact canonical_ofRanges _
  | complement inner ih => exact canonical_complement ih

/-- Sets of bytes are a Boolean algebra in which each set has one form. -/
theorem boolean_algebra (pairs : List (UInt8 × UInt8)) {s t : ByteSet} (hs : s.Made) (ht : t.Made) :
    ((ofRanges pairs).Canonical ∧ ∀ b, b ∈ ofRanges pairs ↔ ∃ r ∈ pairs, r.1 ≤ r.2 ∧
      r.1 ≤ b ∧ b ≤ r.2) ∧
      ((s.union t).Canonical ∧ ∀ b, b ∈ s.union t ↔ b ∈ s ∨ b ∈ t) ∧
        (s.complement.Canonical ∧ ∀ b, b ∈ s.complement ↔ b ∉ s) ∧
          (∀ b, s.contains b = true ↔ b ∈ s) ∧ (s = t ↔ ∀ b, b ∈ s ↔ b ∈ t) ∧
            s.complement.complement = s := by
  have hcanonical := hs.canonical
  refine ⟨⟨canonical_ofRanges pairs, fun b => mem_ofRanges⟩,
    ⟨canonical_ofRanges _, fun b => mem_union hcanonical ht.canonical⟩,
    ⟨canonical_complement hcanonical, fun b => mem_complement hcanonical⟩, fun b =>
    contains_iff hcanonical, ?_, complement_complement hcanonical⟩
  exact ⟨fun h b => h ▸ Iff.rfl, eq_of_mem_iff hcanonical ht.canonical⟩

/-- Overlapping, touching and separate ranges, and all bytes but one. -/
theorem boolean_algebra_letters : (ofRanges [(97, 99), (100, 102), (120, 120), (98, 101)]).Made ∧
    (single 42).complement.Made ∧
      ((ofRanges [(5, 3), (7, 7)]).Canonical ∧
        ∀ b, b ∈ ofRanges [(5, 3), (7, 7)] ↔ ∃ r ∈ [((5 : UInt8), (3 : UInt8)), (7, 7)], r.1 ≤ r.2 ∧
          r.1 ≤ b ∧ b ≤ r.2) ∧
      let s := ofRanges [(97, 99), (100, 102), (120, 120), (98, 101)]
      let t := (single 42).complement
      ((s.union t).Canonical ∧ ∀ b, b ∈ s.union t ↔ b ∈ s ∨ b ∈ t) ∧
        (s.complement.Canonical ∧ ∀ b, b ∈ s.complement ↔ b ∉ s) ∧
          (∀ b, s.contains b = true ↔ b ∈ s) ∧ (s = t ↔ ∀ b, b ∈ s ↔ b ∈ t) ∧
          s.complement.complement = s := by
  have hs : (ofRanges [(97, 99), (100, 102), (120, 120), (98, 101)]).Made := .ofRanges _
  have ht : (single 42).complement.Made := .complement (.ofRanges _)
  exact ⟨hs, ht, boolean_algebra [(5, 3), (7, 7)] hs ht⟩

end ByteSet
end Reparse.Lexer

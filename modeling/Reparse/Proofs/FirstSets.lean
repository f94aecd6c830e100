import Reparse.Proofs.Derivation
import Reparse.Proofs.Flattening
import Reparse.Proofs.Sets
import Reparse.Table.First

/-! # FIRST sets know what derivations begin with -/
namespace Reparse.Table
open Data Grammar

namespace First

variable {f f' : First} {n m : Nat}

/-- Tables for `n` symbols and `m` terminals. -/
structure Sized (f : First) (n m : Nat) : Prop where
  first : f.first.size = n
  nullable : f.nullable.size = n
  below : ∀ k, (f.firstOf k).Below m

/-- One table knows no more than another. -/
structure Le (f f' : First) : Prop where
  first : ∀ k, f.firstOf k ⊆ f'.firstOf k
  nullable : ∀ k, f.isNullable k = true → f'.isNullable k = true

private theorem Le.refl (f : First) : Le f f := ⟨fun _ => BitSet.subset_refl _, fun _ h => h⟩

theorem Le.trans {f'' : First} (h : Le f f') (h' : Le f' f'') : Le f f'' :=
  ⟨fun k => BitSet.subset_trans (h.first k) (h'.first k),
    fun k hk => h'.nullable k (h.nullable k hk)⟩

theorem Le.antisymm (hf : f.Sized n m) (hf' : f'.Sized n m) (h : Le f f') (h' : Le f' f) :
    f = f' := by
  obtain ⟨first, nullable⟩ := f
  obtain ⟨first', nullable'⟩ := f'
  have hsize : first.size = first'.size := hf.first.trans hf'.first.symm
  have hsize' : nullable.size = nullable'.size := hf.nullable.trans hf'.nullable.symm
  simp only [mk.injEq]
  constructor
  · refine Array.ext hsize fun i hi hi' => ?_
    have hset := BitSet.subset_antisymm (h.first ⟨i⟩) (h'.first ⟨i⟩)
    simpa [firstOf, hi, hi'] using hset
  · refine Array.ext hsize' fun i hi hi' => ?_
    have hiff := Bool.eq_iff_iff.2 ⟨h.nullable ⟨i⟩, h'.nullable ⟨i⟩⟩
    simpa [isNullable, hi, hi'] using hiff

/-- What the table does not know of a symbol. -/
def gap (f : First) (m : Nat) (k : Kind) : Nat := (f.firstOf k).missing m + (!f.isNullable k).toNat

/-- How much the table does not know. -/
def missing (f : First) (n m : Nat) : Nat := ∑ i ∈ Finset.range n, f.gap m ⟨i⟩

theorem missing_le (f : First) (n m : Nat) : f.missing n m ≤ n * (m + 1) := by
  have hle : ∀ i ∈ Finset.range n, f.gap m ⟨i⟩ ≤ m + 1 :=
    fun i _ => Nat.add_le_add (BitSet.missing_le _ m) (Bool.toNat_le _)
  have hsum := Finset.sum_le_card_nsmul _ _ _ hle
  simpa [missing] using hsum

private theorem Le.toNat_le (h : Le f f') (k : Kind) :
    (!f'.isNullable k).toNat ≤ (!f.isNullable k).toNat := by
  cases hb : f.isNullable k with
  | true =>
    rw [h.nullable k hb]
  | false => exact Bool.toNat_le _

private theorem Le.gap_le (h : Le f f') (m : Nat) (k : Kind) : f'.gap m k ≤ f.gap m k :=
  Nat.add_le_add (BitSet.missing_le_of_subset (h.first k) m) (h.toNat_le k)

/-- Without a gap closed, nothing was learned. -/
private theorem Le.of_gap (h : Le f f') (hf' : f'.Sized n m) {k : Kind}
    (hgap : f.gap m k ≤ f'.gap m k) :
    f'.firstOf k ⊆ f.firstOf k ∧ (f'.isNullable k = true → f.isNullable k = true) := by
  have hfirst := BitSet.missing_le_of_subset (h.first k) m
  have hnull := h.toNat_le k
  unfold gap at hgap
  constructor
  · by_contra hsub
    have hlt := BitSet.missing_lt_of_subset (h.first k) (hf'.below k) fun heq =>
      hsub (heq ▸ BitSet.subset_refl _)
    omega
  · intro hk
    by_contra hb
    rw [hk, Bool.eq_false_iff.2 hb] at hgap
    simp only [Bool.not_true, Bool.toNat_false, Bool.not_false, Bool.toNat_true] at hgap
    omega

private theorem firstOf_eq_empty (hf : f.Sized n m) {k : Kind} (hk : n ≤ k.id) :
    f.firstOf k = .empty := by
  unfold firstOf
  rw [Array.getElem?_eq_none (by rw [hf.first]; exact hk)]
  rfl

private theorem isNullable_eq_false (hf : f.Sized n m) {k : Kind} (hk : n ≤ k.id) :
    f.isNullable k = false := by
  unfold isNullable
  rw [Array.getElem?_eq_none (by rw [hf.nullable]; exact hk)]
  rfl

/-- A table that learns misses less. -/
private theorem missing_lt (hf : f.Sized n m) (hf' : f'.Sized n m) (h : Le f f') (hne : f ≠ f') :
    f'.missing n m < f.missing n m := by
  apply Finset.sum_lt_sum fun i _ => h.gap_le m ⟨i⟩
  by_contra hnone
  have hall (k : Kind) : f'.firstOf k ⊆ f.firstOf k ∧
      (f'.isNullable k = true → f.isNullable k = true) := by
    by_cases hk : k.id < n
    · apply h.of_gap hf'
      by_contra hlt
      exact hnone ⟨k.id, Finset.mem_range.2 hk, Nat.lt_of_not_le hlt⟩
    · rw [firstOf_eq_empty hf' (Nat.le_of_not_lt hk), isNullable_eq_false hf' (Nat.le_of_not_lt hk)]
      exact ⟨fun i hi => absurd hi (BitSet.not_mem_empty i), nofun⟩
  exact hne (Le.antisymm hf hf' h ⟨fun k => (hall k).1, fun k => (hall k).2⟩)

/-! ## Passes -/

theorem firstOf_modify (hf : f.Sized n m) (lhs k : Kind) (more : BitSet) (hlhs : lhs.id < n) :
    ({ f with first := f.first.modify lhs.id (·.union more) } : First).firstOf k =
      if lhs = k then (f.firstOf k).union more else f.firstOf k := by
  have hiff : lhs.id = k.id ↔ lhs = k := by
    constructor
    · intro h
      cases lhs
      cases k
      exact congrArg Kind.mk h
    · exact congrArg Kind.id
  unfold firstOf
  simp only [Array.getElem?_modify, hiff]
  split
  · next heq =>
    rw [← heq, Array.getElem?_eq_getElem (by rw [hf.first]; exact hlhs)]
    rfl
  · rfl

theorem sized_modify (hf : f.Sized n m) {lhs : Kind} (hlhs : lhs.id < n) {more : BitSet}
    (hmore : more.Below m) :
    Sized { f with first := f.first.modify lhs.id (·.union more) } n m := by
  refine ⟨by rw [Array.size_modify]; exact hf.first, hf.nullable, fun k => ?_⟩
  rw [firstOf_modify hf lhs k more hlhs]
  split
  · exact (hf.below k).union hmore
  · exact hf.below k

private theorem le_modify (hf : f.Sized n m) {lhs : Kind} (hlhs : lhs.id < n) (more : BitSet) :
    Le f { f with first := f.first.modify lhs.id (·.union more) } := by
  refine ⟨fun k => ?_, fun _ h => h⟩
  rw [firstOf_modify hf lhs k more hlhs]
  split
  · exact BitSet.subset_union_left _ _
  · exact BitSet.subset_refl _

private theorem isNullable_set (hf : f.Sized n m) {lhs : Kind} (hlhs : lhs.id < n) :
    ({ f with nullable := f.nullable.setIfInBounds lhs.id true } : First).isNullable lhs =
      true := by
  simp [isNullable, hf.nullable, hlhs]

private theorem le_set (f : First) (lhs : Kind) :
    Le f { f with nullable := f.nullable.setIfInBounds lhs.id true } := by
  refine ⟨fun _ => BitSet.subset_refl _, fun k h => ?_⟩
  unfold isNullable at h ⊢
  simp only [Array.getElem?_setIfInBounds]
  split
  · next heq =>
    split
    · rfl
    · next hsize =>
      rw [Array.getElem?_eq_none (by omega)] at h
      contradiction
  · exact h

theorem absorb_cons (f : First) (lhs : Kind) (s : Step) (rest : List Step) :
    f.absorb lhs (s :: rest) =
      if f.isNullable s.symbol then
      absorb { f with first := f.first.modify lhs.id (·.union (f.firstOf s.symbol)) } lhs rest
    else { f with first := f.first.modify lhs.id (·.union (f.firstOf s.symbol)) } := rfl

theorem absorb_spec (hf : f.Sized n m) {lhs : Kind} (hlhs : lhs.id < n) (steps : List Step) :
    (f.absorb lhs steps).Sized n m ∧ Le f (f.absorb lhs steps) := by
  induction steps generalizing f with
  | nil => exact ⟨⟨hf.first, by rw [absorb, Array.size_setIfInBounds]; exact hf.nullable, hf.below⟩,
      le_set f lhs⟩
  | cons s rest ih =>
    have hsized := sized_modify hf hlhs (hf.below s.symbol)
    have hle := le_modify hf hlhs (f.firstOf s.symbol)
    rw [absorb_cons]
    split
    · exact ⟨(ih hsized).1, hle.trans (ih hsized).2⟩
    · exact ⟨hsized, hle⟩

/-- Where nothing is left to absorb, the symbol begins with whatever the steps begin with. -/
private theorem covers_of_absorb (hf : f.Sized n m) {lhs : Kind} (hlhs : lhs.id < n)
    {steps : List Step} (h : f.absorb lhs steps = f) :
    (f.ofSteps steps).1 ⊆ f.firstOf lhs ∧
      ((f.ofSteps steps).2 = true → f.isNullable lhs = true) := by
  induction steps with
  | nil =>
    refine ⟨fun i hi => absurd hi (BitSet.not_mem_empty i), fun _ => ?_⟩
    have hset := isNullable_set hf hlhs
    rw [absorb] at h
    rwa [h] at hset
  | cons s rest ih =>
    have hsized := sized_modify hf hlhs (hf.below s.symbol)
    have hle := le_modify hf hlhs (f.firstOf s.symbol)
    rw [absorb_cons] at h
    have hsame : { f with first := f.first.modify lhs.id (·.union (f.firstOf s.symbol)) } = f := by
      split at h
      · have hback := (absorb_spec hsized hlhs rest).2
        rw [h] at hback
        exact (Le.antisymm hf hsized hle hback).symm
      · exact h
    have hfirst : f.firstOf s.symbol ⊆ f.firstOf lhs := by
      have hmodify := firstOf_modify hf lhs lhs (f.firstOf s.symbol) hlhs
      rw [hsame, if_pos rfl] at hmodify
      rw [hmodify]
      exact BitSet.subset_union_right _ _
    rw [ofSteps]
    cases hnull : f.isNullable s.symbol with
    | true =>
      rw [hnull, if_pos rfl, hsame] at h
      obtain ⟨hrest, hnullable⟩ := ih h
      exact ⟨BitSet.union_subset hfirst hrest, hnullable⟩
    | false => exact ⟨hfirst, nofun⟩

variable {g : Flat}

theorem pass_eq (g : Flat) (f : First) :
    pass g f = g.productions.toList.foldl (fun f p => f.absorb p.lhs p.steps) f := by
  rw [pass, Array.foldl_toList]

theorem foldl_absorb_spec (hf : f.Sized n m) {ps : List Production} (hps : ∀ p ∈ ps, p.lhs.id < n) :
    (ps.foldl (fun f p => f.absorb p.lhs p.steps) f).Sized n m ∧
      Le f (ps.foldl (fun f p => f.absorb p.lhs p.steps) f) := by
  induction ps generalizing f with
  | nil => exact ⟨hf, .refl f⟩
  | cons p rest ih =>
    obtain ⟨hsized, hle⟩ := absorb_spec hf (hps p List.mem_cons_self) p.steps
    obtain ⟨hsized', hle'⟩ := ih hsized fun p hp => hps p (List.mem_cons_of_mem _ hp)
    exact ⟨hsized', hle.trans hle'⟩

/-- A pass without effect has nothing to absorb anywhere. -/
private theorem absorb_of_foldl (hf : f.Sized n m) {ps : List Production}
    (hps : ∀ p ∈ ps, p.lhs.id < n) (h : ps.foldl (fun f p => f.absorb p.lhs p.steps) f = f) :
    ∀ p ∈ ps, f.absorb p.lhs p.steps = f := by
  induction ps with
  | nil => exact nofun
  | cons p rest ih =>
    have hrest : ∀ p ∈ rest, p.lhs.id < n := fun p hp => hps p (List.mem_cons_of_mem _ hp)
    obtain ⟨hsized, hle⟩ := absorb_spec hf (hps p List.mem_cons_self) p.steps
    obtain ⟨-, hle'⟩ := foldl_absorb_spec hsized hrest
    rw [List.foldl_cons] at h
    rw [h] at hle'
    have hsame : f.absorb p.lhs p.steps = f := (Le.antisymm hf hsized hle hle').symm
    rw [hsame] at h
    intro p' hp'
    rcases List.mem_cons.1 hp' with rfl | hp'
    · exact hsame
    · exact ih hrest h p' hp'

/-- Enough passes find everything. -/
theorem saturate_spec (hps : ∀ p ∈ g.productions.toList, p.lhs.id < n) {fuel : Nat}
    (hf : f.Sized n m) (hfuel : f.missing n m < fuel) :
    (saturate g fuel f).Sized n m ∧ Le f (saturate g fuel f) ∧
      pass g (saturate g fuel f) = saturate g fuel f := by
  induction fuel generalizing f with
  | zero => omega
  | succ fuel ih =>
    have hpass := foldl_absorb_spec hf hps
    rw [← pass_eq] at hpass
    obtain ⟨hsized, hle⟩ := hpass
    rw [saturate]
    split
    · next heq => exact ⟨hf, .refl f, heq⟩
    · next hne =>
      have hlt := missing_lt hf hsized hle (Ne.symm hne)
      obtain ⟨hsized', hle', hfix⟩ := ih hsized (by omega)
      exact ⟨hsized', hle.trans hle', hfix⟩

theorem firstOf_start (g : Flat) (k : Kind) : (start g).firstOf k =
    if k.id < g.symbols.size ∧ k.id < g.terminalCount then .singleton k.id else .empty := by
  unfold firstOf start
  simp only [Array.getElem?_map]
  by_cases hk : k.id < g.symbols.size
  · rw [Array.getElem?_eq_getElem (by rw [Array.size_range]; exact hk)]
    simp [hk]
  · rw [Array.getElem?_eq_none (by rw [Array.size_range]; omega)]
    simp [hk]

theorem sized_start (g : Flat) : (start g).Sized g.symbols.size g.terminalCount := by
  refine ⟨by simp [start], by simp [start], fun k => ?_⟩
  rw [firstOf_start]
  split
  · next h =>
    intro i hi
    rw [BitSet.mem_singleton.1 hi]
    exact h.2
  · exact BitSet.below_empty _

/-- What the table of a grammar knows. -/
structure Exact (g : Flat) (f : First) : Prop where
  terminal : ∀ k, k.id < g.symbols.size → g.isTerminal k = true → k.id ∈ f.firstOf k
  first : ∀ (q : Nat) (p : Production), g.productions[q]? = some p →
    (f.ofSteps p.steps).1 ⊆ f.firstOf p.lhs
  nullable : ∀ (q : Nat) (p : Production), g.productions[q]? = some p →
    (f.ofSteps p.steps).2 = true → f.isNullable p.lhs = true
  below : ∀ k, (f.firstOf k).Below g.terminalCount

theorem exact_compute (hg : g.WellFormed) : Exact g (compute g) := by
  have hps : ∀ p ∈ g.productions.toList, p.lhs.id < g.symbols.size := by
    intro p hp
    obtain ⟨q, hq⟩ := Array.getElem?_of_mem (Array.mem_toList_iff.1 hp)
    exact (hg.lhs q p hq).2
  have hfuel : (start g).missing g.symbols.size g.terminalCount <
      g.symbols.size * (g.terminalCount + 1) + 1 :=
    Nat.lt_succ_of_le (missing_le ..)
  obtain ⟨hsized, hle, hfix⟩ := saturate_spec hps (sized_start g) hfuel
  change Sized (compute g) _ _ at hsized
  change Le _ (compute g) at hle
  change pass g (compute g) = compute g at hfix
  rw [pass_eq] at hfix
  have hcovers {q : Nat} {p : Production} (hp : g.productions[q]? = some p) :=
    covers_of_absorb hsized (hg.lhs q p hp).2
      (absorb_of_foldl hsized hps hfix p (Array.mem_toList_iff.2 (Array.mem_of_getElem? hp)))
  refine ⟨fun k hk hterminal => hle.first k k.id ?_, fun q p hp => (hcovers hp).1,
    fun q p hp => (hcovers hp).2, hsized.below⟩
  rw [firstOf_start, if_pos ⟨hk, by simpa [Flat.isTerminal] using hterminal⟩]
  exact BitSet.mem_singleton.2 rfl

/-! ## Sequences of symbols -/

/-- Some derivation of the symbols may begin with a terminal. -/
inductive Begins (f : First) (a : Nat) : List Kind → Prop
  | here {k : Kind} {rest : List Kind} (h : a ∈ f.firstOf k) : Begins f a (k :: rest)
  | later {k : Kind} {rest : List Kind} (nullable : f.isNullable k = true) (h : Begins f a rest) :
      Begins f a (k :: rest)

/-- All symbols may derive nothing. -/
def Vanishes (f : First) (ks : List Kind) : Prop := ∀ k ∈ ks, f.isNullable k = true

variable {a : Nat} {ks ks' : List Kind}

theorem Begins.append (h : Begins f a (ks ++ ks')) :
    Begins f a ks ∨ f.Vanishes ks ∧ Begins f a ks' := by
  induction ks with
  | nil => exact .inr ⟨nofun, h⟩
  | cons k rest ih =>
    cases h with
    | here h => exact .inl (.here h)
    | later nullable h =>
      rcases ih h with h | ⟨hrest, h⟩
      · exact .inl (.later nullable h)
      · refine .inr ⟨fun k' hk' => ?_, h⟩
        rcases List.mem_cons.1 hk' with rfl | hk'
        · exact nullable
        · exact hrest k' hk'

theorem mem_ofSteps {steps : List Step} (h : Begins f a (steps.map (·.symbol))) :
    a ∈ (f.ofSteps steps).1 := by
  induction steps with
  | nil => cases h
  | cons s rest ih =>
    rw [ofSteps]
    cases h with
    | here h =>
      split
      · exact BitSet.subset_union_left _ _ a h
      · exact h
    | later nullable h =>
      rw [if_pos nullable]
      exact BitSet.subset_union_right _ _ a (ih h)

theorem nullable_ofSteps {steps : List Step} (h : f.Vanishes (steps.map (·.symbol))) :
    (f.ofSteps steps).2 = true := by
  induction steps with
  | nil => rfl
  | cons s rest ih =>
    rw [ofSteps, if_pos (h s.symbol (by simp))]
    exact ih fun k hk => h k (by simp at hk ⊢; exact .inr hk)

/-- What derives nothing vanishes. -/
theorem Exact.vanishes (h : Exact g f) (hy : Yields g ks []) : f.Vanishes ks := by
  generalize hw : ([] : List Kind) = w at hy
  induction hy with
  | nil => exact nofun
  | keep k rest ih => contradiction
  | @expand q p a w hp rest ih =>
    have hall := ih hw
    intro k hk
    rcases List.mem_cons.1 hk with rfl | hk
    · exact h.nullable q p hp (nullable_ofSteps fun k hk => hall k (List.mem_append_left _ hk))
    · exact hall k (List.mem_append_right _ hk)

/-- What derives a terminal first begins with it. -/
theorem Exact.begins (h : Exact g f) {k : Kind} {w : List Kind} (hk : k.id < g.symbols.size)
    (hterminal : g.isTerminal k = true) (hy : Yields g ks (k :: w)) : Begins f k.id ks := by
  generalize hw : k :: w = w' at hy
  induction hy with
  | nil => contradiction
  | keep x rest ih =>
    rw [List.cons.injEq] at hw
    rw [← hw.1]
    exact .here (h.terminal k hk hterminal)
  | @expand q p a w' hp rest ih =>
    rcases (ih hw).append with hbegins | ⟨hvanishes, hbegins⟩
    · exact .here (h.first q p hp _ (mem_ofSteps hbegins))
    · exact .later (h.nullable q p hp (nullable_ofSteps hvanishes)) hbegins

end First
end Reparse.Table

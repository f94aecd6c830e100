import Mathlib.Algebra.GroupWithZero.Nat
import Mathlib.Data.Finset.Powerset
import Reparse.Proofs.Automaton
import Reparse.Proofs.Closure

/-! # Kernels are proper, and there are finitely many -/
namespace Reparse.Table
open Data Grammar

namespace Items

variable {g : Flat} {f : First} {items a b c : Items}

private theorem Item.Lt.advance {i j : Item} (h : i.Lt j) : i.advance.Lt j.advance := by
  unfold Item.Lt at *
  simp only [Item.advance]
  omega

theorem proper_successors (h : Proper g items) {k : Kind} {next : Items}
    (hnext : (k, next) ∈ successors g items) :
    Proper g next := by
  constructor
  case sorted =>
    have hpairs : (items.filterMap fun e => (g.stepsFrom e.1.production e.1.dot).head?.map fun s =>
        (s.symbol, (e.1.advance, e.2))).Pairwise fun x y => x.2.1.Lt y.2.1 := by
      refine h.sorted.filterMap _ fun x y hxy x' hx y' hy => ?_
      obtain ⟨s, -, rfl⟩ := Option.map_eq_some_iff.1 hx
      obtain ⟨s', -, rfl⟩ := Option.map_eq_some_iff.1 hy
      exact Item.Lt.advance hxy
    have hsub := hpairs.sublist (sublist_of_mem_groupByKind hnext)
    rwa [List.pairwise_map] at hsub
  case places =>
    intro e he
    obtain ⟨i, s, rest, hi, hs, -, hadvance⟩ := of_mem_successors hnext e he
    obtain ⟨p, hp, hdot⟩ := h.places _ hi
    simp only [Flat.stepsFrom, hp, Option.map_some, Option.getD_some] at hs
    have hlt : i.dot < p.steps.length := by
      by_contra hge
      rw [List.drop_eq_nil_of_le (by omega)] at hs
      contradiction
    rw [hadvance]
    exact ⟨p, hp, hlt⟩
  case below =>
    intro e he
    obtain ⟨i, s, rest, hi, -, -, -⟩ := of_mem_successors hnext e he
    exact h.below (i, e.2) hi

/-- The same items, with at least the same lookaheads. -/
def Within (a b : Items) : Prop := List.Forall₂ (fun x y => x.1 = y.1 ∧ x.2 ⊆ y.2) a b

theorem Within.refl (a : Items) : Within a a :=
  List.forall₂_same.2 fun _ _ => ⟨rfl, BitSet.subset_refl _⟩

theorem Within.trans (h : Within a b) (h' : Within b c) : Within a c := by
  induction h generalizing c with
  | nil => exact h'
  | cons hxy _ ih =>
    cases h' with
    | cons hyz hrest => exact .cons ⟨hxy.1.trans hyz.1, BitSet.subset_trans hxy.2 hyz.2⟩ (ih hrest)

theorem Within.cores (h : Within a b) : a.cores = b.cores := by
  induction h with
  | nil => rfl
  | cons hxy _ ih => exact congrArg₂ List.cons hxy.1 ih

theorem Within.exists_mem (h : Within a b) {i : Item} {s : BitSet} (hi : (i, s) ∈ a) :
    ∃ t, (i, t) ∈ b ∧ s ⊆ t := by
  induction h with
  | nil => contradiction
  | @cons x y xs ys hxy _ ih =>
    rcases List.mem_cons.1 hi with rfl | hi
    · refine ⟨y.2, ?_, hxy.2⟩
      rw [show i = y.1 from hxy.1]
      exact List.mem_cons_self
    · obtain ⟨t, ht, hsub⟩ := ih hi
      exact ⟨t, List.mem_cons_of_mem _ ht, hsub⟩

theorem within_unite_left (h : a.cores = b.cores) : Within a (a.unite b) := by
  induction a generalizing b with
  | nil => exact .nil
  | cons x xs ih =>
    cases b with
    | nil => contradiction
    | cons y ys =>
      rw [Items.cores, Items.cores, List.map_cons, List.map_cons, List.cons.injEq] at h
      exact .cons ⟨rfl, BitSet.subset_union_left _ _⟩ (ih h.2)

theorem within_unite_right (h : a.cores = b.cores) : Within b (a.unite b) := by
  induction a generalizing b with
  | nil =>
    cases b with
    | nil => exact .nil
    | cons y ys => contradiction
  | cons x xs ih =>
    cases b with
    | nil => contradiction
    | cons y ys =>
      rw [Items.cores, Items.cores, List.map_cons, List.map_cons, List.cons.injEq] at h
      exact .cons ⟨h.1.symm, BitSet.subset_union_right _ _⟩ (ih h.2)

private theorem proper_unite (ha : Proper g a) (hb : Proper g b) (h : a.cores = b.cores) :
    Proper g (a.unite b) := by
  refine ⟨?_, fun e he => ?_, fun e he => ?_⟩
  · have hcores : (a.unite b).cores.Pairwise Item.Lt := by
      rw [cores_unite h]
      exact List.pairwise_map.2 ha.sorted
    exact List.pairwise_map.1 hcores
  · obtain ⟨s, t, hs, -, -⟩ := exists_of_mem_unite h he
    exact ha.places (e.1, s) hs
  · obtain ⟨s, t, hs, ht, heq⟩ := exists_of_mem_unite h he
    rw [heq]
    exact (ha.below (e.1, s) hs).union (hb.below (e.1, t) ht)

end Items

open Items

variable {g : Flat} {f : First} {kernel : Items}

theorem Kernel.proper (hg : g.WellFormed) (hf : First.Exact g f) (h : Kernel g f kernel) :
    Proper g kernel := by
  induction h with
  | start =>
    obtain ⟨accept, hzero, -⟩ := hg.accepting
    refine ⟨List.pairwise_singleton _ _, fun e he => ?_, fun e he => ?_⟩
    · rw [List.mem_singleton.1 he]
      exact ⟨_, hzero, Nat.zero_le _⟩
    · rw [List.mem_singleton.1 he]
      intro i hi
      rw [BitSet.mem_singleton.1 hi]
      exact Nat.lt_of_lt_of_le (by decide) hg.terminals
  | successor h hnext ih => exact proper_successors (completed_closure hg hf ih).proper hnext
  | unite ha hb hcores iha ihb => exact proper_unite iha ihb hcores

/-! ## Counting -/

/-- All places in productions. -/
def placeList (g : Flat) : List Item :=
  g.productions.toList.zipIdx.flatMap fun (p, q) =>
    (List.range (p.steps.length + 1)).map fun d => ⟨q, d⟩

private theorem mem_placeList {i : Item} :
    i ∈ placeList g ↔ ∃ p, g.productions[i.production]? = some p ∧ i.dot ≤ p.steps.length := by
  obtain ⟨q, d⟩ := i
  simp only [placeList, List.mem_flatMap, Prod.exists, List.mk_mem_zipIdx_iff_getElem?,
    Array.getElem?_toList, List.mem_map, List.mem_range, Item.mk.injEq]
  constructor
  · rintro ⟨p, q', hp, d', hd', rfl, rfl⟩
    exact ⟨p, hp, Nat.le_of_lt_succ hd'⟩
  · rintro ⟨p, hp, hd⟩
    exact ⟨p, q, hp, d, Nat.lt_succ_of_le hd, rfl, rfl⟩

private theorem length_placeList (g : Flat) :
    (placeList g).length = g.productions.foldl (fun n p => n + p.steps.length + 1) 0 := by
  have hsum (ps : List Production) (n : Nat) : ps.foldl (fun n p => n + p.steps.length + 1) n =
      n + (ps.map fun p => p.steps.length + 1).sum := by
    induction ps generalizing n with
    | nil => rfl
    | cons p rest ih =>
      rw [List.foldl_cons, ih, List.map_cons, List.sum_cons]
      omega
  have hlengths : (g.productions.toList.zipIdx.map fun x =>
      ((List.range (x.1.steps.length + 1)).map fun d => (⟨x.2, d⟩ : Item)).length) =
        g.productions.toList.map fun p => p.steps.length + 1 := by
    conv => rhs; rw [← List.zipIdx_map_fst 0 g.productions.toList, List.map_map]
    apply List.map_congr_left
    intro x _
    simp
  rw [placeList, List.length_flatMap, hlengths, ← Array.foldl_toList, hsum, Nat.zero_add]

/-- What an item set says: its items, and the terminals that are lookaheads of them. -/
def facts (items : Items) : Finset (Item × Option Nat) :=
  (items.flatMap fun e => (e.1, none) :: e.2.toList.map fun t => (e.1, some t)).toFinset

private theorem mem_facts_none {i : Item} : (i, none) ∈ facts kernel ↔ ∃ a, (i, a) ∈ kernel := by
  simp [facts]

private theorem mem_facts_some {i : Item} {t : Nat} :
    (i, some t) ∈ facts kernel ↔ ∃ a, (i, a) ∈ kernel ∧ t ∈ a := by
  simp [facts, BitSet.mem_toList]

/-- Proper item sets are told apart by what they say. -/
theorem facts_injective {a b : Items} (ha : Proper g a) (hb : Proper g b) (h : facts a = facts b) :
    a = b := by
  have half {a b : Items} (ha : Proper g a) (hb : Proper g b) (h : facts a = facts b) : a ⊆ b := by
    rintro ⟨i, s⟩ hs
    obtain ⟨t, ht⟩ := mem_facts_none.1 (h ▸ mem_facts_none.2 ⟨s, hs⟩)
    have heq : s = t := by
      apply BitSet.ext
      intro x
      constructor
      · intro hx
        obtain ⟨t', ht', hx'⟩ := mem_facts_some.1 (h ▸ mem_facts_some.2 ⟨s, hs, hx⟩)
        rwa [hb.unique ht ht']
      · intro hx
        obtain ⟨s', hs', hx'⟩ := mem_facts_some.1 (h ▸ mem_facts_some.2 ⟨t, ht, hx⟩)
        rwa [ha.unique hs hs']
    rwa [heq]
  have nodup {a : Items} (ha : Proper g a) : a.Nodup := by
    refine ha.sorted.imp fun {x y} hlt heq => ?_
    rw [heq] at hlt
    exact Item.Lt.irrefl _ hlt
  have hperm := (List.perm_ext_iff_of_nodup (nodup ha) (nodup hb)).2 fun e =>
    ⟨fun he => half ha hb h he, fun he => half hb ha h.symm he⟩
  refine hperm.eq_of_pairwise (fun x y _ _ hxy hyx => ?_) ha.sorted hb.sorted
  exact absurd (hxy.trans hyx) (Item.Lt.irrefl _)

/-- What the keys of a mode can say. -/
def sayable (g : Flat) : Mode → Finset (Item × Option Nat)
  | .lalr => (placeList g).toFinset ×ˢ {none}
  | .canonical => (placeList g).toFinset ×ˢ insert none ((Finset.range g.terminalCount).image some)

/-- A bound on that. -/
def choices (g : Flat) : Mode → Nat
  | .lalr => (placeList g).length
  | .canonical => (placeList g).length * (g.terminalCount + 1)

private theorem card_sayable (g : Flat) (mode : Mode) : (sayable g mode).card ≤ choices g mode := by
  have hplaces : (placeList g).toFinset.card ≤ (placeList g).length := List.toFinset_card_le _
  cases mode with
  | lalr =>
    rw [sayable, Finset.card_product, Finset.card_singleton, Nat.mul_one]
    exact hplaces
  | canonical =>
    rw [sayable, Finset.card_product]
    refine Nat.mul_le_mul hplaces ((Finset.card_insert_le _ _).trans (Nat.succ_le_succ ?_))
    exact Finset.card_image_le.trans (Nat.le_of_eq (Finset.card_range _))

private theorem proper_key (h : Proper g kernel) (mode : Mode) : Proper g (mode.key kernel) := by
  cases mode with
  | canonical => exact h
  | lalr =>
    refine ⟨List.pairwise_map.2 h.sorted, fun e he => ?_, fun e he => ?_⟩
    · obtain ⟨e', he', rfl⟩ := List.mem_map.1 he
      exact h.places e' he'
    · obtain ⟨e', -, rfl⟩ := List.mem_map.1 he
      exact BitSet.below_empty _

private theorem facts_key_subset (h : Proper g kernel) (mode : Mode) :
    facts (mode.key kernel) ⊆ sayable g mode := by
  have hkey := proper_key h mode
  have hplace {i : Item} {a : BitSet} (hi : (i, a) ∈ mode.key kernel) : i ∈
      (placeList g).toFinset :=
    List.mem_toFinset.2 (mem_placeList.2 (hkey.places _ hi))
  rintro ⟨i, o⟩ hi
  cases o with
  | none =>
    obtain ⟨a, ha⟩ := mem_facts_none.1 hi
    cases mode with
    | lalr => exact Finset.mem_product.2 ⟨hplace ha, Finset.mem_singleton_self _⟩
    | canonical => exact Finset.mem_product.2 ⟨hplace ha, Finset.mem_insert_self _ _⟩
  | some t =>
    obtain ⟨a, ha, ht⟩ := mem_facts_some.1 hi
    cases mode with
    | lalr =>
      obtain ⟨e, -, heq⟩ := List.mem_map.1 ha
      rw [← (Prod.mk.inj heq).2] at ht
      exact absurd ht (BitSet.not_mem_empty t)
    | canonical =>
      refine Finset.mem_product.2
        ⟨hplace ha, Finset.mem_insert_of_mem (Finset.mem_image_of_mem _ ?_)⟩
      exact Finset.mem_range.2 (h.below _ ha t ht)

/-- There are not many different keys. -/
theorem length_le_of_keys {mode : Mode} {keys : List Items} (hnodup : keys.Nodup)
    (hkeys : ∀ key ∈ keys, ∃ kernel, Proper g kernel ∧ mode.key kernel = key) :
    keys.length ≤ 2 ^ choices g mode := by
  have hproper : ∀ key ∈ keys, Proper g key := by
    intro key hkey
    obtain ⟨kernel, hkernel, rfl⟩ := hkeys key hkey
    exact proper_key hkernel mode
  have hsub : (keys.map facts).toFinset ⊆ (sayable g mode).powerset := by
    intro s hs
    obtain ⟨key, hkey, rfl⟩ := List.mem_map.1 (List.mem_toFinset.1 hs)
    obtain ⟨kernel, hkernel, rfl⟩ := hkeys key hkey
    exact Finset.mem_powerset.2 (facts_key_subset hkernel mode)
  have hfacts : (keys.map facts).Nodup :=
    hnodup.map_on fun a ha b hb h => facts_injective (hproper a ha) (hproper b hb) h
  calc keys.length = (keys.map facts).toFinset.card := by
        rw [List.toFinset_card_of_nodup hfacts, List.length_map]
    _ ≤ (sayable g mode).powerset.card := Finset.card_le_card hsub
    _ = 2 ^ (sayable g mode).card := Finset.card_powerset _
    _ ≤ 2 ^ choices g mode := Nat.pow_le_pow_right (by decide) (card_sayable g mode)

/-- How many lookaheads are missing in an item set. -/
def absent (g : Flat) (items : Items) : Nat := (items.map fun e => e.2.missing g.terminalCount).sum

theorem absent_le (h : Proper g kernel) :
    absent g kernel ≤ (placeList g).length * g.terminalCount := by
  have hcores : kernel.cores.length ≤ (placeList g).length := by
    apply List.Subperm.length_le
    apply List.Nodup.subperm
    · refine (List.pairwise_map.2 h.sorted).imp fun {x y} hlt heq => ?_
      rw [heq] at hlt
      exact Item.Lt.irrefl _ hlt
    · intro i hi
      obtain ⟨e, he, rfl⟩ := List.mem_map.1 hi
      exact mem_placeList.2 (h.places e he)
  have hsum : absent g kernel ≤ kernel.length * g.terminalCount := by
    have hle := List.sum_le_card_nsmul (kernel.map fun e => e.2.missing g.terminalCount)
      g.terminalCount fun n hn => by
      obtain ⟨e, -, rfl⟩ := List.mem_map.1 hn
      exact BitSet.missing_le _ _
    simpa [absent] using hle
  rw [Items.cores, List.length_map] at hcores
  exact hsum.trans (Nat.mul_le_mul_right _ hcores)

private theorem Items.Within.absent_le {a b : Items} (h : Within a b) :
    absent g b ≤ absent g a := by
  induction h with
  | nil => exact Nat.le_refl _
  | cons hxy _ ih =>
    simp only [absent, List.map_cons, List.sum_cons] at ih ⊢
    exact Nat.add_le_add (BitSet.missing_le_of_subset hxy.2 _) ih

/-- An item set that grows misses less. -/
theorem Items.Within.absent_lt {a b : Items} (h : Within a b)
    (hb : ∀ e ∈ b, e.2.Below g.terminalCount) (hne : a ≠ b) :
    absent g b < absent g a := by
  induction h with
  | nil => exact absurd rfl hne
  | @cons x y xs ys hxy hrest ih =>
    simp only [absent, List.map_cons, List.sum_cons] at ih ⊢
    have hle := Within.absent_le (g := g) hrest
    simp only [absent] at hle
    by_cases heq : x.2 = y.2
    · have hxs : xs ≠ ys := by
        rintro rfl
        exact hne (congrArg (· :: xs) (Prod.ext hxy.1 heq))
      have hlt := ih (fun e he => hb e (List.mem_cons_of_mem _ he)) hxs
      rw [heq]
      omega
    · have hlt := BitSet.missing_lt_of_subset hxy.2 (hb y List.mem_cons_self) heq
      omega

theorem visitBound_eq (g : Flat) (mode : Mode) :
    visitBound g mode = 2 ^ choices g mode * ((placeList g).length * g.terminalCount + 1) + 1 := by
  cases mode with
  | lalr => simp only [visitBound, choices, length_placeList, Nat.one_shiftLeft]
  | canonical => simp only [visitBound, choices, length_placeList, Nat.one_shiftLeft]

end Reparse.Table

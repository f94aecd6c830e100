import Reparse.Proofs.Kernels

/-! # Where lookaheads come from -/
namespace Reparse.Table
open Data Grammar

/-! ## Groups and their values -/

section
variable {α β : Type}

private theorem groupRuns_map (h : α → β) (pairs : List (Kind × α)) :
    groupRuns (pairs.map fun p => (p.1, h p.2)) = (groupRuns pairs).map fun group =>
      (group.1, group.2.map h) := by
  induction pairs with
  | nil => rfl
  | cons pair rest ih =>
    rw [List.map_cons, groupRuns_cons, groupRuns_cons, ih]
    cases groupRuns rest with
    | nil => rfl
    | cons group groups =>
      simp only [List.map_cons]
      split
      · rfl
      · rfl

/-- Groups do not depend on what is grouped. -/
private theorem groupByKind_map (h : α → β) (pairs : List (Kind × α)) :
    groupByKind (pairs.map fun p => (p.1, h p.2)) = (groupByKind pairs).map fun group =>
      (group.1, group.2.map h) := by
  rw [groupByKind, groupByKind, ← groupRuns_map]
  congr 1
  exact (List.map_mergeSort (f := fun p : Kind × α => (p.1, h p.2)) fun _ _ _ _ => rfl).symm
end

namespace Items

variable {g : Flat} {f : First} {items kernel a b : Items} {i : Item} {t : Nat}

/-- The item has the terminal as a lookahead. -/
def Has (items : Items) (i : Item) (t : Nat) : Prop := ∃ ahead, (i, ahead) ∈ items ∧ t ∈ ahead

theorem Proper.mem_iff_has (h : Proper g items) {ahead : BitSet} (hi : (i, ahead) ∈ items) :
    t ∈ ahead ↔ items.Has i t := by
  constructor
  · exact fun ht => ⟨ahead, hi, ht⟩
  · rintro ⟨other, hother, ht⟩
    rwa [h.unique hi hother]

theorem has_unite (h : a.cores = b.cores) (hi : (a.unite b).Has i t) : a.Has i t ∨ b.Has i t := by
  obtain ⟨ahead, hmem, ht⟩ := hi
  obtain ⟨s, u, hs, hu, rfl⟩ := exists_of_mem_unite h hmem
  rcases BitSet.mem_union.1 ht with ht | ht
  · exact .inl ⟨s, hs, ht⟩
  · exact .inr ⟨u, hu, ht⟩

theorem Within.has (h : Within a b) (hi : a.Has i t) : b.Has i t := by
  obtain ⟨ahead, hmem, ht⟩ := hi
  obtain ⟨more, hmore, hsub⟩ := h.exists_mem hmem
  exact ⟨more, hmore, hsub t ht⟩

private theorem Proper.sorted_cores (h : Proper g items) : items.cores.Pairwise Item.Lt :=
  List.pairwise_map.2 h.sorted

/-- Sorted items are known by what is among them. -/
theorem Proper.cores_eq (ha : Proper g a) (hb : Proper g b) (h : ∀ i, i ∈ a.cores ↔ i ∈ b.cores) :
    a.cores = b.cores := by
  have nodup {l : List Item} (hl : l.Pairwise Item.Lt) : l.Nodup := by
    refine hl.imp fun {x y} hlt heq => ?_
    rw [heq] at hlt
    exact Item.Lt.irrefl _ hlt
  have hperm := (List.perm_ext_iff_of_nodup (nodup ha.sorted_cores) (nodup hb.sorted_cores)).2 h
  refine hperm.eq_of_pairwise (fun x y _ _ hxy hyx => ?_) ha.sorted_cores hb.sorted_cores
  exact absurd (hxy.trans hyx) (Item.Lt.irrefl _)

/-- Item sets with the same cores compare by single lookaheads. -/
theorem within_of_has (hb : Proper g b) (hcores : a.cores = b.cores)
    (h : ∀ i t, a.Has i t → b.Has i t) : Within a b := by
  have hlength : a.length = b.length := by simpa [cores] using congrArg List.length hcores
  refine List.forall₂_iff_get.2 ⟨hlength, fun n hn hn' => ?_⟩
  have hcore : (a.get ⟨n, hn⟩).1 = (b.get ⟨n, hn'⟩).1 := by
    have hget := congrArg (·[n]?) hcores
    simpa [cores, hn, hn'] using hget
  refine ⟨hcore, fun t ht => ?_⟩
  refine (hb.mem_iff_has (List.get_mem b ⟨n, hn'⟩)).2 ?_
  rw [← hcore]
  exact h _ _ ⟨_, List.get_mem a ⟨n, hn⟩, ht⟩

/-! ## Closures -/

/-- The item is in the closure of the kernel with this lookahead: it keeps one from the kernel, or
it is predicted in front of something that begins with the terminal or vanishes. -/
inductive Ahead (g : Flat) (f : First) (kernel : Items) : Item → Nat → Prop
  | kernel {i : Item} {t : Nat} (h : kernel.Has i t) : Ahead g f kernel i t
  | spontaneous {i : Item} {s : Step} {rest : List Step} {q t : Nat}
      (source : Closed g kernel.cores i) (hs : g.stepsFrom i.production i.dot = s :: rest)
      (nonterminal : g.isTerminal s.symbol = false) (hq : q ∈ g.productionsOf s.symbol)
      (begins : t ∈ (f.ofSteps rest).1) : Ahead g f kernel ⟨q, 0⟩ t
  | inherited {i : Item} {s : Step} {rest : List Step} {q t : Nat} (source : Ahead g f kernel i t)
      (hs : g.stepsFrom i.production i.dot = s :: rest)
      (nonterminal : g.isTerminal s.symbol = false) (hq : q ∈ g.productionsOf s.symbol)
      (vanishes : (f.ofSteps rest).2 = true) : Ahead g f kernel ⟨q, 0⟩ t

private theorem mem_behind_iff {rest : List Step} {ahead : BitSet} :
    t ∈ behind f rest ahead ↔ t ∈ (f.ofSteps rest).1 ∨ (f.ofSteps rest).2 = true ∧ t ∈ ahead := by
  unfold behind
  split
  · next h => simp [h]
  · next h => simp [h]

/-- Lookaheads so far have a reason. -/
structure Grounded (g : Flat) (f : First) (kernel : Items) (p : Predictions) : Prop where
  found : ∀ (q : Nat) ahead, p.1[q]? = some (some ahead) → ∀ t ∈ ahead, Ahead g f kernel ⟨q, 0⟩ t
  work : ∀ entry ∈ p.2, Closed g kernel.cores entry.1 ∧ ∀ t ∈ entry.2, Ahead g f kernel entry.1 t

private theorem Grounded.predict {p : Predictions} (h : Grounded g f kernel p) {q : Nat}
    {ahead : BitSet} (hclosed : Closed g kernel.cores ⟨q, 0⟩)
    (hahead : ∀ t ∈ ahead, Ahead g f kernel ⟨q, 0⟩ t) :
    Grounded g f kernel (predict ahead p q) := by
  have set (s : BitSet) (hs : ∀ t ∈ s, Ahead g f kernel ⟨q, 0⟩ t) :
      Grounded g f kernel (p.1.setIfInBounds q (some s), (⟨q, 0⟩, s) :: p.2) := by
    constructor
    · intro q' ahead' hget t ht
      by_cases hqq : q = q'
      · subst hqq
        rw [Array.getElem?_setIfInBounds_self] at hget
        split at hget
        · obtain rfl := Option.some.inj (Option.some.inj hget)
          exact hs t ht
        · contradiction
      · rw [Array.getElem?_setIfInBounds_ne hqq] at hget
        exact h.found q' ahead' hget t ht
    · intro entry hentry
      rcases List.mem_cons.1 hentry with rfl | hentry
      · exact ⟨hclosed, hs⟩
      · exact h.work entry hentry
  unfold Items.predict
  split
  · exact set _ hahead
  · next old hold =>
    simp only
    split
    · exact h
    · refine set _ fun t ht => ?_
      rcases BitSet.mem_union.1 ht with ht | ht
      · refine h.found q old ?_ t ht
        cases hget : p.1[q]? with
        | none =>
          rw [hget] at hold
          contradiction
        | some o =>
          rw [hget] at hold
          exact congrArg some hold
      · exact hahead t ht

private theorem Grounded.expand {p : Predictions} (h : Grounded g f kernel p)
    {entry : Item × BitSet} (hclosed : Closed g kernel.cores entry.1)
    (hentry : ∀ t ∈ entry.2, Ahead g f kernel entry.1 t) :
    Grounded g f kernel (expand g f entry p) := by
  rcases expand_cases g f entry p with heq | ⟨s, rest, hs, hn⟩
  · rwa [heq]
  · rw [expand_nonterminal hs hn]
    have key (qs : List Nat) (hqs : ∀ q ∈ qs, q ∈ g.productionsOf s.symbol) (p : Predictions)
        (hp : Grounded g f kernel p) :
        Grounded g f kernel (qs.foldl (Items.predict (behind f rest entry.2)) p) := by
      induction qs generalizing p with
      | nil => exact hp
      | cons q qs ih =>
        have hq := hqs q List.mem_cons_self
        refine ih (fun q hq => hqs q (List.mem_cons_of_mem _ hq)) _
          (hp.predict (hclosed.predict hs hn hq) ?_)
        intro t ht
        rcases mem_behind_iff.1 ht with ht | ⟨hvanishes, ht⟩
        · exact .spontaneous hclosed hs hn hq ht
        · exact .inherited (hentry t ht) hs hn hq hvanishes
    exact key _ (fun q hq => Array.mem_toList_iff.1 hq) p h

private theorem grounded_expandAll {fuel : Nat} {p : Predictions} (h : Grounded g f kernel p)
    {q : Nat} {ahead : BitSet} (hq : (expandAll g f fuel p)[q]? = some (some ahead)) :
    ∀ t ∈ ahead, Ahead g f kernel ⟨q, 0⟩ t := by
  induction fuel generalizing p with
  | zero => exact h.found q ahead hq
  | succ fuel ih =>
    obtain ⟨found, work⟩ := p
    cases work with
    | nil => exact h.found q ahead hq
    | cons entry work =>
      obtain ⟨hclosed, hentry⟩ := h.work entry List.mem_cons_self
      refine ih (Grounded.expand ?_ hclosed hentry) hq
      exact ⟨h.found, fun e he => h.work e (List.mem_cons_of_mem _ he)⟩

theorem ahead_of_has_closure (h : (closure g f kernel).Has i t) : Ahead g f kernel i t := by
  obtain ⟨ahead, hmem, ht⟩ := h
  rw [closure_eq, List.mem_merge] at hmem
  rcases hmem with hmem | hmem
  · exact .kernel ⟨ahead, (List.mem_filter.1 hmem).1, ht⟩
  · obtain ⟨q, ahead', hget, heq⟩ := mem_ofPredictions.1 hmem
    obtain ⟨rfl, rfl⟩ := Prod.mk.inj heq
    have hseeds : Grounded g f kernel (seeds g kernel, kernel) :=
      ⟨fun q ahead hget t ht => .kernel ⟨ahead, mem_of_seeds hget, ht⟩,
        fun e he => ⟨.kernel (List.mem_map_of_mem he), fun t ht => .kernel ⟨e.2, he, ht⟩⟩⟩
    exact grounded_expandAll hseeds hget t ht

section
variable (hg : g.WellFormed) (hf : First.Exact g f)
include hg hf

/-- The items of a closure depend on the items of its kernel only. -/
theorem mem_cores_closure (h : Proper g kernel) :
    i ∈ (closure g f kernel).cores ↔ Closed g kernel.cores i := by
  have hcompleted := completed_closure hg hf h
  constructor
  · intro hi
    obtain ⟨entry, hentry, rfl⟩ := List.mem_map.1 hi
    exact closed_of_mem_closure hentry
  · intro hi
    induction hi with
    | kernel hi =>
      obtain ⟨entry, hentry, rfl⟩ := List.mem_map.1 hi
      obtain ⟨a, ha, -⟩ := hcompleted.kernel _ _ hentry
      exact List.mem_map_of_mem (f := (·.1)) ha
    | @predict i s rest q source hs hn hq ih =>
      obtain ⟨entry, hentry, rfl⟩ := List.mem_map.1 ih
      obtain ⟨a, ha, -⟩ := hcompleted.predicted _ _ s rest hentry hs hn q hq
      exact List.mem_map_of_mem (f := (·.1)) ha

/-- The lookaheads of a closure are those that have a reason. -/
theorem has_closure (h : Proper g kernel) :
    (closure g f kernel).Has i t ↔ Ahead g f kernel i t := by
  have hcompleted := completed_closure hg hf h
  refine ⟨ahead_of_has_closure, fun hahead => ?_⟩
  induction hahead with
  | kernel hi =>
    obtain ⟨a, ha, ht⟩ := hi
    obtain ⟨a', ha', hsub⟩ := hcompleted.kernel _ _ ha
    exact ⟨a', ha', hsub _ ht⟩
  | @spontaneous i s rest q t source hs hn hq begins =>
    obtain ⟨entry, hentry, rfl⟩ := List.mem_map.1 ((mem_cores_closure hg hf h).2 source)
    obtain ⟨a, ha, hsub⟩ := hcompleted.predicted _ _ s rest hentry hs hn q hq
    exact ⟨a, ha, hsub _ (mem_behind_iff.2 (.inl begins))⟩
  | @inherited i s rest q t source hs hn hq vanishes ih =>
    obtain ⟨ahead, hmem, ht⟩ := ih
    obtain ⟨a, ha, hsub⟩ := hcompleted.predicted _ _ s rest hmem hs hn q hq
    exact ⟨a, ha, hsub _ (mem_behind_iff.2 (.inr ⟨vanishes, ht⟩))⟩

theorem cores_closure_congr (ha : Proper g a) (hb : Proper g b) (h : a.cores = b.cores) :
    (closure g f a).cores = (closure g f b).cores := by
  refine (completed_closure hg hf ha).proper.cores_eq (completed_closure hg hf hb).proper fun i =>
    ?_
  rw [mem_cores_closure hg hf ha, mem_cores_closure hg hf hb, h]
end

theorem Ahead.mono (h : Ahead g f a i t) (hcores : a.cores = b.cores)
    (hhas : ∀ i t, a.Has i t → b.Has i t) :
    Ahead g f b i t := by
  induction h with
  | kernel hi => exact .kernel (hhas _ _ hi)
  | spontaneous source hs hn hq begins => exact .spontaneous (hcores ▸ source) hs hn hq begins
  | inherited _ hs hn hq vanishes ih => exact .inherited ih hs hn hq vanishes

/-! ## Successors -/

/-- Where items go depends on the items only. -/
theorem map_cores_successors (g : Flat) (items : Items) :
    (successors g items).map (fun s => (s.1, s.2.cores)) =
      groupByKind (items.cores.filterMap fun i =>
      (g.stepsFrom i.production i.dot).head?.map fun s => (s.symbol, i.advance)) := by
  have hpairs : (items.cores.filterMap fun i =>
      (g.stepsFrom i.production i.dot).head?.map fun s => (s.symbol, i.advance)) =
        (items.filterMap fun e => (g.stepsFrom e.1.production e.1.dot).head?.map fun s =>
          (s.symbol, (e.1.advance, e.2))).map fun p => (p.1, p.2.1) := by
    rw [cores, List.filterMap_map, List.map_filterMap]
    refine List.filterMap_congr fun e _ => ?_
    simp only [Function.comp_apply, Option.map_map]
    rfl
  rw [hpairs, groupByKind_map]
  rfl

theorem successors_congr (h : a.cores = b.cores) :
    List.Forall₂ (fun x y => x.1 = y.1 ∧ x.2.cores = y.2.cores)
      (successors g a) (successors g b) := by
  have hmap : (successors g a).map (fun s => (s.1, s.2.cores)) =
      (successors g b).map fun s => (s.1, s.2.cores) := by
    rw [map_cores_successors, map_cores_successors, h]
  have heq := List.forall₂_eq_eq_eq.symm ▸ hmap
  rw [List.forall₂_map_left_iff, List.forall₂_map_right_iff] at heq
  exact heq.imp fun x y hxy => Prod.mk.inj hxy

/-- There is one successor for a symbol. -/
theorem successors_unique {k : Kind} {next next' : Items} (h : (k, next) ∈ successors g items)
    (h' : (k, next') ∈ successors g items) : next = next' := by
  have hsorted := pairwise_successors g items
  obtain ⟨n, hn, hget⟩ := List.getElem_of_mem h
  obtain ⟨m, hm, hget'⟩ := List.getElem_of_mem h'
  rw [List.pairwise_iff_getElem] at hsorted
  rcases Nat.lt_trichotomy n m with hlt | rfl | hlt
  · have hkinds := hsorted n m hn hm hlt
    rw [hget, hget'] at hkinds
    exact absurd hkinds (Nat.lt_irrefl _)
  · exact (Prod.mk.inj (hget.symm.trans hget')).2
  · have hkinds := hsorted m n hm hn hlt
    rw [hget, hget'] at hkinds
    exact absurd hkinds (Nat.lt_irrefl _)

theorem cores_of_successors {k : Kind} {next next' : Items} (h : a.cores = b.cores)
    (ha : (k, next) ∈ successors g a) (hb : (k, next') ∈ successors g b) :
    next.cores = next'.cores := by
  have hmap : (successors g a).map (fun s => (s.1, s.2.cores)) =
      (successors g b).map fun s => (s.1, s.2.cores) := by
    rw [map_cores_successors, map_cores_successors, h]
  have hmem : (k, next.cores) ∈ (successors g b).map fun s => (s.1, s.2.cores) :=
    hmap ▸ List.mem_map_of_mem (f := fun s : Kind × Items => (s.1, s.2.cores)) ha
  obtain ⟨⟨k', other⟩, hother, heq⟩ := List.mem_map.1 hmem
  obtain ⟨rfl, hcores⟩ := Prod.mk.inj heq
  rw [← hcores, successors_unique hother hb]

theorem exists_successor_of_cores {k : Kind} {next : Items} (h : a.cores = b.cores)
    (ha : (k, next) ∈ successors g a) :
    ∃ next', (k, next') ∈ successors g b ∧ next'.cores = next.cores := by
  obtain ⟨n, hn, hget⟩ := List.getElem_of_mem ha
  obtain ⟨hlength, hall⟩ := List.forall₂_iff_get.1 (successors_congr (g := g) h)
  have hpair := hall n hn (hlength ▸ hn)
  rw [List.get_eq_getElem, hget] at hpair
  refine ⟨_, ?_, hpair.2.symm⟩
  rw [show k = _ from hpair.1]
  exact List.get_mem _ _

/-- A successor keeps the lookaheads of the items that it comes from. -/
theorem has_successor {k : Kind} {next : Items} (h : (k, next) ∈ successors g items) :
    next.Has i t ↔ ∃ j s rest, items.Has j t ∧
      g.stepsFrom j.production j.dot = s :: rest ∧ s.symbol = k ∧
      i = j.advance := by
  constructor
  · rintro ⟨ahead, hmem, ht⟩
    obtain ⟨j, s, rest, hj, hs, hk, hadvance⟩ := of_mem_successors h _ hmem
    exact ⟨j, s, rest, ⟨ahead, hj, ht⟩, hs, hk, hadvance⟩
  · rintro ⟨j, s, rest, ⟨ahead, hj, ht⟩, hs, rfl, rfl⟩
    obtain ⟨next', hnext', hmem⟩ := exists_mem_successors hj hs
    rw [successors_unique h hnext']
    exact ⟨ahead, hmem, ht⟩

end Items
end Reparse.Table

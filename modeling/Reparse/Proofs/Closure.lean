import Reparse.Proofs.FirstSets
import Reparse.Proofs.Items

/-! # Closures predict everything -/
namespace Reparse.Table
open Data Grammar

/-- Items are ordered by productions and then by places. -/
def Item.Lt (a b : Item) : Prop :=
  a.production < b.production ∨ a.production = b.production ∧ a.dot < b.dot

theorem Item.Lt.trans {a b c : Item} (h : a.Lt b) (h' : b.Lt c) : a.Lt c := by
  unfold Lt at *
  omega

theorem Item.Lt.irrefl (a : Item) : ¬ a.Lt a := by
  unfold Lt
  omega

private theorem Item.le_iff {a b : Item} : a.le b = true ↔ a = b ∨ a.Lt b := by
  obtain ⟨q, d⟩ := a
  obtain ⟨q', d'⟩ := b
  simp only [Item.le, Item.Lt, Bool.or_eq_true, Bool.and_eq_true, decide_eq_true_eq,
    beq_iff_eq, Item.mk.injEq]
  omega

namespace Items

variable {g : Flat} {f : First} {kernel : Items}

/-- The items are in order, stand in productions and have lookaheads that are terminals. -/
structure Proper (g : Flat) (items : Items) : Prop where
  sorted : items.Pairwise fun x y => x.1.Lt y.1
  places : ∀ e ∈ items, ∃ p, g.productions[e.1.production]? = some p ∧ e.1.dot ≤ p.steps.length
  below : ∀ e ∈ items, e.2.Below g.terminalCount

/-- An item has one lookahead. -/
theorem Proper.unique (h : Proper g kernel) {i : Item} {a b : BitSet} (ha : (i, a) ∈ kernel)
    (hb : (i, b) ∈ kernel) :
    a = b := by
  have hsorted := h.sorted
  clear h
  induction kernel with
  | nil => contradiction
  | cons e rest ih =>
    obtain ⟨hhead, htail⟩ := List.pairwise_cons.1 hsorted
    rcases List.mem_cons.1 ha with ha | ha
    · rcases List.mem_cons.1 hb with hb | hb
      · exact (Prod.mk.inj (ha.trans hb.symm)).2
      · have hlt := hhead _ hb
        rw [← ha] at hlt
        exact absurd hlt (Item.Lt.irrefl i)
    · rcases List.mem_cons.1 hb with hb | hb
      · have hlt := hhead _ ha
        rw [← hb] at hlt
        exact absurd hlt (Item.Lt.irrefl i)
      · exact ih ha hb htail

/-! ## Predictions -/

/-- A production is predicted with at least these lookaheads. -/
def Known (found : Array (Option BitSet)) (q : Nat) (ahead : BitSet) : Prop :=
  ∃ s, found[q]? = some (some s) ∧ ahead ⊆ s

/-- What follows from an item was predicted. -/
def Drawn (g : Flat) (f : First) (found : Array (Option BitSet)) (entry : Item × BitSet) : Prop :=
  ∀ s rest, g.stepsFrom entry.1.production entry.1.dot = s :: rest → g.isTerminal s.symbol = false →
    ∀ q ∈ g.productionsOf s.symbol, Known found q (behind f rest entry.2)

/-- What is missing in one place. -/
def gap (m : Nat) : Option (Option BitSet) → Nat
  | some (some s) => s.missing m
  | _ => m + 1

/-- How much is not predicted. -/
def unknown (g : Flat) (found : Array (Option BitSet)) : Nat :=
  ∑ q ∈ Finset.range g.productions.size, gap g.terminalCount found[q]?

private theorem gap_le (m : Nat) (o : Option (Option BitSet)) : gap m o ≤ m + 1 := by
  unfold gap
  split
  · exact Nat.le_succ_of_le (BitSet.missing_le _ m)
  · exact Nat.le_refl _

theorem unknown_le (g : Flat) (found : Array (Option BitSet)) :
    unknown g found ≤ g.productions.size * (g.terminalCount + 1) := by
  have hsum := Finset.sum_le_card_nsmul (Finset.range g.productions.size)
    (fun q => gap g.terminalCount found[q]?) (g.terminalCount + 1) fun q _ => gap_le _ _
  simpa [unknown] using hsum

/-- Predictions of a grammar that belong together. -/
structure Bounded (g : Flat) (p : Predictions) : Prop where
  size : p.1.size = g.productions.size
  found : ∀ (q : Nat) s, p.1[q]? = some (some s) → s.Below g.terminalCount
  work : ∀ e ∈ p.2, e.2.Below g.terminalCount

/-- What some steps of a closure do to the predictions. -/
structure Advances (g : Flat) (p p' : Predictions) : Prop where
  known : ∀ q ahead, Known p.1 q ahead → Known p'.1 q ahead
  work : p.2 ⊆ p'.2
  fresh : ∀ (q : Nat) s, p'.1[q]? = some (some s) → p.1[q]? = some (some s) ∨ (⟨q, 0⟩, s) ∈ p'.2
  bounded : Bounded g p'
  left : p'.2.length + unknown g p'.1 ≤ p.2.length + unknown g p.1

theorem Advances.refl {p : Predictions} (h : Bounded g p) : Advances g p p :=
  ⟨fun _ _ hq => hq, List.Subset.refl _, fun _ _ hq => .inl hq, h, Nat.le_refl _⟩

private theorem Advances.trans {p p' p'' : Predictions} (h : Advances g p p')
    (h' : Advances g p' p'') : Advances g p p'' := by
  refine ⟨fun q a hq => h'.known q a (h.known q a hq), List.Subset.trans h.work h'.work,
    fun q s hq => ?_, h'.bounded, h'.left.trans h.left⟩
  rcases h'.fresh q s hq with hq | hq
  · rcases h.fresh q s hq with hq | hq
    · exact .inl hq
    · exact .inr (h'.work hq)
  · exact .inr hq

private theorem Drawn.mono {found found' : Array (Option BitSet)} {entry : Item × BitSet}
    (h : Drawn g f found entry) (hknown : ∀ q ahead, Known found q ahead → Known found' q ahead) :
    Drawn g f found' entry :=
  fun s rest hs hn q hq => hknown q _ (h s rest hs hn q hq)

/-- A production that gets lookaheads is worked on again. -/
private theorem advances_set {p : Predictions} (h : Bounded g p) {q : Nat}
    (hq : q < g.productions.size) {s : BitSet} (hs : s.Below g.terminalCount)
    (hknown : ∀ ahead, Known p.1 q ahead → ahead ⊆ s)
    (hgap : s.missing g.terminalCount < gap g.terminalCount p.1[q]?) :
    Advances g p (p.1.setIfInBounds q (some s), (⟨q, 0⟩, s) :: p.2) := by
  have hself : (p.1.setIfInBounds q (some s))[q]? = some (some s) := by
    rw [Array.getElem?_setIfInBounds_self, if_pos (by rw [h.size]; exact hq)]
  have hother {q' : Nat} (hne : q ≠ q') : (p.1.setIfInBounds q (some s))[q']? = p.1[q']? :=
    Array.getElem?_setIfInBounds_ne hne
  constructor
  case known =>
    intro q' ahead hahead
    by_cases hqq : q = q'
    · subst hqq
      exact ⟨s, hself, hknown ahead hahead⟩
    · obtain ⟨s', hget, hsub⟩ := hahead
      exact ⟨s', by rw [hother hqq, hget], hsub⟩
  case work => exact List.subset_cons_self _ _
  case fresh =>
    intro q' s' hget
    by_cases hqq : q = q'
    · subst hqq
      rw [hself] at hget
      obtain rfl := Option.some.inj (Option.some.inj hget)
      exact .inr List.mem_cons_self
    · rw [hother hqq] at hget
      exact .inl hget
  case bounded =>
    refine ⟨by rw [Array.size_setIfInBounds]; exact h.size, fun q' s' hget => ?_, fun e he => ?_⟩
    · by_cases hqq : q = q'
      · subst hqq
        rw [hself] at hget
        obtain rfl := Option.some.inj (Option.some.inj hget)
        exact hs
      · rw [hother hqq] at hget
        exact h.found q' s' hget
    · rcases List.mem_cons.1 he with rfl | he
      · exact hs
      · exact h.work e he
  case left =>
    have hlt : unknown g (p.1.setIfInBounds q (some s)) < unknown g p.1 := by
      apply Finset.sum_lt_sum
      · intro q' _
        by_cases hqq : q = q'
        · subst hqq
          rw [hself]
          exact Nat.le_of_lt hgap
        · rw [hother hqq]
      · refine ⟨q, Finset.mem_range.2 hq, ?_⟩
        rw [hself]
        exact hgap
    change p.2.length + 1 + unknown g (p.1.setIfInBounds q (some s)) ≤ _
    omega

private theorem advances_predict {p : Predictions} (h : Bounded g p) {q : Nat}
    (hq : q < g.productions.size) {ahead : BitSet} (hahead : ahead.Below g.terminalCount) :
    Advances g p (predict ahead p q) ∧ Known (predict ahead p q).1 q ahead := by
  have hsize : q < p.1.size := by rw [h.size]; exact hq
  have hself (s : BitSet) : (p.1.setIfInBounds q (some s))[q]? = some (some s) := by
    rw [Array.getElem?_setIfInBounds_self, if_pos hsize]
  cases hget : p.1[q]? with
  | none =>
    rw [Array.getElem?_eq_getElem hsize] at hget
    contradiction
  | some o =>
    cases o with
    | none =>
      have heq : predict ahead p q =
          (p.1.setIfInBounds q (some ahead), (⟨q, 0⟩, ahead) :: p.2) := by
        unfold predict
        rw [hget]
        rfl
      rw [heq]
      refine ⟨advances_set h hq hahead ?_ ?_, ahead, hself ahead, BitSet.subset_refl _⟩
      · rintro ahead' ⟨s, hs, -⟩
        rw [hget] at hs
        simp at hs
      · rw [hget]
        exact Nat.lt_succ_of_le (BitSet.missing_le _ _)
    | some old =>
      have heq : predict ahead p q = if old.union ahead = old then p else
          (p.1.setIfInBounds q (some (old.union ahead)), (⟨q, 0⟩, old.union ahead) :: p.2) := by
        unfold predict
        rw [hget]
        rfl
      rw [heq]
      split
      · next hsame =>
        refine ⟨.refl h, old, hget, ?_⟩
        rw [← hsame]
        exact BitSet.subset_union_right _ _
      · next hne =>
        have hbelow := h.found q old hget
        refine ⟨advances_set h hq (hbelow.union hahead) ?_ ?_, old.union ahead, hself _,
          BitSet.subset_union_right _ _⟩
        · rintro ahead' ⟨s, hs, hsub⟩
          rw [hget] at hs
          obtain rfl := Option.some.inj (Option.some.inj hs)
          exact BitSet.subset_trans hsub (BitSet.subset_union_left _ _)
        · rw [hget]
          exact BitSet.missing_lt_of_subset (BitSet.subset_union_left _ _)
            (hbelow.union hahead) (Ne.symm hne)

private theorem advances_predictAll {qs : List Nat} (hqs : ∀ q ∈ qs, q < g.productions.size)
    {ahead : BitSet} (hahead : ahead.Below g.terminalCount) {p : Predictions} (h : Bounded g p) :
    Advances g p (qs.foldl (predict ahead) p) ∧
      ∀ q ∈ qs, Known (qs.foldl (predict ahead) p).1 q ahead := by
  induction qs generalizing p with
  | nil => exact ⟨.refl h, nofun⟩
  | cons q rest ih =>
    obtain ⟨hfirst, hknown⟩ := advances_predict h (hqs q List.mem_cons_self) hahead
    obtain ⟨hrest, hall⟩ := ih (fun q hq => hqs q (List.mem_cons_of_mem _ hq)) hfirst.bounded
    refine ⟨hfirst.trans hrest, fun q' hq' => ?_⟩
    rcases List.mem_cons.1 hq' with rfl | hq'
    · exact hrest.known _ _ hknown
    · exact hall q' hq'

theorem below_ofSteps (hf : First.Exact g f) (steps : List Step) :
    (f.ofSteps steps).1.Below g.terminalCount := by
  induction steps with
  | nil => exact BitSet.below_empty _
  | cons s rest ih =>
    rw [First.ofSteps]
    split
    · exact (hf.below _).union ih
    · exact hf.below _

private theorem below_behind (hf : First.Exact g f) {ahead : BitSet}
    (h : ahead.Below g.terminalCount) (rest : List Step) :
    (behind f rest ahead).Below g.terminalCount := by
  unfold behind
  split
  · exact (below_ofSteps hf rest).union h
  · exact below_ofSteps hf rest

private theorem advances_expand (hg : g.WellFormed) (hf : First.Exact g f) {p : Predictions}
    (h : Bounded g p) {entry : Item × BitSet} (hentry : entry.2.Below g.terminalCount) :
    Advances g p (expand g f entry p) ∧ Drawn g f (expand g f entry p).1 entry := by
  by_cases hcase : ∃ s rest, g.stepsFrom entry.1.production entry.1.dot = s :: rest ∧
    g.isTerminal s.symbol = false
  · obtain ⟨s, rest, hs, hn⟩ := hcase
    rw [expand_nonterminal hs hn]
    have hqs : ∀ q ∈ (g.productionsOf s.symbol).toList, q < g.productions.size := by
      intro q hq
      obtain ⟨p, hp, -⟩ := (hg.index s.symbol q).1 (Array.mem_toList_iff.1 hq)
      exact (Array.getElem?_eq_some_iff.1 hp).1
    obtain ⟨hadvances, hknown⟩ := advances_predictAll hqs (below_behind hf hentry rest) h
    refine ⟨hadvances, fun s' rest' hs' _ q hq => ?_⟩
    obtain ⟨rfl, rfl⟩ := List.cons.inj (hs.symm.trans hs')
    exact hknown q (Array.mem_toList_iff.2 hq)
  · rcases expand_cases g f entry p with heq | h'
    · rw [heq]
      exact ⟨.refl h, fun s rest hs hn => absurd ⟨s, rest, hs, hn⟩ hcase⟩
    · exact absurd h' hcase

/-- What was found and not drawn from is still to be worked on. -/
structure Pending (g : Flat) (f : First) (kernel : Items) (p : Predictions) : Prop where
  bounded : Bounded g p
  kernel : ∀ e ∈ kernel, e ∈ p.2 ∨ Drawn g f p.1 e
  found : ∀ (q : Nat) s, p.1[q]? = some (some s) → (⟨q, 0⟩, s) ∈ p.2 ∨ Drawn g f p.1 (⟨q, 0⟩, s)

theorem Pending.expand (hg : g.WellFormed) (hf : First.Exact g f) {found : Array (Option BitSet)}
    {entry : Item × BitSet} {work : Items} (h : Pending g f kernel (found, entry :: work)) :
    Pending g f kernel (Items.expand g f entry (found, work)) ∧
      Advances g (found, work) (Items.expand g f entry (found, work)) := by
  have hbounded : Bounded g (found, work) :=
    ⟨h.bounded.size, h.bounded.found, fun e he => h.bounded.work e (List.mem_cons_of_mem _ he)⟩
  obtain ⟨hadvances, hdrawn⟩ :=
    advances_expand hg hf hbounded (h.bounded.work entry List.mem_cons_self)
  have keep {e : Item × BitSet} (he : e ∈ entry :: work ∨ Drawn g f found e) :
      e ∈ (Items.expand g f entry (found, work)).2 ∨
      Drawn g f (Items.expand g f entry (found, work)).1 e := by
    rcases he with he | he
    · rcases List.mem_cons.1 he with rfl | he
      · exact .inr hdrawn
      · exact .inl (hadvances.work he)
    · exact .inr (he.mono hadvances.known)
  refine ⟨⟨hadvances.bounded, fun e he => keep (h.kernel e he), fun q s hq => ?_⟩, hadvances⟩
  rcases hadvances.fresh q s hq with hq | hq
  · exact keep (h.found q s hq)
  · exact .inl hq

/-- Enough steps leave nothing to be worked on. -/
theorem pending_expandAll (hg : g.WellFormed) (hf : First.Exact g f) {fuel : Nat} {p : Predictions}
    (h : Pending g f kernel p) (hfuel : p.2.length + unknown g p.1 < fuel) :
    Pending g f kernel (expandAll g f fuel p, []) ∧
      ∀ q ahead, Known p.1 q ahead → Known (expandAll g f fuel p) q ahead := by
  induction fuel generalizing p with
  | zero => omega
  | succ fuel ih =>
    obtain ⟨found, work⟩ := p
    cases work with
    | nil => exact ⟨h, fun _ _ hq => hq⟩
    | cons entry work =>
      obtain ⟨hpending, hadvances⟩ := h.expand hg hf
      have hleft := hadvances.left
      obtain ⟨hrest, hknown⟩ :=
        ih hpending (by simp only [List.length_cons] at hfuel hleft ⊢; omega)
      exact ⟨hrest, fun q ahead hq => hknown q ahead (hadvances.known q ahead hq)⟩

/-! ## Closures -/

private theorem seeds_of_mem (h : Proper g kernel) {q : Nat} {ahead : BitSet}
    (hmem : (⟨q, 0⟩, ahead) ∈ kernel) :
    (seeds g kernel)[q]? = some (some ahead) := by
  have hsize : q < g.productions.size := by
    obtain ⟨p, hp, -⟩ := h.places _ hmem
    exact (Array.getElem?_eq_some_iff.1 hp).1
  have key (es : Items) (hes : es ⊆ kernel.filter (·.1.dot == 0)) (found : Array (Option BitSet))
      (hfound : found.size = g.productions.size)
      (hq : found[q]? = some (some ahead) ∨ (⟨q, 0⟩, ahead) ∈ es) :
      (es.foldl (fun found e => found.setIfInBounds e.1.production (some e.2)) found)[q]? =
        some (some ahead) := by
    induction es generalizing found with
    | nil =>
      rcases hq with hq | hq
      · exact hq
      · contradiction
    | cons e rest ih =>
      refine ih (fun x hx => hes (List.mem_cons_of_mem _ hx)) _
        (by rw [Array.size_setIfInBounds, hfound]) ?_
      obtain ⟨he, hdot⟩ := List.mem_filter.1 (hes List.mem_cons_self)
      by_cases hprod : e.1.production = q
      · have hitem : e = (⟨q, 0⟩, e.2) := by
          rw [← hprod, ← (by simpa using hdot : e.1.dot = 0)]
        have hahead : e.2 = ahead := h.unique (hitem ▸ he) hmem
        left
        change (found.setIfInBounds e.1.production (some e.2))[q]? = _
        rw [hprod, hahead, Array.getElem?_setIfInBounds_self, if_pos (by rw [hfound]; exact hsize)]
      · have hother : (found.setIfInBounds e.1.production (some e.2))[q]? = found[q]? :=
          Array.getElem?_setIfInBounds_ne hprod
        rcases hq with hq | hq
        · exact .inl (hother.trans hq)
        · rcases List.mem_cons.1 hq with hq | hq
          · rw [← hq] at hprod
            exact absurd rfl hprod
          · exact .inr hq
  refine key _ (List.Subset.refl _) _ (by simp) (.inr ?_)
  exact List.mem_filter.2 ⟨hmem, rfl⟩

theorem size_seeds (g : Flat) (kernel : Items) : (seeds g kernel).size = g.productions.size := by
  have key (es : Items) (found : Array (Option BitSet)) :
      (es.foldl (fun found e => found.setIfInBounds e.1.production (some e.2)) found).size =
        found.size := by
    induction es generalizing found with
    | nil => rfl
    | cons e rest ih => rw [List.foldl_cons, ih, Array.size_setIfInBounds]
  rw [seeds, key, Array.size_replicate]

/-- What a closure adds to its kernel. -/
structure Completed (g : Flat) (f : First) (kernel items : Items) : Prop where
  proper : Proper g items
  kernel : ∀ i a, (i, a) ∈ kernel → ∃ a', (i, a') ∈ items ∧ a ⊆ a'
  predicted : ∀ i a s rest, (i, a) ∈ items → g.stepsFrom i.production i.dot = s :: rest →
    g.isTerminal s.symbol = false → ∀ q ∈ g.productionsOf s.symbol,
      ∃ a', ((⟨q, 0⟩ : Item), a') ∈ items ∧ behind f rest a ⊆ a'

private theorem sorted_ofPredictions (found : Array (Option BitSet)) :
    (ofPredictions found).Pairwise fun x y => x.1.Lt y.1 := by
  have hindices : found.toList.zipIdx.Pairwise fun a b => a.2 < b.2 := by
    rw [List.pairwise_iff_getElem]
    intro i j hi hj hij
    simpa using hij
  refine hindices.filterMap _ fun a b hab x hx y hy => ?_
  obtain ⟨s, -, rfl⟩ := Option.map_eq_some_iff.1 hx
  obtain ⟨s', -, rfl⟩ := Option.map_eq_some_iff.1 hy
  exact .inl hab

/-- Merging keeps the order, and the two parts have no item in common. -/
private theorem sorted_merge (h : kernel.Pairwise fun x y => x.1.Lt y.1)
    (found : Array (Option BitSet)) :
    (List.merge (kernel.filter fun e => !(e.1.dot == 0)) (ofPredictions found) fun a b =>
      a.1.le b.1).Pairwise
      fun x y => x.1.Lt y.1 := by
  have hleft : (kernel.filter fun e => !(e.1.dot == 0)).Pairwise fun x y => x.1.Lt y.1 := h.filter _
  have hright := sorted_ofPredictions found
  have htrans (a b c : Item × BitSet) (hab : a.1.le b.1 = true) (hbc : b.1.le c.1 = true) :
      a.1.le c.1 = true := by
    simp only [Item.le_iff] at hab hbc ⊢
    rcases hab with hab | hab
    · rwa [hab]
    · rcases hbc with hbc | hbc
      · rw [← hbc]
        exact .inr hab
      · exact .inr (hab.trans hbc)
  have htotal (a b : Item × BitSet) : (a.1.le b.1 || b.1.le a.1) = true := by
    simp only [Item.le, Bool.or_eq_true, Bool.and_eq_true, decide_eq_true_eq, beq_iff_eq]
    omega
  have hle := @List.pairwise_merge _ (fun a b : Item × BitSet => a.1.le b.1) htrans htotal _ _
    (hleft.imp fun h => Item.le_iff.2 (.inr h)) (hright.imp fun h => Item.le_iff.2 (.inr h))
  have hne : (List.merge (kernel.filter fun e => !(e.1.dot == 0)) (ofPredictions found) fun a b =>
      a.1.le b.1).Pairwise fun x y => x.1 ≠ y.1 := by
    rw [List.Perm.pairwise_iff (fun h => Ne.symm h) (List.merge_perm_append ..),
      List.pairwise_append]
    have hne {x y : Item × BitSet} (hlt : x.1.Lt y.1) : x.1 ≠ y.1 := by
      intro heq
      rw [heq] at hlt
      exact Item.Lt.irrefl _ hlt
    refine ⟨hleft.imp hne, hright.imp hne, fun x hx y hy heq => ?_⟩
    obtain ⟨q, ahead, -, rfl⟩ := mem_ofPredictions.1 hy
    have hdot := (List.mem_filter.1 hx).2
    rw [heq] at hdot
    contradiction
  refine (hle.and hne).imp fun h => ?_
  exact (Item.le_iff.1 h.1).resolve_left h.2

theorem completed_closure (hg : g.WellFormed) (hf : First.Exact g f) (h : Proper g kernel) :
    Completed g f kernel (closure g f kernel) := by
  have hbounded : Bounded g (seeds g kernel, kernel) :=
    ⟨size_seeds g kernel, fun q s hq => h.below _ (mem_of_seeds hq), h.below⟩
  have hpending : Pending g f kernel (seeds g kernel, kernel) :=
    ⟨hbounded, fun e he => .inl he, fun q s hq => .inl (mem_of_seeds hq)⟩
  have hfuel : kernel.length + unknown g (seeds g kernel) <
      kernel.length + g.productions.size * (g.terminalCount + 1) + 1 :=
    Nat.lt_succ_of_le (Nat.add_le_add_left (unknown_le g _) _)
  obtain ⟨hdone, hknown⟩ := pending_expandAll hg hf hpending hfuel
  rw [closure_eq]
  generalize expandAll g f (kernel.length + g.productions.size * (g.terminalCount + 1) + 1)
    (seeds g kernel, kernel) = found at hdone hknown
  have hmem {e : Item × BitSet} : e ∈
      List.merge (kernel.filter fun e => !(e.1.dot == 0)) (ofPredictions found)
      (fun a b => a.1.le b.1) ↔ (e ∈ kernel ∧ e.1.dot ≠ 0) ∨
        ∃ q ahead, found[q]? = some (some ahead) ∧ e = (⟨q, 0⟩, ahead) := by
    rw [List.mem_merge, List.mem_filter, mem_ofPredictions]
    simp
  have hdrawn : ∀ e, e ∈ List.merge (kernel.filter fun e => !(e.1.dot == 0)) (ofPredictions found)
      (fun a b => a.1.le b.1) → Drawn g f found e := by
    intro e he
    rcases hmem.1 he with ⟨he, -⟩ | ⟨q, ahead, hq, rfl⟩
    · exact (hdone.kernel e he).resolve_left (List.not_mem_nil)
    · exact (hdone.found q ahead hq).resolve_left (List.not_mem_nil)
  have hofKnown {q : Nat} {a : BitSet} (hq : Known found q a) :
      ∃ a', ((⟨q, 0⟩ : Item), a') ∈
        List.merge (kernel.filter fun e => !(e.1.dot == 0)) (ofPredictions found)
        (fun a b => a.1.le b.1) ∧ a ⊆ a' := by
    obtain ⟨s, hs, hsub⟩ := hq
    exact ⟨s, hmem.2 (.inr ⟨q, s, hs, rfl⟩), hsub⟩
  refine ⟨⟨?_, ?_, ?_⟩, ?_, ?_⟩
  · exact sorted_merge h.sorted found
  · intro e he
    rcases hmem.1 he with ⟨he, -⟩ | ⟨q, ahead, hq, rfl⟩
    · exact h.places e he
    · have hsize : q < g.productions.size := by
        rw [← hdone.bounded.size]
        exact (Array.getElem?_eq_some_iff.1 hq).1
      exact ⟨g.productions[q], Array.getElem?_eq_getElem hsize, Nat.zero_le _⟩
  · intro e he
    rcases hmem.1 he with ⟨he, -⟩ | ⟨q, ahead, hq, rfl⟩
    · exact h.below e he
    · exact hdone.bounded.found q ahead hq
  · intro i a hi
    by_cases hdot : i.dot = 0
    · have hitem : i = ⟨i.production, 0⟩ := by rw [← hdot]
      rw [hitem] at hi ⊢
      exact hofKnown (hknown _ _ ⟨a, seeds_of_mem h hi, BitSet.subset_refl _⟩)
    · exact ⟨a, hmem.2 (.inl ⟨hi, hdot⟩), BitSet.subset_refl _⟩
  · intro i a s rest hi hs hn q hq
    exact hofKnown (hdrawn _ hi s rest hs hn q hq)

end Items
end Reparse.Table

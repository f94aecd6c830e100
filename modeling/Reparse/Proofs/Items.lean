import Reparse.Table.Item

/-! # Where items come from -/
namespace Reparse.Table
open Data Grammar

/-! ## Groups -/

section
variable {α : Type} {pairs : List (Kind × α)} {k : Kind} {as : List α} {a : α}

theorem groupRuns_cons (pair : Kind × α) (rest : List (Kind × α)) : groupRuns (pair :: rest) =
    match groupRuns rest with
    | (k', as) :: groups => if pair.1 = k' then (pair.1, pair.2 :: as) :: groups
      else (pair.1, [pair.2]) :: (k', as) :: groups
    | [] => [(pair.1, [pair.2])] := by
  conv => lhs; unfold groupRuns
  rw [List.foldr_cons]
  change (match groupRuns rest with
    | (k', as) :: groups => if pair.1 = k' then (pair.1, pair.2 :: as) :: groups
      else (pair.1, [pair.2]) :: groupRuns rest
    | [] => [(pair.1, [pair.2])]) = _
  cases hg : groupRuns rest with
  | nil => rfl
  | cons group groups => rfl

/-- The runs are the pairs, cut where the key changes. -/
theorem flatMap_groupRuns (pairs : List (Kind × α)) :
    (groupRuns pairs).flatMap (fun group => group.2.map (group.1, ·)) = pairs := by
  induction pairs with
  | nil => rfl
  | cons pair rest ih =>
    rw [groupRuns_cons]
    cases hg : groupRuns rest with
    | nil =>
      rw [hg] at ih
      rw [← ih]
      rfl
    | cons group groups =>
      rw [hg] at ih
      simp only
      split
      · next heq =>
        rw [← ih, heq]
        simp [← heq]
      · rw [← ih]
        rfl

private theorem mem_of_mem_groupRuns (h : (k, as) ∈ groupRuns pairs) :
    ∀ a ∈ as, (k, a) ∈ pairs := by
  intro a ha
  rw [← flatMap_groupRuns pairs]
  exact List.mem_flatMap.2 ⟨(k, as), h, List.mem_map_of_mem ha⟩

private theorem exists_mem_groupRuns (h : (k, a) ∈ pairs) :
    ∃ as, (k, as) ∈ groupRuns pairs ∧ a ∈ as := by
  rw [← flatMap_groupRuns pairs] at h
  obtain ⟨⟨key, as⟩, hgroup, hmem⟩ := List.mem_flatMap.1 h
  obtain ⟨a', ha', heq⟩ := List.mem_map.1 hmem
  obtain ⟨rfl, rfl⟩ := Prod.mk.inj heq
  exact ⟨as, hgroup, ha'⟩

private theorem ne_nil_of_mem_groupRuns (h : (k, as) ∈ groupRuns pairs) : as ≠ [] := by
  induction pairs generalizing k as with
  | nil => contradiction
  | cons pair rest ih =>
    rw [groupRuns_cons] at h
    cases hg : groupRuns rest with
    | nil =>
      simp only [hg, List.mem_singleton, Prod.mk.injEq] at h
      rw [h.2]
      exact List.cons_ne_nil _ _
    | cons group groups =>
      simp only [hg] at h
      rw [hg] at ih
      split at h
      · rcases List.mem_cons.1 h with h | h
        · simp only [Prod.mk.injEq] at h
          rw [h.2]
          exact List.cons_ne_nil _ _
        · exact ih (List.mem_cons_of_mem _ h)
      · rcases List.mem_cons.1 h with h | h
        · simp only [Prod.mk.injEq] at h
          rw [h.2]
          exact List.cons_ne_nil _ _
        · exact ih h

private theorem pairwise_groupRuns (h : pairs.Pairwise fun x y => x.1.id ≤ y.1.id) :
    (groupRuns pairs).Pairwise fun x y => x.1.id < y.1.id := by
  induction pairs with
  | nil => exact .nil
  | cons pair rest ih =>
    obtain ⟨hhead, hrest⟩ := List.pairwise_cons.1 h
    have hsorted := ih hrest
    have hle : ∀ group ∈ groupRuns rest, pair.1.id ≤ group.1.id := by
      intro group hmem
      obtain ⟨a, ha⟩ := List.exists_mem_of_ne_nil _ (ne_nil_of_mem_groupRuns hmem)
      exact hhead _ (mem_of_mem_groupRuns hmem a ha)
    rw [groupRuns_cons]
    cases hg : groupRuns rest with
    | nil => exact List.pairwise_singleton _ _
    | cons group groups =>
      rw [hg] at hsorted hle
      obtain ⟨hgroup, hgroups⟩ := List.pairwise_cons.1 hsorted
      simp only
      split
      · next heq =>
        refine List.pairwise_cons.2 ⟨?_, hgroups⟩
        rw [heq]
        exact hgroup
      · next hne =>
        have hlt : pair.1.id < group.1.id := by
          refine Nat.lt_of_le_of_ne (hle group List.mem_cons_self) fun heq => hne ?_
          cases hp : pair.1
          cases hq : group.1
          rw [hp, hq] at heq
          exact congrArg Kind.mk heq
        refine List.pairwise_cons.2 ⟨?_, hsorted⟩
        intro other hother
        rcases List.mem_cons.1 hother with rfl | hother
        · exact hlt
        · exact Nat.lt_trans hlt (hgroup other hother)

theorem mem_of_mem_groupByKind (h : (k, as) ∈ groupByKind pairs) : ∀ a ∈ as, (k, a) ∈ pairs :=
  fun a ha => List.mem_mergeSort.1 (mem_of_mem_groupRuns h a ha)

theorem exists_mem_groupByKind (h : (k, a) ∈ pairs) : ∃ as, (k, as) ∈ groupByKind pairs ∧ a ∈ as :=
  exists_mem_groupRuns (List.mem_mergeSort.2 h)

private theorem byKind_trans (a b c : Kind × α) (h : decide (a.1.id ≤ b.1.id) = true)
    (h' : decide (b.1.id ≤ c.1.id) = true) :
    decide (a.1.id ≤ c.1.id) = true := by
  simp only [decide_eq_true_eq] at *
  omega

private theorem byKind_total (a b : Kind × α) :
    (decide (a.1.id ≤ b.1.id) || decide (b.1.id ≤ a.1.id)) = true := by
  simp only [Bool.or_eq_true, decide_eq_true_eq]
  omega

theorem pairwise_groupByKind (pairs : List (Kind × α)) :
    (groupByKind pairs).Pairwise fun x y => x.1.id < y.1.id := by
  apply pairwise_groupRuns
  have hsorted := List.pairwise_mergeSort byKind_trans byKind_total pairs
  simpa using hsorted

/-- Sorting by kinds keeps the order of values of one kind. -/
private theorem filter_mergeSort (k : Kind) (pairs : List (Kind × α)) :
    (pairs.mergeSort fun a b => decide (a.1.id ≤ b.1.id)).filter (·.1 = k) =
      pairs.filter (·.1 = k) := by
  have hsorted : (pairs.filter (·.1 = k)).Pairwise fun a b => decide (a.1.id ≤ b.1.id) = true := by
    rw [List.pairwise_iff_forall_sublist]
    intro a b hab
    have hkey {x : Kind × α} (hx : x ∈ [a, b]) : x.1 = k := by
      simpa using (List.mem_filter.1 (hab.subset hx)).2
    rw [hkey List.mem_cons_self, hkey (List.mem_cons_of_mem _ List.mem_cons_self)]
    simp
  have hsub :=
    (List.sublist_mergeSort byKind_trans byKind_total hsorted List.filter_sublist).filter (·.1 = k)
  rw [List.filter_filter] at hsub
  simp only [Bool.and_self] at hsub
  exact (hsub.eq_of_length ((List.mergeSort_perm pairs _).filter _).length_eq.symm).symm

/-- In groups with different keys, the values of a key are its group. -/
private theorem filter_flatMap_groups {groups : List (Kind × List α)}
    (hkeys : groups.Pairwise fun x y => x.1.id < y.1.id) (h : (k, as) ∈ groups) :
    (groups.flatMap fun group => group.2.map (group.1, ·)).filter (·.1 = k) = as.map (k, ·) := by
  induction groups with
  | nil => contradiction
  | cons group groups ih =>
    obtain ⟨hgroup, hgroups⟩ := List.pairwise_cons.1 hkeys
    rw [List.flatMap_cons, List.filter_append]
    rcases List.mem_cons.1 h with rfl | hmem
    · have hrest : (groups.flatMap fun group => group.2.map (group.1, ·)).filter (·.1 = k) =
          [] := by
        refine List.filter_eq_nil_iff.2 fun pair hpair => ?_
        obtain ⟨other, hother, hpair⟩ := List.mem_flatMap.1 hpair
        obtain ⟨a, -, rfl⟩ := List.mem_map.1 hpair
        have hlt := hgroup other hother
        rw [decide_eq_true_eq]
        rintro rfl
        exact Nat.lt_irrefl _ hlt
      rw [hrest, List.append_nil, List.filter_eq_self.2 (by simp)]
    · have hne : group.1 ≠ k :=
        fun heq => absurd (hgroup _ hmem) (by rw [heq]; exact Nat.lt_irrefl _)
      rw [ih hgroups hmem, List.filter_eq_nil_iff.2 (by simpa using fun _ _ => hne),
        List.nil_append]

/-- A group has the values of its key, in their order. -/
theorem filter_of_mem_groupByKind (h : (k, as) ∈ groupByKind pairs) :
    pairs.filter (·.1 = k) = as.map (k, ·) := by
  have hsorted := filter_flatMap_groups (pairwise_groupByKind pairs) h
  unfold groupByKind at hsorted
  rwa [flatMap_groupRuns, filter_mergeSort] at hsorted

theorem sublist_of_mem_groupByKind (h : (k, as) ∈ groupByKind pairs) :
    (as.map (k, ·)).Sublist pairs := by
  rw [← filter_of_mem_groupByKind h]
  exact List.filter_sublist

theorem ne_nil_of_mem_groupByKind (h : (k, as) ∈ groupByKind pairs) : as ≠ [] :=
  ne_nil_of_mem_groupRuns h
end

namespace Items

variable {g : Flat} {f : First} {items kernel : Items} {i : Item} {ahead : BitSet}

/-! ## Successors -/

theorem of_mem_successors {k : Kind} {next : Items} (h : (k, next) ∈ successors g items) :
    ∀ entry ∈ next, ∃ i s rest, (i, entry.2) ∈ items ∧
      g.stepsFrom i.production i.dot = s :: rest ∧ s.symbol = k ∧
      entry.1 = i.advance := by
  intro entry hentry
  have hpair := mem_of_mem_groupByKind h entry hentry
  obtain ⟨⟨i, ahead⟩, hmem, hsome⟩ := List.mem_filterMap.1 hpair
  obtain ⟨s, hs, heq⟩ := Option.map_eq_some_iff.1 hsome
  simp only [Prod.mk.injEq] at heq
  obtain ⟨rest, hrest⟩ := List.head?_eq_some_iff.1 hs
  exact ⟨i, s, rest, by rw [← heq.2]; exact hmem, hrest, heq.1, by rw [← heq.2]⟩

theorem exists_mem_successors (h : (i, ahead) ∈ items) {s : Step} {rest : List Step}
    (hs : g.stepsFrom i.production i.dot = s :: rest) :
    ∃ next, (s.symbol, next) ∈ successors g items ∧ (i.advance, ahead) ∈ next := by
  apply exists_mem_groupByKind
  exact List.mem_filterMap.2 ⟨(i, ahead), h, by simp [hs]⟩

theorem pairwise_successors (g : Flat) (items : Items) :
    (successors g items).Pairwise fun x y => x.1.id < y.1.id := pairwise_groupByKind _

theorem ne_nil_of_mem_successors {k : Kind} {next : Items} (h : (k, next) ∈ successors g items) :
    next ≠ [] :=
  ne_nil_of_mem_groupByKind h

/-! ## Closure -/

/-- A place in a rule that is reached from some kernel items without reading anything. -/
inductive Closed (g : Flat) (kernel : List Item) : Item → Prop
  | kernel {i : Item} (h : i ∈ kernel) : Closed g kernel i
  | predict {i : Item} {s : Step} {rest : List Step} {q : Nat} (source : Closed g kernel i)
      (hs : g.stepsFrom i.production i.dot = s :: rest)
      (nonterminal : g.isTerminal s.symbol = false) (hq : q ∈ g.productionsOf s.symbol) :
      Closed g kernel ⟨q, 0⟩

/-- A production that is predicted somewhere in the closure. -/
def Predicted (g : Flat) (kernel : List Item) (q : Nat) : Prop :=
  ∃ i s rest, Closed g kernel i ∧ g.stepsFrom i.production i.dot = s :: rest ∧
    g.isTerminal s.symbol = false ∧ q ∈ g.productionsOf s.symbol

private theorem Predicted.closed {q : Nat} {cores : List Item} (h : Predicted g cores q) :
    Closed g cores ⟨q, 0⟩ := by
  obtain ⟨i, s, rest, hi, hs, hn, hq⟩ := h
  exact hi.predict hs hn hq

/-- Predictions so far have a reason. -/
structure Justified (g : Flat) (kernel : Items) (p : Predictions) : Prop where
  found : ∀ (q : Nat) ahead, p.1[q]? = some (some ahead) → ((⟨q, 0⟩, ahead) ∈ kernel) ∨
    Predicted g (cores kernel) q
  work : ∀ entry ∈ p.2, Closed g (cores kernel) entry.1

private theorem Justified.predict {p : Predictions} (h : Justified g kernel p) {q : Nat}
    (hq : Predicted g (cores kernel) q) (ahead : BitSet) :
    Justified g kernel (predict ahead p q) := by
  have found (s : BitSet) : ∀ (q' : Nat) ahead,
      (p.1.setIfInBounds q (some s))[q']? = some (some ahead) → ((⟨q', 0⟩, ahead) ∈ kernel) ∨
      Predicted g (cores kernel) q' := by
    intro q' ahead' hget
    by_cases hqq : q = q'
    · exact .inr (hqq ▸ hq)
    · rw [Array.getElem?_setIfInBounds_ne hqq] at hget
      exact h.found q' ahead' hget
  have work (s : BitSet) : ∀ entry ∈ (⟨q, 0⟩, s) :: p.2, Closed g (cores kernel) entry.1 := by
    intro entry hentry
    rcases List.mem_cons.1 hentry with rfl | hentry
    · exact hq.closed
    · exact h.work entry hentry
  unfold Items.predict
  split
  · exact ⟨found _, work _⟩
  · simp only
    split
    · exact h
    · exact ⟨found _, work _⟩

/-- What follows a symbol with the given steps behind it, in an item with the given lookahead. -/
def behind (f : First) (rest : List Step) (ahead : BitSet) : BitSet :=
  if (f.ofSteps rest).2 then (f.ofSteps rest).1.union ahead else (f.ofSteps rest).1

theorem expand_nonterminal {entry : Item × BitSet} {s : Step} {rest : List Step}
    (hs : g.stepsFrom entry.1.production entry.1.dot = s :: rest)
    (hn : g.isTerminal s.symbol = false) (p : Predictions) :
    expand g f entry p = (g.productionsOf s.symbol).toList.foldl
      (Items.predict (behind f rest entry.2)) p := by
  unfold expand
  rw [hs]
  simp only [hn, Bool.false_eq_true, if_false, Array.foldl_toList]
  rfl

/-- An item that is complete or stands before a terminal predicts nothing. -/
theorem expand_cases (g : Flat) (f : First) (entry : Item × BitSet) (p : Predictions) :
    expand g f entry p = p ∨
    ∃ s rest, g.stepsFrom entry.1.production entry.1.dot = s :: rest ∧
      g.isTerminal s.symbol = false := by
  unfold expand
  split
  · exact .inl rfl
  · next s rest hs =>
    split
    · exact .inl rfl
    · next hn => exact .inr ⟨s, rest, hs, by simpa using hn⟩

private theorem Justified.expand {p : Predictions} (h : Justified g kernel p)
    {entry : Item × BitSet} (hentry : Closed g (cores kernel) entry.1) :
    Justified g kernel (expand g f entry p) := by
  rcases expand_cases g f entry p with heq | ⟨s, rest, hs, hn⟩
  · rwa [heq]
  · rw [expand_nonterminal hs hn]
    have key (qs : List Nat) (hqs : ∀ q ∈ qs, q ∈ g.productionsOf s.symbol) (p : Predictions)
        (hp : Justified g kernel p) :
        Justified g kernel (qs.foldl (Items.predict (behind f rest entry.2)) p) := by
      induction qs generalizing p with
      | nil => exact hp
      | cons q qs ih =>
        have hq : Predicted g (cores kernel) q :=
          ⟨entry.1, s, rest, hentry, hs, hn, hqs q List.mem_cons_self⟩
        exact ih (fun q hq => hqs q (List.mem_cons_of_mem _ hq)) _ (hp.predict hq _)
    exact key _ (fun q hq => by simpa using hq) p h

private theorem justified_expandAll {fuel : Nat} {p : Predictions} (h : Justified g kernel p)
    (q : Nat) {ahead : BitSet} (hq : (expandAll g f fuel p)[q]? = some (some ahead)) :
    ((⟨q, 0⟩, ahead) ∈ kernel) ∨ Predicted g (cores kernel) q := by
  induction fuel generalizing p with
  | zero => exact h.found q ahead hq
  | succ fuel ih =>
    obtain ⟨found, work⟩ := p
    cases work with
    | nil => exact h.found q ahead hq
    | cons entry work =>
      refine ih (Justified.expand ?_ (h.work entry List.mem_cons_self)) hq
      exact ⟨h.found, fun e he => h.work e (List.mem_cons_of_mem _ he)⟩

/-- The predictions with which a closure starts. -/
def seeds (g : Flat) (kernel : Items) : Array (Option BitSet) :=
  (kernel.filter (·.1.dot == 0)).foldl
    (fun found e => found.setIfInBounds e.1.production (some e.2))
    (Array.replicate g.productions.size none)

theorem closure_eq (g : Flat) (f : First) (kernel : Items) : closure g f kernel =
    List.merge (kernel.filter fun e => !(e.1.dot == 0)) (ofPredictions (expandAll g f
      (kernel.length + g.productions.size * (g.terminalCount + 1) + 1) (seeds g kernel, kernel)))
      fun a b => a.1.le b.1 := by
  rw [closure, List.partition_eq_filter_filter]
  rfl

theorem mem_of_seeds {q : Nat} {ahead : BitSet} (h : (seeds g kernel)[q]? = some (some ahead)) :
    ((⟨q, 0⟩, ahead) ∈ kernel) := by
  have key (es : Items) (found : Array (Option BitSet)) (hes : ∀ e ∈ es, e ∈ kernel ∧ e.1.dot = 0)
      (hfound : ∀ (q : Nat) ahead, found[q]? = some (some ahead) → ((⟨q, 0⟩, ahead) ∈ kernel))
      (h : (es.foldl (fun found e => found.setIfInBounds e.1.production (some e.2)) found)[q]? =
        some (some ahead)) : ((⟨q, 0⟩, ahead) ∈ kernel) := by
    induction es generalizing found with
    | nil => exact hfound q ahead h
    | cons e rest ih =>
      obtain ⟨hmem, hdot⟩ := hes e List.mem_cons_self
      refine ih _ (fun e he => hes e (List.mem_cons_of_mem _ he)) ?_ h
      intro q' ahead' hget
      by_cases hq : e.1.production = q'
      · rw [← hq, Array.getElem?_setIfInBounds_self] at hget
        split at hget
        · simp only [Option.some.injEq] at hget
          have hitem : e.1 = ⟨q', 0⟩ := by rw [← hq, ← hdot]
          rw [← hitem, ← hget]
          exact hmem
        · contradiction
      · rw [Array.getElem?_setIfInBounds_ne hq] at hget
        exact hfound q' ahead' hget
  refine key _ _ (fun e he => ?_) (fun q ahead hget => ?_) h
  · obtain ⟨hmem, hdot⟩ := List.mem_filter.1 he
    exact ⟨hmem, by simpa using hdot⟩
  · simp [Array.getElem?_replicate] at hget

theorem mem_ofPredictions {found : Array (Option BitSet)} {entry : Item × BitSet} :
    entry ∈ ofPredictions found ↔ ∃ q ahead, found[q]? = some (some ahead) ∧
      entry = (⟨q, 0⟩, ahead) := by
  simp only [ofPredictions, List.mem_filterMap, Prod.exists, List.mk_mem_zipIdx_iff_getElem?,
    Option.map_eq_some_iff, Array.getElem?_toList]
  constructor
  · rintro ⟨o, q, hget, ahead, rfl, rfl⟩
    exact ⟨q, ahead, hget, rfl⟩
  · rintro ⟨q, ahead, hget, rfl⟩
    exact ⟨_, q, hget, ahead, rfl, rfl⟩

/-- The closure has kernel items and predicted ones. -/
theorem of_mem_closure {entry : Item × BitSet} (h : entry ∈ closure g f kernel) :
    entry ∈ kernel ∨ entry.1.dot = 0 ∧ Predicted g (cores kernel) entry.1.production := by
  rw [closure_eq, List.mem_merge] at h
  rcases h with h | h
  · exact .inl (List.mem_filter.1 h).1
  · obtain ⟨q, ahead, hget, rfl⟩ := mem_ofPredictions.1 h
    have hjustified : Justified g kernel (seeds g kernel, kernel) :=
      ⟨fun q ahead hget => .inl (mem_of_seeds hget), fun e he => .kernel (List.mem_map_of_mem he)⟩
    rcases justified_expandAll hjustified q hget with hmem | hq
    · exact .inl hmem
    · exact .inr ⟨rfl, hq⟩

theorem closed_of_mem_closure {entry : Item × BitSet} (h : entry ∈ closure g f kernel) :
    Closed g (cores kernel) entry.1 := by
  rcases of_mem_closure h with h | ⟨hdot, hq⟩
  · exact .kernel (List.mem_map_of_mem h)
  · have heq : entry.1 = ⟨entry.1.production, 0⟩ := by rw [← hdot]
    rw [heq]
    exact hq.closed

end Items
end Reparse.Table

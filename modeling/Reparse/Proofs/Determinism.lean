import Reparse.Proofs.Exploration
import Reparse.Proofs.Rows

/-! # Tables without conflicting candidates have every action that items ask for -/
namespace Reparse.Table
open Data Grammar Items

/-- No cell has two candidates. -/
def SingleCandidates (g : Flat) (mode : Mode) : Prop :=
  ∀ (id : Nat) st, (automaton g (First.compute g) mode)[id]? = some st →
    ∀ cell ∈ cells g (First.compute g) st, (cell.shift.isSome = true → cell.reduces = []) ∧
    ∀ q ∈ cell.reduces, ∀ q' ∈ cell.reduces, q = q'

/-- Whether a cell has one candidate at most. -/
def Cell.single (cell : Cell) : Bool :=
  (cell.shift.isNone || cell.reduces.isEmpty) && cell.reduces.all fun q => cell.reduces.all (q == ·)

variable {g : Flat} {mode : Mode} {t : Table} {id : Nat} {st : State}

private theorem Cell.single_iff {cell : Cell} : cell.single = true ↔
    (cell.shift.isSome = true → cell.reduces = []) ∧
      ∀ q ∈ cell.reduces, ∀ q' ∈ cell.reduces, q = q' := by
  unfold single
  cases cell.shift <;> simp

/-- Whether a grammar has no two candidates for a cell can be computed. -/
theorem singleCandidates_iff : SingleCandidates g mode ↔
    ((automaton g (First.compute g) mode).all fun st =>
      (cells g (First.compute g) st).all Cell.single) = true := by
  rw [Array.all_eq_true_iff_forall_mem]
  simp only [List.all_eq_true, Cell.single_iff, Array.mem_iff_getElem?, forall_exists_index]
  exact ⟨fun h st id hst => h id st hst, fun h id st hst => h st id hst⟩

/-- Over states that are known, the candidates are those of their cells. -/
theorem singleCandidates_of_states {f : First} {states : Array State} (hfirst : First.compute g = f)
    (hstates : automaton g f mode = states)
    (hsingle : (states.all fun st => (cells g f st).all Cell.single) = true) :
    SingleCandidates g mode := by
  subst hfirst hstates
  exact singleCandidates_iff.2 hsingle

theorem sorted_transitions (hg : g.WellFormed)
    (hst : (automaton g (First.compute g) mode)[id]? = some st) :
    SortedBy Kind.id st.transitions := by
  have hsettled := settled_automaton hg mode hst
  have hsorted := Items.pairwise_successors g (Items.closure g (First.compute g) st.kernel)
  have hkeys : st.transitions.toList.map (·.1) =
      (Items.successors g (Items.closure g (First.compute g) st.kernel)).map (·.1) := by
    generalize Items.successors g (Items.closure g (First.compute g) st.kernel) = succ at hsettled
    generalize st.transitions.toList = row at hsettled
    induction hsettled with
    | nil => rfl
    | cons hs _ ih => rw [List.map_cons, List.map_cons, hs.1, ih]
  have hpairwise : (st.transitions.toList.map (·.1)).Pairwise fun a b => a.id < b.id := by
    rw [hkeys]
    exact List.pairwise_map.2 hsorted
  unfold SortedBy
  rwa [List.pairwise_map] at hpairwise

/-- A state has a transition for the symbol after the dot of an item, to a state with the item
advanced. -/
theorem exists_transition (hg : g.WellFormed)
    (hst : (automaton g (First.compute g) mode)[id]? = some st) {i : Item} {ahead : BitSet}
    (hi : (i, ahead) ∈ Items.closure g (First.compute g) st.kernel) {s : Step} {rest : List Step}
    (hs : g.stepsFrom i.production i.dot = s :: rest) :
    ∃ target st' ahead', (s.symbol, target) ∈ st.transitions ∧
      (automaton g (First.compute g) mode)[target]? = some st' ∧
        (i.advance, ahead') ∈ st'.kernel ∧ ahead ⊆ ahead' := by
  obtain ⟨next, hnext, hadvance⟩ := exists_mem_successors hi hs
  obtain ⟨n, hn⟩ := List.getElem?_of_mem hnext
  have hsettled := settled_automaton hg mode hst
  obtain ⟨hn', hget⟩ := List.getElem?_eq_some_iff.1 hn
  have hlength := hsettled.length_eq
  have hpair := List.forall₂_iff_get.1 hsettled
  obtain ⟨hkey, st', hst', hwithin⟩ := hpair.2 n hn' (hlength ▸ hn')
  simp only [List.get_eq_getElem, hget] at hkey hwithin
  obtain ⟨ahead', hmem, hsub⟩ := hwithin.exists_mem hadvance
  refine ⟨_, st', ahead', ?_, hst', hmem, hsub⟩
  rw [← hkey]
  exact Array.mem_toList_iff.1 (List.getElem_mem (hlength ▸ hn'))

/-- A candidate has a cell. -/
theorem exists_cell {f : First} {k : Kind} {candidate : Candidate}
    (h : (k, candidate) ∈ (Items.closure g f st.kernel).flatMap (Candidate.ofEntry g)) :
    ∃ candidates, candidate ∈ candidates ∧ cellOf st k candidates ∈ cells g f st := by
  obtain ⟨candidates, hgroup, hmem⟩ := exists_mem_groupByKind h
  refine ⟨candidates, hmem, ?_⟩
  rw [cells_eq]
  exact List.mem_map_of_mem (f := fun p => cellOf st p.1 p.2) hgroup

/-- Where no conflict is reported, every cell is resolved. -/
theorem resolve_ok {cells : List Cell} (h : (resolveRow g id cells).2 = #[]) : ∀ cell ∈ cells,
    ∃ action, Conflict.resolve g id cell = .ok action := by
  intro cell hcell
  rw [resolveRow_eq, ← Array.toList_inj] at h
  cases hresolve : Conflict.resolve g id cell with
  | ok action => exact ⟨action, rfl⟩
  | error conflict =>
    have hnone := List.filterMap_eq_nil_iff.1 h cell hcell
    rw [conflict?_eq_some_iff.2 hresolve] at hnone
    contradiction

variable (hb : Built g mode t)
include hb

theorem Built.goto_of_transition (hg : g.WellFormed)
    (hst : (automaton g (First.compute g) mode)[id]? = some st) {x : Kind} {target : Nat}
    (hedge : (x, target) ∈ st.transitions) (hx : g.isTerminal x = false) :
    t.goto? id x = some target := by
  unfold Table.goto? Table.gotoRow
  rw [hb.gotos, hst, Option.map_some, Option.getD_some]
  apply lookupSorted_kind
  · unfold SortedBy
    rw [Array.toList_filter]
    exact (sorted_transitions hg hst).filter _
  · exact Array.mem_filter.2 ⟨hedge, by simp [hx]⟩

/-- The choice of a cell is the action of the table. -/
theorem Built.action_of_cell (hst : (automaton g (First.compute g) mode)[id]? = some st)
    {cell : Cell} (hcell : cell ∈ cells g (First.compute g) st) {action : Action}
    (hresolve : Conflict.resolve g id cell = .ok (some action)) :
    t.action? id cell.lookahead = some action := by
  unfold Table.action? Table.row
  rw [hb.actions, hst, Option.map_some, Option.getD_some]
  refine lookupSorted_kind (sorted_resolveRow g _ id st) ?_
  rw [← Array.mem_toList_iff, resolveRow_toList]
  exact List.mem_filterMap.2 ⟨cell, hcell, entryOf_eq_some_iff.2 ⟨rfl, hresolve⟩⟩

/-- An item before a terminal shifts it. -/
theorem Built.shift_of_item (hg : g.WellFormed) (hsingle : SingleCandidates g mode)
    (hst : (automaton g (First.compute g) mode)[id]? = some st) {i : Item} {ahead : BitSet}
    (hi : (i, ahead) ∈ Items.closure g (First.compute g) st.kernel) {s : Step} {rest : List Step}
    (hs : g.stepsFrom i.production i.dot = s :: rest) (hterminal : g.isTerminal s.symbol = true)
    {target : Nat} (hedge : (s.symbol, target) ∈ st.transitions) :
    t.action? id s.symbol = some (.shift target) := by
  have hcandidate : (s.symbol, Candidate.shift i) ∈
      (Items.closure g (First.compute g) st.kernel).flatMap (Candidate.ofEntry g) := by
    refine List.mem_flatMap.2 ⟨(i, ahead), hi, ?_⟩
    simp [Candidate.ofEntry, hs, hterminal]
  obtain ⟨candidates, hmem, hcell⟩ := exists_cell hcandidate
  have hitem : i ∈ candidates.filterMap Candidate.item? := List.mem_filterMap.2 ⟨_, hmem, rfl⟩
  have hshift : (cellOf st s.symbol candidates).shift =
      some (target, candidates.filterMap Candidate.item?) := by
    unfold cellOf
    simp only [List.isEmpty_eq_false_iff.2 (List.ne_nil_of_mem hitem), Bool.false_eq_true, if_false,
      lookupSorted_kind (sorted_transitions hg hst) hedge, Option.map_some]
  have hnone := (hsingle id st hst _ hcell).1 (by rw [hshift]; rfl)
  refine hb.action_of_cell hst hcell ?_
  unfold Conflict.resolve
  rw [hnone, hshift]
  rfl

/-- A completed item is reduced before its lookaheads. -/
theorem Built.reduce_of_item (hsingle : SingleCandidates g mode)
    (hst : (automaton g (First.compute g) mode)[id]? = some st) {i : Item} {ahead : BitSet}
    (hi : (i, ahead) ∈ Items.closure g (First.compute g) st.kernel)
    (hs : g.stepsFrom i.production i.dot = []) {x : Kind} (hx : x.id ∈ ahead) :
    t.action? id x = some (Conflict.reduceAction i.production) := by
  have hcandidate : (x, Candidate.reduce i.production) ∈
      (Items.closure g (First.compute g) st.kernel).flatMap (Candidate.ofEntry g) := by
    refine List.mem_flatMap.2 ⟨(i, ahead), hi, ?_⟩
    simp only [Candidate.ofEntry, hs]
    exact List.mem_map.2 ⟨x.id, BitSet.mem_toList.2 hx, rfl⟩
  obtain ⟨candidates, hmem, hcell⟩ := exists_cell hcandidate
  have hlookahead : (cellOf st x candidates).lookahead = x := rfl
  have hreduce : i.production ∈ (cellOf st x candidates).reduces :=
    List.mem_filterMap.2 ⟨_, hmem, rfl⟩
  generalize cellOf st x candidates = cell at hcell hlookahead hreduce
  obtain ⟨hshift, hsame⟩ := hsingle id st hst cell hcell
  have hnone : cell.shift = none := by
    cases hcase : cell.shift with
    | none => rfl
    | some s =>
      rw [hshift (by rw [hcase]; rfl)] at hreduce
      contradiction
  obtain ⟨action, hresolve⟩ := resolve_ok (hb.settled id st hst) cell hcell
  cases action with
  | none =>
    unfold Conflict.resolve at hresolve
    split at hresolve
    · next hempty =>
      rw [hempty] at hreduce
      contradiction
    · split at hresolve
      · contradiction
      · rw [hnone] at hresolve
        simp at hresolve
  | some action =>
    rw [← hlookahead]
    refine hb.action_of_cell hst hcell ?_
    rw [hresolve]
    rcases resolve_cases hresolve with ⟨target, items, hs, -⟩ | ⟨q, hq, heq⟩
    · rw [hnone] at hs
      contradiction
    · rw [heq, hsame _ hreduce _ hq]

end Reparse.Table

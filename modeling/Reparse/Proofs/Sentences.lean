import Reparse.Proofs.Reductions
import Reparse.Proofs.Tracking

/-! # What stacks without errors derive -/
namespace Reparse
open Grammar Parse Reparse.Tree

/-- A sentential form goes on after these symbols. -/
def Grammar.Flat.Continues (g : Flat) (ks : List Kind) : Prop :=
  ∃ rest, Derives g [g.start] (ks ++ rest)

namespace Parse

variable {k : Compilation} {s : Stack} {xs : List Kind}

/-- Symbols on a stack without errors derive its leaves. -/
theorem Grounded.derives (h : Grounded k s xs) (htidy : ∀ t ∈ s.trees, Tidy k t)
    (hclean : ∀ t ∈ s.trees, t.hasError = false) :
    Derives k.flat xs.reverse (kindsOf k.language (forestFrontier s.trees)) := by
  induction h with
  | @bottom e state nothing =>
    have htrees : (Stack.mk e []).trees = e.trees := by simp [Stack.trees, Stack.entries]
    rw [htrees] at hclean ⊢
    have hnil := kindsOf_proper (l := k.language) e.elements.toList
    rw [nothing fun t ht _ => hclean t ht] at hnil
    change Derives k.flat [] (kindsOf k.language (forestFrontier (e.elements.toList.map (·.2))))
    rw [← hnil]
    exact .refl
  | @push s xs e x st below source edge reads ih =>
    rw [Stack.trees_push] at htidy hclean ⊢
    have hbelow := ih (fun t ht => htidy t (List.mem_append_left _ ht)) fun t ht =>
      hclean t (List.mem_append_left _ ht)
    have hspliced := reads fun t ht _ => hclean t (List.mem_append_right _ ht)
    have hmem {c : Element} (hc : c ∈ proper k.language e.elements.toList) : c.2 ∈ e.trees :=
      List.mem_map_of_mem (f := (·.2)) (List.mem_filter.1 hc).1
    have htop := derives_of_spliced hspliced
      (fun c hc => by simpa [proper] using (List.mem_filter.1 hc).2) fun c hc hnode =>
      ((htidy c.2 (List.mem_append_right _ (hmem hc))).derived
        (hclean c.2 (List.mem_append_right _ (hmem hc)))).derives hnode
    rw [kindsOf_proper] at htop
    rw [List.reverse_cons, forestFrontier_append, kindsOf_append]
    exact hbelow.append htop

/-- The state on top has items. -/
theorem Grounded.exists_item (h : Grounded k s xs) :
    ∃ st i, k.states[s.top.state]? = some st ∧ i ∈ st.kernel.cores := by
  obtain ⟨st, hst⟩ := h.state
  cases h with
  | @bottom e state nothing =>
    have hzero : k.states[0]? = some st := by
      rw [← hst]
      exact congrArg (k.states[·]?) state.symm
    exact ⟨st, ⟨0, 0⟩, hst, by rw [Compilation.cores_start hzero]; exact List.mem_cons_self⟩
  | @push s ys e x st₀ below source edge reads =>
    obtain ⟨st', hst', before, after, -, hmem, hafter⟩ := k.sound_states.edges _ st₀ source _ edge
    obtain ⟨entry, hentry⟩ :=
      List.exists_mem_of_ne_nil _ (Table.Items.ne_nil_of_mem_successors hmem)
    refine ⟨st', entry.1, hst', ?_⟩
    rw [← hafter]
    exact List.mem_map_of_mem (f := (·.1)) hentry

/-- What is on a stack without errors begins a sentential form. -/
theorem Grounded.continues (h : Grounded k s xs) (htidy : ∀ t ∈ s.trees, Tidy k t)
    (hclean : ∀ t ∈ s.trees, t.hasError = false) :
    k.flat.Continues (kindsOf k.language (forestFrontier s.trees)) := by
  obtain ⟨st, i, hst, hi⟩ := h.exists_item
  obtain ⟨around, htracks⟩ := h.tracks hst (.kernel hi)
  exact ⟨_, htracks.derives.trans ((h.derives htidy hclean).append .refl)⟩

/-- What is on an accepted stack without errors is a sentence. -/
theorem Grounded.sentence (h : Grounded k s xs) (htidy : ∀ t ∈ s.trees, Tidy k t)
    (hclean : ∀ t ∈ s.trees, t.hasError = false) {x : Kind}
    (haction : k.table.action? s.top.state x = some .accept) :
    Derives k.flat [k.flat.start] (kindsOf k.language (forestFrontier s.trees)) := by
  obtain ⟨st, hst, ⟨q, d⟩, ahead, hmem, rfl, hcomplete, -⟩ := k.tableBuilt.of_accept haction
  obtain ⟨around, htracks⟩ := h.tracks hst (Table.Items.closed_of_mem_closure hmem)
  have hsentential := htracks.derives
  rw [hcomplete, htracks.around_zero, List.map_nil, List.append_nil, List.append_nil] at hsentential
  exact hsentential.trans (h.derives htidy hclean)

/-- A reduction of the table can be made. -/
theorem Grounded.reduction_applies (h : Grounded k s xs) {q : Nat} {x : Kind}
    (haction : k.table.action? s.top.state x = some (.reduce q)) :
    ∃ (p : Production) (state next : Nat),
      k.flat.productions[q]? = some p ∧ s.uncovered? p.steps.length = some state ∧
        k.table.goto? state p.lhs = some next := by
  obtain ⟨hq, st, hst, ⟨q', d⟩, ahead, hmem, rfl, hcomplete, -⟩ := k.tableBuilt.of_reduce haction
  obtain ⟨around, htracks⟩ := h.tracks hst (Table.Items.closed_of_mem_closure hmem)
  obtain ⟨hle, ys, hbelow⟩ := htracks.uncover
  obtain ⟨i, step, rest, around', hsource, hstep, hnonterminal, hpredicted, -⟩ := hbelow.source hq
  obtain ⟨p, hp, hlhs⟩ := (k.wellFormed.index step.symbol q').1 hpredicted
  obtain ⟨st', ahead', hst', hmem', -⟩ := hsource.mem_closure
  obtain ⟨next, -, -, hedge, -⟩ := Table.exists_transition k.wellFormed hst' hmem' hstep
  have hd : d = p.steps.length := by
    have hplace := htracks.place
    rw [Flat.stepsFrom_eq_drop, Flat.stepsFrom_zero hp, List.drop_eq_nil_iff] at hcomplete
    simp only [Flat.stepsFrom_zero hp] at hplace
    exact Nat.le_antisymm hplace hcomplete
  have hstate : s.uncovered? d = some (s.uncovered d).top.state := by
    obtain ⟨state, hstate⟩ := Stack.exists_uncovered? hle
    rw [Stack.top_uncovered hstate, hstate]
  refine ⟨p, _, next, hp, hd ▸ hstate, ?_⟩
  rw [hlhs, ← hd]
  exact k.tableBuilt.goto_of_transition k.wellFormed hst' hedge hnonterminal

end Parse
end Reparse

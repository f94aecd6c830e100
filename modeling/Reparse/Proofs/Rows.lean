import Reparse.Proofs.Automaton
import Reparse.Proofs.Search
import Reparse.Proofs.Sets
import Reparse.Table.Build

/-! # Where the entries of a table come from -/
namespace Reparse
open Data Grammar

namespace Table

/-- Some item of the set is complete and may be reduced before `k`. -/
def Completes (g : Flat) (items : Items) (q : Nat) (k : Kind) : Prop :=
  ∃ i ahead, (i, ahead) ∈ items ∧ i.production = q ∧
    g.stepsFrom i.production i.dot = [] ∧ k.id ∈ ahead

variable {g : Flat} {f : First} {id : Nat} {st : State} {k : Kind} {cell : Cell}

/-! ## Cells -/

private theorem completes_of_candidate {entry : Item × BitSet} {q : Nat}
    (h : (k, .reduce q) ∈ Candidate.ofEntry g entry) :
    entry.1.production = q ∧ g.stepsFrom entry.1.production entry.1.dot = [] ∧ k.id ∈ entry.2 := by
  unfold Candidate.ofEntry at h
  split at h
  · next hsteps =>
    obtain ⟨t, ht, heq⟩ := List.mem_map.1 h
    simp only [Prod.mk.injEq, Candidate.reduce.injEq] at heq
    obtain ⟨rfl, rfl⟩ := heq
    exact ⟨rfl, hsteps, BitSet.mem_toList.1 ht⟩
  · split at h
    · simp at h
    · contradiction

/-- The cell of a lookahead. -/
def cellOf (st : State) (lookahead : Kind) (candidates : List Candidate) : Cell where
  lookahead
  shift := if (candidates.filterMap Candidate.item?).isEmpty then none
    else (lookupSorted st.transitions lookahead).map (·, candidates.filterMap Candidate.item?)
  reduces := candidates.filterMap Candidate.production?

theorem cells_eq (g : Flat) (f : First) (st : State) : cells g f st =
    (groupByKind ((Items.closure g f st.kernel).flatMap (Candidate.ofEntry g))).map fun p =>
      cellOf st p.1 p.2 := rfl

/-- The reductions of a cell are complete items of the closure. -/
theorem completes_of_mem_cells (hcell : cell ∈ cells g f st) {q : Nat} (hq : q ∈ cell.reduces) :
    Completes g (Items.closure g f st.kernel) q cell.lookahead := by
  rw [cells_eq] at hcell
  obtain ⟨⟨lookahead, candidates⟩, hgroup, rfl⟩ := List.mem_map.1 hcell
  obtain ⟨candidate, hmem, hsome⟩ := List.mem_filterMap.1 hq
  obtain ⟨entry, hentry, hpair⟩ := List.mem_flatMap.1 (mem_of_mem_groupByKind hgroup candidate hmem)
  cases candidate with
  | shift item => contradiction
  | reduce production =>
    obtain rfl := Option.some.inj hsome
    obtain ⟨hq, hsteps, hk⟩ := completes_of_candidate hpair
    exact ⟨entry.1, entry.2, hentry, hq, hsteps, hk⟩

private theorem terminal_of_candidate {entry : Item × BitSet} {item : Item}
    (h : (k, .shift item) ∈ Candidate.ofEntry g entry) :
    g.isTerminal k = true := by
  unfold Candidate.ofEntry at h
  split at h
  · simp at h
  · split at h
    · next hterminal =>
      simp only [List.mem_singleton, Prod.mk.injEq] at h
      rwa [h.1]
    · contradiction

/-- The shift of a cell is a transition of the state for a terminal. -/
theorem transition_of_mem_cells (hcell : cell ∈ cells g f st) {target : Nat} {items : List Item}
    (hs : cell.shift = some (target, items)) :
    (cell.lookahead, target) ∈ st.transitions ∧ g.isTerminal cell.lookahead = true := by
  rw [cells_eq] at hcell
  obtain ⟨⟨lookahead, candidates⟩, hgroup, rfl⟩ := List.mem_map.1 hcell
  simp only [cellOf] at hs
  split at hs
  · contradiction
  · next hempty =>
    obtain ⟨next, hnext, heq⟩ := Option.map_eq_some_iff.1 hs
    simp only [Prod.mk.injEq] at heq
    rw [← heq.1]
    refine ⟨mem_of_lookupSorted_kind hnext, ?_⟩
    obtain ⟨item, hitem⟩ := List.exists_mem_of_ne_nil _ (mt List.isEmpty_iff.2 hempty)
    obtain ⟨candidate, hmem, hsome⟩ := List.mem_filterMap.1 hitem
    obtain ⟨entry, -, hpair⟩ := List.mem_flatMap.1 (mem_of_mem_groupByKind hgroup candidate hmem)
    cases candidate with
    | shift item => exact terminal_of_candidate hpair
    | reduce production => contradiction

/-! ## Choices -/

private theorem preferReduce_cases {a b c : Nat} (h : Conflict.preferReduce g a b = some c) :
    c = a ∨ c = b := by
  unfold Conflict.preferReduce at h
  simp only at h
  split at h
  · exact .inl (Option.some.inj h).symm
  · exact .inr (Option.some.inj h).symm
  · split at h
    · have := Option.some.inj h
      omega
    · contradiction

private theorem mem_of_foldlM_preferReduce {rest : List Nat} {first winner : Nat}
    (h : rest.foldlM (Conflict.preferReduce g) first = some winner) : winner ∈ first :: rest := by
  induction rest generalizing first with
  | nil =>
    rw [← Option.some.inj h]
    exact List.mem_cons_self
  | cons q rest ih =>
    rw [List.foldlM_cons] at h
    obtain ⟨next, hnext, h⟩ := Option.bind_eq_some_iff.1 h
    rcases List.mem_cons.1 (ih h) with rfl | hmem
    · rcases preferReduce_cases hnext with rfl | rfl
      · exact List.mem_cons_self
      · exact List.mem_cons_of_mem _ List.mem_cons_self
    · exact List.mem_cons_of_mem _ (List.mem_cons_of_mem _ hmem)

/-- The action of a cell is one of its candidates. -/
theorem resolve_cases {action : Action} (h : Conflict.resolve g id cell = .ok (some action)) :
    (∃ target items, cell.shift = some (target, items) ∧ action = .shift target) ∨
      ∃ q ∈ cell.reduces, action = Conflict.reduceAction q := by
  unfold Conflict.resolve at h
  split at h
  · obtain ⟨⟨target, items⟩, hs, heq⟩ := Option.map_eq_some_iff.1 (Except.ok.inj h)
    exact .inl ⟨target, items, hs, heq.symm⟩
  · next first rest hreduces =>
    split at h
    · contradiction
    · next winner hwinner =>
      have hmem : winner ∈ cell.reduces := by
        rw [hreduces]
        exact mem_of_foldlM_preferReduce hwinner
      split at h
      · exact .inr ⟨winner, hmem, (Option.some.inj (Except.ok.inj h)).symm⟩
      · next target items hs =>
        split at h
        · exact .inl ⟨target, items, hs, (Option.some.inj (Except.ok.inj h)).symm⟩
        · exact .inr ⟨winner, hmem, (Option.some.inj (Except.ok.inj h)).symm⟩
        · contradiction

/-! ## Rows -/

/-- What a cell adds to its row. -/
def entryOf (g : Flat) (id : Nat) (cell : Cell) : Option (Kind × Action) :=
  match Conflict.resolve g id cell with
  | .ok action => action.map (cell.lookahead, ·)
  | .error _ => none

/-- One step of the fold that makes a row. -/
def addCell (g : Flat) (id : Nat) (r : Array (Kind × Action) × Array Grammar.Conflict)
    (cell : Cell) :
    Array (Kind × Action) × Array Grammar.Conflict :=
  match Conflict.resolve g id cell with
  | .ok (some action) => (r.1.push (cell.lookahead, action), r.2)
  | .ok none => r
  | .error conflict => (r.1, r.2.push conflict)

/-- The report on a cell that nothing settles. -/
def conflict? (g : Flat) (id : Nat) (cell : Cell) : Option Grammar.Conflict :=
  match Conflict.resolve g id cell with
  | .ok _ => none
  | .error conflict => some conflict

theorem resolveRow_eq (g : Flat) (id : Nat) (cells : List Cell) : resolveRow g id cells =
    ((cells.filterMap (entryOf g id)).toArray, (cells.filterMap (conflict? g id)).toArray) := by
  have key (cells : List Cell) (r : Array (Kind × Action) × Array Grammar.Conflict) :
      cells.foldl (addCell g id) r =
        (r.1 ++ (cells.filterMap (entryOf g id)).toArray,
        r.2 ++ (cells.filterMap (conflict? g id)).toArray) := by
    induction cells generalizing r with
    | nil => simp
    | cons cell rest ih =>
      rw [List.foldl_cons, ih, List.filterMap_cons, List.filterMap_cons, entryOf,
        conflict?, addCell]
      cases Conflict.resolve g id cell with
      | error conflict => simp
      | ok action =>
        cases action with
        | none => rfl
        | some action => simp
  have hfold : resolveRow g id cells = cells.foldl (addCell g id) (#[], #[]) := by
    unfold resolveRow addCell
    congr 1
  rw [hfold, key]
  simp

theorem resolveRow_toList (g : Flat) (id : Nat) (cells : List Cell) :
    (resolveRow g id cells).1.toList = cells.filterMap (entryOf g id) := by rw [resolveRow_eq]

theorem entryOf_eq_some_iff {entry : Kind × Action} : entryOf g id cell = some entry ↔
    entry.1 = cell.lookahead ∧ Conflict.resolve g id cell = .ok (some entry.2) := by
  obtain ⟨k, action⟩ := entry
  unfold entryOf
  cases Conflict.resolve g id cell with
  | error conflict => simp
  | ok action' => cases action' <;> simp [eq_comm]

theorem conflict?_eq_some_iff {conflict : Grammar.Conflict} :
    conflict? g id cell = some conflict ↔ Conflict.resolve g id cell = .error conflict := by
  unfold conflict?
  cases Conflict.resolve g id cell <;> simp

/-- A row has at most one entry for each lookahead, in order. -/
theorem sorted_resolveRow (g : Flat) (f : First) (id : Nat) (st : State) :
    SortedBy Kind.id (resolveRow g id (cells g f st)).1 := by
  unfold SortedBy
  rw [resolveRow_toList]
  have hcells : (cells g f st).Pairwise fun a b => a.lookahead.id < b.lookahead.id := by
    rw [cells, List.pairwise_map]
    exact pairwise_groupByKind _
  refine hcells.filterMap _ fun a b hab x hx y hy => ?_
  rw [(entryOf_eq_some_iff.1 hx).1, (entryOf_eq_some_iff.1 hy).1]
  exact hab

/-! ## Tables -/

/-- How a table was made. -/
structure Built (g : Flat) (mode : Mode) (t : Table) : Prop where
  actions : ∀ id : Nat, t.actions[id]? =
    (automaton g (First.compute g) mode)[id]?.map fun st =>
    (resolveRow g id (cells g (First.compute g) st)).1
  settled : ∀ (id : Nat) st, (automaton g (First.compute g) mode)[id]? = some st →
    (resolveRow g id (cells g (First.compute g) st)).2 = #[]
  gotos : ∀ id : Nat, t.gotos[id]? =
    (automaton g (First.compute g) mode)[id]?.map fun st =>
    st.transitions.filter fun e => !g.isTerminal e.1
  productions : ∀ q : Nat, t.productions[q]? =
    g.productions[q]?.map fun p => ⟨p.lhs, (p.steps.map (·.field)).toArray, p.dynamic⟩

theorem foldl_rows {α β γ : Type} (row : α → Nat → Array β × Array γ) (xs : List α) (start : Nat)
    (acc : Array (Array β) × Array γ) :
    (xs.zipIdx start).foldl (fun (rows, all) (x, i) =>
        let (r, found) := row x i
        (rows.push r, all ++ found)) acc =
      (acc.1 ++ ((xs.zipIdx start).map fun x => (row x.1 x.2).1).toArray,
        acc.2 ++ ((xs.zipIdx start).flatMap fun x => (row x.1 x.2).2.toList).toArray) := by
  induction xs generalizing start acc with
  | nil => simp
  | cons x rest ih =>
    rw [List.zipIdx_cons, List.foldl_cons, ih]
    simp only [List.map_cons, List.flatMap_cons, Prod.mk.injEq]
    constructor
    · apply Array.toList_inj.1
      simp
    · apply Array.toList_inj.1
      simp

theorem built_of_build {mode : Mode} {t : Table} (h : build g mode = .ok t) : Built g mode t := by
  unfold build at h
  simp only at h
  rw [← Array.foldl_toList, Array.toList_zipIdx,
    foldl_rows fun st id => resolveRow g id (cells g (First.compute g) st)] at h
  simp only at h
  split at h
  · next hempty =>
    obtain rfl := Except.ok.inj h
    have hconflicts : ((automaton g (First.compute g) mode).toList.zipIdx.flatMap fun x =>
        (resolveRow g x.2 (cells g (First.compute g) x.1)).2.toList) = [] := by
      simpa using hempty
    constructor
    · intro id
      simp [Function.comp_def]
    · intro id st hst
      rw [List.flatMap_eq_nil_iff] at hconflicts
      have hmem : (st, id) ∈ (automaton g (First.compute g) mode).toList.zipIdx :=
        List.mk_mem_zipIdx_iff_getElem?.2 (by simpa using hst)
      simpa using hconflicts _ hmem
    · intro id
      simp
    · intro q
      simp
  · contradiction

variable {mode : Mode} {t : Table} (h : Built g mode t)
include h

/-- The states of an automaton with what the construction knows about them. -/
theorem Built.state_of_action? {action : Action} (ha : t.action? id k = some action) :
    ∃ st, (automaton g (First.compute g) mode)[id]? = some st ∧
      ∃ cell ∈ cells g (First.compute g) st,
      cell.lookahead = k ∧ Conflict.resolve g id cell = .ok (some action) := by
  have hmem := mem_of_lookupSorted_kind ha
  rw [Table.row, h.actions id] at hmem
  cases hst : (automaton g (First.compute g) mode)[id]? with
  | none => simp [hst] at hmem
  | some st =>
    refine ⟨st, rfl, ?_⟩
    rw [hst, Option.map_some, Option.getD_some, ← Array.mem_toList_iff, resolveRow_toList] at hmem
    obtain ⟨cell, hcell, hentry⟩ := List.mem_filterMap.1 hmem
    obtain ⟨hk, hresolve⟩ := entryOf_eq_some_iff.1 hentry
    exact ⟨cell, hcell, hk.symm, hresolve⟩

/-- A shift follows a transition. -/
theorem Built.of_shift {target : Nat} (ha : t.action? id k = some (.shift target)) :
    ∃ st, (automaton g (First.compute g) mode)[id]? = some st ∧ (k, target) ∈ st.transitions ∧
      g.isTerminal k = true := by
  obtain ⟨st, hst, cell, hcell, rfl, hresolve⟩ := h.state_of_action? ha
  refine ⟨st, hst, ?_⟩
  rcases resolve_cases hresolve with ⟨target', items, hs, heq⟩ | ⟨q, -, heq⟩
  · obtain rfl := Action.shift.inj heq
    exact transition_of_mem_cells hcell hs
  · unfold Conflict.reduceAction at heq
    split at heq <;> contradiction

/-- A reduction completes an item that is not accepted. -/
theorem Built.of_reduce {q : Nat} (ha : t.action? id k = some (.reduce q)) : q ≠ 0 ∧
    ∃ st, (automaton g (First.compute g) mode)[id]? = some st ∧
      Completes g (Items.closure g (First.compute g) st.kernel) q k := by
  obtain ⟨st, hst, cell, hcell, rfl, hresolve⟩ := h.state_of_action? ha
  rcases resolve_cases hresolve with ⟨target', items, -, heq⟩ | ⟨p, hp, heq⟩
  · contradiction
  · unfold Conflict.reduceAction at heq
    split at heq
    · contradiction
    · next hne =>
      obtain rfl := Action.reduce.inj heq
      exact ⟨hne, st, hst, completes_of_mem_cells hcell hp⟩

/-- Acceptance completes production 0. -/
theorem Built.of_accept (ha : t.action? id k = some .accept) :
    ∃ st, (automaton g (First.compute g) mode)[id]? = some st ∧
      Completes g (Items.closure g (First.compute g) st.kernel) 0 k := by
  obtain ⟨st, hst, cell, hcell, rfl, hresolve⟩ := h.state_of_action? ha
  rcases resolve_cases hresolve with ⟨target', items, -, heq⟩ | ⟨p, hp, heq⟩
  · contradiction
  · unfold Conflict.reduceAction at heq
    split at heq
    · next hzero =>
      subst hzero
      exact ⟨st, hst, completes_of_mem_cells hcell hp⟩
    · contradiction

/-- A goto follows a transition. -/
theorem Built.of_goto {next : Nat} (hgoto : t.goto? id k = some next) :
    ∃ st, (automaton g (First.compute g) mode)[id]? = some st ∧ (k, next) ∈ st.transitions ∧
      g.isTerminal k = false := by
  have hmem := mem_of_lookupSorted_kind hgoto
  rw [Table.gotoRow, h.gotos id] at hmem
  cases hst : (automaton g (First.compute g) mode)[id]? with
  | none => simp [hst] at hmem
  | some st =>
    rw [hst, Option.map_some, Option.getD_some, Array.mem_filter] at hmem
    exact ⟨st, rfl, hmem.1, by simpa using hmem.2⟩

/-- What a reduction knows is what the grammar says. -/
theorem Built.of_productions {q : Nat} {info : ProductionInfo}
    (hinfo : t.productions[q]? = some info) :
    ∃ p, g.productions[q]? = some p ∧ info.lhs = p.lhs ∧
      info.fields.toList = p.steps.map (·.field) := by
  rw [h.productions] at hinfo
  obtain ⟨p, hp, rfl⟩ := Option.map_eq_some_iff.1 hinfo
  exact ⟨p, hp, rfl, by simp⟩

end Table
end Reparse

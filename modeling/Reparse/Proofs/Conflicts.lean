import Reparse.Proofs.Determinism
import Reparse.Proofs.Dominance
import Reparse.Proofs.Parsing

/-! # Every cell is settled or reported -/
namespace Reparse.Table
open Data Grammar

/-- The states of the automaton by their numbers. -/
abbrev StateAt (g : Flat) (mode : Mode) (id : Nat) (st : State) : Prop :=
  (automaton g (First.compute g) mode)[id]? = some st

variable {g : Flat} {f : First} {mode : Mode} {t : Table} {id : Nat} {st : State} {k : Kind}
  {c : Candidate} {cell : Cell}

/-! ## What cells are asked for -/

/-- What the items of a state ask for before a terminal. -/
inductive Asks (g : Flat) (f : First) (st : State) (k : Kind) : Candidate → Prop
  /-- An item stands before the terminal. -/
  | shift {i : Item} {ahead : BitSet} {s : Step} {rest : List Step}
      (mem : (i, ahead) ∈ Items.closure g f st.kernel)
      (before : g.stepsFrom i.production i.dot = s :: rest) (symbol : s.symbol = k)
      (terminal : g.isTerminal k = true) : Asks g f st k (.shift i)
  /-- An item is complete, and the terminal may follow it. -/
  | reduce {i : Item} {ahead : BitSet} (mem : (i, ahead) ∈ Items.closure g f st.kernel)
      (complete : g.stepsFrom i.production i.dot = []) (follows : k.id ∈ ahead) :
      Asks g f st k (.reduce i.production)

/-- The same as a list, in order of items. -/
def asked (g : Flat) (f : First) (st : State) (k : Kind) : List Candidate :=
  (((Items.closure g f st.kernel).flatMap (Candidate.ofEntry g)).filter (·.1 = k)).map (·.2)

/-- The cell of a state and a terminal, whether or not it is asked for anything. -/
def cellAt (g : Flat) (f : First) (st : State) (k : Kind) : Cell := cellOf st k (asked g f st k)

private theorem mem_ofEntry_iff {entry : Item × BitSet} : (k, c) ∈ Candidate.ofEntry g entry ↔
    (∃ s rest, g.stepsFrom entry.1.production entry.1.dot = s :: rest ∧ s.symbol = k ∧
      g.isTerminal k = true ∧
        c = .shift entry.1) ∨
      g.stepsFrom entry.1.production entry.1.dot = [] ∧ k.id ∈ entry.2 ∧
        c = .reduce entry.1.production := by
  unfold Candidate.ofEntry
  cases hsteps : g.stepsFrom entry.1.production entry.1.dot with
  | nil =>
    simp only [List.mem_map, Prod.mk.injEq, BitSet.mem_toList]
    constructor
    · rintro ⟨i, hi, rfl, rfl⟩
      exact .inr ⟨trivial, hi, rfl⟩
    · rintro (⟨s, rest, hcons, -⟩ | ⟨-, hk, rfl⟩)
      · contradiction
      · exact ⟨k.id, hk, rfl, rfl⟩
  | cons s rest =>
    simp only [List.cons.injEq, reduceCtorEq, false_and, or_false]
    split
    · next hterminal =>
      simp only [List.mem_singleton, Prod.mk.injEq]
      constructor
      · rintro ⟨rfl, rfl⟩
        exact ⟨s, rest, ⟨rfl, rfl⟩, rfl, hterminal, rfl⟩
      · rintro ⟨s', rest', ⟨rfl, rfl⟩, rfl, -, rfl⟩
        exact ⟨rfl, rfl⟩
    · next hterminal =>
      simp only [List.not_mem_nil, false_iff]
      rintro ⟨s', rest', ⟨rfl, rfl⟩, rfl, hk, -⟩
      exact hterminal hk

theorem mem_asked_iff : c ∈ asked g f st k ↔ Asks g f st k c := by
  have hmem : c ∈ asked g f st k ↔
      (k, c) ∈ (Items.closure g f st.kernel).flatMap (Candidate.ofEntry g) := by
    simp [asked]
  rw [hmem, List.mem_flatMap]
  constructor
  · rintro ⟨⟨i, ahead⟩, hentry, hc⟩
    rcases mem_ofEntry_iff.1 hc with ⟨s, rest, hsteps, hsymbol, hterminal, rfl⟩ | ⟨hsteps, hk, rfl⟩
    · exact .shift hentry hsteps hsymbol hterminal
    · exact .reduce hentry hsteps hk
  · rintro (⟨hentry, hsteps, hsymbol, hterminal⟩ | ⟨hentry, hsteps, hk⟩)
    · exact ⟨_, hentry, mem_ofEntry_iff.2 (.inl ⟨_, _, hsteps, hsymbol, hterminal, rfl⟩)⟩
    · exact ⟨_, hentry, mem_ofEntry_iff.2 (.inr ⟨hsteps, hk, rfl⟩)⟩

theorem mem_reduces_cellAt {q : Nat} :
    q ∈ (cellAt g f st k).reduces ↔ Asks g f st k (.reduce q) := by
  rw [← mem_asked_iff, cellAt, cellOf, List.mem_filterMap]
  constructor
  · rintro ⟨c, hc, hq⟩
    cases c with
    | shift i => contradiction
    | reduce p => rwa [← Option.some.inj hq]
  · exact fun h => ⟨_, h, rfl⟩

theorem mem_items_asked {i : Item} :
    i ∈ (asked g f st k).filterMap Candidate.item? ↔ Asks g f st k (.shift i) := by
  rw [← mem_asked_iff, List.mem_filterMap]
  constructor
  · rintro ⟨c, hc, hi⟩
    cases c with
    | shift j => rwa [← Option.some.inj hi]
    | reduce p => contradiction
  · exact fun h => ⟨_, h, rfl⟩

private theorem eq_asked {candidates : List Candidate}
    (h : (k, candidates) ∈
      groupByKind ((Items.closure g f st.kernel).flatMap (Candidate.ofEntry g))) :
    candidates = asked g f st k := by
  unfold asked
  rw [filter_of_mem_groupByKind h, List.map_map]
  simp

/-- The cells of a state are those that are asked for something. -/
theorem mem_cells_iff : cell ∈ cells g f st ↔
    (∃ c, Asks g f st cell.lookahead c) ∧ cell = cellAt g f st cell.lookahead := by
  rw [cells_eq, List.mem_map]
  constructor
  · rintro ⟨⟨lookahead, candidates⟩, hgroup, rfl⟩
    obtain ⟨c, hc⟩ := List.exists_mem_of_ne_nil _ (ne_nil_of_mem_groupByKind hgroup)
    have hasked := eq_asked hgroup
    exact ⟨⟨c, mem_asked_iff.1 (hasked ▸ hc)⟩, by rw [hasked]; rfl⟩
  · rintro ⟨⟨c, hc⟩, heq⟩
    obtain ⟨⟨lookahead, c'⟩, hpair, -⟩ := List.mem_map.1 (mem_asked_iff.2 hc)
    obtain ⟨hpair, hk⟩ := List.mem_filter.1 hpair
    obtain ⟨candidates, hgroup, -⟩ := exists_mem_groupByKind hpair
    refine ⟨_, hgroup, ?_⟩
    obtain rfl : lookahead = cell.lookahead := of_decide_eq_true hk
    rw [heq, eq_asked hgroup]
    rfl

theorem cellAt_mem_cells (h : Asks g f st k c) : cellAt g f st k ∈ cells g f st :=
  mem_cells_iff.2 ⟨⟨c, h⟩, rfl⟩

/-- Candidates for the same cell stand in order of productions. -/
def Candidate.Lt (x y : Kind × Candidate) : Prop :=
  x.1 = y.1 → ∀ p q, x.2.production? = some p → y.2.production? = some q → p < q

private theorem pairwise_ofEntry (g : Flat) (entry : Item × BitSet) :
    (Candidate.ofEntry g entry).Pairwise Candidate.Lt := by
  unfold Candidate.ofEntry
  split
  · have hnodup : entry.2.toList.Nodup := List.nodup_range.filter _
    refine List.pairwise_map.2 (hnodup.imp fun hne hkey => ?_)
    exact absurd (congrArg Kind.id hkey) hne
  · split
    · exact List.pairwise_singleton _ _
    · exact .nil

private theorem production_of_mem_ofEntry {entry : Item × BitSet} {x : Kind × Candidate}
    (hx : x ∈ Candidate.ofEntry g entry) {q : Nat} (hq : x.2.production? = some q) :
    q = entry.1.production ∧ g.stepsFrom entry.1.production entry.1.dot = [] := by
  obtain ⟨k, c⟩ := x
  rcases mem_ofEntry_iff.1 hx with ⟨s, rest, -, -, -, rfl⟩ | ⟨hsteps, -, rfl⟩
  · contradiction
  · exact ⟨(Option.some.inj hq).symm, hsteps⟩

/-- The reductions of a cell are in order. -/
private theorem sorted_reduces (h : Items.Proper g (Items.closure g f st.kernel)) (k : Kind) :
    (cellAt g f st k).reduces.Pairwise (· < ·) := by
  have hpairs : ((Items.closure g f st.kernel).flatMap (Candidate.ofEntry g)).Pairwise
      Candidate.Lt := by
    refine List.pairwise_flatMap.2 ⟨fun e _ => pairwise_ofEntry g e, h.sorted.imp_of_mem ?_⟩
    intro e e' he he' hlt x hx y hy _ p q hp hq
    obtain ⟨rfl, hsteps⟩ := production_of_mem_ofEntry hx hp
    obtain ⟨rfl, hsteps'⟩ := production_of_mem_ofEntry hy hq
    rcases hlt with hlt | ⟨hsame, hlt⟩
    · exact hlt
    · -- a production is complete at one place only
      obtain ⟨p, hp, hle⟩ := h.places e' he'
      rw [hsame] at hsteps
      simp only [Flat.stepsFrom, hp, Option.map_some, Option.getD_some,
        List.drop_eq_nil_iff] at hsteps
      omega
  have hcell : (asked g f st k).Pairwise fun c c' => ∀ p q, c.production? = some p →
      c'.production? = some q → p < q := by
    refine List.pairwise_map.2
      ((hpairs.sublist List.filter_sublist).imp_of_mem fun {x y} hx hy hlt => ?_)
    have hx : x.1 = k := of_decide_eq_true (List.mem_filter.1 hx).2
    have hy : y.1 = k := of_decide_eq_true (List.mem_filter.1 hy).2
    exact hlt (hx.trans hy.symm)
  exact hcell.filterMap _ fun c c' hlt p hp q hq => hlt p q hp hq

/-! ## What settles a cell -/

/-- What a candidate does if it is chosen. -/
def Candidate.action? (st : State) (k : Kind) : Candidate → Option Action
  | .shift _ => (lookupSorted st.transitions k).map .shift
  | .reduce q => some (Conflict.reduceAction q)

/-- A reduction is chosen: it is the first of the strongest, none of the reductions clash, and it is
preferred to the shift. -/
structure Wins (g : Flat) (cell : Cell) (q : Nat) : Prop where
  leads : Conflict.Leads g cell.reduces q
  calm : ∀ a b, ¬ Conflict.Clash g cell.reduces a b
  preferred : ∀ target items, cell.shift = some (target, items) →
    Conflict.shiftOrReduce g items q = some .reduce

private theorem reduceAction_ne_shift (q target : Nat) :
    Conflict.reduceAction q ≠ .shift target := by
  unfold Conflict.reduceAction
  split <;> exact nofun

private theorem reduceAction_inj {p q : Nat}
    (h : Conflict.reduceAction p = Conflict.reduceAction q) : p = q := by
  unfold Conflict.reduceAction at h
  split at h <;> split at h
  · omega
  · contradiction
  · contradiction
  · exact Action.reduce.inj h

private theorem resolve_reduce_iff (hsorted : cell.reduces.Pairwise (· < ·)) {q : Nat} :
    Conflict.resolve g id cell = .ok (some (Conflict.reduceAction q)) ↔ Wins g cell q := by
  constructor
  · intro h
    by_cases hnil : cell.reduces = []
    · unfold Conflict.resolve at h
      rw [hnil] at h
      obtain ⟨s, -, heq⟩ := Option.map_eq_some_iff.1 (Except.ok.inj h)
      exact absurd heq.symm (reduceAction_ne_shift q s.1)
    · rcases Conflict.leads_or_clash (g := g) hsorted hnil with ⟨v, hleads, hcalm⟩ | ⟨a, b, hclash⟩
      · rw [Conflict.resolve_of_leads hsorted id hleads hcalm] at h
        cases hs : cell.shift with
        | none =>
          rw [hs] at h
          obtain rfl := reduceAction_inj (Option.some.inj (Except.ok.inj h))
          exact ⟨hleads, hcalm, by rw [hs]; nofun⟩
        | some s =>
          obtain ⟨target, items⟩ := s
          simp only [hs] at h
          split at h
          · exact absurd (Option.some.inj (Except.ok.inj h)).symm (reduceAction_ne_shift q target)
          · next hchoice =>
            obtain rfl := reduceAction_inj (Option.some.inj (Except.ok.inj h))
            refine ⟨hleads, hcalm, fun target' items' hs' => ?_⟩
            obtain ⟨rfl, rfl⟩ := Prod.mk.inj (Option.some.inj (hs.symm.trans hs'))
            exact hchoice
          · contradiction
      · rw [Conflict.resolve_of_clash hsorted id hclash] at h
        contradiction
  · intro h
    rw [Conflict.resolve_of_leads hsorted id h.leads h.calm]
    cases hs : cell.shift with
    | none => rfl
    | some s => simp only [h.preferred s.1 s.2 hs]

/-- A cell is settled unless its reductions clash, or nothing decides between the shift and the
reduction left over. -/
theorem resolve_ok_iff (hsorted : cell.reduces.Pairwise (· < ·)) :
    (∃ action, Conflict.resolve g id cell = .ok action) ↔
      (∀ a b, ¬ Conflict.Clash g cell.reduces a b) ∧
      ∀ q target items, Conflict.Leads g cell.reduces q → cell.shift = some (target, items) →
        Conflict.shiftOrReduce g items q ≠ none := by
  constructor
  · rintro ⟨action, h⟩
    have hcalm : ∀ a b, ¬ Conflict.Clash g cell.reduces a b := by
      intro a b hclash
      rw [Conflict.resolve_of_clash hsorted id hclash] at h
      contradiction
    refine ⟨hcalm, fun q target items hleads hs hundecided => ?_⟩
    rw [Conflict.resolve_of_leads hsorted id hleads hcalm] at h
    simp only [hs, hundecided] at h
    contradiction
  · rintro ⟨hcalm, hdecided⟩
    by_cases hnil : cell.reduces = []
    · unfold Conflict.resolve
      rw [hnil]
      exact ⟨_, rfl⟩
    · rcases Conflict.leads_or_clash (g := g) hsorted hnil with ⟨v, hleads, -⟩ | ⟨a, b, hclash⟩
      · rw [Conflict.resolve_of_leads hsorted id hleads hcalm]
        cases hs : cell.shift with
        | none => exact ⟨_, rfl⟩
        | some s =>
          cases hchoice : Conflict.shiftOrReduce g s.2 v with
          | none => exact absurd hchoice (hdecided v s.1 s.2 hleads hs)
          | some choice => cases choice <;> simp [hchoice]
      · exact absurd hclash (hcalm a b)

private theorem asks_of_shift {target : Nat} {items : List Item}
    (h : (cellAt g f st k).shift = some (target, items)) :
    lookupSorted st.transitions k = some target ∧ items ≠ [] ∧ ∀ i, i ∈ items ↔
      Asks g f st k (.shift i) := by
  simp only [cellAt, cellOf] at h
  split at h
  · contradiction
  · next hempty =>
    obtain ⟨target', hlookup, heq⟩ := Option.map_eq_some_iff.1 h
    obtain ⟨rfl, rfl⟩ := Prod.mk.inj heq
    exact ⟨hlookup, mt List.isEmpty_iff.2 hempty, fun i => mem_items_asked⟩

/-- The action of a cell is that of one of its candidates. -/
theorem asks_of_resolve {action : Action}
    (h : Conflict.resolve g id (cellAt g f st k) = .ok (some action)) :
    ∃ c, Asks g f st k c ∧ c.action? st k = some action := by
  rcases resolve_cases h with ⟨target, items, hs, rfl⟩ | ⟨q, hq, rfl⟩
  · obtain ⟨hlookup, hitems, hasks⟩ := asks_of_shift hs
    obtain ⟨i, hi⟩ := List.exists_mem_of_ne_nil _ hitems
    exact ⟨.shift i, (hasks i).1 hi, by rw [Candidate.action?, hlookup]; rfl⟩
  · exact ⟨.reduce q, mem_reduces_cellAt.1 hq, rfl⟩

private theorem of_resolve_eq_none (h : Conflict.resolve g id cell = .ok none) :
    cell.shift = none ∧ cell.reduces = [] := by
  unfold Conflict.resolve at h
  split at h
  · next hnil => exact ⟨Option.map_eq_none_iff.1 (Except.ok.inj h), hnil⟩
  · split at h
    · contradiction
    · split at h
      · simp at h
      · split at h <;> simp at h

theorem resolve_of_not_asked (h : ∀ c, ¬ Asks g f st k c) :
    Conflict.resolve g id (cellAt g f st k) = .ok none := by
  have hasked : asked g f st k = [] := List.eq_nil_iff_forall_not_mem.2 fun c hc =>
    h c (mem_asked_iff.1 hc)
  unfold cellAt cellOf
  rw [hasked]
  rfl

section
variable (hg : g.WellFormed) (hst : StateAt g mode id st)
include hg hst

/-- An item before a terminal has a state to shift to. -/
theorem shift_of_asks {i : Item} (h : Asks g (First.compute g) st k (.shift i)) :
    ∃ target items, (cellAt g (First.compute g) st k).shift = some (target, items) := by
  obtain ⟨target, hlookup⟩ : ∃ target, lookupSorted st.transitions k = some target := by
    obtain ⟨hmem, hsteps, rfl, -⟩ := h
    obtain ⟨target, -, -, hedge, -⟩ := exists_transition hg hst hmem hsteps
    exact ⟨target, lookupSorted_kind (sorted_transitions hg hst) hedge⟩
  have hitem : i ∈ (asked g (First.compute g) st k).filterMap Candidate.item? := mem_items_asked.2 h
  refine ⟨target, (asked g (First.compute g) st k).filterMap Candidate.item?, ?_⟩
  unfold cellAt cellOf
  simp only [List.isEmpty_eq_false_iff.2 (List.ne_nil_of_mem hitem), Bool.false_eq_true,
    if_false, hlookup, Option.map_some]

private theorem resolve_none_iff :
    Conflict.resolve g id (cellAt g (First.compute g) st k) = .ok none ↔
      ∀ c, ¬ Asks g (First.compute g) st k c := by
  refine ⟨fun h c hc => ?_, resolve_of_not_asked⟩
  obtain ⟨hshift, hreduces⟩ := of_resolve_eq_none h
  cases c with
  | shift i =>
    obtain ⟨target, items, hsome⟩ := shift_of_asks hg hst hc
    rw [hshift] at hsome
    contradiction
  | reduce q =>
    have hq := mem_reduces_cellAt.2 hc
    rw [hreduces] at hq
    contradiction

theorem sorted_cellAt (k : Kind) : (cellAt g (First.compute g) st k).reduces.Pairwise (· < ·) :=
  have hf := First.exact_compute hg
  sorted_reduces (Items.completed_closure hg hf ((kernel_automaton mode hst).proper hg hf)).proper k

end

/-! ## Tables -/

section
variable (hb : Built g mode t)
include hb

private theorem Built.mem_row_iff {action : Action} : (k, action) ∈ t.row id ↔
    ∃ st, StateAt g mode id st ∧
      Conflict.resolve g id (cellAt g (First.compute g) st k) = .ok (some action) := by
  rw [Table.row, hb.actions id]
  constructor
  · intro hmem
    cases hst : (automaton g (First.compute g) mode)[id]? with
    | none => simp [hst] at hmem
    | some st =>
      refine ⟨st, hst, ?_⟩
      rw [hst, Option.map_some, Option.getD_some, ← Array.mem_toList_iff, resolveRow_toList] at hmem
      obtain ⟨cell, hcell, hentry⟩ := List.mem_filterMap.1 hmem
      obtain ⟨rfl, hresolve⟩ := entryOf_eq_some_iff.1 hentry
      rwa [← (mem_cells_iff.1 hcell).2]
  · rintro ⟨st, hst, hresolve⟩
    obtain ⟨c, hc, -⟩ := asks_of_resolve hresolve
    rw [hst, Option.map_some, Option.getD_some, ← Array.mem_toList_iff, resolveRow_toList]
    exact List.mem_filterMap.2 ⟨_, cellAt_mem_cells hc, entryOf_eq_some_iff.2 ⟨rfl, hresolve⟩⟩

private theorem Built.sorted_row (id : Nat) : SortedBy Kind.id (t.row id) := by
  rw [Table.row, hb.actions id]
  cases (automaton g (First.compute g) mode)[id]? with
  | none => exact .nil
  | some st => exact sorted_resolveRow g _ id st

private theorem Built.action?_eq_some_iff {action : Action} :
    t.action? id k = some action ↔ (k, action) ∈ t.row id :=
  ⟨mem_of_lookupSorted_kind, lookupSorted_kind (hb.sorted_row id)⟩

end

/-- A table says of each cell what settles it, and nothing else. -/
structure Settles (g : Flat) (mode : Mode) (t : Table) : Prop where
  /-- There is a row for each state. -/
  size : t.actions.size = (automaton g (First.compute g) mode).size
  /-- A cell that is asked for something has one action, which is that of a candidate. -/
  held : ∀ id st, StateAt g mode id st → ∀ k, (∃ c, Asks g (First.compute g) st k c) → ∃ action,
    (t.row id).filter (·.1 = k) = #[(k, action)] ∧ t.action? id k = some action ∧
      ∃ c, Asks g (First.compute g) st k c ∧ c.action? st k = some action
  /-- A cell that is asked for nothing is not there. -/
  absent : ∀ id st, StateAt g mode id st → ∀ k, (∀ c, ¬ Asks g (First.compute g) st k c) →
    ∀ action, (k, action) ∉ t.row id
  /-- Production 0 is accepted where it is chosen. -/
  accept : ∀ id k, t.action? id k = some .accept ↔
    ∃ st, StateAt g mode id st ∧ Wins g (cellAt g (First.compute g) st k) 0
  /-- Nothing is accepted before the end of the input. -/
  atEnd : ∀ id k, t.action? id k = some .accept → k = .eof

private theorem settles_of_build (hg : g.WellFormed) (h : build g mode = .ok t) :
    Settles g mode t := by
  have hb := built_of_build h
  constructor
  case size =>
    have hrows : t.actions = (automaton g (First.compute g) mode).mapIdx fun id st =>
        (resolveRow g id (cells g (First.compute g) st)).1 := Array.ext_getElem? fun id => by
      rw [hb.actions id, Array.getElem?_mapIdx]
    rw [hrows, Array.size_mapIdx]
  case held =>
    rintro id st hst k ⟨c, hc⟩
    obtain ⟨action, hresolve⟩ := resolve_ok (hb.settled id st hst) _ (cellAt_mem_cells hc)
    cases action with
    | none => exact absurd hc ((resolve_none_iff hg hst).1 hresolve c)
    | some action =>
      have hmem := hb.mem_row_iff.2 ⟨st, hst, hresolve⟩
      exact ⟨action, filter_eq_singleton (hb.sorted_row id) hmem, hb.action?_eq_some_iff.2 hmem,
        asks_of_resolve hresolve⟩
  case absent =>
    intro id st hst k hnone action hmem
    obtain ⟨st', hst', hresolve⟩ := hb.mem_row_iff.1 hmem
    obtain rfl := Option.some.inj (hst.symm.trans hst')
    rw [resolve_of_not_asked hnone] at hresolve
    exact absurd (Except.ok.inj hresolve) nofun
  case accept =>
    intro id k
    rw [hb.action?_eq_some_iff, hb.mem_row_iff]
    refine exists_congr fun st => and_congr_right fun hst => ?_
    exact resolve_reduce_iff (q := 0) (sorted_cellAt hg hst k)
  case atEnd => exact fun id k => hg.eof_of_accept hb

/-! ## Reports -/

/-- The reports on the cells that nothing settles, with state and terminal. -/
def reports (g : Flat) (mode : Mode) : List ((Nat × Kind) × Grammar.Conflict) :=
  (automaton g (First.compute g) mode).toList.zipIdx.flatMap fun (st, id) =>
    (cells g (First.compute g) st).filterMap fun cell =>
      (conflict? g id cell).map ((id, cell.lookahead), ·)

/-- A cell is not settled, and this says why. -/
def Unsettled (g : Flat) (mode : Mode) (place : Nat × Kind) (conflict : Grammar.Conflict) : Prop :=
  ∃ st, StateAt g mode place.1 st ∧
    Conflict.resolve g place.1 (cellAt g (First.compute g) st place.2) = .error conflict

/-- Cells are ordered by states and then by terminals. -/
def Before (a b : Nat × Kind) : Prop := a.1 < b.1 ∨ a.1 = b.1 ∧ a.2.id < b.2.id

private theorem conflicts_eq (g : Flat) (mode : Mode) :
    ((automaton g (First.compute g) mode).toList.zipIdx.flatMap fun x =>
      (resolveRow g x.2 (cells g (First.compute g) x.1)).2.toList) =
        (reports g mode).map (·.2) := by
  unfold reports
  rw [List.map_flatMap]
  refine List.flatMap_congr fun x _ => ?_
  rw [resolveRow_eq, List.map_filterMap]
  refine List.filterMap_congr fun cell _ => ?_
  simp

private theorem build_cases (g : Flat) (mode : Mode) :
    (∃ t, build g mode = .ok t) ∧ reports g mode = [] ∨
    build g mode = .error (.conflicts ((reports g mode).map (·.2))) ∧ reports g mode ≠ [] := by
  unfold build
  simp only
  rw [← Array.foldl_toList, Array.toList_zipIdx, foldl_rows fun st id =>
    resolveRow g id (cells g (First.compute g) st), conflicts_eq]
  simp only [Array.empty_append]
  by_cases hnone : reports g mode = []
  · simp [hnone]
  · simp [hnone]

private theorem mem_reports_iff {place : Nat × Kind} {conflict : Grammar.Conflict} :
    (place, conflict) ∈ reports g mode ↔ Unsettled g mode place conflict := by
  obtain ⟨id, k⟩ := place
  unfold reports Unsettled
  simp only [List.mem_flatMap, Prod.exists, List.mk_mem_zipIdx_iff_getElem?, Array.getElem?_toList,
    List.mem_filterMap, Option.map_eq_some_iff, Prod.mk.injEq]
  constructor
  · rintro ⟨st, id, hst, cell, hcell, conflict, hconflict, ⟨rfl, rfl⟩, rfl⟩
    refine ⟨st, hst, ?_⟩
    rw [← (mem_cells_iff.1 hcell).2]
    exact conflict?_eq_some_iff.1 hconflict
  · rintro ⟨st, hst, hresolve⟩
    have hcell : cellAt g (First.compute g) st k ∈ cells g (First.compute g) st := by
      by_contra hnot
      rw [resolve_of_not_asked fun c hc => hnot (cellAt_mem_cells hc)] at hresolve
      contradiction
    exact ⟨st, id, hst, _, hcell, conflict, conflict?_eq_some_iff.2 hresolve, ⟨rfl, rfl⟩, rfl⟩

private theorem sorted_reports (g : Flat) (mode : Mode) :
    (reports g mode).Pairwise fun a b => Before a.1 b.1 := by
  have hstates : (automaton g (First.compute g) mode).toList.zipIdx.Pairwise fun x y =>
      x.2 < y.2 := by
    rw [← List.pairwise_map (f := Prod.snd) (R := (· < ·)), List.zipIdx_map_snd]
    exact List.pairwise_lt_range'
  have hid {x : State × Nat} {report : (Nat × Kind) × Grammar.Conflict}
      (h : report ∈ (cells g (First.compute g) x.1).filterMap fun cell =>
        (conflict? g x.2 cell).map ((x.2, cell.lookahead), ·)) : report.1.1 = x.2 := by
    obtain ⟨cell, -, hreport⟩ := List.mem_filterMap.1 h
    obtain ⟨conflict, -, rfl⟩ := Option.map_eq_some_iff.1 hreport
    rfl
  refine List.pairwise_flatMap.2 ⟨fun x _ => ?_, hstates.imp fun hlt a ha b hb => ?_⟩
  · have hcells : (cells g (First.compute g) x.1).Pairwise fun a b =>
        a.lookahead.id < b.lookahead.id := by
      rw [cells, List.pairwise_map]
      exact pairwise_groupByKind _
    refine hcells.filterMap _ fun a b hlt report hreport report' hreport' => ?_
    obtain ⟨conflict, -, rfl⟩ := Option.map_eq_some_iff.1 hreport
    obtain ⟨conflict', -, rfl⟩ := Option.map_eq_some_iff.1 hreport'
    exact .inr ⟨rfl, hlt⟩
  · exact .inl (by rwa [hid ha, hid hb])

/-- A report names its cell. -/
theorem names_of_resolve {conflict : Grammar.Conflict}
    (h : Conflict.resolve g id cell = .error conflict) :
    conflict.state = id ∧ conflict.lookahead = g.nameOf cell.lookahead := by
  unfold Conflict.resolve at h
  split at h
  · contradiction
  · split at h
    · rw [← Except.error.inj h]
      exact ⟨rfl, rfl⟩
    · split at h
      · contradiction
      · split at h
        · contradiction
        · contradiction
        · rw [← Except.error.inj h]
          exact ⟨rfl, rfl⟩

/-! ## Without precedences -/

/-- Nothing is declared that could settle a conflict. -/
structure Plain (g : Flat) : Prop where
  levels : ∀ p ∈ g.productions, p.precedence.isDeclared = false ∧
    ∀ s ∈ p.steps, s.precedence.isDeclared = false
  dynamic : ∀ p ∈ g.productions, p.dynamic = 0
  groups : g.conflictGroups = []

/-- A cell is asked for a shift only, or for reductions of one rule only. -/
def OneSided (g : Flat) (f : First) (st : State) (k : Kind) : Prop :=
  (∀ q, ¬ Asks g f st k (.reduce q)) ∨ (∀ i, ¬ Asks g f st k (.shift i)) ∧
    ∀ p q, Asks g f st k (.reduce p) → Asks g f st k (.reduce q) →
    Conflict.lhsOf g p = Conflict.lhsOf g q

section
open Conflict
variable (hplain : Plain g)
include hplain

private theorem Plain.precedenceOf (q : Nat) : (precedenceOf g q).isDeclared = false := by
  unfold Conflict.precedenceOf
  cases hp : g.productions[q]? with
  | none => rfl
  | some p => exact (hplain.levels p (Array.mem_of_getElem? hp)).1

private theorem Plain.dynamicOf (q : Nat) : dynamicOf g q = 0 := by
  unfold Conflict.dynamicOf
  cases hp : g.productions[q]? with
  | none => rfl
  | some p => exact hplain.dynamic p (Array.mem_of_getElem? hp)

private theorem Plain.strength (q : Nat) : strength g q = toLex (0, 0) := by
  rw [Conflict.strength, value_of_not_isDeclared (hplain.precedenceOf q), hplain.dynamicOf]

private theorem Plain.conflictExpected (a b : Kind) : g.conflictExpected a b = false := by
  rw [Flat.conflictExpected, hplain.groups]
  rfl

private theorem Plain.related_iff (a b : Nat) : Related g a b ↔ lhsOf g a = lhsOf g b := by
  unfold Related
  rw [hplain.conflictExpected]
  simp

private theorem Plain.shiftOrReduce (items : List Item) (q : Nat) :
    shiftOrReduce g items q = none := by
  have hsteps : (items.filterMap fun i => (g.stepsFrom i.production i.dot).head?).any
      (·.precedence.isDeclared) = false := by
    refine List.any_eq_false.2 fun s hs => ?_
    obtain ⟨i, -, hi⟩ := List.mem_filterMap.1 hs
    obtain ⟨rest, hrest⟩ := List.head?_eq_some_iff.1 hi
    unfold Flat.stepsFrom at hrest
    cases hp : g.productions[i.production]? with
    | none => simp [hp] at hrest
    | some p =>
      rw [hp, Option.map_some, Option.getD_some] at hrest
      have hmem : s ∈ p.steps := List.mem_of_mem_drop (hrest ▸ List.mem_cons_self)
      simp [(hplain.levels p (Array.mem_of_getElem? hp)).2 s hmem]
  have hlargest : largest (List.replicate items.length 0) = 0 := by
    unfold largest
    rw [List.max?_replicate]
    split <;> rfl
  unfold Conflict.shiftOrReduce
  simp [hsteps, hplain.precedenceOf, hplain.conflictExpected, hplain.dynamicOf, hlargest]

private theorem Plain.leads {reduces : List Nat} {a : Nat} (ha : a ∈ reduces)
    (hleast : ∀ q ∈ reduces, a ≤ q) :
    Conflict.Leads g reduces a where
  mem := ha
  strongest q _ := by rw [hplain.strength, hplain.strength]
  first q hq hlt := absurd (hleast q hq) (Nat.not_le_of_lt hlt)

private theorem Plain.settled_iff (hg : g.WellFormed) (hst : StateAt g mode id st) :
    (∃ action, resolve g id (cellAt g (First.compute g) st k) = .ok action) ↔
      OneSided g (First.compute g) st k := by
  rw [resolve_ok_iff (sorted_cellAt hg hst k)]
  unfold OneSided
  simp only [← mem_reduces_cellAt]
  have hsorted := sorted_cellAt hg hst k
  constructor
  · rintro ⟨hcalm, hdecided⟩
    cases hreduces : (cellAt g (First.compute g) st k).reduces with
    | nil => exact .inl fun q => List.not_mem_nil
    | cons first rest =>
      rw [hreduces] at hcalm hdecided hsorted
      have hleast : ∀ q ∈ first :: rest, first ≤ q := by
        intro q hq
        rcases List.mem_cons.1 hq with rfl | hq
        · exact Nat.le_refl q
        · exact Nat.le_of_lt ((List.pairwise_cons.1 hsorted).1 q hq)
      have hlhs : ∀ q ∈ first :: rest, Conflict.lhsOf g first = Conflict.lhsOf g q := by
        intro q hq
        by_contra hne
        have hlt : first < q := Nat.lt_of_le_of_ne (hleast q hq) fun heq => hne (by rw [heq])
        refine hcalm first q
          ⟨hplain.leads (List.mem_filter.2 ⟨List.mem_cons_self, decide_eq_true hlt⟩)
          fun p hp => hleast p (List.mem_filter.1 hp).1, hq, ?_,
          mt (hplain.related_iff first q).1 hne⟩
        rw [hplain.strength, hplain.strength]
      refine .inr ⟨fun i hi => ?_, fun p q hp hq => (hlhs p hp).symm.trans (hlhs q hq)⟩
      obtain ⟨target, items, hs⟩ := shift_of_asks hg hst hi
      exact hdecided first target items (hplain.leads List.mem_cons_self hleast) hs
        (hplain.shiftOrReduce items first)
  · rintro (hnone | ⟨hshift, hlhs⟩)
    · exact ⟨fun a b hclash => hnone b hclash.right, fun q target items hq =>
        absurd hq.mem (hnone q)⟩
    · refine ⟨fun a b hclash => ?_, fun q target items _ hs => ?_⟩
      · exact hclash.unrelated
          ((hplain.related_iff a b).2 (hlhs a b (List.mem_filter.1 hclash.left.mem).1 hclash.right))
      · obtain ⟨-, hitems, hasks⟩ := asks_of_shift hs
        obtain ⟨i, hi⟩ := List.exists_mem_of_ne_nil _ hitems
        exact absurd ((hasks i).1 hi) (hshift i)

end

/-! ## All cells -/

/-- The reports on the cells that are not settled: one for each, in order. -/
structure Reported (g : Flat) (mode : Mode) (reports : List ((Nat × Kind) × Grammar.Conflict)) :
    Prop where
  ne_nil : reports ≠ []
  sorted : reports.Pairwise fun a b => Before a.1 b.1
  complete : ∀ place conflict, (place, conflict) ∈ reports ↔ Unsettled g mode place conflict
  names : ∀ report ∈ reports, report.2.state = report.1.1 ∧ report.2.lookahead = g.nameOf report.1.2

theorem reports_eq_nil_iff : reports g mode = [] ↔ ∀ id st k, StateAt g mode id st →
    ∃ action, Conflict.resolve g id (cellAt g (First.compute g) st k) = .ok action := by
  rw [List.eq_nil_iff_forall_not_mem]
  constructor
  · intro hnone id st k hst
    cases hresolve : Conflict.resolve g id (cellAt g (First.compute g) st k) with
    | ok action => exact ⟨action, rfl⟩
    | error conflict =>
      exact absurd (mem_reports_iff.2 ⟨st, hst, hresolve⟩) (hnone ((id, k), conflict))
  · rintro hsettled ⟨⟨id, k⟩, conflict⟩ hmem
    obtain ⟨st, hst, hresolve⟩ := mem_reports_iff.1 hmem
    obtain ⟨action, hok⟩ := hsettled id st k hst
    rw [hok] at hresolve
    contradiction

theorem build_ok_iff (g : Flat) (mode : Mode) :
    (∃ t, build g mode = .ok t) ↔ reports g mode = [] := by
  rcases build_cases g mode with ⟨hok, hnone⟩ | ⟨herror, hsome⟩
  · exact iff_of_true hok hnone
  · refine iff_of_false ?_ hsome
    rintro ⟨t, hok⟩
    rw [hok] at herror
    contradiction

theorem reported_of_error {e : Grammar.Error} (h : build g mode = .error e) :
    Reported g mode (reports g mode) ∧ e = .conflicts ((reports g mode).map (·.2)) := by
  rcases build_cases g mode with ⟨⟨t, hok⟩, -⟩ | ⟨herror, hsome⟩
  · rw [hok] at h
    contradiction
  · refine ⟨⟨hsome, sorted_reports g mode, fun place conflict => mem_reports_iff, ?_⟩,
      Except.error.inj (h.symm.trans herror)⟩
    rintro ⟨place, conflict⟩ hmem
    obtain ⟨st, -, hresolve⟩ := mem_reports_iff.1 hmem
    exact names_of_resolve hresolve

/-- There is a table iff every cell is settled, and then it says of each cell what settles it;
otherwise every other cell is reported. Where nothing is declared, cells are settled iff they are
asked for one thing. -/
theorem build_settles {d : Draft} {gr : Grammar} (hvalid : d.validate = .ok gr)
    (hflat : flatten gr = .ok g) (mode : Mode) :
    ((∃ t, build g mode = .ok t) ↔ ∀ id st k, StateAt g mode id st →
        ∃ action, Conflict.resolve g id (cellAt g (First.compute g) st k) = .ok action) ∧
      (∀ t, build g mode = .ok t → Settles g mode t) ∧
      (∀ e, build g mode = .error e → ∃ reports, Reported g mode reports ∧
        e = .conflicts (reports.map (·.2))) ∧
      (Plain g → ((∃ t, build g mode = .ok t) ↔
        ∀ id st k, StateAt g mode id st → OneSided g (First.compute g) st k)) := by
  have hg : g.WellFormed := wellFormed_of_flatten (Draft.valid_of_validate hvalid) hflat
  have hsettled := (build_ok_iff g mode).trans reports_eq_nil_iff
  refine ⟨hsettled, fun t => settles_of_build hg, fun e h => ⟨_, reported_of_error h⟩,
    fun hplain => ?_⟩
  rw [hsettled]
  exact forall_congr' fun id => forall_congr' fun st => forall_congr' fun k =>
    forall_congr' fun hst =>
    hplain.settled_iff hg hst

private theorem plain_letter : Plain Letter.flat where
  levels := by decide
  dynamic := by decide
  groups := rfl

/-- One letter has a table, and is asked for one thing everywhere; three rules for it have a
report. -/
theorem build_settles_letter : Settles Letter.flat .lalr Letter.table ∧
    (∀ id st k, StateAt Letter.flat .lalr id st →
      OneSided Letter.flat (First.compute Letter.flat) st k) ∧
      ∃ reports, Reported Rivals.flat .lalr reports ∧
        Grammar.Error.conflicts [Rivals.conflict] = .conflicts (reports.map (·.2)) := by
  have hletter := build_settles Letter.valid Letter.flattened .lalr
  exact ⟨hletter.2.1 _ Letter.built, (hletter.2.2.2 plain_letter).1 ⟨_, Letter.built⟩,
    (build_settles Rivals.valid Rivals.flattened .lalr).2.2.1 _ Rivals.conflicts⟩

end Reparse.Table

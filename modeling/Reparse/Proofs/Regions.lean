import Reparse.Proofs.Coarsening
import Reparse.Proofs.FollowSets
import Reparse.Proofs.Tracking

/-! # Regions of the stack that some terminals stay out of

While some symbol is on the stack, each item on top stands behind that symbol or comes of a symbol
that does. Where these symbols are known, and what may follow them, no other terminal has an
action. -/
namespace Reparse
open Data Grammar

namespace Table

/-- What stands behind an opening symbol, and terminals that have no place there. -/
structure Region where
  opening : Nat
  inside : BitSet
  outside : BitSet

/-- Adds some numbers to a set, one after another. -/
def gather : List Nat → BitSet → BitSet
  | [], s => s
  | x :: rest, s => materialize (s.insert x) fun s => gather rest s

theorem mem_gather {xs : List Nat} {s : BitSet} {x : Nat} : x ∈ gather xs s ↔ x ∈ xs ∨ x ∈ s := by
  induction xs generalizing s with
  | nil => simp [gather]
  | cons y xs ih => simp only [gather, Materialize.materialize_eq, ih, BitSet.mem_insert,
      List.mem_cons, or_left_comm, or_assoc]

/-- The symbols behind the first of some kind. -/
def behind (opening : Nat) : List Nat → List Nat
  | [] => []
  | x :: rest => if Nat.beq x opening then rest else behind opening rest

/-- Adds what stands behind an opening symbol in some productions, and all symbols of those for what
is in the set. -/
def enlarge (opening : Nat) : List Spot → BitSet → BitSet
  | [], s => s
  | row :: rows, s =>
    materialize (gather (if s.contains row.lhs then row.rest else behind opening row.rest) s)
      fun s => enlarge opening rows s

/-- A region that is found in some passes. That it is guarded is checked, so nothing depends on how
it is found. -/
def findRegion (opening : Nat) (outside : BitSet) (rows : List Spot) :
    (count : Nat) → BitSet → Region
  | 0, inside => ⟨opening, inside, outside⟩
  | count + 1, inside => materialize (enlarge opening rows inside) fun inside =>
      findRegion opening outside rows count inside

theorem opening_findRegion (opening : Nat) (outside : BitSet) (rows : List Spot) (count : Nat)
    (inside : BitSet) :
    (findRegion opening outside rows count inside).opening = opening := by
  induction count generalizing inside with
  | zero => rfl
  | succ count ih => rw [findRegion, Materialize.materialize_eq, ih]

theorem outside_findRegion (opening : Nat) (outside : BitSet) (rows : List Spot) (count : Nat)
    (inside : BitSet) :
    (findRegion opening outside rows count inside).outside = outside := by
  induction count generalizing inside with
  | zero => rfl
  | succ count ih => rw [findRegion, Materialize.materialize_eq, ih]

variable {g : Flat} {b : Bounds} {r : Region} {i : Item} {s : Step} {rest : List Step}

namespace Bounds

/-- Whether all symbols are inside, and what may follow the left-hand side is not outside. -/
def keeps (b : Bounds) (r : Region) (lhs : Nat) (symbols : List Nat) : Bool :=
  symbols.all r.inside.contains && apart (b.follow lhs) r.outside

/-- Whether the symbols behind the opening one are inside in all productions, and those of
productions for what is inside. -/
def guards (b : Bounds) (r : Region) (rows : List Spot) : Bool :=
  apart r.inside r.outside && rows.all fun row =>
    (!r.inside.contains row.lhs || b.keeps r row.lhs row.rest) &&
    row.rest.tails.all fun
      | [] => true
      | x :: rest => !Nat.beq x r.opening || b.keeps r row.lhs rest

/-- What is left of the production of an item is inside, and what may follow it is not outside. -/
structure Keeps (b : Bounds) (r : Region) (g : Flat) (i : Item) : Prop where
  inside : ∀ s ∈ g.stepsFrom i.production i.dot, s.symbol.id ∈ r.inside
  follow : ∀ t ∈ b.follow (Conflict.lhsOf g i.production).id, t ∉ r.outside

private theorem keeps_of_keeps (h : b.keeps r (spotOf g i).lhs (spotOf g i).rest = true) :
    b.Keeps r g i := by
  rw [keeps, Bool.and_eq_true, List.all_eq_true] at h
  exact ⟨fun s hs => h.1 _ (List.mem_map_of_mem hs), fun t ht => not_mem_of_apart h.2 ht⟩

private theorem Keeps.advance (h : b.Keeps r g i)
    (hs : g.stepsFrom i.production i.dot = s :: rest) : b.Keeps r g i.advance := by
  refine ⟨fun s' hs' => h.inside s' ?_, h.follow⟩
  rw [Flat.stepsFrom_advance hs] at hs'
  rw [hs]
  exact List.mem_cons_of_mem s hs'

/-- The symbols of a region are guarded by what stands behind the opening symbol. -/
structure Guards (b : Bounds) (r : Region) (g : Flat) : Prop where
  apart : ∀ t ∈ r.inside, t ∉ r.outside
  opened : ∀ (i : Item) (s : Step) (rest : List Step), g.stepsFrom i.production i.dot = s :: rest →
    s.symbol.id = r.opening → b.Keeps r g i.advance
  predicted : ∀ (q : Nat) (p : Production), g.productions[q]? = some p → p.lhs.id ∈ r.inside →
    b.Keeps r g ⟨q, 0⟩

private theorem guards_of_guards (h : b.guards r (rows g) = true) : b.Guards r g := by
  simp only [guards, Bool.and_eq_true, List.all_eq_true, Bool.or_eq_true, Bool.not_eq_true'] at h
  obtain ⟨hapart, hrows⟩ := h
  refine ⟨fun t => not_mem_of_apart hapart, fun i s rest hs hopening => ?_,
    fun q p hp hinside => ?_⟩
  · obtain ⟨p, hp, -⟩ :=
      Flat.mem_of_mem_stepsFrom (g := g) (s := s) (by rw [hs]; exact List.mem_cons_self)
    have htail : s.symbol.id :: ids rest ∈ (spotOf g ⟨i.production, 0⟩).rest.tails := by
      rw [List.mem_tails, spotOf_start hp]
      rw [Flat.stepsFrom_eq_drop, Flat.stepsFrom_zero hp] at hs
      have hsuffix := (List.drop_suffix i.dot p.steps).map (·.symbol.id)
      rwa [hs] at hsuffix
    have hkeeps := (hrows _ (spotOf_mem_rows hp)).2 _ htail
    simp only [hopening, Nat.beq_refl, Bool.not_true, Bool.false_or] at hkeeps
    refine keeps_of_keeps ?_
    rw [spotOf, Flat.stepsFrom_advance hs]
    exact hkeeps
  · rcases (hrows _ (spotOf_mem_rows hp)).1 with hout | hkeeps
    · rw [spotOf_start hp] at hout
      exact absurd hinside (Bool.eq_false_iff.1 hout)
    · exact keeps_of_keeps hkeeps

/-- What is predicted from inside is inside. -/
theorem Guards.closed (h : b.Guards r g) (hg : g.WellFormed) {cores : List Item}
    (hcores : ∀ i ∈ cores, b.Keeps r g i) (hi : Items.Closed g cores i) : b.Keeps r g i := by
  induction hi with
  | kernel hi => exact hcores _ hi
  | @predict i s rest q source hs nonterminal hq ih =>
    obtain ⟨p, hp, hlhs⟩ := (hg.index s.symbol q).1 hq
    refine h.predicted q p hp ?_
    rw [hlhs]
    exact ih.inside s (by rw [hs]; exact List.mem_cons_self)

end Bounds

/-- Whether bounds that are found in some passes suffice to keep all candidates apart, and to guard
a region. -/
def followSetsGuard (n width count fuel : Nat) (r : Region) (rows : List Spot) : Bool :=
  materialize (Estimate.start n width rows) fun e =>
    materialize (e.passes width rows count) fun e =>
    (e.bounds width).suffice n fuel rows && (e.bounds width).guards r rows

theorem followSetsSuffice_of_guard {n width count fuel : Nat} {rows : List Spot}
    (h : followSetsGuard n width count fuel r rows = true) :
    followSetsSuffice n width count fuel rows = true := by
  simp only [followSetsGuard, Materialize.materialize_eq, Bool.and_eq_true] at h
  simp only [followSetsSuffice, Materialize.materialize_eq, h.1]

theorem exists_guards (hg : g.WellFormed) {width count fuel : Nat}
    (h : followSetsGuard g.terminalCount width count fuel r (rows g) = true) :
    ∃ b : Bounds, b.Hold g ∧ b.Guards r g := by
  simp only [followSetsGuard, Materialize.materialize_eq, Bool.and_eq_true] at h
  exact ⟨_, (Bounds.suffice_of_suffice hg h.1).hold, Bounds.guards_of_guards h.2⟩

end Table

namespace Parse
open Table

variable {k : Compilation} {b : Bounds} {r : Region} {s : Stack} {xs around : List Kind} {i : Item}
  {st : State}

/-- While the opening symbol is on the stack, the items on top are inside. -/
theorem Tracks.keeps (hguards : b.Guards r k.flat) (h : Tracks k s xs i around)
    (hopen : ⟨r.opening⟩ ∈ xs) (hst : k.states[s.top.state]? = some st) :
    ∀ j, Items.Closed k.flat st.kernel.cores j → b.Keeps r k.flat j := by
  refine fun j => hguards.closed k.wellFormed ?_
  induction h generalizing st with
  | bottom state => exact absurd hopen List.not_mem_nil
  | predict source hs nonterminal hq ih => exact ih hopen hst
  | @advance s xs around i step rest e st₀ source hs hst₀ edge ih =>
    intro j hj
    obtain ⟨j', step', rest', hj', hs', hsymbol, rfl⟩ :=
      Compilation.exists_of_edge hst₀ edge hst j hj
    rcases List.mem_cons.1 hopen with hopening | hopen
    · exact hguards.opened j' step' rest' hs' (by rw [hsymbol, ← hopening])
    · exact (hguards.closed k.wellFormed (ih hopen hst₀) hj').advance hs'

/-- While the opening symbol is on the stack, there is no action for a terminal that has no place
behind it. -/
theorem Tracks.no_action (hb : b.Hold k.flat) (hguards : b.Guards r k.flat)
    (h : Tracks k s xs i around) (hopen : ⟨r.opening⟩ ∈ xs) {x : Kind} (hx : x.id ∈ r.outside) :
    k.table.action? s.top.state x = none := by
  rw [Option.eq_none_iff_forall_ne_some]
  intro action haction
  have hcompleted {st : State} {q : Nat} (hst : k.states[s.top.state]? = some st)
      (hq : Completes k.flat (Items.closure k.flat (First.compute k.flat) st.kernel) q x) :
      False := by
    obtain ⟨j, ahead, hmem, rfl, -, hahead⟩ := hq
    have hkeeps := h.keeps hguards hopen hst j (Items.closed_of_mem_closure hmem)
    have hfollow :=
      hb.follow_of_ahead k.wellFormed (hb.follow_of_kernel k.wellFormed (kernel_of_state hst))
      (Items.ahead_of_has_closure ⟨ahead, hmem, hahead⟩)
    exact hkeeps.follow x.id hfollow hx
  cases action with
  | shift target =>
    obtain ⟨st, hst, hedge, -⟩ := k.tableBuilt.of_shift haction
    obtain ⟨j, ahead, step, rest, hmem, hs, rfl⟩ := exists_item_of_edge k.wellFormed hst hedge
    have hkeeps := h.keeps hguards hopen hst j (Items.closed_of_mem_closure hmem)
    exact hguards.apart step.symbol.id
      (hkeeps.inside step (by rw [hs]; exact List.mem_cons_self)) hx
  | reduce q =>
    obtain ⟨-, st, hst, hq⟩ := k.tableBuilt.of_reduce haction
    exact hcompleted hst hq
  | accept =>
    obtain ⟨st, hst, hq⟩ := k.tableBuilt.of_accept haction
    exact hcompleted hst hq

end Parse
end Reparse

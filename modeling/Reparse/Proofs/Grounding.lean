import Mathlib.Data.List.Forall2
import Reparse.Proofs.Compilation
import Reparse.Proofs.Derivation
import Reparse.Proofs.Fields

/-! # States describe the symbols below them on the stack -/
namespace Reparse
open Grammar Parse Reparse.Tree

namespace Compilation

variable (k : Compilation)

/-- The states of the automaton. -/
def states : Array Table.State := Table.automaton k.flat (Table.First.compute k.flat) k.mode

theorem sound_states : Table.Construction.Sound k.flat (Table.First.compute k.flat) k.mode
    (Table.Construction.run k.flat (Table.First.compute k.flat) k.mode
      (Table.visitBound k.flat k.mode) (.start k.mode)) :=
  Table.Construction.sound_automaton ..

variable {k}

/-- A state behind a transition is not the first one, and its kernel items came over the
transition. -/
theorem exists_of_edge {id next : Nat} {st st' : Table.State} {x : Kind}
    (hst : k.states[id]? = some st) (hedge : (x, next) ∈ st.transitions)
    (hst' : k.states[next]? = some st') :
    ∀ i ∈ st'.kernel.cores, ∃ j s rest, Table.Items.Closed k.flat st.kernel.cores j ∧
      k.flat.stepsFrom j.production j.dot = s :: rest ∧ s.symbol = x ∧ i = j.advance := by
  intro i hi
  obtain ⟨st'', hst'', before, after, hbefore, hmem, hafter⟩ :=
    k.sound_states.edges id st hst _ hedge
  obtain rfl : st' = st'' := Option.some.inj (hst'.symm.trans hst'')
  rw [← hafter] at hi
  obtain ⟨entry, hentry, rfl⟩ := List.mem_map.1 hi
  obtain ⟨j, s, rest, hj, hs, hsymbol, hadvance⟩ := Table.Items.of_mem_successors hmem entry hentry
  have hclosed := Table.Items.closed_of_mem_closure hj
  change Table.Items.Closed k.flat (Table.Items.cores before) j at hclosed
  rw [hbefore] at hclosed
  exact ⟨j, s, rest, hclosed, hs, hsymbol, hadvance⟩

/-- A transition leads to a state. -/
theorem state_of_edge {id next : Nat} {st : Table.State} {x : Kind} (hst : k.states[id]? = some st)
    (hedge : (x, next) ∈ st.transitions) : ∃ st', k.states[next]? = some st' := by
  obtain ⟨st', hst', -⟩ := k.sound_states.edges id st hst _ hedge
  exact ⟨st', hst'⟩

/-- The first state starts with production 0. -/
theorem cores_start {st : Table.State} (hst : k.states[0]? = some st) :
    st.kernel.cores = [⟨0, 0⟩] := by
  obtain ⟨st', hst', hcores⟩ := k.sound_states.start
  obtain rfl : st = st' := Option.some.inj (hst.symm.trans hst')
  exact hcores

end Compilation

namespace Parse
open Table

/-- No tree but extras has an error. -/
def Clean (l : Language) (ts : List Tree) : Prop :=
  ∀ t ∈ ts, l.isTrivia t = false → t.hasError = false

/-- Without errors, the proper elements of the entry stand for one symbol. -/
def Entry.Reads (k : Compilation) (x : Kind) (e : Entry) : Prop :=
  Clean k.language e.trees →
    Spliced k.language k.flat [{ symbol := x }] (proper k.language e.elements.toList)

/-- Entries were pushed along transitions of the automaton, from the first state on. The symbols are
listed top first. -/
inductive Grounded (k : Compilation) : Stack → List Kind → Prop
  | bottom {e : Entry} (state : e.state = 0)
      (nothing : Clean k.language e.trees → proper k.language e.elements.toList = []) :
      Grounded k ⟨e, []⟩ []
  | push {s : Stack} {xs : List Kind} {e : Entry} {x : Kind} {st : State} (below : Grounded k s xs)
      (source : k.states[s.top.state]? = some st) (edge : (x, e.state) ∈ st.transitions)
      (reads : e.Reads k x) : Grounded k (s.push e) (x :: xs)

variable {k : Compilation} {s : Stack} {xs : List Kind}

theorem Grounded.length (h : Grounded k s xs) : xs.length = s.below.length := by
  induction h with
  | bottom => rfl
  | push _ _ _ _ ih => rw [Stack.push, List.length_cons, List.length_cons, ih]

theorem Grounded.state (h : Grounded k s xs) : ∃ st, k.states[s.top.state]? = some st := by
  cases h with
  | @bottom e state nothing =>
    obtain ⟨st, hst, -⟩ := k.sound_states.start
    refine ⟨st, ?_⟩
    change k.states[e.state]? = some st
    rw [state]
    exact hst
  | push below source edge reads => exact Compilation.state_of_edge source edge

/-! ## Uncovering -/

private theorem Stack.popOnto_eq (popped : List Entry) (n : Nat) (s : Stack) :
    popOnto popped n s = ((popOnto [] n s).1 ++ popped, (popOnto [] n s).2) := by
  induction n generalizing popped s with
  | zero => rfl
  | succ n ih =>
    obtain ⟨top, below⟩ := s
    cases below with
    | nil => rfl
    | cons e below =>
      rw [popOnto, popOnto, ih (top :: popped), ih [top]]
      simp

theorem Stack.uncovered_push (s : Stack) (e : Entry) (n : Nat) :
    (s.push e).uncovered (n + 1) = s.uncovered n := by
  unfold uncovered push
  rw [popOnto, popOnto_eq]

private theorem Stack.popped_push (s : Stack) (e : Entry) (n : Nat) :
    (s.push e).popped (n + 1) = s.popped n ++ [e] := by
  unfold popped push
  rw [popOnto, popOnto_eq]

/-- On top of the stack are entries for the first `d` steps of production `q`, which was predicted
below them. -/
structure Uncovers (k : Compilation) (s : Stack) (xs : List Kind) (q d : Nat) : Prop where
  enough : d ≤ (k.flat.stepsFrom q 0).length
  below : ∃ ys, Grounded k (s.uncovered d) ys ∧
    xs = (((k.flat.stepsFrom q 0).take d).map (·.symbol)).reverse ++ ys
  source : ∃ st, k.states[(s.uncovered d).top.state]? = some st ∧
    Items.Closed k.flat st.kernel.cores ⟨q, 0⟩
  popped : List.Forall₂ (fun step e => Entry.Reads k step.symbol e)
    ((k.flat.stepsFrom q 0).take d) (s.popped d)

/-- An advanced item is in the kernel. -/
private theorem mem_cores_of_closed {kernel : List Item} {q d : Nat}
    (h : Items.Closed k.flat kernel ⟨q, d + 1⟩) :
    ⟨q, d + 1⟩ ∈ kernel := by
  cases h with
  | kernel h => exact h

/-- An item of the state on top tells what is on the stack. -/
theorem Grounded.uncovers (h : Grounded k s xs) {st : State}
    (hst : k.states[s.top.state]? = some st) {q d : Nat}
    (hi : Items.Closed k.flat st.kernel.cores ⟨q, d⟩) : Uncovers k s xs q d := by
  induction d generalizing s xs st with
  | zero => exact ⟨Nat.zero_le _, ⟨xs, h, rfl⟩, ⟨st, hst, hi⟩, .nil⟩
  | succ d ih =>
    have hkernel := mem_cores_of_closed hi
    cases h with
    | @bottom e state nothing =>
      change k.states[e.state]? = some st at hst
      rw [state] at hst
      rw [Compilation.cores_start hst] at hkernel
      simp at hkernel
    | @push s ys e x source below hsource edge reads =>
      obtain ⟨⟨q', d'⟩, step, rest, hj, hstep, hsymbol, hadvance⟩ :=
        Compilation.exists_of_edge hsource edge hst _ hkernel
      simp only [Item.advance, Item.mk.injEq, Nat.add_right_cancel_iff] at hadvance
      obtain ⟨rfl, rfl⟩ := hadvance
      obtain ⟨henough, ⟨zs, hbelow, rfl⟩, hclosed, hpopped⟩ := ih below hsource hj
      have hnext : (k.flat.stepsFrom q 0)[d]? = some step := by
        have hhead := congrArg List.head? hstep
        rw [Flat.stepsFrom_eq_drop, List.head?_drop] at hhead
        exact hhead
      have htake : (k.flat.stepsFrom q 0).take (d + 1) =
          (k.flat.stepsFrom q 0).take d ++ [step] := by
        rw [List.take_add_one, hnext]
        rfl
      refine ⟨(List.getElem?_eq_some_iff.1 hnext).1, ⟨zs, ?_, ?_⟩, ?_, ?_⟩
      · rw [Stack.uncovered_push]
        exact hbelow
      · rw [htake]
        simp [hsymbol]
      · rw [Stack.uncovered_push]
        exact hclosed
      · rw [htake, Stack.popped_push]
        rw [← hsymbol] at reads
        exact List.rel_append hpopped (.cons reads .nil)

/-- Only the first state starts with production 0. -/
theorem Grounded.bottom_of_start (h : Grounded k s xs) {st : State}
    (hst : k.states[s.top.state]? = some st) (hi : Items.Closed k.flat st.kernel.cores ⟨0, 0⟩) :
    s.below = [] ∧ xs = [] := by
  cases h with
  | bottom => exact ⟨rfl, rfl⟩
  | @push s ys e x source below hsource edge reads =>
    have hkernel : ⟨0, 0⟩ ∈ st.kernel.cores := by
      generalize hzero : (⟨0, 0⟩ : Item) = i at hi
      cases hi with
      | kernel h => exact h
      | @predict j step rest q hj hs hn hq =>
        simp only [Item.mk.injEq] at hzero
        obtain ⟨rfl, -⟩ := hzero
        exact absurd ⟨j, step, rest, hj, hs, hn, hq⟩ (k.wellFormed.not_predicted _)
    obtain ⟨j, step, rest, -, -, -, hadvance⟩ :=
      Compilation.exists_of_edge hsource edge hst _ hkernel
    simp [Item.advance] at hadvance

end Parse
end Reparse

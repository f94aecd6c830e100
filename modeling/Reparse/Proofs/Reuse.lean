import Reparse.Proofs.Survey

/-! # What the parser may take over from an old tree -/
namespace Reparse.Parse
open Reparse.Tree

/-! ## Runs of old neighbours -/

/-- The run lengths of a list of tokens. -/
private def runsOf : List StreamToken → List Nat
  | [] => []
  | t :: rest =>
    (match t.origin with
      | none => 0
      | some i => if (rest.head?.bind (·.origin)) = some (i + 1) then (runsOf rest).head?.getD 0 +
          1 else 1) :: runsOf rest

/-- One step of the fold from the right: the old leaf of the token, and the run lengths from there
on in reverse. -/
private def countRun (t : StreamToken) (acc : Option Nat × Array Nat) : Option Nat × Array Nat :=
  (t.origin, acc.2.push (match t.origin with
    | none => 0
    | some i => if acc.1 = some (i + 1) then acc.2.back?.getD 0 + 1 else 1))

private theorem foldr_countRun (ts : List StreamToken) :
    (ts.foldr countRun (none, #[])).1 = ts.head?.bind (·.origin) ∧
      (ts.foldr countRun (none, #[])).2.toList.reverse = runsOf ts := by
  induction ts with
  | nil => exact ⟨rfl, rfl⟩
  | cons t rest ih =>
    obtain ⟨horigin, hruns⟩ := ih
    have hback : (rest.foldr countRun (none, #[])).2.back?.getD 0 = (runsOf rest).head?.getD 0 := by
      rw [← hruns, List.head?_reverse, Array.getLast?_toList]
    refine ⟨rfl, ?_⟩
    rw [List.foldr_cons, countRun, horigin, hback, Array.toList_push, List.reverse_append, hruns]
    rfl

private theorem runLengths_toList (stream : Array StreamToken) :
    (runLengths stream).toList = runsOf stream.toList := by
  have hfold : runLengths stream = (stream.foldr countRun (none, #[])).2.reverse := rfl
  rw [hfold, ← Array.foldr_toList, Array.toList_reverse]
  exact (foldr_countRun stream.toList).2

/-- Tokens of one run were neighbours before. -/
private theorem origin_of_runsOf (ts : List StreamToken) {p n o : Nat}
    (hn : n ≤ (runsOf ts)[p]?.getD 0) (hfirst : ts[p]?.bind (·.origin) = some o) :
    ∀ i < n, ts[p + i]?.bind (·.origin) = some (o + i) := by
  induction ts generalizing p n o with
  | nil => simp at hfirst
  | cons t rest ih =>
    cases p with
    | zero =>
      intro i hi
      cases i with
      | zero => exact hfirst
      | succ i =>
        simp only [List.getElem?_cons_zero, Option.bind_some] at hfirst
        simp only [runsOf, List.getElem?_cons_zero, Option.getD_some, hfirst] at hn
        split at hn
        · next hnext =>
          have hrest := ih (p := 0) (n := n - 1) (o := o + 1)
            (by rw [← List.head?_eq_getElem?]; omega)
            (by rwa [← List.head?_eq_getElem?]) i (by omega)
          rw [Nat.zero_add] at hrest ⊢
          rw [List.getElem?_cons_succ, hrest, Nat.add_assoc, Nat.add_comm 1]
        · omega
    | succ p =>
      intro i hi
      have hrest :=
        ih (p := p) (n := n) (o := o) (by simpa [runsOf] using hn) (by simpa using hfirst) i hi
      rwa [Nat.add_right_comm, List.getElem?_cons_succ]

theorem origin_of_runLengths {stream : Array StreamToken} {p n first : Nat}
    (hn : n ≤ (runLengths stream)[p]?.getD 0) (hfirst : stream[p]?.bind (·.origin) = some first) :
    ∀ i < n, stream[p + i]?.bind (·.origin) = some (first + i) := by
  intro i hi
  rw [← Array.getElem?_toList, runLengths_toList] at hn
  rw [← Array.getElem?_toList] at hfirst ⊢
  exact origin_of_runsOf _ hn hfirst i hi

/-! ## Candidates -/

namespace Reuse

/-- Why a subtree was a candidate. -/
structure Fits (r : Reuse) (l : Language) (stream : Array StreamToken) (position state origin : Nat)
    (t : Tree) (next : Nat) : Prop where
  leaves : 0 < t.leafCount
  base : ∃ info children, t = .node info children ∧ info.state = state
  run : t.leafCount ≤ r.runs[position]?.getD 0
  significant : r.significantOrigin stream (position + t.leafCount) =
    some (r.oldSignificant (origin + t.leafCount))
  clean : ¬ r.old[r.oldSignificant (origin + t.leafCount)]?.any (·.inError) = true
  goto : l.table.goto? state t.kind = some next
  action : l.hasAction next ((r.significant? stream (position + t.leafCount)).map (·.leaf)) = true

variable {r : Reuse} {l : Language} {stream : Array StreamToken} {position state origin next : Nat}
  {t : Tree}

private theorem fits_of_stateAfter?
    (h : r.stateAfter? l stream position state origin t = some next) :
    Fits r l stream position state origin t next := by
  simp only [stateAfter?] at h
  split at h
  · next hc =>
    simp only [Bool.and_eq_true, decide_eq_true_eq, beq_iff_eq, Bool.not_eq_true'] at hc
    obtain ⟨⟨⟨⟨hleaves, hstate⟩, hrun⟩, hsignificant⟩, hclean⟩ := hc
    obtain ⟨hgoto, haction⟩ := Option.filter_eq_some_iff.1 h
    refine ⟨hleaves, ?_, hrun, hsignificant, by simp [hclean], hgoto, haction⟩
    cases t with
    | leaf leaf => simp [info?] at hstate
    | node info children => exact ⟨info, children, rfl, by simpa [info?] using hstate⟩
  · contradiction

/-- A candidate is a subtree that starts at the old leaf that the token was. -/
theorem of_candidate? (h : r.candidate? l stream position state = some (t, next)) :
    ∃ origin slot, stream[position]?.bind (·.origin) = some origin ∧ r.old[origin]? = some slot ∧
      t ∈ slot.starting ∧
      Fits r l stream position state origin t next := by
  obtain ⟨token, ht, h⟩ := Option.bind_eq_some_iff.1 h
  obtain ⟨origin, ho, h⟩ := Option.bind_eq_some_iff.1 h
  obtain ⟨slot, hs, h⟩ := Option.bind_eq_some_iff.1 h
  obtain ⟨u, hu, hfound⟩ := List.exists_of_findSome?_eq_some h
  obtain ⟨n, hn, he⟩ := Option.map_eq_some_iff.1 hfound
  simp only [Prod.mk.injEq] at he
  obtain ⟨rfl, rfl⟩ := he
  exact ⟨origin, slot, by rw [ht]; exact ho, hs, hu, fits_of_stateAfter? hn⟩

end Reuse
end Reparse.Parse

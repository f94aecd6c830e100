import Reparse.Proofs.Losslessness
import Reparse.Proofs.Splicing

/-! # Errors stay in the tree -/
namespace Reparse.Parse
open Reparse.Tree Stack

/-- A node that is no error node has an error where a child has one. -/
private theorem hasError_eq_any {t : Tree} (h : t.Consistent) (hnode : t.isNode = true)
    (herror : t.isErrorNode = false) :
    t.hasError = t.children.any hasError := by
  cases hany : t.children.any hasError with
  | false =>
    rw [List.any_eq_false] at hany
    exact hasError_eq_false h hnode herror fun c hc => by simpa using hany c hc
  | true =>
    cases h with
    | leaf leaf => contradiction
    | @node kind children fields state isError below =>
      change (infoOf kind children fields state isError).hasError = true
      rw [hasError_infoOf, show children.any hasError = true from hany, Bool.or_true]

namespace Stack

variable {l : Language} {s : Stack}

theorem any_reduced (l : Language) (lhs : Kind) (elements : Array Element) (state : Nat) :
    (treesOf (reduced l lhs elements state)).any hasError = (treesOf elements).any hasError := by
  cases hvisible : l.isVisible lhs with
  | false => rw [reduced_hidden hvisible]
  | true =>
    have hsplit : elements.toList.takeWhile (fun e => l.isTrivia e.2) ++
        elements.toList.dropWhile (fun e => l.isTrivia e.2) = elements.toList :=
      List.takeWhile_append_dropWhile
    have htrees : treesOf elements =
        (elements.toList.takeWhile fun e => l.isTrivia e.2).map (·.2) ++
          (elements.toList.dropWhile fun e => l.isTrivia e.2).map (·.2) := by
      rw [← List.map_append, hsplit]
      rfl
    rw [htrees, treesOf, reduced_visible hvisible]
    simp [hasError_branchOf]

/-- A reduction neither makes an error nor hides one. -/
theorem any_reduce {info : Table.ProductionInfo} {state : Nat}
    (h : s.uncovered? info.fields.size = some state) (next : Nat) :
    (s.reduce l info next).trees.any hasError = s.trees.any hasError := by
  rw [trees_reduce, List.any_append, any_reduced, treesOf_handle h,
    ← List.any_append, trees_uncovered]

/-- The root of an accepted text has the errors of its parts. -/
theorem hasError_root (hs : AllConsistent s.trees) (start : Kind) (trailing : List Tree) :
    (s.root start trailing).hasError = (s.trees ++ trailing).any hasError := by
  rcases root_cases s start trailing with
      ⟨before, e, after, helements, hstart, -, hroot⟩ | ⟨-, hroot⟩
  · have htrees : s.trees = s.treesBelow ++ (before.map (·.2) ++ e.2 :: after.map (·.2)) := by
      rw [trees_eq_treesBelow]
      simp [Entry.trees, helements]
    have hnode : e.2.hasError = e.2.children.any hasError := by
      simp only [isStart, Bool.and_eq_true, Bool.not_eq_true'] at hstart
      exact hasError_eq_any (hs e.2 (by simp [htrees])) hstart.1.1 hstart.2
    rw [hroot, hasError_branchOf, List.map_append, List.map_append, map_bare_snd, map_bare_snd,
      labelledChildren_snd, htrees]
    simp only [List.any_append, List.any_cons, hnode, Bool.or_assoc]
  · rw [hroot, hasError_branchOf, map_bare_snd]

end Stack

/-- Something on the stack has an error, or something was skipped. -/
def Machine.Broken (m : Machine) : Prop :=
  m.stack.trees.any hasError = true ∨ ¬ m.Idle ∧ m.recovery.skipped ≠ #[]

variable {job : Job} {m : Machine}

namespace Machine

private theorem broken_append {s : Stack} (ts : List Tree) (state : Nat) :
    (s.append (.errorNode ts state)).trees.any hasError = true := by
  rw [trees_append, List.any_append, List.any_cons, hasError_errorNode, Bool.true_or, Bool.or_true]

private theorem Broken.collectExtras (h : m.Broken) : (job.collectExtras m).Broken := by
  unfold Broken Idle at h ⊢
  rwa [Job.collectExtras_stack, Job.collectExtras_recovery]

/-- When a streak of errors ends, its errors are on the stack. -/
private theorem Broken.flush (h : m.Broken) : m.flush.stack.trees.any hasError = true := by
  rcases h with h | ⟨hidle, hskipped⟩
  · unfold Machine.flush
    split
    · exact h
    · simp only
      split
      · exact h
      · exact broken_append _ _
  · unfold Machine.flush
    split
    · next hnone => exact absurd hnone hidle
    · next state _ =>
      simp only
      rw [if_neg (by simpa using hskipped)]
      exact broken_append _ _

private theorem broken_push {next n : Nat} {t : Tree} (h : m.stack.trees.any hasError = true) :
    (m.push next t n).Broken := by
  left
  simp only [Machine.push, trees_push, List.any_append, h, Bool.true_or]

private theorem broken_resume (m : Machine) (popped : List Entry) (stack : Stack) :
    (m.resume popped stack).Broken :=
  .inl (broken_append _ _)

private theorem broken_skip (m : Machine) (leaf : Leaf) : (m.failed.skip leaf).Broken := by
  refine .inr ⟨nofun, ?_⟩
  simp [Machine.skip]

theorem hasError_abandon (m : Machine) (job : Job) : (m.abandon job).root.hasError = true :=
  hasError_failedRoot _ _

end Machine

namespace Job

/-- A missing action breaks the machine, unless it ends the parse with an error. -/
private theorem broken_of_fail {progress : Progress} (hact : Act job m progress) {kind : Kind}
    (fresh : job.reusable? m = none)
    (haction : job.language.actionFor m.stack.top.state (job.leaf? m.position) = (kind, none)) :
    progress.Satisfies Machine.Broken fun o => o.root.hasError = true := by
  cases hact with
  | reuse found =>
    rw [fresh] at found
    contradiction
  | shift _ here action =>
    rw [here, action] at haction
    simp at haction
  | reduce _ action =>
    rw [action] at haction
    simp at haction
  | accept _ action =>
    rw [action] at haction
    simp at haction
  | resume => exact Machine.broken_resume _ _ _
  | skip => exact Machine.broken_skip _ _
  | giveUp => exact Machine.hasError_abandon _ _
  | stuck => exact Machine.hasError_abandon _ _
  | overrun => exact Machine.hasError_abandon _ _
  | shiftAtEnd => exact Machine.hasError_abandon _ _

/-- A machine without an action is broken by its step. -/
private theorem broken_of_missing {progress : Progress} (hact : Act job m progress)
    (hreuse : job.reuse = none)
    (haction : job.language.hasAction m.stack.top.state (job.leaf? m.position) = false) :
    progress.Satisfies Machine.Broken fun o => o.root.hasError = true := by
  obtain ⟨kind, hnone⟩ := Language.hasAction_eq_false_iff.1 haction
  refine broken_of_fail hact ?_ hnone
  unfold reusable?
  rw [hreuse]
  simp

/-- A broken machine stays broken, and its tree has an error. -/
theorem broken_of_act {progress : Progress} (hact : Act job m progress) (hm : m.Broken)
    (hconsistent : AllConsistent m.flush.stack.trees) :
    progress.Satisfies Machine.Broken fun o => o.root.hasError = true := by
  cases hact with
  | reuse found =>
    have hflush := hm.flush
    rw [Machine.flush_of_idle (of_reusable? found).1] at hflush
    exact Machine.broken_push (n := 0) hflush
  | shift => exact Machine.broken_push hm.flush
  | @reduce kind production info next fresh action applies room =>
    obtain ⟨state, hstate⟩ : ∃ state, m.stack.uncovered? info.fields.size = some state := by
      obtain ⟨info', -, h⟩ := Option.bind_eq_some_iff.1 applies
      obtain ⟨state, hstate, h⟩ := Option.bind_eq_some_iff.1 h
      obtain ⟨next', -, heq⟩ := Option.map_eq_some_iff.1 h
      simp only [Prod.mk.injEq] at heq
      obtain ⟨rfl, rfl⟩ := heq
      exact ⟨state, hstate⟩
    rcases hm with hm | hm
    · left
      rw [← any_reduce (l := job.language) hstate next] at hm
      exact hm
    · exact .inr hm
  | accept =>
    change (m.flush.stack.root _ _).hasError = true
    rw [hasError_root hconsistent, List.any_append, hm.flush, Bool.true_or]
  | resume => exact Machine.broken_resume _ _ _
  | skip => exact Machine.broken_skip _ _
  | giveUp => exact Machine.hasError_abandon _ _
  | stuck => exact Machine.hasError_abandon _ _
  | overrun => exact Machine.hasError_abandon _ _
  | shiftAtEnd => exact Machine.hasError_abandon _ _

/-- A run that breaks ends with an error. -/
theorem hasError_run_of_broken (hjob : job.Sound) (hm : m.Broken) (hlossless : m.Lossless job) :
    (job.run m).root.hasError = true := by
  let inv (m : Machine) : Prop := m.Broken ∧ m.Lossless job
  let good (o : Outcome) : Prop := o.root.hasError = true
  change good (job.run m)
  refine run_of_invariant (fun m (hm : inv m) => ?_) ⟨hm, hlossless⟩
  have hact := step_cases job m
  have hbroken := broken_of_act hact hm.1.collectExtras hm.2.collectExtras.flush.consistent
  have hlossless := lossless_of_act hjob hact hm.2.collectExtras
  cases hnext : job.step m with
  | next n =>
    rw [hnext] at hbroken hlossless
    exact ⟨hbroken, hlossless⟩
  | done o =>
    rw [hnext] at hbroken
    exact hbroken

/-- A run that lacks an action somewhere ends with an error. -/
theorem hasError_run_of_missing (hjob : job.Sound) (hreuse : job.reuse = none)
    (hlossless : m.Lossless job)
    (haction : job.language.hasAction (job.collectExtras m).stack.top.state
      (job.leaf? (job.collectExtras m).position) = false) : (job.run m).root.hasError = true := by
  have hact := step_cases job m
  have hbroken := broken_of_missing hact hreuse haction
  have hlossless := lossless_of_act hjob hact hlossless.collectExtras
  cases hnext : job.step m with
  | next n =>
    rw [hnext] at hbroken hlossless
    rw [run_of_next hnext]
    exact hasError_run_of_broken hjob hbroken hlossless
  | done o =>
    rw [hnext] at hbroken
    rw [run_of_done hnext]
    exact hbroken

end Job
end Reparse.Parse

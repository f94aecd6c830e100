import Reparse.Proofs.Moves
import Reparse.Proofs.Stack

/-! # No step of the parser loses a token -/
namespace Reparse.Parse
open Reparse.Tree

/-- The tokens are as the lexer found them. -/
def Job.Lexed (job : Job) : Prop := ∀ leaf ∈ job.leaves, leaf.asLexed = leaf

private theorem Job.Lexed.map_eq {job : Job} (h : job.Lexed) {ls : List Leaf}
    (hls : ls ⊆ job.leaves) :
    ls.map Leaf.asLexed = ls := by
  rw [List.map_congr_left fun leaf hleaf => h leaf (hls hleaf)]
  exact List.map_id' ls

/-- The tokens come from a lexer, what may be reused are tokens in their places, and no token
completes the text. -/
structure Job.Sound (job : Job) : Prop where
  lexed : job.Lexed
  reuse : ∀ m t next, job.reusable? m = some (t, next) →
    t.Consistent ∧ t.frontier.map Leaf.asLexed = (job.leaves.drop m.position).take t.leafCount
  accept : ∀ state leaf kind, leaf ∈ job.leaves →
    job.language.actionFor state (some leaf) ≠ (kind, some .accept)

/-- The tokens are on the stack, were skipped, wait or are not read, in this order. -/
structure Machine.Lossless (job : Job) (m : Machine) : Prop where
  leaves : (forestFrontier m.stack.trees ++ m.recovery.skipped.toList).map Leaf.asLexed ++
    job.ahead m = job.leaves
  consistent : AllConsistent m.stack.trees
  idle : m.Idle → m.recovery.skipped = #[]

/-- The root has all tokens. -/
structure Outcome.Lossless (job : Job) (o : Outcome) : Prop where
  leaves : o.root.frontier.map Leaf.asLexed = job.leaves
  consistent : o.root.Consistent
  node : o.root.isNode = true

variable {job : Job} {m : Machine}

theorem allConsistent_leafTrees (leaves : Array Leaf) : AllConsistent (leafTrees leaves) :=
  allConsistent_leaves _

@[simp] theorem frontier_leafTrees (leaves : Array Leaf) :
    forestFrontier (leafTrees leaves) = leaves.toList :=
  forestFrontier_leaves _

namespace Machine

theorem lossless_start (job : Job) : Lossless job {} where
  leaves := rfl
  consistent := fun t h => by contradiction
  idle := fun _ => rfl

theorem Lossless.collectExtras (h : Lossless job m) : Lossless job (job.collectExtras m) where
  leaves := by
    rw [Job.collectExtras_stack, Job.collectExtras_recovery, Job.ahead_collectExtras, h.leaves]
  consistent := by rw [Job.collectExtras_stack]; exact h.consistent
  idle := by
    intro hidle
    rw [Job.collectExtras_recovery]
    exact h.idle (by rw [Idle, ← Job.collectExtras_recovery job m]; exact hidle)

theorem Lossless.ahead_subset (h : Lossless job m) : job.ahead m ⊆ job.leaves := by
  rw [← h.leaves]
  exact List.subset_append_right _ _

theorem Lossless.pending_lexed (h : Lossless job m) (hlexed : job.Lexed) :
    m.pending.toList.map Leaf.asLexed = m.pending.toList :=
  hlexed.map_eq (List.Subset.trans (List.subset_append_left _ _) h.ahead_subset)

theorem flush_errorState (m : Machine) : m.flush.Idle := by
  unfold flush Idle
  split
  · assumption
  · rfl

theorem Lossless.flush (h : Lossless job m) : Lossless job m.flush := by
  cases hstate : m.recovery.errorState with
  | none => rwa [flush_of_idle hstate]
  | some state =>
    have hflush : m.flush = { m with
        stack := if m.recovery.skipped.isEmpty then m.stack
          else m.stack.append (.errorNode (leafTrees m.recovery.skipped) state)
        recovery := { m.recovery with errorState := none, skipped := #[] } } := by
      unfold Machine.flush
      rw [hstate]
    have hleaves := h.leaves
    rw [hflush]
    by_cases hempty : m.recovery.skipped.isEmpty
    · have hskipped : m.recovery.skipped = #[] := by simpa using hempty
      rw [hskipped] at hleaves
      refine ⟨?_, ?_, fun _ => rfl⟩
      · simpa [hempty, Job.ahead] using hleaves
      · simpa [hempty] using h.consistent
    · refine ⟨?_, ?_, fun _ => rfl⟩
      · simpa [hempty, forestFrontier, Job.ahead] using hleaves
      · simp only [hempty, Bool.false_eq_true, if_false, Stack.trees_append]
        exact h.consistent.append fun t ht => by
          rw [List.mem_singleton.1 ht]
          exact (allConsistent_leafTrees _).errorNode state

/-- A push takes waiting extras and the next tokens. -/
theorem Lossless.push (h : Lossless job m) (hidle : m.Idle) {t : Tree} {n : Nat} (ht : t.Consistent)
    (htokens : t.frontier.map Leaf.asLexed = (job.leaves.drop m.position).take n)
    (hlexed : job.Lexed) (state : Nat) : Lossless job (m.push state t n) := by
  have htrees : (m.push state t n).stack.trees = m.stack.trees ++ (leafTrees m.pending ++ [t]) := by
    simp [Machine.push, Entry.trees, leafTrees, Function.comp_def]
  have hahead : job.ahead (m.push state t n) = job.leaves.drop (m.position + n) := rfl
  have hleaves := h.leaves
  have hpending : m.pending.toList.map Leaf.asLexed = m.pending.toList := h.pending_lexed hlexed
  refine ⟨?_, ?_, fun _ => h.idle hidle⟩
  · rw [htrees, hahead]
    change (_ ++ m.recovery.skipped.toList).map Leaf.asLexed ++ _ = _
    rw [h.idle hidle] at hleaves ⊢
    rw [Job.ahead, ← List.take_append_drop n (job.leaves.drop m.position), List.drop_drop,
      ← htokens] at hleaves
    simpa [forestFrontier, hpending] using hleaves
  · rw [htrees]
    refine h.consistent.append ((allConsistent_leafTrees _).append fun u hu => ?_)
    rw [List.mem_singleton.1 hu]
    exact ht

theorem Lossless.reduce (h : Lossless job m) {info : Table.ProductionInfo} {next state : Nat}
    (hstate : m.stack.uncovered? info.fields.size = some state) :
    Lossless job (m.reduced job.language info next) where
  leaves := by
    have hleaves := h.leaves
    rwa [← Stack.frontier_reduce (l := job.language) hstate next] at hleaves
  consistent := Stack.allConsistent_reduce hstate h.consistent next
  idle := h.idle

theorem Lossless.fail (h : Lossless job m) : Lossless job m.failed where
  leaves := h.leaves
  consistent := h.consistent
  idle := fun hidle => by contradiction

theorem Lossless.resume (h : Lossless job m) {p : Nat → Bool} {popped : List Entry} {stack : Stack}
    (hstack : m.stack.unwindTo? p = some (popped, stack)) :
    Lossless job (m.resume popped stack) := by
  have hsplit := Stack.trees_unwindTo? hstack
  have hleaves := h.leaves
  have hconsistent := h.consistent
  rw [← hsplit] at hleaves hconsistent
  have hpopped : AllConsistent (popped.flatMap (·.trees)) :=
    hconsistent.subset (List.subset_append_right _ _)
  refine ⟨?_, ?_, fun _ => rfl⟩
  · simpa [Machine.resume, forestFrontier, Job.ahead] using hleaves
  · simp only [Machine.resume, Stack.trees_append]
    refine (hconsistent.subset (List.subset_append_left _ _)).append fun t ht => ?_
    rw [List.mem_singleton.1 ht]
    exact (hpopped.append (allConsistent_leafTrees _)).errorNode _

private theorem Lossless.skip (h : Lossless job m) {leaf : Leaf}
    (hleaf : job.leaf? m.position = some leaf) (hlexed : job.Lexed) (herror : ¬ m.Idle) :
    Lossless job (m.skip leaf) := by
  have hleaves := h.leaves
  rw [Job.ahead, Job.drop_of_leaf? hleaf] at hleaves
  have hpending : m.pending.toList.map Leaf.asLexed = m.pending.toList := h.pending_lexed hlexed
  have hself : leaf.asLexed = leaf := hlexed leaf (by rw [← hleaves]; simp)
  refine ⟨?_, h.consistent, fun hidle => absurd hidle herror⟩
  simpa [Machine.skip, Job.ahead, hpending, hself] using hleaves

private theorem Lossless.accept (h : Lossless job m) (hidle : m.Idle)
    (hend : job.leaf? m.position = none) (hlexed : job.Lexed) (start : Kind) :
    (m.accept start).Lossless job := by
  have hleaves := h.leaves
  rw [h.idle hidle, Job.ahead, Job.drop_of_leaf?_eq_none hend] at hleaves
  have hpending : m.pending.toList.map Leaf.asLexed = m.pending.toList := h.pending_lexed hlexed
  refine ⟨?_, Stack.consistent_root h.consistent (allConsistent_leafTrees _) start, rfl⟩
  change (m.stack.root start (leafTrees m.pending)).frontier.map Leaf.asLexed = _
  rw [Stack.frontier_root, frontier_leafTrees, List.map_append, hpending]
  simpa using hleaves

/-- What a machine that gives up has not put on the stack. -/
theorem toList_rest (job : Job) (m : Machine) :
    (m.recovery.skipped ++ m.pending ++
      (job.stream.extract m.position job.stream.size).map (·.leaf)).toList =
        m.recovery.skipped.toList ++ job.ahead m := by
  have hunread : ((job.stream.extract m.position job.stream.size).map (·.leaf)).toList =
      job.leaves.drop m.position := by
    rw [Array.toList_map, Array.toList_extract, List.extract, Job.leaves, ← List.map_drop,
      List.take_of_length_le]
    simp
  rw [Array.toList_append, Array.toList_append, hunread, List.append_assoc, Job.ahead]

private theorem Lossless.abandon (h : Lossless job m) (hlexed : job.Lexed) :
    (m.abandon job).Lossless job := by
  let rest :=
    m.recovery.skipped ++ m.pending ++ (job.stream.extract m.position job.stream.size).map (·.leaf)
  have hrest : rest.toList = m.recovery.skipped.toList ++ job.ahead m := toList_rest job m
  have hall : (forestFrontier m.stack.trees ++ rest.toList).map Leaf.asLexed = job.leaves := by
    have hleaves := h.leaves
    rw [List.map_append, List.append_assoc, ← hlexed.map_eq h.ahead_subset,
      ← List.map_append] at hleaves
    rwa [hrest, List.map_append]
  have hlast (last : List Tree) (hl : forestFrontier last = rest.toList) (hc : AllConsistent last) :
      Outcome.Lossless job ⟨.failedRoot job.language.start (m.stack.trees ++ last),
      max m.recovery.errors 1,
        m.reusedNodes⟩ :=
    ⟨by rw [frontier_failedRoot, forestFrontier_append, hl, hall],
      (h.consistent.append hc).failedRoot _, rfl⟩
  apply hlast
  · split
    · next hempty =>
      have hnil : rest.toList.map Tree.leaf = [] := List.isEmpty_iff.1 hempty
      rw [List.map_eq_nil_iff.1 hnil]
      rfl
    · simp [forestFrontier, rest]
  · split
    · intro t ht
      contradiction
    · intro t ht
      rw [List.mem_singleton.1 ht]
      exact (allConsistent_leafTrees _).errorNode _

end Machine

namespace Job

theorem lossless_of_act (hjob : job.Sound) {progress : Progress} (hact : Act job m progress)
    (hm : m.Lossless job) :
    progress.Satisfies (Machine.Lossless job) (Outcome.Lossless job) := by
  cases hact with
  | @reuse t next found =>
    obtain ⟨hconsistent, htokens⟩ := hjob.reuse m _ _ found
    have h := hm.push (of_reusable? found).1 hconsistent htokens hjob.lexed next
    exact ⟨h.leaves, h.consistent, h.idle⟩
  | @shift leaf kind next fresh here action =>
    have htoken : (Tree.leaf (leaf.reinterpret kind)).frontier.map Leaf.asLexed =
        (job.leaves.drop m.flush.position).take 1 := by
      rw [Machine.flush_position, drop_of_leaf? here]
      simp only [Tree.frontier, List.map_cons, List.map_nil, Leaf.asLexed_reinterpret,
        List.take_succ_cons, List.take_zero]
      rw [hjob.lexed leaf
        (List.mem_of_mem_drop (by rw [drop_of_leaf? here]; exact List.mem_cons_self))]
    exact hm.flush.push (Machine.flush_errorState m) (.leaf _) htoken hjob.lexed next
  | @reduce kind production info next fresh action applies room =>
    obtain ⟨info', hinfo, h⟩ := Option.bind_eq_some_iff.1 applies
    obtain ⟨state, hstate, h⟩ := Option.bind_eq_some_iff.1 h
    obtain ⟨next', -, heq⟩ := Option.map_eq_some_iff.1 h
    simp only [Prod.mk.injEq] at heq
    obtain ⟨rfl, rfl⟩ := heq
    exact hm.reduce hstate
  | @accept kind fresh action =>
    have hend : job.leaf? m.flush.position = none := by
      rw [Machine.flush_position]
      cases hleaf : job.leaf? m.position with
      | none => rfl
      | some leaf =>
        rw [hleaf] at action
        have hmem : leaf ∈ job.leaves :=
          List.mem_of_mem_drop (by rw [drop_of_leaf? hleaf]; exact List.mem_cons_self)
        exact absurd action (hjob.accept _ leaf _ hmem)
    exact hm.flush.accept (Machine.flush_errorState m) hend hjob.lexed _
  | resume fresh action found => exact hm.fail.resume found
  | skip fresh here action => exact hm.fail.skip here hjob.lexed (Option.some_ne_none _)
  | giveUp fresh action => exact hm.fail.abandon hjob.lexed
  | stuck fresh action fails => exact hm.abandon hjob.lexed
  | overrun fresh action applies full => exact hm.abandon hjob.lexed
  | shiftAtEnd fresh here action => exact hm.flush.abandon hjob.lexed

/-- However a run ends, the root has all tokens. -/
theorem lossless_run (hjob : job.Sound) : (job.run {}).Lossless job := by
  refine run_of_invariant (fun m hm => ?_) (Machine.lossless_start job)
  exact lossless_of_act hjob (step_cases job m) hm.collectExtras

end Job
end Reparse.Parse

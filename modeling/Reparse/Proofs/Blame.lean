import Reparse.Proofs.Nodes
import Reparse.Proofs.Paths
import Reparse.Proofs.Reports

/-! # What error nodes are about

An error node stores the state in which its streak of errors began. In that state a token, or the
end of the text, had no action: the culprit. The culprit is in the node, behind the tokens that were
accepted before the streak and then taken into the node, or it follows the node, and only extras are
between. -/
namespace Reparse
open Data Grammar Text Parse Reparse.Tree

/-! ## Actions -/

/-- Only terminals have actions. -/
theorem Table.Built.isTerminal_of_action {g : Flat} {mode : Table.Mode} {t : Table}
    (h : Table.Built g mode t) (hg : g.WellFormed) {state : Nat} {kind : Kind}
    {action : Table.Action} (ha : t.action? state kind = some action) :
    g.isTerminal kind = true := by
  have hcompletes {q : Nat} {st : Table.State}
      (hst : (Table.automaton g (Table.First.compute g) mode)[state]? = some st)
      (hc : Table.Completes g (Table.Items.closure g (Table.First.compute g) st.kernel) q kind) :
      g.isTerminal kind = true := by
    obtain ⟨i, ahead, hmem, -, -, hkind⟩ := hc
    have hexact := Table.First.exact_compute hg
    have hsound := Table.Construction.sound_automaton g (Table.First.compute g) mode
    have hproper := (hsound.kernels state st hst).proper hg hexact
    have hbelow :=
      (Table.Items.completed_closure hg hexact hproper).proper.below _ hmem kind.id hkind
    simpa [Flat.isTerminal] using hbelow
  cases action with
  | shift next =>
    obtain ⟨st, -, -, hterminal⟩ := h.of_shift ha
    exact hterminal
  | reduce q =>
    obtain ⟨-, st, hst, hc⟩ := h.of_reduce ha
    exact hcompletes hst hc
  | accept =>
    obtain ⟨st, hst, hc⟩ := h.of_accept ha
    exact hcompletes hst hc

/-- What is expected in a state has an action there. -/
theorem Compilation.action_of_mem_expected (k : Compilation) {state : Nat} {kind : Kind}
    (h : kind ∈ k.language.table.expected state) :
    ∃ action, k.language.table.action? state kind = some action := by
  obtain ⟨⟨kind, action⟩, hmem, rfl⟩ := Array.mem_map.1 h
  refine ⟨action, Data.lookupSorted_kind ?_ hmem⟩
  change Data.SortedBy Kind.id (k.table.row state)
  rw [Table.row, k.tableBuilt.actions]
  cases (Table.automaton k.flat (Table.First.compute k.flat) k.mode)[state]? with
  | none => exact List.Pairwise.nil
  | some st => exact Table.sorted_resolveRow ..

/-- A token without an action has none as its own kind, and none as a word that it may stand for. -/
theorem Language.action?_of_not_hasAction {l : Language} {state : Nat} {leaf : Leaf}
    (h : l.hasAction state (some leaf) = false) : l.table.action? state leaf.kind = none ∧
      ∀ word, leaf.flags.word = true → l.word = some word → l.table.action? state word = none := by
  obtain ⟨kind, hnone⟩ := hasAction_eq_false_iff.1 h
  have hother {other : Kind} {action : Table.Action} : l.actionFor state (some leaf) ≠
      (other, some action) := by
    rw [hnone]
    simp
  have hown : l.table.action? state leaf.kind = none := by
    cases haction : l.table.action? state leaf.kind with
    | none => rfl
    | some action => exact absurd (actionFor_eq_some_iff.2 ⟨haction, .inl rfl⟩) hother
  refine ⟨hown, fun word hflag hword => ?_⟩
  cases haction : l.table.action? state word with
  | none => rfl
  | some action =>
    exact absurd (actionFor_eq_some_iff.2 ⟨haction, .inr ⟨hown, hflag, hword⟩⟩) hother

/-! ## Error nodes in trees -/

namespace Tree

/-- The error nodes of some trees have a property that may depend on the number of leaves before
them. -/
def EachError (P : Nat → Tree → Prop) (ts : List Tree) : Prop :=
  ∀ i t, Occurs ts i t → t.isErrorNode = true → P i t

/-- The state that a node stores. -/
def stateOf (t : Tree) : Nat := (t.info?.map (·.state)).getD 0

@[simp] theorem stateOf_errorNode (ts : List Tree) (state : Nat) :
    (Tree.errorNode ts state).stateOf = state :=
  state_infoOf

namespace Occurs

/-- What occurs in a tree is the tree, or is below it. -/
theorem root_or_below {root t : Tree} {i : Nat} (h : Occurs [root] i t) :
    i = 0 ∧ t = root ∨ Occurs root.children i t := by
  cases h with
  | here => exact .inl ⟨rfl, rfl⟩
  | inside below => exact .inr below
  | later behind => cases behind

private theorem frontier_split {root t : Tree} {i : Nat} (h : Occurs root.children i t) :
    ∃ before after, root.frontier = before ++ (t.frontier ++ after) ∧ before.length = i := by
  cases root with
  | leaf l => cases h
  | node info children => exact h.split

theorem mem_frontier {root t : Tree} {i : Nat} (h : Occurs root.children i t) {l : Leaf}
    (hl : l ∈ t.frontier) :
    l ∈ root.frontier := by
  obtain ⟨before, after, hsplit, -⟩ := h.frontier_split
  rw [hsplit]
  exact List.mem_append_right _ (List.mem_append_left _ hl)

/-- The text up to the end of an occurrence. -/
theorem totalLength_take {root t : Tree} {i : Nat} (h : Occurs root.children i t) :
    totalLength (root.frontier.take i) + totalLength t.frontier =
      totalLength (root.frontier.take (i + t.frontier.length)) := by
  obtain ⟨before, after, hsplit, rfl⟩ := h.frontier_split
  rw [hsplit, List.take_left, List.take_length_add_append, List.take_left, totalLength_append]

end Occurs

namespace EachError

variable {P : Nat → Tree → Prop} {ts us : List Tree}

theorem append_leaves (h : EachError P ts) (ls : List Leaf) : EachError P (ts ++ ls.map .leaf) := by
  intro i t ht herror
  rcases ht.of_append with hold | ⟨j, -, hleaf⟩
  · exact h i t hold herror
  · have hnode := hleaf.isNode_leaves
    cases t with
    | leaf l => contradiction
    | node info children => contradiction

/-- Some trees, with leaves behind them, are closed into an error. -/
theorem close {inner : List Tree} (h : EachError P (ts ++ inner)) (ls : List Leaf) (state : Nat)
    (hnew : P (forestFrontier ts).length (.errorNode (inner ++ ls.map .leaf) state)) :
    EachError P (ts ++ [.errorNode (inner ++ ls.map .leaf) state]) := by
  intro i t ht herror
  rcases ht.of_append with hold | ⟨j, rfl, hmade⟩
  · exact h i t (hold.append_left inner) herror
  · cases hmade with
    | here => exact hnew
    | inside below =>
      have hinner := h.append_leaves ls
      rw [List.append_assoc] at hinner
      exact hinner _ t (below.append_right ts) herror
    | later behind => cases behind

/-- Leaves are closed into an error. -/
theorem close_leaves (h : EachError P ts) (ls : List Leaf) (state : Nat)
    (hnew : P (forestFrontier ts).length (.errorNode (ls.map .leaf) state)) :
    EachError P (ts ++ [.errorNode (ls.map .leaf) state]) := by
  rw [← List.append_nil ts] at h
  exact h.close ls state hnew

/-- A reduction makes no error node. -/
theorem reduce {l : Language} {info : Table.ProductionInfo} {s : Stack} {state : Nat}
    (h : EachError P s.trees) (hstate : s.uncovered? info.fields.size = some state) (next : Nat) :
    EachError P (s.reduce l info next).trees := by
  rw [← Stack.trees_uncovered s info.fields.size] at h
  intro i t ht herror
  rw [Stack.trees_reduce] at ht
  rcases ht.of_append with hold | ⟨j, rfl, hnew⟩
  · exact h i t (hold.append_left _) herror
  · rcases occurs_reduced hnew with hold | ⟨-, rfl, -⟩
    · rw [Stack.treesOf_handle hstate] at hold
      exact h _ t (hold.append_right _) herror
    · have hfalse : (branchOf info.lhs ((s.handle l info).toList.dropWhile fun e => l.isTrivia e.2)
          (s.uncovered info.fields.size).top.state).isErrorNode = false := isError_infoOf
      rw [hfalse] at herror
      contradiction

/-- A node may be replaced by its children. -/
private theorem unfold {t : Tree} (h : EachError P (ts ++ t :: us)) (hnode : t.isNode = true) :
    EachError P (ts ++ (t.children ++ us)) := by
  cases t with
  | leaf l => contradiction
  | node info children =>
    intro i u hu herror
    rcases hu.of_append with hbefore | ⟨j, rfl, hbehind⟩
    · exact h i u (hbefore.append_left _) herror
    · rcases hbehind.of_append with hinside | ⟨j, rfl, hafter⟩
      · exact h _ u (Occurs.append_right (.inside hinside) ts) herror
      · exact h _ u (Occurs.append_right (.later hafter) ts) herror

/-- The root of an accepted text has the error nodes of its parts. -/
private theorem root {s : Stack} (h : EachError P s.trees) (start : Kind) (trailing : Array Leaf) :
    EachError P (s.root start (leafTrees trailing)).children := by
  have hall := h.append_leaves trailing.toList
  rcases Stack.root_cases s start (leafTrees trailing) with
      ⟨before, e, after, helements, hstart, -, hroot⟩ | ⟨-, hroot⟩
  · have htrees : s.trees ++ leafTrees trailing =
        (s.treesBelow ++ before.map (·.2)) ++ e.2 :: (after.map (·.2) ++ leafTrees trailing) := by
      rw [Stack.trees_eq_treesBelow]
      simp [Entry.trees, helements]
    have hnode : e.2.isNode = true := by
      simp only [Stack.isStart, Bool.and_eq_true] at hstart
      exact hstart.1.1
    have hchildren : (s.root start (leafTrees trailing)).children =
        (s.treesBelow ++ before.map (·.2)) ++
          (e.2.children ++ (after.map (·.2) ++ leafTrees trailing)) := by
      rw [hroot]
      change ((_ ++ _ ++ _ : List Element)).map (·.2) = _
      rw [List.map_append, List.map_append, Stack.map_bare_snd, Stack.map_bare_snd,
        labelledChildren_snd, List.append_assoc, List.append_assoc]
    rw [hchildren]
    change EachError P (s.trees ++ leafTrees trailing) at hall
    rw [htrees] at hall
    exact hall.unfold hnode
  · rw [hroot]
    change EachError P (((s.trees ++ leafTrees trailing).map Stack.bare).map (·.2))
    rw [Stack.map_bare_snd]
    exact hall

end EachError
end Tree

/-! ## Culprits -/

namespace Parse

/-- In the state of a tree that begins at token `i`, token `j` has no action, or else the end of the
text. It is no extra. It is in the tree, as it was lexed, or only extras are between it and the
tree. -/
structure Blames (l : Language) (tokens : List Leaf) (i : Nat) (t : Tree) (j : Nat) : Prop where
  fails : l.hasAction t.stateOf tokens[j]? = false
  proper : ∀ x, tokens[j]? = some x → l.isExtra x.kind = false
  le : i ≤ j
  inside : j < i + t.frontier.length → t.frontier[j - i]? = tokens[j]?
  between : ∀ n x, i + t.frontier.length ≤ n → n < j → tokens[n]? = some x → l.isExtra x.kind = true

namespace Machine

/-- The number of tokens on the stack. -/
def shifted (m : Machine) : Nat := (forestFrontier m.stack.trees).length

/-- In a state, token `j` has no action, or else the end of the text. It was skipped, or it follows
the extras that wait. -/
structure Culprit (job : Job) (m : Machine) (state j : Nat) : Prop where
  fails : job.language.hasAction state job.leaves[j]? = false
  proper : ∀ x, job.leaves[j]? = some x → job.language.isExtra x.kind = false
  le : m.shifted ≤ j
  skipped : j < m.shifted + m.recovery.skipped.size →
    m.recovery.skipped.toList[j - m.shifted]? = job.leaves[j]?
  waiting : m.shifted + m.recovery.skipped.size ≤ j →
    j = m.shifted + m.recovery.skipped.size + m.pending.size

/-- Error nodes on the stack have culprits, and an open streak of errors has skipped its own. -/
structure Blaming (job : Job) (m : Machine) : Prop where
  nodes : EachError (fun i t => ∃ j, Blames job.language job.leaves i t j) m.stack.trees
  streak : ∀ state, m.recovery.errorState = some state →
    ∃ j, m.Culprit job state j ∧ j < m.shifted + m.recovery.skipped.size

variable {job : Job} {m : Machine} {state j : Nat}

/-- What was not shifted or skipped is ahead. -/
theorem Lossless.leaf_ahead (h : m.Lossless job) (n : Nat) :
    job.leaves[m.shifted + m.recovery.skipped.size + n]? = (job.ahead m)[n]? := by
  rw [← h.leaves, List.getElem?_append_right (by simp [shifted])]
  simp [shifted]

/-- The next token is behind the extras that wait. -/
theorem Lossless.leaf_next (h : m.Lossless job) :
    job.leaves[m.shifted + m.recovery.skipped.size + m.pending.size]? = job.leaf? m.position := by
  rw [h.leaf_ahead, Job.ahead, List.getElem?_append_right (by simp)]
  simp [Job.leaf?_eq]

/-- A machine without an action has found a culprit, or is in a streak that has one. -/
private theorem Blaming.culprit (h : m.Blaming job) (hlossless : m.Lossless job)
    (hat : job.AtToken m)
    (hfails : job.language.hasAction m.stack.top.state (job.leaf? m.position) = false) :
    ∃ state j, m.failed.recovery.errorState = some state ∧ m.Culprit job state j := by
  cases hstate : m.recovery.errorState with
  | some state =>
    obtain ⟨j, hculprit, -⟩ := h.streak state hstate
    refine ⟨state, j, ?_, hculprit⟩
    change some (m.recovery.errorState.getD m.stack.top.state) = _
    rw [hstate]
    rfl
  | none =>
    refine ⟨m.stack.top.state, m.shifted + m.recovery.skipped.size + m.pending.size, ?_, ?_⟩
    · change some (m.recovery.errorState.getD m.stack.top.state) = _
      rw [hstate]
      rfl
    · refine ⟨by rw [hlossless.leaf_next]; exact hfails, fun x hx => ?_, by omega,
        fun hlt => by omega, fun _ => rfl⟩
      rw [hlossless.leaf_next] at hx
      exact hat x hx

namespace Culprit

/-- Tokens that were skipped become an error node. -/
private theorem blames (h : m.Culprit job state j)
    (hskipped : j < m.shifted + m.recovery.skipped.size) :
    Blames job.language job.leaves m.shifted
      (.errorNode (leafTrees m.recovery.skipped) state) j := by
  refine ⟨by simpa using h.fails, h.proper, h.le, fun hlt => ?_, fun n x hle hlt => ?_⟩
  · rw [frontier_errorNode, frontier_leafTrees]
    exact h.skipped hskipped
  · rw [frontier_errorNode, frontier_leafTrees, Array.length_toList] at hle
    omega

/-- Popped trees and skipped tokens become an error node. -/
private theorem blames_resumed (h : m.Culprit job state j) (hlossless : m.Lossless job)
    (hwaiting : job.WaitingExtras m) {r popped : List Tree} (hsplit : r ++ popped = m.stack.trees) :
    Blames job.language job.leaves (forestFrontier r).length
      (.errorNode (popped ++ leafTrees m.recovery.skipped) state) j := by
  have hshifted : m.shifted = (forestFrontier r).length + (forestFrontier popped).length := by
    rw [shifted, ← hsplit, forestFrontier_append, List.length_append]
  have hfrontier : (Tree.errorNode (popped ++ leafTrees m.recovery.skipped) state).frontier =
      forestFrontier popped ++ m.recovery.skipped.toList := by
    rw [frontier_errorNode, forestFrontier_append, frontier_leafTrees]
  have hlength : (Tree.errorNode (popped ++ leafTrees m.recovery.skipped) state).frontier.length =
      (forestFrontier popped).length + m.recovery.skipped.size := by
    have hskipped : m.recovery.skipped.toList.length = m.recovery.skipped.size :=
      Array.length_toList
    rw [hfrontier, List.length_append, hskipped]
  have hle := h.le
  refine ⟨by simpa using h.fails, h.proper, by omega, fun hlt => ?_, fun n x hn hlt hx => ?_⟩
  · rw [← h.skipped (by omega), hfrontier, List.getElem?_append_right (by omega)]
    congr 1
    omega
  · have hj := h.waiting (by omega)
    have hn' : n = m.shifted + m.recovery.skipped.size +
        (n - m.shifted - m.recovery.skipped.size) := by omega
    have hpending : m.pending.toList.length = m.pending.size := Array.length_toList
    rw [hn', hlossless.leaf_ahead, Job.ahead, List.getElem?_append_left (by omega)] at hx
    exact hwaiting x (Array.mem_toList_iff.1 (List.mem_of_getElem? hx))

/-- All that is not on the stack becomes an error node. -/
private theorem blames_rest (h : m.Culprit job state j) (hlossless : m.Lossless job)
    {rest : Array Leaf} (hrest : rest.toList = m.recovery.skipped.toList ++ job.ahead m) :
    Blames job.language job.leaves m.shifted (.errorNode (leafTrees rest) state) j := by
  have hfrontier : (Tree.errorNode (leafTrees rest) state).frontier =
      m.recovery.skipped.toList ++ job.ahead m := by
    rw [frontier_errorNode, frontier_leafTrees, hrest]
  have hlength : job.leaves.length =
      m.shifted + (m.recovery.skipped.toList ++ job.ahead m).length := by
    rw [← hlossless.leaves]
    simp [shifted]
  refine ⟨by simpa using h.fails, h.proper, h.le, fun _ => ?_, fun n x hn _ hx => ?_⟩
  · have hle := h.le
    rw [hfrontier]
    by_cases hskipped : j < m.shifted + m.recovery.skipped.size
    · rw [List.getElem?_append_left (by rw [Array.length_toList]; omega)]
      exact h.skipped hskipped
    · have hj : j = m.shifted + m.recovery.skipped.size +
          (j - m.shifted - m.recovery.skipped.size) := by omega
      rw [List.getElem?_append_right (by rw [Array.length_toList]; omega)]
      conv => rhs; rw [hj]
      rw [hlossless.leaf_ahead, Array.length_toList]
  · rw [hfrontier, ← hlength] at hn
    rw [List.getElem?_eq_none hn] at hx
    contradiction

end Culprit

namespace Blaming

private theorem start (job : Job) : Blaming job {} where
  nodes := fun i t ht _ => by cases ht
  streak := nofun

private theorem collectExtras (h : m.Blaming job) : (job.collectExtras m).Blaming job where
  nodes := by
    rw [Job.collectExtras_stack]
    exact h.nodes
  streak := by
    intro state hstate
    rw [Job.collectExtras_recovery] at hstate
    obtain ⟨j, hculprit, hlt⟩ := h.streak state hstate
    have hshifted : (job.collectExtras m).shifted = m.shifted := by
      rw [shifted, shifted, Job.collectExtras_stack]
    refine ⟨j, ⟨hculprit.fails, hculprit.proper, ?_, ?_, fun hle => ?_⟩, ?_⟩
    · rw [hshifted]
      exact hculprit.le
    · rw [hshifted, Job.collectExtras_recovery]
      exact hculprit.skipped
    · rw [hshifted, Job.collectExtras_recovery] at hle
      omega
    · rwa [hshifted, Job.collectExtras_recovery]

/-- The end of a streak makes a node with its culprit. -/
private theorem flush (h : m.Blaming job) : m.flush.Blaming job := by
  cases hstate : m.recovery.errorState with
  | none => rwa [flush_of_idle hstate]
  | some state =>
    obtain ⟨j, hculprit, hlt⟩ := h.streak state hstate
    unfold Machine.flush
    rw [hstate]
    refine ⟨?_, nofun⟩
    simp only
    split
    · exact h.nodes
    · rw [Stack.trees_append]
      exact h.nodes.close_leaves m.recovery.skipped.toList state ⟨j, hculprit.blames hlt⟩

private theorem push (h : m.Blaming job) (hidle : m.Idle) (l : Leaf) (next tokens : Nat) :
    (m.push next (.leaf l) tokens).Blaming job where
  nodes := by
    have htrees : leafTrees m.pending ++ [.leaf l] = (m.pending.toList ++ [l]).map Tree.leaf := by
      simp [leafTrees]
    rw [trees_pushed, htrees]
    exact h.nodes.append_leaves _
  streak := by
    intro state hstate
    change m.recovery.errorState = some state at hstate
    rw [show m.recovery.errorState = none from hidle] at hstate
    contradiction

private theorem reduced (h : m.Blaming job) {info : Table.ProductionInfo} {base : Nat}
    (hbase : m.stack.uncovered? info.fields.size = some base) (next : Nat) :
    (m.reduced job.language info next).Blaming job where
  nodes := h.nodes.reduce hbase next
  streak := by
    intro state hstate
    obtain ⟨j, hculprit, hlt⟩ := h.streak state hstate
    have hshifted : (m.reduced job.language info next).shifted = m.shifted :=
      congrArg List.length (Stack.frontier_reduce hbase next)
    refine ⟨j, ⟨hculprit.fails, hculprit.proper, ?_, ?_, ?_⟩, ?_⟩
    · rw [hshifted]
      exact hculprit.le
    · rw [hshifted]
      exact hculprit.skipped
    · rw [hshifted]
      exact hculprit.waiting
    · rw [hshifted]
      exact hlt

private theorem resume (h : m.Blaming job) (hlossless : m.Lossless job)
    (hwaiting : job.WaitingExtras m) (hfound : m.failed.recovery.errorState = some state)
    (hculprit : m.Culprit job state j) {p : Nat → Bool} {popped : List Entry} {stack : Stack}
    (found : m.stack.unwindTo? p = some (popped, stack)) :
    (m.failed.resume popped stack).Blaming job := by
  have hsplit := Stack.trees_unwindTo? found
  have hnodes := h.nodes
  rw [← hsplit] at hnodes
  refine ⟨?_, nofun⟩
  change EachError _
      (stack.append (.errorNode (popped.flatMap (·.trees) ++ leafTrees m.recovery.skipped)
    (m.failed.recovery.errorState.getD stack.top.state))).trees
  rw [Stack.trees_append, hfound]
  exact hnodes.close m.recovery.skipped.toList state
    ⟨j, hculprit.blames_resumed hlossless hwaiting hsplit⟩

private theorem skip (h : m.Blaming job) (hlossless : m.Lossless job)
    (hfound : m.failed.recovery.errorState = some state) (hculprit : m.Culprit job state j)
    {l : Leaf} (here : job.leaf? m.position = some l) :
    (m.failed.skip l).Blaming job where
  nodes := h.nodes
  streak := by
    intro state' hstate'
    obtain rfl := Option.some.inj (hfound.symm.trans hstate')
    have hshifted : (m.failed.skip l).shifted = m.shifted := rfl
    have hlist : (m.failed.skip l).recovery.skipped.toList = m.recovery.skipped.toList ++
        (m.pending.toList ++ [l]) := by
      simp [Machine.skip, failed, Recovery.fail]
    have hsize : (m.failed.skip l).recovery.skipped.size = m.recovery.skipped.size +
        m.pending.size + 1 := by
      simp [Machine.skip, failed, Recovery.fail, Nat.add_assoc]
    have hle := hculprit.le
    have hskipped : m.recovery.skipped.toList.length = m.recovery.skipped.size :=
      Array.length_toList
    have hpending : m.pending.toList.length = m.pending.size := Array.length_toList
    have hlt : j < m.shifted + (m.recovery.skipped.size + m.pending.size + 1) := by
      by_cases hbefore : j < m.shifted + m.recovery.skipped.size
      · omega
      · have := hculprit.waiting (by omega)
        omega
    refine ⟨j, ⟨hculprit.fails, hculprit.proper, hculprit.le, fun _ => ?_, fun hge => ?_⟩, ?_⟩
    · rw [hshifted, hlist]
      by_cases hbefore : j < m.shifted + m.recovery.skipped.size
      · rw [List.getElem?_append_left (by omega)]
        exact hculprit.skipped hbefore
      · have hj := hculprit.waiting (by omega)
        have hindex : j - m.shifted = m.recovery.skipped.toList.length +
            (m.pending.toList.length + 0) := by omega
        rw [hindex, List.getElem?_append_right (by omega), Nat.add_sub_cancel_left,
          List.getElem?_append_right (by omega), hj, hlossless.leaf_next, here]
        simp
    · rw [hshifted, hsize] at hge
      omega
    · rw [hshifted, hsize]
      exact hlt

/-- Who gives up at an error makes a node with a culprit. -/
theorem abandon (h : m.Blaming job) (hlossless : m.Lossless job)
    (hfound : m.failed.recovery.errorState = some state) (hculprit : m.Culprit job state j) :
    EachError (fun i t => ∃ j, Blames job.language job.leaves i t j)
      (m.failed.abandon job).root.children := by
  let rest :=
    m.recovery.skipped ++ m.pending ++ (job.stream.extract m.position job.stream.size).map (·.leaf)
  have hrest : rest.toList = m.recovery.skipped.toList ++ job.ahead m := toList_rest job m
  change EachError _ (m.stack.trees ++ if (leafTrees rest).isEmpty then [] else
    [.errorNode (leafTrees rest) (m.failed.recovery.errorState.getD m.stack.top.state)])
  rw [hfound]
  split
  · rw [List.append_nil]
    exact h.nodes
  · exact h.nodes.close_leaves rest.toList state ⟨j, hculprit.blames_rest hlossless hrest⟩

end Blaming
end Machine

variable {k : Compilation} {job : Job} {m : Machine}

/-- A step keeps culprits. A run that ends does so with culprits for all error nodes below the root,
unless there are too many reductions. -/
theorem Job.Scratch.blaming_of_act (hjob : job.Scratch k) {progress : Progress}
    (hact : Act job m progress) (hpath : m.stack.OnPath k) (hat : job.AtToken m)
    (hlossless : m.Lossless job) (hwaiting : job.WaitingExtras m) (h : m.Blaming job) :
    progress.Satisfies (Machine.Blaming job) fun o =>
      EachError (fun i t => ∃ j, Blames job.language job.leaves i t j) o.root.children ∨
        reductionLimit ≤ m.reductions ∧ ∃ kind production,
          job.language.actionFor m.stack.top.state (job.leaf? m.position) =
            (kind, some (.reduce production)) := by
  have hmissing {kind : Kind}
      (haction : job.language.actionFor m.stack.top.state (job.leaf? m.position) = (kind, none)) :=
    h.culprit hlossless hat (Language.hasAction_eq_false_iff.2 ⟨kind, haction⟩)
  cases hact with
  | reuse found =>
    rw [hjob.reusable?] at found
    contradiction
  | shift => exact h.flush.push m.flush_errorState _ _ _
  | reduce _ _ applies =>
    obtain ⟨-, state, hstate, -⟩ := Job.reduction?_eq_some_iff.1 applies
    exact h.reduced hstate _
  | accept => exact .inl (h.flush.nodes.root _ _)
  | resume _ action found =>
    obtain ⟨state, j, hfound, hculprit⟩ := hmissing action
    exact h.resume hlossless hwaiting hfound hculprit found
  | skip _ here action =>
    rw [← here] at action
    obtain ⟨state, j, hfound, hculprit⟩ := hmissing action
    exact h.skip hlossless hfound hculprit here
  | giveUp _ action =>
    obtain ⟨state, j, hfound, hculprit⟩ := hmissing action
    exact .inl (h.abandon hlossless hfound hculprit)
  | stuck _ action fails =>
    obtain ⟨p, state, next, -, -, -, -, -, info, happlies⟩ :=
      Job.exists_reduction hjob.language hpath action
    rw [fails] at happlies
    contradiction
  | overrun _ action _ full => exact .inr ⟨full, _, _, action⟩
  | shiftAtEnd _ _ action => exact absurd action (Job.actionFor_end_ne_shift hjob.language _ _ _)

/-- A run from scratch that does not stop at too many reductions ends with culprits for all error
nodes below the root. -/
theorem Job.Scratch.blaming_run (hjob : job.Scratch k) :
    EachError (fun i t => ∃ j, Blames job.language job.leaves i t j) (job.run {}).root.children ∨
      ∃ m, job.Reaches {} m ∧ job.Overruns m := by
  let inv (m : Machine) : Prop :=
    job.Reaches {} m ∧ m.Lossless job ∧ job.WaitingExtras m ∧ m.Blaming job
  let good (o : Outcome) : Prop :=
    EachError (fun i t => ∃ j, Blames job.language job.leaves i t j) o.root.children ∨
    ∃ m, job.Reaches {} m ∧ job.Overruns m
  change good (job.run {})
  refine Job.run_of_invariant (fun m (hm : inv m) => ?_)
    ⟨.refl, Machine.lossless_start job, fun l h => absurd h (Array.not_mem_empty l), .start job⟩
  obtain ⟨hreaches, hlossless, hwaiting, hblaming⟩ := hm
  have hact := Job.step_cases job m
  have hwaiting := Job.waitingExtras_collectExtras hwaiting
  have hpath : (job.collectExtras m).stack.OnPath k := by
    rw [Job.collectExtras_stack]
    exact Job.onPath_of_reaches hjob.language hreaches
  have hlossless' := Job.lossless_of_act hjob.sound hact hlossless.collectExtras
  have hwaiting' := Job.waitingExtras_of_act hact hwaiting
  have hblaming' := hjob.blaming_of_act hact hpath (Job.atToken_collectExtras job m)
    hlossless.collectExtras hwaiting hblaming.collectExtras
  cases hnext : job.step m with
  | next n =>
    rw [hnext] at hlossless' hwaiting' hblaming'
    exact ⟨hreaches.tail hnext, hlossless', hwaiting', hblaming'⟩
  | done o =>
    rw [hnext] at hblaming'
    rcases hblaming' with hnodes | ⟨hfull, haction⟩
    · exact .inl hnodes
    · rw [Job.collectExtras_reductions] at hfull
      exact .inr ⟨m, hreaches, hfull, haction⟩

end Parse

end Reparse

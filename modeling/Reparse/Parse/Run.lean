import Reparse.Parse.Reuse
import Reparse.Parse.Stack

/-! # Runs of the parser -/
namespace Reparse.Parse

structure Config where
  /-- Without recovery the first error ends the parse. -/
  errorRecovery : Bool := true
  /-- More errors end the parse. -/
  maxErrors : Nat := 100
  /-- After this many attempts to recover at one token the token is skipped. -/
  maxAttempts : Nat := 8
  /-- Take over subtrees of the previous tree, not only tokens. -/
  reuseNodes : Bool := true
deriving DecidableEq, Inhabited

/-- More reductions than this between two tokens end the parse. -/
def reductionLimit : Nat := 65536

/-- What a run knows and does not change. -/
structure Job where
  language : Language
  config : Config
  stream : Array StreamToken
  reuse : Option Reuse := none

/-- Error recovery. -/
structure Recovery where
  /-- The state in which the current streak of errors began. -/
  errorState : Option Nat := none
  /-- Tokens that were skipped in this streak. -/
  skipped : Array Leaf := #[]
  /-- The number of streaks. -/
  errors : Nat := 0
  attempts : Nat := 0
  /-- The token at which attempts are counted. -/
  attemptPosition : Nat := 0
deriving Inhabited

/-- Notes that `state` has no action for the token at `position`. -/
def Recovery.fail (r : Recovery) (state position : Nat) : Recovery :=
  { r with
    errorState := some (r.errorState.getD state)
    errors := if r.errorState.isNone then r.errors + 1 else r.errors
    attempts := if position = r.attemptPosition then r.attempts + 1 else 1
    attemptPosition := position }

structure Machine where
  stack : Stack := .initial
  /-- Extras that wait for the next push. -/
  pending : Array Leaf := #[]
  /-- The number of tokens that were read. -/
  position : Nat := 0
  /-- Reductions since the last push of a token or an old subtree. -/
  reductions : Nat := 0
  recovery : Recovery := {}
  reusedNodes : Nat := 0
deriving Inhabited

structure Outcome where
  root : Tree
  errors : Nat
  reusedNodes : Nat
deriving Inhabited

/-- The result of one step. -/
inductive Progress where
  | next (m : Machine)
  | done (o : Outcome)

def leafTrees (leaves : Array Leaf) : List Tree := leaves.toList.map .leaf

namespace Machine

/-- Pushes a tree behind the waiting extras. -/
def push (m : Machine) (state : Nat) (t : Tree) (tokens : Nat) : Machine :=
  { m with
    stack := m.stack.push ⟨state, (m.pending.map fun l => (none, .leaf l)).push (none, t)⟩
    pending := #[]
    position := m.position + tokens
    reductions := 0 }

/-- Ends a streak of errors: skipped tokens become an error node. -/
def flush (m : Machine) : Machine :=
  match m.recovery.errorState with
  | none => m
  | some state =>
    { m with
      stack := if m.recovery.skipped.isEmpty then m.stack
        else m.stack.append (.errorNode (leafTrees m.recovery.skipped) state)
      recovery := { m.recovery with errorState := none, skipped := #[] } }

theorem flush_position (m : Machine) : m.flush.position = m.position := by
  unfold flush
  split <;> rfl

def accept (m : Machine) (start : Kind) : Outcome :=
  ⟨m.stack.root start (leafTrees m.pending), m.recovery.errors, m.reusedNodes⟩

/-- Gives up: skipped tokens and the rest of the text go into one error node. -/
def abandon (m : Machine) (job : Job) : Outcome :=
  let unread := (job.stream.extract m.position job.stream.size).map (·.leaf)
  let rest := leafTrees (m.recovery.skipped ++ m.pending ++ unread)
  let last :=
    if rest.isEmpty then [] else [.errorNode rest (m.recovery.errorState.getD m.stack.top.state)]
  ⟨.failedRoot job.language.start (m.stack.trees ++ last), max m.recovery.errors 1, m.reusedNodes⟩

/-- Closes the entries above a state that can go on, together with skipped tokens, into an error
node. -/
def resume (m : Machine) (popped : List Entry) (stack : Stack) : Machine :=
  let inner := popped.flatMap (·.trees) ++ leafTrees m.recovery.skipped
  { m with
    stack := stack.append (.errorNode inner (m.recovery.errorState.getD stack.top.state))
    recovery := { m.recovery with errorState := none, skipped := #[] } }

def skip (m : Machine) (leaf : Leaf) : Machine :=
  { m with
    pending := #[]
    position := m.position + 1
    recovery := { m.recovery with skipped := (m.recovery.skipped ++ m.pending).push leaf } }

end Machine

namespace Job

def leaf? (job : Job) (position : Nat) : Option Leaf := job.stream[position]?.map (·.leaf)

/-- Moves on to a token that is not an extra. -/
def collectExtras (job : Job) (m : Machine) : Machine :=
  if h : m.position < job.stream.size then
    let leaf := job.stream[m.position].leaf
    if job.language.isExtra leaf.kind then
      job.collectExtras { m with pending := m.pending.push leaf, position := m.position + 1 }
    else m
  else m
termination_by job.stream.size - m.position

/-- An old subtree to push; none while an error is open. -/
def reusable? (job : Job) (m : Machine) : Option (Tree × Nat) :=
  if m.recovery.errorState.isSome then none
  else job.reuse.bind (·.candidate? job.language job.stream m.position m.stack.top.state)

/-- A production with the state to go to after its reduction, if it can be reduced. -/
def reduction? (job : Job) (m : Machine) (production : Nat) :
    Option (Table.ProductionInfo × Nat) := do
  let info ← job.language.table.productions[production]?
  let state ← m.stack.uncovered? info.fields.size
  (job.language.table.goto? state info.lhs).map (info, ·)

/-- A missing action: go back to a state that has one, or else skip the token. -/
def recover (job : Job) (m : Machine) : Progress :=
  let m := { m with recovery := m.recovery.fail m.stack.top.state m.position }
  if !job.config.errorRecovery || job.config.maxErrors < m.recovery.errors then
    .done (m.abandon job)
  else
    let leaf? := job.leaf? m.position
    match (if m.recovery.attempts ≤ job.config.maxAttempts then
        m.stack.unwindTo? fun state => job.language.hasAction state leaf? else none) with
    | some (popped, stack) => .next (m.resume popped stack)
    | none => match leaf? with
      | some leaf => .next (m.skip leaf)
      | none => .done (m.abandon job)

/-- One step at a token that is not an extra. -/
def act (job : Job) (m : Machine) : Progress :=
  match job.reusable? m with
  | some (t, next) => .next { m.push next t t.leafCount with reusedNodes := m.reusedNodes + 1 }
  | none =>
    match job.language.actionFor m.stack.top.state (job.leaf? m.position) with
    | (kind, some (.shift next)) => match job.leaf? m.position with
      | some leaf => .next (m.flush.push next (.leaf (leaf.reinterpret kind)) 1)
      | none => .done (m.flush.abandon job)
    | (_, some (.reduce production)) => match job.reduction? m production with
      | some (info, next) =>
        if m.reductions < reductionLimit then
          .next { m with
            stack := m.stack.reduce job.language info next
            reductions := m.reductions + 1 }
        else .done (m.abandon job)
      | none => .done (m.abandon job)
    | (_, some .accept) => .done (m.flush.accept job.language.start)
    | (_, none) => job.recover m

def step (job : Job) (m : Machine) : Progress := job.act (job.collectExtras m)

/-- What falls in every step: tokens left, then reductions left, then the height of the stack. -/
def left (job : Job) (m : Machine) : Nat × Nat × Nat :=
  (job.stream.size - m.position, reductionLimit - m.reductions, m.stack.below.length)

/-- Lexicographic order of such triples. -/
def Fewer (a b : Nat × Nat × Nat) : Prop := Prod.Lex (· < ·) (Prod.Lex (· < ·) (· < ·)) a b

theorem position_le_collectExtras (job : Job) (m : Machine) :
    m.position ≤ (job.collectExtras m).position := by
  fun_induction collectExtras job m with
  | case1 m h leaf hextra ih => exact Nat.le_of_succ_le ih
  | case2 => exact Nat.le_refl _
  | case3 => exact Nat.le_refl _

theorem collectExtras_reductions (job : Job) (m : Machine) :
    (job.collectExtras m).reductions = m.reductions := by
  fun_induction collectExtras job m with
  | case1 m h leaf hextra ih => exact ih
  | case2 => rfl
  | case3 => rfl

theorem collectExtras_stack (job : Job) (m : Machine) : (job.collectExtras m).stack = m.stack := by
  fun_induction collectExtras job m with
  | case1 m h leaf hextra ih => exact ih
  | case2 => rfl
  | case3 => rfl

theorem lt_size_of_leaf? {job : Job} {position : Nat} {leaf : Leaf}
    (h : job.leaf? position = some leaf) :
    position < job.stream.size := by
  obtain ⟨t, ht, -⟩ := Option.map_eq_some_iff.1 h
  exact (Array.getElem?_eq_some_iff.1 ht).1

theorem fewer_of_position {a b a' b' c c' : Nat} (h : a < a') : Fewer (a, b, c) (a', b', c') :=
  .left _ _ h

private theorem fewer_of_recover {job : Job} {m n : Machine} (h : job.recover m = .next n) :
    Fewer (job.left n) (job.left m) := by
  simp only [recover] at h
  split at h
  · contradiction
  · split at h
    · next popped stack hu =>
      injection h with h
      subst h
      split at hu
      · have hb := Stack.below_lt_of_unwindTo? hu
        exact .right _ (.right _ hb)
      · contradiction
    · split at h
      · next leaf hl =>
        injection h with h
        subst h
        have := lt_size_of_leaf? hl
        exact fewer_of_position (by simp only [Machine.skip]; omega)
      · contradiction

private theorem lt_size_of_reusable? {job : Job} {m : Machine} {t : Tree} {next : Nat}
    (h : job.reusable? m = some (t, next)) :
    m.position < job.stream.size ∧ 0 < t.leafCount := by
  unfold reusable? at h
  split at h
  · contradiction
  · obtain ⟨r, -, hc⟩ := Option.bind_eq_some_iff.1 h
    exact Reuse.lt_size_of_candidate? hc

private theorem fewer_of_act {job : Job} {m n : Machine} (h : job.act m = .next n) :
    Fewer (job.left n) (job.left m) := by
  simp only [act] at h
  split at h
  · next t next hr =>
    injection h with h
    subst h
    obtain ⟨hp, ht⟩ := lt_size_of_reusable? hr
    exact fewer_of_position (by simp only [Machine.push]; omega)
  · split at h
    · split at h
      · next leaf hl =>
        injection h with h
        subst h
        have := lt_size_of_leaf? hl
        exact fewer_of_position (by simp only [Machine.push, Machine.flush_position]; omega)
      · contradiction
    · split at h
      · split at h
        · injection h with h
          subst h
          exact .right _ (.left _ _ (by simp only; omega))
        · contradiction
      · contradiction
    · contradiction
    · exact fewer_of_recover h

private theorem fewer_of_step {job : Job} {m n : Machine} (h : job.step m = .next n) :
    Fewer (job.left n) (job.left m) := by
  have hle : Fewer (job.left n) (job.left (job.collectExtras m)) := fewer_of_act h
  rcases Nat.lt_or_eq_of_le (Nat.sub_le_sub_left (position_le_collectExtras job m) job.stream.size)
      with hlt | heq
  · rcases Prod.lex_def.1 hle with h1 | ⟨h1, -⟩
    · exact fewer_of_position (by simp only [left] at h1; omega)
    · exact fewer_of_position (by simp only [left] at h1; omega)
  · have : job.left (job.collectExtras m) = job.left m := by
      simp only [left, collectExtras_reductions, collectExtras_stack, heq]
    exact this ▸ hle

/-- Steps until the text is accepted or given up. -/
def run (job : Job) (m : Machine) : Outcome :=
  match _h : job.step m with
  | .next n => job.run n
  | .done o => o
termination_by job.left m
decreasing_by exact fewer_of_step _h

end Job
end Reparse.Parse

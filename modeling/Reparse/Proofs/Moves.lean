import Mathlib.Logic.Relation
import Reparse.Parse.Run

/-! # What one step of the parser can do -/
namespace Reparse.Parse

/-- The machine or the outcome is as expected. -/
def Progress.Satisfies (inv : Machine → Prop) (good : Outcome → Prop) : Progress → Prop
  | .next m => inv m
  | .done o => good o

namespace Machine

/-- The machine after its action turned out to be missing. -/
def failed (m : Machine) : Machine :=
  { m with recovery := m.recovery.fail m.stack.top.state m.position }

/-- The machine after a reduction. -/
def reduced (m : Machine) (l : Language) (info : Table.ProductionInfo) (next : Nat) : Machine :=
  { m with stack := m.stack.reduce l info next, reductions := m.reductions + 1 }

/-- The machine after it took over an old subtree. -/
def reused (m : Machine) (t : Tree) (next : Nat) : Machine :=
  { m.push next t t.leafCount with reusedNodes := m.reusedNodes + 1 }

/-- No streak of errors is open. -/
def Idle (m : Machine) : Prop := m.recovery.errorState = none

theorem flush_of_idle {m : Machine} (h : m.Idle) : m.flush = m := by
  unfold flush
  rw [show m.recovery.errorState = none from h]

theorem pending_flush (m : Machine) : m.flush.pending = m.pending := by
  unfold flush
  split <;> rfl

end Machine

namespace Job

/-- The tokens of the text as leaves. -/
def leaves (job : Job) : List Leaf := job.stream.toList.map (·.leaf)

theorem leaf?_eq (job : Job) (position : Nat) : job.leaf? position = job.leaves[position]? := by
  simp [leaf?, leaves]

theorem drop_of_leaf? {job : Job} {position : Nat} {leaf : Leaf}
    (h : job.leaf? position = some leaf) :
    job.leaves.drop position = leaf :: job.leaves.drop (position + 1) := by
  rw [leaf?_eq] at h
  obtain ⟨hlt, rfl⟩ := List.getElem?_eq_some_iff.1 h
  exact List.drop_eq_getElem_cons hlt

theorem drop_of_leaf?_eq_none {job : Job} {position : Nat} (h : job.leaf? position = none) :
    job.leaves.drop position = [] := by
  rw [leaf?_eq] at h
  exact List.drop_eq_nil_of_le (List.getElem?_eq_none_iff.1 h)

/-- What is not on the stack and was not skipped: the waiting extras and the unread tokens. -/
def ahead (job : Job) (m : Machine) : List Leaf := m.pending.toList ++ job.leaves.drop m.position

/-- The machine stands at a token that is not an extra, or at the end. -/
def AtToken (job : Job) (m : Machine) : Prop :=
  ∀ leaf, job.leaf? m.position = some leaf → job.language.isExtra leaf.kind = false

theorem atToken_collectExtras (job : Job) (m : Machine) : job.AtToken (job.collectExtras m) := by
  fun_induction collectExtras job m with
  | case1 m h leaf hextra ih => exact ih
  | case2 m h leaf hextra =>
    intro other ho
    have : job.leaf? m.position = some leaf := by simp [leaf?, h, leaf]
    rw [this, Option.some.injEq] at ho
    simpa [← ho] using hextra
  | case3 m h =>
    intro leaf hl
    exact absurd (lt_size_of_leaf? hl) h

theorem collectExtras_of_atToken {job : Job} {m : Machine} (h : job.AtToken m) :
    job.collectExtras m = m := by
  rw [collectExtras]
  split
  · next hlt =>
    have : job.language.isExtra job.stream[m.position].leaf.kind = false :=
      h _ (by simp [leaf?, hlt])
    simp [this]
  · rfl

theorem ahead_collectExtras (job : Job) (m : Machine) :
    job.ahead (job.collectExtras m) = job.ahead m := by
  fun_induction collectExtras job m with
  | case1 m h leaf hextra ih =>
    rw [ih]
    have hl : job.leaf? m.position = some leaf := by simp [leaf?, h, leaf]
    simp [ahead, drop_of_leaf? hl]
  | case2 => rfl
  | case3 => rfl

theorem collectExtras_recovery (job : Job) (m : Machine) :
    (job.collectExtras m).recovery = m.recovery := by
  fun_induction collectExtras job m with
  | case1 m h leaf hextra ih => exact ih
  | case2 => rfl
  | case3 => rfl

/-- Only extras wait. -/
def WaitingExtras (job : Job) (m : Machine) : Prop :=
  ∀ leaf ∈ m.pending, job.language.isExtra leaf.kind = true

theorem waitingExtras_collectExtras {job : Job} {m : Machine} (h : job.WaitingExtras m) :
    job.WaitingExtras (job.collectExtras m) := by
  fun_induction collectExtras job m with
  | case1 m hlt leaf hextra ih =>
    refine ih fun other ho => ?_
    rcases Array.mem_push.1 ho with ho | rfl
    · exact h other ho
    · exact hextra
  | case2 => exact h
  | case3 => exact h

theorem of_reusable? {job : Job} {m : Machine} {t : Tree} {next : Nat}
    (h : job.reusable? m = some (t, next)) :
    m.Idle ∧ ∃ r, job.reuse = some r ∧
      r.candidate? job.language job.stream m.position m.stack.top.state = some (t, next) := by
  unfold reusable? at h
  split at h
  · contradiction
  · next hidle =>
    obtain ⟨r, hr, hcandidate⟩ := Option.bind_eq_some_iff.1 h
    exact ⟨by simpa [Machine.Idle] using hidle, r, hr, hcandidate⟩

theorem reduction?_eq_some_iff {job : Job} {m : Machine} {production next : Nat}
    {info : Table.ProductionInfo} :
    job.reduction? m production = some (info, next) ↔
      job.language.table.productions[production]? = some info ∧
      ∃ state, m.stack.uncovered? info.fields.size = some state ∧
        job.language.table.goto? state info.lhs = some next := by
  simp only [reduction?, Option.bind_eq_bind, Option.bind_eq_some_iff, Option.map_eq_some_iff,
    Prod.mk.injEq]
  constructor
  · rintro ⟨info', hinfo, state, hstate, next', hnext, rfl, rfl⟩
    exact ⟨hinfo, state, hstate, hnext⟩
  · rintro ⟨hinfo, state, hstate, hnext⟩
    exact ⟨info, hinfo, state, hstate, next, hnext, rfl, rfl⟩

/-- What a machine at a token can do. -/
inductive Act (job : Job) (m : Machine) : Progress → Prop
  /-- Pushes an old subtree. -/
  | reuse {t next} (found : job.reusable? m = some (t, next)) : Act job m (.next (m.reused t next))
  /-- Pushes the token. -/
  | shift {leaf kind next} (fresh : job.reusable? m = none)
      (here : job.leaf? m.position = some leaf)
      (action : job.language.actionFor m.stack.top.state (some leaf) = (kind, some (.shift next))) :
      Act job m (.next (m.flush.push next (.leaf (leaf.reinterpret kind)) 1))
  /-- Replaces a right-hand side. -/
  | reduce {kind production info next} (fresh : job.reusable? m = none)
      (action : job.language.actionFor m.stack.top.state (job.leaf? m.position) =
        (kind, some (.reduce production)))
      (applies : job.reduction? m production = some (info, next))
      (room : m.reductions < reductionLimit) : Act job m (.next (m.reduced job.language info next))
  /-- Completes the tree. -/
  | accept {kind} (fresh : job.reusable? m = none)
      (action : job.language.actionFor m.stack.top.state (job.leaf? m.position) =
        (kind, some .accept)) : Act job m (.done (m.flush.accept job.language.start))
  /-- Goes back to a state that can go on. -/
  | resume {kind popped stack} (fresh : job.reusable? m = none)
      (action : job.language.actionFor m.stack.top.state (job.leaf? m.position) = (kind, none))
      (found : m.stack.unwindTo?
        (fun state => job.language.hasAction state (job.leaf? m.position)) = some (popped, stack)) :
      Act job m (.next (m.failed.resume popped stack))
  /-- Skips the token. -/
  | skip {kind leaf} (fresh : job.reusable? m = none) (here : job.leaf? m.position = some leaf)
      (action : job.language.actionFor m.stack.top.state (some leaf) = (kind, none)) :
      Act job m (.next (m.failed.skip leaf))
  /-- Gives up at an error. -/
  | giveUp {kind} (fresh : job.reusable? m = none)
      (action : job.language.actionFor m.stack.top.state (job.leaf? m.position) = (kind, none)) :
      Act job m (.done (m.failed.abandon job))
  /-- Gives up at a reduction that the stack does not allow. -/
  | stuck {kind production} (fresh : job.reusable? m = none)
      (action : job.language.actionFor m.stack.top.state (job.leaf? m.position) =
        (kind, some (.reduce production)))
      (fails : job.reduction? m production = none) : Act job m (.done (m.abandon job))
  /-- Gives up after too many reductions. -/
  | overrun {kind production info next} (fresh : job.reusable? m = none)
      (action : job.language.actionFor m.stack.top.state (job.leaf? m.position) =
        (kind, some (.reduce production)))
      (applies : job.reduction? m production = some (info, next))
      (full : reductionLimit ≤ m.reductions) : Act job m (.done (m.abandon job))
  /-- Gives up at a shift of the end. -/
  | shiftAtEnd {kind next} (fresh : job.reusable? m = none) (here : job.leaf? m.position = none)
      (action : job.language.actionFor m.stack.top.state none = (kind, some (.shift next))) :
      Act job m (.done (m.flush.abandon job))

private theorem recover_cases {job : Job} {m : Machine} {kind : Kind}
    (fresh : job.reusable? m = none)
    (action : job.language.actionFor m.stack.top.state (job.leaf? m.position) = (kind, none)) :
    Act job m (job.recover m) := by
  simp only [recover]
  split
  · exact .giveUp fresh action
  · split
    · next popped stack hu =>
      split at hu
      · exact .resume fresh action hu
      · contradiction
    · split
      · next leaf hl =>
        rw [show job.leaf? m.position = some leaf from hl] at action
        exact .skip fresh hl action
      · exact .giveUp fresh action

theorem act_cases (job : Job) (m : Machine) : Act job m (job.act m) := by
  unfold act
  split
  · next t next found => exact .reuse found
  · next fresh =>
    split
    · next kind next action =>
      cases here : job.leaf? m.position with
      | some leaf =>
        rw [here] at action
        exact .shift fresh here action
      | none =>
        rw [here] at action
        exact .shiftAtEnd fresh here action
    · next kind production action =>
      cases applies : job.reduction? m production with
      | none => exact .stuck fresh action applies
      | some found =>
        dsimp only
        split
        · next room => exact .reduce fresh action applies room
        · next full => exact .overrun fresh action applies (Nat.le_of_not_lt full)
    · next kind action => exact .accept fresh action
    · next kind action => exact recover_cases fresh action

theorem step_cases (job : Job) (m : Machine) : Act job (job.collectExtras m) (job.step m) :=
  act_cases ..

/-- What a step is when there is nothing to reuse. -/
theorem act_of_fresh {job : Job} (h : job.reuse = none) (m : Machine) : job.act m =
    match job.language.actionFor m.stack.top.state (job.leaf? m.position) with
    | (kind, some (.shift next)) => match job.leaf? m.position with
      | some leaf => .next (m.flush.push next (.leaf (leaf.reinterpret kind)) 1)
      | none => .done (m.flush.abandon job)
    | (_, some (.reduce production)) => match job.reduction? m production with
      | some (info, next) =>
        if m.reductions < reductionLimit then .next (m.reduced job.language info next)
          else .done (m.abandon job)
      | none => .done (m.abandon job)
    | (_, some .accept) => .done (m.flush.accept job.language.start)
    | (_, none) => job.recover m := by
  have hfresh : job.reusable? m = none := by
    unfold reusable?
    rw [h]
    simp
  unfold act
  rw [hfresh]
  rfl

theorem recover_eq (job : Job) (m : Machine) : job.recover m =
    if !job.config.errorRecovery || job.config.maxErrors <
      m.failed.recovery.errors then .done (m.failed.abandon job)
    else match (if m.failed.recovery.attempts ≤ job.config.maxAttempts then
        m.stack.unwindTo? fun state =>
          job.language.hasAction state (job.leaf? m.position) else none) with
    | some (popped, stack) => .next (m.failed.resume popped stack)
    | none => match job.leaf? m.position with
      | some leaf => .next (m.failed.skip leaf)
      | none => .done (m.failed.abandon job) := rfl

theorem run_of_next {job : Job} {m n : Machine} (h : job.step m = .next n) :
    job.run m = job.run n := by
  rw [run]
  split
  · next n' hn =>
    rw [h] at hn
    rw [Progress.next.inj hn]
  · next o ho =>
    rw [h] at ho
    contradiction

theorem run_of_done {job : Job} {m : Machine} {o : Outcome} (h : job.step m = .done o) :
    job.run m = o := by
  rw [run]
  split
  · next n hn =>
    rw [h] at hn
    contradiction
  · next o' ho =>
    rw [h] at ho
    exact (Progress.done.inj ho).symm

/-- Steps lead from one machine to the other. -/
def Reaches (job : Job) : Machine → Machine → Prop :=
  Relation.ReflTransGen fun m n => job.step m = .next n

/-- What every step keeps holds at the end of a run. -/
theorem run_of_invariant {job : Job} {inv : Machine → Prop} {good : Outcome → Prop}
    (step : ∀ m, inv m → (job.step m).Satisfies inv good) {m : Machine} (start : inv m) :
    good (job.run m) := by
  fun_induction run job m with
  | case1 m n hn ih =>
    have h := step m start
    rw [hn] at h
    exact ih h
  | case2 m o ho =>
    have h := step m start
    rwa [ho] at h

/-- Whether a run ends within so many steps, its machines pass a check, and its outcome another. -/
def passes (job : Job) (check : Machine → Bool) (last : Outcome → Bool) :
    (fuel : Nat) → Machine → Bool
  | 0, _ => false
  | fuel + 1, m => check m && match job.step m with
    | .next n => job.passes check last fuel n
    | .done o => last o

theorem of_passes {job : Job} {check : Machine → Bool} {last : Outcome → Bool} {fuel : Nat}
    {m : Machine} (h : job.passes check last fuel m = true) :
    (∀ n, job.Reaches m n → check n = true) ∧ last (job.run m) = true := by
  induction fuel generalizing m with
  | zero => contradiction
  | succ fuel ih =>
    rw [passes, Bool.and_eq_true] at h
    obtain ⟨hcheck, hrest⟩ := h
    cases hstep : job.step m with
    | next n =>
      rw [hstep] at hrest
      obtain ⟨hreached, hlast⟩ := ih hrest
      refine ⟨fun n' hn' => ?_, by rwa [run_of_next hstep]⟩
      rcases hn'.cases_head with rfl | ⟨n'', hn'', hafter⟩
      · exact hcheck
      · rw [hstep] at hn''
        obtain rfl := Progress.next.inj hn''
        exact hreached n' hafter
    | done o =>
      rw [hstep] at hrest
      refine ⟨fun n' hn' => ?_, by rwa [run_of_done hstep]⟩
      rcases hn'.cases_head with rfl | ⟨n'', hn'', -⟩
      · exact hcheck
      · rw [hstep] at hn''
        contradiction

end Job
end Reparse.Parse

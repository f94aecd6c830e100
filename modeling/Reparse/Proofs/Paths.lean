import Reparse.Proofs.Exactness

/-! # The stack is a path of the automaton -/
namespace Reparse
open Grammar Parse Reparse.Tree

namespace Parse

/-- A path of the automaton from its first state on, with the symbols along it. The last state comes
first. -/
inductive StatePath (k : Compilation) : List Nat → List Kind → Prop
  | start : StatePath k [0] []
  | step {source next : Nat} {states : List Nat} {xs : List Kind} {st : Table.State} {x : Kind}
      (before : StatePath k (source :: states) xs) (state : k.states[source]? = some st)
      (edge : (x, next) ∈ st.transitions) : StatePath k (next :: source :: states) (x :: xs)

/-- The states on a stack, top first. -/
def Stack.states (s : Stack) : List Nat := s.top.state :: s.below.map (·.state)

/-- The states on the stack are a path. -/
def Stack.OnPath (k : Compilation) (s : Stack) : Prop := ∃ xs, StatePath k s.states xs

namespace Stack

variable {s r : Stack}

private theorem states_eq (s : Stack) : s.states = s.entries.reverse.map (·.state) := by
  simp [states, entries]

@[simp] theorem states_push (s : Stack) (e : Entry) : (s.push e).states = e.state :: s.states := rfl

@[simp] theorem states_append (s : Stack) (t : Tree) : (s.append t).states = s.states := rfl

private theorem uncovered?_eq (s : Stack) (n : Nat) : s.uncovered? n = s.states[n]? := by
  cases n with
  | zero => rfl
  | succ n => simp [uncovered?, states]

private theorem states_suffix {popped : List Entry} (h : r.entries ++ popped = s.entries) :
    r.states <:+ s.states := by
  rw [states_eq, states_eq, ← h, List.reverse_append, List.map_append]
  exact List.suffix_append _ _

end Stack

private theorem Machine.states_flush (m : Machine) : m.flush.stack.states = m.stack.states := by
  unfold flush
  split
  · rfl
  · dsimp only
    split
    · rfl
    · rfl

variable {k : Compilation}

/-! ## Paths -/

namespace StatePath

variable {states : List Nat} {xs : List Kind}

/-- What is left of a path without its last states is a path. -/
private theorem of_suffix (h : StatePath k states xs) {state : Nat} {rest : List Nat}
    (hsuffix : state :: rest <:+ states) :
    ∃ ys, StatePath k (state :: rest) ys := by
  induction h with
  | start =>
    rcases List.suffix_cons_iff.1 hsuffix with heq | hnil
    · exact ⟨[], heq ▸ .start⟩
    · simp at hnil
  | @step source next states xs st x before hstate edge ih =>
    rcases List.suffix_cons_iff.1 hsuffix with heq | htail
    · exact ⟨x :: xs, heq ▸ .step before hstate edge⟩
    · exact ih htail

/-- A path is that of a stack about whose trees nothing is known: an error on each entry excuses
them. -/
theorem exists_grounded (h : StatePath k states xs) :
    ∃ s, Stack.states s = states ∧ Grounded k s xs := by
  have herror (state : Nat) :
      ¬ Clean k.language (Entry.trees ⟨state, #[(none, .errorNode [] state)]⟩) := by
    intro hclean
    have hfalse := hclean (.errorNode [] state) (by simp [Entry.trees]) rfl
    rw [hasError_errorNode] at hfalse
    contradiction
  induction h with
  | start =>
    exact ⟨⟨⟨0, #[(none, .errorNode [] 0)]⟩, []⟩, rfl, .bottom rfl fun hclean =>
      absurd hclean (herror 0)⟩
  | @step source next states xs st x before hstate edge ih =>
    obtain ⟨s, hstates, hgrounded⟩ := ih
    obtain ⟨rfl, rfl⟩ := List.cons.inj hstates
    exact ⟨s.push ⟨next, #[(none, .errorNode [] next)]⟩, rfl,
      .push hgrounded hstate edge fun hclean => absurd hclean (herror next)⟩

end StatePath

/-- A completed item in the last state of a path tells with which symbols the path ends. -/
theorem StatePath.ends {state : Nat} {states : List Nat} {xs : List Kind}
    (h : StatePath k (state :: states) xs) {q : Nat} {x : Kind}
    (haction : k.table.action? state x = some (.reduce q)) {p : Production}
    (hp : k.flat.productions[q]? = some p) : (p.steps.map (·.symbol)).reverse <+: xs := by
  obtain ⟨s, hstates, hgrounded⟩ := h.exists_grounded
  obtain ⟨rfl, -⟩ := List.cons.inj hstates
  obtain ⟨-, st, hst, ⟨q', d⟩, ahead, hmem, rfl, hcomplete, -⟩ := k.tableBuilt.of_reduce haction
  have huncovers := hgrounded.uncovers hst (Table.Items.closed_of_mem_closure hmem)
  obtain ⟨ys, -, hxs⟩ := huncovers.below
  have hall : p.steps.length ≤ d := by
    rwa [Flat.stepsFrom_eq_drop, Flat.stepsFrom_zero hp, List.drop_eq_nil_iff] at hcomplete
  rw [Flat.stepsFrom_zero hp, List.take_of_length_le hall] at hxs
  exact ⟨ys, hxs.symm⟩

namespace Stack.OnPath

variable {s r : Stack}

private theorem initial (k : Compilation) : Stack.initial.OnPath k := ⟨[], .start⟩

private theorem push (h : s.OnPath k) {st : Table.State} (hst : k.states[s.top.state]? = some st)
    {e : Entry} {x : Kind} (hedge : (x, e.state) ∈ st.transitions) : (s.push e).OnPath k := by
  obtain ⟨xs, hpath⟩ := h
  exact ⟨x :: xs, .step hpath hst hedge⟩

private theorem of_entries (h : s.OnPath k) {popped : List Entry}
    (hr : r.entries ++ popped = s.entries) : r.OnPath k := by
  obtain ⟨xs, hpath⟩ := h
  exact hpath.of_suffix (states_suffix hr)

private theorem goto (h : s.OnPath k) {x : Kind} {e : Entry}
    (hgoto : k.table.goto? s.top.state x = some e.state) :
    (s.push e).OnPath k := by
  obtain ⟨st, hst, hedge, -⟩ := k.tableBuilt.of_goto hgoto
  exact h.push hst hedge

/-- Reductions of the table fit the stack: the production is there, entries for all of its steps are
on the stack above another one, and the table knows where to go from there. -/
theorem reduction (h : s.OnPath k) {q : Nat} {x : Kind}
    (haction : k.table.action? s.top.state x = some (.reduce q)) :
    ∃ (p : Production) (state next : Nat), k.flat.productions[q]? = some p ∧
      p.steps.length < s.entries.length ∧
      s.uncovered? p.steps.length = some state ∧ k.table.goto? state p.lhs = some next := by
  obtain ⟨xs, hpath⟩ := h
  obtain ⟨r, hstates, hgrounded⟩ := hpath.exists_grounded
  rw [← (List.cons.inj hstates).1] at haction
  obtain ⟨p, state, next, hp, hstate, hnext⟩ := hgrounded.reduction_applies haction
  rw [uncovered?_eq, hstates] at hstate
  have hlt : p.steps.length < s.states.length := (List.getElem?_eq_some_iff.1 hstate).1
  exact ⟨p, state, next, hp, by simpa [states, entries] using hlt,
    by rw [uncovered?_eq, hstate], hnext⟩

end Stack.OnPath

/-! ## Runs -/

namespace Job

variable {job : Job} {m n : Machine}

/-- Whatever the tokens and the old tree are, a step keeps to paths of the automaton. -/
theorem onPath_of_act (hjob : job.language = k.language) {progress : Progress}
    (hact : Act job m progress) (hm : m.stack.OnPath k) :
    progress.Satisfies (fun n => n.stack.OnPath k) fun _ => True := by
  cases hact with
  | reuse found =>
    obtain ⟨-, r, -, hcandidate⟩ := of_reusable? found
    obtain ⟨origin, slot, -, -, -, hfits⟩ := Reuse.of_candidate? hcandidate
    have hgoto := hfits.goto
    rw [hjob] at hgoto
    exact hm.goto hgoto
  | @shift leaf kind next fresh here action =>
    have haction := Language.action_of_actionFor action
    rw [hjob] at haction
    obtain ⟨st, hst, hedge, -⟩ := k.tableBuilt.of_shift haction
    obtain ⟨xs, hpath⟩ := hm
    refine ⟨kind :: xs, ?_⟩
    change StatePath k (next :: m.flush.stack.states) _
    rw [Machine.states_flush]
    exact .step hpath hst hedge
  | @reduce kind production info next fresh action applies room =>
    obtain ⟨-, state, hstate, hgoto⟩ := reduction?_eq_some_iff.1 applies
    rw [hjob] at hgoto
    change (m.stack.reduce job.language info next).OnPath k
    rw [Stack.reduce_eq]
    refine (hm.of_entries (Stack.entries_uncovered _ _)).goto (x := info.lhs) ?_
    rw [Stack.top_uncovered hstate]
    exact hgoto
  | @resume kind popped stack fresh action found =>
    have hrest : stack.OnPath k := hm.of_entries (Stack.entries_unwindTo? found)
    exact hrest
  | skip fresh here action => exact hm
  | accept => trivial
  | giveUp => trivial
  | stuck => trivial
  | overrun => trivial
  | shiftAtEnd => trivial

theorem onPath_of_reaches (hjob : job.language = k.language) (h : job.Reaches {} m) :
    m.stack.OnPath k := by
  induction h with
  | refl => exact .initial k
  | @tail m n _ hstep ih =>
    have hcollected : (job.collectExtras m).stack.OnPath k := by rwa [collectExtras_stack]
    have hkept := onPath_of_act hjob (step_cases job m) hcollected
    rwa [hstep] at hkept

/-- Why a machine at a token gives up. -/
inductive GivesUp (job : Job) (m : Machine) : Prop
  /-- Nothing can be done, and errors are not recovered from. -/
  | disabled (fails : job.language.hasAction m.stack.top.state (job.leaf? m.position) = false)
      (off : job.config.errorRecovery = false)
  /-- Nothing can be done, and there are too many errors. -/
  | errors (fails : job.language.hasAction m.stack.top.state (job.leaf? m.position) = false)
      (many : job.config.maxErrors < m.failed.recovery.errors)
  /-- Nothing can be done at the end, and no state on the stack is left to go back to. -/
  | ended (fails : job.language.hasAction m.stack.top.state none = false)
      (here : job.leaf? m.position = none)
      (lost : job.config.maxAttempts < m.failed.recovery.attempts ∨
        m.stack.unwindTo? (fun state => job.language.hasAction state none) = none)
  /-- There is a reduction to make after as many as are allowed. -/
  | overrun {kind : Kind} {production : Nat}
      (action : job.language.actionFor m.stack.top.state (job.leaf? m.position) =
        (kind, some (.reduce production)))
      (full : reductionLimit ≤ m.reductions)

private theorem givesUp_of_recover {o : Outcome} (h : job.recover m = .done o)
    (hfails : job.language.hasAction m.stack.top.state (job.leaf? m.position) = false) :
    job.GivesUp m := by
  simp only [recover] at h
  split at h
  · next hstop =>
    simp only [Bool.or_eq_true, Bool.not_eq_true', decide_eq_true_eq] at hstop
    rcases hstop with hoff | hmany
    · exact .disabled hfails hoff
    · exact .errors hfails hmany
  · split at h
    · contradiction
    · next hlost =>
      split at h
      · contradiction
      · next here =>
        rw [show job.leaf? m.position = none from here] at hfails hlost
        refine .ended hfails here ?_
        split at hlost
        · exact .inr hlost
        · next hattempts => exact .inl (Nat.lt_of_not_le hattempts)

/-- A reduction that the table asks for can be made. -/
theorem exists_reduction (hjob : job.language = k.language) (hm : m.stack.OnPath k) {kind : Kind}
    {q : Nat}
    (action : job.language.actionFor m.stack.top.state (job.leaf? m.position) =
      (kind, some (.reduce q))) :
    ∃ (p : Production) (state next : Nat), k.flat.productions[q]? = some p ∧
      p.steps.length < m.stack.entries.length ∧
      (∀ xs, StatePath k m.stack.states xs → (p.steps.map (·.symbol)).reverse <+: xs) ∧
        m.stack.uncovered? p.steps.length = some state ∧
          job.language.table.goto? state p.lhs = some next ∧
          ∃ info, job.reduction? m q = some (info, next) := by
  have haction := Language.action_of_actionFor action
  rw [hjob] at haction
  obtain ⟨p, state, next, hp, hlt, hstate, hgoto⟩ := hm.reduction haction
  have hinfo : k.table.productions[q]? =
      some ⟨p.lhs, (p.steps.map (·.field)).toArray, p.dynamic⟩ := by
    rw [k.tableBuilt.productions, hp, Option.map_some]
  refine ⟨p, state, next, hp, hlt, fun xs hpath => hpath.ends haction hp,
    hstate, by
    rw [hjob]; exact hgoto, _,
      reduction?_eq_some_iff.2 ⟨by rw [hjob]; exact hinfo, state, ?_, by rw [hjob]; exact hgoto⟩⟩
  simpa using hstate

/-- The end of input is never shifted. -/
theorem actionFor_end_ne_shift (hjob : job.language = k.language) (state : Nat) (kind : Kind)
    (next : Nat) :
    job.language.actionFor state none ≠ (kind, some (.shift next)) := by
  intro action
  obtain rfl : .eof = kind := congrArg Prod.fst action
  have haction := Language.action_of_actionFor action
  rw [hjob] at haction
  obtain ⟨st, hst, hedge, -⟩ := k.tableBuilt.of_shift haction
  exact absurd (Compilation.le_id_of_edge hst hedge) (by decide)

/-- On a path, a step that ends the run accepts, or gives up for one of few reasons. -/
theorem givesUp_of_act (hjob : job.language = k.language) (hm : m.stack.OnPath k) {o : Outcome}
    (h : job.act m = .done o) :
    (∃ kind, job.language.actionFor m.stack.top.state (job.leaf? m.position) =
      (kind, some .accept)) ∧
        o = m.flush.accept job.language.start ∨ job.GivesUp m := by
  have hact := act_cases job m
  rw [h] at hact
  cases hact with
  | accept fresh action => exact .inl ⟨⟨_, action⟩, rfl⟩
  | @giveUp kind fresh action =>
    right
    have hrecover : job.act m = job.recover m := by
      unfold act
      rw [fresh]
      simp only [action]
    refine givesUp_of_recover (hrecover ▸ h) ?_
    unfold Language.hasAction
    rw [action]
    rfl
  | stuck fresh action fails =>
    obtain ⟨p, state, next, -, -, -, -, -, info, happlies⟩ := exists_reduction hjob hm action
    rw [fails] at happlies
    contradiction
  | overrun fresh action applies full => exact .inr (.overrun action full)
  | shiftAtEnd fresh here action => exact absurd action (actionFor_end_ne_shift hjob _ _ _)

end Job
end Parse

/-- Whatever the tokens and the old tree are, in every machine that a run comes to the states on the
stack are a path of the automaton. Where the table asks for a reduction, the stack has the entries
for it above another one, the path ends with the symbols of the production, and the table knows
where to go. The end of input is never shifted, and a run ends at such a machine only if it accepts
or has a reason to give up. -/
theorem stack_onPath (k : Compilation) {job : Job} (hjob : job.language = k.language) {m : Machine}
    (hm : job.Reaches {} m) :
    let n := job.collectExtras m
    n.stack.OnPath k ∧
      (∀ kind q, job.language.actionFor n.stack.top.state (job.leaf? n.position) =
          (kind, some (.reduce q)) →
        ∃ (p : Production) (state next : Nat), k.flat.productions[q]? = some p ∧
          p.steps.length < n.stack.entries.length ∧
          (∀ xs, StatePath k n.stack.states xs → (p.steps.map (·.symbol)).reverse <+: xs) ∧
          n.stack.uncovered? p.steps.length = some state ∧
          job.language.table.goto? state p.lhs = some next ∧
          ∃ info, job.reduction? n q = some (info, next)) ∧
      (∀ kind next, job.leaf? n.position = none →
        job.language.actionFor n.stack.top.state (job.leaf? n.position) ≠
          (kind, some (.shift next))) ∧
      ∀ o, job.step m = .done o →
        (∃ kind, job.language.actionFor n.stack.top.state (job.leaf? n.position) =
            (kind, some .accept)) ∧
          o = n.flush.accept job.language.start ∨ job.GivesUp n := by
  intro n
  have hpath : n.stack.OnPath k := by
    rw [Job.collectExtras_stack]
    exact Job.onPath_of_reaches hjob hm
  refine ⟨hpath, fun kind q => Job.exists_reduction hjob hpath, fun kind next hend => ?_,
    fun o ho => Job.givesUp_of_act hjob hpath ho⟩
  rw [hend]
  exact Job.actionFor_end_ne_shift hjob _ _ _

/-- The letter x was pushed, and production 1 is due. -/
theorem stack_onPath_letter : Letter.job.Reaches {} Letter.shifted ∧
    let n := Letter.job.collectExtras Letter.shifted
    n.stack.OnPath .letter ∧
      (∀ kind q, Letter.job.language.actionFor n.stack.top.state (Letter.job.leaf? n.position) =
          (kind, some (.reduce q)) →
        ∃ (p : Production) (state next : Nat), Letter.flat.productions[q]? = some p ∧
          p.steps.length < n.stack.entries.length ∧
          (∀ xs, StatePath .letter n.stack.states xs → (p.steps.map (·.symbol)).reverse <+: xs) ∧
            n.stack.uncovered? p.steps.length = some state ∧
              Letter.job.language.table.goto? state p.lhs = some next ∧
                ∃ info, Letter.job.reduction? n q = some (info, next)) ∧
      (∀ kind next, Letter.job.leaf? n.position = none →
        Letter.job.language.actionFor n.stack.top.state (Letter.job.leaf? n.position) ≠
          (kind, some (.shift next))) ∧
      ∀ o, Letter.job.step Letter.shifted = .done o →
        (∃ kind, Letter.job.language.actionFor n.stack.top.state (Letter.job.leaf? n.position) =
          (kind, some .accept)) ∧ o = n.flush.accept Letter.job.language.start ∨
          Letter.job.GivesUp n := by
  have hreaches : Letter.job.Reaches {} Letter.shifted := .single Letter.step_start
  exact ⟨hreaches, stack_onPath Compilation.letter rfl hreaches⟩

end Reparse

import Reparse.Proofs.Errors
import Reparse.Proofs.Sentences
import Reparse.Proofs.Soundness

/-! # Parses fail at the first token that cannot go on -/
namespace Reparse
open Grammar Parse Text Reparse.Tree

theorem Language.actionFor_of_no_word {l : Language} (h : l.word = none) (state : Nat)
    (leaf : Leaf) :
    l.actionFor state (some leaf) = (leaf.kind, l.table.action? state leaf.kind) := by
  unfold actionFor
  simp only [h, ite_self]
  cases l.table.action? state leaf.kind with
  | none => rfl
  | some action => rfl

namespace Compilation

variable (k : Compilation)

private theorem isTerminal_of_emits {kind : Kind} (h : k.lexer.Emits kind) :
    k.flat.isTerminal kind = true := by
  have hterminals := k.wellFormed.terminals
  simp only [Flat.isTerminal, decide_eq_true_eq]
  rcases h with rfl | ⟨rule, hrule, rfl⟩
  · change 1 < k.flat.terminalCount
    omega
  · obtain ⟨t, ht, hkind⟩ := k.of_mem_rules hrule
    have hproper := k.wellFormed.lexical t ht
    rw [hkind] at hproper
    exact hproper.2

private theorem not_extra_error : k.language.isExtra .error = false := by
  cases h : k.language.isExtra .error with
  | false => rfl
  | true =>
    have hmem : Kind.error ∈ k.flat.extras := Array.contains_iff_mem.1 h
    exact absurd (k.wellFormed.extras _ hmem).1 (by decide)

variable {k}

/-- Neither the end nor unrecognized bytes have transitions. -/
theorem le_id_of_edge {id next : Nat} {st : Table.State} {x : Kind} (hst : k.states[id]? = some st)
    (hedge : (x, next) ∈ st.transitions) : 2 ≤ x.id := by
  obtain ⟨q, p, s, hp, hs, rfl⟩ := occurs_of_edge hst hedge
  exact (k.wellFormed.symbols q p hp s hs).1

end Compilation

namespace Parse

variable {k : Compilation} {job : Job} {m n : Machine}

namespace Job

/-- The tokens are as the lexer makes them, and there is no tree to reuse. -/
structure Scratch (k : Compilation) (job : Job) : Prop where
  language : job.language = k.language
  reuse : job.reuse = none
  lexed : job.Lexed
  emits : ∀ leaf ∈ job.leaves, k.lexer.Emits leaf.kind
  errors : ∀ leaf ∈ job.leaves, leaf.isError = true → leaf.kind = .error

/-- The kinds of the tokens that were read, without extras. -/
def read (job : Job) (m : Machine) : List Kind := kindsOf job.language (job.leaves.take m.position)

/-- The kinds of the other tokens. -/
def unread (job : Job) (m : Machine) : List Kind :=
  kindsOf job.language (job.leaves.drop m.position)

theorem read_append_unread (job : Job) (m : Machine) :
    job.read m ++ job.unread m = kindsOf job.language job.leaves := by
  rw [read, unread, ← kindsOf_append, List.take_append_drop]

private theorem unread_collectExtras (job : Job) (m : Machine) :
    job.unread (job.collectExtras m) = job.unread m := by
  fun_induction collectExtras job m with
  | case1 m h leaf hextra ih =>
    rw [ih]
    have hl : job.leaf? m.position = some leaf := by simp [leaf?, h, leaf]
    simp only [unread, drop_of_leaf? hl]
    simp [kindsOf, hextra]
  | case2 => rfl
  | case3 => rfl

private theorem read_collectExtras (job : Job) (m : Machine) :
    job.read (job.collectExtras m) = job.read m := by
  have h := job.read_append_unread (job.collectExtras m)
  rw [unread_collectExtras, ← job.read_append_unread m] at h
  exact List.append_cancel_right h

theorem unread_of_leaf? {leaf : Leaf} (hat : job.AtToken m) (h : job.leaf? m.position = some leaf) :
    job.unread m = leaf.kind :: kindsOf job.language (job.leaves.drop (m.position + 1)) := by
  simp [unread, drop_of_leaf? h, kindsOf, hat leaf h]

theorem unread_of_leaf?_eq_none (h : job.leaf? m.position = none) : job.unread m = [] := by
  simp [unread, drop_of_leaf?_eq_none h, kindsOf]

private theorem read_of_position {leaf : Leaf} (hat : job.AtToken m)
    (h : job.leaf? m.position = some leaf) (hn : n.position = m.position + 1) :
    job.read n = job.read m ++ [leaf.kind] := by
  have hall := job.read_append_unread n
  rw [← job.read_append_unread m, unread_of_leaf? hat h] at hall
  have hunread : job.unread n = kindsOf job.language (job.leaves.drop (m.position + 1)) := by
    rw [unread, hn]
  rw [hunread, ← List.singleton_append, ← List.append_assoc] at hall
  exact List.append_cancel_right hall

/-- Machines up to the first missing action. -/
inductive Undisturbed (job : Job) : Machine → Prop
  | start : Undisturbed job {}
  | step {m n : Machine} (before : Undisturbed job m)
      (action : job.language.hasAction (job.collectExtras m).stack.top.state
        (job.leaf? (job.collectExtras m).position) = true)
      (next : job.step m = .next n) : Undisturbed job n

private theorem Undisturbed.reaches (h : job.Undisturbed m) : job.Reaches {} m := by
  induction h with
  | start => exact .refl
  | step before action next ih => exact ih.tail next

/-- The machine at a token, or at the end, that is the first to have no action. -/
def FailsFirst (job : Job) (m : Machine) : Prop :=
  ∃ n, job.Undisturbed n ∧ m = job.collectExtras n ∧
  job.language.hasAction m.stack.top.state (job.leaf? m.position) = false

/-- No reduction is one too many, as long as nothing fails. -/
def HasRoom (job : Job) : Prop := ∀ n, job.Undisturbed n → ∀ kind production,
  job.language.actionFor (job.collectExtras n).stack.top.state
  (job.leaf? (job.collectExtras n).position) =
    (kind, some (.reduce production)) → n.reductions < reductionLimit

/-! ## Tokens -/

namespace Scratch

theorem isTerminal (h : job.Scratch k) {leaf : Leaf} (hleaf : leaf ∈ job.leaves) :
    k.flat.isTerminal leaf.kind = true :=
  k.isTerminal_of_emits (h.emits leaf hleaf)

theorem mem_of_leaf? {position : Nat} {leaf : Leaf} (h : job.leaf? position = some leaf) :
    leaf ∈ job.leaves :=
  List.mem_of_mem_drop (by rw [drop_of_leaf? h]; exact List.mem_cons_self)

theorem reusable? (h : job.Scratch k) (m : Machine) : job.reusable? m = none := by
  unfold Job.reusable?
  rw [h.reuse]
  simp

theorem sound (h : job.Scratch k) : job.Sound where
  lexed := h.lexed
  reuse := by
    intro m t next hreusable
    rw [h.reusable?] at hreusable
    contradiction
  accept := by
    intro state leaf kind hleaf
    rw [h.language]
    exact k.actionFor_ne_accept (k.ne_eof_of_emits (h.emits leaf hleaf))

private theorem reusesTidy (h : job.Scratch k) : job.ReusesTidy k := by
  intro m t next hreusable
  rw [h.reusable?] at hreusable
  contradiction

/-- Extras are no errors. -/
theorem isError_of_extra (h : job.Scratch k) {leaf : Leaf} (hleaf : leaf ∈ job.leaves)
    (hextra : job.language.isExtra leaf.kind = true) : leaf.isError = false := by
  cases herror : leaf.isError with
  | false => rfl
  | true =>
    rw [h.errors leaf hleaf herror, h.language, k.not_extra_error] at hextra
    contradiction

/-- Waiting extras are no errors. -/
theorem any_pending (h : job.Scratch k) (hm : m.Lossless job) (hwaiting : job.WaitingExtras m) :
    (leafTrees m.pending).any hasError = false := by
  rw [List.any_eq_false]
  intro t ht
  obtain ⟨leaf, hleaf, rfl⟩ := List.mem_map.1 ht
  have hmem : leaf ∈ job.leaves := hm.ahead_subset (List.mem_append_left _ hleaf)
  have herror := h.isError_of_extra hmem (hwaiting leaf (Array.mem_toList_iff.1 hleaf))
  simpa [hasError] using herror

/-- The action at a token is that of its kind, and that of the end behind all tokens. -/
theorem actionFor_eq (h : job.Scratch k) (hword : k.flat.word = none) (hat : job.AtToken m)
    (state : Nat) :
    job.language.actionFor state (job.leaf? m.position) =
      (firstOf (job.unread m), k.table.action? state (firstOf (job.unread m))) := by
  cases hleaf : job.leaf? m.position with
  | none =>
    rw [unread_of_leaf?_eq_none hleaf, h.language]
    rfl
  | some leaf =>
    rw [unread_of_leaf? hat hleaf, h.language]
    exact Language.actionFor_of_no_word hword state leaf

private theorem isTerminal_head (h : job.Scratch k) (hat : job.AtToken m) :
    ∀ x, (job.unread m).head? = some x → k.flat.isTerminal x = true := by
  intro x hx
  cases hleaf : job.leaf? m.position with
  | none =>
    rw [unread_of_leaf?_eq_none hleaf] at hx
    contradiction
  | some leaf =>
    rw [unread_of_leaf? hat hleaf, List.head?_cons, Option.some.injEq] at hx
    rw [← hx]
    exact h.isTerminal (mem_of_leaf? hleaf)

end Scratch
end Job

/-! ## Before the first error -/

/-- The machine has made no error, and every sentence that goes on like the text is still
possible. -/
structure Machine.OnTrack (k : Compilation) (job : Job) (m : Machine) : Prop where
  fits : m.Fits k job
  idle : m.Idle
  clean : m.stack.trees.any hasError = false
  leaves : forestFrontier m.stack.trees ++ job.ahead m = job.leaves
  viable : ∀ w, w.head? = (job.unread m).head? → Derives k.flat [k.flat.start] (job.read m ++ w) →
    ∃ xs i around, Tracks k m.stack xs i around ∧
      Yields k.flat ((k.flat.stepsFrom i.production i.dot).map (·.symbol) ++ around) w

namespace Machine.OnTrack

private theorem start (k : Compilation) (job : Job) : Machine.OnTrack k job {} where
  fits := ⟨Machine.lossless_start job, fun leaf h => absurd h (Array.not_mem_empty leaf),
    ⟨[], .bottom rfl fun _ => rfl⟩, fun t h => by contradiction⟩
  idle := rfl
  clean := rfl
  leaves := rfl
  viable := by
    intro w _ hw
    obtain ⟨accept, hzero, -⟩ := k.wellFormed.accepting
    refine ⟨[], ⟨0, 0⟩, [], .bottom rfl, ?_⟩
    rw [Flat.stepsFrom_zero hzero]
    exact yields_of_derives hw

theorem collectExtras (h : m.OnTrack k job) : (job.collectExtras m).OnTrack k job where
  fits := h.fits.collectExtras
  idle := by
    have hidle := h.idle
    unfold Machine.Idle at hidle ⊢
    rwa [Job.collectExtras_recovery]
  clean := by
    rw [Job.collectExtras_stack]
    exact h.clean
  leaves := by
    rw [Job.collectExtras_stack, Job.ahead_collectExtras]
    exact h.leaves
  viable := by
    rw [Job.collectExtras_stack, Job.read_collectExtras, Job.unread_collectExtras]
    exact h.viable

private theorem noError (h : m.OnTrack k job) : ∀ t ∈ m.stack.trees, t.hasError = false := by
  intro t ht
  have hclean := h.clean
  rw [List.any_eq_false] at hclean
  simpa using hclean t ht

/-- The stack holds the tokens that were read. -/
theorem kindsOf_frontier (h : m.OnTrack k job) :
    kindsOf job.language (forestFrontier m.stack.trees) = job.read m := by
  have hpending : kindsOf job.language m.pending.toList = [] := by
    unfold kindsOf
    rw [List.map_eq_nil_iff, List.filter_eq_nil_iff]
    intro leaf hleaf
    simp [h.fits.waiting leaf (Array.mem_toList_iff.1 hleaf)]
  have hleaves := congrArg (kindsOf job.language) h.leaves
  rw [← job.read_append_unread m, Job.ahead, kindsOf_append, kindsOf_append, hpending,
    List.nil_append] at hleaves
  exact List.append_cancel_right hleaves

/-- What was read begins a sentential form. -/
private theorem continues (h : m.OnTrack k job) (hjob : job.Scratch k) :
    k.flat.Continues (job.read m) := by
  obtain ⟨xs, hpath⟩ := h.fits.path
  rw [← h.kindsOf_frontier, hjob.language]
  exact hpath.continues h.fits.tidy h.noError

/-- Where a sentence is still possible, something is ready. -/
theorem ready (h : m.OnTrack k job) (hjob : job.Scratch k) (hat : job.AtToken m) {w : List Kind}
    (hhead : w.head? = (job.unread m).head?)
    (hw : Derives k.flat [k.flat.start] (job.read m ++ w)) :
    (∃ xs, Ready k m.stack xs w) ∧ ∀ x, w.head? = some x → k.flat.isTerminal x = true := by
  obtain ⟨xs, i, around, htracks, hyields⟩ := h.viable w hhead hw
  have hterminal : ∀ x, w.head? = some x → k.flat.isTerminal x = true := by
    rw [hhead]
    exact hjob.isTerminal_head hat
  exact ⟨⟨xs, htracks.ready hyields hterminal⟩, hterminal⟩

/-- A sentence that goes on like the text has an action. -/
theorem action_of_derives (h : m.OnTrack k job) (hjob : job.Scratch k) (hword : k.flat.word = none)
    (hsingle : Table.SingleCandidates k.flat k.mode) (hat : job.AtToken m) {w : List Kind}
    (hhead : w.head? = (job.unread m).head?)
    (hw : Derives k.flat [k.flat.start] (job.read m ++ w)) :
    job.language.hasAction m.stack.top.state (job.leaf? m.position) = true := by
  obtain ⟨⟨xs, hready⟩, hterminal⟩ := h.ready hjob hat hhead hw
  obtain ⟨action, haction⟩ := hready.action hsingle hterminal
  unfold Language.hasAction
  rw [hjob.actionFor_eq hword hat]
  unfold firstOf at haction ⊢
  rw [← hhead, haction]
  rfl

private theorem shift (h : m.OnTrack k job) (hjob : job.Scratch k)
    (hsingle : Table.SingleCandidates k.flat k.mode) (hat : job.AtToken m) {leaf : Leaf}
    {next : Nat} (here : job.leaf? m.position = some leaf)
    (haction : k.table.action? m.stack.top.state leaf.kind = some (.shift next))
    (hfits : (m.push next (.leaf leaf) 1).Fits k job) :
    (m.push next (.leaf leaf) 1).OnTrack k job where
  fits := hfits
  idle := h.idle
  clean := by
    obtain ⟨st, hst, hedge, -⟩ := k.tableBuilt.of_shift haction
    have herror : leaf.isError = false := by
      cases herror : leaf.isError with
      | false => rfl
      | true =>
        have hle := Compilation.le_id_of_edge hst hedge
        rw [hjob.errors leaf (Job.Scratch.mem_of_leaf? here) herror] at hle
        exact absurd hle (by decide)
    rw [Machine.trees_pushed, List.any_append, List.any_append, h.clean,
      hjob.any_pending h.fits.lossless h.fits.waiting]
    simp [hasError, herror]
  leaves := by
    have hleaves := h.leaves
    rw [Job.ahead, Job.drop_of_leaf? here] at hleaves
    rw [Machine.trees_pushed, forestFrontier_append, forestFrontier_append, frontier_leafTrees]
    simpa [Job.ahead, Machine.push, forestFrontier, Tree.frontier] using hleaves
  viable := by
    intro w hhead hw
    rw [Job.read_of_position (n := m.push next (.leaf leaf) 1) hat here rfl,
      List.append_assoc] at hw
    have hunread := Job.unread_of_leaf? hat here
    obtain ⟨⟨xs, hready⟩, hterminal⟩ :=
      h.ready hjob hat (w := leaf.kind :: w) (by rw [hunread]; rfl) hw
    obtain ⟨i, around, w', hcons, htracks, hyields⟩ := hready.of_shift hsingle hterminal haction
      ⟨next, (m.pending.map fun l => (none, .leaf l)).push (none, .leaf leaf)⟩ rfl
    obtain rfl := (List.cons.inj hcons).2
    exact ⟨_, i, around, htracks, hyields⟩

private theorem reduce (h : m.OnTrack k job) (hjob : job.Scratch k)
    (hsingle : Table.SingleCandidates k.flat k.mode) (hat : job.AtToken m) {q next : Nat}
    {info : Table.ProductionInfo}
    (haction : k.table.action? m.stack.top.state (firstOf (job.unread m)) = some (.reduce q))
    (happlies : job.reduction? m q = some (info, next))
    (hfits : (m.reduced job.language info next).Fits k job) :
    (m.reduced job.language info next).OnTrack k job := by
  obtain ⟨hinfo, state, hstate, hgoto⟩ := Job.reduction?_eq_some_iff.1 happlies
  refine ⟨hfits, h.idle, ?_, ?_, ?_⟩
  · exact (Stack.any_reduce hstate _).trans h.clean
  · have hleaves := h.leaves
    rwa [← Stack.frontier_reduce (l := job.language) hstate next] at hleaves
  · intro w hhead hw
    obtain ⟨⟨xs, hready⟩, hterminal⟩ := h.ready hjob hat hhead hw
    rw [hjob.language] at hinfo hgoto
    obtain ⟨p, hp, hlhs, hfields⟩ := k.tableBuilt.of_productions hinfo
    have hsize : info.fields.size = p.steps.length := by
      rw [← Array.length_toList, hfields, List.length_map]
    have hfirst : firstOf w = firstOf (job.unread m) := congrArg (·.getD .eof) hhead
    rw [← hfirst] at haction
    rw [← Stack.top_uncovered hstate, hlhs, hsize] at hgoto
    change ∃ xs i around, Tracks k (m.stack.reduce job.language info next) xs i around ∧ _
    rw [Stack.reduce_eq, hsize]
    exact hready.of_reduce hsingle hterminal haction hp _ hgoto

private theorem sentence (h : m.OnTrack k job) (hjob : job.Scratch k)
    (hend : job.leaf? m.position = none) {x : Kind}
    (haction : k.table.action? m.stack.top.state x = some .accept) :
    Derives k.flat [k.flat.start] (kindsOf k.language job.leaves) := by
  obtain ⟨xs, hpath⟩ := h.fits.path
  have hsentence := hpath.sentence h.fits.tidy h.noError haction
  have hread := job.read_append_unread m
  rw [Job.unread_of_leaf?_eq_none hend, List.append_nil, ← h.kindsOf_frontier,
    hjob.language] at hread
  rwa [hread] at hsentence

private theorem reduction_applies (h : m.OnTrack k job) (hjob : job.Scratch k) {q : Nat} {x : Kind}
    (haction : k.table.action? m.stack.top.state x = some (.reduce q)) :
    job.reduction? m q ≠ none := by
  obtain ⟨xs, hpath⟩ := h.fits.path
  obtain ⟨p, state, next, hp, hstate, hgoto⟩ := hpath.reduction_applies haction
  have hinfo : k.language.table.productions[q]? =
      some ⟨p.lhs, (p.steps.map (·.field)).toArray, p.dynamic⟩ := by
    change k.table.productions[q]? = _
    rw [k.tableBuilt.productions, hp, Option.map_some]
  rw [Job.reduction?_eq_some_iff.2
    ⟨by rw [hjob.language]; exact hinfo,
    state, by simpa using hstate, by rw [hjob.language]; exact hgoto⟩]
  exact nofun

end Machine.OnTrack

namespace Job.Scratch

/-- What an action does on a track. -/
theorem onTrack_of_act (hjob : job.Scratch k) (hextras : k.ExtrasApart) (hword : k.flat.word = none)
    (hsingle : Table.SingleCandidates k.flat k.mode) {progress : Progress}
    (hact : Act job m progress) (hat : job.AtToken m) (h : m.OnTrack k job)
    (haction : job.language.hasAction m.stack.top.state (job.leaf? m.position) = true)
    (hroom : ∀ kind production, job.language.actionFor m.stack.top.state (job.leaf? m.position) =
      (kind, some (.reduce production)) → m.reductions < reductionLimit) :
    progress.Satisfies (Machine.OnTrack k job) fun o =>
      o.root.hasError = false ∧ Derives k.flat [k.flat.start] (kindsOf k.language job.leaves) := by
  have hfits := fits_of_act hjob.language hjob.sound hjob.reusesTidy hextras hact h.fits
  have hkind := hjob.actionFor_eq hword hat m.stack.top.state
  cases hact with
  | reuse found =>
    rw [hjob.reusable?] at found
    contradiction
  | @shift leaf kind next fresh here action =>
    rw [here, action, unread_of_leaf? hat here, Prod.mk.injEq] at hkind
    obtain ⟨rfl, htable⟩ := hkind
    rw [Machine.flush_of_idle h.idle] at hfits ⊢
    exact h.shift hjob hsingle hat here htable.symm hfits
  | @reduce kind q info next fresh action applies room =>
    rw [action, Prod.mk.injEq] at hkind
    exact h.reduce hjob hsingle hat hkind.2.symm applies hfits
  | @accept kind fresh action =>
    have hend : job.leaf? m.position = none := by
      cases hleaf : job.leaf? m.position with
      | none => rfl
      | some leaf =>
        rw [hleaf] at action
        exact absurd action (hjob.sound.accept _ leaf _ (mem_of_leaf? hleaf))
    rw [action, Prod.mk.injEq] at hkind
    refine ⟨?_, h.sentence hjob hend hkind.2.symm⟩
    rw [Machine.flush_of_idle h.idle]
    change (m.stack.root _ _).hasError = false
    rw [Stack.hasError_root h.fits.lossless.consistent, List.any_append, h.clean,
      hjob.any_pending h.fits.lossless h.fits.waiting]
    rfl
  | resume _ action => exact absurd haction (Language.not_hasAction action)
  | skip _ here action =>
    rw [← here] at action
    exact absurd haction (Language.not_hasAction action)
  | giveUp _ action => exact absurd haction (Language.not_hasAction action)
  | stuck _ action fails =>
    rw [action, Prod.mk.injEq] at hkind
    exact absurd fails (h.reduction_applies hjob hkind.2.symm)
  | overrun _ action _ full => exact absurd (hroom _ _ action) (Nat.not_lt.2 full)
  | shiftAtEnd _ here action =>
    rw [← here, hkind, Prod.mk.injEq, unread_of_leaf?_eq_none here] at action
    obtain ⟨st, hst, hedge, -⟩ := k.tableBuilt.of_shift action.2
    exact absurd (Compilation.le_id_of_edge hst hedge) (by decide)

private theorem onTrack_of_undisturbed (hjob : job.Scratch k) (hextras : k.ExtrasApart)
    (hword : k.flat.word = none) (hsingle : Table.SingleCandidates k.flat k.mode)
    (hroom : job.HasRoom) (h : job.Undisturbed m) :
    m.OnTrack k job := by
  induction h with
  | start => exact .start k job
  | @step m n before action next ih =>
    have hstep :=
      hjob.onTrack_of_act hextras hword hsingle (step_cases job m) (atToken_collectExtras job m)
      ih.collectExtras action (by rw [collectExtras_reductions]; exact hroom m before)
    rwa [next] at hstep

/-- A run ends with a sentence and a tree without errors, or fails somewhere and has a tree with
errors. -/
theorem run_cases (hjob : job.Scratch k) (hextras : k.ExtrasApart) (hword : k.flat.word = none)
    (hsingle : Table.SingleCandidates k.flat k.mode) (hroom : job.HasRoom) :
    ((job.run {}).root.hasError = false ∧
      Derives k.flat [k.flat.start] (kindsOf k.language job.leaves)) ∨
      ((job.run {}).root.hasError = true ∧ ∃ m, job.FailsFirst m) := by
  have hrun (m : Machine) (hm : job.Undisturbed m) :
      ((job.run m).root.hasError = false ∧
      Derives k.flat [k.flat.start] (kindsOf k.language job.leaves)) ∨
        ((job.run m).root.hasError = true ∧ ∃ m, job.FailsFirst m) := by
    fun_induction run job m with
    | case1 m n hn ih =>
      cases haction : job.language.hasAction (job.collectExtras m).stack.top.state
          (job.leaf? (job.collectExtras m).position) with
      | true => exact ih (.step hm haction hn)
      | false =>
        have htrack := hjob.onTrack_of_undisturbed hextras hword hsingle hroom hm
        have herror := hasError_run_of_missing hjob.sound hjob.reuse htrack.fits.lossless haction
        rw [run_of_next hn] at herror
        exact .inr ⟨herror, _, m, hm, rfl, haction⟩
    | case2 m o ho =>
      have htrack := hjob.onTrack_of_undisturbed hextras hword hsingle hroom hm
      cases haction : job.language.hasAction (job.collectExtras m).stack.top.state
          (job.leaf? (job.collectExtras m).position) with
      | true =>
        have hstep :=
          hjob.onTrack_of_act hextras hword hsingle (step_cases job m) (atToken_collectExtras job m)
          htrack.collectExtras haction (by rw [collectExtras_reductions]; exact hroom m hm)
        rw [ho] at hstep
        exact .inl hstep
      | false =>
        have herror := hasError_run_of_missing hjob.sound hjob.reuse htrack.fits.lossless haction
        rw [run_of_done ho] at herror
        exact .inr ⟨herror, _, m, hm, rfl, haction⟩
  exact hrun {} .start

/-- Where a run fails first, what was read could go on, but not with the next token. -/
theorem continues_of_failsFirst (hjob : job.Scratch k) (hextras : k.ExtrasApart)
    (hword : k.flat.word = none) (hsingle : Table.SingleCandidates k.flat k.mode)
    (hroom : job.HasRoom) (h : job.FailsFirst m) :
    k.flat.Continues (job.read m) ∧
      (∀ x, (job.unread m).head? = some x → ¬ k.flat.Continues (job.read m ++ [x])) ∧
      ¬ Derives k.flat [k.flat.start] (kindsOf k.language job.leaves) := by
  obtain ⟨n, hn, rfl, haction⟩ := h
  have htrack := (hjob.onTrack_of_undisturbed hextras hword hsingle hroom hn).collectExtras
  have hat := atToken_collectExtras job n
  have hnone {w : List Kind} (hhead : w.head? = (job.unread (job.collectExtras n)).head?) :
      ¬ Derives k.flat [k.flat.start] (job.read (job.collectExtras n) ++ w) := by
    intro hw
    rw [htrack.action_of_derives hjob hword hsingle hat hhead hw] at haction
    contradiction
  refine ⟨htrack.continues hjob, ?_, ?_⟩
  · rintro x hx ⟨rest, hrest⟩
    rw [List.append_assoc] at hrest
    exact hnone (by rw [hx]; rfl) hrest
  · rw [← hjob.language, ← job.read_append_unread (job.collectExtras n)]
    exact hnone rfl

end Job.Scratch
end Parse

/-- Every parse without a previous tree is one from scratch. -/
theorem Parser.scratch_job (k : Compilation) {p : Parser} (hp : p.language = k.language)
    (source : Bytes) :
    (p.job source none []).Scratch k := by
  have hleaf {leaf : Leaf} (h : leaf ∈ (p.job source none []).leaves) :
      ∃ c t, p.language.lexer.nextToken source c = some t ∧ leaf = .ofToken t := by
    obtain ⟨token, htoken, rfl⟩ := List.mem_map.1 h
    rcases TokenStream.exists_of_mem_relexFrom (Array.mem_toList_iff.1 htoken) with
        h | ⟨c, t, hnext, hleaf⟩
    · exact absurd h (Array.not_mem_empty token)
    · exact ⟨c, t, hnext, hleaf⟩
  refine ⟨hp, rfl, fun leaf h => ?_, fun leaf h => ?_, fun leaf h herror => ?_⟩
  · obtain ⟨c, t, -, rfl⟩ := hleaf h
    rfl
  · obtain ⟨c, t, hnext, rfl⟩ := hleaf h
    rw [hp] at hnext
    exact (Lexer.emits_of_nextToken hnext).1
  · obtain ⟨c, t, hnext, rfl⟩ := hleaf h
    exact (Lexer.emits_of_nextToken hnext).2 herror

/-- A parse from scratch makes no error exactly for sentences of the grammar. Otherwise it fails
first at the first token that nothing can go on with behind the tokens before it, or else at the
end. -/
theorem parse_exact (k : Compilation) (hextras : k.ExtrasApart) (hword : k.flat.word = none)
    (hsingle : Table.SingleCandidates k.flat k.mode) {job : Job} (hjob : job.Scratch k)
    (hroom : job.HasRoom) :
    ((job.run {}).root.hasError = false ↔
      Derives k.flat [k.flat.start] (kindsOf k.language job.leaves)) ∧
      (¬ Derives k.flat [k.flat.start] (kindsOf k.language job.leaves) → ∃ m, job.FailsFirst m) ∧
      ∀ m, job.FailsFirst m → k.flat.Continues (job.read m) ∧
        ∀ x, (job.unread m).head? = some x → ¬ k.flat.Continues (job.read m ++ [x]) := by
  have hcases := hjob.run_cases hextras hword hsingle hroom
  refine ⟨⟨fun hclean => ?_, fun hsentence => ?_⟩, fun hno => ?_, fun m hm => ?_⟩
  · rcases hcases with ⟨-, hsentence⟩ | ⟨herror, -⟩
    · exact hsentence
    · rw [hclean] at herror
      contradiction
  · rcases hcases with ⟨hclean, -⟩ | ⟨-, m, hm⟩
    · exact hclean
    · exact absurd hsentence (hjob.continues_of_failsFirst hextras hword hsingle hroom hm).2.2
  · rcases hcases with ⟨-, hsentence⟩ | ⟨-, hfails⟩
    · exact absurd hsentence hno
    · exact hfails
  · obtain ⟨hcontinues, hnext, -⟩ := hjob.continues_of_failsFirst hextras hword hsingle hroom hm
    exact ⟨hcontinues, hnext⟩

namespace Brackets

private theorem singleCandidates (mode : Table.Mode) :
    Table.SingleCandidates (Compilation.brackets mode).flat mode := by
  refine Table.singleCandidates_of_states first_eq (automaton_eq mode) ?_
  cases mode with
  | canonical => cbv
  | lalr => cbv

/-- The text ()), in which the last bracket has no partner. -/
def unbalanced : Job := job [opening, closing, closing]

private theorem scratch_unbalanced : unbalanced.Scratch (.brackets .lalr) := by
  have hjob : parser.job #[40, 41, 41] none [] = unbalanced := job_of_tokens (by cbv)
  rw [← hjob]
  exact Parser.scratch_job (.brackets .lalr) rfl _

private theorem passes_unbalanced :
    unbalanced.passes (fun m => decide (m.reductions < reductionLimit))
    (fun o => o.root.hasError) 20 {} = true := by cbv

private theorem hasRoom_unbalanced : unbalanced.HasRoom := by
  intro n hn kind production _
  simpa using (Job.of_passes passes_unbalanced).1 n hn.reaches

end Brackets

/-- The text ()) is no sentence, and its parse fails first where its beginning can go on, but not
with what follows. -/
theorem parse_exact_brackets :
    (Brackets.unbalanced.run {}).root.hasError = true ∧
      ¬ Derives Brackets.flat [Brackets.flat.start]
        (kindsOf (Compilation.brackets .lalr).language Brackets.unbalanced.leaves) ∧
      ∃ m, Brackets.unbalanced.FailsFirst m ∧
        Brackets.flat.Continues (Brackets.unbalanced.read m) ∧
        ∀ x, (Brackets.unbalanced.unread m).head? = some x →
          ¬ Brackets.flat.Continues (Brackets.unbalanced.read m ++ [x]) := by
  obtain ⟨hclean, hfails, hfirst⟩ := parse_exact (.brackets .lalr) (Brackets.extrasApart .lalr) rfl
    (Brackets.singleCandidates .lalr) Brackets.scratch_unbalanced Brackets.hasRoom_unbalanced
  have herror := (Job.of_passes Brackets.passes_unbalanced).2
  have hno := fun h => Bool.false_ne_true ((hclean.2 h).symm.trans herror)
  obtain ⟨m, hm⟩ := hfails hno
  exact ⟨herror, hno, m, hm, hfirst m hm⟩

end Reparse

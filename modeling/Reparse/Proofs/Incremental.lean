import Reparse.Proofs.Fronts
import Reparse.Proofs.Neighbours
import Reparse.Proofs.Reports

/-! # Parses from an old tree

A run that takes over subtrees is followed by a run from scratch on the same tokens: each step is
made there too, and for a subtree that is taken over the steps that make it again. The runs differ
in their counts of reductions only. -/
namespace Reparse
open Text

namespace Parse

namespace Machine

/-- The machine with other counts of reductions and of subtrees taken over. -/
def recount (m : Machine) (reductions reused : Nat) : Machine :=
  { m with reductions, reusedNodes := reused }

variable {m : Machine} {a b : Nat}

private theorem eq_recount {n : Machine} (stack : n.stack = m.stack)
    (pending : n.pending = m.pending) (position : n.position = m.position)
    (recovery : n.recovery = m.recovery) : n = m.recount n.reductions n.reusedNodes := by
  cases m
  cases n
  simp only at stack pending position recovery
  subst stack pending position recovery
  rfl

private theorem flush_recount : (m.recount a b).flush = m.flush.recount a b := by
  unfold flush recount
  dsimp only
  cases m.recovery.errorState <;> rfl

end Machine

namespace Job

variable {job : Job} {m n : Machine} {a b : Nat}

/-- The job without an old tree. -/
def fresh (job : Job) : Job := { job with reuse := none }

/-- In the next step a subtree that begins with an empty node is pushed behind extras that wait, so
that they come before the empty node. -/
def Overtakes (job : Job) (m : Machine) : Prop :=
  ∃ t next, job.reusable? (job.collectExtras m) = some (t, next) ∧
  (job.collectExtras m).pending ≠ #[] ∧ t.startsEmpty = true

/-- Without empty productions no node is empty. -/
private theorem not_overtakes (hreplays : job.Replays)
    (hproductions : ∀ info ∈ job.language.table.productions, info.fields ≠ #[]) (m : Machine) :
    ¬ job.Overtakes m := by
  rintro ⟨t, next, found, -, hstarts⟩
  have hfalse : t.startsEmpty = false :=
    (hreplays _ t next found).startsEmpty_eq_false hproductions _ (List.mem_singleton.2 rfl)
  rw [hstarts] at hfalse
  contradiction

private theorem collectExtras_recount (job : Job) (m : Machine) :
    job.fresh.collectExtras (m.recount a b) = (job.collectExtras m).recount a b := by
  fun_induction collectExtras job m with
  | case1 m h leaf hextra ih =>
    rw [collectExtras, dif_pos (show (m.recount a b).position < job.fresh.stream.size from h)]
    exact (if_pos hextra).trans ih
  | case2 m h leaf hextra =>
    rw [collectExtras, dif_pos (show (m.recount a b).position < job.fresh.stream.size from h)]
    exact if_neg hextra
  | case3 m h =>
    rw [collectExtras, dif_neg (show ¬ (m.recount a b).position < job.fresh.stream.size from h)]

theorem recover_recount (job : Job) (m : Machine) : job.fresh.recover (m.recount a b) =
    if !job.config.errorRecovery || job.config.maxErrors < m.failed.recovery.errors then
      .done ((m.failed.recount a b).abandon job)
    else match (if m.failed.recovery.attempts ≤ job.config.maxAttempts then
        m.stack.unwindTo? fun state =>
          job.language.hasAction state (job.leaf? m.position) else none) with
    | some (popped, stack) => .next ((m.failed.resume popped stack).recount a b)
    | none => match job.leaf? m.position with
      | some leaf => .next ((m.failed.skip leaf).recount a b)
      | none => .done ((m.failed.recount a b).abandon job) := rfl

private theorem act_recount (job : Job) (m : Machine) : job.fresh.act (m.recount a b) =
    match job.language.actionFor m.stack.top.state (job.leaf? m.position) with
    | (kind, some (.shift next)) => match job.leaf? m.position with
      | some leaf => .next ((m.flush.push next (.leaf (leaf.reinterpret kind)) 1).recount 0 b)
      | none => .done ((m.flush.recount a b).abandon job)
    | (_, some (.reduce production)) => match job.reduction? m production with
      | some (info, next) =>
        if a < reductionLimit then .next ((m.reduced job.language info next).recount (a + 1) b)
        else .done ((m.recount a b).abandon job)
      | none => .done ((m.recount a b).abandon job)
    | (_, some .accept) => .done ((m.flush.recount a b).accept job.language.start)
    | (_, none) => job.fresh.recover (m.recount a b) := by
  rw [act_of_fresh rfl, Machine.flush_recount]
  rfl

/-- Steps that do the same, up to the counts. -/
inductive Follows (b : Nat) : Progress → Progress → Prop
  | next {n : Machine} {a : Nat} (le : n.reductions ≤ a) :
      Follows b (.next n) (.next (n.recount a b))
  | done {o o' : Outcome} (root : o'.root = o.root) : Follows b (.done o) (.done o')

private theorem follows_recover (hle : m.reductions ≤ a) :
    Follows b (job.recover m) (job.fresh.recover (m.recount a b)) := by
  rw [recover_eq, recover_recount]
  by_cases hstop : (!job.config.errorRecovery || job.config.maxErrors < m.failed.recovery.errors) =
    true
  · rw [if_pos hstop, if_pos hstop]
    exact .done rfl
  · rw [if_neg hstop, if_neg hstop]
    cases (if m.failed.recovery.attempts ≤ job.config.maxAttempts then
      m.stack.unwindTo? fun state =>
        job.language.hasAction state (job.leaf? m.position) else none) with
    | some found => exact .next hle
    | none =>
      cases job.leaf? m.position with
      | some leaf => exact .next hle
      | none => exact .done rfl

/-- Where nothing is taken over, the run from scratch does the same, if it may make another
reduction. -/
theorem follows_act (hnothing : job.reusable? m = none) (hle : m.reductions ≤ a)
    (hroom : ∀ kind production, job.language.actionFor m.stack.top.state (job.leaf? m.position) =
      (kind, some (.reduce production)) → a < reductionLimit) :
    Follows b (job.act m) (job.fresh.act (m.recount a b)) := by
  rw [act_recount]
  unfold act
  rw [hnothing]
  cases haction : job.language.actionFor m.stack.top.state (job.leaf? m.position) with
  | mk kind action =>
    cases action with
    | none => exact follows_recover hle
    | some action =>
      cases action with
      | accept => exact .done rfl
      | shift next =>
        dsimp only
        cases job.leaf? m.position with
        | some leaf => exact .next (Nat.le_refl 0)
        | none => exact .done rfl
      | reduce production =>
        dsimp only
        cases job.reduction? m production with
        | none => exact .done rfl
        | some found =>
          have hlt := hroom kind production haction
          dsimp only
          rw [if_pos hlt, if_pos (Nat.lt_of_le_of_lt hle hlt)]
          exact .next (Nat.succ_le_succ hle)

/-! ## Places -/

theorem inside_collectExtras (h : m.position ≤ job.leaves.length) :
    (job.collectExtras m).position ≤ job.leaves.length := by
  fun_induction collectExtras job m with
  | case1 m hlt leaf hextra ih =>
    refine ih ?_
    rw [leaves, List.length_map, Array.length_toList]
    exact hlt
  | case2 => exact h
  | case3 => exact h

private theorem lt_length_of_leaf? {position : Nat} {leaf : Leaf}
    (h : job.leaf? position = some leaf) :
    position < job.leaves.length := by
  rw [leaf?_eq] at h
  exact (List.getElem?_eq_some_iff.1 h).1

/-- A step does not go beyond the last token. -/
theorem inside_of_act (hjob : job.Sound) {progress : Progress} (hact : Act job m progress)
    (h : m.position ≤ job.leaves.length) :
    progress.Satisfies (fun n => n.position ≤ job.leaves.length) fun _ => True := by
  cases hact with
  | @reuse t next found =>
    obtain ⟨hconsistent, htokens⟩ := hjob.reuse m t next found
    have hlength := congrArg List.length htokens
    rw [List.length_map, List.length_take, List.length_drop] at hlength
    have hcount : t.leafCount ≤ t.frontier.length := by
      rw [hconsistent.leafCount_eq]
      exact Nat.min_le_left _ _
    change m.position + t.leafCount ≤ _
    omega
  | shift fresh here action =>
    change m.flush.position + 1 ≤ _
    rw [Machine.flush_position]
    exact lt_length_of_leaf? here
  | reduce => exact h
  | resume => exact h
  | skip fresh here action => exact lt_length_of_leaf? here
  | accept => trivial
  | giveUp => trivial
  | stuck => trivial
  | overrun => trivial
  | shiftAtEnd => trivial

private theorem inside_of_reaches (hjob : job.Sound) (hreached : job.Reaches m n)
    (h : m.position ≤ job.leaves.length) :
    n.position ≤ job.leaves.length := by
  induction hreached with
  | refl => exact h
  | @tail n n' _ hstep ih =>
    have hinside := inside_of_act hjob (step_cases job n) (inside_collectExtras ih)
    rwa [hstep] at hinside

/-- Machines at a token with the same tokens ahead stand at the same place. -/
private theorem place_eq (job : Job) (hm : job.AtToken m) (hn : job.AtToken n)
    (hwaiting : job.WaitingExtras m) (hwaiting' : job.WaitingExtras n)
    (hinside : m.position ≤ job.leaves.length) (hinside' : n.position ≤ job.leaves.length)
    (h : job.ahead m = job.ahead n) : m.pending = n.pending ∧ m.position = n.position := by
  have hpending {m : Machine} (hat : job.AtToken m) (hwaiting : job.WaitingExtras m) :
      (job.ahead m).takeWhile (fun x => job.language.isExtra x.kind) = m.pending.toList := by
    rw [ahead, List.takeWhile_append_of_pos fun x hx => hwaiting x (Array.mem_toList_iff.1 hx)]
    cases hleaf : job.leaf? m.position with
    | none => rw [drop_of_leaf?_eq_none hleaf, List.takeWhile_nil, List.append_nil]
    | some leaf =>
      rw [drop_of_leaf? hleaf, List.takeWhile_cons_of_neg (by simp [hat leaf hleaf]),
        List.append_nil]
  have heq : m.pending = n.pending :=
    Array.toList_inj.1 (by rw [← hpending hm hwaiting, ← hpending hn hwaiting', h])
  refine ⟨heq, ?_⟩
  have hlength := congrArg List.length h
  rw [ahead, ahead, heq, List.length_append, List.length_append, List.length_drop,
    List.length_drop] at hlength
  omega

/-! ## Runs -/

private theorem collectExtras_collectExtras (job : Job) (m : Machine) :
    job.collectExtras (job.collectExtras m) = job.collectExtras m :=
  collectExtras_of_atToken (atToken_collectExtras job m)

private theorem step_of_collectExtras (h : job.collectExtras m = job.collectExtras n) :
    job.step m = job.step n := by
  rw [step, step, h]

private theorem Overruns.of_collectExtras (hn : job.Overruns n)
    (h : job.collectExtras m = job.collectExtras n) : job.Overruns m := by
  obtain ⟨hfull, hreduces⟩ := hn
  refine ⟨?_, by rwa [h]⟩
  rwa [← collectExtras_reductions job m, h, collectExtras_reductions]

private theorem run_of_reaches (h : job.Reaches m n) : job.run m = job.run n := by
  induction h with
  | refl => rfl
  | tail _ hstep ih => rw [ih, run_of_next hstep]

/-- What is reached from the next token is reached. -/
private theorem reaches_of_collectExtras (h : job.Reaches (job.collectExtras m) n) :
    ∃ n', job.Reaches m n' ∧ job.collectExtras n' = job.collectExtras n := by
  rcases h.cases_head with rfl | ⟨next, hstep, hrest⟩
  · exact ⟨m, .refl, (collectExtras_collectExtras job m).symm⟩
  · rw [step_of_collectExtras (collectExtras_collectExtras job m)] at hstep
    exact ⟨n, .head hstep hrest, rfl⟩

private theorem Quiet.reaches {stack : Stack} (h : Relation.ReflTransGen (job.Quiet stack) m n) :
    job.Reaches m n :=
  h.lift id fun _ _ hquiet => hquiet.step

private theorem Sound.fresh (h : job.Sound) : job.fresh.Sound where
  lexed := h.lexed
  reuse m t next found := by
    obtain ⟨-, r, hr, -⟩ := of_reusable? found
    contradiction
  accept := h.accept

/-- A subtree that is taken over behind waiting extras is made of the extras and its tokens. -/
private theorem builds_reuse (hjob : job.Sound) (hword : job.language.WordApart)
    (hreplays : job.Replays) (hlossless : m.Lossless job) (hwaiting : job.WaitingExtras m)
    (hat : job.AtToken m) {t : Tree} {next : Nat} (found : job.reusable? m = some (t, next))
    (hfront : m.pending = #[] ∨ t.startsEmpty = false) :
    Builds job.language m.stack.top.state (m.pending.toList ++ t.frontier.map Leaf.asLexed)
      [⟨next, (m.pending.map fun x => (none, .leaf x)).push (none, t)⟩]
        (firstProper job.language (job.leaves.drop (m.position + t.leafCount))) := by
  have hbuilds := hreplays m t next found
  rcases hfront with hnone | hstarts
  · simpa [hnone] using hbuilds
  · have hextras : ∀ x ∈ m.pending, job.language.isExtra x.kind = true ∧
        x.asLexed = x := fun x hx =>
      ⟨hwaiting x hx,
        hjob.lexed x (hlossless.ahead_subset (List.mem_append_left _ (Array.mem_toList_iff.2 hx)))⟩
    refine hbuilds.lead_tree hword hextras (fun x hx => ?_) hstarts
    rw [(hjob.reuse m t next found).2, List.head?_eq_getElem?, List.getElem?_take] at hx
    split at hx
    · rw [List.getElem?_drop, ← leaf?_eq] at hx
      exact hat x hx
    · contradiction

/-- Where a subtree is taken over, the run from scratch makes it of its tokens, unless it makes too
many reductions. -/
theorem follows_reuse (hjob : job.Sound) (hword : job.language.WordApart) (hreplays : job.Replays)
    (hlossless : m.Lossless job) (hwaiting : job.WaitingExtras m)
    (hinside : m.position ≤ job.leaves.length) (hat : job.AtToken m) {t : Tree} {next : Nat}
    (found : job.reusable? m = some (t, next)) (hfront : m.pending = #[] ∨ t.startsEmpty = false)
    (a b : Nat) :
    ∃ n, job.fresh.Reaches (m.recount a b) n ∧ (job.fresh.Overruns n ∨
      ∃ a' b', job.fresh.collectExtras n =
        (job.collectExtras (m.reused t next)).recount a' b') := by
  have hidle : (m.recount a b).Idle := (of_reusable? found).1
  have hnone : job.fresh.reuse = none := rfl
  have hbuilds := builds_reuse hjob hword hreplays hlossless hwaiting hat found hfront
  have hahead : job.fresh.ahead (m.recount a b) =
      m.pending.toList ++ t.frontier.map Leaf.asLexed ++
        job.leaves.drop (m.position + t.leafCount) := by
    rw [(hjob.reuse m t next found).2, ← List.drop_drop, List.append_assoc, List.take_append_drop]
    rfl
  obtain ⟨n, hreached, hstands | hoverruns⟩ := Builds.run hnone hidle hbuilds rfl hwaiting hahead
  · have hplace :=
      place_eq job (atToken_collectExtras job.fresh n) (atToken_collectExtras job (m.reused t next))
      hstands.collectExtras.waiting
      (waitingExtras_collectExtras fun x hx => absurd hx (Array.not_mem_empty x))
      (inside_collectExtras (inside_of_reaches hjob.fresh (Quiet.reaches hreached) hinside))
      (inside_collectExtras (inside_of_act hjob (.reuse found) hinside))
      (by rw [ahead_collectExtras]; exact hstands.collectExtras.ahead)
    refine ⟨n, Quiet.reaches hreached, .inr ⟨_, _, Machine.eq_recount ?_ ?_ ?_ ?_⟩⟩
    · refine Stack.entries_injective (hstands.collectExtras.stack.trans ?_)
      rw [collectExtras_stack]
      exact (Stack.entries_push _ _).symm
    · exact hplace.1
    · exact hplace.2
    · exact hstands.collectExtras.recovery.trans (collectExtras_recovery job (m.reused t next)).symm
  · exact ⟨n, Quiet.reaches hreached, .inl hoverruns⟩

private theorem front_of_not_overtakes (h : ¬ job.Overtakes m) {t : Tree} {next : Nat}
    (found : job.reusable? (job.collectExtras m) = some (t, next)) :
    (job.collectExtras m).pending = #[] ∨ t.startsEmpty = false := by
  rw [← Bool.not_eq_true]
  by_contra hboth
  obtain ⟨hpending, hstarts⟩ := not_or.1 hboth
  exact h ⟨t, next, found, hpending, not_not.1 hstarts⟩

/-- Without a subtree to take over, both runs do the same at a token. -/
theorem follows_step (hnothing : job.reusable? (job.collectExtras m) = none)
    (hplace : job.fresh.collectExtras n = (job.collectExtras m).recount a b)
    (hle : m.reductions ≤ a) (hroom : ¬ job.fresh.Overruns n) :
    Follows b (job.step m) (job.fresh.step n) := by
  rw [step, step, hplace]
  refine follows_act hnothing (by rwa [collectExtras_reductions]) fun kind production action => ?_
  refine Nat.lt_of_not_le fun hfull => hroom ⟨?_, kind, production, ?_⟩
  · rw [← collectExtras_reductions, hplace]
    exact hfull
  · rw [hplace]
    exact action

private theorem act_of_found {t : Tree} {next : Nat} (found : job.reusable? m = some (t, next)) :
    job.act m = .next (m.reused t next) := by
  unfold act
  rw [found]
  rfl

/-- A run with an old tree ends as the run from scratch that stands at the same token, if no subtree
that begins with an empty node is pushed behind extras, and the run from scratch does not make too
many reductions. -/
theorem root_run_fresh (hjob : job.Sound) (hword : job.language.WordApart) (hreplays : job.Replays)
    {start : Machine} (hlossless : m.Lossless job) (hwaiting : job.WaitingExtras m)
    (hinside : m.position ≤ job.leaves.length) (hfront : ∀ n, job.Reaches m n → ¬ job.Overtakes n)
    (hroom : ∀ n, job.fresh.Reaches start n → ¬ job.fresh.Overruns n)
    (hreached : job.fresh.Reaches start n)
    (hplace : job.fresh.collectExtras n = (job.collectExtras m).recount a b)
    (hle : m.reductions ≤ a) : (job.fresh.run n).root = (job.run m).root := by
  -- The induction is on the steps of the run with the old tree. The run from scratch, which may
  -- make several for one of them, stands at the same token after each.
  fun_induction run job m generalizing n a b with
  | case1 m m' hstep ih =>
    have hact := step_cases job m
    rw [hstep] at hact
    have hlossless' := lossless_of_act hjob hact hlossless.collectExtras
    have hwaiting' := waitingExtras_of_act hact (waitingExtras_collectExtras hwaiting)
    have hinside' := inside_of_act hjob hact (inside_collectExtras hinside)
    have hfront' : ∀ n, job.Reaches m' n → ¬ job.Overtakes n :=
      fun n hn => hfront n (.head hstep hn)
    cases hfound : job.reusable? (job.collectExtras m) with
    | some found =>
      obtain ⟨t, next⟩ := found
      obtain rfl : (job.collectExtras m).reused t next = m' :=
        Progress.next.inj ((act_of_found hfound).symm.trans hstep)
      have hstarts := front_of_not_overtakes (hfront m .refl) hfound
      obtain ⟨n₁, hmade, hends⟩ := follows_reuse hjob hword hreplays hlossless.collectExtras
        (waitingExtras_collectExtras hwaiting) (inside_collectExtras hinside)
        (atToken_collectExtras job m) hfound hstarts a b
      rw [← hplace] at hmade
      obtain ⟨n₂, hmade', hsame⟩ := reaches_of_collectExtras hmade
      rcases hends with hoverruns | ⟨a', b', hplace'⟩
      · exact absurd (hoverruns.of_collectExtras hsame) (hroom n₂ (hreached.trans hmade'))
      · rw [run_of_reaches hmade']
        exact ih hlossless' hwaiting' hinside' hfront' (hreached.trans hmade')
          (hsame.trans hplace') (Nat.zero_le a')
    | none =>
      have hsteps := follows_step hfound hplace hle (hroom n hreached)
      rw [hstep] at hsteps
      generalize hstep' : job.fresh.step n = progress at hsteps
      cases hsteps with
      | next hle' =>
        rw [run_of_next hstep']
        exact ih hlossless' hwaiting' hinside' hfront' (hreached.tail hstep')
          (collectExtras_recount job m') hle'
  | case2 m o hstep =>
    cases hfound : job.reusable? (job.collectExtras m) with
    | some found =>
      rw [step, act_of_found hfound] at hstep
      contradiction
    | none =>
      have hsteps := follows_step hfound hplace hle (hroom n hreached)
      rw [hstep] at hsteps
      generalize hstep' : job.fresh.step n = progress at hsteps
      cases hsteps with
      | done hroot =>
        rw [run_of_done hstep']
        exact hroot

/-- Whether there would be one reduction too many depends on the leaves only. -/
private theorem Overruns.congr {l : Language} {config : Config} {s s' : Array StreamToken}
    (h : s.map (·.leaf) = s'.map (·.leaf)) (hm : Overruns ⟨l, config, s, none⟩ m) :
    Overruns ⟨l, config, s', none⟩ m := by
  unfold Overruns at hm ⊢
  rwa [← collectExtras_congr h, ← leaf?_congr h]

end Job
end Parse

open Parse

/-- After truthful edits, a parse that may take over parts of the tree of the old text makes the
tree that a parse from scratch makes, in languages whose word is no extra. No subtree that begins
with an empty node may be pushed behind extras, since they would have come behind that node, and the
parse from scratch must not run out of reductions, which are counted anew behind each subtree. -/
theorem parse_edited (k : Compilation) (hword : k.language.WordApart) {p q : Parser}
    (hp : p.language = k.language) (hq : q.language = k.language) {old new : Bytes}
    (hold : old.size ≤ maxSize) (hnew : new.size ≤ maxSize) {edits : List Edit}
    (hedits : Edit.Leads edits old new)
    (hfront : ∀ m, (p.job new (some (q.parse old)) edits).Reaches {} m →
      ¬ (p.job new (some (q.parse old)) edits).Overtakes m)
    (hroom : ∀ m, (p.job new none []).Reaches {} m → ¬ (p.job new none []).Overruns m) :
    (p.parse new (some (q.parse old)) edits).root = (p.parse new).root := by
  have heq {t : SyntaxTree} (ht : p.usable (some (q.parse old)) = some t) : q.parse old = t :=
    Option.some.inj (Option.filter_eq_some_iff.1 ht).1
  have hsound : (p.job new (some (q.parse old)) edits).Sound :=
    p.sound_job k hp hnew fun t ht => heq ht ▸ Parser.faithful_scratch k hq hold
  have hagain : (p.tokens new (some (q.parse old)) edits).tokens.toList.map (·.leaf) = _ :=
    p.leaves_tokens k hp hnew fun t ht => heq ht ▸ Parser.reliable_scratch k hq hold hnew hedits
  have hscratch : (p.tokens new none []).tokens.toList.map (·.leaf) = _ :=
    p.leaves_tokens k hp hnew nofun
  have hleaves : (p.tokens new (some (q.parse old)) edits).tokens.map (·.leaf) =
      (p.tokens new none []).tokens.map (·.leaf) :=
    Array.toList_inj.1 (by simpa using hagain.trans hscratch.symm)
  have hrun : ((p.job new (some (q.parse old)) edits).fresh.run {}).root = _ :=
    Job.root_run_fresh (a := 0) (b := 0) hsound (show p.language.WordApart by rwa [hp])
      (p.replays_job k hword hp hq hold hnew) (Machine.lossless_start _) nofun
      (Nat.zero_le _) hfront (fun m hm hover =>
      hroom m (Job.reaches_congr hleaves hm) (hover.congr hleaves)) .refl
      (Job.collectExtras_recount _ {}) (Nat.le_refl 0)
  rw [Parser.root_parse, ← hrun, Parser.root_parse]
  exact congrArg Outcome.root (Job.run_congr hleaves {})

namespace Keyword

/-- No production is empty. -/
private theorem fields_ne_empty :
    ∀ info ∈ (Compilation.keyword .canonical).language.table.productions, info.fields ≠ #[] := by
  have hall : (Compilation.keyword .canonical).language.table.productions.all
      (fun info => !info.fields.isEmpty) = true := by
    cbv
  intro info hinfo hnone
  have hfields := Array.all_eq_true_iff_forall_mem.1 hall info hinfo
  rw [hnone] at hfields
  contradiction

/-- The reductions in the text #kkk are few. -/
private theorem not_overruns (m : Machine)
    (hm : ((parser .canonical).job #[35, 107, 107, 107] none []).Reaches {} m) :
    ¬ ((parser .canonical).job #[35, 107, 107, 107] none []).Overruns m := by
  rintro ⟨hfull, -⟩
  have hpasses : ((parser .canonical).job #[35, 107, 107, 107] none []).passes
      (fun m => decide (m.reductions < reductionLimit)) (fun _ => true) 9 {} = true := by cbv
  have hlt := of_decide_eq_true ((Job.of_passes hpasses).1 m hm)
  exact Nat.not_lt.2 hfull hlt

end Keyword

/-- In front of the text kkk an unknown byte is added, and the word between the keywords is taken
over. -/
theorem parse_edited_keywords :
    ((Keyword.parser .canonical).parse #[35, 107, 107, 107]
      (some ((Keyword.parser .canonical).parse #[107, 107, 107]))
      [{ start := 0, oldEnd := 0, newEnd := 1 }]).root =
        ((Keyword.parser .canonical).parse #[35, 107, 107, 107]).root := by
  have hturns : ({ start := 0, oldEnd := 0, newEnd := 1 } : Edit).Turns #[107, 107, 107]
      #[35, 107, 107, 107] :=
    ⟨by decide, by decide, #[35], rfl, by decide⟩
  have hreplays : ((Keyword.parser .canonical).job #[35, 107, 107, 107]
      (some ((Keyword.parser .canonical).parse #[107, 107, 107]))
      [{ start := 0, oldEnd := 0, newEnd := 1 }]).Replays :=
    Parser.replays_job (.keyword .canonical) (Keyword.wordApart .canonical) rfl rfl
      (by decide) (by decide)
  exact parse_edited (.keyword .canonical) (Keyword.wordApart .canonical) rfl rfl
    (by decide) (by decide) (.cons hturns (.nil _))
    (fun m _ => Job.not_overtakes hreplays Keyword.fields_ne_empty m) Keyword.not_overruns

end Reparse

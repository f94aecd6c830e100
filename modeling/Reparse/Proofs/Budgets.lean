import Reparse.Proofs.Takeover

/-! # Runs end and keep to their budgets

Nothing is assumed of the language here: its tables may hold any actions, so that reductions may go
in circles. -/
namespace Reparse
open Text Parse

namespace Parse

/-- What a step does that does not end the run. -/
inductive Deed where
  | reuse
  | shift
  | reduce
  | unwind
  | skip
deriving DecidableEq

namespace Job

variable {job : Job} {m n : Machine} {start : Machine} {deeds : List (Nat × Deed)}

/-- What a machine at a token does when it goes on, with the budgets that allow it. -/
inductive Goes (job : Job) (m : Machine) : Deed → Machine → Prop
  | reuse {t : Tree} {next : Nat} (found : job.reusable? m = some (t, next)) :
      Goes job m .reuse (m.reused t next)
  | shift {leaf : Leaf} {kind : Kind} {next : Nat} (here : job.leaf? m.position = some leaf)
      (action : job.language.actionFor m.stack.top.state (some leaf) = (kind, some (.shift next))) :
      Goes job m .shift (m.flush.push next (.leaf (leaf.reinterpret kind)) 1)
  | reduce {kind : Kind} {production next : Nat} {info : Table.ProductionInfo}
      (action : job.language.actionFor m.stack.top.state (job.leaf? m.position) =
        (kind, some (.reduce production)))
      (applies : job.reduction? m production = some (info, next))
      (room : m.reductions < reductionLimit) : Goes job m .reduce (m.reduced job.language info next)
  | unwind {popped : List Entry} {stack : Stack}
      (errors : m.failed.recovery.errors ≤ job.config.maxErrors)
      (attempts : m.failed.recovery.attempts ≤ job.config.maxAttempts)
      (found : m.stack.unwindTo?
        (fun state => job.language.hasAction state (job.leaf? m.position)) = some (popped, stack)) :
      Goes job m .unwind (m.failed.resume popped stack)
  | skip {leaf : Leaf} (errors : m.failed.recovery.errors ≤ job.config.maxErrors)
      (here : job.leaf? m.position = some leaf) : Goes job m .skip (m.failed.skip leaf)

private theorem goes_of_recover (h : job.recover m = .next n) : ∃ deed, job.Goes m deed n := by
  rw [recover_eq] at h
  split at h
  · contradiction
  · next hgoes =>
    have herrors : m.failed.recovery.errors ≤ job.config.maxErrors := by
      simp only [Bool.or_eq_true, decide_eq_true_eq, not_or] at hgoes
      exact Nat.le_of_not_lt hgoes.2
    split at h
    · next popped stack hunwind =>
      obtain rfl := Progress.next.inj h
      split at hunwind
      · next hattempts => exact ⟨.unwind, .unwind herrors hattempts hunwind⟩
      · contradiction
    · split at h
      · next leaf hleaf =>
        obtain rfl := Progress.next.inj h
        exact ⟨.skip, .skip herrors hleaf⟩
      · contradiction

private theorem goes_of_act (h : job.act m = .next n) : ∃ deed, job.Goes m deed n := by
  simp only [act] at h
  split at h
  · next t next found =>
    obtain rfl := Progress.next.inj h
    exact ⟨.reuse, .reuse found⟩
  · split at h
    · next kind next action =>
      split at h
      · next leaf here =>
        obtain rfl := Progress.next.inj h
        rw [here] at action
        exact ⟨.shift, .shift here action⟩
      · contradiction
    · next kind production action =>
      split at h
      · next info next applies =>
        split at h
        · next room =>
          obtain rfl := Progress.next.inj h
          exact ⟨.reduce, .reduce action applies room⟩
        · contradiction
      · contradiction
    · contradiction
    · exact goes_of_recover h

/-- Some steps from one machine to another, with what each does and the position of the token at
which it does it. -/
inductive Journey (job : Job) (start : Machine) : List (Nat × Deed) → Machine → Prop
  | nil : Journey job start [] start
  | snoc {m n : Machine} {deeds : List (Nat × Deed)} {deed : Deed}
      (before : Journey job start deeds m) (step : job.step m = .next n)
      (goes : job.Goes (job.collectExtras m) deed n) :
      Journey job start (deeds ++ [((job.collectExtras m).position, deed)]) n

/-- The beginning of a journey is a journey. -/
private theorem Journey.of_append {later : List (Nat × Deed)}
    (h : job.Journey start (deeds ++ later) n) :
    ∃ m, job.Journey start deeds m := by
  generalize hall : deeds ++ later = all at h
  induction h generalizing later with
  | nil =>
    obtain ⟨rfl, -⟩ := List.append_eq_nil_iff.1 hall
    exact ⟨start, .nil⟩
  | @snoc m n before deed hbefore step goes ih =>
    rcases List.eq_nil_or_concat' later with rfl | ⟨earlier, last, rfl⟩
    · rw [List.append_nil] at hall
      exact ⟨n, hall ▸ hbefore.snoc step goes⟩
    · rw [← List.append_assoc] at hall
      exact ih (List.append_inj_left' hall rfl)

/-- A run is a journey to a machine whose step ends it. -/
theorem Journey.reaches_end (h : job.Journey start deeds m) :
    ∃ deeds n, job.Journey start deeds n ∧ job.step n = .done (job.run m) := by
  fun_induction run job m generalizing deeds with
  | case1 m n hn ih =>
    obtain ⟨deed, hgoes⟩ := goes_of_act hn
    exact ih (h.snoc hn hgoes)
  | case2 m o ho => exact ⟨deeds, m, h, ho⟩

/-! ## Attempts to recover -/

/-- How often entries were closed into an error at a token. -/
def unwinds (deeds : List (Nat × Deed)) (position : Nat) : Nat := deeds.count (position, .unwind)

/-- From the machine's token on, all attempts were counted. -/
structure AttemptsCounted (job : Job) (deeds : List (Nat × Deed)) (m : Machine) : Prop where
  passed : m.recovery.attemptPosition ≤ m.position
  counted : ∀ position, m.position ≤ position →
    unwinds deeds position ≤
      if position = m.recovery.attemptPosition then m.recovery.attempts else 0
  bounded : ∀ position, unwinds deeds position ≤ job.config.maxAttempts

private theorem unwinds_snoc (deeds : List (Nat × Deed)) (position p : Nat) (deed : Deed) :
    unwinds (deeds ++ [(p, deed)]) position = unwinds deeds position +
      if p = position ∧ deed = .unwind then 1 else 0 := by
  rw [unwinds, List.count_append, List.count_singleton]
  simp [unwinds]

private theorem unwinds_snoc_other {deed : Deed} (h : deed ≠ .unwind) (deeds : List (Nat × Deed))
    (position p : Nat) :
    unwinds (deeds ++ [(p, deed)]) position = unwinds deeds position := by
  rw [unwinds_snoc, if_neg fun hboth => h hboth.2, Nat.add_zero]

private theorem attemptsCounted_start (job : Job) : job.AttemptsCounted [] {} where
  passed := Nat.le_refl 0
  counted _ _ := Nat.zero_le _
  bounded _ := Nat.zero_le _

private theorem AttemptsCounted.collectExtras (h : job.AttemptsCounted deeds m) :
    job.AttemptsCounted deeds (job.collectExtras m) where
  passed := by
    rw [collectExtras_recovery]
    exact Nat.le_trans h.passed (position_le_collectExtras job m)
  counted position hposition := by
    rw [collectExtras_recovery]
    exact h.counted position (Nat.le_trans (position_le_collectExtras job m) hposition)
  bounded := h.bounded

/-- Moves that try nothing keep the count. -/
private theorem AttemptsCounted.other (h : job.AttemptsCounted deeds m) {deed : Deed}
    (hdeed : deed ≠ .unwind) (hposition : m.position ≤ n.position)
    (hattempts : n.recovery.attempts = m.recovery.attempts)
    (hat : n.recovery.attemptPosition = m.recovery.attemptPosition) (p : Nat) :
    job.AttemptsCounted (deeds ++ [(p, deed)]) n where
  passed := by
    rw [hat]
    exact Nat.le_trans h.passed hposition
  counted position hle := by
    rw [unwinds_snoc_other hdeed, hattempts, hat]
    exact h.counted position (Nat.le_trans hposition hle)
  bounded position := by
    rw [unwinds_snoc_other hdeed]
    exact h.bounded position

private theorem flush_attempts (m : Machine) : m.flush.recovery.attempts = m.recovery.attempts ∧
    m.flush.recovery.attemptPosition = m.recovery.attemptPosition := by
  unfold Machine.flush
  split
  · exact ⟨rfl, rfl⟩
  · exact ⟨rfl, rfl⟩

/-- Behind the last token at which attempts were counted there were none. -/
private theorem AttemptsCounted.none_behind (h : job.AttemptsCounted deeds m) {position : Nat}
    (hlt : m.position < position) :
    unwinds deeds position = 0 := by
  have hcounted := h.counted position (Nat.le_of_lt hlt)
  rw [if_neg (Nat.ne_of_gt (Nat.lt_of_le_of_lt h.passed hlt))] at hcounted
  exact Nat.eq_zero_of_le_zero hcounted

private theorem AttemptsCounted.goes (h : job.AttemptsCounted deeds m) {deed : Deed}
    (hgoes : job.Goes m deed n) :
    job.AttemptsCounted (deeds ++ [(m.position, deed)]) n := by
  cases hgoes with
  | @reuse t next found =>
    apply h.other (by decide)
    · exact Nat.le_add_right m.position t.leafCount
    · rfl
    · rfl
  | shift here action =>
    obtain ⟨hattempts, hat⟩ := flush_attempts m
    apply h.other (by decide)
    · simp only [Machine.push, Machine.flush_position]
      omega
    · exact hattempts
    · exact hat
  | reduce action applies room =>
    apply h.other (by decide)
    · exact Nat.le_refl m.position
    · rfl
    · rfl
  | @unwind popped stack errors attempts found =>
    -- The token has one attempt more, which is within the budget, and those behind it have none.
    have hhere : unwinds deeds m.position + 1 ≤ m.failed.recovery.attempts := by
      have hcounted := h.counted m.position (Nat.le_refl _)
      simp only [Machine.failed, Recovery.fail]
      split at hcounted
      · next heq =>
        rw [if_pos heq]
        omega
      · next hne =>
        rw [if_neg hne]
        omega
    constructor
    · exact Nat.le_refl m.position
    · intro position hle
      rw [unwinds_snoc]
      change _ ≤ if position = m.position then m.failed.recovery.attempts else 0
      rcases Nat.lt_or_eq_of_le (show m.position ≤ position from hle) with hlt | rfl
      · rw [h.none_behind hlt, if_neg fun hboth => Nat.ne_of_lt hlt hboth.1,
          if_neg (Nat.ne_of_gt hlt)]
      · rwa [if_pos ⟨rfl, rfl⟩, if_pos rfl]
    · intro position
      rw [unwinds_snoc]
      by_cases heq : m.position = position
      · subst heq
        rw [if_pos ⟨rfl, rfl⟩]
        exact Nat.le_trans hhere attempts
      · rw [if_neg fun hboth => heq hboth.1, Nat.add_zero]
        exact h.bounded position
  | skip errors here =>
    constructor
    · exact Nat.le_succ m.position
    · intro position hle
      rw [unwinds_snoc_other (by decide), h.none_behind (Nat.lt_of_succ_le hle)]
      exact Nat.zero_le _
    · intro position
      rw [unwinds_snoc_other (by decide)]
      exact h.bounded position

private theorem Journey.attemptsCounted (h : job.Journey {} deeds m) :
    job.AttemptsCounted deeds m := by
  induction h with
  | nil => exact attemptsCounted_start job
  | snoc before step goes ih => exact ih.collectExtras.goes goes

/-! ## Reductions -/

/-- Nothing is pushed that comes from the text. -/
def PushesNothing (deeds : List (Nat × Deed)) : Prop := ∀ d ∈ deeds, d.2 ≠ .shift ∧ d.2 ≠ .reuse

def reductions (deeds : List (Nat × Deed)) : Nat := (deeds.map (·.2)).count .reduce

/-- Reductions since the last push were counted. -/
structure ReductionsCounted (deeds : List (Nat × Deed)) (m : Machine) : Prop where
  counted : ∀ earlier later, deeds = earlier ++ later → PushesNothing later →
    reductions later ≤ m.reductions
  bounded : m.reductions ≤ reductionLimit

private theorem reductionsCounted_start : ReductionsCounted [] {} where
  counted earlier later h _ := by
    obtain ⟨-, rfl⟩ := List.append_eq_nil_iff.1 h.symm
    exact Nat.le_refl 0
  bounded := Nat.zero_le _

private theorem ReductionsCounted.push (deeds : List (Nat × Deed)) {deed : Deed}
    (hdeed : deed = .shift ∨ deed = .reuse) (hzero : n.reductions = 0) (p : Nat) :
    ReductionsCounted (deeds ++ [(p, deed)]) n where
  counted earlier later h hnone := by
    rcases List.eq_nil_or_concat' later with rfl | ⟨between, last, rfl⟩
    · exact Nat.zero_le _
    · rw [← List.append_assoc] at h
      obtain rfl := (List.singleton_inj.1 (List.append_inj_right' h rfl)).symm
      obtain ⟨hshift, hreuse⟩ := hnone _ (List.mem_append_right _ List.mem_cons_self)
      exact (hdeed.elim hshift hreuse).elim
  bounded := by
    rw [hzero]
    exact Nat.zero_le _

private theorem ReductionsCounted.other (h : ReductionsCounted deeds m) {deed : Deed}
    (hcount : m.reductions + (if deed = .reduce then 1 else 0) ≤ n.reductions)
    (hbounded : n.reductions ≤ reductionLimit) (p : Nat) :
    ReductionsCounted (deeds ++ [(p, deed)]) n where
  counted earlier later hsplit hnone := by
    rcases List.eq_nil_or_concat' later with rfl | ⟨between, last, rfl⟩
    · exact Nat.zero_le _
    · rw [← List.append_assoc] at hsplit
      obtain rfl := (List.singleton_inj.1 (List.append_inj_right' hsplit rfl)).symm
      have hbefore := h.counted earlier between (List.append_inj_left' hsplit rfl) fun d hd =>
        hnone d (List.mem_append_left _ hd)
      have hlast : reductions (between ++ [(p, deed)]) = reductions between +
          if deed = .reduce then 1 else 0 := by
        simp [reductions, List.count_append, List.count_singleton]
      rw [hlast]
      omega
  bounded := hbounded

private theorem ReductionsCounted.goes (h : ReductionsCounted deeds m) {deed : Deed}
    (hgoes : job.Goes m deed n) (p : Nat) :
    ReductionsCounted (deeds ++ [(p, deed)]) n := by
  cases hgoes with
  | reuse found => exact .push deeds (.inr rfl) rfl p
  | shift here action => exact .push deeds (.inl rfl) rfl p
  | reduce action applies room =>
    apply h.other
    · exact Nat.le_refl (m.reductions + 1)
    · exact room
  | unwind errors attempts found =>
    apply h.other
    · exact Nat.le_refl m.reductions
    · exact h.bounded
  | skip errors here =>
    apply h.other
    · exact Nat.le_refl m.reductions
    · exact h.bounded

private theorem Journey.reductionsCounted (h : job.Journey {} deeds m) :
    ReductionsCounted deeds m := by
  induction h with
  | nil => exact reductionsCounted_start
  | @snoc m n deeds deed before step goes ih =>
    have hcollected : ReductionsCounted deeds (job.collectExtras m) := by
      constructor
      · rw [collectExtras_reductions]
        exact ih.counted
      · rw [collectExtras_reductions]
        exact ih.bounded
    exact hcollected.goes goes _

/-! ## Errors -/

private theorem errors_failed_le (m : Machine) :
    m.failed.recovery.errors ≤ m.recovery.errors + 1 := by
  simp only [Machine.failed, Recovery.fail]
  split <;> omega

private theorem errors_flush (m : Machine) : m.flush.recovery.errors = m.recovery.errors := by
  unfold Machine.flush
  split <;> rfl

private theorem errors_abandon_le {limit : Nat} (h : m.recovery.errors ≤ limit + 1) :
    (m.abandon job).errors ≤ limit + 1 := by
  change max m.recovery.errors 1 ≤ limit + 1
  omega

/-- Errors are counted up to their limit, and a run that ends has at most one more. -/
theorem errors_step (h : m.recovery.errors ≤ job.config.maxErrors) : (job.step m).Satisfies
    (fun n => n.recovery.errors ≤ job.config.maxErrors) fun o =>
      o.errors ≤ job.config.maxErrors + 1 := by
  have hcollected : (job.collectExtras m).recovery.errors ≤ job.config.maxErrors := by
    rwa [collectExtras_recovery]
  have hflushed : (job.collectExtras m).flush.recovery.errors ≤ job.config.maxErrors := by
    rwa [errors_flush]
  have hfailed :=
    Nat.le_trans (errors_failed_le (job.collectExtras m)) (Nat.succ_le_succ hcollected)
  have hact := step_cases job m
  cases hstep : job.step m with
  | next n =>
    obtain ⟨deed, hgoes⟩ := goes_of_act hstep
    cases hgoes with
    | reuse found => exact hcollected
    | shift here action => exact hflushed
    | reduce action applies room => exact hcollected
    | unwind errors attempts found => exact errors
    | skip errors here => exact errors
  | done o =>
    rw [hstep] at hact
    cases hact with
    | accept => exact Nat.le_succ_of_le hflushed
    | giveUp => exact errors_abandon_le hfailed
    | stuck => exact errors_abandon_le (Nat.le_succ_of_le hcollected)
    | overrun => exact errors_abandon_le (Nat.le_succ_of_le hcollected)
    | shiftAtEnd => exact errors_abandon_le (Nat.le_succ_of_le hflushed)

private theorem errors_run (job : Job) : (job.run {}).errors ≤ job.config.maxErrors + 1 := by
  let good (o : Outcome) : Prop := o.errors ≤ job.config.maxErrors + 1
  change good (job.run {})
  exact run_of_invariant (fun _ h => errors_step h) (Nat.zero_le job.config.maxErrors)

end Job
end Parse

/-- A parse ends and keeps to its budgets, whatever the tables of the language, the limits, the
previous tree and the edits are. The reader of tokens comes to the end of the text, and the parser
by some steps to one that ends the run. Among the steps up to any machine there are no more unwinds
at one token than attempts are allowed, and no more reductions than their limit where nothing is
pushed in between. The errors that are reported are at most one more than their limit. -/
theorem parse_within_budgets (p : Parser) {source : Bytes} (hsize : source.size ≤ maxSize)
    (previous : Option SyntaxTree) (edits : List Edit) :
    (∃ i c, TokenStream.Reading p.language.lexer source
        (((p.usable previous).map (·.source)).getD #[]) (p.oldLeaves previous edits) i c
        (p.tokens source previous edits) ∧ source.size ≤ c.offset) ∧
      (∃ deeds m, (p.job source previous edits).Journey {} deeds m ∧
        (p.job source previous edits).step m = .done ((p.job source previous edits).run {})) ∧
      (∀ deeds m, (p.job source previous edits).Journey {} deeds m →
        (∀ position, Job.unwinds deeds position ≤ p.config.maxAttempts) ∧
          ∀ earlier between later, deeds = earlier ++ between ++ later → Job.PushesNothing between →
            Job.reductions between ≤ reductionLimit) ∧
      (p.parse source previous edits).stats.errors ≤ p.config.maxErrors + 1 := by
  refine ⟨TokenStream.Reading.start.reaches_end hsize, Job.Journey.nil.reaches_end,
    fun deeds m h => ⟨?_, ?_⟩, Job.errors_run (p.job source previous edits)⟩
  · exact h.attemptsCounted.bounded
  · rintro earlier between later rfl hnone
    obtain ⟨n, hn⟩ := h.of_append
    exact Nat.le_trans (hn.reductionsCounted.counted earlier between rfl hnone)
      hn.reductionsCounted.bounded

/-- A text that is no sentence, with a tree of another text and an edit that does not describe the
change. -/
theorem parse_within_budgets_letter :
    (Letter.parser.parse #[120, 121] (some (Letter.parser.parse #[120]))
      [{ start := 7, oldEnd := 9, newEnd := 7 }]).stats.errors ≤ 101 :=
  (parse_within_budgets Letter.parser (by decide) (some (Letter.parser.parse #[120]))
    [{ start := 7, oldEnd := 9, newEnd := 7 }]).2.2.2

end Reparse

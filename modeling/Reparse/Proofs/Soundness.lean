import Reparse.Proofs.Brackets
import Reparse.Proofs.Reductions

/-! # Trees without errors are derivations -/
namespace Reparse
open Grammar Parse Text Reparse.Tree

namespace Parse

variable {k : Compilation}

/-- What may be reused are nodes of derivations where a node of their kind may stand. -/
def Job.ReusesTidy (k : Compilation) (job : Job) : Prop :=
  ∀ m t next, job.reusable? m = some (t, next) →
  Tidy k t ∧ t.isNode = true ∧ k.language.isVisible t.kind = true ∧
    k.language.table.goto? m.stack.top.state t.kind = some next

/-- Machine whose stack fits the grammar. -/
structure Machine.Fits (k : Compilation) (job : Job) (m : Machine) : Prop where
  lossless : m.Lossless job
  waiting : job.WaitingExtras m
  path : ∃ xs, Grounded k m.stack xs
  tidy : ∀ t ∈ m.stack.trees, Tidy k t

/-- The root is a derivation from the start symbol, unless there are errors. -/
structure Outcome.Fits (k : Compilation) (o : Outcome) : Prop where
  tidy : Tidy k o.root
  kind : o.root.kind = k.flat.start
  node : o.root.isNode = true

variable {job : Job} {m : Machine}

namespace Machine

theorem Fits.collectExtras (h : m.Fits k job) : (job.collectExtras m).Fits k job where
  lossless := h.lossless.collectExtras
  waiting := Job.waitingExtras_collectExtras h.waiting
  path := by
    rw [Job.collectExtras_stack]
    exact h.path
  tidy := by
    rw [Job.collectExtras_stack]
    exact h.tidy

private theorem tidy_append {s : Stack} (h : ∀ t ∈ s.trees, Tidy k t) {t : Tree} (ht : Tidy k t) :
    ∀ u ∈ (s.append t).trees, Tidy k u := by
  intro u hu
  rw [Stack.trees_append] at hu
  rcases List.mem_append.1 hu with hu | hu
  · exact h u hu
  · rw [List.mem_singleton.1 hu]
    exact ht

private theorem Fits.flush (h : m.Fits k job) : m.flush.Fits k job := by
  refine ⟨h.lossless.flush, ?_, ?_, ?_⟩
  · unfold Machine.flush
    split
    · exact h.waiting
    · exact h.waiting
  · unfold Machine.flush
    split
    · exact h.path
    · next state hstate =>
      obtain ⟨xs, hpath⟩ := h.path
      simp only
      split
      · exact ⟨xs, hpath⟩
      · exact ⟨xs, hpath.append _ _⟩
  · unfold Machine.flush
    split
    · exact h.tidy
    · simp only
      split
      · exact h.tidy
      · exact tidy_append h.tidy (.errorNode (Tidy.leafTrees _) _)

theorem trees_pushed (m : Machine) (next : Nat) (t : Tree) (n : Nat) :
    (m.push next t n).stack.trees = m.stack.trees ++ (leafTrees m.pending ++ [t]) := by
  simp [Machine.push, Entry.trees, leafTrees, Function.comp_def]

/-- Waiting extras are no proper elements of what is pushed. -/
private theorem proper_pushed (hwaiting : job.WaitingExtras m)
    (hlanguage : job.language = k.language) {t : Tree} (ht : k.language.isTrivia t = false) :
    proper k.language ((m.pending.map fun l => ((none, .leaf l) : Element)).push (none, t)).toList =
      [(none, t)] := by
  have hnil : proper k.language (m.pending.toList.map fun l => ((none, .leaf l) : Element)) =
      [] := by
    apply proper_eq_nil
    intro e he
    obtain ⟨leaf, hleaf, rfl⟩ := List.mem_map.1 he
    rw [← hlanguage]
    exact hwaiting leaf (Array.mem_toList_iff.1 hleaf)
  rw [Array.toList_push, Array.toList_map, proper_append, hnil]
  simp [proper, ht]

/-- A push of a tree that reads a symbol with a transition. -/
theorem Fits.push (h : m.Fits k job) (hlanguage : job.language = k.language) {next n : Nat}
    {t : Tree} {x : Kind} {st : Table.State} (hst : k.states[m.stack.top.state]? = some st)
    (hedge : (x, next) ∈ st.transitions) (hproper : k.language.isTrivia t = false)
    (hreads : Spliced k.language k.flat [{ symbol := x }] [(none, t)]) (ht : Tidy k t)
    (hlossless : (m.push next t n).Lossless job) : (m.push next t n).Fits k job := by
  refine ⟨hlossless, fun leaf hleaf => absurd hleaf (Array.not_mem_empty leaf), ?_, ?_⟩
  · obtain ⟨xs, hpath⟩ := h.path
    refine ⟨x :: xs, .push hpath hst hedge fun _ => ?_⟩
    simp only
    rw [proper_pushed h.waiting hlanguage hproper]
    exact hreads
  · intro u hu
    rw [trees_pushed] at hu
    rcases List.mem_append.1 hu with hu | hu
    · exact h.tidy u hu
    · rcases List.mem_append.1 hu with hu | hu
      · exact Tidy.leafTrees _ u hu
      · rw [List.mem_singleton.1 hu]
        exact ht

private theorem Fits.reduce (h : m.Fits k job) (hlanguage : job.language = k.language)
    {q next : Nat} {x : Kind} {info : Table.ProductionInfo}
    (haction : k.language.table.action? m.stack.top.state x = some (.reduce q))
    (happlies : job.reduction? m q = some (info, next)) :
    (m.reduced job.language info next).Fits k job := by
  obtain ⟨hinfo, state, huncovered, hgoto⟩ := Job.reduction?_eq_some_iff.1 happlies
  have hlossless : (m.reduced job.language info next).Lossless job := h.lossless.reduce huncovered
  rw [hlanguage] at hinfo hgoto hlossless ⊢
  obtain ⟨xs, hpath⟩ := h.path
  obtain ⟨hreduced, htidy⟩ :=
    hpath.reduce h.lossless.consistent h.tidy haction hinfo huncovered hgoto
  exact ⟨hlossless, h.waiting, hreduced, htidy⟩

private theorem Fits.fail (h : m.Fits k job) : m.failed.Fits k job where
  lossless := h.lossless.fail
  waiting := h.waiting
  path := h.path
  tidy := h.tidy

private theorem Fits.resume (h : m.Fits k job) {p : Nat → Bool} {popped : List Entry}
    {stack : Stack} (hstack : m.stack.unwindTo? p = some (popped, stack)) :
    (m.resume popped stack).Fits k job := by
  have hsplit := Stack.trees_unwindTo? hstack
  obtain ⟨xs, hpath⟩ := h.path
  obtain ⟨ys, hrest⟩ := hpath.of_entries (Stack.entries_unwindTo? hstack)
  have htidy := h.tidy
  rw [← hsplit] at htidy
  refine ⟨h.lossless.resume hstack, h.waiting, ⟨ys, hrest.append _ _⟩, ?_⟩
  refine tidy_append (fun t ht => htidy t (List.mem_append_left _ ht))
    (.errorNode (fun t ht => ?_) _)
  rcases List.mem_append.1 ht with ht | ht
  · exact htidy t (List.mem_append_right _ ht)
  · exact Tidy.leafTrees _ t ht

private theorem Fits.skip (h : m.Fits k job) {leaf : Leaf}
    (hlossless : (m.skip leaf).Lossless job) :
    (m.skip leaf).Fits k job where
  lossless := hlossless
  waiting := fun leaf hleaf => absurd hleaf (Array.not_mem_empty leaf)
  path := h.path
  tidy := h.tidy

private theorem Fits.abandon (h : m.Fits k job) (hlanguage : job.language = k.language) :
    (m.abandon job).Fits k := by
  refine ⟨.failedRoot (fun t ht => ?_) _, ?_, rfl⟩
  · rcases List.mem_append.1 ht with ht | ht
    · exact h.tidy t ht
    · split at ht
      · contradiction
      · rw [List.mem_singleton.1 ht]
        exact .errorNode (Tidy.leafTrees _) _
  · rw [← show k.language.start = k.flat.start from rfl, ← hlanguage]
    exact kind_infoOf

private theorem Fits.accept (h : m.Fits k job) (hlanguage : job.language = k.language) {x : Kind}
    (haction : k.language.table.action? m.stack.top.state x = some .accept) :
    (m.accept k.flat.start).Fits k := by
  obtain ⟨xs, hpath⟩ := h.path
  refine ⟨hpath.tidy_root h.lossless.consistent h.tidy haction fun t ht => ?_,
    kind_branchOf .., rfl⟩
  · obtain ⟨leaf, hleaf, rfl⟩ := List.mem_map.1 ht
    refine ⟨.leaf leaf, ?_⟩
    rw [← hlanguage]
    exact h.waiting leaf (Array.mem_toList_iff.1 hleaf)

theorem top_flush (m : Machine) : m.flush.stack.top.state = m.stack.top.state := by
  unfold Machine.flush
  split
  · rfl
  · simp only
    split
    · rfl
    · rfl

end Machine

namespace Job

theorem fits_of_act (hlanguage : job.language = k.language) (hjob : job.Sound)
    (hreuse : job.ReusesTidy k) (hextras : k.ExtrasApart) {progress : Progress}
    (hact : Act job m progress) (hm : m.Fits k job) :
    progress.Satisfies (Machine.Fits k job) (Outcome.Fits k) := by
  have hlossless := lossless_of_act hjob hact hm.lossless
  cases hact with
  | @reuse t next found =>
    obtain ⟨htidy, hnode, hvisible, hgoto⟩ := hreuse m t next found
    obtain ⟨st, hst, hedge, hnonterminal⟩ := k.tableBuilt.of_goto hgoto
    have hproper : k.language.isTrivia t = false := by
      cases t with
      | leaf leaf => contradiction
      | node info children => rfl
    have h :=
      hm.push hlanguage hst hedge hproper (.visible hnonterminal hvisible hnode rfl .nil) htidy
      (n := t.leafCount) ⟨hlossless.leaves, hlossless.consistent, hlossless.idle⟩
    exact ⟨hlossless, h.waiting, h.path, h.tidy⟩
  | @shift leaf kind next fresh here action =>
    rw [hlanguage] at action
    have haction := Language.action_of_actionFor action
    obtain ⟨st, hst, hedge, hterminal⟩ := k.tableBuilt.of_shift haction
    rw [← Machine.top_flush] at hst
    exact hm.flush.push hlanguage hst hedge (hextras.of_edge hst hedge)
      (.terminal hterminal rfl .nil) (.leaf _) hlossless
  | reduce fresh action applies room =>
    rw [hlanguage] at action
    exact hm.reduce hlanguage (Language.action_of_actionFor action) applies
  | accept fresh action =>
    rw [hlanguage] at action ⊢
    have haction := Language.action_of_actionFor action
    rw [← Machine.top_flush] at haction
    exact hm.flush.accept hlanguage haction
  | resume fresh action found => exact hm.fail.resume found
  | skip fresh here action => exact hm.fail.skip hlossless
  | giveUp fresh action => exact hm.fail.abandon hlanguage
  | stuck fresh action fails => exact hm.abandon hlanguage
  | overrun fresh action applies full => exact hm.abandon hlanguage
  | shiftAtEnd fresh here action => exact hm.flush.abandon hlanguage

private theorem fits_run (hlanguage : job.language = k.language) (hjob : job.Sound)
    (hreuse : job.ReusesTidy k) (hextras : k.ExtrasApart) : (job.run {}).Fits k := by
  refine run_of_invariant (fun m hm =>
    fits_of_act hlanguage hjob hreuse hextras (step_cases job m) hm.collectExtras) ?_
  exact ⟨Machine.lossless_start job, fun leaf h => absurd h (Array.not_mem_empty leaf),
    ⟨[], .bottom rfl fun _ => rfl⟩, fun t h => by contradiction⟩

end Job
end Parse

/-- Parts of a tidy tree are tidy, so they may be reused. -/
private theorem Parser.reusesTidy {k : Compilation} {p : Parser} (hp : p.language = k.language)
    {source : Bytes} {previous : Option SyntaxTree} {edits : List Edit}
    (hprevious : ∀ t, p.usable previous = some t → Tidy k t.root) :
    (p.job source previous edits).ReusesTidy k := by
  intro m u next h
  obtain ⟨-, r, hr, hcandidate⟩ := Job.of_reusable? h
  obtain ⟨t, ht, rfl⟩ := Option.map_eq_some_iff.1 hr
  obtain ⟨ht, -⟩ := Option.filter_eq_some_iff.1 ht
  obtain ⟨origin, slot, -, hslot, hstarting, hfits⟩ := Reuse.of_candidate? hcandidate
  obtain ⟨hreusable, hoccurs⟩ := Survey.occurs_of_starting hslot hstarting
  simp only [Survey.isReusable, Bool.and_eq_true] at hreusable
  have hgoto := hfits.goto
  change p.language.table.goto? _ _ = _ at hgoto
  rw [hp] at hreusable hgoto
  exact ⟨.occurs hoccurs (hprevious t ht).children, hreusable.1.1, hreusable.2, hgoto⟩

private theorem fits_of_parsed {k : Compilation} (hextras : k.ExtrasApart) {t : SyntaxTree}
    (h : Parsed k.language t) :
    Tidy k t.root ∧ t.root.kind = k.flat.start ∧ t.root.isNode = true := by
  induction h with
  | @parse p source previous edits language size earlier ih =>
    have hfaithful := Parser.earlier_usable fun t ht hfamily =>
      faithful_of_parsed k (earlier t ht hfamily)
    have htidy := Parser.earlier_usable fun t ht hfamily => (ih t ht hfamily).1
    have hsound : (p.job source previous edits).Sound := Parser.sound_job k language size hfaithful
    have hreuse : (p.job source previous edits).ReusesTidy k := Parser.reusesTidy language htidy
    have hfits := Job.fits_run language hsound hreuse hextras
    rw [Parser.root_parse]
    exact ⟨hfits.tidy, hfits.kind, hfits.node⟩

/-- A tree without errors is a derivation from the start symbol, and its leaves that are no extras
are what it derives. -/
theorem parse_sound (k : Compilation) (hextras : k.ExtrasApart) {t : SyntaxTree}
    (ht : Parsed k.language t) (hclean : t.hasErrors = false) :
    Derives k.flat [k.flat.start] (kindsOf k.language t.root.leaves.toList) ∧
      Derived k.language k.flat t.root ∧ t.root.kind = k.flat.start := by
  obtain ⟨htidy, hkind, hnode⟩ := fits_of_parsed hextras ht
  have hderived := htidy.derived hclean
  refine ⟨?_, hderived, hkind⟩
  rw [Tree.leaves_toList, ← hkind]
  exact hderived.derives hnode

namespace Letter

/-- The only token of the text x. -/
def leaf : Leaf := { kind := ⟨2⟩, lexedKind := ⟨2⟩, length := 1, lookahead := 1 }
def job : Job :=
  { language := Compilation.letter.language, config := {}, stream := #[⟨leaf, none⟩] }
def shifted : Machine := { stack := ⟨⟨1, #[(none, .leaf leaf)]⟩, [⟨0, #[]⟩]⟩, position := 1 }

theorem step_start : job.step {} = .next shifted := by cbv

end Letter

namespace Brackets

theorem extrasApart (mode : Table.Mode) : (Compilation.brackets mode).ExtrasApart := by
  have hall : ∀ p ∈ flat.productions, ∀ s ∈ p.steps, s.symbol ≠ ⟨4⟩ := by decide
  intro q p hp s hs
  change (#[⟨4⟩] : Array Kind).contains s.symbol = false
  simpa using hall p (Array.mem_of_getElem? hp) s hs

/-- The text ( ()) has no errors. -/
private theorem hasErrors_nested : (parser.parse #[40, 32, 40, 41, 41]).hasErrors = false := by
  have hjob : parser.job #[40, 32, 40, 41, 41] none [] =
      job [opening, blank, opening, closing, closing] := job_of_tokens (by cbv)
  have hpasses : (job [opening, blank, opening, closing, closing]).passes (fun _ => true)
      (fun o => !o.root.hasError) 12 {} = true := by cbv
  have hlast := (Job.of_passes hpasses).2
  unfold SyntaxTree.hasErrors
  rw [Parser.root_parse, hjob]
  simpa using hlast

end Brackets

/-- Brackets in brackets, with a blank among them and the hidden rule for what is inside. -/
theorem parse_sound_brackets : (Brackets.parser.parse #[40, 32, 40, 41, 41]).hasErrors = false ∧
    Derives Brackets.flat [Brackets.flat.start] (kindsOf (Compilation.brackets .lalr).language
      (Brackets.parser.parse #[40, 32, 40, 41, 41]).root.leaves.toList) ∧
    Derived (Compilation.brackets .lalr).language Brackets.flat
      (Brackets.parser.parse #[40, 32, 40, 41, 41]).root ∧
    (Brackets.parser.parse #[40, 32, 40, 41, 41]).root.kind = Brackets.flat.start :=
  ⟨Brackets.hasErrors_nested, parse_sound (.brackets .lalr) (Brackets.extrasApart .lalr)
    (.parse rfl (by decide) nofun) Brackets.hasErrors_nested⟩

end Reparse

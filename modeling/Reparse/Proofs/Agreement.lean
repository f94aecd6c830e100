import Reparse.Proofs.Coarsening
import Reparse.Proofs.Exactness
import Reparse.Proofs.Renaming

/-! # Parses with merged states -/
namespace Reparse
open Grammar Parse

namespace Table.Coarsens

variable {l : Language} {table : Table} {merge : Nat → Nat}

/-- What a state does at a token, its merged state does too, if the keyword that the token may be
has no action of its own there, or the same reduction. -/
private theorem actionFor (hc : table.Coarsens l.table merge) {state : Nat} {leaf : Leaf}
    {kind : Kind} {action : Action} (h : l.actionFor state (some leaf) = (kind, some action))
    (hkeeps : kind ≠ leaf.kind → ∀ other, table.action? (merge state) leaf.kind = some other →
      ∃ q, other = .reduce q ∧ action = .reduce q) :
    ∃ read, { l with table }.actionFor (merge state) (some leaf) =
      (read, some (action.rename merge)) ∧
      (read = kind ∨ ∃ q, action = .reduce q) := by
  simp only [Language.actionFor_eq_some_iff] at h ⊢
  obtain ⟨haction, hkind⟩ := h
  have hcoarse := hc.actions state kind action haction
  rcases hkind with rfl | ⟨hnone, hflag, hword⟩
  · exact ⟨leaf.kind, ⟨hcoarse, .inl rfl⟩, .inl rfl⟩
  · have hne : kind ≠ leaf.kind := by
      rintro rfl
      rw [hnone] at haction
      contradiction
    cases hown : table.action? (merge state) leaf.kind with
    | none => exact ⟨kind, ⟨hcoarse, .inr ⟨rfl, hflag, hword⟩⟩, .inl rfl⟩
    | some other =>
      obtain ⟨q, rfl, rfl⟩ := hkeeps hne other hown
      exact ⟨leaf.kind, ⟨hown, .inl rfl⟩, .inr ⟨q, rfl⟩⟩

end Table.Coarsens

namespace Parse

variable {job : Job} {m : Machine} {table : Table} {merge : Nat → Nat}

/-- The job with another table. -/
def Job.withTable (job : Job) (table : Table) : Job :=
  { job with language := { job.language with table } }

/-- The machine with its states renamed. -/
def Machine.rename (l : Language) (hzero : merge 0 = 0) (m : Machine) : Machine :=
  { m with stack := (Tree.renamed l merge hzero).stack m.stack }

/-- If the next token is read as the word, the other table has no action for its own kind, or the
same reduction. -/
def Job.KeepsWord (job : Job) (table : Table) (merge : Nat → Nat) (m : Machine) : Prop :=
  ∀ leaf kind action, job.leaf? m.position = some leaf →
    job.language.actionFor m.stack.top.state (some leaf) = (kind, some action) → kind ≠ leaf.kind →
      ∀ other, table.action? (merge m.stack.top.state) leaf.kind = some other →
        ∃ q, other = .reduce q ∧ action = .reduce q

/-! ## Renamed machines -/

namespace Machine

variable (l : Language) (hzero : merge 0 = 0)

private theorem rename_start : ({} : Machine).rename l hzero = {} := by
  simp only [rename, Image.stack, Image.entry, Stack.initial, Tree.renamed, hzero]
  rfl

private theorem elements_of_leaves (leaves : List Leaf) : (Tree.renamed l merge hzero).elements
    (leaves.map fun leaf => (none, .leaf leaf)) = leaves.map fun leaf => (none, .leaf leaf) := by
  change mapElements (fun _ => true) (Tree.rename merge) _ = _
  rw [Tree.mapElements_rename, List.map_map]
  exact List.map_congr_left fun leaf _ => congrArg (none, ·) (Tree.rename_leaf merge leaf)

private theorem forest_of_leaves (leaves : Array Leaf) :
    (Tree.renamed l merge hzero).forest (leafTrees leaves) = leafTrees leaves := by
  have h := congrArg (List.map (·.2)) (elements_of_leaves l hzero leaves.toList)
  rwa [← Image.forest_trees, List.map_map] at h

private theorem rename_push (m : Machine) (next : Nat) (leaf : Leaf) :
    (m.push next (.leaf leaf) 1).rename l hzero =
      (m.rename l hzero).push (merge next) (.leaf leaf) 1 := by
  have hleaves : ((m.pending.map fun leaf => (none, .leaf leaf)).push (none, .leaf leaf)).toList =
      (m.pending.toList ++ [leaf]).map fun leaf => ((none, .leaf leaf) : Element) := by simp
  have helements := elements_of_leaves l hzero (m.pending.toList ++ [leaf])
  rw [← hleaves] at helements
  simp only [rename, push, Image.stack_push, Image.entry, helements]
  rfl

private theorem rename_reduced (m : Machine) (info : Table.ProductionInfo) (next : Nat) :
    (m.reduced l info next).rename l hzero = (m.rename l hzero).reduced l info (merge next) := by
  simp only [rename, reduced, Image.stack_reduce]
  rfl

private theorem rename_accept (m : Machine) (start : Kind) : (m.rename l hzero).accept start =
    { m.accept start with root := (m.accept start).root.rename merge } := by
  have hroot := (Tree.renamed l merge hzero).stack_root start m.stack (leafTrees m.pending)
  rw [forest_of_leaves] at hroot
  simp only [accept, rename, ← hroot]
  rfl

end Machine

/-! ## Steps -/

namespace Job

private theorem collectExtras_rename (hzero : merge 0 = 0) (table : Table) (m : Machine) :
    (job.withTable table).collectExtras (m.rename job.language hzero) =
      (job.collectExtras m).rename job.language hzero := by
  fun_induction collectExtras job m with
  | case1 m h leaf hextra ih =>
    rw [collectExtras, dif_pos
      (show (m.rename job.language hzero).position < (job.withTable table).stream.size from h)]
    exact (if_pos hextra).trans ih
  | case2 m h leaf hextra =>
    rw [collectExtras, dif_pos
      (show (m.rename job.language hzero).position < (job.withTable table).stream.size from h)]
    exact if_neg hextra
  | case3 m h =>
    rw [collectExtras, dif_neg
      (show ¬ (m.rename job.language hzero).position < (job.withTable table).stream.size from h)]

variable (hc : table.Coarsens job.language.table merge)
include hc

/-- What is done at the next token, or at the end, the merged state does too. -/
private theorem actionFor_withTable (hkeeps : job.KeepsWord table merge m) {kind : Kind}
    {action : Table.Action}
    (h : job.language.actionFor m.stack.top.state (job.leaf? m.position) = (kind, some action)) :
    ∃ read, (job.withTable table).language.actionFor (merge m.stack.top.state)
      (job.leaf? m.position) =
        (read, some (action.rename merge)) ∧ (read = kind ∨ ∃ q, action = .reduce q) := by
  cases hleaf : job.leaf? m.position with
  | none =>
    rw [hleaf] at h
    obtain ⟨rfl, haction⟩ := Prod.mk.inj h
    exact ⟨.eof, Prod.ext rfl (hc.actions _ _ _ haction), .inl rfl⟩
  | some leaf =>
    rw [hleaf] at h
    exact hc.actionFor h (hkeeps leaf kind action hleaf h)

private theorem reduction?_withTable {production next : Nat} {info : Table.ProductionInfo}
    (h : job.reduction? m production = some (info, next)) :
    (job.withTable table).reduction? (m.rename job.language hc.start) production =
      some (info, merge next) := by
  obtain ⟨hinfo, state, hstate, hgoto⟩ := reduction?_eq_some_iff.1 h
  refine reduction?_eq_some_iff.2
    ⟨(hc.productions production).trans hinfo, merge state, ?_, hc.gotos _ _ _ hgoto⟩
  change ((Tree.renamed job.language merge hc.start).stack m.stack).uncovered? _ = _
  rw [Image.uncovered?_stack, hstate]
  rfl

/-- A step that does not lack an action, and does not give up, is the same step with merged
states. -/
theorem act_withTable (hreuse : job.reuse = none) (hidle : m.Idle)
    (hkeeps : job.KeepsWord table merge m)
    (haction : job.language.hasAction m.stack.top.state (job.leaf? m.position) = true) :
    (job.act m).Satisfies
      (fun n => n.Idle ∧
        (job.withTable table).act (m.rename job.language hc.start) =
          .next (n.rename job.language hc.start))
      fun o => o.root.hasError = false →
        (job.withTable table).act (m.rename job.language hc.start) =
          .done { o with root := o.root.rename merge } := by
  have hact := act_cases job m
  generalize job.act m = progress at hact
  rw [act_of_fresh (show (job.withTable table).reuse = none from hreuse)]
  have hidle' : (m.rename job.language hc.start).Idle := hidle
  have hat {p : Kind × Option Table.Action}
      (h : (job.withTable table).language.actionFor (merge m.stack.top.state)
      (job.leaf? m.position) = p) : (job.withTable table).language.actionFor
        (m.rename job.language hc.start).stack.top.state
        ((job.withTable table).leaf? (m.rename job.language hc.start).position) = p := h
  cases hact with
  | reuse found =>
    obtain ⟨-, r, hr, -⟩ := of_reusable? found
    rw [hreuse] at hr
    contradiction
  | @shift leaf kind next fresh here action =>
    rw [← here] at action
    obtain ⟨read, hread, heq⟩ := actionFor_withTable hc hkeeps action
    obtain rfl : read = kind := heq.resolve_right nofun
    rw [Machine.flush_of_idle hidle, Machine.flush_of_idle hidle']
    refine ⟨hidle, ?_⟩
    rw [hat hread, show (job.withTable table).leaf? (m.rename job.language hc.start).position =
      some leaf from here, Machine.rename_push]
    rfl
  | @reduce kind q info next fresh action applies room =>
    obtain ⟨read, hread, -⟩ := actionFor_withTable hc hkeeps action
    refine ⟨hidle, ?_⟩
    rw [hat hread, Machine.rename_reduced]
    simp only [Table.Action.rename, reduction?_withTable hc applies]
    exact if_pos room
  | @accept kind fresh action =>
    obtain ⟨read, hread, -⟩ := actionFor_withTable hc hkeeps action
    intro _
    rw [hat hread, Machine.flush_of_idle hidle, ← Machine.rename_accept job.language hc.start]
    simp only [Table.Action.rename, Machine.flush_of_idle hidle']
    rfl
  | resume _ action => exact absurd haction (Language.not_hasAction action)
  | skip _ here action =>
    rw [← here] at action
    exact absurd haction (Language.not_hasAction action)
  | giveUp _ action => exact absurd haction (Language.not_hasAction action)
  | stuck => exact fun hclean => absurd (Machine.hasError_abandon _ _) (by rw [hclean]; nofun)
  | overrun => exact fun hclean => absurd (Machine.hasError_abandon _ _) (by rw [hclean]; nofun)
  | shiftAtEnd => exact fun hclean => absurd (Machine.hasError_abandon _ _) (by rw [hclean]; nofun)

/-- A run that makes no error is the same run with merged states. -/
theorem run_withTable (hreuse : job.reuse = none) (hjob : job.Sound)
    (hkeeps : ∀ n, job.Reaches m n → job.KeepsWord table merge (job.collectExtras n))
    (hidle : m.Idle) (hlossless : m.Lossless job) (hclean : (job.run m).root.hasError = false) :
    (job.withTable table).run (m.rename job.language hc.start) =
      { job.run m with root := (job.run m).root.rename merge } := by
  have hstep (m : Machine) : (job.withTable table).step (m.rename job.language hc.start) =
      (job.withTable table).act ((job.collectExtras m).rename job.language hc.start) := by
    rw [step, collectExtras_rename]
  have hidleExtras {m : Machine} (h : m.Idle) : (job.collectExtras m).Idle := by
    unfold Machine.Idle
    rwa [collectExtras_recovery]
  have hasAction {m : Machine} (hlossless : m.Lossless job)
      (hclean : (job.run m).root.hasError = false) : job.language.hasAction
      (job.collectExtras m).stack.top.state (job.leaf? (job.collectExtras m).position) = true := by
    rw [← Bool.not_eq_false]
    intro haction
    rw [hasError_run_of_missing hjob hreuse hlossless haction] at hclean
    contradiction
  fun_induction run job m with
  | case1 m n hn ih =>
    have haction := hasAction hlossless (by rwa [run_of_next hn])
    have hact := act_withTable hc hreuse (hidleExtras hidle) (hkeeps m .refl) haction
    have hsound := lossless_of_act hjob (step_cases job m) hlossless.collectExtras
    rw [hn] at hsound
    rw [← step, hn] at hact
    rw [run_of_next ((hstep m).trans hact.2)]
    exact ih (fun n' hn' => hkeeps n' (.head hn hn')) hact.1 hsound hclean
  | case2 m o ho =>
    have haction := hasAction hlossless (by rwa [run_of_done ho])
    have hact := act_withTable hc hreuse (hidleExtras hidle) (hkeeps m .refl) haction
    rw [← step, ho] at hact
    exact run_of_done ((hstep m).trans (hact hclean))

end Job

/-- Wherever the run reads a token as the word, states of the other automaton with the same items
have no action for the token's own kind, or the same reduction. -/
def Job.KeepsWords (k k' : Compilation) (job : Job) : Prop :=
  ∀ m, job.Reaches {} m → ∀ leaf kind action, job.leaf? (job.collectExtras m).position = some leaf →
    job.language.actionFor m.stack.top.state (some leaf) = (kind, some action) → kind ≠ leaf.kind →
      ∀ (n : Nat) s t, k.states[m.stack.top.state]? = some s → k'.states[n]? = some t →
      t.kernel.cores = s.kernel.cores →
        ∀ other, k'.table.action? n leaf.kind = some other → ∃ q, other = .reduce q ∧
        action = .reduce q

theorem Job.keepsWords_of_no_word {k k' : Compilation} (h : job.language.word = none) :
    job.KeepsWords k k' := by
  intro m _ leaf kind action _ haction hne
  rw [Language.actionFor_of_no_word h] at haction
  exact absurd (congrArg Prod.fst haction).symm hne

end Parse

namespace Compilation

variable {k k' : Compilation}

private theorem flat_eq (h : k'.grammar = k.grammar) : k'.flat = k.flat := by
  have hflat := k'.flattened
  rw [h, k.flattened] at hflat
  exact (Except.ok.inj hflat).symm

/-- Languages of one grammar differ in their tables only. -/
theorem language_eq (h : k'.grammar = k.grammar) :
    k'.language = { k.language with table := k'.table } := by
  have hlexed := k'.lexed
  rw [flat_eq h, k.lexed] at hlexed
  unfold language
  rw [flat_eq h, Except.ok.inj hlexed]

/-- The table with merged states goes with the canonical one. -/
theorem exists_coarsens (hgrammar : k'.grammar = k.grammar) (hmode : k.mode = .canonical)
    (hmode' : k'.mode = .lalr) (hsingle : Table.SingleCandidates k'.flat k'.mode) :
    ∃ merge, k'.table.Coarsens k.table merge ∧
      ∀ (m : Nat) s, k.states[m]? = some s → ∃ t, k'.states[merge m]? = some t ∧
        t.kernel.cores = s.kernel.cores := by
  obtain ⟨merge, hq⟩ := Table.exists_quotient k.wellFormed
  have hfine := k.tableBuilt
  have hcoarse := k'.tableBuilt
  unfold states
  rw [hmode] at hfine ⊢
  rw [hmode', flat_eq hgrammar] at hcoarse hsingle ⊢
  exact ⟨merge, Table.coarsens_of_quotient k.wellFormed hfine hcoarse hsingle hq, hq.cores⟩

end Compilation

/-- Parsers for languages of one grammar do the same job with different tables. -/
private theorem Parser.job_withTable {k k' : Compilation} (hgrammar : k'.grammar = k.grammar)
    {p p' : Parser} (hp : p.language = k.language) (hp' : p'.language = k'.language)
    (hconfig : p'.config = p.config) (source : Text.Bytes) :
    p'.job source none [] = (p.job source none []).withTable k'.table := by
  have hlanguage : p'.language = { p.language with table := k'.table } := by
    rw [hp', hp, Compilation.language_eq hgrammar]
  have htokens : p'.tokens source none [] = p.tokens source none [] := by
    unfold Parser.tokens
    rw [hlanguage]
    rfl
  unfold Parser.job Job.withTable
  rw [htokens, hlanguage, hconfig]
  rfl

/-- A job that keeps its words keeps the word that is next. -/
private theorem Parse.Job.KeepsWords.next {k k' : Compilation} {job : Job}
    (hkeeps : job.KeepsWords k k') (hlanguage : job.language = k.language) {merge : Nat → Nat}
    (hcores : ∀ (m : Nat) s, k.states[m]? = some s → ∃ t, k'.states[merge m]? = some t ∧
      t.kernel.cores = s.kernel.cores)
    {m : Machine} (hm : job.Reaches {} m) :
    job.KeepsWord k'.table merge (job.collectExtras m) := by
  intro leaf kind action hleaf haction hne other hother
  rw [Job.collectExtras_stack] at haction hother
  have hown := Language.action_of_actionFor haction
  rw [hlanguage] at hown
  obtain ⟨s, hs, -⟩ := k.tableBuilt.state_of_action? hown
  obtain ⟨t, ht, hsame⟩ := hcores _ s hs
  exact hkeeps m hm leaf kind action hleaf haction hne _ s t hs ht hsame other hother

/-- A parse with canonical states that makes no error and keeps its words has the root of the parse
with merged states, with the states in it renamed. -/
private theorem Parser.exists_root_rename {k k' : Compilation} (hgrammar : k'.grammar = k.grammar)
    (hmode : k.mode = .canonical) (hmode' : k'.mode = .lalr)
    (hsingle : Table.SingleCandidates k'.flat k'.mode) {p p' : Parser}
    (hp : p.language = k.language) (hp' : p'.language = k'.language)
    (hconfig : p'.config = p.config) {source : Text.Bytes}
    (hkeeps : (p.job source none []).KeepsWords k k')
    (hclean : (p.parse source).hasErrors = false) :
    ∃ merge, (p'.parse source).root = (p.parse source).root.rename merge := by
  obtain ⟨merge, hc, hcores⟩ := Compilation.exists_coarsens hgrammar hmode hmode' hsingle
  have hlanguage : (p.job source none []).language = k.language := hp
  rw [← show k.language.table = k.table from rfl, ← hlanguage] at hc
  have hrun := Job.run_withTable hc rfl (Parser.scratch_job k hp source).sound
    (fun n hn => hkeeps.next hlanguage hcores hn) rfl (Machine.lossless_start _) hclean
  rw [Machine.rename_start, ← Parser.job_withTable hgrammar hp hp' hconfig] at hrun
  exact ⟨merge, congrArg Outcome.root hrun⟩

/-- Renaming the states of a root changes neither its errors nor what is printed of it. -/
private theorem Parser.parse_of_root_rename {k k' : Compilation} (hgrammar : k'.grammar = k.grammar)
    {p p' : Parser} (hp : p.language = k.language) (hp' : p'.language = k'.language)
    {source : Text.Bytes} {merge : Nat → Nat} (hclean : (p.parse source).hasErrors = false)
    (hroot : (p'.parse source).root = (p.parse source).root.rename merge) :
    (p'.parse source).hasErrors = false ∧
      (p'.parse source).root.stateless = (p.parse source).root.stateless ∧
        (p'.parse source).sexp = (p.parse source).sexp := by
  have hstateless : (p'.parse source).root.stateless = (p.parse source).root.stateless := by
    rw [hroot, Tree.stateless_rename]
  refine ⟨?_, hstateless, SyntaxTree.sexp_eq_of_stateless hstateless ?_⟩
  · rw [SyntaxTree.hasErrors, hroot, Tree.hasError_rename]
    exact hclean
  · change SyntaxTree.sexpVisit p'.language = SyntaxTree.sexpVisit p.language
    rw [hp', hp, Compilation.language_eq hgrammar]
    rfl

/-- If the parse with canonical states makes no error, and keeps its words with merged states, then
the parse with merged states makes none either, and the trees differ in the states of their nodes
only. -/
theorem parse_merged {k k' : Compilation} (hgrammar : k'.grammar = k.grammar)
    (hmode : k.mode = .canonical) (hmode' : k'.mode = .lalr)
    (hsingle : Table.SingleCandidates k'.flat k'.mode) {p p' : Parser}
    (hp : p.language = k.language) (hp' : p'.language = k'.language)
    (hconfig : p'.config = p.config) {source : Text.Bytes}
    (hkeeps : (p.job source none []).KeepsWords k k')
    (hclean : (p.parse source).hasErrors = false) :
    (p'.parse source).hasErrors = false ∧
      (p'.parse source).root.stateless = (p.parse source).root.stateless ∧
        (p'.parse source).sexp = (p.parse source).sexp := by
  obtain ⟨merge, hroot⟩ :=
    Parser.exists_root_rename hgrammar hmode hmode' hsingle hp hp' hconfig hkeeps hclean
  exact Parser.parse_of_root_rename hgrammar hp hp' hclean hroot

/-- Without a word every parse keeps its words, so merged states make no difference to a parse
without errors. -/
theorem parse_merged_of_no_word {k k' : Compilation} (hgrammar : k'.grammar = k.grammar)
    (hmode : k.mode = .canonical) (hmode' : k'.mode = .lalr) (hword : k.flat.word = none)
    (hsingle : Table.SingleCandidates k'.flat k'.mode) {p p' : Parser}
    (hp : p.language = k.language) (hp' : p'.language = k'.language)
    (hconfig : p'.config = p.config) {source : Text.Bytes}
    (hclean : (p.parse source).hasErrors = false) :
    (p'.parse source).hasErrors = false ∧
      (p'.parse source).root.stateless = (p.parse source).root.stateless ∧
        (p'.parse source).sexp = (p.parse source).sexp := by
  have hnone : (p.job source none []).language.word = none := by
    change p.language.word = none
    rw [hp]
    exact hword
  obtain ⟨merge, hroot⟩ := Parser.exists_root_rename hgrammar hmode hmode' hsingle hp hp' hconfig
    (Parse.Job.keepsWords_of_no_word hnone) hclean
  exact Parser.parse_of_root_rename hgrammar hp hp' hclean hroot

/-! ## A grammar in which merged states do not agree -/

namespace Keyword
open Data Grammar Grammar.Lowering Lexer Parse Table

private theorem states_eq (mode : Table.Mode) :
    (Compilation.keyword mode).states = states mode := by
  change automaton flat (First.compute flat) mode = _
  rw [first_eq, automaton_eq]

def parser (mode : Table.Mode) : Parser := { language := (Compilation.keyword mode).language }

/-- The token of the text j. -/
def name : Leaf :=
  { kind := ⟨3⟩, lexedKind := ⟨3⟩, length := 1, lookahead := 1, flags := { word := true } }

/-- The token of the text k. -/
def keyword : Leaf :=
  { kind := ⟨2⟩, lexedKind := ⟨2⟩, length := 1, lookahead := 1, flags := { word := true } }

def job (mode : Table.Mode) (leaves : List Leaf) : Job :=
  { language := (Compilation.keyword mode).language, config := {},
    stream := (leaves.map (⟨·, none⟩)).toArray }

private theorem tokens_eq (mode : Table.Mode) :
    ((parser mode).tokens #[106, 107] none []).tokens = #[⟨name, none⟩, ⟨keyword, none⟩] ∧
    ((parser mode).tokens #[107, 107, 107] none []).tokens =
      #[⟨keyword, none⟩, ⟨keyword, none⟩, ⟨keyword, none⟩] := by
  constructor
  · cbv
  · cbv

private theorem job_of_name (mode : Table.Mode) :
    (parser mode).job #[106, 107] none [] = job mode [name, keyword] := by
  unfold Parser.job
  rw [(tokens_eq mode).1]
  rfl

theorem job_of_keywords (mode : Table.Mode) :
    (parser mode).job #[107, 107, 107] none [] = job mode [keyword, keyword, keyword] := by
  unfold Parser.job
  rw [(tokens_eq mode).2]
  rfl

private theorem eq_one_of_cores {n : Nat} {t : Table.State} (ht : (states .lalr)[n]? = some t)
    (hcores : t.kernel.cores = [⟨2, 1⟩]) : n = 1 := by
  obtain ⟨hn, rfl⟩ := Array.getElem?_eq_some_iff.1 ht
  have hn : n < 8 := hn
  interval_cases n <;> simp [states, Items.cores] at hcores ⊢

/-- Three keywords are accepted, and no keyword is read as a word but in state 1. -/
theorem passes_keywords : (job .canonical [keyword, keyword, keyword]).passes
    (fun m => ((job .canonical [keyword, keyword, keyword]).leaf?
      ((job .canonical [keyword, keyword, keyword]).collectExtras m).position).all fun leaf =>
        ((Compilation.keyword .canonical).language.actionFor m.stack.top.state (some leaf)).1 ==
            leaf.kind || (m.stack.top.state == 1 && leaf.kind == ⟨2⟩))
    (fun o => !o.root.hasError) 9 {} = true := by cbv

/-- The second keyword is read as a word, in a state whose merged one has no action for keywords. -/
private theorem keepsWords : (job .canonical [keyword, keyword, keyword]).KeepsWords
    (.keyword .canonical) (.keyword .lalr) := by
  intro m hm leaf kind action hleaf haction hne n s t hs ht hcores other hother
  have hm := (Job.of_passes passes_keywords).1 m hm
  rw [hleaf] at hm
  simp only [Option.all_some, Bool.or_eq_true, Bool.and_eq_true, beq_iff_eq] at hm
  rcases hm with hsame | ⟨hstate, hkind⟩
  · exact absurd ((congrArg Prod.fst haction).symm.trans hsame) hne
  · rw [states_eq, hstate] at hs
    rw [states_eq] at ht
    obtain rfl := Option.some.inj hs
    obtain rfl := eq_one_of_cores ht hcores
    rw [hkind, show (Compilation.keyword .lalr).table.action? 1 ⟨2⟩ = none by cbv] at hother
    contradiction

end Keyword

/-- Merged states need not parse alike: in the text jk the keyword is read as a word by the
canonical table, but reduced before by the merged one, which then fails. -/
theorem merged_differs :
    (Compilation.keyword .lalr).grammar = (Compilation.keyword .canonical).grammar ∧
    Table.SingleCandidates (Compilation.keyword .canonical).flat .canonical ∧
      Table.SingleCandidates (Compilation.keyword .lalr).flat .lalr ∧
        ((Keyword.parser .canonical).parse #[106, 107]).hasErrors = false ∧
          ((Keyword.parser .lalr).parse #[106, 107]).hasErrors = true := by
  refine ⟨rfl, Keyword.singleCandidates .canonical, Keyword.singleCandidates .lalr, ?_, ?_⟩
  · have hpasses : (Keyword.job .canonical [Keyword.name, Keyword.keyword]).passes (fun _ => true)
        (fun o => !o.root.hasError) 9 {} = true := by cbv
    unfold SyntaxTree.hasErrors
    rw [Parser.root_parse, Keyword.job_of_name]
    simpa using (Job.of_passes hpasses).2
  · have hpasses : (Keyword.job .lalr [Keyword.name, Keyword.keyword]).passes (fun _ => true)
        (fun o => o.root.hasError) 9 {} = true := by cbv
    unfold SyntaxTree.hasErrors
    rw [Parser.root_parse, Keyword.job_of_name]
    exact (Job.of_passes hpasses).2

theorem parse_merged_keywords :
    ((Keyword.parser .canonical).parse #[107, 107, 107]).hasErrors = false ∧
    ((Keyword.parser .lalr).parse #[107, 107, 107]).hasErrors = false ∧
      ((Keyword.parser .lalr).parse #[107, 107, 107]).root.stateless =
          ((Keyword.parser .canonical).parse #[107, 107, 107]).root.stateless ∧
        ((Keyword.parser .lalr).parse #[107, 107, 107]).sexp =
          ((Keyword.parser .canonical).parse #[107, 107, 107]).sexp := by
  have hclean : ((Keyword.parser .canonical).parse #[107, 107, 107]).hasErrors = false := by
    unfold SyntaxTree.hasErrors
    rw [Parser.root_parse, Keyword.job_of_keywords]
    simpa using (Job.of_passes Keyword.passes_keywords).2
  have hkeeps := Keyword.keepsWords
  rw [← Keyword.job_of_keywords] at hkeeps
  have hgrammar : (Compilation.keyword .lalr).grammar = (Compilation.keyword .canonical).grammar :=
    rfl
  have hlanguage : (Keyword.parser .lalr).language = (Compilation.keyword .lalr).language := rfl
  exact ⟨hclean, parse_merged hgrammar rfl rfl (Keyword.singleCandidates .lalr)
    (p := Keyword.parser .canonical) rfl hlanguage rfl hkeeps hclean⟩

end Reparse

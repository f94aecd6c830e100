import Reparse.Proofs.Soundness
import Reparse.Proofs.Stripping

/-! # Extras do not influence the parse -/
namespace Reparse
open Parse

/-- The shapes of the leaves that are no extras. -/
def Language.shapes (l : Language) (leaves : List Leaf) : List Leaf :=
  (leaves.filter fun leaf => !l.isExtra leaf.kind).map Leaf.shape

/-- The word is no extra. -/
def Language.WordApart (l : Language) : Prop := ∀ word, l.word = some word → l.isExtra word = false

namespace Language

variable {l : Language}

@[simp] theorem shapes_append (a b : List Leaf) : l.shapes (a ++ b) = l.shapes a ++ l.shapes b := by
  simp [shapes]

private theorem shapes_of_extras {leaves : List Leaf}
    (h : ∀ leaf ∈ leaves, l.isExtra leaf.kind = true) :
    l.shapes leaves = [] := by
  simpa [shapes] using h

theorem shapes_singleton {leaf : Leaf} (h : l.isExtra leaf.kind = false) :
    l.shapes [leaf] = [leaf.shape] := by
  simp [shapes, h]

theorem forest_leafTrees (leaves : Array Leaf) :
    (Tree.stripping l).forest (leafTrees leaves) = leafTrees (l.shapes leaves.toList).toArray := by
  have hkeeps : (fun t => !l.isTrivia t) ∘ Tree.leaf = fun leaf => !l.isExtra leaf.kind := rfl
  have htree : Tree.strip l ∘ Tree.leaf = Tree.leaf ∘ Leaf.shape := by
    funext leaf
    exact Tree.strip_leaf leaf
  simp only [Image.forest, Tree.stripping, leafTrees, shapes, List.filter_map,
    List.map_map, hkeeps, htree]

/-- The parser looks at shapes only. -/
theorem actionFor_shape (state : Nat) (next : Option Leaf) :
    l.actionFor state (next.map Leaf.shape) = l.actionFor state next := by
  cases next with
  | none => rfl
  | some leaf => rfl

/-- A token is never read as an extra. -/
theorem WordApart.of_actionFor (h : l.WordApart) {state : Nat} {leaf : Leaf} {kind : Kind}
    {action : Option Table.Action} (hleaf : l.isExtra leaf.kind = false)
    (haction : l.actionFor state (some leaf) = (kind, action)) :
    l.isExtra kind = false := by
  unfold actionFor at haction
  simp only at haction
  split at haction
  · obtain ⟨rfl, -⟩ := Prod.mk.inj haction
    exact hleaf
  · split at haction
    · obtain ⟨rfl, -⟩ := Prod.mk.inj haction
      exact hleaf
    · next word hword =>
      split at haction
      · obtain ⟨rfl, -⟩ := Prod.mk.inj haction
        refine h word ?_
        split at hword
        · exact hword
        · contradiction
      · obtain ⟨rfl, -⟩ := Prod.mk.inj haction
        exact hleaf

end Language

namespace Parse

/-- What a step does. -/
inductive Event where
  /-- A token is pushed, read as a kind. -/
  | shift (kind : Kind) (state : Nat)
  | reduce (production : Nat)
  /-- As many entries are closed into an error. -/
  | unwind (entries : Nat)
  | skip (kind : Kind)
  | accept
  | giveUp
deriving DecidableEq

namespace Job

variable {job : Job} {m n : Machine}

/-- What a machine at a token does if there is nothing to reuse. -/
inductive Does (job : Job) (m : Machine) : Event → Progress → Prop
  | shift {leaf : Leaf} {kind : Kind} {next : Nat} (here : job.leaf? m.position = some leaf)
      (action : job.language.actionFor m.stack.top.state (job.leaf? m.position) =
        (kind, some (.shift next))) :
      Does job m (.shift kind next) (.next (m.flush.push next (.leaf (leaf.reinterpret kind)) 1))
  | reduce {kind : Kind} {production next : Nat} {info : Table.ProductionInfo}
      (action : job.language.actionFor m.stack.top.state (job.leaf? m.position) =
        (kind, some (.reduce production)))
      (applies : job.reduction? m production = some (info, next)) :
      Does job m (.reduce production) (.next (m.reduced job.language info next))
  | unwind {kind : Kind} {popped : List Entry} {stack : Stack}
      (action : job.language.actionFor m.stack.top.state (job.leaf? m.position) = (kind, none))
      (found : m.stack.unwindTo?
        (fun state => job.language.hasAction state (job.leaf? m.position)) = some (popped, stack)) :
      Does job m (.unwind popped.length) (.next (m.failed.resume popped stack))
  | skip {leaf : Leaf} {kind : Kind} (here : job.leaf? m.position = some leaf)
      (action : job.language.actionFor m.stack.top.state (job.leaf? m.position) = (kind, none)) :
      Does job m (.skip leaf.kind) (.next (m.failed.skip leaf))
  | accept {kind : Kind}
      (action : job.language.actionFor m.stack.top.state (job.leaf? m.position) =
        (kind, some .accept)) : Does job m .accept (.done (m.flush.accept job.language.start))
  | giveUp {o : Outcome}
      (action : (job.language.actionFor m.stack.top.state (job.leaf? m.position)).2 ≠
        some .accept) : Does job m .giveUp (.done o)

/-- The events of a run. -/
inductive Trace (job : Job) : Machine → List Event → Prop
  | last {m : Machine} {e : Event} {o : Outcome} (done : job.step m = .done o)
      (does : job.Does (job.collectExtras m) e (.done o)) : Trace job m [e]
  | more {m n : Machine} {e : Event} {es : List Event} (next : job.step m = .next n)
      (does : job.Does (job.collectExtras m) e (.next n)) (rest : Trace job n es) :
      Trace job m (e :: es)

/-- A step does one thing. -/
theorem Does.unique {e e' : Event} {p : Progress} (h : job.Does m e p) {p' : Progress}
    (h' : job.Does m e' p') (hp : p = p') : e = e' := by
  cases h with
  | shift here action => cases h' <;> simp_all
  | reduce action applies => cases h' <;> simp_all
  | @unwind kind popped stack action found =>
    cases h' with
    | unwind action' found' =>
      obtain ⟨rfl, -⟩ := Prod.mk.inj (Option.some.inj (found.symm.trans found'))
      rfl
    | skip here action' =>
      have hposition : m.position = m.position + 1 :=
        congrArg Machine.position (Progress.next.inj hp)
      omega
    | shift => simp_all
    | reduce => simp_all
    | accept => contradiction
    | giveUp => contradiction
  | skip here action =>
    cases h' with
    | unwind action' found' =>
      have hposition : m.position + 1 = m.position :=
        congrArg Machine.position (Progress.next.inj hp)
      omega
    | skip here' action' => rw [Option.some.inj (here.symm.trans here')]
    | shift => simp_all
    | reduce => simp_all
    | accept => contradiction
    | giveUp => contradiction
  | accept action => cases h' <;> simp_all
  | giveUp action => cases h' <;> simp_all

/-- A run has one sequence of events. -/
theorem Trace.unique {es es' : List Event} (h : job.Trace m es) (h' : job.Trace m es') :
    es = es' := by
  induction h generalizing es' with
  | last done does =>
    cases h' with
    | last done' does' => rw [does.unique does' (done.symm.trans done')]
    | more next does' rest => exact absurd (done.symm.trans next) nofun
  | more next does rest ih =>
    cases h' with
    | last done does' => exact absurd (next.symm.trans done) nofun
    | more next' does' rest' =>
      obtain rfl := Progress.next.inj (next.symm.trans next')
      rw [does.unique does' rfl, ih rest']

/-! ## The text without extras -/

/-- The job for the shapes of the tokens that are no extras. -/
def stripped (job : Job) : Job where
  language := job.language
  config := job.config
  stream := ((job.language.shapes job.leaves).map (⟨·, none⟩)).toArray

/-- The number of tokens before a position that are no extras. -/
def rank (job : Job) (position : Nat) : Nat :=
  (job.language.shapes (job.leaves.take position)).length

/-- The position of a token that is no extra, or of the end. -/
def Standing (job : Job) (position : Nat) : Prop :=
  position ≤ job.leaves.length ∧ ∀ leaf, job.leaf? position = some leaf →
    job.language.isExtra leaf.kind = false

private theorem leaves_stripped (job : Job) :
    job.stripped.leaves = job.language.shapes job.leaves := by
  simp [leaves, stripped, Function.comp_def]

private theorem take_succ_of_leaf? {position : Nat} {leaf : Leaf}
    (h : job.leaf? position = some leaf) :
    job.leaves.take (position + 1) = job.leaves.take position ++ [leaf] := by
  rw [leaf?_eq] at h
  rw [List.take_add_one, h]
  rfl

private theorem rank_succ_of_extra {position : Nat} {leaf : Leaf}
    (h : job.leaf? position = some leaf) (hextra : job.language.isExtra leaf.kind = true) :
    job.rank (position + 1) = job.rank position := by
  have hnil : job.language.shapes [leaf] = [] := Language.shapes_of_extras (by simpa using hextra)
  rw [rank, take_succ_of_leaf? h, Language.shapes_append, hnil, List.append_nil, rank]

theorem rank_succ {position : Nat} {leaf : Leaf} (h : job.leaf? position = some leaf)
    (hproper : job.language.isExtra leaf.kind = false) :
    job.rank (position + 1) = job.rank position + 1 := by
  rw [rank, take_succ_of_leaf? h, Language.shapes_append, Language.shapes_singleton hproper,
    List.length_append, rank]
  rfl

/-- The next token is the same in the text without extras. -/
private theorem leaf?_stripped {position : Nat} (h : job.Standing position) :
    job.stripped.leaf? (job.rank position) = (job.leaf? position).map Leaf.shape := by
  have hsplit : job.language.shapes job.leaves =
      job.language.shapes (job.leaves.take position) ++
        job.language.shapes (job.leaves.drop position) := by
    rw [← Language.shapes_append, List.take_append_drop]
  rw [leaf?_eq, leaves_stripped, hsplit, rank, List.getElem?_append_right (Nat.le_refl _),
    Nat.sub_self]
  cases hleaf : job.leaf? position with
  | none =>
    rw [drop_of_leaf?_eq_none hleaf]
    rfl
  | some leaf =>
    rw [drop_of_leaf? hleaf, ← List.singleton_append, Language.shapes_append,
      Language.shapes_singleton (h.2 leaf hleaf)]
    rfl

private theorem rank_lt_of_lt {p q : Nat} (hp : job.Standing p) (hq : q ≤ job.leaves.length)
    (h : p < q) : job.rank p < job.rank q := by
  obtain ⟨leaf, hleaf⟩ : ∃ leaf, job.leaf? p = some leaf :=
    ⟨_, by rw [leaf?_eq]; exact List.getElem?_eq_getElem (Nat.lt_of_lt_of_le h hq)⟩
  have hsplit : job.leaves.take q = job.leaves.take (p + 1) ++
      (job.leaves.take q).drop (p + 1) := by
    have hparts := (List.take_append_drop (p + 1) (job.leaves.take q)).symm
    rwa [List.take_take, Nat.min_eq_left h] at hparts
  have hsucc := rank_succ hleaf (hp.2 leaf hleaf)
  have hle : job.rank (p + 1) ≤ job.rank q := by
    rw [rank, rank, hsplit, Language.shapes_append, List.length_append]
    exact Nat.le_add_right _ _
  omega

/-- Places where tokens are counted are told apart by their ranks. -/
private theorem rank_inj {p q : Nat} (hp : job.Standing p) (hq : job.Standing q) :
    job.rank p = job.rank q ↔ p = q := by
  constructor
  · intro heq
    rcases Nat.lt_trichotomy p q with h | h | h
    · exact absurd heq (Nat.ne_of_lt (rank_lt_of_lt hp hq.1 h))
    · exact h
    · exact absurd heq (Nat.ne_of_gt (rank_lt_of_lt hq hp.1 h))
  · exact congrArg job.rank

end Job

namespace Machine

variable {job : Job} {m n : Machine}

/-- Only extras wait, skipped tokens are not only extras, and attempts are counted where the machine
stood. -/
structure Settled (job : Job) (m : Machine) : Prop where
  waiting : job.WaitingExtras m
  inside : m.position ≤ job.leaves.length
  skipped : (∀ leaf ∈ m.recovery.skipped, job.language.isExtra leaf.kind = true) →
    m.recovery.skipped = #[]
  attempts : m.recovery.attempts = 0 ∨ job.Standing m.recovery.attemptPosition

/-- The machine at the same place of the text without extras. -/
def strip (job : Job) (m : Machine) : Machine where
  stack := (Tree.stripping job.language).stack m.stack
  position := job.rank m.position
  reductions := m.reductions
  recovery := { m.recovery with
    skipped := (job.language.shapes m.recovery.skipped.toList).toArray
    attemptPosition := job.rank m.recovery.attemptPosition }
  reusedNodes := m.reusedNodes

private theorem settled_start (job : Job) : Settled job {} where
  waiting leaf h := absurd h (Array.not_mem_empty leaf)
  inside := Nat.zero_le _
  skipped _ := rfl
  attempts := .inl rfl

private theorem strip_start (job : Job) : strip job {} = {} := by
  simp [strip, Image.stack, Image.entry, Image.elements, mapElements, Stack.initial, Tree.stripping,
    Language.shapes, Job.rank]

private theorem Settled.collectExtras (h : m.Settled job) : (job.collectExtras m).Settled job := by
  fun_induction Job.collectExtras job m with
  | case1 m hlt leaf hextra ih =>
    refine ih ⟨fun other hother => ?_, ?_, h.skipped, h.attempts⟩
    · rcases Array.mem_push.1 hother with hother | rfl
      · exact h.waiting other hother
      · exact hextra
    · rw [Job.leaves, List.length_map, Array.length_toList]
      exact hlt
  | case2 => exact h
  | case3 => exact h

theorem Settled.standing (h : m.Settled job) (hat : job.AtToken m) : job.Standing m.position :=
  ⟨h.inside, hat⟩

private theorem strip_collectExtras (job : Job) (m : Machine) :
    (job.collectExtras m).strip job = m.strip job := by
  fun_induction Job.collectExtras job m with
  | case1 m hlt leaf hextra ih =>
    rw [ih]
    have hleaf : job.leaf? m.position = some leaf := by simp [Job.leaf?, hlt, leaf]
    simp only [strip, Job.rank_succ_of_extra hleaf hextra]
  | case2 => rfl
  | case3 => rfl

/-- There is nothing to collect in the text without extras. -/
private theorem collectExtras_strip (job : Job) (m : Machine) :
    job.stripped.collectExtras (m.strip job) = m.strip job := by
  refine Job.collectExtras_of_atToken fun leaf hleaf => ?_
  rw [Job.leaf?_eq, Job.leaves_stripped] at hleaf
  obtain ⟨found, hfound, rfl⟩ := List.mem_map.1 (List.mem_of_getElem? hleaf)
  have hproper := (List.mem_filter.1 hfound).2
  rw [Bool.not_eq_true'] at hproper
  exact hproper

/-! ## Moves -/

private theorem isEmpty_skipped (h : m.Settled job) :
    (m.strip job).recovery.skipped.isEmpty = m.recovery.skipped.isEmpty := by
  rw [Bool.eq_iff_iff, Array.isEmpty_iff, Array.isEmpty_iff]
  constructor
  · intro hnil
    refine h.skipped fun leaf hleaf => ?_
    have hshapes : job.language.shapes m.recovery.skipped.toList = [] := by simpa [strip] using hnil
    simp only [Language.shapes, List.map_eq_nil_iff, List.filter_eq_nil_iff, Bool.not_eq_true',
      Bool.not_eq_false] at hshapes
    exact hshapes leaf (Array.mem_toList_iff.2 hleaf)
  · intro hnil
    simp [strip, hnil, Language.shapes]

theorem strip_flush (h : m.Settled job) : m.flush.strip job = (m.strip job).flush := by
  have hempty := isEmpty_skipped h
  have herror : (m.strip job).recovery.errorState = m.recovery.errorState := rfl
  unfold flush
  rw [herror, hempty]
  cases m.recovery.errorState with
  | none => rfl
  | some state =>
    simp only [strip, mk.injEq, and_true]
    refine ⟨?_, by simp [Language.shapes]⟩
    split
    · rfl
    · rw [Image.stack_append, Language.forest_leafTrees]
      rfl

private theorem Settled.flush (h : m.Settled job) : m.flush.Settled job := by
  unfold Machine.flush
  split
  · exact h
  · exact ⟨h.waiting, h.inside, fun _ => rfl, h.attempts⟩

/-- Waiting extras are left out. -/
theorem shapes_pending (h : m.Settled job) : job.language.shapes m.pending.toList = [] :=
  Language.shapes_of_extras fun leaf hleaf => h.waiting leaf (Array.mem_toList_iff.1 hleaf)

private theorem forest_pending (h : m.Settled job) :
    (Tree.stripping job.language).forest (leafTrees m.pending) = [] := by
  rw [Language.forest_leafTrees, shapes_pending h]
  rfl

private theorem strip_push (h : m.Settled job) {next : Nat} {t : Tree}
    (ht : job.language.isTrivia t = false) {leaf : Leaf} (hleaf : job.leaf? m.position = some leaf)
    (hproper : job.language.isExtra leaf.kind = false) :
    (m.push next t 1).strip job = (m.strip job).push next (t.strip job.language) 1 := by
  have hpending : (Tree.stripping job.language).elements
      (m.pending.toList.map fun leaf => ((none, .leaf leaf) : Element)) = [] := by
    have hbare := Image.elements_bare (Tree.stripping job.language) (leafTrees m.pending)
    rw [forest_pending h, leafTrees, List.map_map] at hbare
    exact hbare
  have htop : (Tree.stripping job.language).elements [(none, t)] = [(none, t.strip job.language)] :=
    Image.elements_singleton _ (by simp [Tree.stripping, ht])
  simp only [strip, push, Image.stack_push, Job.rank_succ hleaf hproper, Image.entry,
    Array.toList_push, Array.toList_map, Image.elements_append, hpending, htop,
    Array.map_empty, List.nil_append]
  rfl

private theorem strip_reduced (m : Machine) (info : Table.ProductionInfo) (next : Nat) :
    (m.reduced job.language info next).strip job =
      (m.strip job).reduced job.language info next := by
  simp only [strip, reduced, Image.stack_reduce]
  rfl

theorem strip_failed (h : m.Settled job) (hat : job.AtToken m) :
    m.failed.strip job = (m.strip job).failed := by
  have hattempts :
      (if m.position = m.recovery.attemptPosition then m.recovery.attempts + 1 else 1) =
        if job.rank m.position = job.rank m.recovery.attemptPosition then m.recovery.attempts + 1
        else 1 := by
    rcases h.attempts with hzero | hstanding
    · -- the first attempt is the first one wherever it is made
      rw [hzero, Nat.zero_add, ite_self, ite_self]
    · simp only [Job.rank_inj (h.standing hat) hstanding]
  simp only [strip, failed, Recovery.fail, hattempts]
  rfl

private theorem Settled.failed (h : m.Settled job) (hat : job.AtToken m) : m.failed.Settled job :=
  ⟨h.waiting, h.inside, h.skipped, .inr (h.standing hat)⟩

private theorem strip_resume (m : Machine) (popped : List Entry) (stack : Stack) :
    (m.resume popped stack).strip job =
      (m.strip job).resume (popped.map (Tree.stripping job.language).entry)
      ((Tree.stripping job.language).stack stack) := by
  simp only [strip, resume, Image.stack_append, Image.forest_append, Image.forest_flatMap_trees,
    Language.forest_leafTrees]
  simp [Language.shapes]
  rfl

private theorem strip_skip (h : m.Settled job) {leaf : Leaf}
    (hleaf : job.leaf? m.position = some leaf) (hproper : job.language.isExtra leaf.kind = false) :
    (m.skip leaf).strip job = (m.strip job).skip leaf.shape := by
  simp only [strip, skip, Job.rank_succ hleaf hproper, Array.toList_push, Array.toList_append,
    Language.shapes_append, shapes_pending h, Language.shapes_singleton hproper]
  simp

private theorem strip_accept (h : m.Settled job) (start : Kind) :
    (m.accept start).root.strip job.language = ((m.strip job).accept start).root := by
  have hroot := Image.stack_root (Tree.stripping job.language) start m.stack (leafTrees m.pending)
  rw [forest_pending h] at hroot
  exact hroot

end Machine

namespace Job

variable {job : Job} {m n : Machine}

/-- A step in the text does the same as the step in the text without extras, and comes to the same
place or end. -/
inductive Mirrors (job : Job) (m : Machine) (e : Event) : Progress → Progress → Prop
  | next {n : Machine} (does : job.Does m e (.next n))
      (mirror : job.stripped.Does (m.strip job) e (.next (n.strip job))) (settled : n.Settled job) :
      Mirrors job m e (.next n) (.next (n.strip job))
  | done {o o' : Outcome} (does : job.Does m e (.done o))
      (mirror : job.stripped.Does (m.strip job) e (.done o')) (errors : o'.errors = o.errors)
      (root : e = .accept → o'.root = o.root.strip job.language) :
      Mirrors job m e (.done o) (.done o')

private theorem reduction?_stripped (m : Machine) (production : Nat) :
    job.stripped.reduction? (m.strip job) production = job.reduction? m production := by
  simp only [reduction?, Machine.strip, Image.uncovered?_stack]
  simp [stripped, Tree.stripping]

theorem leaf?_strip (hm : m.Settled job) (hat : job.AtToken m) :
    job.stripped.leaf? (m.strip job).position = (job.leaf? m.position).map Leaf.shape :=
  leaf?_stripped (hm.standing hat)

/-- The same token asks for the same action. -/
theorem actionFor_strip (hm : m.Settled job) (hat : job.AtToken m) :
    job.stripped.language.actionFor (m.strip job).stack.top.state
      (job.stripped.leaf? (m.strip job).position) =
        job.language.actionFor m.stack.top.state (job.leaf? m.position) := by
  rw [leaf?_strip hm hat]
  exact Language.actionFor_shape _ _

private theorem unwindTo?_strip (hm : m.Settled job) (hat : job.AtToken m) :
    (m.strip job).stack.unwindTo?
        (fun state => job.stripped.language.hasAction state
          (job.stripped.leaf? (m.strip job).position)) =
      (m.stack.unwindTo? fun state => job.language.hasAction state (job.leaf? m.position)).map
        fun r => (r.1.map (Tree.stripping job.language).entry,
          (Tree.stripping job.language).stack r.2) := by
  refine Image.unwindTo?_stack _ (fun state => ?_) m.stack
  rw [leaf?_strip hm hat]
  exact congrArg (·.2.isSome) (Language.actionFor_shape _ _)

section
variable (hm : m.Settled job) (hat : job.AtToken m) {kind : Kind}
include hm hat

private theorem mirrors_giveUp {action : Option Table.Action}
    (haction : job.language.actionFor m.stack.top.state (job.leaf? m.position) = (kind, action))
    (hne : action ≠ some .accept) {o o' : Outcome} (herrors : o'.errors = o.errors) :
    job.Mirrors m .giveUp (.done o) (.done o') := by
  refine .done (.giveUp (by rw [haction]; exact hne)) (.giveUp ?_) herrors nofun
  rw [actionFor_strip hm hat, haction]
  exact hne

private theorem mirrors_shift (hword : job.language.WordApart) {leaf : Leaf} {next : Nat}
    (hleaf : job.leaf? m.position = some leaf)
    (haction : job.language.actionFor m.stack.top.state (job.leaf? m.position) =
      (kind, some (.shift next))) :
    job.Mirrors m (.shift kind next) (.next (m.flush.push next (.leaf (leaf.reinterpret kind)) 1))
      (.next ((m.strip job).flush.push next (.leaf (leaf.shape.reinterpret kind)) 1)) := by
  have hproper := hat leaf hleaf
  have hkind : job.language.isExtra kind = false := by
    rw [hleaf] at haction
    exact hword.of_actionFor hproper haction
  have hflushed : job.leaf? m.flush.position = some leaf := by rw [Machine.flush_position, hleaf]
  have hpush : (m.flush.push next (.leaf (leaf.reinterpret kind)) 1).strip job = _ :=
    Machine.strip_push hm.flush hkind hflushed hproper
  rw [Machine.strip_flush hm, Tree.strip_leaf] at hpush
  have hmirror : job.stripped.Does (m.strip job) (.shift kind next)
      (.next ((m.strip job).flush.push next (.leaf (leaf.shape.reinterpret kind)) 1)) :=
    .shift (by rw [leaf?_strip hm hat, hleaf]; rfl) (by rw [actionFor_strip hm hat, haction])
  have hstrip : (m.strip job).flush.push next (.leaf (leaf.shape.reinterpret kind)) 1 =
      (m.flush.push next (.leaf (leaf.reinterpret kind)) 1).strip job := hpush.symm
  rw [hstrip] at hmirror ⊢
  refine .next (.shift hleaf haction) hmirror ⟨?_, ?_, hm.flush.skipped, hm.flush.attempts⟩
  · exact fun other hother => absurd hother (Array.not_mem_empty other)
  · have hlt := lt_size_of_leaf? hflushed
    rwa [leaves, List.length_map, Array.length_toList]

private theorem mirrors_skip {leaf : Leaf} (hleaf : job.leaf? m.position = some leaf)
    (haction : job.language.actionFor m.stack.top.state (job.leaf? m.position) = (kind, none)) :
    job.Mirrors m (.skip leaf.kind) (.next (m.failed.skip leaf))
      (.next ((m.strip job).failed.skip leaf.shape)) := by
  have hproper := hat leaf hleaf
  have hskip := Machine.strip_skip (hm.failed hat) hleaf hproper
  rw [Machine.strip_failed hm hat] at hskip
  have hmirror : job.stripped.Does (m.strip job) (.skip leaf.kind)
      (.next ((m.strip job).failed.skip leaf.shape)) :=
    .skip (by rw [leaf?_strip hm hat, hleaf]; rfl) (by rw [actionFor_strip hm hat, haction])
  rw [← hskip] at hmirror ⊢
  refine .next (.skip hleaf haction) hmirror ⟨?_, ?_, fun hall => ?_, (hm.failed hat).attempts⟩
  · exact fun other hother => absurd hother (Array.not_mem_empty other)
  · have hlt := lt_size_of_leaf? hleaf
    rwa [leaves, List.length_map, Array.length_toList]
  · have hextra := hall leaf (Array.mem_push_self ..)
    rw [hproper] at hextra
    contradiction

private theorem mirrors_unwind {popped : List Entry} {stack : Stack}
    (hfound : m.stack.unwindTo? (fun state => job.language.hasAction state (job.leaf? m.position)) =
      some (popped, stack))
    (haction : job.language.actionFor m.stack.top.state (job.leaf? m.position) = (kind, none)) :
    job.Mirrors m (.unwind popped.length) (.next (m.failed.resume popped stack))
      (.next ((m.strip job).failed.resume (popped.map (Tree.stripping job.language).entry)
        ((Tree.stripping job.language).stack stack))) := by
  have hresume : (m.failed.resume popped stack).strip job = _ :=
    Machine.strip_resume m.failed popped stack
  rw [Machine.strip_failed hm hat] at hresume
  have hmirror : job.stripped.Does (m.strip job)
      (.unwind (popped.map (Tree.stripping job.language).entry).length)
      (.next ((m.strip job).failed.resume (popped.map (Tree.stripping job.language).entry)
        ((Tree.stripping job.language).stack stack))) :=
    .unwind (by rw [actionFor_strip hm hat, haction]) (by rw [unwindTo?_strip hm hat, hfound]; rfl)
  rw [← hresume, List.length_map] at hmirror
  rw [← hresume]
  exact .next (.unwind haction hfound) hmirror
    ⟨hm.waiting, hm.inside, fun _ => rfl, (hm.failed hat).attempts⟩

private theorem mirrors_recover
    (haction : job.language.actionFor m.stack.top.state (job.leaf? m.position) = (kind, none)) :
    ∃ e, job.Mirrors m e (job.recover m) (job.stripped.recover (m.strip job)) := by
  have herrors : (m.strip job).failed.recovery.errors = m.failed.recovery.errors := rfl
  have hattempts : (m.strip job).failed.recovery.attempts = m.failed.recovery.attempts := by
    rw [← Machine.strip_failed hm hat]
    rfl
  have hgiveUp : job.Mirrors m .giveUp (.done (m.failed.abandon job))
      (.done ((m.strip job).failed.abandon job.stripped)) :=
    mirrors_giveUp hm hat haction nofun rfl
  have hconfig : job.stripped.config = job.config := rfl
  have hsearch {α β : Type} (f : α → β) (p : Prop) [Decidable p] (x : Option α) :
      (if p then x.map f else none) = (if p then x else none).map f := by
    split <;> rfl
  rw [recover_eq, recover_eq, hconfig, herrors, hattempts, unwindTo?_strip hm hat,
    leaf?_strip hm hat, hsearch]
  by_cases hstop :
    (!job.config.errorRecovery || decide (job.config.maxErrors < m.failed.recovery.errors)) = true
  · rw [if_pos hstop, if_pos hstop]
    exact ⟨_, hgiveUp⟩
  · rw [if_neg hstop, if_neg hstop]
    cases hfound : (if m.failed.recovery.attempts ≤ job.config.maxAttempts then
        m.stack.unwindTo? fun state =>
          job.language.hasAction state (job.leaf? m.position) else none) with
    | some found =>
      split at hfound
      · exact ⟨_, mirrors_unwind hm hat hfound haction⟩
      · contradiction
    | none =>
      cases hleaf : job.leaf? m.position with
      | some leaf => exact ⟨_, mirrors_skip hm hat hleaf haction⟩
      | none => exact ⟨_, hgiveUp⟩

private theorem mirrors_reduce {production : Nat}
    (haction : job.language.actionFor m.stack.top.state (job.leaf? m.position) =
      (kind, some (.reduce production)))
    {info : Table.ProductionInfo} {next : Nat}
    (happlies : job.reduction? m production = some (info, next)) :
    job.Mirrors m (.reduce production) (.next (m.reduced job.language info next))
      (.next ((m.strip job).reduced job.language info next)) := by
  have hmirror : job.stripped.Does (m.strip job) (.reduce production)
      (.next ((m.strip job).reduced job.language info next)) :=
    .reduce (by rw [actionFor_strip hm hat, haction]) (by rw [reduction?_stripped, happlies])
  rw [← Machine.strip_reduced] at hmirror ⊢
  exact .next (.reduce haction happlies) hmirror ⟨hm.waiting, hm.inside, hm.skipped, hm.attempts⟩

private theorem mirrors_accept
    (haction : job.language.actionFor m.stack.top.state (job.leaf? m.position) =
      (kind, some .accept)) :
    job.Mirrors m .accept (.done (m.flush.accept job.language.start))
      (.done ((m.strip job).flush.accept job.language.start)) := by
  have hroot := Machine.strip_accept hm.flush job.language.start
  rw [Machine.strip_flush hm] at hroot
  refine .done (.accept haction) (.accept (by rw [actionFor_strip hm hat, haction])) ?_ fun _ =>
    hroot.symm
  rw [← Machine.strip_flush hm]
  rfl

private theorem mirrors_act (hword : job.language.WordApart) (hreuse : job.reuse = none) :
    ∃ e, job.Mirrors m e (job.act m) (job.stripped.act (m.strip job)) := by
  rw [act_of_fresh hreuse, act_of_fresh (show job.stripped.reuse = none from rfl),
    actionFor_strip hm hat, leaf?_strip hm hat]
  cases haction : job.language.actionFor m.stack.top.state (job.leaf? m.position) with
  | mk kind action =>
    cases action with
    | none => exact mirrors_recover hm hat haction
    | some action =>
      cases action with
      | shift next =>
        cases hleaf : job.leaf? m.position with
        | some leaf => exact ⟨_, mirrors_shift hm hat hword hleaf haction⟩
        | none =>
          exact ⟨_, mirrors_giveUp hm hat haction nofun (by rw [← Machine.strip_flush hm]; rfl)⟩
      | reduce production =>
        simp only [reduction?_stripped]
        cases happlies : job.reduction? m production with
        | none => exact ⟨_, mirrors_giveUp hm hat haction nofun rfl⟩
        | some found =>
          by_cases hroom : m.reductions < reductionLimit
          · have hroom' : (m.strip job).reductions < reductionLimit := hroom
            simp only [if_pos hroom, if_pos hroom']
            exact ⟨_, mirrors_reduce hm hat haction happlies⟩
          · have hroom' : ¬ (m.strip job).reductions < reductionLimit := hroom
            simp only [if_neg hroom, if_neg hroom']
            exact ⟨_, mirrors_giveUp hm hat haction nofun rfl⟩
      | accept => exact ⟨_, mirrors_accept hm hat haction⟩

end

/-! ## Runs -/

/-- A run does the same as the run of the text without extras, and comes to the same tree without
its extras. -/
theorem mirrors_run (hword : job.language.WordApart) (hreuse : job.reuse = none)
    (hm : m.Settled job) :
    ∃ es, job.Trace m es ∧ job.stripped.Trace (m.strip job) es ∧
      (job.stripped.run (m.strip job)).errors = (job.run m).errors ∧
        (Event.accept ∈ es → (job.stripped.run (m.strip job)).root =
          (job.run m).root.strip job.language) := by
  have hmirrors (m : Machine) (hm : m.Settled job) : ∃ e,
      job.Mirrors (job.collectExtras m) e (job.step m) (job.stripped.step (m.strip job)) := by
    have hact := mirrors_act hm.collectExtras (atToken_collectExtras job m) hword hreuse
    rwa [Machine.strip_collectExtras, ← Machine.collectExtras_strip] at hact
  have hplace (m : Machine) : (job.collectExtras m).strip job =
      job.stripped.collectExtras (m.strip job) := by
    rw [Machine.strip_collectExtras, Machine.collectExtras_strip]
  fun_induction run job m with
  | case1 m n hn ih =>
    obtain ⟨e, hact⟩ := hmirrors m hm
    rw [hn] at hact
    generalize hq : job.stripped.step (m.strip job) = q at hact
    cases hact with
    | next does mirror settled =>
      obtain ⟨es, htrace, hstripped, herrors, hroot⟩ := ih settled
      rw [hplace] at mirror
      refine ⟨e :: es, .more hn does htrace, .more hq mirror hstripped, ?_, ?_⟩
      · rw [run_of_next hq, herrors]
      · intro hmem
        rw [run_of_next hq]
        refine hroot ((List.mem_cons.1 hmem).resolve_left ?_)
        rintro rfl
        cases does
  | case2 m o ho =>
    obtain ⟨e, hact⟩ := hmirrors m hm
    rw [ho] at hact
    generalize hq : job.stripped.step (m.strip job) = q at hact
    cases hact with
    | done does mirror errors root =>
      rw [hplace] at mirror
      refine ⟨[e], .last ho does, .last hq mirror, ?_, ?_⟩
      · rw [run_of_done hq, errors]
      · intro hmem
        rw [run_of_done hq]
        exact root (List.mem_singleton.1 hmem).symm

end Job
end Parse

/-- Runs from scratch on tokens that differ in extras only do the same, with the same number of
errors, and if they accept, their trees differ in extras only. -/
theorem run_of_shapes {job job' : Job} (hlanguage : job'.language = job.language)
    (hconfig : job'.config = job.config) (hword : job.language.WordApart)
    (hreuse : job.reuse = none) (hreuse' : job'.reuse = none)
    (hshapes : job.language.shapes job'.leaves = job.language.shapes job.leaves) :
    ∃ es, job.Trace {} es ∧ job'.Trace {} es ∧ (job'.run {}).errors = (job.run {}).errors ∧
      (Event.accept ∈ es → (job'.run {}).root.strip job.language =
        (job.run {}).root.strip job.language) := by
  have hstripped : job'.stripped = job.stripped := by
    simp only [Job.stripped, hlanguage, hconfig, hshapes]
  obtain ⟨es, htrace, hmirror, herrors, hroot⟩ :=
    Job.mirrors_run hword hreuse (Machine.settled_start job)
  obtain ⟨es', htrace', hmirror', herrors', hroot'⟩ :=
    Job.mirrors_run (hlanguage ▸ hword) hreuse' (Machine.settled_start job')
  rw [Machine.strip_start] at hmirror herrors hroot hmirror' herrors' hroot'
  rw [hstripped] at hmirror' herrors' hroot'
  obtain rfl := hmirror'.unique hmirror
  rw [hlanguage] at hroot'
  exact ⟨es', htrace, htrace', herrors'.symm.trans herrors,
    fun h => (hroot' h).symm.trans (hroot h)⟩

namespace Letter

/-- The letter x among extras. -/
def amongSpaces (before after : List StreamToken) : Job where
  language := { Compilation.letter.language with extras := #[⟨5⟩] }
  config := {}
  stream := (before ++ ⟨leaf, none⟩ :: after).toArray

def space : StreamToken := ⟨{ kind := ⟨5⟩, lexedKind := ⟨5⟩, length := 1 }, none⟩

end Letter

theorem run_of_shapes_letter : ∃ es, (Letter.amongSpaces [] []).Trace {} es ∧
    (Letter.amongSpaces [Letter.space] [Letter.space, Letter.space]).Trace {} es ∧
      ((Letter.amongSpaces [Letter.space] [Letter.space, Letter.space]).run {}).errors =
        ((Letter.amongSpaces [] []).run {}).errors ∧
      (Event.accept ∈ es →
        ((Letter.amongSpaces [Letter.space] [Letter.space, Letter.space]).run {}).root.strip
          (Letter.amongSpaces [] []).language =
        ((Letter.amongSpaces [] []).run {}).root.strip (Letter.amongSpaces [] []).language) :=
  run_of_shapes rfl rfl (fun _ hword => by contradiction) rfl rfl (by cbv)

end Reparse

import Reparse.Proofs.Exactness
import Reparse.SyntaxTree.Errors

/-! # The errors of a tree

Errors are counted three times: by the parser, one for each streak; in the tree, as error nodes and
as the flags of the nodes above them; and in the list of reports that a walk over the tree collects.
A streak ends with one error node, and no token is an error outside of such a node, so that the
three agree. -/
namespace Reparse
open Text Parse Reparse.Tree

/-! ## Reports -/

namespace SyntaxTree

/-- The report on a tree that begins at an offset, if it is an error itself. -/
def reportOn (t : SyntaxTree) (significant : Array (Nat × Leaf)) (offset : Nat) (u : Tree) :
    List SyntaxError :=
  let range : Range := .ofLength offset (totalLength u.frontier)
  match u with
  | .leaf l => if l.isError then [⟨range, .unrecognized (lossy (t.slice range))⟩] else []
  | .node info children =>
    let leaves := significantLeaves t.language (.node info children)
    if info.isError && isReportable leaves
      then [t.nodeError significant range info.state leaves] else []

mutual
/-- The reports on a tree and what is below it. -/
def reportsAt (t : SyntaxTree) (significant : Array (Nat × Leaf)) (offset : Nat) :
    Tree → List SyntaxError
  | .leaf l => t.reportOn significant offset (.leaf l)
  | .node info children =>
    t.reportOn significant offset (.node info children) ++
      forestReportsAt t significant offset children

/-- The reports on several trees, the first of which begins at an offset. -/
def forestReportsAt (t : SyntaxTree) (significant : Array (Nat × Leaf)) (offset : Nat) :
    List Tree → List SyntaxError
  | [] => []
  | u :: rest =>
    reportsAt t significant offset u ++
      forestReportsAt t significant (offset + totalLength u.frontier) rest
end

variable {t : SyntaxTree} {significant : Array (Nat × Leaf)} {offset : Nat}

/-- A walk that enters a node reports on it. -/
private theorem errorVisit_node {info : NodeInfo} {children : List Tree}
    (h : (Tree.node info children).Consistent) (field : Option Field) (found : Array SyntaxError)
    (hsize : offset + totalLength (Tree.node info children).frontier ≤ maxSize) :
    t.errorVisit significant (offset, found) (.enter field (.node info children)) =
      (offset, found ++ (t.reportOn significant offset (.node info children)).toArray) := by
  have hlength : plus offset info.length =
      offset + totalLength (Tree.node info children).frontier := by
    have hclamped := h.length_eq rfl
    rw [clamp_of_le (by omega)] at hclamped
    change plus offset (Tree.node info children).length = _
    rw [hclamped, plus_of_le hsize]
  unfold errorVisit reportOn
  simp only [hlength, Range.ofLength]
  cases info.isError with
  | false => simp
  | true => cases isReportable (significantLeaves t.language (.node info children)) <;> simp

/-- A walk collects the reports of a tree before it goes on. -/
theorem walkFrom_errorVisit {u : Tree} (h : u.Consistent) (field : Option Field) (rest : List Visit)
    (found : Array SyntaxError) (hsize : offset + totalLength u.frontier ≤ maxSize) :
    walkFrom (t.errorVisit significant) (.enter field u :: rest) (offset, found) =
      walkFrom (t.errorVisit significant) rest
        (offset + totalLength u.frontier, found ++ (t.reportsAt significant offset u).toArray) := by
  induction h generalizing field rest offset found with
  | leaf l =>
    have hlength : totalLength (Tree.leaf l).frontier = l.length := by simp [Tree.frontier]
    rw [hlength] at hsize
    rw [walkFrom, errorVisit, reportsAt, reportOn, plus_of_le hsize, hlength]
    split <;> simp [Range.ofLength]
  | @node kind children fields state isError below ih =>
    have hbelow (cs : List (Option Field × Tree)) (hcs : ∀ p ∈ cs, p.2 ∈ children)
        (after : List Visit) (offset : Nat) (found : Array SyntaxError)
        (hsize : offset + totalLength (forestFrontier (cs.map (·.2))) ≤ maxSize) :
        walkFrom (t.errorVisit significant)
        (cs.map (fun p => .enter p.1 p.2) ++ after) (offset, found) =
          walkFrom (t.errorVisit significant) after
          (offset + totalLength (forestFrontier (cs.map (·.2))),
            found ++ (t.forestReportsAt significant offset (cs.map (·.2))).toArray) := by
      induction cs generalizing offset found with
      | nil => simp [forestFrontier, forestReportsAt]
      | cons c cs ihc =>
        simp only [List.map_cons, forestFrontier, totalLength_append] at hsize
        rw [List.map_cons, List.cons_append, ih c.2 (hcs c (by simp)) _ _ _ (by omega),
          ihc (fun p hp => hcs p (by simp [hp])) _ _ (by omega)]
        simp [forestFrontier, forestReportsAt, Nat.add_assoc]
    let u : Tree := .node (infoOf kind children fields state isError) children
    have hchildren : u.labelledChildren.map (·.2) = children := labelledChildren_snd u
    have hmem : ∀ p ∈ u.labelledChildren, p.2 ∈ children := by
      intro p hp
      rw [← hchildren]
      exact List.mem_map_of_mem hp
    have hwalk := hbelow u.labelledChildren hmem (.leave u :: rest) offset
      (found ++ (t.reportOn significant offset u).toArray) (by rw [hchildren]; exact hsize)
    rw [walkFrom, errorVisit_node (.node below) field found hsize, enterChildren, hwalk, hchildren,
      walkFrom, errorVisit, reportsAt, Array.append_assoc,
      List.append_toArray (t.reportOn significant offset u)]
    rfl

/-- The reports on a tree in whose text an offset begins. -/
def reports (t : SyntaxTree) : List SyntaxError :=
  t.reportsAt (t.leaves.filter fun place => !t.language.isExtra place.2.kind) 0 t.root

theorem errors_eq_reports (ht : t.Faithful) (h : t.hasErrors = true) :
    t.errors.toList = t.reports := by
  have hsize : 0 + totalLength t.root.frontier ≤ maxSize := by
    rw [ht.spells, Nat.zero_add]
    exact ht.size
  unfold errors reports
  rw [if_pos h]
  simp only [walk]
  rw [walkFrom_errorVisit ht.consistent none [] #[] hsize, walkFrom]
  simp

/-! ## Order -/

theorem range_reportOn {u : Tree} : ∀ e ∈ t.reportOn significant offset u,
    e.range = .ofLength offset (totalLength u.frontier) := by
  intro e he
  unfold reportOn at he
  cases u with
  | leaf l =>
    simp only at he
    split at he
    · rw [List.mem_singleton.1 he]
    · contradiction
  | node info children =>
    simp only at he
    split at he
    · rw [List.mem_singleton.1 he]
      rfl
    · contradiction

private theorem length_reportOn (t : SyntaxTree) (significant : Array (Nat × Leaf)) (offset : Nat)
    (u : Tree) :
    (t.reportOn significant offset u).length ≤ 1 := by
  unfold reportOn
  cases u with
  | leaf l =>
    simp only
    split <;> simp
  | node info children =>
    simp only
    split <;> simp

/-- The reports are in order, and inside the part of the text that they are on. -/
structure Ordered (start length : Nat) (es : List SyntaxError) : Prop where
  sorted : es.Pairwise fun a b => a.range.start ≤ b.range.start
  inside : ∀ e ∈ es, start ≤ e.range.start ∧ e.range.start ≤ e.range.stop ∧
    e.range.stop ≤ start + length

private theorem Ordered.append {start n m : Nat} {a b : List SyntaxError} (ha : Ordered start n a)
    (hb : Ordered (start + n) m b) :
    Ordered start (n + m) (a ++ b) where
  sorted := by
    refine List.pairwise_append.2 ⟨ha.sorted, hb.sorted, fun x hx y hy => ?_⟩
    have hxs := ha.inside x hx
    have hys := hb.inside y hy
    omega
  inside := by
    intro e he
    rcases List.mem_append.1 he with he | he
    · have := ha.inside e he
      omega
    · have := hb.inside e he
      omega

private theorem ordered_reportOn (t : SyntaxTree) (significant : Array (Nat × Leaf)) (offset : Nat)
    (u : Tree) :
    Ordered offset (totalLength u.frontier) (t.reportOn significant offset u) where
  sorted := by
    have hlength := t.length_reportOn significant offset u
    match t.reportOn significant offset u, hlength with
    | [], _ => exact .nil
    | [e], _ => exact List.pairwise_singleton ..
  inside := by
    intro e he
    rw [range_reportOn e he]
    simp only [Range.ofLength]
    omega

private theorem ordered_forestReportsAt {ts : List Tree}
    (h : ∀ u ∈ ts, ∀ offset, Ordered offset (totalLength u.frontier)
      (t.reportsAt significant offset u)) :
    Ordered offset (totalLength (forestFrontier ts)) (t.forestReportsAt significant offset ts) := by
  induction ts generalizing offset with
  | nil => exact ⟨.nil, nofun⟩
  | cons u rest ih =>
    rw [forestReportsAt, forestFrontier, totalLength_append]
    exact (h u List.mem_cons_self offset).append (ih fun v hv => h v (List.mem_cons_of_mem _ hv))

private theorem ordered_reportsAt (t : SyntaxTree) (significant : Array (Nat × Leaf)) (offset : Nat)
    (u : Tree) :
    Ordered offset (totalLength u.frontier) (t.reportsAt significant offset u) := by
  induction u using Tree.induction generalizing offset with
  | leaf l => exact t.ordered_reportOn significant offset (.leaf l)
  | node info children ih =>
    have hown := t.ordered_reportOn significant offset (.node info children)
    have hbelow : Ordered offset _ (t.forestReportsAt significant offset children) :=
      ordered_forestReportsAt ih
    rw [reportsAt]
    refine ⟨List.pairwise_append.2 ⟨hown.sorted, hbelow.sorted, fun x hx y hy => ?_⟩,
      fun e he => ?_⟩
    · rw [range_reportOn x hx]
      exact (hbelow.inside y hy).1
    · rcases List.mem_append.1 he with he | he
      · exact hown.inside e he
      · exact hbelow.inside e he

/-! ## There is a report wherever there is an error -/

private theorem forestReportsAt_ne_nil {ts : List Tree} {u : Tree} (hu : u ∈ ts)
    (h : ∀ offset, t.reportsAt significant offset u ≠ []) :
    t.forestReportsAt significant offset ts ≠ [] := by
  induction ts generalizing offset with
  | nil => contradiction
  | cons v rest ih =>
    rw [forestReportsAt]
    rcases List.mem_cons.1 hu with rfl | hu
    · exact List.append_ne_nil_of_left_ne_nil (h offset) _
    · exact List.append_ne_nil_of_right_ne_nil _ (ih hu)

/-- An error node that is not reported has an error below it. -/
private theorem reportOn_ne_nil {info : NodeInfo} {children : List Tree}
    (herror : info.isError = true)
    (hclean : ∀ l ∈ (Tree.node info children).frontier, l.isError = false) :
    t.reportOn significant offset (.node info children) ≠ [] := by
  have hreportable : isReportable (significantLeaves t.language (.node info children)) = true := by
    unfold isReportable
    rw [Bool.or_eq_true, Array.any_eq_true']
    by_cases hempty : (significantLeaves t.language (.node info children)).isEmpty = true
    · exact .inl hempty
    · right
      obtain ⟨l, hl⟩ : ∃ l, l ∈ significantLeaves t.language (.node info children) := by
        rw [Array.isEmpty_iff] at hempty
        exact Array.exists_mem_of_ne_empty _ hempty
      refine ⟨l, hl, ?_⟩
      have hmem := (Array.mem_filter.1 hl).1
      rw [← Array.mem_toList_iff, Tree.leaves_toList] at hmem
      rw [hclean l hmem]
      rfl
  unfold reportOn
  simp only
  rw [herror, hreportable]
  simp

private theorem reportsAt_ne_nil {u : Tree} (h : u.Consistent) (herror : u.hasError = true) :
    t.reportsAt significant offset u ≠ [] := by
  induction h generalizing offset with
  | leaf l =>
    have hl : l.isError = true := herror
    rw [reportsAt, reportOn]
    simp [hl]
  | @node kind children fields state isError below ih =>
    rw [reportsAt]
    cases hany : children.any hasError with
    | true =>
      obtain ⟨c, hc, hcerror⟩ := List.any_eq_true.1 hany
      exact List.append_ne_nil_of_right_ne_nil _
        (forestReportsAt_ne_nil hc fun offset => ih c hc hcerror)
    | false =>
      change (infoOf kind children fields state isError).hasError = true at herror
      rw [hasError_infoOf, show children.any hasError = false from hany, Bool.or_false] at herror
      refine List.append_ne_nil_of_left_ne_nil
        (reportOn_ne_nil (isError_infoOf.trans herror) fun l hl => ?_) _
      rw [Tree.frontier, forestFrontier_eq_flatMap] at hl
      obtain ⟨c, hc, hl⟩ := List.mem_flatMap.1 hl
      rw [List.any_eq_false] at hany
      exact (below c hc).noError (by simpa using hany c hc) l hl

/-- A tree without errors has no reports, and one with errors has some. -/
theorem errors_eq_empty_iff (ht : t.Faithful) : t.errors = #[] ↔ t.hasErrors = false := by
  cases herror : t.hasErrors with
  | false =>
    unfold errors
    rw [herror]
    simp
  | true =>
    have hreports := errors_eq_reports ht herror
    simp only [reduceCtorEq, iff_false]
    intro hempty
    rw [hempty] at hreports
    exact reportsAt_ne_nil ht.consistent herror hreports.symm

/-- The reports on a text are in order and inside of it. -/
theorem ordered_errors (ht : t.Faithful) : Ordered 0 t.source.size t.errors.toList := by
  cases herror : t.hasErrors with
  | false =>
    rw [(errors_eq_empty_iff ht).2 herror]
    exact ⟨.nil, nofun⟩
  | true =>
    rw [errors_eq_reports ht herror, ← ht.spells]
    exact t.ordered_reportsAt _ 0 t.root

end SyntaxTree

/-! ## The count of error nodes -/

namespace Tree

mutual
/-- The number of error nodes in a tree. -/
def errorNodes : Tree → Nat
  | .leaf _ => 0
  | .node info children => info.isError.toNat + forestErrorNodes children

/-- The number of error nodes in several trees. -/
def forestErrorNodes : List Tree → Nat
  | [] => 0
  | t :: rest => t.errorNodes + forestErrorNodes rest
end

@[simp] theorem forestErrorNodes_append (a b : List Tree) :
    forestErrorNodes (a ++ b) = forestErrorNodes a + forestErrorNodes b := by
  induction a with
  | nil => simp [forestErrorNodes]
  | cons t rest ih => simp [forestErrorNodes, ih, Nat.add_assoc]

@[simp] theorem forestErrorNodes_leafTrees (leaves : Array Leaf) :
    forestErrorNodes (leafTrees leaves) = 0 := by
  unfold leafTrees
  induction leaves.toList with
  | nil => rfl
  | cons l rest ih => rw [List.map_cons, forestErrorNodes, errorNodes, ih]

@[simp] theorem errorNodes_errorNode (ts : List Tree) (state : Nat) :
    (Tree.errorNode ts state).errorNodes = forestErrorNodes ts + 1 := by
  change (infoOf Kind.error ts [] state true).isError.toNat + forestErrorNodes ts = _
  rw [isError_infoOf]
  exact Nat.add_comm 1 _

@[simp] theorem errorNodes_branchOf (kind : Kind) (elements : List Element) (state : Nat) :
    (branchOf kind elements state).errorNodes = forestErrorNodes (elements.map (·.2)) := by
  change (infoOf kind (elements.map (·.2)) (indexedFields elements) state false).isError.toNat + _ =
      _
  rw [isError_infoOf]
  exact Nat.zero_add _

private theorem forestErrorNodes_children {t : Tree} (h : t.isErrorNode = false) :
    forestErrorNodes t.children = t.errorNodes := by
  cases t with
  | leaf l => rfl
  | node info children =>
    have herror : info.isError = false := h
    rw [errorNodes, herror]
    exact (Nat.zero_add _).symm

private theorem forestErrorNodes_eq_zero {ts : List Tree} (h : ∀ t ∈ ts, t.errorNodes = 0) :
    forestErrorNodes ts = 0 := by
  induction ts with
  | nil => rfl
  | cons t rest ih =>
    rw [forestErrorNodes, h t List.mem_cons_self, ih fun u hu => h u (List.mem_cons_of_mem _ hu)]

/-- Error nodes are errors. -/
private theorem errorNodes_eq_zero {t : Tree} (h : t.Consistent) (hclean : t.hasError = false) :
    t.errorNodes = 0 := by
  induction h with
  | leaf l => rfl
  | @node kind children fields state isError below ih =>
    change (infoOf kind children fields state isError).hasError = false at hclean
    rw [hasError_infoOf, Bool.or_eq_false_iff, List.any_eq_false] at hclean
    rw [errorNodes, isError_infoOf, hclean.1]
    have hzero : forestErrorNodes children = 0 :=
      forestErrorNodes_eq_zero fun c hc => ih c hc (by simpa using hclean.2 c hc)
    rw [hzero]
    rfl

end Tree

namespace Parse
namespace Stack

variable {l : Language} {s : Stack}

private theorem forestErrorNodes_reduced (l : Language) (lhs : Kind) (elements : Array Element)
    (state : Nat) :
    forestErrorNodes (treesOf (reduced l lhs elements state)) =
      forestErrorNodes (treesOf elements) := by
  cases hvisible : l.isVisible lhs with
  | false => rw [reduced_hidden hvisible]
  | true =>
    have hsplit : elements.toList.takeWhile (fun e => l.isTrivia e.2) ++
        elements.toList.dropWhile (fun e => l.isTrivia e.2) = elements.toList :=
      List.takeWhile_append_dropWhile
    have htrees : treesOf elements =
        (elements.toList.takeWhile fun e => l.isTrivia e.2).map (·.2) ++
          (elements.toList.dropWhile fun e => l.isTrivia e.2).map (·.2) := by
      rw [← List.map_append, hsplit]
      rfl
    rw [htrees, treesOf, reduced_visible hvisible, List.map_append, forestErrorNodes_append,
      forestErrorNodes_append]
    simp [forestErrorNodes]

/-- A reduction keeps the error nodes. -/
private theorem forestErrorNodes_reduce {info : Table.ProductionInfo} {state : Nat}
    (h : s.uncovered? info.fields.size = some state) (next : Nat) :
    forestErrorNodes (s.reduce l info next).trees = forestErrorNodes s.trees := by
  rw [trees_reduce, forestErrorNodes_append, forestErrorNodes_reduced, treesOf_handle h,
    ← forestErrorNodes_append, trees_uncovered]

/-- The root of an accepted text has the error nodes of its parts. -/
private theorem errorNodes_root (s : Stack) (start : Kind) (trailing : List Tree) :
    (s.root start trailing).errorNodes = forestErrorNodes (s.trees ++ trailing) := by
  rcases root_cases s start trailing with
      ⟨before, e, after, helements, hstart, -, hroot⟩ | ⟨-, hroot⟩
  · have htrees : s.trees = s.treesBelow ++ (before.map (·.2) ++ e.2 :: after.map (·.2)) := by
      rw [trees_eq_treesBelow]
      simp [Entry.trees, helements]
    have hnode : forestErrorNodes e.2.children = e.2.errorNodes := by
      simp only [isStart, Bool.and_eq_true, Bool.not_eq_true'] at hstart
      exact forestErrorNodes_children hstart.2
    rw [hroot, errorNodes_branchOf, List.map_append, List.map_append, map_bare_snd, map_bare_snd,
      labelledChildren_snd, htrees]
    simp only [forestErrorNodes_append, forestErrorNodes, hnode]
    omega
  · rw [hroot, errorNodes_branchOf, map_bare_snd]

end Stack

/-- Each streak that has ended has one error node on the stack, an open one has skipped something,
and no token on the stack is an error by itself. -/
structure Machine.Accounted (m : Machine) : Prop where
  errors : m.recovery.errors = forestErrorNodes m.stack.trees + m.recovery.errorState.isSome.toNat
  skipped : m.recovery.errorState.isSome = true → m.recovery.skipped ≠ #[]
  covered : m.stack.trees.any hasError = true → 0 < forestErrorNodes m.stack.trees

/-- The count of errors is that of the tree. -/
structure Outcome.Accounted (o : Outcome) : Prop where
  errors : o.errors = 0 ↔ o.root.hasError = false
  nodes : o.root.isErrorNode = false → o.root.errorNodes = o.errors

variable {k : Compilation} {job : Job} {m : Machine}

namespace Machine.Accounted

private theorem start : Machine.Accounted {} where
  errors := rfl
  skipped := nofun
  covered := nofun

private theorem collectExtras (h : m.Accounted) : (job.collectExtras m).Accounted := by
  refine ⟨?_, ?_, ?_⟩
  · rw [Job.collectExtras_stack, Job.collectExtras_recovery]
    exact h.errors
  · rw [Job.collectExtras_recovery]
    exact h.skipped
  · rw [Job.collectExtras_stack]
    exact h.covered

/-- The end of a streak makes its error node. -/
private theorem flush (h : m.Accounted) : m.flush.Accounted ∧ m.flush.Idle := by
  refine ⟨?_, m.flush_errorState⟩
  cases hstate : m.recovery.errorState with
  | none => rwa [flush_of_idle hstate]
  | some state =>
    have hskipped := h.skipped (by rw [hstate]; rfl)
    have herrors := h.errors
    rw [hstate] at herrors
    have hflush : m.flush = { m with
        stack := m.stack.append (.errorNode (leafTrees m.recovery.skipped) state)
        recovery := { m.recovery with errorState := none, skipped := #[] } } := by
      unfold Machine.flush
      rw [hstate]
      simp only
      rw [if_neg (by simpa using hskipped)]
    rw [hflush]
    refine ⟨?_, nofun, fun _ => ?_⟩
    · rw [Stack.trees_append, forestErrorNodes_append]
      simpa [forestErrorNodes] using herrors
    · rw [Stack.trees_append, forestErrorNodes_append]
      simp [forestErrorNodes]

private theorem push (h : m.Accounted) (hidle : m.Idle) {l : Leaf} (proper : l.isError = false)
    (waiting : (leafTrees m.pending).any hasError = false) (next tokens : Nat) :
    (m.push next (.leaf l) tokens).Accounted := by
  have hnodes : forestErrorNodes (m.push next (.leaf l) tokens).stack.trees =
      forestErrorNodes m.stack.trees := by
    rw [trees_pushed]
    simp [forestErrorNodes, errorNodes]
  refine ⟨by rw [hnodes]; exact h.errors, fun hopen => ?_, fun hany => ?_⟩
  · change m.recovery.errorState.isSome = true at hopen
    rw [show m.recovery.errorState = none from hidle] at hopen
    contradiction
  · rw [hnodes]
    rw [trees_pushed, List.any_append, List.any_append, waiting] at hany
    refine h.covered ?_
    simpa [hasError, proper] using hany

private theorem reduced (h : m.Accounted) {l : Language} {info : Table.ProductionInfo} {state : Nat}
    (hstate : m.stack.uncovered? info.fields.size = some state) (next : Nat) :
    (m.reduced l info next).Accounted := by
  refine ⟨?_, h.skipped, ?_⟩
  · change m.recovery.errors = forestErrorNodes (m.stack.reduce l info next).trees + _
    rw [Stack.forestErrorNodes_reduce hstate]
    exact h.errors
  · change (m.stack.reduce l info next).trees.any hasError = true →
        0 < forestErrorNodes (m.stack.reduce l info next).trees
    rw [Stack.forestErrorNodes_reduce hstate, Stack.any_reduce hstate]
    exact h.covered

private theorem errors_failed (h : m.Accounted) :
    m.failed.recovery.errors = forestErrorNodes m.stack.trees + 1 := by
  have herrors := h.errors
  change (if m.recovery.errorState.isNone then m.recovery.errors + 1 else m.recovery.errors) = _
  cases hstate : m.recovery.errorState with
  | none =>
    rw [hstate] at herrors
    simpa using herrors
  | some state =>
    rw [hstate] at herrors
    simpa using herrors

private theorem resume (h : m.Accounted) {p : Nat → Bool} {popped : List Entry} {stack : Stack}
    (found : m.stack.unwindTo? p = some (popped, stack)) :
    (m.failed.resume popped stack).Accounted := by
  have herrors := h.errors_failed
  rw [← Stack.trees_unwindTo? found, forestErrorNodes_append] at herrors
  refine ⟨?_, nofun, fun _ => ?_⟩
  · change m.failed.recovery.errors = _
    rw [herrors]
    simp [Machine.resume, forestErrorNodes, Nat.add_assoc]
  · simp [Machine.resume, forestErrorNodes]

private theorem skip (h : m.Accounted) (l : Leaf) : (m.failed.skip l).Accounted where
  errors := h.errors_failed
  skipped := fun _ => by simp [Machine.skip]
  covered := h.covered

private theorem accept (h : m.Accounted) (hidle : m.Idle)
    (hconsistent : AllConsistent m.stack.trees)
    (waiting : (leafTrees m.pending).any hasError = false) (start : Kind) :
    (m.accept start).Accounted := by
  have herrors := h.errors
  rw [show m.recovery.errorState = none from hidle] at herrors
  have hroot : (m.accept start).root.errorNodes = m.recovery.errors := by
    change (m.stack.root start (leafTrees m.pending)).errorNodes = _
    rw [Stack.errorNodes_root, forestErrorNodes_append, forestErrorNodes_leafTrees, herrors]
    rfl
  have hany : (m.accept start).root.hasError = m.stack.trees.any hasError := by
    change (m.stack.root start (leafTrees m.pending)).hasError = _
    rw [Stack.hasError_root hconsistent, List.any_append, waiting, Bool.or_false]
  refine ⟨?_, fun _ => hroot⟩
  change m.recovery.errors = 0 ↔ _
  rw [hany, herrors]
  constructor
  · intro hzero
    cases hcovered : m.stack.trees.any hasError with
    | false => rfl
    | true =>
      have hpos := h.covered hcovered
      simp at hzero
      omega
  · intro hclean
    rw [List.any_eq_false] at hclean
    rw [forestErrorNodes_eq_zero fun t ht =>
      errorNodes_eq_zero (hconsistent t ht) (by simpa using hclean t ht)]
    rfl

end Machine.Accounted

/-- Who gives up has made an error. -/
private theorem Machine.accounted_abandon (m : Machine) (job : Job) :
    (m.abandon job).Accounted where
  errors := by
    rw [Machine.hasError_abandon]
    change max m.recovery.errors 1 = 0 ↔ _
    simp
  nodes := by
    intro hroot
    have herror : (m.abandon job).root.isErrorNode = true := isError_infoOf
    rw [herror] at hroot
    contradiction

/-- No action reads unrecognized bytes. -/
private theorem Job.Scratch.isError_of_shift (hjob : job.Scratch k)
    (hflags : ∀ l ∈ job.leaves, l.isError = true → l.flags.word = false) {l : Leaf}
    (hl : l ∈ job.leaves) {state next : Nat} {kind : Kind}
    (haction : k.language.actionFor state (some l) = (kind, some (.shift next))) :
    l.isError = false := by
  obtain ⟨htable, hkind⟩ := Language.actionFor_eq_some_iff.1 haction
  cases herror : l.isError with
  | false => rfl
  | true =>
    rcases hkind with rfl | ⟨-, hword, -⟩
    · obtain ⟨st, hst, hedge, -⟩ := k.tableBuilt.of_shift htable
      have hle := Compilation.le_id_of_edge hst hedge
      rw [hjob.errors l hl herror] at hle
      exact absurd hle (by decide)
    · rw [hflags l hl herror] at hword
      contradiction

/-- A step leaves only extras waiting. -/
theorem Job.waitingExtras_of_act {progress : Progress} (hact : Act job m progress)
    (h : job.WaitingExtras m) :
    progress.Satisfies job.WaitingExtras fun _ => True := by
  cases hact with
  | reuse => exact fun l hl => absurd hl (Array.not_mem_empty l)
  | shift => exact fun l hl => absurd hl (Array.not_mem_empty l)
  | reduce => exact h
  | resume => exact h
  | skip => exact fun l hl => absurd hl (Array.not_mem_empty l)
  | accept => trivial
  | giveUp => trivial
  | stuck => trivial
  | overrun => trivial
  | shiftAtEnd => trivial

/-- A step keeps the accounts. -/
theorem Job.Scratch.accounted_of_act (hjob : job.Scratch k)
    (hflags : ∀ l ∈ job.leaves, l.isError = true → l.flags.word = false) {progress : Progress}
    (hact : Act job m progress) (hm : m.Lossless job) (hwaiting : job.WaitingExtras m)
    (h : m.Accounted) :
    progress.Satisfies Machine.Accounted Outcome.Accounted := by
  have hpending := hjob.any_pending hm hwaiting
  have hflushed : (leafTrees m.flush.pending).any hasError = false := by rwa [Machine.pending_flush]
  cases hact with
  | reuse found =>
    rw [hjob.reusable?] at found
    contradiction
  | @shift l kind next fresh here action =>
    rw [hjob.language] at action
    have hproper := hjob.isError_of_shift hflags (Scratch.mem_of_leaf? here) action
    exact h.flush.1.push (l := l.reinterpret kind) h.flush.2 hproper hflushed next 1
  | reduce _ _ applies =>
    obtain ⟨-, state, hstate, -⟩ := Job.reduction?_eq_some_iff.1 applies
    exact h.reduced hstate _
  | accept => exact h.flush.1.accept h.flush.2 hm.flush.consistent hflushed _
  | resume _ _ found => exact h.resume found
  | skip => exact h.skip _
  | giveUp => exact Machine.accounted_abandon _ _
  | stuck => exact Machine.accounted_abandon _ _
  | overrun => exact Machine.accounted_abandon _ _
  | shiftAtEnd => exact Machine.accounted_abandon _ _

/-- A run from scratch ends with the count of its errors. -/
theorem Job.Scratch.accounted_run (hjob : job.Scratch k)
    (hflags : ∀ l ∈ job.leaves, l.isError = true → l.flags.word = false) :
    (job.run {}).Accounted := by
  let inv (m : Machine) : Prop := m.Lossless job ∧ job.WaitingExtras m ∧ m.Accounted
  refine Job.run_of_invariant (fun m (hm : inv m) => ?_)
    ⟨Machine.lossless_start job, fun l h => absurd h (Array.not_mem_empty l), .start⟩
  obtain ⟨hlossless, hwaiting, haccounted⟩ := hm
  have hact := Job.step_cases job m
  have hwaiting := Job.waitingExtras_collectExtras hwaiting
  have hlossless' := Job.lossless_of_act hjob.sound hact hlossless.collectExtras
  have hwaiting' := Job.waitingExtras_of_act hact hwaiting
  have haccounted' :=
    hjob.accounted_of_act hflags hact hlossless.collectExtras hwaiting haccounted.collectExtras
  cases hnext : job.step m with
  | next n =>
    rw [hnext] at hlossless' hwaiting' haccounted'
    exact ⟨hlossless', hwaiting', haccounted'⟩
  | done o =>
    rw [hnext] at haccounted'
    exact haccounted'

end Parse

/-- Unrecognized bytes do not stand for words. -/
private theorem Lexer.word_of_error {lexer : Lexer} {source : Bytes} {c : Cursor} {found : Token}
    (h : lexer.nextToken source c = some found) (herror : found.flags.error = true) :
    found.flags.word = false := by
  cases nextToken_eq_some_iff.1 h with
  | unknownMode => rfl
  | noMatch => rfl
  | rule => contradiction

/-- In the tree of a text, the count of errors, the flag of the root and the list of reports agree
on whether there are errors, the reports are in order and inside the text, and an accepted text has
as many error nodes as errors. -/
theorem errors_parse (k : Compilation) {p : Parser} (hp : p.language = k.language) {source : Bytes}
    (hsize : source.size ≤ maxSize) :
    ((p.parse source).stats.errors = 0 ↔ (p.parse source).hasErrors = false) ∧
    ((p.parse source).hasErrors = false ↔ (p.parse source).errors = #[]) ∧
    (∀ e ∈ (p.parse source).errors, e.range.start ≤ e.range.stop ∧ e.range.stop ≤ source.size) ∧
    ((p.parse source).errors.toList.Pairwise fun a b => a.range.start ≤ b.range.start) ∧
    ((p.parse source).root.isErrorNode = false →
      (p.parse source).root.errorNodes = (p.parse source).stats.errors) := by
  have hjob := Parser.scratch_job k hp source
  have hflags : ∀ l ∈ (p.job source none []).leaves, l.isError = true → l.flags.word = false := by
    intro l hl herror
    obtain ⟨token, htoken, rfl⟩ := List.mem_map.1 hl
    rcases TokenStream.exists_of_mem_relexFrom (Array.mem_toList_iff.1 htoken) with
        h | ⟨c, found, hnext, hleaf⟩
    · exact absurd h (Array.not_mem_empty token)
    · rw [hleaf] at herror ⊢
      exact Lexer.word_of_error hnext herror
  have haccounted := hjob.accounted_run hflags
  have hfaithful : (p.parse source).Faithful := Parser.faithful_parse k hp hsize nofun
  have hordered := SyntaxTree.ordered_errors hfaithful
  refine ⟨haccounted.errors, (SyntaxTree.errors_eq_empty_iff hfaithful).symm,
    fun e he => ?_, hordered.sorted, haccounted.nodes⟩
  have hinside := hordered.inside e (Array.mem_toList_iff.2 he)
  rw [Nat.zero_add] at hinside
  exact hinside.2

theorem errors_parse_letter : #[120, 120].size ≤ maxSize ∧
    ((Letter.parser.parse #[120, 120]).stats.errors = 0 ↔
      (Letter.parser.parse #[120, 120]).hasErrors = false) ∧
    ((Letter.parser.parse #[120, 120]).hasErrors = false ↔
      (Letter.parser.parse #[120, 120]).errors = #[]) ∧
    (∀ e ∈ (Letter.parser.parse #[120, 120]).errors, e.range.start ≤ e.range.stop ∧
      e.range.stop ≤ 2) ∧
    ((Letter.parser.parse #[120, 120]).errors.toList.Pairwise fun a b =>
      a.range.start ≤ b.range.start) ∧
    ((Letter.parser.parse #[120, 120]).root.isErrorNode = false →
      (Letter.parser.parse #[120, 120]).root.errorNodes =
        (Letter.parser.parse #[120, 120]).stats.errors) :=
  ⟨by decide, errors_parse Compilation.letter (p := Letter.parser) rfl (by decide)⟩

end Reparse

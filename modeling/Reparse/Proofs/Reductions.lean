import Reparse.Proofs.Splicing

/-! # Reductions and acceptance on grounded stacks -/
namespace Reparse
open Grammar Parse Reparse.Tree Stack

theorem Language.action_of_actionFor {l : Language} {state : Nat} {next : Option Leaf} {kind : Kind}
    {action : Table.Action} (h : l.actionFor state next = (kind, some action)) :
    l.table.action? state kind = some action := by
  cases next with
  | none =>
    obtain ⟨rfl, haction⟩ := Prod.mk.inj h
    exact haction
  | some leaf => exact (actionFor_eq_some_iff.1 h).1

namespace Compilation

variable {k : Compilation}

/-- No extra occurs in a rule. -/
def ExtrasApart (k : Compilation) : Prop :=
  ∀ (q : Nat) (p : Production), k.flat.productions[q]? = some p →
  ∀ s ∈ p.steps, k.language.isExtra s.symbol = false

/-- A transition is for a symbol of some rule. -/
theorem occurs_of_edge {id next : Nat} {st : Table.State} {x : Kind} (hst : k.states[id]? = some st)
    (hedge : (x, next) ∈ st.transitions) : ∃ (q : Nat) (p : Production) (s : Step),
      k.flat.productions[q]? = some p ∧ s ∈ p.steps ∧ s.symbol = x := by
  obtain ⟨st', hst', before, after, hbefore, hmem, hafter⟩ := k.sound_states.edges id st hst _ hedge
  obtain ⟨entry, hentry⟩ := List.exists_mem_of_ne_nil _ (Table.Items.ne_nil_of_mem_successors hmem)
  obtain ⟨j, s, rest, -, hs, hsymbol, -⟩ := Table.Items.of_mem_successors hmem entry hentry
  obtain ⟨p, hp, hstep⟩ :=
    Flat.mem_of_mem_stepsFrom (g := k.flat) (q := j.production) (d := j.dot) (s := s)
    (by rw [hs]; exact List.mem_cons_self)
  exact ⟨j.production, p, s, hp, hstep, hsymbol⟩

theorem ExtrasApart.of_edge (h : k.ExtrasApart) {id next : Nat} {st : Table.State} {x : Kind}
    (hst : k.states[id]? = some st) (hedge : (x, next) ∈ st.transitions) :
    k.language.isExtra x = false := by
  obtain ⟨q, p, s, hp, hs, rfl⟩ := occurs_of_edge hst hedge
  exact h q p hp s hs

end Compilation

namespace Parse

variable {k : Compilation} {s : Stack} {xs : List Kind}

/-- An error node on top takes the promise of the entry away. -/
theorem Grounded.append (h : Grounded k s xs) (ts : List Tree) (state : Nat) :
    Grounded k (s.append (.errorNode ts state)) xs := by
  have herror (e : Entry) : ¬ Clean k.language (e.pushTree (.errorNode ts state)).trees := by
    intro hclean
    have hfalse := hclean (.errorNode ts state) (by simp [Entry.trees, Entry.pushTree]) rfl
    rw [hasError_errorNode] at hfalse
    contradiction
  cases h with
  | @bottom e hstate nothing => exact .bottom hstate fun hclean => absurd hclean (herror e)
  | @push s ys e x source below hsource edge reads =>
    exact .push below hsource edge fun hclean => absurd hclean (herror e)

theorem Stack.entries_injective {s r : Stack} (h : s.entries = r.entries) : s = r := by
  obtain ⟨top, below⟩ := s
  obtain ⟨top', below'⟩ := r
  simpa [Stack.entries, and_comm] using h

theorem Stack.entries_ne_nil (s : Stack) : s.entries ≠ [] := by
  simp [Stack.entries]

/-- What is left after entries were taken off the top. -/
theorem Grounded.of_entries (h : Grounded k s xs) {r : Stack} {popped : List Entry}
    (hr : r.entries ++ popped = s.entries) :
    ∃ ys, Grounded k r ys := by
  induction h generalizing popped with
  | @bottom e state nothing =>
    have hlength := congrArg List.length hr
    rw [List.length_append] at hlength
    have hpos := List.length_pos_iff.2 r.entries_ne_nil
    have hone : (Stack.mk e []).entries.length = 1 := rfl
    obtain rfl : popped = [] := List.length_eq_zero_iff.1 (by omega)
    rw [List.append_nil] at hr
    rw [Stack.entries_injective hr]
    exact ⟨[], .bottom state nothing⟩
  | @push s ys e x source hbelow hsource edge reads ih =>
    rcases List.eq_nil_or_concat popped with rfl | ⟨init, last, rfl⟩
    · rw [List.append_nil] at hr
      rw [Stack.entries_injective hr]
      exact ⟨_, .push hbelow hsource edge reads⟩
    · rw [Stack.entries_push, List.concat_eq_append, ← List.append_assoc] at hr
      exact ih (List.append_inj_left' hr rfl)

/-- A completed item on top tells what a reduction takes off. -/
theorem Grounded.handle (h : Grounded k s xs) (hs : AllConsistent s.trees) {st : Table.State}
    (hst : k.states[s.top.state]? = some st) {q d : Nat} {p : Production}
    (hp : k.flat.productions[q]? = some p) (hi : Table.Items.Closed k.flat st.kernel.cores ⟨q, d⟩)
    (hcomplete : k.flat.stepsFrom q d = []) :
    d = p.steps.length ∧ Uncovers k s xs q d ∧
      (Clean k.language ((s.popped d).flatMap (·.trees)) → Spliced k.language k.flat p.steps
        (proper k.language (labelAll k.language (s.popped d) (p.steps.map (·.field))).toList)) := by
  have huncovers := h.uncovers hst hi
  have hsteps := Flat.stepsFrom_zero hp
  have henough := huncovers.enough
  rw [Flat.stepsFrom_eq_drop, hsteps, List.drop_eq_nil_iff] at hcomplete
  rw [hsteps] at henough
  have hd : d = p.steps.length := Nat.le_antisymm henough hcomplete
  refine ⟨hd, huncovers, fun hclean => ?_⟩
  have hpopped := huncovers.popped
  rw [hsteps, hd, List.take_length, ← hd] at hpopped
  refine spliced_of_reads hpopped hclean (hs.subset ?_)
  rw [← Stack.trees_uncovered s d]
  exact List.subset_append_right _ _

/-- A reduction of the table fits the stack. -/
theorem Grounded.reduce (h : Grounded k s xs) (hs : AllConsistent s.trees)
    (htidy : ∀ t ∈ s.trees, Tidy k t) {q state next : Nat} {x : Kind} {info : Table.ProductionInfo}
    (haction : k.language.table.action? s.top.state x = some (.reduce q))
    (hinfo : k.language.table.productions[q]? = some info)
    (hstate : s.uncovered? info.fields.size = some state)
    (hgoto : k.language.table.goto? state info.lhs = some next) :
    (∃ ys, Grounded k (s.reduce k.language info next) ys) ∧
      ∀ t ∈ (s.reduce k.language info next).trees, Tidy k t := by
  obtain ⟨p, hp, hlhs, hfields⟩ := k.tableBuilt.of_productions hinfo
  obtain ⟨-, st, hst, i, ahead, hmem, rfl, hcomplete, -⟩ := k.tableBuilt.of_reduce haction
  obtain ⟨hd, huncovers, hspliced⟩ :=
    h.handle hs hst hp (Table.Items.closed_of_mem_closure hmem) hcomplete
  have hsize : p.steps.length = info.fields.size := by
    rw [← Array.length_toList, hfields, List.length_map]
  rw [hd, hsize] at huncovers
  have hhandle : Clean k.language (treesOf (s.handle k.language info)) →
      Spliced k.language k.flat p.steps (proper k.language (s.handle k.language info).toList) := by
    intro hclean
    rw [Stack.treesOf_handle hstate] at hclean
    unfold Stack.handle
    rw [hd, hsize, ← hfields] at hspliced
    exact hspliced hclean
  have hsplit := Stack.trees_uncovered s info.fields.size
  obtain ⟨ys, hbelow, -⟩ := huncovers.below
  obtain ⟨st', hst', hedge, -⟩ := k.tableBuilt.of_goto hgoto
  rw [← Stack.top_uncovered hstate] at hst'
  constructor
  · rw [Stack.reduce_eq]
    refine ⟨info.lhs :: ys, .push hbelow hst' hedge ?_⟩
    rw [hlhs]
    exact reads_reduced hp hhandle _ _
  · intro t ht
    rw [Stack.trees_reduce] at ht
    rcases List.mem_append.1 ht with ht | ht
    · apply htidy t
      rw [← hsplit]
      exact List.mem_append_left _ ht
    · rw [hlhs] at ht
      refine Tidy.reduced hp (fun u hu => htidy u ?_) hhandle _ t ht
      rw [Stack.treesOf_handle hstate] at hu
      rw [← hsplit]
      exact List.mem_append_right _ hu

/-- Acceptance finds one entry for the start symbol above the first state. -/
private theorem Grounded.start_above (h : Grounded k s xs) (hs : AllConsistent s.trees) {x : Kind}
    (haction : k.language.table.action? s.top.state x = some .accept) :
    ∃ e, s.below = [e] ∧ (Clean k.language e.trees → proper k.language e.elements.toList = []) ∧
      Entry.Reads k k.flat.start s.top := by
  obtain ⟨accept, hzero, -⟩ := k.wellFormed.accepting
  obtain ⟨st, hst, ⟨q, d⟩, ahead, hmem, rfl, hcomplete, -⟩ := k.tableBuilt.of_accept haction
  obtain ⟨rfl, huncovers, -⟩ :=
    h.handle hs hst hzero (Table.Items.closed_of_mem_closure hmem) hcomplete
  obtain ⟨st', hst', hclosed⟩ := huncovers.source
  obtain ⟨ys, hbelow, -⟩ := huncovers.below
  obtain ⟨hnil, -⟩ := hbelow.bottom_of_start hst' hclosed
  have hpopped := huncovers.popped
  have hentries := Stack.entries_uncovered s [({ symbol := k.flat.start } : Step)].length
  generalize s.uncovered [({ symbol := k.flat.start } : Step)].length =
    bottom at hbelow hnil hentries
  obtain ⟨e, below⟩ := bottom
  obtain rfl : below = [] := hnil
  have hsteps : (k.flat.stepsFrom 0 0).take [({ symbol := k.flat.start } : Step)].length =
      [{ symbol := k.flat.start }] := by
    rw [Flat.stepsFrom_zero hzero]
    rfl
  rw [hsteps] at hpopped
  cases hpopped' : s.popped [({ symbol := k.flat.start } : Step)].length with
  | nil =>
    rw [hpopped'] at hpopped
    contradiction
  | cons top rest =>
    rw [hpopped'] at hpopped hentries
    cases hpopped with
    | cons hreads hrest =>
      cases hrest
      obtain rfl : s = ⟨top, [e]⟩ := Stack.entries_injective hentries.symm
      refine ⟨e, rfl, ?_, hreads⟩
      cases hbelow with
      | bottom state nothing => exact nothing

/-- Without errors, the start symbol is one node. -/
theorem start_node {es : List Element}
    (h : Spliced k.language k.flat [{ symbol := k.flat.start }] es) :
    ∃ t, es = [(none, t)] ∧ t.isNode = true ∧ t.kind = k.flat.start := by
  obtain ⟨hle, hvisible⟩ := k.wellFormed.start
  cases h with
  | terminal terminal kind more =>
    simp only [Flat.isTerminal, decide_eq_true_eq] at terminal
    omega
  | visible nonterminal visible isNode kind more =>
    cases more
    exact ⟨_, rfl, isNode, kind⟩
  | hidden nonterminal hidden hp lhs splice more =>
    change k.language.isVisible k.flat.start = false at hidden
    change k.language.isVisible k.flat.start = true at hvisible
    rw [hvisible] at hidden
    contradiction

private theorem proper_bare {ts : List Tree} (h : ∀ t ∈ ts, k.language.isTrivia t = true) :
    proper k.language (ts.map bare) = [] := by
  apply proper_eq_nil
  intro e he
  obtain ⟨t, ht, rfl⟩ := List.mem_map.1 he
  exact h t ht

private theorem isTrivia_of_proper {es : List Element} (h : proper k.language es = []) :
    ∀ t ∈ es.map (·.2), k.language.isTrivia t = true := by
  intro t ht
  obtain ⟨e, he, rfl⟩ := List.mem_map.1 ht
  exact proper_eq_nil_iff.1 h e he

/-- The only proper element has nothing but extras around it. -/
private theorem proper_around {before after : List Element} {e x : Element}
    (he : k.language.isTrivia e.2 = false) (h : proper k.language (before ++ e :: after) = [x]) :
    proper k.language before = [] ∧ proper k.language after = [] := by
  have hcons : proper k.language (e :: after) = e :: proper k.language after := by simp [proper, he]
  rw [proper_append, hcons] at h
  cases hbefore : proper k.language before with
  | nil =>
    rw [hbefore] at h
    exact ⟨rfl, (List.cons.inj h).2⟩
  | cons y ys =>
    rw [hbefore] at h
    simp at h

/-- The root of an accepted text. -/
theorem Grounded.tidy_root (h : Grounded k s xs) (hs : AllConsistent s.trees)
    (htidy : ∀ t ∈ s.trees, Tidy k t) {x : Kind}
    (haction : k.language.table.action? s.top.state x = some .accept) {trailing : List Tree}
    (htrailing : ∀ t ∈ trailing, Tidy k t ∧ k.language.isTrivia t = true) :
    Tidy k (s.root k.flat.start trailing) := by
  obtain ⟨first, hbelow, hnothing, hreads⟩ := h.start_above hs haction
  have htreesBelow : s.treesBelow = first.elements.toList.map (·.2) := by
    simp [Stack.treesBelow, hbelow, Entry.trees]
  have htrees := s.trees_eq_treesBelow
  rcases Stack.root_cases s k.flat.start trailing with
      ⟨before, e, after, helements, hstart, -, hroot⟩ | ⟨hnone, hroot⟩
  · have htop : s.top.trees = before.map (·.2) ++ e.2 :: after.map (·.2) := by
      simp [Entry.trees, helements]
    have hmem : e.2 ∈ s.trees := by
      rw [htrees, htop]
      simp
    simp only [Stack.isStart, Bool.and_eq_true, beq_iff_eq, Bool.not_eq_true'] at hstart
    obtain ⟨⟨hnode, hkind⟩, hnoerror⟩ := hstart
    have hproper : k.language.isTrivia e.2 = false := by
      cases he : e.2 with
      | leaf leaf => simp [he, isNode] at hnode
      | node info children => rfl
    rw [hroot]
    refine .branchOf (fun t ht => ?_) fun hclean => ?_
    · simp only [List.map_append, map_bare_snd, labelledChildren_snd, List.mem_append] at ht
      rw [htrees, htop] at htidy
      rcases ht with ((ht | ht) | ht) | ht | ht
      · exact htidy t (List.mem_append_left _ ht)
      · exact htidy t (List.mem_append_right _ (List.mem_append_left _ ht))
      · exact (htidy e.2 (by simp)).children t ht
      · exact htidy t
          (List.mem_append_right _ (List.mem_append_right _ (List.mem_cons_of_mem _ ht)))
      · exact (htrailing t ht).1
    · simp only [List.map_append, map_bare_snd, labelledChildren_snd, List.mem_append] at hclean
      have hcleanNode : e.2.hasError = false :=
        hasError_eq_false (hs e.2 hmem) hnode hnoerror fun t ht => hclean t (.inl (.inr ht))
      have htopClean : Clean k.language s.top.trees := by
        intro t ht _
        rw [htop, List.mem_append, List.mem_cons] at ht
        rcases ht with ht | rfl | ht
        · exact hclean t (.inl (.inl (.inr ht)))
        · exact hcleanNode
        · exact hclean t (.inr (.inl ht))
      have hfirst := hnothing fun t ht _ => hclean t (.inl (.inl (.inl (htreesBelow ▸ ht))))
      obtain ⟨node, htopProper, -, -⟩ := start_node (hreads htopClean)
      rw [helements] at htopProper
      obtain ⟨hbefore, hafter⟩ := proper_around hproper htopProper
      have hleft : proper k.language ((s.treesBelow ++ before.map (·.2)).map bare) = [] := by
        apply proper_bare
        intro t ht
        rcases List.mem_append.1 ht with ht | ht
        · exact isTrivia_of_proper hfirst t (htreesBelow ▸ ht)
        · exact isTrivia_of_proper hbefore t ht
      have hright : proper k.language ((after.map (·.2) ++ trailing).map bare) = [] := by
        apply proper_bare
        intro t ht
        rcases List.mem_append.1 ht with ht | ht
        · exact isTrivia_of_proper hafter t ht
        · exact (htrailing t ht).2
      have hderived := (htidy e.2 hmem).derived hcleanNode
      cases he : e.2 with
      | leaf leaf => simp [he, isNode] at hnode
      | node info children =>
        rw [he] at hderived hkind
        cases hderived with
        | @node _ _ q p hp lhs spliced below =>
          refine ⟨q, p, hp, lhs.trans hkind, ?_⟩
          rw [proper_append, proper_append, hleft, hright, List.nil_append, List.append_nil]
          exact spliced
  · rw [hroot]
    refine .branchOf (fun t ht => ?_) fun hclean => ?_
    · rw [map_bare_snd] at ht
      rcases List.mem_append.1 ht with ht | ht
      · exact htidy t ht
      · exact (htrailing t ht).1
    · rw [map_bare_snd, htrees] at hclean
      have htop : ∀ t ∈ s.top.trees, t.hasError = false :=
        fun t ht => hclean t (List.mem_append_left _ (List.mem_append_right _ ht))
      obtain ⟨node, htopProper, hnode, hkind⟩ := start_node (hreads fun t ht _ => htop t ht)
      have hmem : ((none, node) : Element) ∈ s.top.elements.toList :=
        (List.mem_filter.1 (show _ ∈
          proper k.language s.top.elements.toList by rw [htopProper]; simp)).1
      have hin : node ∈ s.top.trees := List.mem_map_of_mem hmem
      have hnoerror :=
        isErrorNode_eq_false (hs node (by rw [htrees]; exact List.mem_append_right _ hin))
          (htop node hin)
      have hstart := hnone _ hmem
      simp [Stack.isStart, hnode, hkind, hnoerror] at hstart

end Parse
end Reparse

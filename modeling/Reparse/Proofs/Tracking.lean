import Reparse.Proofs.Determinism
import Reparse.Proofs.Grounding

/-! # Items that the stack keeps track of -/
namespace Reparse.Parse
open Data Grammar Table

/-- The item is in the state on top for a reason that the stack shows: items below it were predicted
from each other. The last list is what is left of the productions around the item. -/
inductive Tracks (k : Compilation) : Stack → List Kind → Item → List Kind → Prop
  | bottom {e : Entry} (state : e.state = 0) : Tracks k ⟨e, []⟩ [] ⟨0, 0⟩ []
  | predict {s : Stack} {xs around : List Kind} {i : Item} {step : Step} {rest : List Step}
      {q : Nat} (source : Tracks k s xs i around)
      (hs : k.flat.stepsFrom i.production i.dot = step :: rest)
      (nonterminal : k.flat.isTerminal step.symbol = false)
      (hq : q ∈ k.flat.productionsOf step.symbol) :
      Tracks k s xs ⟨q, 0⟩ (rest.map (·.symbol) ++ around)
  | advance {s : Stack} {xs around : List Kind} {i : Item} {step : Step} {rest : List Step}
      {e : Entry} {st : State} (source : Tracks k s xs i around)
      (hs : k.flat.stepsFrom i.production i.dot = step :: rest)
      (hst : k.states[s.top.state]? = some st) (edge : (step.symbol, e.state) ∈ st.transitions) :
      Tracks k (s.push e) (step.symbol :: xs) i.advance around

variable {k : Compilation} {s : Stack} {xs around w : List Kind} {i : Item} {st : State}

private theorem exact_first (k : Compilation) : First.Exact k.flat (First.compute k.flat) :=
  First.exact_compute k.wellFormed

theorem kernel_of_state {id : Nat} (hst : k.states[id]? = some st) :
    Kernel k.flat (First.compute k.flat) st.kernel :=
  kernel_automaton k.mode hst

private theorem completed_of_state {id : Nat} (hst : k.states[id]? = some st) :
    Items.Completed k.flat (First.compute k.flat)
    st.kernel (Items.closure k.flat (First.compute k.flat) st.kernel) :=
  Items.completed_closure k.wellFormed (exact_first k)
    ((kernel_of_state hst).proper k.wellFormed (exact_first k))

/-! ## Lookaheads -/

/-- What can follow: a terminal that the symbols begin with, or the end behind symbols that
vanish. -/
def Follows (f : First) (a : Nat) (ks : List Kind) : Prop :=
  f.Begins a ks ∨ f.Vanishes ks ∧ a = Kind.eof.id

private theorem mem_behind {f : First} {a : Nat} {rest : List Step} {ahead : BitSet}
    (hahead : ∀ b, Follows f b around → b ∈ ahead)
    (h : Follows f a (rest.map (·.symbol) ++ around)) : a ∈ Items.behind f rest ahead := by
  unfold Items.behind
  rcases h with h | ⟨hvanishes, rfl⟩
  · rcases h.append with h | ⟨hrest, h⟩
    · split
      · exact BitSet.subset_union_left _ _ a (First.mem_ofSteps h)
      · exact First.mem_ofSteps h
    · rw [if_pos (First.nullable_ofSteps hrest)]
      exact BitSet.subset_union_right _ _ a (hahead a (.inl h))
  · rw [if_pos (First.nullable_ofSteps fun x hx => hvanishes x (List.mem_append_left _ hx))]
    exact BitSet.subset_union_right _ _ _
      (hahead _ (.inr ⟨fun x hx => hvanishes x (List.mem_append_right _ hx), rfl⟩))

/-- The first state expects the end behind production 0. -/
private theorem eof_of_start {g : Flat} {f : First} {kernel : Items} (h : Kernel g f kernel)
    (hcores : kernel.cores = [⟨0, 0⟩]) :
    ∃ ahead, kernel = [(⟨0, 0⟩, ahead)] ∧ Kind.eof.id ∈ ahead := by
  induction h with
  | start => exact ⟨_, rfl, BitSet.mem_singleton.2 rfl⟩
  | @successor kernel next x h hnext ih =>
    have hmem : (⟨0, 0⟩ : Item) ∈ next.cores := by rw [hcores]; exact List.mem_cons_self
    obtain ⟨e, he, hitem⟩ := List.mem_map.1 hmem
    obtain ⟨j, s, rest, -, -, -, hadvance⟩ := Items.of_mem_successors hnext e he
    rw [hitem] at hadvance
    simp [Item.advance] at hadvance
  | @unite a b ha hb hsame iha ihb =>
    rw [Items.cores_unite hsame] at hcores
    obtain ⟨x, rfl, hx⟩ := iha hcores
    obtain ⟨y, rfl, -⟩ := ihb (hsame ▸ hcores)
    exact ⟨x.union y, rfl, BitSet.subset_union_left _ _ _ hx⟩

private theorem eq_of_edges {id : Nat} (hst : k.states[id]? = some st) {x : Kind} {a b : Nat}
    (ha : (x, a) ∈ st.transitions) (hb : (x, b) ∈ st.transitions) : a = b := by
  have hsorted := sorted_transitions k.wellFormed hst
  exact Option.some.inj ((lookupSorted_kind hsorted ha).symm.trans (lookupSorted_kind hsorted hb))

/-- A tracked item is in the state on top, with all lookaheads that can follow. -/
theorem Tracks.mem_closure (h : Tracks k s xs i around) :
    ∃ st ahead, k.states[s.top.state]? = some st ∧
    (i, ahead) ∈ Items.closure k.flat (First.compute k.flat) st.kernel ∧
      ∀ a, Follows (First.compute k.flat) a around → a ∈ ahead := by
  induction h with
  | @bottom e state =>
    obtain ⟨st, hst, hcores⟩ := k.sound_states.start
    change k.states[0]? = some st at hst
    obtain ⟨ahead, hkernel, heof⟩ := eof_of_start (kernel_of_state hst) hcores
    obtain ⟨ahead', hmem, hsub⟩ :=
      (completed_of_state hst).kernel ⟨0, 0⟩ ahead (by rw [hkernel]; exact List.mem_cons_self)
    refine ⟨st, ahead', by rw [← hst]; exact congrArg (k.states[·]?) state, hmem,
      fun a ha => hsub a ?_⟩
    rcases ha with ha | ⟨-, rfl⟩
    · cases ha
    · exact heof
  | @predict s xs around i step rest q source hs nonterminal hq ih =>
    obtain ⟨st, ahead, hst, hmem, hahead⟩ := ih
    obtain ⟨ahead', hmem', hsub⟩ :=
      (completed_of_state hst).predicted i ahead step rest hmem hs nonterminal q hq
    exact ⟨st, ahead', hst, hmem', fun a ha => hsub a (mem_behind hahead ha)⟩
  | @advance s xs around i step rest e st source hs hst edge ih =>
    obtain ⟨st₀, ahead, hst₀, hmem, hahead⟩ := ih
    obtain rfl := Option.some.inj (hst.symm.trans hst₀)
    obtain ⟨target, st', ahead', hedge, hst', hadvance, hsub⟩ :=
      exists_transition k.wellFormed hst hmem hs
    rw [← eq_of_edges hst edge hedge] at hst'
    change k.states[e.state]? = some st' at hst'
    obtain ⟨ahead'', hmem'', hsub'⟩ := (completed_of_state hst').kernel _ _ hadvance
    exact ⟨st', ahead'', hst', hmem'', fun a ha => hsub' a (hsub a (hahead a ha))⟩

/-! ## Sentential forms -/

private theorem rewrites_productionsOf {x : Kind} {q : Nat} (hq : q ∈ k.flat.productionsOf x) :
    Derives k.flat [x] ((k.flat.stepsFrom q 0).map (·.symbol)) := by
  obtain ⟨p, hp, rfl⟩ := (k.wellFormed.index x q).1 hq
  rw [Flat.stepsFrom_zero hp]
  exact derives_of_production hp

/-- The symbols on the stack with what is left of the productions around an item are a sentential
form. -/
theorem Tracks.derives (h : Tracks k s xs i around) : Derives k.flat [k.flat.start]
    (xs.reverse ++ ((k.flat.stepsFrom i.production i.dot).map (·.symbol) ++ around)) := by
  induction h with
  | bottom state =>
    obtain ⟨accept, hzero, -⟩ := k.wellFormed.accepting
    rw [Flat.stepsFrom_zero hzero]
    exact .refl
  | @predict s xs around i step rest q source hs nonterminal hq ih =>
    rw [hs] at ih
    have hcontext := (rewrites_productionsOf hq).context xs.reverse (rest.map (·.symbol) ++ around)
    simp only [List.map_cons, List.cons_append, List.append_assoc, List.nil_append] at ih hcontext ⊢
    exact ih.trans hcontext
  | @advance s xs around i step rest e st source hs hst edge ih =>
    rw [hs] at ih
    rw [Flat.stepsFrom_advance hs]
    simpa using ih

/-- Every item of the state on top is tracked. -/
theorem Grounded.tracks (h : Grounded k s xs) (hst : k.states[s.top.state]? = some st)
    (hi : Items.Closed k.flat st.kernel.cores i) : ∃ around, Tracks k s xs i around := by
  induction h generalizing i st with
  | @bottom e state nothing =>
    change k.states[e.state]? = some st at hst
    rw [state] at hst
    have hcores := Compilation.cores_start hst
    induction hi with
    | kernel hi =>
      rw [hcores, List.mem_singleton] at hi
      rw [hi]
      exact ⟨[], .bottom state⟩
    | predict source hs hn hq ih =>
      obtain ⟨around, htracks⟩ := ih
      exact ⟨_, htracks.predict hs hn hq⟩
  | @push s ys e x st₀ below source edge reads ih =>
    induction hi with
    | kernel hi =>
      obtain ⟨j, step, rest, hj, hs, rfl, rfl⟩ := Compilation.exists_of_edge source edge hst _ hi
      obtain ⟨around, htracks⟩ := ih source hj
      exact ⟨around, htracks.advance hs source edge⟩
    | predict source' hs hn hq ih' =>
      obtain ⟨around, htracks⟩ := ih'
      exact ⟨_, htracks.predict hs hn hq⟩

/-! ## What the next symbol asks for -/

/-- Something tracked shifts the next symbol, or is complete. -/
inductive Ready (k : Compilation) (s : Stack) (xs w : List Kind) : Prop
  | shift {i : Item} {step : Step} {rest : List Step} {around w' : List Kind}
      (tracks : Tracks k s xs i around) (hs : k.flat.stepsFrom i.production i.dot = step :: rest)
      (terminal : k.flat.isTerminal step.symbol = true) (hw : w = step.symbol :: w')
      (more : Yields k.flat (rest.map (·.symbol) ++ around) w')
  | complete {i : Item} {around : List Kind} (tracks : Tracks k s xs i around)
      (hs : k.flat.stepsFrom i.production i.dot = []) (more : Yields k.flat around w)

theorem Tracks.ready (h : Tracks k s xs i around)
    (hy : Yields k.flat ((k.flat.stepsFrom i.production i.dot).map (·.symbol) ++ around) w)
    (hhead : ∀ x, w.head? = some x → k.flat.isTerminal x = true) : Ready k s xs w := by
  generalize hsource : (k.flat.stepsFrom i.production i.dot).map (·.symbol) ++ around = source at hy
  induction hy generalizing i around with
  | nil =>
    rw [List.append_eq_nil_iff, List.map_eq_nil_iff] at hsource
    refine .complete h hsource.1 ?_
    rw [hsource.2]
    exact .nil
  | @keep x a w rest ih =>
    cases hs : k.flat.stepsFrom i.production i.dot with
    | nil =>
      rw [hs] at hsource
      refine .complete h hs ?_
      rw [show around = x :: a from hsource]
      exact .keep x rest
    | cons step steps =>
      rw [hs, List.map_cons, List.cons_append, List.cons.injEq] at hsource
      refine .shift h hs ?_ (congrArg (· :: w) hsource.1.symm) ?_
      · rw [hsource.1]
        exact hhead x rfl
      · rw [hsource.2]
        exact rest
  | @expand q p a w hp rest ih =>
    cases hs : k.flat.stepsFrom i.production i.dot with
    | nil =>
      rw [hs] at hsource
      refine .complete h hs ?_
      rw [show around = p.lhs :: a from hsource]
      exact .expand hp rest
    | cons step steps =>
      rw [hs, List.map_cons, List.cons_append, List.cons.injEq] at hsource
      have hnonterminal : k.flat.isTerminal step.symbol = false := by
        have hle := (k.wellFormed.lhs q p hp).1
        rw [hsource.1]
        simpa [Flat.isTerminal] using hle
      have hq : q ∈ k.flat.productionsOf step.symbol :=
        (k.wellFormed.index _ q).2 ⟨p, hp, hsource.1.symm⟩
      refine ih (h.predict hs hnonterminal hq) hhead ?_
      rw [Flat.stepsFrom_zero hp, hsource.2]

/-! ## Actions for tracked items -/

theorem Tracks.place (h : Tracks k s xs i around) :
    i.dot ≤ (k.flat.stepsFrom i.production 0).length := by
  obtain ⟨st, ahead, hst, hmem, -⟩ := h.mem_closure
  obtain ⟨p, hp, hle⟩ := (completed_of_state hst).proper.places _ hmem
  unfold Flat.stepsFrom
  rw [hp]
  exact hle

theorem Tracks.uncover {q d : Nat} (h : Tracks k s xs ⟨q, d⟩ around) :
    d ≤ s.below.length ∧ ∃ ys, Tracks k (s.uncovered d) ys ⟨q, 0⟩ around := by
  induction d generalizing s xs with
  | zero => exact ⟨Nat.zero_le _, xs, h⟩
  | succ d ih =>
    generalize hi : (⟨q, d + 1⟩ : Item) = i at h
    cases h with
    | bottom state => simp at hi
    | predict source hs nonterminal hq => simp at hi
    | @advance s xs _ i step rest e st source hs hst edge =>
      obtain ⟨q', d'⟩ := i
      simp only [Item.advance, Item.mk.injEq, Nat.add_right_cancel_iff] at hi
      obtain ⟨rfl, rfl⟩ := hi
      obtain ⟨hle, ys, hbelow⟩ := ih source
      refine ⟨Nat.succ_le_succ hle, ys, ?_⟩
      rw [Stack.uncovered_push]
      exact hbelow

/-- A production other than the first was predicted by something tracked. -/
theorem Tracks.source {q : Nat} (h : Tracks k s xs ⟨q, 0⟩ around) (hq : q ≠ 0) :
    ∃ i step rest around',
    Tracks k s xs i around' ∧ k.flat.stepsFrom i.production i.dot = step :: rest ∧
      k.flat.isTerminal step.symbol = false ∧ q ∈ k.flat.productionsOf step.symbol ∧
        around = rest.map (·.symbol) ++ around' := by
  generalize hi : (⟨q, 0⟩ : Item) = i at h
  cases h with
  | bottom state =>
    simp only [Item.mk.injEq, and_true] at hi
    exact absurd hi hq
  | @predict s xs around i step rest q' source hs nonterminal hmem =>
    simp only [Item.mk.injEq, and_true] at hi
    rw [hi]
    exact ⟨i, step, rest, around, source, hs, nonterminal, hmem, rfl⟩
  | @advance s xs around i step rest e st source hs hst edge => simp [Item.advance] at hi

/-- Nothing is around production 0. -/
theorem Tracks.around_zero {d : Nat} (h : Tracks k s xs ⟨0, d⟩ around) : around = [] := by
  obtain ⟨-, ys, hbelow⟩ := h.uncover
  generalize s.uncovered d = bottom at hbelow
  generalize hi : (⟨0, 0⟩ : Item) = i at hbelow
  cases hbelow with
  | bottom state => rfl
  | @predict _ xs around i step rest q source hs nonterminal hq =>
    simp only [Item.mk.injEq, and_true] at hi
    subst hi
    obtain ⟨accept, hzero, hunused⟩ := k.wellFormed.accepting
    obtain ⟨p, hp, hlhs⟩ := (k.wellFormed.index step.symbol 0).1 hq
    obtain ⟨p', hp', hmem⟩ :=
      Flat.mem_of_mem_stepsFrom (g := k.flat) (q := i.production) (d := i.dot) (s := step)
      (by rw [hs]; exact List.mem_cons_self)
    obtain rfl := Option.some.inj (hzero.symm.trans hp)
    exact absurd hlhs.symm ((hunused _ p' hp').2 step hmem)
  | advance source hs hst edge => simp [Item.advance] at hi

theorem Tracks.shift_action (hsingle : SingleCandidates k.flat k.mode) (h : Tracks k s xs i around)
    {step : Step} {rest : List Step} (hs : k.flat.stepsFrom i.production i.dot = step :: rest)
    (hterminal : k.flat.isTerminal step.symbol = true) :
    ∃ st target, k.states[s.top.state]? = some st ∧
      (step.symbol, target) ∈ st.transitions ∧ k.table.action? s.top.state step.symbol =
        some (.shift target) := by
  obtain ⟨st, ahead, hst, hmem, -⟩ := h.mem_closure
  obtain ⟨target, st', ahead', hedge, -⟩ := exists_transition k.wellFormed hst hmem hs
  exact ⟨st, target, hst, hedge,
    k.tableBuilt.shift_of_item k.wellFormed hsingle hst hmem hs hterminal hedge⟩

theorem Tracks.complete_action (hsingle : SingleCandidates k.flat k.mode)
    (h : Tracks k s xs i around) (hs : k.flat.stepsFrom i.production i.dot = []) {x : Kind}
    (hx : Follows (First.compute k.flat) x.id around) :
    k.table.action? s.top.state x = some (Conflict.reduceAction i.production) := by
  obtain ⟨st, ahead, hst, hmem, hahead⟩ := h.mem_closure
  exact k.tableBuilt.reduce_of_item hsingle hst hmem hs (hahead _ hx)

/-- What comes first, or the end. -/
def firstOf (w : List Kind) : Kind := w.head?.getD .eof

theorem follows_of_yields (hy : Yields k.flat around w)
    (hhead : ∀ x, w.head? = some x → k.flat.isTerminal x = true) :
    Follows (First.compute k.flat) (firstOf w).id around := by
  cases w with
  | nil => exact .inr ⟨(exact_first k).vanishes hy, rfl⟩
  | cons x w =>
    have hterminal := hhead x rfl
    have hsize : x.id < k.flat.symbols.size := by
      obtain ⟨hle, hstart⟩ := k.wellFormed.start
      cases hget : k.flat.symbols[k.flat.start.id]? with
      | none => simp [hget] at hstart
      | some info =>
        have hlt := (Array.getElem?_eq_some_iff.1 hget).1
        simp only [Flat.isTerminal, decide_eq_true_eq] at hterminal
        omega
    exact .inl ((exact_first k).begins hsize hterminal hy)

/-- Where something is ready there is an action. -/
theorem Ready.action (hsingle : SingleCandidates k.flat k.mode) (h : Ready k s xs w)
    (hhead : ∀ x, w.head? = some x → k.flat.isTerminal x = true) :
    ∃ action, k.table.action? s.top.state (firstOf w) = some action := by
  cases h with
  | shift tracks hs terminal hw more =>
    obtain ⟨st, target, -, -, haction⟩ := tracks.shift_action hsingle hs terminal
    rw [hw]
    exact ⟨_, haction⟩
  | complete tracks hs more =>
    exact ⟨_, tracks.complete_action hsingle hs (follows_of_yields more hhead)⟩

/-- A shift of the table is the one that is ready. -/
theorem Ready.of_shift (hsingle : SingleCandidates k.flat k.mode) (h : Ready k s xs w)
    (hhead : ∀ x, w.head? = some x → k.flat.isTerminal x = true) {target : Nat}
    (haction : k.table.action? s.top.state (firstOf w) = some (.shift target)) (e : Entry)
    (he : e.state = target) :
    ∃ i around w', w = firstOf w :: w' ∧ Tracks k (s.push e) (firstOf w :: xs) i around ∧
      Yields k.flat ((k.flat.stepsFrom i.production i.dot).map (·.symbol) ++ around) w' := by
  cases h with
  | @shift i step rest around w' tracks hs terminal hw more =>
    obtain ⟨st, target', hst, hedge, haction'⟩ := tracks.shift_action hsingle hs terminal
    subst hw
    obtain rfl := Action.shift.inj (Option.some.inj (haction'.symm.trans haction))
    rw [← he] at hedge
    refine ⟨i.advance, around, w', rfl, tracks.advance hs hst hedge, ?_⟩
    rw [Flat.stepsFrom_advance hs]
    exact more
  | complete tracks hs more =>
    rw [tracks.complete_action hsingle hs (follows_of_yields more hhead)] at haction
    have heq := Option.some.inj haction
    unfold Conflict.reduceAction at heq
    split at heq <;> contradiction

/-- A reduction of the table is the one that is ready. -/
theorem Ready.of_reduce (hsingle : SingleCandidates k.flat k.mode) (h : Ready k s xs w)
    (hhead : ∀ x, w.head? = some x → k.flat.isTerminal x = true) {q : Nat}
    (haction : k.table.action? s.top.state (firstOf w) = some (.reduce q)) {p : Production}
    (hp : k.flat.productions[q]? = some p) (e : Entry)
    (he : k.table.goto? (s.uncovered p.steps.length).top.state p.lhs = some e.state) :
    ∃ ys i around, Tracks k ((s.uncovered p.steps.length).push e) ys i around ∧
      Yields k.flat ((k.flat.stepsFrom i.production i.dot).map (·.symbol) ++ around) w := by
  cases h with
  | shift tracks hs terminal hw more =>
    obtain ⟨st, target', -, -, haction'⟩ := tracks.shift_action hsingle hs terminal
    subst hw
    have heq := haction'.symm.trans haction
    simp at heq
  | @complete i around tracks hs more =>
    rw [tracks.complete_action hsingle hs (follows_of_yields more hhead)] at haction
    obtain ⟨q', d⟩ := i
    have heq := Option.some.inj haction
    unfold Conflict.reduceAction at heq
    split at heq
    · contradiction
    · next hne =>
      obtain rfl : q' = q := Action.reduce.inj heq
      have hplace := tracks.place
      rw [Flat.stepsFrom_eq_drop, Flat.stepsFrom_zero hp, List.drop_eq_nil_iff] at hs
      simp only [Flat.stepsFrom_zero hp] at hplace
      obtain rfl : d = p.steps.length := Nat.le_antisymm hplace hs
      obtain ⟨-, ys, hbelow⟩ := tracks.uncover
      obtain ⟨j, step, rest, around', hsource, hstep, -, hq, rfl⟩ := hbelow.source hne
      obtain ⟨p', hp', hlhs⟩ := (k.wellFormed.index step.symbol q').1 hq
      obtain rfl := Option.some.inj (hp.symm.trans hp')
      obtain ⟨st, hst, hedge, -⟩ := k.tableBuilt.of_goto he
      rw [hlhs] at hedge
      refine ⟨_, j.advance, around', hsource.advance hstep hst hedge, ?_⟩
      rw [Flat.stepsFrom_advance hstep]
      exact more

end Reparse.Parse

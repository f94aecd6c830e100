import Reparse.Proofs.Kernels
import Reparse.Proofs.Search

/-! # The automaton is complete -/
namespace Reparse.Table
open Data Grammar Items

variable {g : Flat} {f : First} {mode : Mode}

namespace Construction

variable {c c' : Construction}

/-- A state is to be visited. -/
def Waits (c : Construction) (id : Nat) : Prop := c.waiting[id]? = some true

/-- How much is missing in a state. -/
def load (g : Flat) : Option State → Nat
  | some st => absent g st.kernel
  | none => 0

/-- How many visits are left: those in the queue, and those that more lookaheads and more states can
bring. -/
def left (g : Flat) (mode : Mode) (c : Construction) : Nat :=
  (c.queue.size - c.visited) + ∑ id ∈ Finset.range c.states.size, load g c.states[id]? +
    (2 ^ choices g mode - c.states.size) * ((placeList g).length * g.terminalCount + 1)

/-- States are known by their keys, and those that wait are in the queue. -/
structure Live (g : Flat) (f : First) (mode : Mode) (c : Construction) : Prop where
  sound : Sound g f mode c
  indexed : ∀ (id : Nat) st, c.states[id]? = some st → c.index[mode.key st.kernel]? = some id
  waiting : c.waiting.size = c.states.size
  visited : c.visited ≤ c.queue.size
  queued : ∀ id, c.Waits id → id ∈ c.queue.toList.drop c.visited

/-- What happens to states while targets are found. -/
structure Evolves (g : Flat) (mode : Mode) (c c' : Construction) : Prop where
  states : ∀ (id : Nat) st, c.states[id]? = some st → ∃ st', c'.states[id]? = some st' ∧
    Within st.kernel st'.kernel ∧ st'.transitions = st.transitions ∧
    (st'.kernel = st.kernel ∨ c'.Waits id)
  waits : ∀ id, c.Waits id → c'.Waits id
  fresh : ∀ (id : Nat) st, c.states[id]? = none → c'.states[id]? = some st →
    c'.Waits id ∧ st.transitions = #[]
  left : left g mode c' ≤ left g mode c

theorem Evolves.refl (c : Construction) : Evolves g mode c c where
  states := fun _ st h => ⟨st, h, .refl _, rfl, .inl rfl⟩
  waits := fun _ h => h
  fresh := by
    intro id st hnone hsome
    rw [hnone] at hsome
    contradiction
  left := Nat.le_refl _

private theorem Evolves.trans {c'' : Construction} (h : Evolves g mode c c')
    (h' : Evolves g mode c' c'') :
    Evolves g mode c c'' where
  states := by
    intro id st hst
    obtain ⟨st', hst', hwithin, htransitions, hkernel⟩ := h.states id st hst
    obtain ⟨st'', hst'', hwithin', htransitions', hkernel'⟩ := h'.states id st' hst'
    refine ⟨st'', hst'', hwithin.trans hwithin', htransitions'.trans htransitions, ?_⟩
    rcases hkernel with hkernel | hwaits
    · rcases hkernel' with hkernel' | hwaits
      · exact .inl (hkernel'.trans hkernel)
      · exact .inr hwaits
    · exact .inr (h'.waits id hwaits)
  waits := fun id hw => h'.waits id (h.waits id hw)
  fresh := by
    intro id st hnone hsome
    cases hst' : c'.states[id]? with
    | none => exact h'.fresh id st hst' hsome
    | some st' =>
      obtain ⟨hwaits, htransitions⟩ := h.fresh id st' hnone hst'
      obtain ⟨st'', hst'', -, htransitions', -⟩ := h'.states id st' hst'
      obtain rfl := Option.some.inj (hst''.symm.trans hsome)
      exact ⟨h'.waits id hwaits, htransitions'.trans htransitions⟩
  left := h'.left.trans h.left

private theorem Live.proper (hg : g.WellFormed) (hf : First.Exact g f) (h : Live g f mode c)
    {id : Nat} {st : State} (hst : c.states[id]? = some st) : Proper g st.kernel :=
  (h.sound.kernels id st hst).proper hg hf

/-- There are no more states than keys. -/
theorem Live.size_le (hg : g.WellFormed) (hf : First.Exact g f) (h : Live g f mode c) :
    c.states.size ≤ 2 ^ choices g mode := by
  have hlength : (c.states.toList.map fun st => mode.key st.kernel).length =
      c.states.size := by simp
  rw [← hlength]
  refine length_le_of_keys (g := g) ?_ fun key hkey => ?_
  · rw [List.nodup_iff_injective_get]
    intro i j hij
    have hget (i : Fin (c.states.toList.map fun st => mode.key st.kernel).length) :
        c.index[(c.states.toList.map fun st => mode.key st.kernel).get i]? = some i.1 := by
      have hi : i.1 < c.states.size := by simpa using i.2
      have hindexed := h.indexed i.1 c.states[i.1] (Array.getElem?_eq_getElem hi)
      simpa using hindexed
    have hsame := (hget i).symm.trans ((congrArg (c.index[·]?) hij).trans (hget j))
    exact Fin.ext (Option.some.inj hsame)
  · obtain ⟨st, hst, rfl⟩ := List.mem_map.1 hkey
    obtain ⟨id, hid⟩ := Array.getElem?_of_mem (Array.mem_toList_iff.1 hst)
    exact ⟨st.kernel, h.proper hg hf hid, rfl⟩

/-! ## The queue -/

private theorem waits_set {waiting : Array Bool} {id j : Nat}
    (h : (waiting.setIfInBounds id true)[j]? = some true) :
    j = id ∨ waiting[j]? = some true := by
  by_cases hj : id = j
  · exact .inl hj.symm
  · rw [Array.getElem?_setIfInBounds_ne hj] at h
    exact .inr h

private theorem waits_enqueue {id : Nat} (hid : id < c.waiting.size) : (c.enqueue id).Waits id := by
  unfold enqueue Waits
  split
  · next h =>
    rw [Array.getElem?_eq_getElem hid, Option.getD_some] at h
    rw [Array.getElem?_eq_getElem hid, h]
  · rw [Array.getElem?_setIfInBounds_self, if_pos hid]

private theorem Waits.enqueue {id j : Nat} (h : c.Waits j) : (c.enqueue id).Waits j := by
  by_cases hj : id = j
  · rw [hj]
    exact waits_enqueue (Array.getElem?_eq_some_iff.1 h).1
  · unfold Construction.enqueue
    split
    · exact h
    · unfold Waits
      rw [Array.getElem?_setIfInBounds_ne hj]
      exact h

private theorem visited_enqueue (c : Construction) (id : Nat) :
    (c.enqueue id).visited = c.visited := by
  unfold enqueue
  split <;> rfl

private theorem size_waiting_enqueue (c : Construction) (id : Nat) :
    (c.enqueue id).waiting.size = c.waiting.size := by
  unfold enqueue
  split
  · rfl
  · exact Array.size_setIfInBounds

private theorem size_queue_enqueue (c : Construction) (id : Nat) :
    c.queue.size ≤ (c.enqueue id).queue.size ∧ (c.enqueue id).queue.size ≤ c.queue.size + 1 := by
  unfold enqueue
  split
  · omega
  · rw [Array.size_push]
    omega

private theorem queued_enqueue (hvisited : c.visited ≤ c.queue.size)
    (h : ∀ id, c.Waits id → id ∈ c.queue.toList.drop c.visited) (id : Nat) :
    ∀ j, (c.enqueue id).Waits j → j ∈ (c.enqueue id).queue.toList.drop (c.enqueue id).visited := by
  intro j hj
  unfold enqueue at hj ⊢
  split at hj
  · next hwaits =>
    rw [if_pos hwaits]
    exact h j hj
  · next hwaits =>
    rw [if_neg hwaits]
    simp only [Array.toList_push]
    rw [List.drop_append_of_le_length (by simpa using hvisited)]
    rcases waits_set hj with rfl | hj
    · exact List.mem_append_right _ List.mem_cons_self
    · exact List.mem_append_left _ (h j hj)

/-! ## Targets -/

/-- Changes of a state that keep its transitions. -/
theorem getElem?_modify_cases {states : Array State} {id j : Nat} {change : State → State}
    {st : State} (h : (states.modify id change)[j]? = some st) :
    (j ≠ id ∧ states[j]? = some st) ∨ j = id ∧ ∃ old, states[id]? = some old ∧ st = change old := by
  rw [Array.getElem?_modify] at h
  split at h
  · next hid =>
    obtain ⟨old, hold, rfl⟩ := Option.map_eq_some_iff.1 h
    exact .inr ⟨hid.symm, old, hid ▸ hold, rfl⟩
  · next hid => exact .inl ⟨Ne.symm hid, h⟩

private theorem live_grow (hg : g.WellFormed) (hf : First.Exact g f) (h : Live g f .lalr c)
    {kernel : Items} (hkernel : Kernel g f kernel) {id : Nat} {st : State}
    (hst : c.states[id]? = some st) (hcores : st.kernel.cores = kernel.cores) :
    Live g f .lalr (c.grow id kernel) ∧
      Evolves g .lalr c (c.grow id kernel) ∧ ∃ st', (c.grow id kernel).states[id]? = some st' ∧
        Within kernel st'.kernel := by
  have hold : (c.states[id]?.map (·.kernel)).getD [] = st.kernel := by rw [hst]; rfl
  have hsound := (h.sound.grow hkernel ⟨st, hst, hcores⟩).1
  have hright := within_unite_right hcores
  have hleft := within_unite_left hcores
  have hlt : id < c.states.size := (Array.getElem?_eq_some_iff.1 hst).1
  unfold Construction.grow at hsound ⊢
  simp only [hold] at hsound ⊢
  split at hsound
  · next hsame =>
    rw [if_pos hsame]
    rw [hsame] at hright
    exact ⟨h, .refl c, st, hst, hright⟩
  · next hne =>
    rw [if_neg hne]
    let grown : Construction :=
      { c with states := c.states.modify id fun s => { s with kernel := st.kernel.unite kernel } }
    have hself : grown.states[id]? = some { st with kernel := st.kernel.unite kernel } := by
      simp only [grown, Array.getElem?_modify, if_pos, hst, Option.map_some]
    have hother {j : Nat} (hj : j ≠ id) : grown.states[j]? = c.states[j]? := by
      simp only [grown, Array.getElem?_modify]
      rw [if_neg (Ne.symm hj)]
    have hsize : grown.states.size = c.states.size := Array.size_modify ..
    have hwaits : (grown.enqueue id).Waits id :=
      waits_enqueue (by rw [show grown.waiting = c.waiting from rfl, h.waiting]; exact hlt)
    have hload : ∑ j ∈ Finset.range c.states.size, load g grown.states[j]? <
        ∑ j ∈ Finset.range c.states.size, load g c.states[j]? := by
      have hfall : load g grown.states[id]? < load g c.states[id]? := by
        rw [hself, hst]
        refine Within.absent_lt hleft (fun e he => ?_) (Ne.symm hne)
        exact ((Kernel.unite (h.sound.kernels id st hst) hkernel hcores).proper hg hf).below e he
      refine Finset.sum_lt_sum (fun j _ => ?_) ⟨id, Finset.mem_range.2 hlt, hfall⟩
      by_cases hj : j = id
      · rw [hj]
        exact Nat.le_of_lt hfall
      · rw [hother hj]
    refine ⟨⟨hsound, ?_, ?_, ?_, ?_⟩, ⟨?_, ?_, ?_, ?_⟩, ?_⟩
    · intro j st' hst'
      rw [states_enqueue] at hst'
      rw [index_enqueue]
      rcases getElem?_modify_cases hst' with ⟨-, hst'⟩ | ⟨rfl, old, hold', rfl⟩
      · exact h.indexed j st' hst'
      · have hindexed := h.indexed j st hst
        rwa [Mode.key_eq_of_cores (cores_unite hcores).symm] at hindexed
    · rw [size_waiting_enqueue, states_enqueue, Array.size_modify]
      exact h.waiting
    · rw [visited_enqueue]
      exact Nat.le_trans h.visited (size_queue_enqueue grown id).1
    · exact queued_enqueue (c := grown) h.visited h.queued id
    · intro j st' hst'
      rw [states_enqueue]
      by_cases hj : j = id
      · subst hj
        obtain rfl := Option.some.inj (hst.symm.trans hst')
        exact ⟨_, hself, hleft, rfl, .inr hwaits⟩
      · exact ⟨st', (hother hj).trans hst', .refl _, rfl, .inl rfl⟩
    · exact fun j hj => Waits.enqueue (c := grown) hj
    · intro j st' hnone hsome
      rw [states_enqueue] at hsome
      by_cases hj : j = id
      · subst hj
        rw [hst] at hnone
        contradiction
      · rw [show (c.states.modify id _)[j]? = c.states[j]? from hother hj, hnone] at hsome
        contradiction
    · have hqueue := size_queue_enqueue grown id
      have hq : grown.queue.size = c.queue.size := rfl
      change left g .lalr (grown.enqueue id) ≤ _
      simp only [left, states_enqueue, visited_enqueue, hsize]
      change _ - c.visited + _ + _ ≤ _
      omega
    · rw [states_enqueue]
      exact ⟨_, hself, hright⟩

private theorem live_addState (hg : g.WellFormed) (hf : First.Exact g f) (h : Live g f mode c)
    {kernel : Items} (hkernel : Kernel g f kernel) (hnew : c.index[mode.key kernel]? = none) :
    Live g f mode (c.addState (mode.key kernel) kernel) ∧
      Evolves g mode c (c.addState (mode.key kernel) kernel) := by
  have hsound := (h.sound.addState hkernel).1
  have hget (id : Nat) (st : State)
      (hst : (c.addState (mode.key kernel) kernel).states[id]? = some st) :
      c.states[id]? = some st ∨ id = c.states.size ∧ st = { kernel } := by
    simp only [Construction.addState, Array.getElem?_push] at hst
    split at hst
    · next hid => exact .inr ⟨hid, (Option.some.inj hst).symm⟩
    · exact .inl hst
  have hkeep {id : Nat} (hid : id < c.states.size) :
      (c.addState (mode.key kernel) kernel).states[id]? = c.states[id]? := by
    simp only [Construction.addState, Array.getElem?_push]
    rw [if_neg (Nat.ne_of_lt hid)]
  have hself : (c.addState (mode.key kernel) kernel).states[c.states.size]? = some { kernel } :=
    Array.getElem?_push_size
  have hwaits : (c.addState (mode.key kernel) kernel).Waits c.states.size := by
    simp only [Waits, Construction.addState]
    rw [← h.waiting]
    exact Array.getElem?_push_size
  have hlive : Live g f mode (c.addState (mode.key kernel) kernel) := by
    refine ⟨hsound, ?_, ?_, ?_, ?_⟩
    · intro id st hst
      simp only [Construction.addState, Std.HashMap.getElem?_insert]
      rcases hget id st hst with hst | ⟨rfl, rfl⟩
      · have hindexed := h.indexed id st hst
        split
        · next heq =>
          rw [← eq_of_beq heq, hnew] at hindexed
          contradiction
        · exact hindexed
      · simp
    · simp only [Construction.addState, Array.size_push, h.waiting]
    · simp only [Construction.addState, Array.size_push]
      exact Nat.le_succ_of_le h.visited
    · intro id hid
      simp only [Construction.addState, Array.toList_push]
      rw [List.drop_append_of_le_length (by simpa using h.visited)]
      simp only [Waits, Construction.addState, Array.getElem?_push, h.waiting] at hid
      split at hid
      · next heq =>
        rw [heq]
        exact List.mem_append_right _ List.mem_cons_self
      · exact List.mem_append_left _ (h.queued id hid)
  refine ⟨hlive, ?_, ?_, ?_, ?_⟩
  · intro id st hst
    have hid := (Array.getElem?_eq_some_iff.1 hst).1
    exact ⟨st, (hkeep hid).trans hst, .refl _, rfl, .inl rfl⟩
  · intro id hid
    have hlt := (Array.getElem?_eq_some_iff.1 hid).1
    simp only [Waits, Construction.addState, Array.getElem?_push]
    rw [if_neg (Nat.ne_of_lt hlt)]
    exact hid
  · intro id st hnone hsome
    rcases hget id st hsome with hst | ⟨rfl, rfl⟩
    · rw [hnone] at hst
      contradiction
    · exact ⟨hwaits, rfl⟩
  · have hsize := hlive.size_le hg hf
    have hstates : (c.addState (mode.key kernel) kernel).states.size = c.states.size + 1 :=
      Array.size_push _
    have hqueue : (c.addState (mode.key kernel) kernel).queue.size = c.queue.size + 1 :=
      Array.size_push _
    have hvisited : (c.addState (mode.key kernel) kernel).visited = c.visited := rfl
    have hload : ∑ id ∈ Finset.range (c.states.size + 1),
        load g (c.addState (mode.key kernel) kernel).states[id]? =
          ∑ id ∈ Finset.range c.states.size, load g c.states[id]? + absent g kernel := by
      rw [Finset.sum_range_succ, hself]
      congr 1
      exact Finset.sum_congr rfl fun id hid => by rw [hkeep (Finset.mem_range.1 hid)]
    have habsent := absent_le (hkernel.proper hg hf)
    rw [hstates] at hsize
    obtain ⟨rest, hrest⟩ := Nat.exists_eq_add_of_le hsize
    have hbefore : 2 ^ choices g mode - c.states.size = rest + 1 := by omega
    have hafter : 2 ^ choices g mode - (c.states.size + 1) = rest := by omega
    unfold left
    rw [hstates, hqueue, hvisited, hload, hbefore, hafter, Nat.add_mul, Nat.one_mul]
    omega

private theorem live_target (hg : g.WellFormed) (hf : First.Exact g f) (h : Live g f mode c)
    {kernel : Items} (hkernel : Kernel g f kernel) :
    Live g f mode (c.target mode kernel).2 ∧ Evolves g mode c (c.target mode kernel).2 ∧
      ∃ st, (c.target mode kernel).2.states[(c.target mode kernel).1]? = some st ∧
        Within kernel st.kernel := by
  unfold Construction.target
  simp only
  cases hindex : c.index[mode.key kernel]? with
  | none =>
    obtain ⟨hlive, hevolves⟩ := live_addState hg hf h hkernel hindex
    exact ⟨hlive, hevolves, { kernel }, Array.getElem?_push_size, .refl _⟩
  | some id =>
    obtain ⟨st, hst, hkey⟩ := h.sound.index _ id hindex
    simp only
    cases mode with
    | lalr => exact live_grow hg hf h hkernel hst (Mode.cores_eq_of_key hkey)
    | canonical =>
      obtain rfl : st.kernel = kernel := hkey
      exact ⟨h, .refl c, st, hst, .refl _⟩

/-! ## Visits -/

/-- A transition leads to a state that has at least the items that it should have. -/
def Reaches (c : Construction) (e : Kind × Nat) (next : Items) : Prop :=
  ∃ st, c.states[e.2]? = some st ∧ Within next st.kernel

private theorem Reaches.evolves {e : Kind × Nat} {next : Items} (h : Reaches c e next)
    (hc : Evolves g mode c c') :
    Reaches c' e next := by
  obtain ⟨st, hst, hwithin⟩ := h
  obtain ⟨st', hst', hwithin', -⟩ := hc.states e.2 st hst
  exact ⟨st', hst', hwithin.trans hwithin'⟩

/-- A row has one transition for each successor. -/
def Matches (c : Construction) (succ : List (Kind × Items)) (row : List (Kind × Nat)) : Prop :=
  List.Forall₂ (fun s e => e.1 = s.1 ∧ Reaches c e s.2) succ row

private theorem Matches.evolves {succ : List (Kind × Items)} {row : List (Kind × Nat)}
    (h : Matches c succ row) (hc : Evolves g mode c c') : Matches c' succ row :=
  h.imp fun _ _ hs => ⟨hs.1, hs.2.evolves hc⟩

private theorem live_follow (hg : g.WellFormed) (hf : First.Exact g f) (h : Live g f mode c)
    {before : Items} (hbefore : Kernel g f before) {done succ : List (Kind × Items)}
    (hsucc : succ ⊆ Items.successors g (Items.closure g f before)) {row : Array (Kind × Nat)}
    (hrow : Matches c done row.toList) :
    Live g f mode (follow mode succ (row, c)).2 ∧ Evolves g mode c (follow mode succ (row, c)).2 ∧
      Matches (follow mode succ (row, c)).2
        (done ++ succ) (follow mode succ (row, c)).1.toList := by
  induction succ generalizing row c done with
  | nil =>
    rw [List.append_nil]
    exact ⟨h, .refl c, hrow⟩
  | cons s rest ih =>
    obtain ⟨hlive, hevolves, hreaches⟩ :=
      live_target hg hf h (.successor hbefore (hsucc List.mem_cons_self))
    have hpush : Matches (c.target mode s.2).2
        (done ++ [s]) (row.push (s.1, (c.target mode s.2).1)).toList := by
      rw [Array.toList_push]
      exact List.rel_append (hrow.evolves hevolves) (.cons ⟨rfl, hreaches⟩ .nil)
    obtain ⟨hlive', hevolves', hmatches⟩ :=
      ih hlive (fun x hx => hsucc (List.mem_cons_of_mem _ hx)) hpush
    rw [List.append_assoc] at hmatches
    exact ⟨hlive', hevolves.trans hevolves', hmatches⟩

/-- The transitions of a state are what its items ask for. -/
def Settled (g : Flat) (f : First) (c : Construction) (st : State) : Prop :=
  Matches c (Items.successors g (Items.closure g f st.kernel)) st.transitions.toList

/-- Every state waits or is settled. -/
structure Explored (g : Flat) (f : First) (mode : Mode) (c : Construction) : Prop where
  live : Live g f mode c
  settled : ∀ (id : Nat) st, c.states[id]? = some st → c.Waits id ∨ Settled g f c st

private theorem live_leave (h : Live g f mode c) {id : Nat} (hid : c.queue[c.visited]? = some id) :
    Live g f mode (c.leave id) ∧ left g mode (c.leave id) < left g mode c ∧
      ∀ j, (c.leave id).Waits j → j ≠ id ∧ c.Waits j := by
  have hlt := (Array.getElem?_eq_some_iff.1 hid).1
  have hwaits : ∀ j, (c.leave id).Waits j → j ≠ id ∧ c.Waits j := by
    intro j hj
    simp only [Waits, leave] at hj
    by_cases heq : id = j
    · subst heq
      rw [Array.getElem?_setIfInBounds_self] at hj
      split at hj
      · simp at hj
      · contradiction
    · rw [Array.getElem?_setIfInBounds_ne heq] at hj
      exact ⟨Ne.symm heq, hj⟩
  have hsound : Sound g f mode (c.leave id) :=
    (h.sound.congr (show (c.leave id).states = c.states from rfl) rfl).1
  refine ⟨⟨hsound, h.indexed, ?_, hlt, ?_⟩, ?_, hwaits⟩
  · simp only [leave, Array.size_setIfInBounds]
    exact h.waiting
  · intro j hj
    obtain ⟨hne, hj⟩ := hwaits j hj
    have hqueued := h.queued j hj
    rw [List.drop_eq_getElem_cons (by simpa using hlt)] at hqueued
    rcases List.mem_cons.1 hqueued with hfirst | hrest
    · have hhead : c.queue[c.visited] = id := (Array.getElem?_eq_some_iff.1 hid).2
      rw [Array.getElem_toList, hhead] at hfirst
      exact absurd hfirst hne
    · exact hrest
  · simp only [left, leave]
    omega

private theorem waits_leave {id j : Nat} (h : c.Waits j) (hj : j ≠ id) : (c.leave id).Waits j := by
  simp only [Waits, leave]
  rw [Array.getElem?_setIfInBounds_ne (Ne.symm hj)]
  exact h

/-- The construction when a visited state gets its transitions. -/
def settle (c : Construction) (id : Nat) (row : Array (Kind × Nat)) : Construction :=
  { c with states := c.states.modify id fun s => { s with transitions := row } }

theorem kernel_settle {id j : Nat} {row : Array (Kind × Nat)} {st : State}
    (hst : (c.settle id row).states[j]? = some st) :
    ∃ old, c.states[j]? = some old ∧ st.kernel = old.kernel ∧
      st.transitions = if j = id then row else old.transitions := by
  rcases getElem?_modify_cases hst with ⟨hne, hst⟩ | ⟨rfl, old, hold, rfl⟩
  · exact ⟨st, hst, rfl, by rw [if_neg hne]⟩
  · exact ⟨old, hold, rfl, by rw [if_pos rfl]⟩

private theorem Reaches.settle {e : Kind × Nat} {next : Items} (h : Reaches c e next) (id : Nat)
    (row : Array (Kind × Nat)) :
    Reaches (c.settle id row) e next := by
  obtain ⟨st, hst, hwithin⟩ := h
  by_cases he : id = e.2
  · refine ⟨{ st with transitions := row }, ?_, hwithin⟩
    simp only [Construction.settle, Array.getElem?_modify, if_pos he, hst, Option.map_some]
  · refine ⟨st, ?_, hwithin⟩
    simp only [Construction.settle, Array.getElem?_modify, if_neg he, hst]

private theorem Matches.settle {succ : List (Kind × Items)} {row : List (Kind × Nat)}
    (h : Matches c succ row) (id : Nat) (new : Array (Kind × Nat)) :
    Matches (c.settle id new) succ row :=
  h.imp fun _ _ hs => ⟨hs.1, hs.2.settle id new⟩

private theorem live_settle (h : Live g f mode c) {id : Nat} {row : Array (Kind × Nat)}
    (hsound : Sound g f mode (c.settle id row)) :
    Live g f mode (c.settle id row) ∧ left g mode (c.settle id row) = left g mode c := by
  have hsize : (c.settle id row).states.size = c.states.size := Array.size_modify ..
  refine ⟨⟨hsound, fun j st hst => ?_, h.waiting.trans hsize.symm, h.visited, h.queued⟩, ?_⟩
  · obtain ⟨old, hold, hkernel, -⟩ := kernel_settle hst
    rw [hkernel]
    exact h.indexed j old hold
  · have hload (j : Nat) : load g (c.settle id row).states[j]? = load g c.states[j]? := by
      simp only [settle, Array.getElem?_modify]
      split
      · cases c.states[j]? with
        | none => rfl
        | some st => rfl
      · rfl
    simp only [left, hsize, hload]
    rfl

private theorem Explored.visit (hg : g.WellFormed) (hf : First.Exact g f) (h : Explored g f mode c)
    {id : Nat} (hid : c.queue[c.visited]? = some id) :
    Explored g f mode (c.visit g f mode id) ∧
      left g mode (c.visit g f mode id) < left g mode c := by
  obtain ⟨hleave, hless, hwaits⟩ := live_leave h.live hid
  cases hst : c.states[id]? with
  | none =>
    rw [visit_of_none g f mode hst]
    refine ⟨⟨hleave, fun j st hj => ?_⟩, hless⟩
    have hne : j ≠ id := by
      rintro rfl
      rw [show c.states[j]? = some st from hj] at hst
      contradiction
    rcases h.settled j st hj with hwait | hsettled
    · exact .inl (waits_leave hwait hne)
    · exact .inr hsettled
  | some st =>
    have hsound := (h.live.sound.visit id).1
    rw [visit_eq, hst] at hsound ⊢
    simp only [Option.map_some, Option.getD_some] at hsound ⊢
    obtain ⟨hlive, hevolves, hmatches⟩ := live_follow hg hf hleave (h.live.sound.kernels id st hst)
      (List.Subset.refl (Items.successors g (Items.closure g f st.kernel)))
      (show Matches (c.leave id) [] #[].toList from .nil)
    generalize follow mode (Items.successors g (Items.closure g f st.kernel)) (#[], c.leave id) = r
      at hsound hlive hevolves hmatches ⊢
    change Explored g f mode (r.2.settle id r.1) ∧ left g mode (r.2.settle id r.1) < _
    obtain ⟨hlive', hleft⟩ := live_settle hlive hsound
    refine ⟨⟨hlive', fun j st' hst' => ?_⟩, ?_⟩
    · obtain ⟨old, hold, hkernel, htransitions⟩ := kernel_settle hst'
      have hwait (hw : r.2.Waits j) : (r.2.settle id r.1).Waits j := hw
      by_cases hj : j = id
      · subst hj
        obtain ⟨old', hold', -, -, hsame⟩ := hevolves.states j st hst
        obtain rfl := Option.some.inj (hold.symm.trans hold')
        rcases hsame with hsame | hw
        · right
          rw [if_pos rfl] at htransitions
          unfold Settled
          rw [hkernel, hsame, htransitions]
          exact hmatches.settle j r.1
        · exact .inl (hwait hw)
      · rw [if_neg hj] at htransitions
        cases hbefore : c.states[j]? with
        | none => exact .inl (hwait (hevolves.fresh j old hbefore hold).1)
        | some first =>
          obtain ⟨old', hold', -, hsameRow, hsame⟩ := hevolves.states j first hbefore
          obtain rfl := Option.some.inj (hold.symm.trans hold')
          rcases hsame with hsame | hw
          · rcases h.settled j first hbefore with hw | hsettled
            · exact .inl (hwait (hevolves.waits j (waits_leave hw hj)))
            · right
              have hkept : Matches (c.leave id)
                  (Items.successors g (Items.closure g f first.kernel)) first.transitions.toList :=
                hsettled
              unfold Settled
              rw [hkernel, hsame, htransitions, hsameRow]
              exact (hkept.evolves hevolves).settle id r.1
          · exact .inl (hwait hw)
    · rw [hleft]
      exact Nat.lt_of_le_of_lt hevolves.left hless

theorem explored_start (hg : g.WellFormed) (hf : First.Exact g f) (mode : Mode) :
    Explored g f mode (start mode) ∧ left g mode (start mode) < visitBound g mode := by
  have hsound := sound_start g f mode
  have hstate (id : Nat) (st : State) (h : (start mode).states[id]? = some st) :
      id = 0 ∧ st = { kernel := [(⟨0, 0⟩, .singleton Kind.eof.id)] } := by
    cases id with
    | zero => exact ⟨rfl, (Option.some.inj h).symm⟩
    | succ id => simp [start] at h
  have hlive : Live g f mode (start mode) := by
    refine ⟨hsound, fun id st hst => ?_, rfl, Nat.zero_le _, fun id hid => ?_⟩
    · obtain ⟨rfl, rfl⟩ := hstate id st hst
      simp [start]
    · have hzero : id = 0 := by
        cases id with
        | zero => rfl
        | succ id => simp [Waits, start] at hid
      simp [start, hzero]
  refine ⟨⟨hlive, fun id st hst => .inl ?_⟩, ?_⟩
  · obtain ⟨rfl, -⟩ := hstate id st hst
    rfl
  · have habsent := absent_le ((Kernel.start (g := g) (f := f)).proper hg hf)
    have hpos : 0 < 2 ^ choices g mode := Nat.two_pow_pos _
    obtain ⟨rest, hrest⟩ := Nat.exists_eq_add_of_lt hpos
    have hload : ∑ id ∈ Finset.range (start mode).states.size, load g (start mode).states[id]? =
        absent g [(⟨0, 0⟩, .singleton Kind.eof.id)] := by
      rw [show (start mode).states.size = 1 from rfl, Finset.sum_range_one]
      rfl
    have hqueue : (start mode).queue.size - (start mode).visited = 1 := rfl
    unfold left
    rw [visitBound_eq, hload, hqueue, show (start mode).states.size = 1 from rfl,
      show 2 ^ choices g mode - 1 = rest by
        omega, show 2 ^ choices g mode = rest + 1 by omega, Nat.add_mul, Nat.one_mul]
    omega

/-- A construction with enough fuel leaves no state waiting. -/
theorem settled_run (hg : g.WellFormed) (hf : First.Exact g f) {fuel : Nat}
    (h : Explored g f mode c) (hfuel : left g mode c < fuel) : Live g f mode (run g f mode fuel c) ∧
      ∀ (id : Nat) st, (run g f mode fuel c).states[id]? = some st →
        Settled g f (run g f mode fuel c) st := by
  induction fuel generalizing c with
  | zero => omega
  | succ fuel ih =>
    unfold run
    split
    · next hdone =>
      refine ⟨h.live, fun id st hst => (h.settled id st hst).resolve_left fun hw => ?_⟩
      have hqueued := h.live.queued id hw
      rw [List.drop_eq_nil_of_le (by simpa using hdone)] at hqueued
      contradiction
    · next id hid =>
      obtain ⟨hvisit, hless⟩ := h.visit hg hf hid
      exact ih hvisit (by omega)

end Construction

/-- Every state of the automaton has the transitions that its items ask for. -/
theorem settled_automaton (hg : g.WellFormed) (mode : Mode) {id : Nat} {st : State}
    (hst : (automaton g (First.compute g) mode)[id]? = some st) :
    List.Forall₂ (fun s e => e.1 = s.1 ∧
      ∃ st', (automaton g (First.compute g) mode)[e.2]? = some st' ∧
        Within s.2 st'.kernel) (Items.successors g (Items.closure g (First.compute g) st.kernel))
          st.transitions.toList := by
  obtain ⟨hexplored, hleft⟩ := Construction.explored_start hg (First.exact_compute hg) mode
  exact (Construction.settled_run hg (First.exact_compute hg) hexplored hleft).2 id st hst

theorem kernel_automaton (mode : Mode) {id : Nat} {st : State}
    (hst : (automaton g (First.compute g) mode)[id]? = some st) :
    Kernel g (First.compute g) st.kernel :=
  (Construction.sound_automaton g (First.compute g) mode).kernels id st hst

end Reparse.Table

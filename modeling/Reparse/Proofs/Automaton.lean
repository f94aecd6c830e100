import Reparse.Proofs.Items
import Reparse.Table.Automaton

/-! # States of the automaton, and what their transitions mean -/
namespace Reparse.Table
open Data Grammar

/-- The item sets that states can have as kernels. -/
inductive Kernel (g : Flat) (f : First) : Items → Prop
  | start : Kernel g f [(⟨0, 0⟩, .singleton Kind.eof.id)]
  | successor {kernel next : Items} {k : Kind} (h : Kernel g f kernel)
      (hnext : (k, next) ∈ Items.successors g (Items.closure g f kernel)) : Kernel g f next
  | unite {a b : Items} (ha : Kernel g f a) (hb : Kernel g f b) (hcores : a.cores = b.cores) :
      Kernel g f (a.unite b)

/-- Following `k` from a state with one kernel leads to a state with another. Lookaheads may have
grown since. -/
def Leads (g : Flat) (f : First) (kernel : Items) (k : Kind) (target : Items) : Prop :=
  ∃ before after, before.cores = kernel.cores ∧
    (k, after) ∈ Items.successors g (Items.closure g f before) ∧
    after.cores = target.cores

private theorem Leads.congr {g : Flat} {f : First} {kernel target kernel' target' : Items}
    {k : Kind} (h : Leads g f kernel k target) (hk : kernel.cores = kernel'.cores)
    (ht : target.cores = target'.cores) :
    Leads g f kernel' k target' := by
  obtain ⟨before, after, hbefore, hmem, hafter⟩ := h
  exact ⟨before, after, hbefore.trans hk, hmem, hafter.trans ht⟩

theorem Items.cores_unite {a b : Items} (h : a.cores = b.cores) : (a.unite b).cores = a.cores := by
  have hlength : a.length = b.length := by
    have := congrArg List.length h
    simpa [cores] using this
  calc (a.unite b).cores = (List.zip a b).map fun p => p.1.1 := by
        simp only [cores, unite, List.zip, List.map_zipWith]
    _ = ((List.zip a b).map (·.1)).map (·.1) := by rw [List.map_map]; rfl
    _ = a.cores := by rw [List.map_fst_zip (Nat.le_of_eq hlength), cores]

/-- Item by item, the lookaheads of both sets. -/
private theorem Items.getElem?_unite (a b : Items) (n : Nat) : (a.unite b)[n]? =
    a[n]?.bind fun x => b[n]?.map fun y => (x.1, x.2.union y.2) := by
  rw [unite, List.getElem?_zipWith]
  cases a[n]? with
  | none => rfl
  | some x =>
    cases b[n]? with
    | none => rfl
    | some y => rfl

theorem Items.exists_of_mem_unite {a b : Items} (h : a.cores = b.cores) {entry : Item × BitSet}
    (he : entry ∈ a.unite b) :
    ∃ s t, (entry.1, s) ∈ a ∧ (entry.1, t) ∈ b ∧ entry.2 = s.union t := by
  obtain ⟨n, hn⟩ := List.getElem?_of_mem he
  rw [getElem?_unite] at hn
  obtain ⟨x, hx, hn⟩ := Option.bind_eq_some_iff.1 hn
  obtain ⟨y, hy, rfl⟩ := Option.map_eq_some_iff.1 hn
  have hcore : x.1 = y.1 := by
    have hn' := congrArg (·[n]?) h
    simpa [cores, hx, hy] using hn'
  refine ⟨x.2, y.2, List.mem_of_getElem? hx, ?_, rfl⟩
  change (x.1, y.2) ∈ b
  rw [hcore]
  exact List.mem_of_getElem? hy

theorem Mode.cores_eq_of_key {mode : Mode} {a b : Items} (h : mode.key a = mode.key b) :
    a.cores = b.cores := by
  cases mode with
  | lalr =>
    have := congrArg (List.map (·.1)) h
    simpa [Mode.key, Items.cores, Function.comp_def] using this
  | canonical => exact congrArg Items.cores h

theorem Mode.key_eq_of_cores {a b : Items} (h : a.cores = b.cores) :
    Mode.lalr.key a = Mode.lalr.key b := by
  have := congrArg (List.map fun i => (i, BitSet.empty)) h
  simpa [Mode.key, Items.cores, Function.comp_def] using this

namespace Construction

variable {g : Flat} {f : First} {mode : Mode} {c c' : Construction}

/-- The states are still there, with the same items and transitions. -/
def Grows (c c' : Construction) : Prop := ∀ (id : Nat) st, c.states[id]? = some st →
  ∃ st', c'.states[id]? = some st' ∧ st'.kernel.cores = st.kernel.cores

theorem Grows.refl (c : Construction) : Grows c c := fun _ st h => ⟨st, h, rfl⟩

theorem Grows.trans {c'' : Construction} (h : Grows c c') (h' : Grows c' c'') : Grows c c'' := by
  intro id st hst
  obtain ⟨st', hst', hcores⟩ := h id st hst
  obtain ⟨st'', hst'', hcores'⟩ := h' id st' hst'
  exact ⟨st'', hst'', hcores'.trans hcores⟩

/-- A transition leads to a state of the construction. -/
def Edge (g : Flat) (f : First) (c : Construction) (kernel : Items) (e : Kind × Nat) : Prop :=
  ∃ st, c.states[e.2]? = some st ∧ Leads g f kernel e.1 st.kernel

theorem Edge.grows {kernel kernel' : Items} {e : Kind × Nat} (h : Edge g f c kernel e)
    (hc : Grows c c') (hk : kernel.cores = kernel'.cores) : Edge g f c' kernel' e := by
  obtain ⟨st, hst, hleads⟩ := h
  obtain ⟨st', hst', hcores⟩ := hc e.2 st hst
  exact ⟨st', hst', hleads.congr hk hcores.symm⟩

/-- What holds at every moment. -/
structure Sound (g : Flat) (f : First) (mode : Mode) (c : Construction) : Prop where
  kernels : ∀ (id : Nat) st, c.states[id]? = some st → Kernel g f st.kernel
  index : ∀ (key : Items) id, c.index[key]? = some id → ∃ st, c.states[id]? = some st ∧
    mode.key st.kernel = key
  start : ∃ st, c.states[0]? = some st ∧ st.kernel.cores = [⟨0, 0⟩]
  edges : ∀ (id : Nat) st, c.states[id]? = some st → ∀ e ∈ st.transitions, Edge g f c st.kernel e

theorem sound_start (g : Flat) (f : First) (mode : Mode) : Sound g f mode (start mode) := by
  have hstate (id : Nat) (st : State) (h : (start mode).states[id]? = some st) :
      id = 0 ∧ st = { kernel := [(⟨0, 0⟩, .singleton Kind.eof.id)] } := by
    cases id with
    | zero => exact ⟨rfl, (Option.some.inj h).symm⟩
    | succ id => simp [start] at h
  constructor
  case kernels =>
    intro id st h
    obtain ⟨-, rfl⟩ := hstate id st h
    exact .start
  case index =>
    intro key id h
    simp only [start, Std.HashMap.getElem?_insert] at h
    split at h
    · next hkey =>
      obtain rfl := Option.some.inj h
      exact ⟨_, rfl, eq_of_beq hkey⟩
    · simp at h
  case start => exact ⟨_, rfl, rfl⟩
  case edges =>
    intro id st h e he
    obtain ⟨-, rfl⟩ := hstate id st h
    simp at he

/-- A state changes, but neither its items nor what it leads to. -/
theorem Sound.modify (h : Sound g f mode c) (id : Nat) (change : State → State)
    (hkey : ∀ st, c.states[id]? = some st → mode.key (change st).kernel = mode.key st.kernel)
    (hkernel : ∀ st, c.states[id]? = some st → Kernel g f (change st).kernel)
    (hedges : ∀ st, c.states[id]? = some st → ∀ e ∈ (change st).transitions,
      Edge g f c st.kernel e) :
    Sound g f mode { c with states := c.states.modify id change } ∧
      Grows c { c with states := c.states.modify id change } := by
  have hget (j : Nat) (st : State) (hst : (c.states.modify id change)[j]? = some st) :
      (j ≠ id ∧ c.states[j]? = some st) ∨ j = id ∧
      ∃ old, c.states[id]? = some old ∧ st = change old := by
    rw [Array.getElem?_modify] at hst
    split at hst
    · next hid =>
      obtain ⟨old, hold, rfl⟩ := Option.map_eq_some_iff.1 hst
      exact .inr ⟨hid.symm, old, hid ▸ hold, rfl⟩
    · next hid => exact .inl ⟨Ne.symm hid, hst⟩
  have hmodify (j : Nat) (st : State) (hst : c.states[j]? = some st) : ∃ st',
      (c.states.modify id change)[j]? = some st' ∧ mode.key st'.kernel = mode.key st.kernel := by
    rw [Array.getElem?_modify]
    by_cases hid : id = j
    · rw [if_pos hid, hst]
      exact ⟨_, rfl, hkey st (hid ▸ hst)⟩
    · rw [if_neg hid]
      exact ⟨st, hst, rfl⟩
  have hgrows : Grows c { c with states := c.states.modify id change } := by
    intro j st hst
    obtain ⟨st', hst', hk⟩ := hmodify j st hst
    exact ⟨st', hst', Mode.cores_eq_of_key hk⟩
  refine ⟨⟨?_, ?_, ?_, ?_⟩, hgrows⟩
  · intro j st hst
    rcases hget j st hst with ⟨-, hst⟩ | ⟨-, old, hold, rfl⟩
    · exact h.kernels j st hst
    · exact hkernel old hold
  · intro key j hkey'
    obtain ⟨st, hst, hk⟩ := h.index key j hkey'
    obtain ⟨st', hst', hk'⟩ := hmodify j st hst
    exact ⟨st', hst', hk'.trans hk⟩
  · obtain ⟨st, hst, hcores⟩ := h.start
    obtain ⟨st', hst', hk⟩ := hmodify 0 st hst
    exact ⟨st', hst', (Mode.cores_eq_of_key hk).trans hcores⟩
  · intro j st hst e he
    rcases hget j st hst with ⟨-, hst⟩ | ⟨-, old, hold, rfl⟩
    · exact (h.edges j st hst e he).grows hgrows rfl
    · exact (hedges old hold e he).grows hgrows (Mode.cores_eq_of_key (hkey old hold)).symm

/-- Only the states and their index matter. -/
theorem Sound.congr (h : Sound g f mode c) (hs : c'.states = c.states) (hi : c'.index = c.index) :
    Sound g f mode c' ∧ Grows c c' := by
  obtain ⟨states, index, queue, visited, waiting⟩ := c'
  obtain rfl : states = c.states := hs
  obtain rfl : index = c.index := hi
  exact ⟨⟨h.kernels, h.index, h.start, h.edges⟩, fun _ st hst => ⟨st, hst, rfl⟩⟩

theorem states_enqueue (c : Construction) (id : Nat) : (c.enqueue id).states = c.states := by
  unfold enqueue
  split <;> rfl

theorem index_enqueue (c : Construction) (id : Nat) : (c.enqueue id).index = c.index := by
  unfold enqueue
  split <;> rfl

theorem Sound.addState (h : Sound g f mode c) {kernel : Items} (hkernel : Kernel g f kernel) :
    Sound g f mode (c.addState (mode.key kernel) kernel) ∧
      Grows c (c.addState (mode.key kernel) kernel) := by
  have hget (id : Nat) (st : State)
      (hst : (c.addState (mode.key kernel) kernel).states[id]? = some st) :
      c.states[id]? = some st ∨ id = c.states.size ∧ st = { kernel } := by
    simp only [Construction.addState, Array.getElem?_push] at hst
    split at hst
    · next hid => exact .inr ⟨hid, (Option.some.inj hst).symm⟩
    · exact .inl hst
  have hkeep (id : Nat) (st : State) (hst : c.states[id]? = some st) :
      (c.addState (mode.key kernel) kernel).states[id]? = some st := by
    have hlt : id < c.states.size := (Array.getElem?_eq_some_iff.1 hst).1
    simp only [Construction.addState, Array.getElem?_push]
    rw [if_neg (Nat.ne_of_lt hlt), hst]
  have hgrows : Grows c (c.addState (mode.key kernel) kernel) :=
    fun id st hst => ⟨st, hkeep id st hst, rfl⟩
  refine ⟨⟨?_, ?_, ?_, ?_⟩, hgrows⟩
  · intro id st hst
    rcases hget id st hst with hst | ⟨-, rfl⟩
    · exact h.kernels id st hst
    · exact hkernel
  · intro key id hkey
    simp only [Construction.addState, Std.HashMap.getElem?_insert] at hkey
    split at hkey
    · next heq =>
      obtain rfl := Option.some.inj hkey
      exact ⟨{ kernel }, Array.getElem?_push_size, by simpa using heq⟩
    · obtain ⟨st, hst, hk⟩ := h.index key id hkey
      exact ⟨st, hkeep id st hst, hk⟩
  · obtain ⟨st, hst, hcores⟩ := h.start
    exact ⟨st, hkeep 0 st hst, hcores⟩
  · intro id st hst e he
    rcases hget id st hst with hst | ⟨-, rfl⟩
    · exact (h.edges id st hst e he).grows hgrows rfl
    · simp at he

theorem Sound.grow (h : Sound g f .lalr c) {kernel : Items} (hkernel : Kernel g f kernel) {id : Nat}
    (hid : ∃ st, c.states[id]? = some st ∧ st.kernel.cores = kernel.cores) :
    Sound g f .lalr (c.grow id kernel) ∧ Grows c (c.grow id kernel) := by
  obtain ⟨st, hst, hcores⟩ := hid
  have hold : (c.states[id]?.map (·.kernel)).getD [] = st.kernel := by rw [hst]; rfl
  unfold Construction.grow
  simp only [hold]
  split
  · exact ⟨h, .refl c⟩
  · obtain ⟨hsound, hgrows⟩ := h.modify id (fun s => { s with kernel := st.kernel.unite kernel })
      (fun old hget => by
        rw [hst] at hget
        obtain rfl := Option.some.inj hget
        exact Mode.key_eq_of_cores (Items.cores_unite hcores))
      (fun _ _ => .unite (h.kernels id st hst) hkernel hcores)
      (fun old hget e he => h.edges id old hget e he)
    obtain ⟨hsound', hgrows'⟩ := hsound.congr (states_enqueue _ id) (index_enqueue _ id)
    exact ⟨hsound', hgrows.trans hgrows'⟩

theorem target_of_none {kernel : Items} (h : c.index[mode.key kernel]? = none) :
    c.target mode kernel = (c.states.size, c.addState (mode.key kernel) kernel) := by
  unfold Construction.target
  simp only [h]

private theorem Sound.target (h : Sound g f mode c) {kernel : Items} (hkernel : Kernel g f kernel) :
    Sound g f mode (c.target mode kernel).2 ∧ Grows c (c.target mode kernel).2 ∧
      ∃ st, (c.target mode kernel).2.states[(c.target mode kernel).1]? = some st ∧
        st.kernel.cores = kernel.cores := by
  unfold Construction.target
  simp only
  cases hindex : c.index[mode.key kernel]? with
  | none =>
    obtain ⟨hsound, hgrows⟩ := h.addState hkernel
    exact ⟨hsound, hgrows, { kernel }, Array.getElem?_push_size, rfl⟩
  | some id =>
    obtain ⟨st, hst, hkey⟩ := h.index _ id hindex
    have hcores := Mode.cores_eq_of_key hkey
    simp only
    split
    · next hmode =>
      subst hmode
      obtain ⟨hsound, hgrows⟩ := h.grow hkernel ⟨st, hst, hcores⟩
      obtain ⟨st', hst', hcores'⟩ := hgrows id st hst
      exact ⟨hsound, hgrows, st', hst', hcores'.trans hcores⟩
    · exact ⟨h, .refl c, st, hst, hcores⟩

/-- Finds or makes the targets of a state, one symbol after another. -/
def follow (mode : Mode) (succ : List (Kind × Items)) (r : Array (Kind × Nat) × Construction) :
    Array (Kind × Nat) × Construction :=
  succ.foldl (fun (row, c) (symbol, kernel) =>
    let (next, c) := c.target mode kernel
    (row.push (symbol, next), c)) r

/-- The construction when a visit of a state begins. -/
def leave (c : Construction) (id : Nat) : Construction :=
  { c with visited := c.visited + 1, waiting := c.waiting.setIfInBounds id false }

theorem visit_eq (g : Flat) (f : First) (mode : Mode) (c : Construction) (id : Nat) :
    c.visit g f mode id =
      let kernel := (c.states[id]?.map (·.kernel)).getD []
    let r := follow mode (Items.successors g (Items.closure g f kernel)) (#[], c.leave id)
    { r.2 with states := r.2.states.modify id fun s => { s with transitions := r.1 } } := rfl

private theorem Sound.follow (h : Sound g f mode c) {before : Items} (hbefore : Kernel g f before)
    {succ : List (Kind × Items)} (hsucc : succ ⊆ Items.successors g (Items.closure g f before))
    (row : Array (Kind × Nat)) (hrow : ∀ e ∈ row, Edge g f c before e) :
    let r := Construction.follow mode succ (row, c)
    Sound g f mode r.2 ∧ Grows c r.2 ∧ ∀ e ∈ r.1, Edge g f r.2 before e := by
  induction succ generalizing row c with
  | nil => exact ⟨h, .refl c, hrow⟩
  | cons s rest ih =>
    have hmem := hsucc List.mem_cons_self
    obtain ⟨hsound, hgrows, st, hst, hcores⟩ := h.target (.successor hbefore hmem)
    obtain ⟨hsound', hgrows', hrow'⟩ := ih hsound (fun x hx => hsucc (List.mem_cons_of_mem _ hx))
      (row.push (s.1, (c.target mode s.2).1)) (fun e he => by
        rcases Array.mem_push.1 he with he | rfl
        · exact (hrow e he).grows hgrows rfl
        · exact ⟨st, hst, before, s.2, rfl, hmem, hcores.symm⟩)
    exact ⟨hsound', hgrows.trans hgrows', hrow'⟩

private theorem closure_nil (g : Flat) (f : First) : Items.closure g f [] = [] := by
  apply List.eq_nil_iff_forall_not_mem.2
  intro entry hentry
  have hclosed := Items.closed_of_mem_closure hentry
  generalize entry.1 = i at hclosed
  induction hclosed with
  | kernel h => contradiction
  | predict source hs hn hq ih => exact ih

theorem visit_of_none (g : Flat) (f : First) (mode : Mode) {id : Nat} (hst : c.states[id]? = none) :
    c.visit g f mode id = c.leave id := by
  have hmodify (row : Array (Kind × Nat)) :
      c.states.modify id (fun s => { s with transitions := row }) = c.states := by
    apply Array.ext_getElem?
    intro j
    rw [Array.getElem?_modify]
    split
    · next hid =>
      rw [← hid, hst]
      rfl
    · rfl
  have hnone : Items.successors g (Items.closure g f []) = [] := by
    simp [closure_nil, Items.successors, groupByKind, groupRuns]
  rw [visit_eq, hst]
  simp only [Option.map_none, Option.getD_none, hnone, follow, List.foldl_nil, leave, hmodify]

theorem Sound.visit (h : Sound g f mode c) (id : Nat) :
    Sound g f mode (c.visit g f mode id) ∧ Grows c (c.visit g f mode id) := by
  have hleave : Sound g f mode (c.leave id) ∧ Grows c (c.leave id) := h.congr rfl rfl
  cases hst : c.states[id]? with
  | none =>
    rw [visit_of_none g f mode hst]
    exact hleave
  | some st =>
    rw [visit_eq, hst]
    obtain ⟨hsound, hgrows, hrow⟩ := hleave.1.follow (h.kernels id st hst) (List.Subset.refl _) #[]
      (fun e he => by simp at he)
    obtain ⟨st', hst', hcores⟩ := (hleave.2.trans hgrows) id st hst
    simp only [Option.map_some, Option.getD_some]
    obtain ⟨hsound', hgrows'⟩ := hsound.modify id
      (fun s => { s with transitions :=
        (Construction.follow mode (Items.successors g (Items.closure g f st.kernel))
          (#[], c.leave id)).1 })
      (fun _ _ => rfl) (fun old hold => hsound.kernels id old hold)
      (fun old hold e he => by
        rw [hst'] at hold
        obtain rfl := Option.some.inj hold
        exact (hrow e he).grows (.refl _) hcores.symm)
    exact ⟨hsound', (hleave.2.trans hgrows).trans hgrows'⟩

private theorem sound_run {fuel : Nat} (h : Sound g f mode c) :
    Sound g f mode (run g f mode fuel c) := by
  induction fuel generalizing c with
  | zero => exact h
  | succ fuel ih =>
    unfold run
    split
    · exact h
    · exact ih (h.visit _).1

theorem sound_automaton (g : Flat) (f : First) (mode : Mode) :
    Sound g f mode (run g f mode (visitBound g mode) (.start mode)) :=
  sound_run (sound_start g f mode)

end Construction
end Reparse.Table

import Reparse.Proofs.Automaton

/-! # Automata without an index -/
namespace Reparse.Table
open Data Grammar

/-- An automaton under construction, in which kernels are found by looking at all states. -/
structure Listing where
  states : Array State
  queue : Array Nat
  visited : Nat := 0
  waiting : Array Bool

/-- What identifies each of the states. -/
def keys (mode : Mode) (states : Array State) : Array Items := states.map fun s => mode.key s.kernel

namespace Listing

def start : Listing := ⟨#[{ kernel := [(⟨0, 0⟩, .singleton Kind.eof.id)] }], #[0], 0, #[true]⟩

def enqueue (c : Listing) (id : Nat) : Listing :=
  if c.waiting[id]?.getD false then c
  else { c with queue := c.queue.push id, waiting := c.waiting.setIfInBounds id true }

def addState (c : Listing) (kernel : Items) : Listing :=
  { c with
    states := c.states.push { kernel }
    queue := c.queue.push c.states.size
    waiting := c.waiting.push true }

def grow (c : Listing) (id : Nat) (kernel : Items) : Listing :=
  let old := (c.states[id]?.map (·.kernel)).getD []
  let merged := Items.unite old kernel
  if merged = old then c
  else enqueue { c with states := c.states.modify id fun s => { s with kernel := merged } } id

def target (mode : Mode) (c : Listing) (kernel : Items) : Nat × Listing :=
  match (keys mode c.states).findIdx? (· = mode.key kernel) with
  | some id => (id, if mode = .lalr then c.grow id kernel else c)
  | none => (c.states.size, c.addState kernel)

def follow (mode : Mode) (succ : List (Kind × Items)) (r : Array (Kind × Nat) × Listing) :
    Array (Kind × Nat) × Listing :=
  succ.foldl (fun r s => (r.1.push (s.1, (r.2.target mode s.2).1), (r.2.target mode s.2).2)) r

def visit (g : Flat) (f : First) (mode : Mode) (c : Listing) (id : Nat) : Listing :=
  let left := { c with visited := c.visited + 1, waiting := c.waiting.setIfInBounds id false }
  let kernel := (left.states[id]?.map (·.kernel)).getD []
  let r := follow mode (Items.successors g (Items.closure g f kernel)) (#[], left)
  { r.2 with states := r.2.states.modify id fun s => { s with transitions := r.1 } }

def run (g : Flat) (f : First) (mode : Mode) : (fuel : Nat) → Listing → Listing
  | 0, c => c
  | fuel + 1, c => match c.queue[c.visited]? with
    | none => c
    | some id => run g f mode fuel (c.visit g f mode id)

end Listing

namespace Construction
variable {g : Flat} {f : First} {mode : Mode} {c : Construction}

/-- The construction without its index. -/
def listing (c : Construction) : Listing := ⟨c.states, c.queue, c.visited, c.waiting⟩

/-- The index says of every key where its state is. -/
def Indexed (mode : Mode) (c : Construction) : Prop :=
  ∀ key : Items, c.index[key]? = (keys mode c.states).findIdx? (· = key)

private theorem indexed_start (mode : Mode) : (start mode).Indexed mode := by
  intro key
  simp only [start, keys, Std.HashMap.getElem?_insert, List.map_toArray,
    List.map_cons, List.map_nil]
  by_cases h : mode.key [(⟨0, 0⟩, .singleton Kind.eof.id)] = key
  · simp [h]
  · simp [h]

/-- Changes of states do not matter that keep their keys. -/
theorem Indexed.congr (h : c.Indexed mode) {c' : Construction} (hindex : c'.index = c.index)
    (hkeys : keys mode c'.states = keys mode c.states) : c'.Indexed mode := by
  intro key
  rw [hindex, hkeys]
  exact h key

private theorem keys_modify {states : Array State} {id : Nat} {change : State → State}
    (hkey : ∀ st, states[id]? = some st → mode.key (change st).kernel = mode.key st.kernel) :
    keys mode (states.modify id change) = keys mode states := by
  apply Array.ext_getElem?
  intro j
  simp only [keys, Array.getElem?_map, Array.getElem?_modify]
  split
  · next hj =>
    subst hj
    cases hst : states[id]? with
    | none => rfl
    | some st => exact congrArg some (hkey st hst)
  · rfl

private theorem Indexed.addState (h : c.Indexed mode) {kernel : Items}
    (hnew : c.index[mode.key kernel]? = none) :
    (c.addState (mode.key kernel) kernel).Indexed mode := by
  intro key
  simp only [Construction.addState, Std.HashMap.getElem?_insert, keys, Array.map_push,
    Array.findIdx?_push, Array.size_map]
  rw [← keys, ← h key]
  by_cases hkey : mode.key kernel = key
  · subst hkey
    simp [hnew]
  · simp [hkey]

private theorem Indexed.grow (h : c.Indexed mode) {kernel : Items} {id : Nat}
    (hid : ∀ st, c.states[id]? = some st → st.kernel.cores = kernel.cores) (hmode : mode = .lalr) :
    (c.grow id kernel).Indexed mode := by
  subst hmode
  unfold Construction.grow
  dsimp only
  split
  · exact h
  · refine h.congr (index_enqueue _ id) ?_
    rw [states_enqueue]
    dsimp only
    refine keys_modify fun st hst => ?_
    rw [hst]
    exact Mode.key_eq_of_cores (Items.cores_unite (hid st hst))

private theorem listing_enqueue (c : Construction) (id : Nat) :
    (c.enqueue id).listing = c.listing.enqueue id := by
  unfold Construction.enqueue Listing.enqueue listing
  dsimp only
  split <;> rfl

private theorem listing_grow (c : Construction) (id : Nat) (kernel : Items) :
    (c.grow id kernel).listing = c.listing.grow id kernel := by
  unfold Construction.grow Listing.grow
  dsimp only
  rw [apply_ite listing, listing_enqueue]
  rfl

private theorem Indexed.target (h : c.Indexed mode) (kernel : Items) :
    (c.target mode kernel).2.Indexed mode ∧
    c.listing.target mode kernel =
      ((c.target mode kernel).1, (c.target mode kernel).2.listing) := by
  unfold Construction.target Listing.target
  dsimp only
  rw [show (keys mode c.listing.states).findIdx? (· = mode.key kernel) =
    c.index[mode.key kernel]? from (h _).symm]
  cases hindex : c.index[mode.key kernel]? with
  | none => exact ⟨h.addState hindex, rfl⟩
  | some id =>
    dsimp only
    split
    · next hmode =>
      refine ⟨h.grow (fun st hst => ?_) hmode, by rw [listing_grow]⟩
      rw [h, Array.findIdx?_eq_some_iff_getElem] at hindex
      obtain ⟨hlt, hkey, -⟩ := hindex
      obtain ⟨hlt', rfl⟩ := Array.getElem?_eq_some_iff.1 hst
      simp only [keys, Array.getElem_map, decide_eq_true_eq] at hkey
      exact Mode.cores_eq_of_key hkey
    · exact ⟨h, rfl⟩

private theorem Indexed.follow (succ : List (Kind × Items)) (row : Array (Kind × Nat))
    (h : c.Indexed mode) :
    (follow mode succ (row, c)).2.Indexed mode ∧
      Listing.follow mode succ (row, c.listing) =
        ((follow mode succ (row, c)).1, (follow mode succ (row, c)).2.listing) := by
  induction succ generalizing row c with
  | nil => exact ⟨h, rfl⟩
  | cons s rest ih =>
    obtain ⟨hindexed, heq⟩ := h.target s.2
    have hrest := ih (row.push (s.1, (c.target mode s.2).1)) hindexed
    refine ⟨hrest.1, ?_⟩
    rw [Listing.follow, List.foldl_cons, heq]
    exact hrest.2

private theorem Indexed.visit (h : c.Indexed mode) (id : Nat) : (c.visit g f mode id).Indexed mode ∧
    c.listing.visit g f mode id = (c.visit g f mode id).listing := by
  have hleave : (c.leave id).Indexed mode := h
  obtain ⟨hindexed, heq⟩ := hleave.follow
    (Items.successors g (Items.closure g f ((c.states[id]?.map (·.kernel)).getD []))) #[]
  rw [visit_eq]
  refine ⟨hindexed.congr rfl ?_, ?_⟩
  · dsimp only
    exact keys_modify fun _ _ => rfl
  · exact congrArg (fun r =>
      { r.2 with states := r.2.states.modify id fun s => { s with transitions := r.1 } }) heq

private theorem Indexed.run (h : c.Indexed mode) (fuel : Nat) :
    c.listing.run g f mode fuel = (c.run g f mode fuel).listing := by
  induction fuel generalizing c with
  | zero => rfl
  | succ fuel ih =>
    rw [Construction.run, Listing.run]
    change (match c.queue[c.visited]? with | none => _ | some id => _) = _
    cases c.queue[c.visited]? with
    | none => rfl
    | some id =>
      obtain ⟨hindexed, heq⟩ := h.visit (g := g) (f := f) id
      dsimp only
      rw [heq]
      exact ih hindexed

end Construction

/-- The automaton can be made without an index. -/
theorem automaton_eq (g : Flat) (f : First) (mode : Mode) :
    automaton g f mode = (Listing.start.run g f mode (visitBound g mode)).states :=
  (congrArg Listing.states ((Construction.indexed_start mode).run (visitBound g mode))).symm

end Reparse.Table

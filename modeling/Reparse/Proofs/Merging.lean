import Reparse.Proofs.Brackets
import Reparse.Proofs.Exploration
import Reparse.Proofs.Propagation

/-! # Merging loses and invents nothing -/
namespace Reparse.Table
open Data Grammar Items

variable {g : Flat} {f : First} {kernel : Items}

/-- The kernels of the canonical automaton. -/
inductive Canonical (g : Flat) (f : First) : Items → Prop
  | start : Canonical g f [(⟨0, 0⟩, .singleton Kind.eof.id)]
  | successor {kernel next : Items} {k : Kind} (h : Canonical g f kernel)
      (hnext : (k, next) ∈ successors g (closure g f kernel)) : Canonical g f next

theorem Canonical.toKernel (h : Canonical g f kernel) : Kernel g f kernel := by
  induction h with
  | start => exact .start
  | successor _ hnext ih => exact .successor ih hnext

/-- Only the first kernel stands before production 0. -/
private theorem Kernel.eq_start (h : Kernel g f kernel) (hcores : kernel.cores = [⟨0, 0⟩]) :
    kernel = [(⟨0, 0⟩, .singleton Kind.eof.id)] := by
  induction h with
  | start => rfl
  | @successor kernel next k h hnext ih =>
    obtain ⟨entry, hentry, hzero⟩ : ∃ entry ∈ next, entry.1 = ⟨0, 0⟩ := by
      have hmem : (⟨0, 0⟩ : Item) ∈ next.cores := by rw [hcores]; exact List.mem_cons_self
      exact List.mem_map.1 hmem
    obtain ⟨i, s, rest, -, -, -, hadvance⟩ := of_mem_successors hnext entry hentry
    rw [hzero] at hadvance
    exact absurd (congrArg Item.dot hadvance) (Nat.zero_ne_add_one _)
  | @unite a b ha hb hsame iha ihb =>
    rw [cores_unite hsame] at hcores
    rw [iha hcores, ihb (hsame.symm.trans hcores)]
    rfl

/-- Everything in the kernel is in canonical kernels with the same items. -/
structure Covered (g : Flat) (f : First) (kernel : Items) : Prop where
  represented : ∃ c, Canonical g f c ∧ c.cores = kernel.cores
  lookaheads : ∀ i t, kernel.Has i t → ∃ c, Canonical g f c ∧ c.cores = kernel.cores ∧ c.Has i t

/-- A reason for a lookahead is a reason in one canonical kernel. -/
private theorem Covered.ahead (h : Covered g f kernel) {i : Item} {t : Nat}
    (hi : Ahead g f kernel i t) :
    ∃ c, Canonical g f c ∧ c.cores = kernel.cores ∧ Ahead g f c i t := by
  induction hi with
  | kernel hi =>
    obtain ⟨c, hc, hcores, hhas⟩ := h.lookaheads _ _ hi
    exact ⟨c, hc, hcores, .kernel hhas⟩
  | spontaneous source hs hn hq begins =>
    obtain ⟨c, hc, hcores⟩ := h.represented
    exact ⟨c, hc, hcores, .spontaneous (hcores ▸ source) hs hn hq begins⟩
  | inherited _ hs hn hq vanishes ih =>
    obtain ⟨c, hc, hcores, hahead⟩ := ih
    exact ⟨c, hc, hcores, .inherited hahead hs hn hq vanishes⟩

section
variable (hg : g.WellFormed) (hf : First.Exact g f)
include hg hf

private theorem Covered.successor (hk : Kernel g f kernel) (h : Covered g f kernel) {k : Kind}
    {next : Items} (hnext : (k, next) ∈ successors g (closure g f kernel)) : Covered g f next := by
  have hproper := hk.proper hg hf
  have hclosure {c : Items} (hc : Canonical g f c) (hcores : c.cores = kernel.cores) :
      (closure g f kernel).cores = (closure g f c).cores :=
    cores_closure_congr hg hf hproper (hc.toKernel.proper hg hf) hcores.symm
  constructor
  · obtain ⟨c, hc, hcores⟩ := h.represented
    obtain ⟨next', hnext', hsame⟩ := exists_successor_of_cores (hclosure hc hcores) hnext
    exact ⟨next', .successor hc hnext', hsame⟩
  · intro i t hi
    obtain ⟨j, s, rest, hj, hs, rfl, rfl⟩ := (has_successor hnext).1 hi
    obtain ⟨c, hc, hcores, hahead⟩ := h.ahead ((has_closure hg hf hproper).1 hj)
    obtain ⟨next', hnext', hsame⟩ := exists_successor_of_cores (hclosure hc hcores) hnext
    have hhas : (closure g f c).Has j t := (has_closure hg hf (hc.toKernel.proper hg hf)).2 hahead
    exact ⟨next', .successor hc hnext', hsame,
      (has_successor hnext').2 ⟨j, s, rest, hhas, hs, rfl, rfl⟩⟩

/-- Uniting kernels invents no lookaheads. -/
private theorem Kernel.covered (h : Kernel g f kernel) : Covered g f kernel := by
  induction h with
  | start => exact ⟨⟨_, .start, rfl⟩, fun i t hi => ⟨_, .start, rfl, hi⟩⟩
  | successor h hnext ih => exact ih.successor hg hf h hnext
  | @unite a b ha hb hcores iha ihb =>
    have hsame := cores_unite hcores
    refine ⟨hsame ▸ iha.represented, fun i t hi => ?_⟩
    rw [hsame]
    rcases has_unite hcores hi with hi | hi
    · exact iha.lookaheads i t hi
    · obtain ⟨c, hc, hother, hhas⟩ := ihb.lookaheads i t hi
      exact ⟨c, hc, hother.trans hcores.symm, hhas⟩

/-- Successors of less are less. -/
theorem within_successors {a b : Items} (ha : Proper g a) (hb : Proper g b) (h : Within a b)
    {k : Kind} {next next' : Items} (hnext : (k, next) ∈ successors g (closure g f a))
    (hnext' : (k, next') ∈ successors g (closure g f b)) :
    Within next next' := by
  have hclosure := cores_closure_congr hg hf ha hb h.cores
  refine within_of_has (proper_successors (completed_closure hg hf hb).proper hnext')
    (cores_of_successors hclosure hnext hnext') fun i t hi => ?_
  obtain ⟨j, s, rest, hj, hs, hk, hadvance⟩ := (has_successor hnext).1 hi
  refine (has_successor hnext').2 ⟨j, s, rest, ?_, hs, hk, hadvance⟩
  have hahead := (has_closure hg hf ha).1 hj
  exact (has_closure hg hf hb).2 (hahead.mono h.cores fun i t hi => h.has hi)
end

/-! ## The canonical automaton -/

namespace Construction

variable {c c' : Construction}

/-- States are still there, with the same kernels. -/
def Keeps (c c' : Construction) : Prop := ∀ (id : Nat) st, c.states[id]? = some st →
  ∃ st', c'.states[id]? = some st' ∧ st'.kernel = st.kernel

private theorem Keeps.refl (c : Construction) : Keeps c c := fun _ st h => ⟨st, h, rfl⟩

private theorem Keeps.trans {c'' : Construction} (h : Keeps c c') (h' : Keeps c' c'') :
    Keeps c c'' := by
  intro id st hst
  obtain ⟨st', hst', hkernel⟩ := h id st hst
  obtain ⟨st'', hst'', hkernel'⟩ := h' id st' hst'
  exact ⟨st'', hst'', hkernel'.trans hkernel⟩

/-- A transition leads to a state with just the items that come over it. -/
def Arrives (g : Flat) (f : First) (c : Construction) (kernel : Items) (e : Kind × Nat) : Prop :=
  ∃ st, c.states[e.2]? = some st ∧ (e.1, st.kernel) ∈ successors g (closure g f kernel)

theorem Arrives.keeps {e : Kind × Nat} (h : Arrives g f c kernel e) (hc : Keeps c c') :
    Arrives g f c' kernel e := by
  obtain ⟨st, hst, hmem⟩ := h
  obtain ⟨st', hst', hkernel⟩ := hc e.2 st hst
  exact ⟨st', hst', hkernel ▸ hmem⟩

/-- Without merging, states have canonical kernels, and transitions are exact at every moment. -/
structure Plain (g : Flat) (f : First) (c : Construction) : Prop where
  kernels : ∀ (id : Nat) st, c.states[id]? = some st → Canonical g f st.kernel
  index : ∀ (key : Items) id, c.index[key]? = some id →
    ∃ st, c.states[id]? = some st ∧ st.kernel = key
  start : ∃ st, c.states[0]? = some st ∧ st.kernel = [(⟨0, 0⟩, .singleton Kind.eof.id)]
  edges : ∀ (id : Nat) st, c.states[id]? = some st → ∀ e ∈ st.transitions, Arrives g f c st.kernel e

private theorem plain_start (g : Flat) (f : First) : Plain g f (start .canonical) := by
  have hstate (id : Nat) (st : State) (h : (start .canonical).states[id]? = some st) :
      st = { kernel := [(⟨0, 0⟩, .singleton Kind.eof.id)] } := by
    cases id with
    | zero => exact (Option.some.inj h).symm
    | succ id => simp [start] at h
  refine ⟨fun id st h => ?_, fun key id h => ?_, ⟨_, rfl, rfl⟩, fun id st h e he => ?_⟩
  · rw [hstate id st h]
    exact .start
  · obtain ⟨st, hst, hkey⟩ := (sound_start g f .canonical).index key id h
    exact ⟨st, hst, hkey⟩
  · rw [hstate id st h] at he
    simp at he

private theorem Plain.addState (h : Plain g f c) (hkernel : Canonical g f kernel) :
    Plain g f (c.addState kernel kernel) ∧ Keeps c (c.addState kernel kernel) := by
  have hget (id : Nat) (st : State) (hst : (c.addState kernel kernel).states[id]? = some st) :
      c.states[id]? = some st ∨ id = c.states.size ∧ st = { kernel } := by
    simp only [Construction.addState, Array.getElem?_push] at hst
    split at hst
    · next hid => exact .inr ⟨hid, (Option.some.inj hst).symm⟩
    · exact .inl hst
  have hkeep (id : Nat) (st : State) (hst : c.states[id]? = some st) :
      (c.addState kernel kernel).states[id]? = some st := by
    have hlt : id < c.states.size := (Array.getElem?_eq_some_iff.1 hst).1
    simp only [Construction.addState, Array.getElem?_push]
    rw [if_neg (Nat.ne_of_lt hlt), hst]
  have hkeeps : Keeps c (c.addState kernel kernel) := fun id st hst => ⟨st, hkeep id st hst, rfl⟩
  refine ⟨⟨fun id st hst => ?_, fun key id hkey => ?_, ?_, fun id st hst e he => ?_⟩, hkeeps⟩
  · rcases hget id st hst with hst | ⟨-, rfl⟩
    · exact h.kernels id st hst
    · exact hkernel
  · simp only [Construction.addState, Std.HashMap.getElem?_insert] at hkey
    split at hkey
    · next heq =>
      obtain rfl := Option.some.inj hkey
      exact ⟨{ kernel }, Array.getElem?_push_size, by simpa using heq⟩
    · obtain ⟨st, hst, hk⟩ := h.index key id hkey
      exact ⟨st, hkeep id st hst, hk⟩
  · obtain ⟨st, hst, hstart⟩ := h.start
    exact ⟨st, hkeep 0 st hst, hstart⟩
  · rcases hget id st hst with hst | ⟨-, rfl⟩
    · exact (h.edges id st hst e he).keeps hkeeps
    · simp at he

private theorem Plain.target (h : Plain g f c) (hkernel : Canonical g f kernel) :
    Plain g f (c.target .canonical kernel).2 ∧ Keeps c (c.target .canonical kernel).2 ∧
      ∃ st, (c.target .canonical kernel).2.states[(c.target .canonical kernel).1]? = some st ∧
        st.kernel = kernel := by
  cases hindex : c.index[Mode.canonical.key kernel]? with
  | none =>
    rw [target_of_none hindex]
    obtain ⟨hplain, hkeeps⟩ := h.addState hkernel
    exact ⟨hplain, hkeeps, { kernel }, Array.getElem?_push_size, rfl⟩
  | some id =>
    obtain ⟨st, hst, hkey⟩ := h.index _ id hindex
    have htarget : c.target .canonical kernel = (id, c) := by
      unfold Construction.target
      simp [hindex]
    rw [htarget]
    exact ⟨h, .refl c, st, hst, hkey⟩

private theorem Plain.follow (h : Plain g f c) (hkernel : Canonical g f kernel)
    {succ : List (Kind × Items)} (hsucc : succ ⊆ successors g (closure g f kernel))
    (row : Array (Kind × Nat)) (hrow : ∀ e ∈ row, Arrives g f c kernel e) :
    let r := Construction.follow .canonical succ (row, c)
    Plain g f r.2 ∧ Keeps c r.2 ∧ ∀ e ∈ r.1, Arrives g f r.2 kernel e := by
  induction succ generalizing row c with
  | nil => exact ⟨h, .refl c, hrow⟩
  | cons s rest ih =>
    have hmem := hsucc List.mem_cons_self
    obtain ⟨hplain, hkeeps, st, hst, hnext⟩ := h.target (.successor hkernel hmem)
    obtain ⟨hplain', hkeeps', hrow'⟩ := ih hplain (fun x hx => hsucc (List.mem_cons_of_mem _ hx))
      (row.push (s.1, (c.target .canonical s.2).1)) fun e he => by
        rcases Array.mem_push.1 he with he | rfl
        · exact (hrow e he).keeps hkeeps
        · refine ⟨st, hst, ?_⟩
          rw [hnext]
          exact hmem
    exact ⟨hplain', hkeeps.trans hkeeps', hrow'⟩

private theorem Plain.settle (h : Plain g f c) {id : Nat} {row : Array (Kind × Nat)}
    (hrow : ∀ st, c.states[id]? = some st → ∀ e ∈ row, Arrives g f c st.kernel e) :
    Plain g f (c.settle id row) := by
  have hkeeps : Keeps c (c.settle id row) := by
    intro j st hst
    simp only [Construction.settle, Array.getElem?_modify, hst]
    split
    · exact ⟨_, rfl, rfl⟩
    · exact ⟨st, rfl, rfl⟩
  refine ⟨fun j st hst => ?_, fun key j hkey => ?_, ?_, fun j st hst e he => ?_⟩
  · obtain ⟨old, hold, hkernel, -⟩ := kernel_settle hst
    rw [hkernel]
    exact h.kernels j old hold
  · obtain ⟨st, hst, hk⟩ := h.index key j hkey
    obtain ⟨st', hst', hkernel⟩ := hkeeps j st hst
    exact ⟨st', hst', hkernel.trans hk⟩
  · obtain ⟨st, hst, hk⟩ := h.start
    obtain ⟨st', hst', hkernel⟩ := hkeeps 0 st hst
    exact ⟨st', hst', hkernel.trans hk⟩
  · obtain ⟨old, hold, hkernel, htransitions⟩ := kernel_settle hst
    rw [htransitions] at he
    rw [hkernel]
    split at he
    · next hj => exact (hrow old (hj ▸ hold) e he).keeps hkeeps
    · exact (h.edges j old hold e he).keeps hkeeps

private theorem Plain.visit (h : Plain g f c) (id : Nat) :
    Plain g f (c.visit g f .canonical id) := by
  have hleave : Plain g f (c.leave id) := ⟨h.kernels, h.index, h.start, h.edges⟩
  cases hst : c.states[id]? with
  | none =>
    rw [visit_of_none g f .canonical hst]
    exact hleave
  | some st =>
    rw [visit_eq, hst]
    obtain ⟨hplain, hkeeps, hrow⟩ := hleave.follow (h.kernels id st hst) (List.Subset.refl _) #[]
      fun e he => by simp at he
    refine hplain.settle fun old hold e he => ?_
    obtain ⟨st', hst', hkernel⟩ := hkeeps id st hst
    obtain rfl := Option.some.inj (hst'.symm.trans hold)
    rw [hkernel]
    exact hrow e he

private theorem plain_run {fuel : Nat} (h : Plain g f c) :
    Plain g f (run g f .canonical fuel c) := by
  induction fuel generalizing c with
  | zero => exact h
  | succ fuel ih =>
    unfold run
    split
    · exact h
    · exact ih (h.visit _)

end Construction

/-- States are told apart by their keys, and the first one stands before production 0. -/
theorem indexed_automaton (hg : g.WellFormed) (mode : Mode) {id id' : Nat} {st st' : State}
    (hst : (automaton g (First.compute g) mode)[id]? = some st)
    (hst' : (automaton g (First.compute g) mode)[id']? = some st')
    (hkey : mode.key st.kernel = mode.key st'.kernel) : id = id' := by
  obtain ⟨hexplored, hleft⟩ := Construction.explored_start hg (First.exact_compute hg) mode
  have hlive := (Construction.settled_run hg (First.exact_compute hg) hexplored hleft).1
  have hindex := hlive.indexed id st hst
  rw [hkey, hlive.indexed id' st' hst'] at hindex
  exact (Option.some.inj hindex).symm

/-- The states are the kernels that are reached from the first one, each of them once, and every
state has the transitions of its closure: an automaton that keeps item sets with different
lookaheads apart. -/
structure IsCanonical (g : Flat) (f : First) (states : Array State) : Prop where
  start : ∃ s, states[0]? = some s ∧ s.kernel = [(⟨0, 0⟩, .singleton Kind.eof.id)]
  transitions : ∀ (m : Nat) s, states[m]? = some s → List.Forall₂ (fun next e => e.1 = next.1 ∧
    ∃ s', states[e.2]? = some s' ∧
    s'.kernel = next.2) (successors g (closure g f s.kernel)) s.transitions.toList
  distinct : ∀ (m m' : Nat) s s', states[m]? = some s → states[m']? = some s' →
    s.kernel = s'.kernel → m = m'
  reached : ∀ (m : Nat) s, states[m]? = some s → Canonical g f s.kernel

private theorem IsCanonical.exists_state {states : Array State} (h : IsCanonical g f states)
    (hk : Canonical g f kernel) :
    ∃ (m : Nat) (s : State), states[m]? = some s ∧ s.kernel = kernel := by
  induction hk with
  | start =>
    obtain ⟨s, hs, hkernel⟩ := h.start
    exact ⟨0, s, hs, hkernel⟩
  | @successor kernel next k hk hnext ih =>
    obtain ⟨m, s, hs, rfl⟩ := ih
    obtain ⟨hlength, hall⟩ := List.forall₂_iff_get.1 (h.transitions m s hs)
    obtain ⟨n, hn, hget⟩ := List.getElem_of_mem hnext
    obtain ⟨-, s', hs', hkernel⟩ := hall n hn (hlength ▸ hn)
    rw [List.get_eq_getElem, hget] at hkernel
    exact ⟨_, s', hs', hkernel⟩

private theorem isCanonical_automaton (hg : g.WellFormed) :
    IsCanonical g (First.compute g) (automaton g (First.compute g) .canonical) := by
  have hplain : Construction.Plain g (First.compute g)
      (Construction.run g (First.compute g) .canonical (visitBound g .canonical)
      (.start .canonical)) := Construction.plain_run (Construction.plain_start ..)
  refine ⟨hplain.start, fun m s hs => ?_, fun m m' s s' hs hs' h =>
    indexed_automaton hg .canonical hs hs' h, hplain.kernels⟩
  have hsettled := settled_automaton hg .canonical hs
  obtain ⟨hlength, hall⟩ := List.forall₂_iff_get.1 hsettled
  refine List.forall₂_iff_get.2 ⟨hlength, fun n hn hn' => ?_⟩
  obtain ⟨hkind, -⟩ := hall n hn hn'
  refine ⟨hkind, ?_⟩
  obtain ⟨s', hs', hmem⟩ := hplain.edges m s hs _ (Array.mem_toList_iff.1 (List.get_mem _ ⟨n, hn'⟩))
  rw [hkind] at hmem
  exact ⟨s', hs', successors_unique hmem (List.get_mem _ ⟨n, hn⟩)⟩

/-! ## The quotient -/

/-- `merge` maps the states of one automaton onto those of another that has one state for each set
of items. The states of the second have the lookaheads of all states that are mapped to them. -/
structure IsQuotient (fine coarse : Array State) (merge : Nat → Nat) : Prop where
  cores : ∀ (m : Nat) s, fine[m]? = some s → ∃ t, coarse[merge m]? = some t ∧
    t.kernel.cores = s.kernel.cores
  distinct : ∀ (n n' : Nat) t t', coarse[n]? = some t → coarse[n']? = some t' →
    t.kernel.cores = t'.kernel.cores → n = n'
  onto : ∀ (n : Nat) t, coarse[n]? = some t → ∃ (m : Nat) (s : State),
    fine[m]? = some s ∧ merge m = n
  start : merge 0 = 0
  transitions : ∀ (m : Nat) s t, fine[m]? = some s → coarse[merge m]? = some t →
    t.transitions = s.transitions.map fun e => (e.1, merge e.2)
  lookaheads : ∀ (n : Nat) t i ahead, coarse[n]? = some t → (i, ahead) ∈ t.kernel → ∀ x, x ∈ ahead ↔
    ∃ (m : Nat) (s : State) (part : BitSet), fine[m]? = some s ∧ merge m = n ∧
    (i, part) ∈ s.kernel ∧ x ∈ part

/-- Every canonical kernel is in a merged state. -/
theorem Canonical.exists_within (hg : g.WellFormed) (h : Canonical g (First.compute g) kernel) :
    ∃ (n : Nat) (t : State), (automaton g (First.compute g) .lalr)[n]? = some t ∧
      Within kernel t.kernel := by
  have hf := First.exact_compute hg
  induction h with
  | start =>
    obtain ⟨t, ht, hcores⟩ := (Construction.sound_automaton g (First.compute g) .lalr).start
    exact ⟨0, t, ht, (kernel_automaton .lalr ht).eq_start hcores ▸ .refl _⟩
  | @successor kernel next k hk hnext ih =>
    obtain ⟨n, t, ht, hwithin⟩ := ih
    have hproper := hk.toKernel.proper hg hf
    have hproper' := (kernel_automaton .lalr ht).proper hg hf
    obtain ⟨next', hnext', -⟩ :=
      exists_successor_of_cores (cores_closure_congr hg hf hproper hproper' hwithin.cores) hnext
    obtain ⟨hlength, hall⟩ := List.forall₂_iff_get.1 (settled_automaton hg .lalr ht)
    obtain ⟨p, hp, hget⟩ := List.getElem_of_mem hnext'
    obtain ⟨-, t', ht', hwithin'⟩ := hall p hp (hlength ▸ hp)
    rw [List.get_eq_getElem, hget] at hwithin'
    exact ⟨_, t', ht',
      (within_successors hg hf hproper hproper' hwithin hnext hnext').trans hwithin'⟩

/-- States with the same items lead to states with the same items. -/
theorem cores_of_transitions {fine coarse : Array State} {succ succ' : List (Kind × Items)}
    (hsucc : List.Forall₂ (fun x y => x.1 = y.1 ∧ x.2.cores = y.2.cores) succ succ')
    {row row' : List (Kind × Nat)}
    (hrow : List.Forall₂ (fun next e => e.1 = next.1 ∧ ∃ s', fine[e.2]? = some s' ∧
      s'.kernel = next.2) succ row)
    (hrow' : List.Forall₂ (fun next e => e.1 = next.1 ∧ ∃ t', coarse[e.2]? = some t' ∧
      Within next.2 t'.kernel) succ' row') :
    List.Forall₂ (fun e e' => e.1 = e'.1 ∧ ∃ s' t', fine[e.2]? = some s' ∧ coarse[e'.2]? = some t' ∧
      s'.kernel.cores = t'.kernel.cores) row row' := by
  induction hsucc generalizing row row' with
  | nil =>
    cases hrow
    cases hrow'
    exact .nil
  | cons hxy _ ih =>
    cases hrow with
    | cons he hrest =>
      cases hrow' with
      | cons he' hrest' =>
        obtain ⟨hkind, s', hs', hkernel⟩ := he
        obtain ⟨hkind', t', ht', hwithin⟩ := he'
        refine .cons ⟨hkind.trans (hxy.1.trans hkind'.symm), s', t', hs', ht', ?_⟩ (ih hrest hrest')
        rw [hkernel, hxy.2, hwithin.cores]

theorem exists_quotient (hg : g.WellFormed) :
    ∃ merge, IsQuotient (automaton g (First.compute g) .canonical)
    (automaton g (First.compute g) .lalr) merge := by
  have hf := First.exact_compute hg
  have hcanonical := isCanonical_automaton hg
  have hdistinct : ∀ (n n' : Nat) (t t' : State),
      (automaton g (First.compute g) .lalr)[n]? = some t →
      (automaton g (First.compute g) .lalr)[n']? = some t' →
      t.kernel.cores = t'.kernel.cores → n = n' :=
    fun _ _ _ _ ht ht' h => indexed_automaton hg .lalr ht ht' (Mode.key_eq_of_cores h)
  have hmerge (m : Nat) : ∃ n : Nat, ∀ s : State,
      (automaton g (First.compute g) .canonical)[m]? = some s → ∃ t : State,
      (automaton g (First.compute g) .lalr)[n]? = some t ∧ Within s.kernel t.kernel := by
    cases hs : (automaton g (First.compute g) .canonical)[m]? with
    | none => exact ⟨0, nofun⟩
    | some s =>
      obtain ⟨n, t, ht, hwithin⟩ := (hcanonical.reached m s hs).exists_within hg
      exact ⟨n, fun s' hs' => ⟨t, ht, Option.some.inj hs' ▸ hwithin⟩⟩
  choose merge hmerge using hmerge
  have hsame {m n : Nat} {s t : State}
      (hs : (automaton g (First.compute g) .canonical)[m]? = some s)
      (ht : (automaton g (First.compute g) .lalr)[n]? = some t)
      (hcores : s.kernel.cores = t.kernel.cores) : merge m = n := by
    obtain ⟨t', ht', hwithin⟩ := hmerge m s hs
    exact hdistinct _ _ t' t ht' ht (hwithin.cores.symm.trans hcores)
  refine ⟨merge, ?_⟩
  constructor
  case distinct => exact hdistinct
  case cores =>
    intro m s hs
    obtain ⟨t, ht, hwithin⟩ := hmerge m s hs
    exact ⟨t, ht, hwithin.cores.symm⟩
  case onto =>
    intro n t ht
    obtain ⟨c, hc, hcores⟩ := ((kernel_automaton .lalr ht).covered hg hf).represented
    obtain ⟨m, s, hs, rfl⟩ := hcanonical.exists_state hc
    exact ⟨m, s, hs, hsame hs ht hcores⟩
  case start =>
    obtain ⟨s, hs, hstart⟩ := hcanonical.start
    obtain ⟨t, ht, hcores⟩ := (Construction.sound_automaton g (First.compute g) .lalr).start
    exact hsame hs ht (by rw [hstart, hcores]; rfl)
  case transitions =>
    intro m s t hs ht
    obtain ⟨t', ht', hwithin⟩ := hmerge m s hs
    obtain rfl := Option.some.inj (ht.symm.trans ht')
    have hclosure := cores_closure_congr hg hf ((hcanonical.reached m s hs).toKernel.proper hg hf)
      ((kernel_automaton .lalr ht).proper hg hf) hwithin.cores
    have hrows := cores_of_transitions (successors_congr hclosure) (hcanonical.transitions m s hs)
      (settled_automaton hg .lalr ht)
    apply Array.toList_inj.1
    rw [Array.toList_map]
    refine (List.forall₂_eq_eq_eq ▸ List.forall₂_map_left_iff.2 (hrows.imp fun e e' he => ?_)).symm
    obtain ⟨hkind, s', t', hs', ht', hcores⟩ := he
    exact Prod.ext hkind (hsame hs' ht' hcores)
  case lookaheads =>
    intro n t i ahead ht hi x
    have hproper := (kernel_automaton .lalr ht).proper hg hf
    rw [hproper.mem_iff_has hi]
    constructor
    · intro hx
      obtain ⟨c, hc, hcores, part, hpart, hmem⟩ :=
        ((kernel_automaton .lalr ht).covered hg hf).lookaheads i x hx
      obtain ⟨m, s, hs, rfl⟩ := hcanonical.exists_state hc
      exact ⟨m, s, part, hs, hsame hs ht hcores, hpart, hmem⟩
    · rintro ⟨m, s, part, hs, rfl, hpart, hx⟩
      obtain ⟨t', ht', hwithin⟩ := hmerge m s hs
      obtain rfl := Option.some.inj (ht.symm.trans ht')
      exact hwithin.has ⟨part, hpart, hx⟩

/-- The automaton with merged states is the canonical one up to lookaheads: it has one state for all
canonical states with the same items, with the transitions that they have, and the lookaheads of its
items are theirs together. -/
theorem lalr_isQuotient_canonical {d : Draft} {grammar : Grammar}
    (hvalid : d.validate = .ok grammar) {g : Flat} (hflat : flatten grammar = .ok g) :
    IsCanonical g (First.compute g) (automaton g (First.compute g) .canonical) ∧
      ∃ merge, IsQuotient (automaton g (First.compute g) .canonical)
        (automaton g (First.compute g) .lalr) merge := by
  have hg : g.WellFormed := wellFormed_of_flatten (Draft.valid_of_validate hvalid) hflat
  exact ⟨isCanonical_automaton hg, exists_quotient hg⟩

/-- Of the states of nested brackets, those inside of brackets are merged with those outside. -/
theorem lalr_isQuotient_canonical_brackets :
    (automaton Brackets.flat (First.compute Brackets.flat) .canonical).size = 11 ∧
      (automaton Brackets.flat (First.compute Brackets.flat) .lalr).size = 7 ∧
      IsCanonical Brackets.flat (First.compute Brackets.flat)
        (automaton Brackets.flat (First.compute Brackets.flat) .canonical) ∧
      ∃ merge, IsQuotient (automaton Brackets.flat (First.compute Brackets.flat) .canonical)
        (automaton Brackets.flat (First.compute Brackets.flat) .lalr) merge := by
  refine ⟨?_, ?_, lalr_isQuotient_canonical Brackets.valid Brackets.flattened⟩
  · rw [Brackets.first_eq, Brackets.automaton_eq]
    rfl
  · rw [Brackets.first_eq, Brackets.automaton_eq]
    rfl

end Reparse.Table

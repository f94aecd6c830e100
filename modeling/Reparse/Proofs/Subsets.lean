import Reparse.Lexer.Dfa
import Reparse.Proofs.Runs
import Reparse.Proofs.Search
import Reparse.Proofs.Sets

/-! # Deterministic automata follow sets of states -/
namespace Reparse.Lexer
open Data

namespace Dfa

variable {nfa : Nfa} {rank : Nat → Int × Nat} {d d' : Discovery} {s : Found}
  {row : Array Transition} {b : UInt8} {j : Nat}

/-! ## Rows -/

/-- The row has a transition over the byte. -/
def Leads (row : Array Transition) (b : UInt8) (target : Nat) : Prop :=
  ∃ t ∈ row, t.lo ≤ b ∧ b ≤ t.hi ∧ t.target = target

/-- Transitions in increasing order, over bytes below a bound. -/
structure Ordered (row : Array Transition) (bound : Nat) : Prop where
  sorted : row.toList.Pairwise fun t u => t.hi < u.lo
  bounds : ∀ t ∈ row, t.lo ≤ t.hi ∧ t.hi.toNat < bound

private theorem Ordered.get_lt {bound m n : Nat} {t u : Transition} (h : Ordered row bound)
    (hm : row[m]? = some t) (hn : row[n]? = some u) (hlt : m < n) : t.hi < u.lo := by
  obtain ⟨hm', rfl⟩ := Array.getElem?_eq_some_iff.1 hm
  obtain ⟨hn', rfl⟩ := Array.getElem?_eq_some_iff.1 hn
  exact List.pairwise_iff_getElem.1 h.sorted m n hm' hn' hlt

/-- The transitions that end before a byte come first. -/
private theorem Ordered.exists_point {bound : Nat} (h : Ordered row bound) (b : UInt8) :
    ∃ k ≤ row.size,
    (∀ n < k, ∀ t, row[n]? = some t → t.hi < b) ∧ ∀ n, k ≤ n →
      ∀ t, row[n]? = some t → b ≤ t.hi := by
  have hsize : row.toList.findIdx (fun t => !decide (t.hi < b)) ≤ row.size := List.findIdx_le_length
  refine ⟨row.toList.findIdx fun t => !decide (t.hi < b), hsize, fun n hn t ht => ?_,
    fun n hn t ht => ?_⟩
  · obtain ⟨-, rfl⟩ := Array.getElem?_eq_some_iff.1 ht
    simpa using List.not_of_lt_findIdx hn
  · obtain ⟨hlt, rfl⟩ := Array.getElem?_eq_some_iff.1 ht
    have hpoint : row.toList.findIdx (fun t => !decide (t.hi < b)) < row.toList.length :=
      Nat.lt_of_le_of_lt hn hlt
    have hfirst := List.findIdx_getElem (w := hpoint)
    rcases Nat.lt_or_eq_of_le hn with hlt' | heq
    · have hbefore := h.get_lt (Array.getElem?_eq_getElem (Nat.lt_trans hlt' hlt)) ht hlt'
      have hproper := (h.bounds _ (Array.getElem_mem hlt)).1
      simp only [Bool.not_eq_true', decide_eq_false_iff_not, UInt8.not_lt,
        Array.getElem_toList] at hfirst
      exact UInt8.le_trans hfirst (UInt8.le_trans (UInt8.le_of_lt hbefore) hproper)
    · simp only [heq] at hfirst
      simpa using hfirst

/-- A step takes the transition over the byte. -/
theorem step_iff {dfa : Dfa} {i bound : Nat} {st : DfaState} (hst : dfa.states[i]? = some st)
    (h : Ordered st.transitions bound) : dfa.step i b = some j ↔ Leads st.transitions b j := by
  obtain ⟨k, hk, hbefore, hafter⟩ := h.exists_point b
  unfold step
  rw [hst]
  simp only [Option.bind_eq_bind, Option.bind_some]
  rw [partitionPoint_eq hk (fun n hn => ?_) (fun n hn hsize => ?_)]
  · constructor
    · intro hstep
      obtain ⟨t, ht, hlo⟩ := Option.bind_eq_some_iff.1 hstep
      split at hlo
      · next hle => exact ⟨t, Array.mem_of_getElem? ht, hle, hafter k (Nat.le_refl k) t ht,
          Option.some.inj hlo⟩
      · contradiction
    · rintro ⟨t, ht, hlo, hhi, rfl⟩
      obtain ⟨n, hn⟩ := Array.getElem?_of_mem ht
      have hle : k ≤ n := by
        by_contra hlt
        exact absurd (hbefore n (Nat.lt_of_not_le hlt) t hn) (UInt8.not_lt.2 hhi)
      rcases Nat.lt_or_eq_of_le hle with hlt | rfl
      · -- the first of them would reach the byte, and so end before this one starts
        have hsize := Nat.lt_trans hlt (Array.getElem?_eq_some_iff.1 hn).1
        have hfirst := hafter k (Nat.le_refl k) _ (Array.getElem?_eq_getElem hsize)
        have hapart := h.get_lt (Array.getElem?_eq_getElem hsize) hn hlt
        exact absurd (UInt8.lt_of_lt_of_le hapart hlo) (UInt8.not_lt.2 hfirst)
      · rw [hn]
        simp [hlo]
  · have hlt : n < st.transitions.size := by omega
    rw [Array.getElem?_eq_getElem hlt]
    exact decide_eq_true (hbefore n hn _ (Array.getElem?_eq_getElem hlt))
  · rw [Array.getElem?_eq_getElem hsize]
    exact decide_eq_false (UInt8.not_lt.2 (hafter n hn _ (Array.getElem?_eq_getElem hsize)))

private theorem toList_joinTransition (row : Array Transition) (t : Transition) :
    (joinTransition row t).toList = row.toList ++ [t] ∨
      ∃ last before, row.toList = before ++ [last] ∧
      last.target = t.target ∧ last.hi.toNat + 1 = t.lo.toNat ∧
      (joinTransition row t).toList = before ++ [{ last with hi := t.hi }] := by
  unfold joinTransition
  split
  · next last hlast =>
    split
    · next hjoin =>
      refine .inr ⟨last, row.pop.toList, ?_, hjoin.1, hjoin.2, by simp⟩
      rw [← Array.getLast?_toList] at hlast
      rw [Array.toList_pop]
      exact (List.dropLast_append_getLast? _ hlast).symm
    · exact .inl (Array.toList_push ..)
  · exact .inl (Array.toList_push ..)

/-- A transition on top of a row adds its bytes. -/
private theorem ordered_joinTransition {bound : Nat} (h : Ordered row bound) {t : Transition}
    (hlo : bound ≤ t.lo.toNat) (ht : t.lo ≤ t.hi) :
    Ordered (joinTransition row t) (t.hi.toNat + 1) ∧
      ∀ b j, Leads (joinTransition row t) b j ↔ Leads row b j ∨ t.lo ≤ b ∧
        b ≤ t.hi ∧ t.target = j := by
  have hleads (row : Array Transition) (b : UInt8) (j : Nat) :
      Leads row b j ↔ ∃ t ∈ row.toList, t.lo ≤ b ∧ b ≤ t.hi ∧ t.target = j := by
    simp only [Leads, Array.mem_toList_iff]
  have hbounds : ∀ u ∈ row.toList, u.lo ≤ u.hi ∧ u.hi.toNat < bound :=
    fun u hu => h.bounds u (Array.mem_toList_iff.1 hu)
  have hsorted := h.sorted
  rcases toList_joinTransition row t with heq | ⟨last, before, hrow, htarget, htouch, heq⟩
  · refine ⟨⟨?_, fun u hu => ?_⟩, fun b j => ?_⟩
    · rw [heq, List.pairwise_append]
      refine ⟨hsorted, List.pairwise_singleton _ _, fun u hu v hv => ?_⟩
      rw [List.mem_singleton.1 hv, UInt8.lt_iff_toNat_lt]
      exact Nat.lt_of_lt_of_le (hbounds u hu).2 hlo
    · rw [← Array.mem_toList_iff, heq] at hu
      rcases List.mem_append.1 hu with hu | hu
      · have hhi := (hbounds u hu).2
        have := UInt8.le_iff_toNat_le.1 ht
        exact ⟨(hbounds u hu).1, by omega⟩
      · rw [List.mem_singleton.1 hu]
        exact ⟨ht, Nat.lt_succ_self _⟩
    · rw [hleads, hleads, heq]
      simp only [List.mem_append, List.mem_singleton, or_and_right, exists_or, exists_eq_left]
  · rw [hrow] at hbounds hsorted
    have hlast := hbounds last (List.mem_append_right _ List.mem_cons_self)
    have hlt := UInt8.le_iff_toNat_le.1 ht
    obtain ⟨hbefore, -, hcross⟩ := List.pairwise_append.1 hsorted
    refine ⟨⟨?_, fun u hu => ?_⟩, fun b j => ?_⟩
    · rw [heq, List.pairwise_append]
      refine ⟨hbefore, List.pairwise_singleton _ _, fun u hu v hv => ?_⟩
      rw [List.mem_singleton.1 hv]
      exact hcross u hu last List.mem_cons_self
    · rw [← Array.mem_toList_iff, heq] at hu
      rcases List.mem_append.1 hu with hu | hu
      · have hu' := hbounds u (List.mem_append_left _ hu)
        exact ⟨hu'.1, by omega⟩
      · rw [List.mem_singleton.1 hu]
        refine ⟨UInt8.le_iff_toNat_le.2 ?_, Nat.lt_succ_self _⟩
        have := UInt8.le_iff_toNat_le.1 hlast.1
        simp only
        omega
    · rw [hleads, hleads, heq, hrow]
      simp only [List.mem_append, List.mem_singleton, or_and_right, exists_or,
        exists_eq_left, or_assoc]
      refine or_congr Iff.rfl ?_
      have := UInt8.le_iff_toNat_le.1 hlast.1
      simp only [UInt8.le_iff_toNat_le, htarget, ← or_and_right, ← and_assoc]
      refine and_congr_left fun _ => ?_
      omega

/-! ## Discovery -/

/-- A subset lists the states that it has. -/
structure Listed (nfa : Nfa) (s : Found) : Prop where
  members : ∀ q, q ∈ s.members ↔ q ∈ s.set
  below : s.set.Below nfa.size

private theorem listed_closure (nfa : Nfa) (seeds : List Nat) : Listed nfa (nfa.closure seeds) :=
  ⟨fun _ => Nfa.mem_closure_members seeds, reachFrom_induction (P := (· < nfa.size))
    (fun q hq => absurd hq (BitSet.not_mem_empty q)) (fun _ _ hlt => hlt) fun _ _ _ _ hlt => hlt⟩

/-- Subsets are known by their numbers, and each has one. -/
structure Numbered (nfa : Nfa) (d : Discovery) : Prop where
  index : ∀ (k : BitSet) i, d.index[k]? = some i → ∃ s, d.found[i]? = some s ∧ s.set = k
  known : ∀ (i : Nat) s, d.found[i]? = some s → d.index[s.set]? = some i
  listed : ∀ (i : Nat) s, d.found[i]? = some s → Listed nfa s

/-- Subsets keep their numbers. -/
def Keeps (d d' : Discovery) : Prop := ∀ (i : Nat) s, d.found[i]? = some s → d'.found[i]? = some s

theorem Keeps.refl (d : Discovery) : Keeps d d := fun _ _ h => h

private theorem Keeps.trans {d'' : Discovery} (h : Keeps d d') (h' : Keeps d' d'') : Keeps d d'' :=
  fun i s hs => h' i s (h i s hs)

private theorem numbered_start (hs : Listed nfa s) : Numbered nfa (.start s) := by
  have hget (i : Nat) (t : Found) (h : (Discovery.start s).found[i]? = some t) : i = 0 ∧ t = s := by
    cases i with
    | zero => exact ⟨rfl, (Option.some.inj h).symm⟩
    | succ i => simp [Discovery.start] at h
  refine ⟨fun k i h => ?_, fun i t h => ?_, fun i t h => ?_⟩
  · simp only [Discovery.start, Std.HashMap.getElem?_insert] at h
    split at h
    · next hk =>
      obtain rfl := Option.some.inj h
      exact ⟨s, rfl, eq_of_beq hk⟩
    · simp at h
  · obtain ⟨rfl, rfl⟩ := hget i t h
    simp [Discovery.start]
  · obtain ⟨-, rfl⟩ := hget i t h
    exact hs

private theorem numbered_number (h : Numbered nfa d) (hs : Listed nfa s) :
    Numbered nfa (d.number s).2 ∧ Keeps d (d.number s).2 ∧
    ∃ q, (d.number s).2.found[(d.number s).1]? = some q ∧ q.set = s.set := by
  unfold Discovery.number
  split
  · next i hi => exact ⟨h, .refl d, h.index _ i hi⟩
  · next hnew =>
    have hget (i : Nat) (t : Found) (ht : (d.found.push s)[i]? = some t) :
        d.found[i]? = some t ∨ i = d.found.size ∧ t = s := by
      rw [Array.getElem?_push] at ht
      split at ht
      · next hi => exact .inr ⟨hi, (Option.some.inj ht).symm⟩
      · exact .inl ht
    have hkeep (i : Nat) (t : Found) (ht : d.found[i]? = some t) :
        (d.found.push s)[i]? = some t := by
      have hlt := (Array.getElem?_eq_some_iff.1 ht).1
      rw [Array.getElem?_push, if_neg (Nat.ne_of_lt hlt), ht]
    refine ⟨⟨fun k i hk => ?_, fun i t ht => ?_, fun i t ht => ?_⟩, hkeep, s,
      Array.getElem?_push_size, rfl⟩
    · rw [Std.HashMap.getElem?_insert] at hk
      split at hk
      · next heq =>
        obtain rfl := Option.some.inj hk
        exact ⟨s, Array.getElem?_push_size, eq_of_beq heq⟩
      · obtain ⟨t, ht, hset⟩ := h.index k i hk
        exact ⟨t, hkeep i t ht, hset⟩
    · rw [Std.HashMap.getElem?_insert]
      rcases hget i t ht with ht | ⟨rfl, rfl⟩
      · have hknown := h.known i t ht
        split
        · next heq =>
          rw [← eq_of_beq heq, hnew] at hknown
          contradiction
        · exact hknown
      · simp
    · rcases hget i t ht with ht | ⟨-, rfl⟩
      · exact h.listed i t ht
      · exact hs

/-- There are no more subsets than sets of states. -/
theorem Numbered.size_le (h : Numbered nfa d) : d.found.size ≤ 2 ^ nfa.size := by
  have hdistinct : (d.found.toList.map fun s => s.set.bits).Nodup := by
    rw [List.nodup_iff_injective_get]
    intro i j hij
    have hget (i : Fin (d.found.toList.map fun s => s.set.bits).length) :
        d.index[(⟨(d.found.toList.map fun s => s.set.bits).get i⟩ : BitSet)]? = some i.1 := by
      have hi : i.1 < d.found.size := by simpa using i.2
      simpa using h.known i.1 d.found[i.1] (Array.getElem?_eq_getElem hi)
    have hsame :=
      (hget i).symm.trans ((congrArg (fun n => d.index[(⟨n⟩ : BitSet)]?) hij).trans (hget j))
    exact Fin.ext (Option.some.inj hsame)
  have hbelow : (d.found.toList.map fun s => s.set.bits) ⊆ List.range (2 ^ nfa.size) := by
    intro n hn
    obtain ⟨s, hs, rfl⟩ := List.mem_map.1 hn
    obtain ⟨i, hi⟩ := Array.getElem?_of_mem (Array.mem_toList_iff.1 hs)
    refine List.mem_range.2 (Nat.lt_pow_two_of_testBit _ fun q hq => ?_)
    by_contra hbit
    exact absurd ((h.listed i s hi).below q (by simpa [BitSet.mem_iff] using hbit))
      (Nat.not_lt.2 hq)
  simpa using (hdistinct.subperm hbelow).length_le

/-! ## Completing a row -/

/-- The moves from the states of a subset. -/
def movesOf (nfa : Nfa) (s : Found) : List (UInt8 × UInt8 × Nat) :=
  s.members.flatMap fun i => (nfa[i]?.map (·.moves)).getD []

/-- Where moves lead over a byte. -/
def targetsOf (moves : List (UInt8 × UInt8 × Nat)) (b : UInt8) : List Nat :=
  (moves.filter fun m => m.1 ≤ b ∧ b ≤ m.2.1).map (·.2.2)

/-- Adds the bytes between two boundaries. -/
def fill (nfa : Nfa) (moves : List (UInt8 × UInt8 × Nat)) (r : Array Transition × Discovery)
    (bounds : Nat × Nat) :
    Array Transition × Discovery :=
  match (moves.filter fun m => m.1.toNat ≤ bounds.1 ∧ bounds.2 ≤ m.2.1.toNat + 1).map (·.2.2) with
  | [] => r
  | targets =>
    let (target, d) := r.2.number (nfa.closure targets)
    (joinTransition r.1 ⟨bounds.1.toUInt8, (bounds.2 - 1).toUInt8, target⟩, d)

private theorem row_eq (nfa : Nfa) (d : Discovery) (s : Found) : Dfa.row nfa d s =
    ((boundaries (movesOf nfa s)).zip (boundaries (movesOf nfa s)).tail).foldl
      (fill nfa (movesOf nfa s)) (#[], d) := by
  unfold Dfa.row
  simp only
  congr 1

/-- The row is right for the bytes below a bound. -/
structure Filled (nfa : Nfa) (moves : List (UInt8 × UInt8 × Nat)) (bound : Nat)
    (r : Array Transition × Discovery) : Prop where
  ordered : Ordered r.1 bound
  numbered : Numbered nfa r.2
  leads : ∀ b j, Leads r.1 b j → targetsOf moves b ≠ [] ∧
    ∃ q, r.2.found[j]? = some q ∧ q.set = (nfa.closure (targetsOf moves b)).set
  complete : ∀ b, b.toNat < bound → targetsOf moves b ≠ [] → ∃ j, Leads r.1 b j

private theorem Ordered.mono {bound bound' : Nat} (h : Ordered row bound) (hle : bound ≤ bound') :
    Ordered row bound' :=
  ⟨h.sorted, fun t ht => ⟨(h.bounds t ht).1, Nat.lt_of_lt_of_le (h.bounds t ht).2 hle⟩⟩

variable {moves : List (UInt8 × UInt8 × Nat)} {lo next : Nat} {r : Array Transition × Discovery}

private theorem filled_fill (h : Filled nfa moves lo r) (hlt : lo < next) (hnext : next ≤ 256)
    (hsame : ∀ b : UInt8, lo ≤ b.toNat → b.toNat < next →
      ∀ m ∈ moves, (m.1 ≤ b ∧ b ≤ m.2.1 ↔ m.1.toNat ≤ lo ∧ next ≤ m.2.1.toNat + 1)) :
    Filled nfa moves next (fill nfa moves r (lo, next)) ∧
      Keeps r.2 (fill nfa moves r (lo, next)).2 := by
  have htargets {b : UInt8} (hlo : lo ≤ b.toNat) (hhi : b.toNat < next) :
      (moves.filter fun m => m.1.toNat ≤ lo ∧ next ≤ m.2.1.toNat + 1).map (·.2.2) =
        targetsOf moves b := by
    unfold targetsOf
    congr 1
    exact List.filter_congr fun m hm => decide_eq_decide.2 (hsame b hlo hhi m hm).symm
  unfold fill
  simp only
  split
  · next hnone =>
    refine ⟨⟨h.ordered.mono (Nat.le_of_lt hlt), h.numbered, h.leads, fun b hb hne => ?_⟩, .refl _⟩
    by_cases hlo : b.toNat < lo
    · exact h.complete b hlo hne
    · rw [← htargets (Nat.le_of_not_lt hlo) hb] at hne
      exact absurd hnone hne
  · next hsome =>
    generalize htargets' :
      (moves.filter fun m => m.1.toNat ≤ lo ∧ next ≤ m.2.1.toNat + 1).map (·.2.2) = targets
      at hsome htargets ⊢
    obtain ⟨hnumbered, hkeeps, q, hq, hset⟩ :=
      numbered_number h.numbered (listed_closure nfa targets)
    have hloByte : lo.toUInt8.toNat = lo := by
      rw [Nat.toUInt8_eq, UInt8.toNat_ofNat']
      omega
    have hhiByte : (next - 1).toUInt8.toNat = next - 1 := by
      rw [Nat.toUInt8_eq, UInt8.toNat_ofNat']
      omega
    obtain ⟨hordered, hleads⟩ := ordered_joinTransition h.ordered
      (t := ⟨lo.toUInt8, (next - 1).toUInt8, (r.2.number (nfa.closure targets)).1⟩)
      (Nat.le_of_eq hloByte.symm) (UInt8.le_iff_toNat_le.2 (by rw [hloByte, hhiByte]; omega))
    simp only [hhiByte, Nat.sub_add_cancel (show 1 ≤ next by omega)] at hordered
    refine ⟨⟨hordered, hnumbered, fun b j hb => ?_, fun b hb hne => ?_⟩, hkeeps⟩
    · rcases (hleads b j).1 hb with hb | ⟨hlo, hhi, rfl⟩
      · obtain ⟨hne, q', hq', hset'⟩ := h.leads b j hb
        exact ⟨hne, q', hkeeps _ _ hq', hset'⟩
      · simp only [UInt8.le_iff_toNat_le, hloByte, hhiByte] at hlo hhi
        rw [← htargets hlo (by omega)]
        exact ⟨hsome, q, hq, hset⟩
    · by_cases hlo : b.toNat < lo
      · obtain ⟨j, hj⟩ := h.complete b hlo hne
        exact ⟨j, (hleads b j).2 (.inl hj)⟩
      · refine ⟨_, (hleads b _).2 (.inr ⟨?_, ?_, rfl⟩)⟩
        · rw [UInt8.le_iff_toNat_le, hloByte]
          omega
        · rw [UInt8.le_iff_toNat_le, hhiByte]
          omega

private theorem targetsOf_ne_nil : targetsOf moves b ≠ [] ↔ ∃ m ∈ moves, m.1 ≤ b ∧ b ≤ m.2.1 := by
  simp [targetsOf, List.filter_eq_nil_iff]

/-- Between neighbouring boundaries the same moves apply to every byte. -/
private theorem filled_fold {rest : List Nat} (h : Filled nfa moves lo r)
    (hsorted : (lo :: rest).Pairwise (· < ·)) (hbytes : ∀ n ∈ lo :: rest, n ≤ 256)
    (hstarts : ∀ m ∈ moves, m.1.toNat ≤ lo ∨ m.1.toNat ∈ rest)
    (hstops : ∀ m ∈ moves, m.2.1.toNat + 1 ≤ lo ∨ m.2.1.toNat + 1 ∈ rest) :
    Filled nfa moves 256 (((lo :: rest).zip rest).foldl (fill nfa moves) r) ∧
      Keeps r.2 (((lo :: rest).zip rest).foldl (fill nfa moves) r).2 := by
  induction rest generalizing lo r with
  | nil =>
    refine ⟨⟨h.ordered.mono (hbytes lo List.mem_cons_self), h.numbered, h.leads, fun b _ hne => ?_⟩,
      .refl _⟩
    refine h.complete b ?_ hne
    obtain ⟨m, hm, -, hhi⟩ := targetsOf_ne_nil.1 hne
    have hstop := (hstops m hm).resolve_right List.not_mem_nil
    have := UInt8.le_iff_toNat_le.1 hhi
    omega
  | cons next rest ih =>
    obtain ⟨hhead, htail⟩ := List.pairwise_cons.1 hsorted
    have hlater : ∀ n ∈ next :: rest, next ≤ n := by
      intro n hn
      rcases List.mem_cons.1 hn with rfl | hn
      · exact Nat.le_refl _
      · exact Nat.le_of_lt ((List.pairwise_cons.1 htail).1 n hn)
    have hlt := hhead next List.mem_cons_self
    obtain ⟨hfilled, hkeeps⟩ :=
      filled_fill h hlt (hbytes next (List.mem_cons_of_mem _ List.mem_cons_self))
      fun b hlo hhi m hm => by
        simp only [UInt8.le_iff_toNat_le]
        have hstart : m.1.toNat ≤ lo ∨ next ≤ m.1.toNat := (hstarts m hm).imp_right (hlater _)
        have hstop : m.2.1.toNat + 1 ≤ lo ∨ next ≤ m.2.1.toNat + 1 :=
          (hstops m hm).imp_right (hlater _)
        omega
    have hmove {n : Nat} (hn : n ≤ lo ∨ n ∈ next :: rest) : n ≤ next ∨ n ∈ rest := by
      rcases hn with hn | hn
      · exact .inl (by omega)
      · exact (List.mem_cons.1 hn).imp_left fun heq => Nat.le_of_eq heq
    obtain ⟨hfilled', hkeeps'⟩ :=
      ih hfilled htail (fun n hn => hbytes n (List.mem_cons_of_mem _ hn))
      (fun m hm => hmove (hstarts m hm)) (fun m hm => hmove (hstops m hm))
    exact ⟨hfilled', hkeeps.trans hkeeps'⟩

private theorem mem_boundaries {n : Nat} :
    n ∈ boundaries moves ↔ ∃ m ∈ moves, n = m.1.toNat ∨ n = m.2.1.toNat + 1 := by
  have hfold (s : BitSet) : n ∈
      moves.foldl (fun s m => (s.insert m.1.toNat).insert (m.2.1.toNat + 1)) s ↔
        n ∈ s ∨ ∃ m ∈ moves, n = m.1.toNat ∨ n = m.2.1.toNat + 1 := by
    induction moves generalizing s with
    | nil => simp
    | cons m rest ih =>
      rw [List.foldl_cons, ih, BitSet.mem_insert, BitSet.mem_insert]
      simp only [List.mem_cons, or_and_right, exists_or, exists_eq_left, or_assoc, or_left_comm]
  rw [boundaries, BitSet.mem_toList, hfold]
  simp

private theorem sorted_boundaries (moves : List (UInt8 × UInt8 × Nat)) :
    (boundaries moves).Pairwise (· < ·) :=
  List.pairwise_lt_range.filter _

/-- A row leads over each byte to the closure of what the moves reach over it, and nowhere if they
reach nothing. -/
structure RowFits (nfa : Nfa) (d : Discovery) (s : Found) (row : Array Transition) : Prop where
  ordered : Ordered row 256
  leads : ∀ b j, Leads row b j → targetsOf (movesOf nfa s) b ≠ [] ∧
    ∃ q, d.found[j]? = some q ∧ q.set = (nfa.closure (targetsOf (movesOf nfa s) b)).set
  complete : ∀ b, targetsOf (movesOf nfa s) b ≠ [] → ∃ j, Leads row b j

private theorem RowFits.keeps (h : RowFits nfa d s row) (hd : Keeps d d') :
    RowFits nfa d' s row := by
  refine ⟨h.ordered, fun b j hb => ?_, h.complete⟩
  obtain ⟨hne, q, hq, hset⟩ := h.leads b j hb
  exact ⟨hne, q, hd _ _ hq, hset⟩

private theorem rowFits_row (h : Numbered nfa d) (s : Found) :
    Numbered nfa (Dfa.row nfa d s).2 ∧ Keeps d (Dfa.row nfa d s).2 ∧
    RowFits nfa (Dfa.row nfa d s).2 s (Dfa.row nfa d s).1 := by
  rw [row_eq]
  have hsorted := sorted_boundaries (movesOf nfa s)
  have hmem (n : Nat) : n ∈ boundaries (movesOf nfa s) ↔
      ∃ m ∈ movesOf nfa s, n = m.1.toNat ∨ n = m.2.1.toNat + 1 := mem_boundaries
  cases hbounds : boundaries (movesOf nfa s) with
  | nil =>
    refine ⟨h, .refl d, ⟨.nil, nofun⟩, fun b j hb => ?_, fun b hne => ?_⟩
    · obtain ⟨t, ht, -⟩ := hb
      simp at ht
    · obtain ⟨m, hm, -⟩ := targetsOf_ne_nil.1 hne
      have hstart := (hmem m.1.toNat).2 ⟨m, hm, .inl rfl⟩
      rw [hbounds] at hstart
      contradiction
  | cons lo rest =>
    rw [hbounds] at hsorted hmem
    have hfirst : ∀ n ∈ lo :: rest, lo ≤ n := by
      intro n hn
      rcases List.mem_cons.1 hn with rfl | hn
      · exact Nat.le_refl _
      · exact Nat.le_of_lt ((List.pairwise_cons.1 hsorted).1 n hn)
    have hstart : Filled nfa (movesOf nfa s) lo (#[], d) := by
      refine ⟨⟨.nil, nofun⟩, h, fun b j hb => ?_, fun b hb hne => ?_⟩
      · obtain ⟨t, ht, -⟩ := hb
        simp at ht
      · obtain ⟨m, hm, hlo, -⟩ := targetsOf_ne_nil.1 hne
        have hle := hfirst _ ((hmem m.1.toNat).2 ⟨m, hm, .inl rfl⟩)
        have := UInt8.le_iff_toNat_le.1 hlo
        omega
    have hbytes : ∀ n ∈ lo :: rest, n ≤ 256 := by
      intro n hn
      obtain ⟨m, -, rfl | rfl⟩ := (hmem n).1 hn
      · exact Nat.le_of_lt m.1.toNat_lt
      · exact m.2.1.toNat_lt
    have hmove {n : Nat} (hn : n ∈ lo :: rest) : n ≤ lo ∨ n ∈ rest :=
      (List.mem_cons.1 hn).imp_left fun heq => Nat.le_of_eq heq
    obtain ⟨hfilled, hkeeps⟩ := filled_fold hstart hsorted hbytes
      (fun m hm => hmove ((hmem _).2 ⟨m, hm, .inl rfl⟩))
      (fun m hm => hmove ((hmem _).2 ⟨m, hm, .inr rfl⟩))
    rw [List.tail_cons]
    exact ⟨hfilled.numbered, hkeeps, hfilled.ordered, hfilled.leads,
      fun b hne => hfilled.complete b b.toNat_lt hne⟩

/-! ## Exploring -/

/-- The rows that are completed so far. -/
structure Explored (nfa : Nfa) (rank : Nat → Int × Nat) (d : Discovery) (states : Array DfaState) :
    Prop where
  numbered : Numbered nfa d
  size : states.size ≤ d.found.size
  start : d.found[0]? = some (nfa.closure [0])
  rows : ∀ (i : Nat) st, states[i]? = some st → ∃ s, d.found[i]? = some s ∧
    RowFits nfa d s st.transitions ∧ st.accept = winner nfa rank s

private theorem explored_start (nfa : Nfa) (rank : Nat → Int × Nat) :
    Explored nfa rank (.start (nfa.closure [0])) #[] :=
  ⟨numbered_start (listed_closure nfa [0]), Nat.zero_le _, rfl, fun i st hst => by simp at hst⟩

private theorem Explored.push {states : Array DfaState} (h : Explored nfa rank d states)
    (hs : d.found[states.size]? = some s) :
    Explored nfa rank (Dfa.row nfa d s).2
      (states.push ⟨(Dfa.row nfa d s).1, winner nfa rank s⟩) := by
  obtain ⟨hnumbered, hkeeps, hfits⟩ := rowFits_row h.numbered s
  refine ⟨hnumbered, ?_, hkeeps _ _ h.start, fun i st hst => ?_⟩
  · rw [Array.size_push]
    exact (Array.getElem?_eq_some_iff.1 (hkeeps _ _ hs)).1
  · rw [Array.getElem?_push] at hst
    split at hst
    · next hi =>
      obtain rfl := Option.some.inj hst
      exact ⟨s, hi ▸ hkeeps _ _ hs, hfits, rfl⟩
    · obtain ⟨s', hs', hfits', haccept⟩ := h.rows i st hst
      exact ⟨s', hkeeps _ _ hs', hfits'.keeps hkeeps, haccept⟩

/-- The exploration ends only when every subset has its row. -/
theorem explored_explore {fuel : Nat} {states : Array DfaState} (h : Explored nfa rank d states)
    (hfuel : 2 ^ nfa.size < fuel + states.size) :
    ∃ d', Explored nfa rank d' (explore nfa rank fuel d states) ∧
      d'.found.size = (explore nfa rank fuel d states).size := by
  induction fuel generalizing d states with
  | zero =>
    have hsize := h.size
    have hle := h.numbered.size_le
    omega
  | succ fuel ih =>
    unfold explore
    split
    · next hdone =>
      have hsize := Array.getElem?_eq_none_iff.1 hdone
      exact ⟨d, h, Nat.le_antisymm hsize h.size⟩
    · next s hs => exact ih (h.push hs) (by rw [Array.size_push]; omega)

/-! ## Runs -/

/-- The state after some bytes. -/
def run (dfa : Dfa) (w : List UInt8) : Option Nat :=
  w.foldl (fun state b => state.bind (dfa.step · b)) (some 0)

theorem run_append_singleton (dfa : Dfa) (w : List UInt8) (b : UInt8) :
    dfa.run (w ++ [b]) = (dfa.run w).bind (dfa.step · b) := by
  simp [run]

/-- States of an automaton are the sets of states that are reached together. -/
structure Follows (nfa : Nfa) (rank : Nat → Int × Nat) (dfa : Dfa) : Prop where
  live : ∀ w i, dfa.run w = some i → ∃ s, Listed nfa s ∧ (∀ q, q ∈ s.set ↔ Path nfa.HasEdge 0 w q) ∧
    dfa.accept i = winner nfa rank s
  dead : ∀ w, dfa.run w = none → ∀ q, ¬ Path nfa.HasEdge 0 w q

end Dfa

/-! ## Paths over one more byte -/

section
variable {edge : Edge → Prop} {p q : Nat} {w u v : List UInt8} {b : UInt8}

private theorem Path.exists_split (h : Path edge p w q) (hw : w = u ++ v) :
    ∃ m, Path edge p u m ∧ Path edge m v q := by
  induction h generalizing u with
  | @nil s =>
    obtain ⟨rfl, rfl⟩ := List.append_eq_nil_iff.1 hw.symm
    exact ⟨s, .nil, .nil⟩
  | @step e x w t he hx rest ih =>
    cases u with
    | nil =>
      refine ⟨e.source, .nil, ?_⟩
      rw [List.nil_append] at hw
      exact hw ▸ .step he hx rest
    | cons c u =>
      obtain ⟨source, label, target⟩ := e
      cases label with
      | none =>
        obtain rfl : x = [] := hx
        obtain ⟨m, hm, hrest⟩ := ih hw
        exact ⟨m, Path.silent he hm, hrest⟩
      | some r =>
        obtain ⟨b, hlo, hhi, rfl⟩ := hx
        obtain ⟨rfl, hw'⟩ := List.cons.inj hw
        obtain ⟨m, hm, hrest⟩ := ih hw'
        exact ⟨m, Path.step (e := ⟨source, some r, target⟩) he ⟨b, hlo, hhi, rfl⟩ hm, hrest⟩

private theorem Path.exists_move (h : Path edge p w q) (hw : w = [b]) :
    ∃ m r t, Path edge p [] m ∧ edge ⟨m, some r, t⟩ ∧
    r.1 ≤ b ∧ b ≤ r.2 ∧ Path edge t [] q := by
  induction h with
  | nil => contradiction
  | @step e x w t he hx rest ih =>
    obtain ⟨source, label, target⟩ := e
    cases label with
    | none =>
      obtain rfl : x = [] := hx
      obtain ⟨m, r, t, hm, hmove, hlo, hhi, hrest⟩ := ih hw
      exact ⟨m, r, t, Path.silent he hm, hmove, hlo, hhi, hrest⟩
    | some r =>
      obtain ⟨c, hlo, hhi, rfl⟩ := hx
      obtain ⟨rfl, rfl⟩ := List.cons.inj hw
      exact ⟨source, r, target, .nil, he, hlo, hhi, rest⟩

/-- The last byte of a path is read over some edge. -/
theorem path_append_singleton :
    Path edge p (w ++ [b]) q ↔ ∃ m r t, Path edge p w m ∧ edge ⟨m, some r, t⟩ ∧
    r.1 ≤ b ∧ b ≤ r.2 ∧ Path edge t [] q := by
  constructor
  · intro h
    obtain ⟨m, hm, hrest⟩ := h.exists_split rfl
    obtain ⟨m', r, t, hm', hmove, hlo, hhi, hend⟩ := hrest.exists_move rfl
    refine ⟨m', r, t, ?_, hmove, hlo, hhi, hend⟩
    have happend := hm.append hm'
    rwa [List.append_nil] at happend
  · rintro ⟨m, r, t, hm, hmove, hlo, hhi, hend⟩
    exact hm.append (Path.step (e := ⟨m, some r, t⟩) (u := [b]) hmove ⟨b, hlo, hhi, rfl⟩ hend)
end

namespace Dfa

variable {nfa : Nfa} {rank : Nat → Int × Nat} {d : Discovery} {s : Found} {b : UInt8}

private theorem mem_targetsOf {t : Nat} (hs : Listed nfa s) : t ∈ targetsOf (movesOf nfa s) b ↔
    ∃ m r, m ∈ s.set ∧ nfa.HasEdge ⟨m, some r, t⟩ ∧ r.1 ≤ b ∧ b ≤ r.2 := by
  simp only [targetsOf, movesOf, List.mem_map, List.mem_filter, List.mem_flatMap,
    decide_eq_true_eq, Prod.exists, hs.members, Nfa.HasEdge]
  constructor
  · rintro ⟨lo, hi, target, ⟨⟨m, hm, hmove⟩, hlo, hhi⟩, rfl⟩
    cases hst : nfa[m]? with
    | none =>
      rw [hst] at hmove
      contradiction
    | some st =>
      rw [hst] at hmove
      exact ⟨m, lo, hi, hm, ⟨st, hst, hmove⟩, hlo, hhi⟩
  · rintro ⟨m, lo, hi, hm, ⟨st, hst, hmove⟩, hlo, hhi⟩
    refine ⟨lo, hi, t, ⟨⟨m, hm, ?_⟩, hlo, hhi⟩, rfl⟩
    rw [hst]
    exact hmove

/-- One step of the deterministic automaton is one byte for all states of the subset. -/
theorem mem_step (htargets : ∀ e, nfa.HasEdge e → e.target < nfa.size) (hs : Listed nfa s)
    {w : List UInt8} (hw : ∀ q, q ∈ s.set ↔ Path nfa.HasEdge 0 w q) (q : Nat) :
    q ∈ (nfa.closure (targetsOf (movesOf nfa s) b)).set ↔ Path nfa.HasEdge 0 (w ++ [b]) q := by
  rw [Nfa.mem_closure htargets, path_append_singleton]
  · constructor
    · rintro ⟨t, ht, hend⟩
      obtain ⟨m, r, hm, hmove, hlo, hhi⟩ := (mem_targetsOf hs).1 ht
      exact ⟨m, r, t, (hw m).1 hm, hmove, hlo, hhi, hend⟩
    · rintro ⟨m, r, t, hm, hmove, hlo, hhi, hend⟩
      exact ⟨t, (mem_targetsOf hs).2 ⟨m, r, (hw m).2 hm, hmove, hlo, hhi⟩, hend⟩
  · intro t ht
    obtain ⟨m, r, -, hmove, -⟩ := (mem_targetsOf hs).1 ht
    exact htargets _ hmove

private theorem follows_of_explored {states : Array DfaState} (h : Explored nfa rank d states)
    (hsize : d.found.size = states.size) (htargets : ∀ e, nfa.HasEdge e → e.target < nfa.size)
    (hzero : 0 < nfa.size) : Follows nfa rank ⟨states⟩ := by
  have hrun (w : List UInt8) : (∀ i, run ⟨states⟩ w = some i → ∃ s, d.found[i]? = some s ∧
      ∀ q, q ∈ s.set ↔ Path nfa.HasEdge 0 w q) ∧
      (run ⟨states⟩ w = none → ∀ q, ¬ Path nfa.HasEdge 0 w q) := by
    induction w using List.reverseRecOn with
    | nil =>
      refine ⟨fun i hi => ?_, nofun⟩
      obtain rfl := Option.some.inj hi
      refine ⟨_, h.start, fun q => ?_⟩
      rw [Nfa.mem_closure htargets (by simpa using hzero)]
      simp
    | append_singleton w b ih =>
      rw [run_append_singleton]
      cases hw : run ⟨states⟩ w with
      | none =>
        refine ⟨nofun, fun _ q hq => ?_⟩
        obtain ⟨m, r, t, hm, -⟩ := path_append_singleton.1 hq
        exact ih.2 hw m hm
      | some i =>
        obtain ⟨s, hs, hset⟩ := ih.1 i hw
        have hlt : i < states.size := by
          rw [← hsize]
          exact (Array.getElem?_eq_some_iff.1 hs).1
        have hst : (⟨states⟩ : Dfa).states[i]? = some states[i] := Array.getElem?_eq_getElem hlt
        obtain ⟨s', hs', hfits, -⟩ := h.rows i _ hst
        obtain rfl := Option.some.inj (hs.symm.trans hs')
        have hlisted := h.numbered.listed i s hs
        have hstep (j : Nat) : step ⟨states⟩ i b = some j ↔ Leads states[i].transitions b j :=
          step_iff hst hfits.ordered
        simp only [Option.bind_some]
        refine ⟨fun j hj => ?_, fun hnone q hq => ?_⟩
        · obtain ⟨-, s', hs', heq⟩ := hfits.leads b j ((hstep j).1 hj)
          exact ⟨s', hs', fun q => by rw [heq, mem_step htargets hlisted hset]⟩
        · have hmem := (mem_step htargets hlisted hset q).2 hq
          obtain ⟨t, ht, -⟩ := (Nfa.mem_closure htargets fun t ht => by
            obtain ⟨m, r, -, hmove, -⟩ := (mem_targetsOf hlisted).1 ht
            exact htargets _ hmove).1 hmem
          obtain ⟨j, hj⟩ := hfits.complete b (List.ne_nil_of_mem ht)
          rw [(hstep j).2 hj] at hnone
          contradiction
  refine ⟨fun w i hi => ?_, fun w => (hrun w).2⟩
  obtain ⟨s, hs, hset⟩ := (hrun w).1 i hi
  have hlt : i < states.size := by
    rw [← hsize]
    exact (Array.getElem?_eq_some_iff.1 hs).1
  obtain ⟨s', hs', -, haccept⟩ := h.rows i _ (Array.getElem?_eq_getElem hlt)
  obtain rfl := Option.some.inj (hs.symm.trans hs')
  refine ⟨s, h.numbered.listed i s hs, hset, ?_⟩
  rw [accept, Array.getElem?_eq_getElem hlt]
  exact haccept

/-! ## What automata of rules decide -/

/-- One rank stands before another. -/
def Before (x y : Int × Nat) : Prop := x.1 < y.1 ∨ x.1 = y.1 ∧ x.2 < y.2

/-- The rule with the least rank among some. -/
def Least (rank : Nat → Int × Nat) (P : Nat → Prop) : Option Nat → Prop
  | some r => P r ∧ ∀ r', P r' → ¬ Before (rank r') (rank r)
  | none => ∀ r, ¬ P r

theorem Least.congr {P Q : Nat → Prop} {o : Option Nat} (h : Least rank P o)
    (hpq : ∀ r, P r ↔ Q r) : Least rank Q o := by
  rwa [show Q = P from funext fun r => propext (hpq r).symm]

private theorem least_foldl {f : Option Nat → Nat → Option Nat}
    (hf : ∀ P o rule, Least rank P o → Least rank (fun r => P r ∨ r = rule) (f o rule))
    (rules : List Nat) {P : Nat → Prop} {o : Option Nat} (ho : Least rank P o) :
    Least rank (fun r => P r ∨ r ∈ rules) (rules.foldl f o) := by
  induction rules generalizing P o with
  | nil => exact ho.congr fun r => by simp
  | cons rule rest ih =>
    rw [List.foldl_cons]
    exact (ih (hf P o rule ho)).congr fun r => by rw [List.mem_cons, or_assoc]

private theorem least_winner (hs : Listed nfa s) :
    Least rank (fun r => ∃ q ∈ s.set, nfa.acceptOf q = some r) (winner nfa rank s) := by
  have hnothing : Least rank (fun _ => False) none := fun _ h => h
  unfold winner
  refine (least_foldl (fun P o rule ho => ?_) _ hnothing).congr fun r => ?_
  · cases o with
    | none =>
      refine ⟨.inr rfl, ?_⟩
      rintro r (hr | rfl)
      · exact absurd hr (ho r)
      · unfold Before
        omega
    | some old =>
      obtain ⟨hold, hleast⟩ := ho
      simp only
      split
      · next hless =>
        refine ⟨.inr rfl, ?_⟩
        rintro r (hr | rfl)
        · have := hleast r hr
          unfold Before at *
          omega
        · unfold Before
          omega
      · next hnot =>
        refine ⟨.inl hold, ?_⟩
        rintro r (hr | rfl)
        · exact hleast r hr
        · exact hnot
  · simp only [false_or, List.mem_filterMap, hs.members]
    rfl

/-- What an automaton says of each text: which rule of least rank matches it, and whether some text
that starts with it may match. -/
structure Decides (dfa : Dfa) (rules : List (Pattern × Nat)) (rank : Nat → Int × Nat) : Prop where
  live : ∀ w i, dfa.run w = some i →
    Least rank (fun r => ∃ p, (p, r) ∈ rules ∧ w ∈ p.language) (dfa.accept i)
  dead : ∀ w, dfa.run w = none → ∀ v p r, (p, r) ∈ rules → w ++ v ∉ p.language

theorem decides_ofRules (rules : List (Pattern × Nat)) (rank : Nat → Int × Nat) :
    (ofRules rules rank).Decides rules rank := by
  have hruns := Nfa.runs_ofRules rules
  have hfuel : 2 ^ (Nfa.ofRules rules).size < (1 <<< (Nfa.ofRules rules).size) + 1 +
      (#[] : Array DfaState).size := by
    rw [Nat.one_shiftLeft]
    exact Nat.lt_succ_self _
  obtain ⟨d, hexplored, hsize⟩ := explored_explore (explored_start (Nfa.ofRules rules) rank) hfuel
  have hfollows := follows_of_explored hexplored hsize hruns.targets hruns.nonempty
  constructor
  · intro w i hi
    obtain ⟨s, hlisted, hset, haccept⟩ := hfollows.live w i hi
    rw [show (ofRules rules rank).accept i = _ from haccept]
    refine (least_winner hlisted).congr fun r => ?_
    rw [← hruns.accepted w r]
    simp only [hset]
  · intro w hw v p r hp hmem
    obtain ⟨q, hq, -⟩ := (hruns.accepted (w ++ v) r).2 ⟨p, hp, hmem⟩
    obtain ⟨m, hm, -⟩ := hq.exists_split rfl
    exact hfollows.dead w hw m hm

end Dfa
end Reparse.Lexer

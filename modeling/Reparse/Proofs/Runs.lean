import Reparse.Proofs.Patterns

/-! # Runs of the automata of rules -/
namespace Reparse.Data

/-! ## Reachability -/

/-- What is found and what still waits on the stack. -/
structure Found.Pending (n : Nat) (next : Nat → List Nat) (found : Found) (stack : List Nat) :
    Prop where
  members : ∀ s, s ∈ found.members ↔ s ∈ found.set
  closed : ∀ s ∈ found.set, ∀ t ∈ next s, t < n → t ∈ found.set ∨ t ∈ stack

variable {n : Nat} {next : Nat → List Nat} {found : Found} {stack seeds : List Nat}

private theorem pending_reachFrom (h : found.Pending n next stack) :
    (reachFrom n next found stack).Pending n next [] ∧
      (∀ s ∈ found.set, s ∈ (reachFrom n next found stack).set) ∧
      ∀ s ∈ stack, s < n → s ∈ (reachFrom n next found stack).set := by
  fun_induction reachFrom n next found stack with
  | case1 found => exact ⟨h, fun s hs => hs, nofun⟩
  | case2 found s stack hnew ih =>
    have hpending : Found.Pending n
        next ⟨found.set.insert s, s :: found.members⟩ (next s ++ stack) := by
      refine ⟨fun q => ?_, fun q hq t ht hlt => ?_⟩
      · rw [List.mem_cons, BitSet.mem_insert, h.members]
      · rcases BitSet.mem_insert.1 hq with rfl | hq
        · exact .inr (List.mem_append_left _ ht)
        · rcases h.closed q hq t ht hlt with hfound | hwaits
          · exact .inl (BitSet.mem_insert.2 (.inr hfound))
          · rcases List.mem_cons.1 hwaits with rfl | hwaits
            · exact .inl (BitSet.mem_insert.2 (.inl rfl))
            · exact .inr (List.mem_append_right _ hwaits)
    obtain ⟨hdone, hkept, hstack⟩ := ih hpending
    refine ⟨hdone, fun q hq => hkept q (BitSet.mem_insert.2 (.inr hq)), fun q hq hlt => ?_⟩
    rcases List.mem_cons.1 hq with rfl | hq
    · exact hkept q (BitSet.mem_insert.2 (.inl rfl))
    · exact hstack q (List.mem_append_right _ hq) hlt
  | case3 found s stack hold ih =>
    have hfound {q : Nat} (hq : q = s) (hlt : q < n) : q ∈ found.set := by
      by_contra hnot
      exact hold ⟨hq ▸ hlt, hq ▸ hnot⟩
    have hpending : Found.Pending n next found stack := by
      refine ⟨h.members, fun q hq t ht hlt => ?_⟩
      rcases h.closed q hq t ht hlt with hin | hwaits
      · exact .inl hin
      · rcases List.mem_cons.1 hwaits with heq | hwaits
        · exact .inl (hfound heq hlt)
        · exact .inr hwaits
    obtain ⟨hdone, hkept, hstack⟩ := ih hpending
    refine ⟨hdone, hkept, fun q hq hlt => ?_⟩
    rcases List.mem_cons.1 hq with heq | hq
    · exact hkept q (hfound heq hlt)
    · exact hstack q hq hlt

/-- Only what is reachable is found. -/
theorem reachFrom_induction {P : Nat → Prop} (hfound : ∀ s ∈ found.set, P s)
    (hstack : ∀ s ∈ stack, s < n → P s) (hnext : ∀ s, P s → ∀ t ∈ next s, t < n → P t) :
    ∀ s ∈ (reachFrom n next found stack).set, P s := by
  fun_induction reachFrom n next found stack with
  | case1 found => exact hfound
  | case2 found s stack hnew ih =>
    have hs : P s := hstack s List.mem_cons_self hnew.1
    refine ih (fun q hq => ?_) (fun q hq hlt => ?_)
    · rcases BitSet.mem_insert.1 hq with rfl | hq
      · exact hs
      · exact hfound q hq
    · rcases List.mem_append.1 hq with hq | hq
      · exact hnext s hs q hq hlt
      · exact hstack q (List.mem_cons_of_mem _ hq) hlt
  | case3 found s stack hold ih => exact ih hfound fun q hq => hstack q (List.mem_cons_of_mem _ hq)

private theorem pending_reach (n : Nat) (next : Nat → List Nat) (seeds : List Nat) :
    (reach n next seeds).Pending n next [] ∧ ∀ s ∈ seeds, s < n → s ∈ (reach n next seeds).set := by
  have hstart : Found.Pending n next ⟨.empty, []⟩ seeds :=
    ⟨fun s => by simp, fun s hs => absurd hs (BitSet.not_mem_empty s)⟩
  obtain ⟨hdone, -, hseeds⟩ := pending_reachFrom hstart
  exact ⟨hdone, hseeds⟩

end Reparse.Data

namespace Reparse.Lexer
open Data

/-! ## Rules side by side -/

/-- The automata of rules, each with its own stop state. -/
structure Wired (rules : List (Pattern × Nat)) (fresh : Nat)
    (r : Nat × List Edge × List (Nat × Nat)) : Prop where
  le : fresh ≤ r.1
  sources : ∀ e ∈ r.2.1, e.source = 0 ∨ fresh ≤ e.source ∧ e.source < r.1
  targets : ∀ e ∈ r.2.1, fresh ≤ e.target ∧ e.target < r.1
  distinct : (r.2.2.map (·.1)).Nodup
  reads : List.Forall₂ (fun rule a => a.2 = rule.2 ∧ (fresh ≤ a.1 ∧ a.1 < r.1) ∧
    reads (· ∈ r.2.1) a.1 0 = rule.1.language) rules r.2.2

variable {rules : List (Pattern × Nat)} {fresh : Nat}

private theorem Wired.stops {r : Nat × List Edge × List (Nat × Nat)} (h : Wired rules fresh r)
    {a : Nat × Nat} (ha : a ∈ r.2.2) :
    fresh ≤ a.1 ∧ a.1 < r.1 := by
  obtain ⟨hlength, hall⟩ := List.forall₂_iff_get.1 h.reads
  obtain ⟨n, hn, rfl⟩ := List.getElem_of_mem ha
  exact (hall n (hlength ▸ hn) hn).2.1

/-- One rule more, before the others. -/
private theorem Wired.cons {p : Pattern} {number : Nat} {piece : Nat × List Edge}
    {r : Nat × List Edge × List (Nat × Nat)} (hfresh : 0 < fresh)
    (h₁ : Fragment fresh (fresh + 1) (fresh + 2) piece p.language) (h₂ : Wired rules piece.1 r) :
    Wired ((p, number) :: rules) fresh
      (r.1, ⟨0, none, fresh⟩ :: (piece.2 ++ r.2.1), (fresh + 1, number) :: r.2.2) := by
  have hle₁ := h₁.le
  have hle₂ := h₂.le
  have hcases {e : Edge} (he : e ∈ (⟨0, none, fresh⟩ : Edge) :: (piece.2 ++ r.2.1)) :
      e = ⟨0, none, fresh⟩ ∨ e ∈ piece.2 ∨ e ∈ r.2.1 := by
    simpa only [List.mem_cons, List.mem_append] using he
  constructor
  case le => exact Nat.le_trans (by omega) hle₂
  case sources =>
    intro e he
    rcases hcases he with rfl | he | he
    · exact .inl rfl
    · have := h₁.sources e he
      omega
    · have := h₂.sources e he
      omega
  case targets =>
    intro e he
    rcases hcases he with rfl | he | he
    · exact ⟨Nat.le_refl _, by dsimp only; omega⟩
    · have := h₁.targets e he
      omega
    · have := h₂.targets e he
      omega
  case distinct =>
    refine List.nodup_cons.2 ⟨fun hmem => ?_, h₂.distinct⟩
    obtain ⟨a, ha, heq⟩ := List.mem_map.1 hmem
    have := h₂.stops ha
    simp only at heq
    omega
  case reads =>
    refine .cons ⟨rfl, ⟨Nat.le_succ _, by dsimp only; omega⟩, le_antisymm ?_ ?_⟩ (h₂.reads.imp ?_)
    · have hrespects : Respects (· ∈ (⟨0, none, fresh⟩ : Edge) :: (piece.2 ++ r.2.1)) fun s =>
          if s = 0 then p.language else if s <
            piece.1 then Lexer.reads (· ∈ piece.2) (fresh + 1) s else 0 := by
        intro e he
        rcases hcases he with rfl | he | he
        · simp only [if_true, if_neg (show ¬ fresh = 0 by omega),
            if_pos (show fresh < piece.1 by omega), h₁.reads, Edge.language, one_mul]
          exact le_refl _
        · have hsource := h₁.sources e he
          have htarget := h₁.targets e he
          simp only [if_neg (show ¬ e.source = 0 by omega), if_neg (show ¬ e.target = 0 by omega),
            if_pos (show e.source < piece.1 by omega), if_pos (show e.target < piece.1 by omega)]
          exact respects_reads (· ∈ piece.2) (fresh + 1) e he
        · have htarget := h₂.targets e he
          simp only [if_neg (show ¬ e.target = 0 by omega),
            if_neg (show ¬ e.target < piece.1 by omega), mul_zero]
          exact bot_le
      have hle := hrespects.reads_le (s := 0) (t := fresh + 1)
        (by rw [if_neg (by omega), if_pos (by omega)]; exact one_le_reads _ _)
      rwa [if_pos rfl] at hle
    · rw [← h₁.reads]
      exact fun w hw => Path.silent List.mem_cons_self (Path.mono (fun e he => by simp [he]) hw)
    · rintro rule a ⟨hrule, hstop, hreads⟩
      refine ⟨hrule, ⟨by omega, hstop.2⟩, ?_⟩
      rw [← hreads]
      refine le_antisymm ?_ fun w hw => Path.mono (fun e he => by simp [he]) hw
      -- the new rule has no way to this stop state
      have hrespects : Respects (· ∈ (⟨0, none, fresh⟩ : Edge) :: (piece.2 ++ r.2.1)) fun s =>
          if fresh ≤ s ∧ s < piece.1 then 0 else Lexer.reads (· ∈ r.2.1) a.1 s := by
        intro e he
        rcases hcases he with rfl | he | he
        · simp only [if_pos (show fresh ≤ fresh ∧ fresh < piece.1 by omega), mul_zero]
          exact bot_le
        · have htarget := h₁.targets e he
          simp only [if_pos (show fresh ≤ e.target ∧ e.target < piece.1 by omega), mul_zero]
          exact bot_le
        · have hsource := h₂.sources e he
          have htarget := h₂.targets e he
          simp only [if_neg (show ¬ (fresh ≤ e.source ∧ e.source < piece.1) by omega),
            if_neg (show ¬ (fresh ≤ e.target ∧ e.target < piece.1) by omega)]
          exact respects_reads (· ∈ r.2.1) a.1 e he
      have hle := hrespects.reads_le (s := 0) (t := a.1)
        (by rw [if_neg (by omega)]; exact one_le_reads _ _)
      rwa [if_neg (by omega)] at hle

private theorem wired_wireRules (rules : List (Pattern × Nat)) (hfresh : 0 < fresh) :
    Wired rules fresh (Nfa.wireRules rules fresh) := by
  induction rules generalizing fresh with
  | nil => exact ⟨Nat.le_refl _, nofun, nofun, List.nodup_nil, .nil⟩
  | cons rule rest ih =>
    obtain ⟨p, number⟩ := rule
    have h₁ := Pattern.wires_wire p fresh (fresh + 1) (fresh + 2) (by omega) (by omega) (by omega)
    have hle₁ := h₁.le
    exact Wired.cons hfresh h₁ (ih (by omega))

namespace Nfa

variable {nfa : Nfa} {e e' : Edge} {edges : List Edge} {s : Nat}

/-! ## Edges of an automaton -/

/-- The automaton has the edge. -/
def HasEdge (nfa : Nfa) (e : Edge) : Prop := ∃ st, nfa[e.source]? = some st ∧ match e.label with
  | none => e.target ∈ st.silent
  | some r => (r.1, r.2, e.target) ∈ st.moves

/-- The rule that a state accepts. -/
def acceptOf (nfa : Nfa) (s : Nat) : Option Nat := nfa[s]?.bind (·.accept)

private theorem hasEdge_addEdge :
    (nfa.addEdge e').HasEdge e ↔ nfa.HasEdge e ∨ e = e' ∧ e.source < nfa.size := by
  obtain ⟨source, label, target⟩ := e
  obtain ⟨source', label', target'⟩ := e'
  unfold HasEdge addEdge
  simp only [Array.getElem?_modify, Edge.mk.injEq]
  by_cases hs : source' = source
  · subst hs
    rw [if_pos rfl]
    by_cases hlt : source' < nfa.size
    · simp only [Array.getElem?_eq_getElem hlt, Option.map_some, Option.some.injEq, exists_eq_left',
        hlt, and_true, true_and]
      cases label' with
      | none =>
        cases label with
        | none => simp [or_comm]
        | some r => simp
      | some r' =>
        cases label with
        | none => simp
        | some r =>
          obtain ⟨lo, hi⟩ := r
          obtain ⟨lo', hi'⟩ := r'
          simp only [List.mem_cons, Prod.mk.injEq, Option.some.injEq, and_assoc, or_comm]
    · simp [hlt]
  · rw [if_neg hs]
    simp [Ne.symm hs]

private theorem size_addEdge : (nfa.addEdge e).size = nfa.size := Array.size_modify ..

private theorem acceptOf_addEdge : (nfa.addEdge e).acceptOf s = nfa.acceptOf s := by
  unfold acceptOf addEdge
  rw [Array.getElem?_modify]
  split
  · cases nfa[s]? with
    | none => rfl
    | some st =>
      simp only [Option.map_some, Option.bind_some]
      split <;> rfl
  · rfl

private theorem foldl_addEdge (edges : List Edge) (nfa : Nfa) :
    (edges.foldl addEdge nfa).size = nfa.size ∧
    (∀ e, (edges.foldl addEdge nfa).HasEdge e ↔ nfa.HasEdge e ∨ e ∈ edges ∧ e.source < nfa.size) ∧
    ∀ s, (edges.foldl addEdge nfa).acceptOf s = nfa.acceptOf s := by
  induction edges generalizing nfa with
  | nil => exact ⟨rfl, by simp, fun _ => rfl⟩
  | cons e' rest ih =>
    obtain ⟨hsize, hedges, haccept⟩ := ih (nfa.addEdge e')
    rw [size_addEdge] at hsize hedges
    refine ⟨hsize, fun e => ?_, fun s => (haccept s).trans acceptOf_addEdge⟩
    rw [List.foldl_cons, hedges, hasEdge_addEdge, List.mem_cons]
    tauto

/-- Makes a state accept a rule. -/
def accepting (nfa : Nfa) (a : Nat × Nat) : Nfa :=
  nfa.modify a.1 fun s => { s with accept := some a.2 }

private theorem hasEdge_accepting {a : Nat × Nat} :
    (nfa.accepting a).HasEdge e ↔ nfa.HasEdge e := by
  unfold HasEdge accepting
  rw [Array.getElem?_modify]
  split
  · next hs =>
    cases nfa[e.source]? with
    | none => simp
    | some st => simp
  · rfl

private theorem acceptOf_accepting {a : Nat × Nat} : (nfa.accepting a).acceptOf s =
    if s = a.1 ∧ s < nfa.size then some a.2 else nfa.acceptOf s := by
  unfold acceptOf accepting
  rw [Array.getElem?_modify]
  by_cases hs : a.1 = s
  · subst hs
    by_cases hlt : a.1 < nfa.size
    · simp [hlt]
    · simp [hlt]
  · rw [if_neg hs, if_neg fun h => hs h.1.symm]

private theorem foldl_accepting (accepts : List (Nat × Nat)) (hdistinct : (accepts.map (·.1)).Nodup)
    (nfa : Nfa) :
    (accepts.foldl accepting nfa).size = nfa.size ∧
      (∀ e, (accepts.foldl accepting nfa).HasEdge e ↔ nfa.HasEdge e) ∧
    ∀ s r, (accepts.foldl accepting nfa).acceptOf s = some r ↔
      (s, r) ∈ accepts ∧ s < nfa.size ∨ (s ∉ accepts.map (·.1) ∨ nfa.size ≤ s) ∧
        nfa.acceptOf s = some r := by
  induction accepts generalizing nfa with
  | nil => exact ⟨rfl, fun _ => Iff.rfl, by simp⟩
  | cons a rest ih =>
    obtain ⟨hfirst, hrest⟩ := List.nodup_cons.1 hdistinct
    obtain ⟨hsize, hedges, haccept⟩ := ih hrest (nfa.accepting a)
    have hsame : (nfa.accepting a).size = nfa.size := Array.size_modify ..
    rw [hsame] at hsize haccept
    refine ⟨hsize, fun e => (hedges e).trans hasEdge_accepting, fun s r => ?_⟩
    rw [List.foldl_cons, haccept, acceptOf_accepting]
    obtain ⟨stop, rule⟩ := a
    simp only [List.mem_cons, List.map_cons, Prod.mk.injEq, not_or]
    by_cases hs : s = stop
    · subst hs
      have hnot (r : Nat) : (s, r) ∉ rest := fun h => hfirst (List.mem_map_of_mem (f := (·.1)) h)
      by_cases hlt : s < nfa.size
      · simp [hlt, hnot, hfirst, eq_comm, Nat.not_le.2 hlt]
      · simp [hlt, hnot, Nat.le_of_not_lt hlt]
    · simp [hs]

/-- The automaton of rules, state by state. -/
structure Runs (nfa : Nfa) (rules : List (Pattern × Nat)) : Prop where
  nonempty : 0 < nfa.size
  targets : ∀ e, nfa.HasEdge e → e.target < nfa.size
  accepted : ∀ w r, (∃ s, Path nfa.HasEdge 0 w s ∧ nfa.acceptOf s = some r) ↔
    ∃ p, (p, r) ∈ rules ∧ w ∈ p.language

theorem runs_ofRules (rules : List (Pattern × Nat)) : (ofRules rules).Runs rules := by
  have hwired := wired_wireRules rules (show 0 < 1 by decide)
  have hle := hwired.le
  unfold ofRules
  generalize wireRules rules 1 = r at hwired hle ⊢
  obtain ⟨size, edges, accepts⟩ := r
  simp only at hwired hle ⊢
  change Runs (accepts.foldl accepting (edges.foldl addEdge (Array.replicate size {}))) rules
  obtain ⟨hsize, hedges, haccept⟩ := foldl_addEdge edges (Array.replicate size {})
  obtain ⟨hsize', hedges', haccept'⟩ :=
    foldl_accepting accepts hwired.distinct (edges.foldl addEdge (Array.replicate size {}))
  rw [hsize, Array.size_replicate] at hsize'
  have hedge (e : Edge) : HasEdge
      (accepts.foldl accepting (edges.foldl addEdge (Array.replicate size {}))) e ↔ e ∈ edges := by
    have hnone : ¬ HasEdge (Array.replicate size {}) e := by
      rintro ⟨st, hst, hmem⟩
      rw [Array.getElem?_replicate] at hst
      split at hst
      · obtain rfl := Option.some.inj hst
        split at hmem <;> contradiction
      · contradiction
    rw [hedges', hedges, Array.size_replicate]
    refine ⟨fun h => (h.resolve_left hnone).1, fun h => .inr ⟨h, ?_⟩⟩
    rcases hwired.sources e h with hsource | hsource
    · rw [hsource]
      exact hle
    · exact hsource.2
  have hpred : HasEdge (accepts.foldl accepting (edges.foldl addEdge (Array.replicate size {}))) =
      (· ∈ edges) :=
    funext fun e => propext (hedge e)
  have haccepts (s rule : Nat) : acceptOf
      (accepts.foldl accepting (edges.foldl addEdge (Array.replicate size {}))) s = some rule ↔
        (s, rule) ∈ accepts := by
    have hnone : acceptOf (Array.replicate size {}) s = none := by
      unfold acceptOf
      rw [Array.getElem?_replicate]
      split <;> rfl
    rw [haccept', haccept, hnone, hsize, Array.size_replicate]
    constructor
    · rintro (h | ⟨-, h⟩)
      · exact h.1
      · contradiction
    · exact fun h => .inl ⟨h, (hwired.stops h).2⟩
  refine ⟨by rw [hsize']; exact hle, fun e he => ?_, fun w rule => ?_⟩
  · rw [hsize']
    exact (hwired.targets e ((hedge e).1 he)).2
  · simp only [haccepts, hpred]
    obtain ⟨hlength, hall⟩ := List.forall₂_iff_get.1 hwired.reads
    constructor
    · rintro ⟨s, hw, hs⟩
      obtain ⟨n, hn, hget⟩ := List.getElem_of_mem hs
      obtain ⟨hrule, -, hreads⟩ := hall n (hlength ▸ hn) hn
      simp only [List.get_eq_getElem, hget] at hrule hreads
      rw [← mem_reads, hreads] at hw
      refine ⟨_, ?_, hw⟩
      rw [hrule]
      exact List.getElem_mem _
    · rintro ⟨p, hp, hw⟩
      obtain ⟨n, hn, hget⟩ := List.getElem_of_mem hp
      obtain ⟨hrule, -, hreads⟩ := hall n hn (hlength ▸ hn)
      simp only [List.get_eq_getElem, hget] at hrule hreads
      rw [← hreads, mem_reads] at hw
      refine ⟨_, hw, ?_⟩
      rw [← hrule]
      exact List.getElem_mem _

/-! ## Closures over silent edges -/

private theorem hasEdge_silent {t : Nat} :
    nfa.HasEdge ⟨s, none, t⟩ ↔ t ∈ (nfa[s]?.map (·.silent)).getD [] := by
  unfold HasEdge
  cases nfa[s]? with
  | none => simp
  | some st => simp

theorem mem_closure_members (seeds : List Nat) :
    s ∈ (nfa.closure seeds).members ↔ s ∈ (nfa.closure seeds).set :=
  (pending_reach _ _ seeds).1.members s

/-- The closure has the states that are reached without reading anything. -/
theorem mem_closure {seeds : List Nat} (htargets : ∀ e, nfa.HasEdge e → e.target < nfa.size)
    (hseeds : ∀ q ∈ seeds, q < nfa.size) :
    s ∈ (nfa.closure seeds).set ↔ ∃ q ∈ seeds, Path nfa.HasEdge q [] s := by
  obtain ⟨hpending, hin⟩ := pending_reach nfa.size (fun s => (nfa[s]?.map (·.silent)).getD []) seeds
  constructor
  · refine reachFrom_induction (P := fun s => ∃ q ∈ seeds, Path nfa.HasEdge q [] s)
      (fun q hq => absurd hq (BitSet.not_mem_empty q)) (fun q hq _ => ⟨q, hq, .nil⟩)
      (fun q hq t ht _ => ?_) s
    obtain ⟨q₀, hq₀, hpath⟩ := hq
    exact ⟨q₀, hq₀, hpath.append (Path.silent (hasEdge_silent.2 ht) .nil)⟩
  · rintro ⟨q, hq, hpath⟩
    have hstart := hin q hq (hseeds q hq)
    clear hq
    generalize hw : ([] : List UInt8) = w at hpath
    induction hpath with
    | nil => exact hstart
    | @step e u w t he hu rest ih =>
      obtain ⟨rfl, rfl⟩ := List.append_eq_nil_iff.1 hw.symm
      refine ih ?_ rfl
      have hlabel : e = ⟨e.source, none, e.target⟩ := by
        obtain ⟨source, label, target⟩ := e
        cases label with
        | none => rfl
        | some r =>
          obtain ⟨b, -, -, hb⟩ := hu
          contradiction
      have hsilent := hasEdge_silent.1 (hlabel ▸ he)
      exact (hpending.closed _ hstart _ hsilent (htargets e he)).resolve_right List.not_mem_nil

end Nfa
end Reparse.Lexer

import Reparse.Proofs.Brackets
import Reparse.Proofs.Closure

/-! # FIRST sets know nothing but beginnings of derivations -/
namespace Reparse.Table
open Data Grammar

namespace First

variable {g : Flat} {f : First} {n m : Nat} {lhs : Kind} {steps : List Step}

/-- Whatever the table knows of a symbol is derived from it. -/
structure Sound (g : Flat) (f : First) : Prop where
  first : ∀ k, ∀ t ∈ f.firstOf k, ∃ w, Derives g [k] (⟨t⟩ :: w)
  nullable : ∀ k, f.isNullable k = true → Derives g [k] []

private theorem sound_start (g : Flat) : Sound g (start g) := by
  constructor
  · intro k t ht
    rw [firstOf_start] at ht
    split at ht
    · rw [BitSet.mem_singleton.1 ht]
      exact ⟨[], .refl⟩
    · exact absurd ht (BitSet.not_mem_empty t)
  · intro k hk
    simp only [isNullable, start, Array.getElem?_replicate] at hk
    split at hk <;> contradiction

/-- The same for a sequence of steps. -/
theorem Sound.ofSteps (h : Sound g f) (steps : List Step) :
    (∀ t ∈ (f.ofSteps steps).1, ∃ w, Derives g (steps.map (·.symbol)) (⟨t⟩ :: w)) ∧
      ((f.ofSteps steps).2 = true → Derives g (steps.map (·.symbol)) []) := by
  induction steps with
  | nil => exact ⟨fun t ht => absurd ht (BitSet.not_mem_empty t), fun _ => .refl⟩
  | cons s rest ih =>
    have here : ∀ t ∈ f.firstOf s.symbol, ∃ w,
        Derives g ((s :: rest).map (·.symbol)) (⟨t⟩ :: w) := by
      intro t ht
      obtain ⟨w, hw⟩ := h.first _ t ht
      exact ⟨_, hw.append (.refl (a := rest.map (·.symbol)))⟩
    rw [First.ofSteps]
    split
    · next hnull =>
      have hskip {v : List Kind} (hv : Derives g (rest.map (·.symbol)) v) :
          Derives g ((s :: rest).map (·.symbol)) v := (h.nullable _ hnull).append hv
      refine ⟨fun t ht => ?_, fun hrest => hskip (ih.2 hrest)⟩
      rcases BitSet.mem_union.1 ht with ht | ht
      · exact here t ht
      · obtain ⟨w, hw⟩ := ih.1 t ht
        exact ⟨w, hskip hw⟩
    · exact ⟨here, fun hnone => absurd hnone Bool.false_ne_true⟩

private theorem isNullable_of_set {k : Kind}
    (h : ({ f with nullable := f.nullable.setIfInBounds lhs.id true } : First).isNullable k =
      true) :
    k = lhs ∨ f.isNullable k = true := by
  simp only [isNullable, Array.getElem?_setIfInBounds] at h
  split at h
  · next heq =>
    cases k
    cases lhs
    exact .inl (congrArg Kind.mk heq.symm)
  · exact .inr h

/-- Absorbing adds what is derived, as long as the symbol derives the steps. -/
private theorem Sound.absorb (h : Sound g f) (hf : f.Sized n m) (hlhs : lhs.id < n)
    (hsteps : Derives g [lhs] (steps.map (·.symbol))) : Sound g (f.absorb lhs steps) := by
  induction steps generalizing f with
  | nil =>
    refine ⟨h.first, fun k hk => ?_⟩
    rcases isNullable_of_set hk with rfl | hk
    · exact hsteps
    · exact h.nullable k hk
  | cons s rest ih =>
    have hadded :
        Sound g { f with first := f.first.modify lhs.id (·.union (f.firstOf s.symbol)) } := by
      refine ⟨fun k t ht => ?_, h.nullable⟩
      rw [firstOf_modify hf lhs k _ hlhs] at ht
      split at ht
      · next heq =>
        subst heq
        rcases BitSet.mem_union.1 ht with ht | ht
        · exact h.first _ t ht
        · obtain ⟨w, hw⟩ := h.first _ t ht
          exact ⟨_, hsteps.trans (hw.append (.refl (a := rest.map (·.symbol))))⟩
      · exact h.first k t ht
    rw [absorb_cons]
    split
    · next hnull =>
      exact ih hadded (sized_modify hf hlhs (hf.below _))
        (hsteps.trans ((h.nullable _ hnull).append (.refl (a := rest.map (·.symbol)))))
    · exact hadded

section
variable (hg : g.WellFormed)
include hg

private theorem lhs_lt {p : Production} (hp : p ∈ g.productions.toList) :
    p.lhs.id < g.symbols.size := by
  obtain ⟨q, hq⟩ := Array.getElem?_of_mem (Array.mem_toList_iff.1 hp)
  exact (hg.lhs q p hq).2

private theorem Sound.pass (h : Sound g f) (hf : f.Sized g.symbols.size m) :
    Sound g (pass g f) ∧ (First.pass g f).Sized g.symbols.size m := by
  have key (ps : List Production) (hps : ps ⊆ g.productions.toList) (f : First) (h : Sound g f)
      (hf : f.Sized g.symbols.size m) :
      Sound g (ps.foldl (fun f p => f.absorb p.lhs p.steps) f) := by
    induction ps generalizing f with
    | nil => exact h
    | cons p rest ih =>
      have hp := hps List.mem_cons_self
      have hlhs := lhs_lt hg hp
      obtain ⟨q, hq⟩ := Array.getElem?_of_mem (Array.mem_toList_iff.1 hp)
      exact ih (fun x hx => hps (List.mem_cons_of_mem _ hx)) _
        (h.absorb hf hlhs (derives_of_production hq)) (absorb_spec hf hlhs p.steps).1
  rw [pass_eq]
  exact ⟨key _ (List.Subset.refl _) f h hf, (foldl_absorb_spec hf fun p hp => lhs_lt hg hp).1⟩

private theorem Sound.saturate (h : Sound g f) (hf : f.Sized g.symbols.size m) (fuel : Nat) :
    Sound g (saturate g fuel f) := by
  induction fuel generalizing f with
  | zero => exact h
  | succ fuel ih =>
    obtain ⟨hpass, hsized⟩ := h.pass hg hf
    rw [First.saturate]
    split
    · exact h
    · exact ih hpass hsized

private theorem sound_compute : Sound g (compute g) := (sound_start g).saturate hg (sized_start g) _

/-- The passes come to an end. -/
theorem pass_compute : First.pass g (compute g) = compute g :=
  (saturate_spec (fun _ hp => lhs_lt hg hp) (sized_start g) (Nat.lt_succ_of_le (missing_le ..))).2.2

private theorem terminalCount_le : g.terminalCount ≤ g.symbols.size := by
  obtain ⟨hle, hvisible⟩ := hg.start
  have hlt : g.start.id < g.symbols.size := by
    by_contra hge
    rw [Array.getElem?_eq_none (Nat.le_of_not_lt hge)] at hvisible
    contradiction
  exact Nat.le_of_lt (Nat.lt_of_le_of_lt hle hlt)

/-- A terminal is known to come first exactly if a derivation of the steps begins with it. -/
theorem mem_ofSteps_iff (t : Nat) : t ∈ ((compute g).ofSteps steps).1 ↔
    g.isTerminal ⟨t⟩ = true ∧ ∃ w, Derives g (steps.map (·.symbol)) (⟨t⟩ :: w) := by
  have hexact := exact_compute hg
  constructor
  · intro ht
    have hbelow : t < g.terminalCount := Items.below_ofSteps hexact steps t ht
    exact ⟨by simpa [Flat.isTerminal] using hbelow, ((sound_compute hg).ofSteps steps).1 t ht⟩
  · rintro ⟨hterminal, w, hw⟩
    have hlt : t < g.terminalCount := by simpa [Flat.isTerminal] using hterminal
    exact mem_ofSteps (hexact.begins (Nat.lt_of_lt_of_le hlt (terminalCount_le hg)) hterminal
      (yields_of_derives hw))

/-- Steps are known to be nullable exactly if they derive nothing. -/
theorem nullable_ofSteps_iff :
    ((compute g).ofSteps steps).2 = true ↔ Derives g (steps.map (·.symbol)) [] :=
  ⟨((sound_compute hg).ofSteps steps).2,
    fun h => nullable_ofSteps ((exact_compute hg).vanishes (yields_of_derives h))⟩
end

/-- Saturation is a number of passes. -/
private theorem exists_iterate_saturate (g : Flat) (fuel : Nat) (f : First) :
    ∃ n, saturate g fuel f = (First.pass g)^[n] f := by
  induction fuel generalizing f with
  | zero => exact ⟨0, rfl⟩
  | succ fuel ih =>
    rw [First.saturate]
    split
    · exact ⟨0, rfl⟩
    · obtain ⟨n, hn⟩ := ih (First.pass g f)
      exact ⟨n + 1, hn⟩

/-- After finitely many passes nothing changes any more. Then, at every place in a production, the
table knows the terminals that derivations of the symbols from there on begin with, and whether they
derive nothing. -/
theorem compute_exact {d : Draft} {grammar : Grammar} (hvalid : d.validate = .ok grammar)
    (hflat : flatten grammar = .ok g) :
    (∃ n, compute g = (First.pass g)^[n] (start g) ∧ First.pass g (compute g) = compute g) ∧
      ∀ (q : Nat) (p : Production), g.productions[q]? = some p → ∀ dot ≤ p.steps.length,
        (∀ t, t ∈ ((compute g).ofSteps (g.stepsFrom q dot)).1 ↔ g.isTerminal ⟨t⟩ = true ∧
          ∃ w, Derives g ((p.steps.drop dot).map (·.symbol)) (⟨t⟩ :: w)) ∧
        (((compute g).ofSteps (g.stepsFrom q dot)).2 = true ↔
          Derives g ((p.steps.drop dot).map (·.symbol)) []) := by
  have hg : g.WellFormed := wellFormed_of_flatten (Draft.valid_of_validate hvalid) hflat
  constructor
  · obtain ⟨n, hn⟩ :=
      exists_iterate_saturate g (g.symbols.size * (g.terminalCount + 1) + 1) (start g)
    exact ⟨n, hn, pass_compute hg⟩
  · intro q p hp dot _
    have hsteps : g.stepsFrom q dot = p.steps.drop dot := by rw [Flat.stepsFrom, hp]; rfl
    rw [hsteps]
    exact ⟨mem_ofSteps_iff hg, nullable_ofSteps_iff hg⟩

/-- Behind an opening bracket there is some bracket. The body alone may be nothing. -/
theorem compute_exact_brackets :
    (∃ n, compute Brackets.flat = (First.pass Brackets.flat)^[n] (start Brackets.flat) ∧
        First.pass Brackets.flat (compute Brackets.flat) = compute Brackets.flat) ∧
      (∀ t, t = 2 ∨ t = 3 ↔ Brackets.flat.isTerminal ⟨t⟩ = true ∧
        ∃ w, Derives Brackets.flat [⟨6⟩, ⟨3⟩] (⟨t⟩ :: w)) ∧
      ¬ Derives Brackets.flat [⟨6⟩, ⟨3⟩] [] ∧ Derives Brackets.flat [⟨6⟩] [] := by
  obtain ⟨hpasses, hplaces⟩ := compute_exact Brackets.valid Brackets.flattened
  rw [Brackets.first_eq] at hplaces
  obtain ⟨hbegins, hvanishes⟩ := hplaces 4 _ rfl 1 (by decide)
  obtain ⟨-, hnothing⟩ := hplaces 1 _ rfl 0 (by decide)
  have hfound : Brackets.first.ofSteps (Brackets.flat.stepsFrom 4 1) =
      ((BitSet.singleton 3).insert 2, false) := rfl
  rw [hfound] at hbegins hvanishes
  refine ⟨hpasses, fun t => ?_, fun h => absurd (hvanishes.2 h) (by decide), hnothing.1 rfl⟩
  rw [← @BitSet.mem_singleton t 3, ← BitSet.mem_insert]
  exact hbegins t

end First
end Reparse.Table

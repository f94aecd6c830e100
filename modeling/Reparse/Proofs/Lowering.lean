import Reparse.Grammar.Lowering
import Reparse.Proofs.Validation

/-! # Lowered rules use declared symbols only -/
namespace Reparse.Grammar.Lowering
open Lexer (Pattern)

/-- A symbol below `n` that may stand on a right-hand side. The accepting symbol `a` may not. -/
structure Usable (a n : Nat) (k : Kind) : Prop where
  proper : 2 ≤ k.id
  below : k.id < n
  other : k.id ≠ a

private theorem Usable.mono {a n m : Nat} {k : Kind} (h : Usable a n k) (hle : n ≤ m) :
    Usable a m k :=
  ⟨h.proper, Nat.lt_of_lt_of_le h.below hle, h.other⟩

def AllUsable (a n : Nat) (alts : List Alternative) : Prop :=
  ∀ alt ∈ alts, ∀ s ∈ alt.steps, Usable a n s.symbol

variable {a n m : Nat}

private theorem AllUsable.mono {alts : List Alternative} (h : AllUsable a n alts) (hle : n ≤ m) :
    AllUsable a m alts :=
  fun alt halt s hs => (h alt halt s hs).mono hle

theorem AllUsable.append {alts others : List Alternative} (h : AllUsable a n alts)
    (ho : AllUsable a n others) :
    AllUsable a n (alts ++ others) := by
  intro alt halt
  rcases List.mem_append.1 halt with halt | halt
  · exact h alt halt
  · exact ho alt halt

theorem AllUsable.subset {alts others : List Alternative} (h : AllUsable a n alts)
    (hsub : others ⊆ alts) :
    AllUsable a n others := fun alt halt => h alt (hsub halt)

theorem allUsable_empty (c : Context) : AllUsable a n [.empty c] := by
  intro alt halt s hs
  rw [List.mem_singleton.1 halt] at hs
  contradiction

private theorem allUsable_single {k : Kind} (h : Usable a n k) (c : Context) :
    AllUsable a n [.single k c] := by
  intro alt halt s hs
  rw [List.mem_singleton.1 halt] at hs
  rw [List.mem_singleton.1 hs]
  exact h

private theorem AllUsable.product {alts others : List Alternative} (h : AllUsable a n alts)
    (ho : AllUsable a n others) :
    AllUsable a n (alts.flatMap fun x => others.map x.append) := by
  intro alt halt s hs
  obtain ⟨x, hx, halt⟩ := List.mem_flatMap.1 halt
  obtain ⟨y, hy, rfl⟩ := List.mem_map.1 halt
  rcases List.mem_append.1 hs with hs | hs
  · exact h x hx s hs
  · exact ho y hy s hs

theorem distinct_of_nodup {alts : List Alternative} {seen : Std.HashSet (List Step)}
    (h : (alts.map (·.steps)).Nodup) (hseen : ∀ a ∈ alts, ¬ a.steps ∈ seen) :
    Alternative.distinct seen alts = alts := by
  induction alts generalizing seen with
  | nil => rfl
  | cons a rest ih =>
    rw [List.map_cons, List.nodup_cons] at h
    rw [Alternative.distinct, if_neg (by simpa using hseen a List.mem_cons_self)]
    refine congrArg (a :: ·) (ih h.2 fun b hb => ?_)
    rw [Std.HashSet.mem_insert]
    rintro (heq | hmem)
    · exact h.1 (List.mem_map.2 ⟨b, hb, (eq_of_beq heq).symm⟩)
    · exact hseen b (List.mem_cons_of_mem _ hb) hmem

theorem distinct_singleton (alt : Alternative) : Alternative.distinct {} [alt] = [alt] :=
  distinct_of_nodup (List.pairwise_singleton _ _) fun _ _ => Std.HashSet.not_mem_empty

theorem sortNames_nil : sortNames [] = [] := by
  unfold sortNames
  rw [Std.HashSet.ofList_nil,
    List.isEmpty_iff.1 (Std.HashSet.isEmpty_toList.trans Std.HashSet.isEmpty_empty)]
  exact List.mergeSort_nil

theorem distinct_subset (seen : Std.HashSet (List Step)) (alts : List Alternative) :
    Alternative.distinct seen alts ⊆ alts := by
  fun_induction Alternative.distinct seen alts with
  | case1 => exact List.Subset.refl _
  | case2 seen alt rest hseen ih => exact List.subset_cons_of_subset _ ih
  | case3 seen alt rest hnew ih => exact List.cons_subset_cons _ ih

/-- Every symbol that the scope knows comes before the accepting symbol `a`. -/
structure Scope.Sound (scope : Scope) (a : Nat) : Prop where
  names : ∀ (x : String) k, scope.names[x]? = some k → 2 ≤ k.id ∧ k.id < a
  literals : ∀ (x : String) k, scope.literals[x]? = some k → 2 ≤ k.id ∧ k.id < a
  patterns : ∀ (x : Pattern) k, scope.patterns[x]? = some k → 2 ≤ k.id ∧ k.id < a

/-- The scope knows the literals and unnamed patterns of an expression. -/
structure Scope.Covers (scope : Scope) (parts : List Expr) : Prop where
  literals : ∀ x, Expr.text x ∈ parts → x ∈ scope.literals
  patterns : ∀ x, Expr.pattern x ∈ parts → x ∈ scope.patterns

theorem Scope.Covers.subset {scope : Scope} {parts others : List Expr} (h : scope.Covers parts)
    (hsub : others ⊆ parts) :
    scope.Covers others := ⟨fun x hx => h.literals x (hsub hx), fun x hx => h.patterns x (hsub hx)⟩

namespace State

/-- The productions have proper symbols, where `tc` is the number of terminals and `a` the accepting
symbol. -/
structure Sound (tc a : Nat) (st : State) : Prop where
  lhs : ∀ (q : Nat) (p : Production), st.productions[q]? = some p →
    tc ≤ p.lhs.id ∧ p.lhs.id < st.symbols.size ∧ (q ≠ 0 → p.lhs.id ≠ a)
  steps : ∀ (q : Nat) (p : Production), st.productions[q]? = some p →
    ∀ s ∈ p.steps, Usable a st.symbols.size s.symbol

/-- Symbols and productions were only added. -/
structure Extends (st st' : State) : Prop where
  symbols : ∃ more, st'.symbols = st.symbols ++ more
  productions : ∃ more, st'.productions = st.productions ++ more

theorem Extends.refl (st : State) : Extends st st := ⟨⟨#[], by simp⟩, ⟨#[], by simp⟩⟩

theorem Extends.trans {st st' st'' : State} (h : Extends st st') (h' : Extends st' st'') :
    Extends st st'' := by
  obtain ⟨⟨s, hs⟩, ⟨p, hp⟩⟩ := h
  obtain ⟨⟨s', hs'⟩, ⟨p', hp'⟩⟩ := h'
  exact ⟨⟨s ++ s', by rw [hs', hs, Array.append_assoc]⟩,
    ⟨p ++ p', by rw [hp', hp, Array.append_assoc]⟩⟩

theorem Extends.size_le {st st' : State} (h : Extends st st') :
    st.symbols.size ≤ st'.symbols.size := by
  obtain ⟨more, h⟩ := h.symbols
  rw [h, Array.size_append]
  omega

theorem extends_addAlternatives (st : State) (lhs : Kind) (alts : List Alternative) :
    Extends st (st.addAlternatives lhs alts) := by
  unfold addAlternatives
  generalize Alternative.distinct {} alts = ds
  induction ds generalizing st with
  | nil => exact .refl st
  | cons d rest ih =>
    exact Extends.trans ⟨⟨#[], by simp [addProduction]⟩, ⟨#[_], rfl⟩⟩ (ih (st.addProduction _))

theorem symbols_addAlternatives (st : State) (lhs : Kind) (alts : List Alternative) :
    (st.addAlternatives lhs alts).symbols = st.symbols := by
  unfold addAlternatives
  generalize Alternative.distinct {} alts = ds
  induction ds generalizing st with
  | nil => rfl
  | cons d rest ih => exact ih (st.addProduction _)

variable {tc : Nat} {st : State}

private theorem Sound.addProduction (h : Sound tc a st) {p : Production}
    (hlhs : tc ≤ p.lhs.id ∧ p.lhs.id < st.symbols.size) (hother : p.lhs.id ≠ a)
    (hsteps : ∀ s ∈ p.steps, Usable a st.symbols.size s.symbol) :
    Sound tc a (st.addProduction p) := by
  constructor
  · intro q p' hp
    rw [State.addProduction, Array.getElem?_push] at hp
    split at hp
    · obtain rfl := Option.some.inj hp
      exact ⟨hlhs.1, hlhs.2, fun _ => hother⟩
    · exact h.lhs q p' hp
  · intro q p' hp
    rw [State.addProduction, Array.getElem?_push] at hp
    split at hp
    · obtain rfl := Option.some.inj hp
      exact hsteps
    · exact h.steps q p' hp

theorem Sound.addAlternatives (h : Sound tc a st) {lhs : Kind}
    (hlhs : tc ≤ lhs.id ∧ lhs.id < st.symbols.size) (hother : lhs.id ≠ a) {alts : List Alternative}
    (halts : AllUsable a st.symbols.size alts) :
    Sound tc a (st.addAlternatives lhs alts) := by
  have hdistinct := halts.subset (distinct_subset {} alts)
  unfold State.addAlternatives
  generalize Alternative.distinct {} alts = ds at hdistinct
  induction ds generalizing st with
  | nil => exact h
  | cons d rest ih =>
    apply ih (h.addProduction hlhs hother (hdistinct d (by simp))) hlhs
    · exact fun alt halt => halts alt halt
    · exact hdistinct.subset (List.subset_cons_self d rest)

/-- More symbols do no harm. -/
private theorem Sound.grow (h : Sound tc a st) {st' : State} (hp : st'.productions = st.productions)
    (hle : st.symbols.size ≤ st'.symbols.size) : Sound tc a st' where
  lhs := by
    intro q p hq
    rw [hp] at hq
    obtain ⟨h1, h2, h3⟩ := h.lhs q p hq
    exact ⟨h1, by omega, h3⟩
  steps := by
    intro q p hq s hs
    rw [hp] at hq
    exact (h.steps q p hq s hs).mono hle

end State

/-- What lowering does, as long as there are not too many symbols. -/
structure Lowers (tc a : Nat) (st st' : State) (alts : List Alternative) : Prop where
  grown : st.Extends st'
  sound : st'.symbols.size ≤ maxId → a < st.symbols.size → st.Sound tc a →
    st'.Sound tc a ∧ AllUsable a st'.symbols.size alts

variable {tc : Nat} {st st' st'' : State} {alts others : List Alternative}

private theorem Lowers.subset (h : Lowers tc a st st' alts) (hsub : others ⊆ alts) :
    Lowers tc a st st' others :=
  ⟨h.grown, fun hsize ha hst => ⟨(h.sound hsize ha hst).1, (h.sound hsize ha hst).2.subset hsub⟩⟩

private theorem Lowers.append_empty (h : Lowers tc a st st' alts) (c : Context) :
    Lowers tc a st st' (alts ++ [.empty c]) :=
  ⟨h.grown, fun hsize ha hst =>
    ⟨(h.sound hsize ha hst).1, (h.sound hsize ha hst).2.append (allUsable_empty c)⟩⟩

private theorem lowers_single {k : Kind} (hk : 2 ≤ k.id ∧ k.id < a) (c : Context) :
    Lowers tc a st st [.single k c] :=
  ⟨.refl st, fun _ ha hst => ⟨hst, allUsable_single ⟨hk.1, by omega, by omega⟩ c⟩⟩

private theorem lowers_empty (c : Context) : Lowers tc a st st [.empty c] :=
  ⟨.refl st, fun _ _ hst => ⟨hst, allUsable_empty c⟩⟩

/-- A repetition that is begun before its body is lowered and ended afterwards. -/
theorem Lowers.repetition (htc : tc ≤ a) (ha2 : 2 ≤ a) (h : Lowers tc a st.beginRepeat.2 st' alts)
    (c : Context) :
    Lowers tc a st (st'.endRepeat st.beginRepeat.1 c alts).2
      (st'.endRepeat st.beginRepeat.1 c alts).1 := by
  have hbegin : st.Extends st.beginRepeat.2 := ⟨⟨#[_], rfl⟩, ⟨#[], by simp [State.beginRepeat]⟩⟩
  have hsize : st.beginRepeat.2.symbols.size = st.symbols.size + 1 := by simp [State.beginRepeat]
  refine ⟨(hbegin.trans h.grown).trans (st'.extends_addAlternatives _ _), fun hmax ha hst => ?_⟩
  change (st'.addAlternatives _ _).symbols.size ≤ maxId at hmax
  rw [State.symbols_addAlternatives] at hmax
  have hle := h.grown.size_le
  obtain ⟨hst', halts⟩ := h.sound hmax (by omega) (hst.grow rfl (by omega))
  have haux : st.beginRepeat.1.id = st.symbols.size := by
    simp only [State.beginRepeat, Kind.ofNat]
    omega
  have husable : Usable a st'.symbols.size st.beginRepeat.1 := ⟨by omega, by omega, by omega⟩
  constructor
  · apply hst'.addAlternatives ⟨by omega, by omega⟩ (by omega)
    have hnonempty : AllUsable a st'.symbols.size (alts.filter (!·.steps.isEmpty)) :=
      halts.subset List.filter_sublist.subset
    refine AllUsable.append ?_ hnonempty
    intro alt halt s hs
    obtain ⟨x, hx, rfl⟩ := List.mem_map.1 halt
    rcases List.mem_cons.1 hs with rfl | hs
    · exact husable
    · exact hnonempty x hx s hs
  · change AllUsable a (st'.addAlternatives _ _).symbols.size _
    rw [State.symbols_addAlternatives]
    have hwhole := allUsable_single husable { c with field := none }
    simp only [State.endRepeat]
    split
    · exact hwhole.append (allUsable_empty c)
    · exact hwhole

theorem Lowers.trans (h : Lowers tc a st st' alts) {more : List Alternative}
    (h' : Lowers tc a st' st'' others)
    (hmore : st''.symbols.size ≤ maxId → AllUsable a st''.symbols.size alts →
      AllUsable a st''.symbols.size others → AllUsable a st''.symbols.size more) :
    Lowers tc a st st'' more := by
  refine ⟨h.grown.trans h'.grown, fun hmax ha hst => ?_⟩
  have hle := h.grown.size_le
  have hle' := h'.grown.size_le
  obtain ⟨hst', halts⟩ := h.sound (by omega) ha hst
  obtain ⟨hst'', hothers⟩ := h'.sound hmax (by omega) hst'
  exact ⟨hst'', hmore hmax (halts.mono hle') hothers⟩

variable {scope : Scope}

mutual
theorem lowers_lower (hscope : scope.Sound a) (htc : tc ≤ a) (ha : 2 ≤ a) :
    ∀ (e : Expr) (c : Context) (st st' : State) (alts : List Alternative), scope.Covers e.parts →
    lower scope e c st = .ok (alts, st') → Lowers tc a st st' alts
  | .blank, c, st, st', alts, _, h => by
    simp only [lower, Except.ok.injEq, Prod.mk.injEq] at h
    obtain ⟨rfl, rfl⟩ := h
    exact lowers_empty c
  | .text x, c, st, st', alts, hcovers, h => by
    simp only [lower, Except.ok.injEq, Prod.mk.injEq] at h
    obtain ⟨rfl, rfl⟩ := h
    have hmem : x ∈ scope.literals := hcovers.literals x (by simp [Expr.parts])
    have hget := Std.HashMap.getElem?_eq_some_getElem hmem
    rw [hget]
    exact lowers_single (hscope.literals x _ hget) c
  | .symbol x, c, st, st', alts, hcovers, h => by
    simp only [lower] at h
    obtain ⟨k, hk, h⟩ := bind_eq_ok.1 h
    simp only [pure, Except.pure, Except.ok.injEq, Prod.mk.injEq] at h
    obtain ⟨rfl, rfl⟩ := h
    unfold Scope.lookup at hk
    split at hk
    · next k' hget =>
      obtain rfl := Except.ok.inj hk
      exact lowers_single (hscope.names x _ hget) c
    · contradiction
  | .pattern x, c, st, st', alts, hcovers, h => by
    simp only [lower, Except.ok.injEq, Prod.mk.injEq] at h
    obtain ⟨rfl, rfl⟩ := h
    have hmem : x ∈ scope.patterns := hcovers.patterns x (by simp [Expr.parts])
    have hget := Std.HashMap.getElem?_eq_some_getElem hmem
    rw [hget]
    exact lowers_single (hscope.patterns x _ hget) c
  | .seq items, c, st, st', alts, hcovers, h => by
    rw [lower] at h
    exact lowers_lowerSeq hscope htc ha items c [.empty c] st st' alts st
      (hcovers.subset (by simp [Expr.parts])) (lowers_empty c) h
  | .choice items, c, st, st', alts, hcovers, h => by
    rw [lower] at h
    exact lowers_lowerChoice hscope htc ha items c st st' alts
      (hcovers.subset (by simp [Expr.parts])) h
  | .optional body, c, st, st', alts, hcovers, h => by
    rw [lower] at h
    obtain ⟨⟨inner, st₁⟩, hbody, h⟩ := bind_eq_ok.1 h
    simp only [pure, Except.pure, Except.ok.injEq, Prod.mk.injEq] at h
    obtain ⟨rfl, rfl⟩ := h
    exact (lowers_lower hscope htc ha body c st st₁ inner (hcovers.subset (by simp [Expr.parts]))
      hbody).append_empty c
  | .repeated1 body, c, st, st', alts, hcovers, h => by
    rw [lower] at h
    obtain ⟨⟨inner, st₁⟩, hbody, h⟩ := bind_eq_ok.1 h
    have hinner : Lowers tc a st.beginRepeat.2 st₁ inner :=
      lowers_lower hscope htc ha body c _ st₁ inner (hcovers.subset (by simp [Expr.parts])) hbody
    have hwhole := hinner.repetition htc ha c
    have hend : st₁.endRepeat st.beginRepeat.1 c inner = (alts, st') := Except.ok.inj h
    rwa [hend] at hwhole
  | .repeated body, c, st, st', alts, hcovers, h => by
    rw [lower] at h
    obtain ⟨⟨inner, st₁⟩, hbody, h⟩ := bind_eq_ok.1 h
    have hinner : Lowers tc a st.beginRepeat.2 st₁ inner :=
      lowers_lower hscope htc ha body c _ st₁ inner (hcovers.subset (by simp [Expr.parts])) hbody
    have hwhole := hinner.repetition htc ha c
    have hend : ((if (st₁.endRepeat st.beginRepeat.1 c inner).1.any (·.steps.isEmpty)
        then (st₁.endRepeat st.beginRepeat.1 c inner).1
        else (st₁.endRepeat st.beginRepeat.1 c inner).1 ++ [.empty c]),
        (st₁.endRepeat st.beginRepeat.1 c inner).2) =
          (alts, st') := Except.ok.inj h
    simp only [Prod.mk.injEq] at hend
    obtain ⟨rfl, rfl⟩ := hend
    split
    · exact hwhole
    · exact hwhole.append_empty c
  | .field name body, c, st, st', alts, hcovers, h => by
    rw [lower] at h
    exact lowers_lower hscope htc ha body _ st st' alts (hcovers.subset (by simp [Expr.parts])) h
  | .prec p body, c, st, st', alts, hcovers, h => by
    rw [lower] at h
    exact lowers_lower hscope htc ha body _ st st' alts (hcovers.subset (by simp [Expr.parts])) h
  | .dynamic value body, c, st, st', alts, hcovers, h => by
    rw [lower] at h
    exact lowers_lower hscope htc ha body _ st st' alts (hcovers.subset (by simp [Expr.parts])) h

private theorem lowers_lowerSeq (hscope : scope.Sound a) (htc : tc ≤ a) (ha : 2 ≤ a) :
    ∀ (items : List Expr) (c : Context) (acc : List Alternative) (st st' : State)
    (alts : List Alternative) (first : State), scope.Covers (Expr.listParts items) →
      Lowers tc a first st acc →
    lowerSeq scope items c acc st = .ok (alts, st') → Lowers tc a first st' alts
  | [], c, acc, st, st', alts, first, _, hacc, h => by
    simp only [lowerSeq, Except.ok.injEq, Prod.mk.injEq] at h
    obtain ⟨rfl, rfl⟩ := h
    exact hacc
  | e :: rest, c, acc, st, st', alts, first, hcovers, hacc, h => by
    rw [lowerSeq] at h
    obtain ⟨⟨inner, st₁⟩, hinner, h⟩ := bind_eq_ok.1 h
    simp only at h
    split at h
    · contradiction
    · have he := lowers_lower hscope htc ha e c st st₁ inner
        (hcovers.subset (by simp [Expr.listParts])) hinner
      have hproduct : Lowers tc a first st₁ (acc.flatMap fun x => inner.map x.append) :=
        hacc.trans he fun _ h1 h2 => h1.product h2
      exact lowers_lowerSeq hscope htc ha rest c _ st₁ st' alts first
        (hcovers.subset (by simp [Expr.listParts])) hproduct h

private theorem lowers_lowerChoice (hscope : scope.Sound a) (htc : tc ≤ a) (ha : 2 ≤ a) :
    ∀ (items : List Expr) (c : Context) (st st' : State) (alts : List Alternative),
    scope.Covers (Expr.listParts items) → lowerChoice scope items c st = .ok (alts, st') →
      Lowers tc a st st' alts
  | [], c, st, st', alts, _, h => by
    simp only [lowerChoice, Except.ok.injEq, Prod.mk.injEq] at h
    obtain ⟨rfl, rfl⟩ := h
    exact (lowers_empty c).subset (List.nil_subset _)
  | e :: rest, c, st, st', alts, hcovers, h => by
    rw [lowerChoice] at h
    obtain ⟨⟨inner, st₁⟩, hinner, h⟩ := bind_eq_ok.1 h
    obtain ⟨⟨others, st₂⟩, hothers, h⟩ := bind_eq_ok.1 h
    simp only [pure, Except.pure, Except.ok.injEq, Prod.mk.injEq] at h
    obtain ⟨rfl, rfl⟩ := h
    have he :=
      lowers_lower hscope htc ha e c st st₁ inner (hcovers.subset (by simp [Expr.listParts])) hinner
    exact he.trans (lowers_lowerChoice hscope htc ha rest c st₁ st₂ others
      (hcovers.subset (by simp [Expr.listParts])) hothers) fun _ h1 h2 => h1.append h2
end

end Reparse.Grammar.Lowering

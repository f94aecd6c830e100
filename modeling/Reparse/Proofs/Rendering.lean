import Reparse.Proofs.Languages

/-! # Alternatives have the words of the expressions that they are lowered from -/
namespace Reparse.Grammar
open Computability
open Lexer (Pattern)

namespace Expr

/-- The body of a repetition. -/
def repeated? : Expr → Option Expr
  | .repeated body => some body
  | .repeated1 body => some body
  | _ => none

/-- The bodies of all repetitions in an expression, in the order in which their hidden rules are
made. -/
def loops (e : Expr) : List Expr := e.parts.filterMap repeated?

def loopsOf (items : List Expr) : List Expr := (listParts items).filterMap repeated?

@[simp] theorem loops_seq (items : List Expr) : loops (.seq items) = loopsOf items := by
  rw [loops, parts, List.filterMap_cons_none rfl, loopsOf]

@[simp] theorem loops_choice (items : List Expr) : loops (.choice items) = loopsOf items := by
  rw [loops, parts, List.filterMap_cons_none rfl, loopsOf]

@[simp] theorem loops_repeated (e : Expr) : loops (.repeated e) = e :: loops e := by
  rw [loops, parts]
  rfl

@[simp] theorem loops_repeated1 (e : Expr) : loops (.repeated1 e) = e :: loops e := by
  rw [loops, parts]
  rfl

@[simp] theorem loops_optional (e : Expr) : loops (.optional e) = loops e := by
  rw [loops, parts, List.filterMap_cons_none rfl, loops]

@[simp] theorem loops_field (name : String) (e : Expr) : loops (.field name e) = loops e := by
  rw [loops, parts, List.filterMap_cons_none rfl, loops]

@[simp] theorem loops_prec (p : Precedence) (e : Expr) : loops (.prec p e) = loops e := by
  rw [loops, parts, List.filterMap_cons_none rfl, loops]

@[simp] theorem loops_dynamic (value : Int) (e : Expr) : loops (.dynamic value e) = loops e := by
  rw [loops, parts, List.filterMap_cons_none rfl, loops]

@[simp] theorem loopsOf_nil : loopsOf [] = [] := rfl

@[simp] theorem loopsOf_cons (e : Expr) (rest : List Expr) :
    loopsOf (e :: rest) = loops e ++ loopsOf rest := by
  simp [loops, loopsOf, listParts]

end Expr

namespace Lowering

variable {J : Kind → FormalLanguage Kind} {alts others : List Alternative} {st st' st'' : State}
  {L M : FormalLanguage Kind} {loops more : List (FormalLanguage Kind)} {n : Nat}

/-! ## Languages of alternatives -/

namespace Alternative

/-- The words of the steps, where each symbol has some language. -/
def language (J : Kind → FormalLanguage Kind) (a : Alternative) : FormalLanguage Kind :=
  (a.steps.map fun s => J s.symbol).prod

/-- The words of some alternative. -/
def languageOf (J : Kind → FormalLanguage Kind) (alts : List Alternative) : FormalLanguage Kind :=
  (alts.map (language J)).sum

@[simp] theorem languageOf_nil : languageOf J [] = 0 := rfl

@[simp] theorem languageOf_cons (a : Alternative) :
    languageOf J (a :: alts) = a.language J + languageOf J alts := by
  simp [languageOf]

@[simp] theorem languageOf_append :
    languageOf J (alts ++ others) = languageOf J alts + languageOf J others := by
  simp [languageOf]

@[simp] theorem language_empty (c : Context) : (empty c).language J = 1 := rfl

@[simp] theorem language_single (k : Kind) (c : Context) : (single k c).language J = J k := by
  simp [language, single]

@[simp] theorem language_append (a b : Alternative) :
    (a.append b).language J = a.language J * b.language J := by
  simp [language, append]

private theorem languageOf_map_append (a : Alternative) :
    languageOf J (alts.map a.append) = a.language J * languageOf J alts := by
  induction alts with
  | nil => simp
  | cons b rest ih =>
    rw [List.map_cons, languageOf_cons, ih, language_append, languageOf_cons, mul_add]

/-- Every alternative followed by every other one. -/
theorem languageOf_product :
    languageOf J (alts.flatMap fun a => others.map a.append) =
      languageOf J alts * languageOf J others := by
  induction alts with
  | nil => simp
  | cons a rest ih =>
    rw [List.flatMap_cons, languageOf_append, languageOf_map_append, ih, languageOf_cons, add_mul]

theorem languageOf_le : languageOf J alts ≤ L ↔ ∀ a ∈ alts, a.language J ≤ L := by
  induction alts with
  | nil => simp
  | cons a rest ih => simp [ih]

theorem language_le_languageOf {a : Alternative} (h : a ∈ alts) :
    a.language J ≤ languageOf J alts :=
  languageOf_le.1 le_rfl a h

private theorem one_le_languageOf (h : alts.any (·.steps.isEmpty) = true) :
    1 ≤ languageOf J alts := by
  obtain ⟨a, ha, hsteps⟩ := List.any_eq_true.1 h
  have hle : a.language J ≤ languageOf J alts := language_le_languageOf ha
  rwa [language, List.isEmpty_iff.1 hsteps] at hle

/-- The empty alternatives have the empty word only. -/
private theorem languageOf_filter (alts : List Alternative) (c : Context) : languageOf J alts =
    languageOf J (alts.filter (!·.steps.isEmpty)) +
      languageOf J (if alts.any (·.steps.isEmpty) then [.empty c] else []) := by
  apply le_antisymm
  · refine languageOf_le.2 fun a ha => ?_
    by_cases hempty : a.steps.isEmpty = true
    · have hany : alts.any (·.steps.isEmpty) = true := List.any_eq_true.2 ⟨a, ha, hempty⟩
      have hone : a.language J = 1 := by rw [language, List.isEmpty_iff.1 hempty]; rfl
      rw [if_pos hany, hone]
      simp
    · exact (language_le_languageOf (List.mem_filter.2 ⟨ha, by simpa using hempty⟩)).trans
        le_self_add
  · refine add_le ?_ ?_
    · exact languageOf_le.2 fun a ha => language_le_languageOf (List.mem_filter.1 ha).1
    · split
      · next hany => simpa using one_le_languageOf hany
      · exact bot_le

private theorem languageOf_map_cons (s : Step) :
    languageOf J (alts.map fun a => { a with steps := s :: a.steps }) =
      J s.symbol * languageOf J alts := by
  induction alts with
  | nil => simp
  | cons a rest ih =>
    rw [List.map_cons, languageOf_cons, ih, languageOf_cons, mul_add]
    simp [language]

end Alternative

/-! ## Productions -/

/-- All productions of a state are obeyed. -/
def State.Obeyed (J : Kind → FormalLanguage Kind) (st : State) : Prop :=
  ∀ p ∈ st.productions, Obeys J p

private theorem mem_distinct_steps {seen : Std.HashSet (List Step)} {a : Alternative}
    (h : a ∈ alts) :
    a.steps ∈ seen ∨ ∃ b ∈ Alternative.distinct seen alts, b.steps = a.steps := by
  fun_induction Alternative.distinct seen alts with
  | case1 => contradiction
  | case2 seen b rest hseen ih =>
    rcases List.mem_cons.1 h with rfl | h
    · exact .inl hseen
    · exact ih h
  | case3 seen b rest hnew ih =>
    rcases List.mem_cons.1 h with rfl | h
    · exact .inr ⟨a, List.mem_cons_self, rfl⟩
    · rcases ih h with hseen | ⟨c, hc, heq⟩
      · rcases Std.HashSet.mem_insert.1 hseen with heq | hseen
        · exact .inr ⟨b, List.mem_cons_self, by simpa using heq⟩
        · exact .inl hseen
      · exact .inr ⟨c, List.mem_cons_of_mem _ hc, heq⟩

/-- Alternatives that are left out for their steps make no difference. -/
private theorem languageOf_distinct (alts : List Alternative) :
    Alternative.languageOf J (Alternative.distinct {} alts) = Alternative.languageOf J alts := by
  apply le_antisymm
  · exact Alternative.languageOf_le.2 fun a ha =>
      Alternative.language_le_languageOf (distinct_subset {} alts ha)
  · refine Alternative.languageOf_le.2 fun a ha => ?_
    have hsteps : a.steps ∈ ({} : Std.HashSet (List Step)) ∨
        ∃ b ∈ Alternative.distinct {} alts, b.steps = a.steps :=
      mem_distinct_steps ha
    rcases hsteps with hseen | ⟨b, hb, heq⟩
    · simp at hseen
    · have hle : b.language J ≤ Alternative.languageOf J (Alternative.distinct {} alts) :=
        Alternative.language_le_languageOf hb
      rwa [Alternative.language, heq] at hle

theorem State.obeyed_addAlternatives {lhs : Kind} :
    (st.addAlternatives lhs alts).Obeyed J ↔
      st.Obeyed J ∧ Alternative.languageOf J alts ≤ J lhs := by
  have key (ds : List Alternative) (st : State) :
      (ds.foldl (fun st a => st.addProduction (a.toProduction lhs)) st).Obeyed J ↔
        st.Obeyed J ∧ Alternative.languageOf J ds ≤ J lhs := by
    induction ds generalizing st with
    | nil => simp
    | cons d rest ih =>
      rw [List.foldl_cons, ih]
      simp only [Obeyed, addProduction, Array.mem_push, Alternative.languageOf_cons, add_le_iff]
      constructor
      · rintro ⟨hobeyed, hrest⟩
        exact ⟨fun p hp => hobeyed p (.inl hp), hobeyed _ (.inr rfl), hrest⟩
      · rintro ⟨hobeyed, hfirst, hrest⟩
        exact ⟨fun p hp => hp.elim (hobeyed p) fun heq => heq ▸ hfirst, hrest⟩
  rw [addAlternatives, key, languageOf_distinct]

/-! ## Expressions -/

/-- The hidden rules of repetitions, which are numbered from `n` on, have one or more words of the
bodies. -/
def Loops (J : Kind → FormalLanguage Kind) (n : Nat) (loops : List (FormalLanguage Kind)) : Prop :=
  ∀ i body, loops[i]? = some body → J (.ofNat (n + i)) = body * body∗

theorem loops_append :
    Loops J n (loops ++ more) ↔ Loops J n loops ∧ Loops J (n + loops.length) more := by
  constructor
  · refine fun h => ⟨fun i body hi => ?_, fun i body hi => ?_⟩
    · obtain ⟨hlt, -⟩ := List.getElem?_eq_some_iff.1 hi
      exact h i body (by rwa [List.getElem?_append_left hlt])
    · rw [Nat.add_assoc]
      exact h _ body
        (by rwa [List.getElem?_append_right (Nat.le_add_right _ _), Nat.add_sub_cancel_left])
  · rintro ⟨hleft, hright⟩ i body hi
    rw [List.getElem?_append] at hi
    split at hi
    · exact hleft i body hi
    · next hge =>
      have h := hright _ body hi
      rwa [Nat.add_assoc, Nat.add_sub_cancel' (Nat.le_of_not_lt hge)] at h

private theorem loops_cons :
    Loops J n (L :: loops) ↔ J (.ofNat n) = L * L∗ ∧ Loops J (n + 1) loops := by
  rw [← List.singleton_append, loops_append, List.length_singleton]
  refine and_congr_left fun _ => ⟨fun h => h 0 L rfl, fun h i body hi => ?_⟩
  obtain ⟨rfl, rfl⟩ : i = 0 ∧ L = body := by simpa [List.getElem?_singleton] using hi
  exact h

/-- The alternatives have the words of a language, whatever languages obey the productions and give
the hidden rules of repetitions what their bodies repeat. -/
structure Renders (J : Kind → FormalLanguage Kind) (loops : List (FormalLanguage Kind))
    (L : FormalLanguage Kind) (st st' : State) (alts : List Alternative) : Prop where
  size : st'.symbols.size = st.symbols.size + loops.length
  grown : st'.Obeyed J → st.Obeyed J
  complete : st'.Obeyed J → L ≤ Alternative.languageOf J alts
  sound : Loops J st.symbols.size loops → Alternative.languageOf J alts ≤ L ∧
    (st.Obeyed J → st'.Obeyed J)

namespace Renders

private theorem none : Renders J [] 0 st st [] :=
  ⟨rfl, id, fun _ => bot_le, fun _ => ⟨le_refl _, id⟩⟩

private theorem empty (c : Context) : Renders J [] 1 st st [.empty c] :=
  ⟨rfl, id, fun _ => by simp, fun _ => ⟨by simp, id⟩⟩

private theorem single (k : Kind) (c : Context) : Renders J [] (J k) st st [.single k c] :=
  ⟨rfl, id, fun _ => by simp, fun _ => ⟨by simp, id⟩⟩

private theorem union (h : Renders J loops L st st' alts) (h' : Renders J more M st' st'' others) :
    Renders J (loops ++ more) (L + M) st st'' (alts ++ others) where
  size := by rw [h'.size, h.size, List.length_append, Nat.add_assoc]
  grown hst := h.grown (h'.grown hst)
  complete hst := by
    rw [Alternative.languageOf_append]
    exact add_le_add (h.complete (h'.grown hst)) (h'.complete hst)
  sound hloops := by
    rw [loops_append, ← h.size] at hloops
    obtain ⟨hle, hkeep⟩ := h.sound hloops.1
    obtain ⟨hle', hkeep'⟩ := h'.sound hloops.2
    rw [Alternative.languageOf_append]
    exact ⟨add_le_add hle hle', fun hst => hkeep' (hkeep hst)⟩

private theorem product (h : Renders J loops L st st' alts)
    (h' : Renders J more M st' st'' others) :
    Renders J (loops ++ more) (L * M) st st'' (alts.flatMap fun a => others.map a.append) where
  size := by rw [h'.size, h.size, List.length_append, Nat.add_assoc]
  grown hst := h.grown (h'.grown hst)
  complete hst := by
    rw [Alternative.languageOf_product]
    exact mul_le_mul' (h.complete (h'.grown hst)) (h'.complete hst)
  sound hloops := by
    rw [loops_append, ← h.size] at hloops
    obtain ⟨hle, hkeep⟩ := h.sound hloops.1
    obtain ⟨hle', hkeep'⟩ := h'.sound hloops.2
    rw [Alternative.languageOf_product]
    exact ⟨mul_le_mul' hle hle', fun hst => hkeep' (hkeep hst)⟩

private theorem optional (h : Renders J loops L st st' alts) (c : Context) :
    Renders J loops (L + 1) st st' (alts ++ [.empty c]) := by
  have hempty : Renders J [] 1 st' st' [.empty c] := .empty c
  have hunion := h.union hempty
  rwa [List.append_nil] at hunion

/-- The empty word need not be added if it is there. -/
private theorem optional_of_empty (h : Renders J loops L st st' alts)
    (hempty : alts.any (·.steps.isEmpty) = true) :
    Renders J loops (L + 1) st st' alts := by
  refine ⟨h.size, h.grown, fun hst =>
    add_le (h.complete hst) (Alternative.one_le_languageOf hempty), fun hloops => ?_⟩
  obtain ⟨hle, hkeep⟩ := h.sound hloops
  exact ⟨hle.trans le_self_add, hkeep⟩

/-- A repetition is one or more times its body. -/
theorem repetition (h : Renders J loops L st.beginRepeat.2 st' alts) (c : Context) :
    Renders J (L :: loops) (L * L∗) st (st'.endRepeat st.beginRepeat.1 c alts).2
      (st'.endRepeat st.beginRepeat.1 c alts).1 := by
  have hsize : st.beginRepeat.2.symbols.size = st.symbols.size + 1 := by simp [State.beginRepeat]
  -- The body is made of `N`, its alternatives that have steps, and of `E`, which is empty or has
  -- the empty word.
  generalize hN : Alternative.languageOf J (alts.filter (!·.steps.isEmpty)) = N
  generalize hE : Alternative.languageOf J (if alts.any (·.steps.isEmpty) then [.empty c] else []) =
    E
  have hbody : Alternative.languageOf J alts = N + E := by
    rw [Alternative.languageOf_filter alts c, hN, hE]
  have hwhole : Alternative.languageOf J (st'.endRepeat st.beginRepeat.1 c alts).1 =
      J st.beginRepeat.1 + E := by
    rw [State.endRepeat, Alternative.languageOf_cons, hE, Alternative.language_single]
  have hobeyed : (st'.endRepeat st.beginRepeat.1 c alts).2.Obeyed J ↔
      st'.Obeyed J ∧ J st.beginRepeat.1 * N + N ≤ J st.beginRepeat.1 := by
    rw [State.endRepeat, State.obeyed_addAlternatives, Alternative.languageOf_append,
      Alternative.languageOf_map_cons, hN]
  have hE1 : E ≤ 1 := by
    rw [← hE]
    split <;> simp
  constructor
  case size =>
    rw [State.endRepeat, State.symbols_addAlternatives, h.size, hsize, List.length_cons]
    omega
  case grown => exact fun hst => h.grown (hobeyed.1 hst).1
  case complete =>
    intro hst
    obtain ⟨hst', hloop⟩ := hobeyed.1 hst
    have hL : L ≤ N + E := hbody ▸ h.complete hst'
    obtain ⟨hagain, hfirst⟩ := add_le_iff.1 hloop
    have hsome : N * N∗ ≤ J st.beginRepeat.1 := mul_kstar_le hfirst hagain
    have hstar : L∗ ≤ N∗ := by
      have hle : L ≤ N∗ := hL.trans (add_le le_kstar (hE1.trans one_le_kstar))
      calc L∗ ≤ (N∗)∗ := kstar_mono hle
        _ = N∗ := kstar_idem N
    rw [hwhole]
    calc L * L∗ ≤ (N + E) * N∗ := mul_le_mul' hL hstar
      _ = N * N∗ + (E + E * (N * N∗)) := by rw [add_mul, ← mul_one_add, one_add_mul_kstar]
      _ ≤ J st.beginRepeat.1 + (E + 1 * J st.beginRepeat.1) := by gcongr
      _ = J st.beginRepeat.1 + E := by rw [one_mul, add_comm E, ← add_assoc, add_idem]
  case sound =>
    intro hloops
    obtain ⟨haux, hinner⟩ := loops_cons.1 hloops
    change J st.beginRepeat.1 = L * L∗ at haux
    obtain ⟨hle, hkeep⟩ := h.sound (by rwa [hsize])
    rw [hbody] at hle
    obtain ⟨hN', hE'⟩ := add_le_iff.1 hle
    have hone : L ≤ L * L∗ := by
      calc L = L * 1 := (mul_one L).symm
        _ ≤ L * L∗ := mul_le_mul' le_rfl one_le_kstar
    rw [hwhole, haux]
    refine ⟨add_le le_rfl (hE'.trans hone), fun hst => hobeyed.2 ⟨hkeep hst, ?_⟩⟩
    rw [haux]
    refine add_le ?_ (hN'.trans hone)
    calc L * L∗ * N ≤ L * L∗ * L := mul_le_mul' le_rfl hN'
      _ = L * (L∗ * L) := mul_assoc _ _ _
      _ ≤ L * L∗ := mul_le_mul' le_rfl kstar_mul_le_kstar

end Renders

/-- What symbols of the scope have is what literals, names and patterns mean. -/
structure Scope.Means (scope : Scope) (J : Kind → FormalLanguage Kind) (m : Meaning) : Prop where
  text : ∀ x k, scope.literals[x]? = some k → J k = m.text x
  symbol : ∀ x k, scope.names[x]? = some k → J k = m.symbol x
  pattern : ∀ x k, scope.patterns[x]? = some k → J k = m.pattern x

variable {scope : Scope} {m : Meaning}

mutual
/-- Lowering an expression gives alternatives with its words. -/
theorem renders_lower (hscope : scope.Means J m) :
    ∀ (e : Expr) (c : Context) (st st' : State) (alts : List Alternative), scope.Covers e.parts →
    lower scope e c st = .ok (alts, st') →
      Renders J (e.loops.map (·.language m)) (e.language m) st st' alts
  | .blank, c, st, st', alts, _, h => by
    simp only [lower, Except.ok.injEq, Prod.mk.injEq] at h
    obtain ⟨rfl, rfl⟩ := h
    exact .empty c
  | .text x, c, st, st', alts, hcovers, h => by
    simp only [lower, Except.ok.injEq, Prod.mk.injEq] at h
    obtain ⟨rfl, rfl⟩ := h
    have hmem : x ∈ scope.literals := hcovers.literals x (by simp [Expr.parts])
    have hget := Std.HashMap.getElem?_eq_some_getElem hmem
    rw [hget, Expr.language, ← hscope.text x _ hget]
    exact .single _ c
  | .symbol x, c, st, st', alts, hcovers, h => by
    simp only [lower] at h
    obtain ⟨k, hk, h⟩ := bind_eq_ok.1 h
    simp only [pure, Except.pure, Except.ok.injEq, Prod.mk.injEq] at h
    obtain ⟨rfl, rfl⟩ := h
    unfold Scope.lookup at hk
    split at hk
    · next k' hget =>
      obtain rfl := Except.ok.inj hk
      rw [Expr.language, ← hscope.symbol x _ hget]
      exact .single _ c
    · contradiction
  | .pattern x, c, st, st', alts, hcovers, h => by
    simp only [lower, Except.ok.injEq, Prod.mk.injEq] at h
    obtain ⟨rfl, rfl⟩ := h
    have hmem : x ∈ scope.patterns := hcovers.patterns x (by simp [Expr.parts])
    have hget := Std.HashMap.getElem?_eq_some_getElem hmem
    rw [hget, Expr.language, ← hscope.pattern x _ hget]
    exact .single _ c
  | .seq items, c, st, st', alts, hcovers, h => by
    rw [lower] at h
    have hseq := renders_lowerSeq hscope items c [.empty c] st st' alts st [] 1
      (hcovers.subset (by simp [Expr.parts])) (.empty c) h
    rwa [one_mul, List.nil_append, ← Expr.loops_seq] at hseq
  | .choice items, c, st, st', alts, hcovers, h => by
    rw [lower] at h
    rw [Expr.loops_choice]
    exact renders_lowerChoice hscope items c st st' alts (hcovers.subset (by simp [Expr.parts])) h
  | .optional body, c, st, st', alts, hcovers, h => by
    rw [lower] at h
    obtain ⟨⟨inner, st₁⟩, hbody, h⟩ := bind_eq_ok.1 h
    simp only [pure, Except.pure, Except.ok.injEq, Prod.mk.injEq] at h
    obtain ⟨rfl, rfl⟩ := h
    rw [Expr.loops_optional]
    exact (renders_lower hscope body c st st₁ inner
      (hcovers.subset (by simp [Expr.parts])) hbody).optional c
  | .repeated1 body, c, st, st', alts, hcovers, h => by
    rw [lower] at h
    obtain ⟨⟨inner, st₁⟩, hbody, h⟩ := bind_eq_ok.1 h
    have hinner :=
      renders_lower hscope body c _ st₁ inner (hcovers.subset (by simp [Expr.parts])) hbody
    have hend : st₁.endRepeat st.beginRepeat.1 c inner = (alts, st') := Except.ok.inj h
    have hwhole := hinner.repetition c
    rw [hend] at hwhole
    rw [Expr.loops_repeated1, List.map_cons]
    exact hwhole
  | .repeated body, c, st, st', alts, hcovers, h => by
    rw [lower] at h
    obtain ⟨⟨inner, st₁⟩, hbody, h⟩ := bind_eq_ok.1 h
    have hinner :=
      renders_lower hscope body c _ st₁ inner (hcovers.subset (by simp [Expr.parts])) hbody
    have hwhole := hinner.repetition c
    have hend : ((if (st₁.endRepeat st.beginRepeat.1 c inner).1.any (·.steps.isEmpty)
        then (st₁.endRepeat st.beginRepeat.1 c inner).1
        else (st₁.endRepeat st.beginRepeat.1 c inner).1 ++ [.empty c]),
        (st₁.endRepeat st.beginRepeat.1 c inner).2) =
          (alts, st') := Except.ok.inj h
    simp only [Prod.mk.injEq] at hend
    obtain ⟨rfl, rfl⟩ := hend
    have hstar : body.language m * (body.language m)∗ + 1 = (Expr.repeated body).language m := by
      rw [add_comm, one_add_mul_kstar, Expr.language]
    rw [Expr.loops_repeated, List.map_cons, ← hstar]
    split
    · next hempty => exact hwhole.optional_of_empty hempty
    · exact hwhole.optional c
  | .field name body, c, st, st', alts, hcovers, h => by
    rw [lower] at h
    rw [Expr.loops_field]
    exact renders_lower hscope body _ st st' alts (hcovers.subset (by simp [Expr.parts])) h
  | .prec p body, c, st, st', alts, hcovers, h => by
    rw [lower] at h
    rw [Expr.loops_prec]
    exact renders_lower hscope body _ st st' alts (hcovers.subset (by simp [Expr.parts])) h
  | .dynamic value body, c, st, st', alts, hcovers, h => by
    rw [lower] at h
    rw [Expr.loops_dynamic]
    exact renders_lower hscope body _ st st' alts (hcovers.subset (by simp [Expr.parts])) h

private theorem renders_lowerSeq (hscope : scope.Means J m) :
    ∀ (items : List Expr) (c : Context) (acc : List Alternative) (st st' : State)
    (alts : List Alternative) (first : State) (loops : List (FormalLanguage Kind))
      (L : FormalLanguage Kind),
    scope.Covers (Expr.listParts items) → Renders J loops L first st acc →
      lowerSeq scope items c acc st = .ok (alts, st') →
    Renders J (loops ++ (Expr.loopsOf items).map (·.language m))
      (L * Expr.languageOfSeq m items) first st' alts
  | [], c, acc, st, st', alts, first, loops, L, _, hacc, h => by
    simp only [lowerSeq, Except.ok.injEq, Prod.mk.injEq] at h
    obtain ⟨rfl, rfl⟩ := h
    rwa [Expr.loopsOf_nil, List.map_nil, List.append_nil, Expr.languageOfSeq, mul_one]
  | e :: rest, c, acc, st, st', alts, first, loops, L, hcovers, hacc, h => by
    rw [lowerSeq] at h
    obtain ⟨⟨inner, st₁⟩, hinner, h⟩ := bind_eq_ok.1 h
    simp only at h
    split at h
    · contradiction
    · have he :=
        renders_lower hscope e c st st₁ inner (hcovers.subset (by simp [Expr.listParts])) hinner
      have hrest := renders_lowerSeq hscope rest c _ st₁ st' alts first _ _
        (hcovers.subset (by simp [Expr.listParts])) (hacc.product he) h
      rwa [List.append_assoc, ← List.map_append, ← Expr.loopsOf_cons, mul_assoc,
        ← Expr.languageOfSeq] at hrest

private theorem renders_lowerChoice (hscope : scope.Means J m) :
    ∀ (items : List Expr) (c : Context) (st st' : State) (alts : List Alternative),
    scope.Covers (Expr.listParts items) → lowerChoice scope items c st = .ok (alts, st') →
    Renders J ((Expr.loopsOf items).map (·.language m)) (Expr.languageOfChoice m items) st st' alts
  | [], c, st, st', alts, _, h => by
    simp only [lowerChoice, Except.ok.injEq, Prod.mk.injEq] at h
    obtain ⟨rfl, rfl⟩ := h
    exact .none
  | e :: rest, c, st, st', alts, hcovers, h => by
    rw [lowerChoice] at h
    obtain ⟨⟨inner, st₁⟩, hinner, h⟩ := bind_eq_ok.1 h
    obtain ⟨⟨others, st₂⟩, hothers, h⟩ := bind_eq_ok.1 h
    simp only [pure, Except.pure, Except.ok.injEq, Prod.mk.injEq] at h
    obtain ⟨rfl, rfl⟩ := h
    have he :=
      renders_lower hscope e c st st₁ inner (hcovers.subset (by simp [Expr.listParts])) hinner
    have hrest := renders_lowerChoice hscope rest c st₁ st₂ others
      (hcovers.subset (by simp [Expr.listParts])) hothers
    rw [Expr.loopsOf_cons, List.map_append]
    exact he.union hrest
end

end Lowering
end Reparse.Grammar

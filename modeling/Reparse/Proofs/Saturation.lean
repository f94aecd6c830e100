import Mathlib.Order.Bounds.Basic
import Reparse.Proofs.Beginnings
import Reparse.Proofs.Propagation

/-! # Closures are least -/
namespace Reparse.Table
open Data Grammar

namespace Items

variable {g : Flat} {f : First} {kernel items : Items} {i : Item} {rest : List Step} {q t : Nat}

/-- Items, and terminals that are lookaheads of items. An item may stand in a collection without a
lookahead. -/
abbrev Collection := Set Item × Set (Item × Nat)

def collection (items : Items) : Collection := ({i | i ∈ items.cores}, {x | items.Has x.1 x.2})

/-- The symbol after the dot has the production `q`, and the steps `rest` stand behind it. -/
def Predicts (g : Flat) (i : Item) (rest : List Step) (q : Nat) : Prop :=
  ∃ p s p', g.productions[i.production]? = some p ∧ p.steps.drop i.dot = s :: rest ∧
    g.isTerminal s.symbol = false ∧ g.productions[q]? = some p' ∧ p'.lhs = s.symbol

/-- Some derivation of the steps begins with the terminal. -/
def StartsWith (g : Flat) (steps : List Step) (t : Nat) : Prop :=
  g.isTerminal ⟨t⟩ = true ∧ ∃ w, Derives g (steps.map (·.symbol)) (⟨t⟩ :: w)

/-- The steps derive nothing. -/
def Vanishes (g : Flat) (steps : List Step) : Prop := Derives g (steps.map (·.symbol)) []

/-- Every production for a symbol after a dot is in the collection, with each lookahead that the
item gives it. -/
structure Saturated (g : Flat) (kernel : Items) (c : Collection) : Prop where
  kernel : collection kernel ≤ c
  items : ∀ i ∈ c.1, ∀ rest q, Predicts g i rest q → ⟨q, 0⟩ ∈ c.1
  begins : ∀ i ∈ c.1, ∀ rest q, Predicts g i rest q → ∀ t, StartsWith g rest t → (⟨q, 0⟩, t) ∈ c.2
  vanishes : ∀ i t, (i, t) ∈ c.2 → ∀ rest q, Predicts g i rest q →
    Vanishes g rest → (⟨q, 0⟩, t) ∈ c.2

/-- The same for pairs of an item and a lookahead, where an item without a lookahead gives
nothing. -/
structure Propagated (g : Flat) (kernel : Items) (pairs : Set (Item × Nat)) : Prop where
  kernel : ∀ i t, kernel.Has i t → (i, t) ∈ pairs
  begins : ∀ i t, (i, t) ∈ pairs → ∀ rest q, Predicts g i rest q → ∀ u, StartsWith g rest u →
    (⟨q, 0⟩, u) ∈ pairs
  vanishes : ∀ i t, (i, t) ∈ pairs → ∀ rest q, Predicts g i rest q → Vanishes g rest →
    (⟨q, 0⟩, t) ∈ pairs

/-! ## Consequences are drawn until none are left -/

/-- Taking items from the work and drawing their consequences ends with these predictions. -/
inductive Drains (g : Flat) (f : First) : Predictions → Array (Option BitSet) → Prop
  | done (found : Array (Option BitSet)) : Drains g f (found, []) found
  | draw {found result : Array (Option BitSet)} {entry : Item × BitSet} {work : Items}
      (rest : Drains g f (expand g f entry (found, work)) result) :
      Drains g f (found, entry :: work) result

private theorem drains_expandAll (hg : g.WellFormed) (hf : First.Exact g f) {fuel : Nat}
    {p : Predictions} (h : Pending g f kernel p) (hfuel : p.2.length + unknown g p.1 < fuel) :
    Drains g f p (expandAll g f fuel p) := by
  induction fuel generalizing p with
  | zero => omega
  | succ fuel ih =>
    obtain ⟨found, work⟩ := p
    cases work with
    | nil => exact .done found
    | cons entry work =>
      obtain ⟨hpending, hadvances⟩ := h.expand hg hf
      have hleft := hadvances.left
      exact .draw (ih hpending (by simp only [List.length_cons] at hfuel hleft ⊢; omega))

/-- A closure is what its kernel leads to, in order. -/
theorem drains_closure (hg : g.WellFormed) (hf : First.Exact g f) (h : Proper g kernel) :
    ∃ found, Drains g f (seeds g kernel, kernel) found ∧ closure g f kernel =
      List.merge (kernel.filter fun e => !(e.1.dot == 0)) (ofPredictions found) fun a b =>
        a.1.le b.1 := by
  have hbounded : Bounded g (seeds g kernel, kernel) :=
    ⟨size_seeds g kernel, fun q s hq => h.below _ (mem_of_seeds hq), h.below⟩
  have hpending : Pending g f kernel (seeds g kernel, kernel) :=
    ⟨hbounded, fun e he => .inl he, fun q s hq => .inl (mem_of_seeds hq)⟩
  exact ⟨_,
    drains_expandAll hg hf hpending (Nat.lt_succ_of_le (Nat.add_le_add_left (unknown_le g _) _)),
    closure_eq g f kernel⟩

/-! ## Leastness -/

theorem predicts_iff (hg : g.WellFormed) :
    Predicts g i rest q ↔ ∃ s, g.stepsFrom i.production i.dot = s :: rest ∧
    g.isTerminal s.symbol = false ∧ q ∈ g.productionsOf s.symbol := by
  constructor
  · rintro ⟨p, s, p', hp, hs, hn, hq, hlhs⟩
    refine ⟨s, ?_, hn, (hg.index _ _).2 ⟨p', hq, hlhs⟩⟩
    rw [Flat.stepsFrom, hp]
    exact hs
  · rintro ⟨s, hs, hn, hq⟩
    obtain ⟨p', hp', hlhs⟩ := (hg.index _ _).1 hq
    unfold Flat.stepsFrom at hs
    cases hp : g.productions[i.production]? with
    | none =>
      rw [hp] at hs
      contradiction
    | some p =>
      rw [hp] at hs
      exact ⟨p, s, p', hp, hs, hn, hp', hlhs⟩

section
variable (hg : g.WellFormed) (h : Proper g kernel)
include hg h

theorem mem_collection_closure :
    i ∈ (collection (closure g (First.compute g) kernel)).1 ↔ Closed g kernel.cores i :=
  mem_cores_closure hg (First.exact_compute hg) h

theorem has_collection_closure :
    (i, t) ∈ (collection (closure g (First.compute g) kernel)).2 ↔
      Ahead g (First.compute g) kernel i t :=
  has_closure hg (First.exact_compute hg) h

private theorem saturated_closure :
    Saturated g kernel (collection (closure g (First.compute g) kernel)) := by
  constructor
  case kernel =>
    exact ⟨fun i hi => (mem_collection_closure hg h).2 (.kernel hi),
      fun x hx => (has_collection_closure hg h).2 (.kernel hx)⟩
  case items =>
    intro i hi rest q hpredicts
    obtain ⟨s, hs, hn, hq⟩ := (predicts_iff hg).1 hpredicts
    exact (mem_collection_closure hg h).2 (((mem_collection_closure hg h).1 hi).predict hs hn hq)
  case begins =>
    intro i hi rest q hpredicts t ht
    obtain ⟨s, hs, hn, hq⟩ := (predicts_iff hg).1 hpredicts
    exact (has_collection_closure hg h).2
      (.spontaneous ((mem_collection_closure hg h).1 hi) hs hn hq
      ((First.mem_ofSteps_iff hg t).2 ht))
  case vanishes =>
    intro i t ht rest q hpredicts hvanishes
    obtain ⟨s, hs, hn, hq⟩ := (predicts_iff hg).1 hpredicts
    exact (has_collection_closure hg h).2
      (.inherited ((has_collection_closure hg h).1 ht) hs hn hq
      ((First.nullable_ofSteps_iff hg).2 hvanishes))

/-- Every collection that is closed under predictions has the items of the closure, and their
lookaheads. -/
theorem Saturated.closure_le {c : Collection} (hc : Saturated g kernel c) :
    collection (closure g (First.compute g) kernel) ≤ c := by
  have hitems {i : Item} (hi : Closed g kernel.cores i) : i ∈ c.1 := by
    induction hi with
    | kernel hi => exact hc.kernel.1 hi
    | predict source hs hn hq ih => exact hc.items _ ih _ _ ((predicts_iff hg).2 ⟨_, hs, hn, hq⟩)
  refine ⟨fun i hi => hitems ((mem_collection_closure hg h).1 hi), fun ⟨i, t⟩ hx => ?_⟩
  have hahead := (has_collection_closure hg h).1 hx
  clear hx
  induction hahead with
  | kernel hi => exact hc.kernel.2 hi
  | spontaneous source hs hn hq begins =>
    exact hc.begins _ (hitems source) _ _ ((predicts_iff hg).2 ⟨_, hs, hn, hq⟩) _
      ((First.mem_ofSteps_iff hg _).1 begins)
  | inherited _ hs hn hq vanishes ih =>
    exact hc.vanishes _ _ ih _ _ ((predicts_iff hg).2 ⟨_, hs, hn, hq⟩)
      ((First.nullable_ofSteps_iff hg).1 vanishes)

/-- A saturated collection is propagated, even if only items with a lookahead count. -/
theorem propagated_closure :
    Propagated g kernel (collection (closure g (First.compute g) kernel)).2 := by
  have hsaturated := saturated_closure hg h
  refine ⟨fun i t hi => hsaturated.kernel.2 hi, fun i t hi rest q hpredicts u hu => ?_,
    hsaturated.vanishes⟩
  obtain ⟨a, ha, -⟩ := hi
  exact hsaturated.begins i (List.mem_map_of_mem (f := (·.1)) ha) rest q hpredicts u hu

/-- Where every item gets a lookahead from each place that predicts it, pairs of items and
lookaheads are enough. -/
theorem Propagated.closure_subset (hkernel : ∀ i ∈ kernel.cores, ∃ t, kernel.Has i t)
    (hbehind : ∀ i ∈ (closure g (First.compute g) kernel).cores, ∀ rest q, Predicts g i rest q →
      (∃ t, StartsWith g rest t) ∨ Vanishes g rest)
    {pairs : Set (Item × Nat)} (hpairs : Propagated g kernel pairs) :
    (collection (closure g (First.compute g) kernel)).2 ⊆ pairs := by
  have hsome {i : Item} (hi : Closed g kernel.cores i) : ∃ t, (i, t) ∈ pairs := by
    induction hi with
    | kernel hi =>
      obtain ⟨t, ht⟩ := hkernel _ hi
      exact ⟨t, hpairs.kernel _ t ht⟩
    | predict source hs hn hq ih =>
      obtain ⟨t, ht⟩ := ih
      have hpredicts := (predicts_iff hg).2 ⟨_, hs, hn, hq⟩
      rcases hbehind _ ((mem_collection_closure hg h).2 source) _ _ hpredicts with
          ⟨u, hu⟩ | hvanishes
      · exact ⟨u, hpairs.begins _ t ht _ _ hpredicts u hu⟩
      · exact ⟨t, hpairs.vanishes _ t ht _ _ hpredicts hvanishes⟩
  rintro ⟨i, t⟩ hx
  have hahead := (has_collection_closure hg h).1 hx
  clear hx
  induction hahead with
  | kernel hi => exact hpairs.kernel _ _ hi
  | spontaneous source hs hn hq begins =>
    obtain ⟨u, hu⟩ := hsome source
    exact hpairs.begins _ u hu _ _ ((predicts_iff hg).2 ⟨_, hs, hn, hq⟩) _
      ((First.mem_ofSteps_iff hg _).1 begins)
  | inherited _ hs hn hq vanishes ih =>
    exact hpairs.vanishes _ _ ih _ _ ((predicts_iff hg).2 ⟨_, hs, hn, hq⟩)
      ((First.nullable_ofSteps_iff hg).1 vanishes)
end

/-- A closure is reached after finitely many steps, and is the least collection of items with
lookaheads that has the kernel and is closed under predictions; an item predicts with or without a
lookahead of its own. As a set of pairs of an item and a lookahead it is closed, too, and least if
what stands behind predicted symbols derives something. -/
theorem closure_least {d : Draft} {grammar : Grammar} (hvalid : d.validate = .ok grammar)
    (hflat : flatten grammar = .ok g) (hkernel : Proper g kernel) :
    (∃ found, Drains g (First.compute g) (seeds g kernel, kernel) found ∧
      closure g (First.compute g) kernel =
        List.merge (kernel.filter fun e => !(e.1.dot == 0)) (ofPredictions found) fun a b =>
          a.1.le b.1) ∧
      Proper g (closure g (First.compute g) kernel) ∧
      IsLeast {c | Saturated g kernel c} (collection (closure g (First.compute g) kernel)) ∧
      Propagated g kernel (collection (closure g (First.compute g) kernel)).2 ∧
      ((∀ i ∈ kernel.cores, ∃ t, kernel.Has i t) →
        (∀ i ∈ (closure g (First.compute g) kernel).cores, ∀ rest q, Predicts g i rest q →
          (∃ t, StartsWith g rest t) ∨ Vanishes g rest) →
        IsLeast {pairs | Propagated g kernel pairs}
          (collection (closure g (First.compute g) kernel)).2) := by
  have hg : g.WellFormed := wellFormed_of_flatten (Draft.valid_of_validate hvalid) hflat
  have hexact := First.exact_compute hg
  refine ⟨drains_closure hg hexact hkernel, (completed_closure hg hexact hkernel).proper, ?_,
    propagated_closure hg hkernel, fun hsome hbehind => ?_⟩
  · exact ⟨saturated_closure hg hkernel, fun c hc => hc.closure_le hg hkernel⟩
  · exact ⟨propagated_closure hg hkernel,
      fun pairs hpairs => hpairs.closure_subset hg hkernel hsome hbehind⟩

/-- The item behind an opening bracket, at the end of the text. -/
def behindOpening : Items := [(⟨4, 1⟩, .singleton 0)]

/-- What may stand there is followed by a closing bracket. -/
def closedBehindOpening : Items :=
  [(⟨2, 0⟩, .singleton 3), (⟨3, 0⟩, .singleton 3), (⟨4, 0⟩, .singleton 3), (⟨4, 1⟩, .singleton 0)]

private theorem closure_behindOpening :
    closure Brackets.flat (First.compute Brackets.flat) behindOpening = closedBehindOpening := by
  rw [Brackets.first_eq]
  cbv

/-- Everything that stands behind a predicted rule of brackets derives something. -/
private theorem behindOpening_derives (i : Item) (hi : i ∈ closedBehindOpening.cores)
    (rest : List Step) (q : Nat) (h : Predicts Brackets.flat i rest q) :
    (∃ t, StartsWith Brackets.flat rest t) ∨ Vanishes Brackets.flat rest := by
  obtain ⟨p, s, -, hp, hs, hterminal, -⟩ := h
  have hcases : i = ⟨2, 0⟩ ∨ i = ⟨3, 0⟩ ∨ i = ⟨4, 0⟩ ∨ i = ⟨4, 1⟩ := by
    simpa [closedBehindOpening, cores] using hi
  rcases hcases with rfl | rfl | rfl | rfl <;> obtain rfl := Option.some.inj hp
  · obtain ⟨rfl, rfl⟩ := List.cons.inj hs
    exact .inr .refl
  · contradiction
  · obtain ⟨rfl, -⟩ := List.cons.inj hs
    contradiction
  · obtain ⟨rfl, rfl⟩ := List.cons.inj hs
    exact .inl ⟨3, rfl, [], .refl⟩

theorem closure_least_brackets :
    (∃ found, Drains Brackets.flat (First.compute Brackets.flat)
          (seeds Brackets.flat behindOpening, behindOpening) found ∧
        closedBehindOpening = List.merge (behindOpening.filter fun e => !(e.1.dot == 0))
          (ofPredictions found) fun a b => a.1.le b.1) ∧
      Proper Brackets.flat closedBehindOpening ∧
      IsLeast {c | Saturated Brackets.flat behindOpening c} (collection closedBehindOpening) ∧
      Propagated Brackets.flat behindOpening (collection closedBehindOpening).2 ∧
      IsLeast {pairs | Propagated Brackets.flat behindOpening pairs}
        (collection closedBehindOpening).2 := by
  have hg : Brackets.flat.WellFormed :=
    wellFormed_of_flatten (Draft.valid_of_validate Brackets.valid) Brackets.flattened
  have hkernel : Proper Brackets.flat behindOpening := by
    have hsound :=
      Construction.sound_automaton Brackets.flat (First.compute Brackets.flat) .canonical
    refine (hsound.kernels 1 ⟨behindOpening, #[(⟨2⟩, 5), (⟨6⟩, 6), (⟨7⟩, 7)]⟩ ?_).proper hg
      (First.exact_compute hg)
    change (automaton Brackets.flat (First.compute Brackets.flat) .canonical)[1]? = _
    rw [Brackets.first_eq, Brackets.automaton_eq]
    rfl
  obtain ⟨hdrains, hproper, hleast, hpairs, hleastPairs⟩ :=
    closure_least Brackets.valid Brackets.flattened hkernel
  rw [closure_behindOpening] at hdrains hproper hleast hpairs hleastPairs
  refine ⟨hdrains, hproper, hleast, hpairs, hleastPairs (fun i hi => ?_) behindOpening_derives⟩
  obtain rfl : i = ⟨4, 1⟩ := by simpa [behindOpening, cores] using hi
  exact ⟨0, _, List.mem_singleton.2 rfl, by decide⟩

/-! ## A rule that derives nothing -/

namespace Barren
open Lowering

/-- Nothing is derived from `n`, which stands behind `a`. -/
def draft : Draft where
  name := "barren"
  rules :=
    [("s", .seq [.symbol "a", .symbol "n"]), ("a", .seq [.symbol "b", .text "x"]), ("b", .text "x"),
      ("n", .seq [.symbol "n", .text "x"])]

def flat : Flat where
  name := "barren"
  version := "0.0.0"
  symbols := builtinSymbols ++
    #[⟨"x", true, true, false⟩, ⟨"s", false, true, true⟩, ⟨"a", false, true, true⟩,
    ⟨"b", false, true, true⟩, ⟨"n", false, true, true⟩, ⟨acceptName, false, false, true⟩]
  terminalCount := 3
  productions := #[{ lhs := ⟨7⟩, steps := [{ symbol := ⟨3⟩ }] },
    { lhs := ⟨3⟩, steps := [{ symbol := ⟨4⟩ }, { symbol := ⟨6⟩ }] },
    { lhs := ⟨4⟩, steps := [{ symbol := ⟨5⟩ }, { symbol := ⟨2⟩ }] },
    { lhs := ⟨5⟩, steps := [{ symbol := ⟨2⟩ }] },
    { lhs := ⟨6⟩, steps := [{ symbol := ⟨6⟩ }, { symbol := ⟨2⟩ }] }]
  byLhs := #[#[], #[], #[], #[1], #[2], #[3], #[4], #[0]]
  start := ⟨3⟩
  fields := #[]
  extras := #[]
  word := none
  wordPattern := none
  conflictGroups := []
  declaredRules := [⟨3⟩, ⟨4⟩, ⟨5⟩, ⟨6⟩]
  lexical := [{ kind := ⟨2⟩, pattern := .literal "x" }]
  modes := [defaultMode]

private theorem not_hidden :
    isHiddenName "s" = false ∧ isHiddenName "a" = false ∧ isHiddenName "b" = false ∧
    isHiddenName "n" = false := by
  simp only [isHiddenName, String.startsWith_string_eq_false_iff]
  decide

private theorem valid : draft.validate = .ok ⟨draft, "s"⟩ := by
  simp [Draft.validate, draft, Draft.checkRuleName, Draft.checkRuleBody, bind, Except.bind,
    pure, Except.pure, not_hidden, Expr.parts, Expr.listParts, Expr.symbol?]

def scope : Scope where
  names :=
    (((({} : Std.HashMap String Kind).insert "s" ⟨3⟩).insert "a" ⟨4⟩).insert "b" ⟨5⟩).insert "n" ⟨6⟩
  literals := ({} : Std.HashMap String Kind).insert "x" ⟨2⟩
  start := "s"

theorem lookup_eq :
    scope.lookup "s" = .ok ⟨3⟩ ∧ scope.lookup "a" = .ok ⟨4⟩ ∧ scope.lookup "b" = .ok ⟨5⟩ ∧
    scope.lookup "n" = .ok ⟨6⟩ ∧ scope.literals["x"]? = some ⟨2⟩ := by
  simp [scope, Scope.lookup, Std.HashMap.getElem_insert]

private theorem lower_s (st : Lowering.State) :
    lowerRule scope st (("s", .seq [.symbol "a", .symbol "n"]), ⟨3⟩) = .ok { st with
      productions :=
  st.productions.push { lhs := ⟨3⟩, steps := [{ symbol := ⟨4⟩ }, { symbol := ⟨6⟩ }] }
      rule := ⟨3⟩
      repeats := 0 } := by
  simp [lowerRule, lower, lowerSeq, lookup_eq, bind, Except.bind, pure,
    Except.pure, maxAlternatives, State.addAlternatives, distinct_singleton]
  rfl

private theorem lower_b (st : Lowering.State) :
    lowerRule scope st (("b", .text "x"), ⟨5⟩) = .ok { st with
      productions := st.productions.push { lhs := ⟨5⟩, steps := [{ symbol := ⟨2⟩ }] }
      rule := ⟨5⟩
      repeats := 0 } := by
  simp [lowerRule, lower, lookup_eq, bind, Except.bind, pure, Except.pure, maxAlternatives,
    State.addAlternatives, distinct_singleton]
  rfl

/-- A rule and the letter. -/
private theorem lower_letter (st : Lowering.State) {name inner : String} {kind other : Kind}
    (h : scope.lookup inner = .ok other) :
    lowerRule scope st ((name, .seq [.symbol inner, .text "x"]), kind) = .ok { st with
      productions :=
  st.productions.push { lhs := kind, steps := [{ symbol := other }, { symbol := ⟨2⟩ }] }
      rule := kind
      repeats := 0 } := by
  simp [lowerRule, lower, lowerSeq, h, lookup_eq, bind, Except.bind, pure,
    Except.pure, maxAlternatives, State.addAlternatives, distinct_singleton]
  rfl

private theorem flattened : flatten ⟨draft, "s"⟩ = .ok flat := by
  let parts : List Expr := [.seq [.symbol "a", .symbol "n"], .symbol "a", .symbol "n",
    .seq [.symbol "b", .text "x"], .symbol "b", .text "x", .text "x", .seq [.symbol "n", .text "x"],
    .symbol "n", .text "x"]
  have hparts : (draft.rules.flatMap fun r => r.2.parts) = parts := by
    simp [draft, Expr.parts, Expr.listParts, parts]
  have htexts : parts.filterMap Expr.text? = ["x", "x", "x"] := rfl
  have hpatterns : (parts.filterMap Expr.pattern?).eraseDups = [] := List.eraseDups_nil
  have hfields : sortNames (parts.filterMap Expr.field?) = [] := sortNames_nil
  have hdeclared : (draft.tokens.filter (·.isLiteral)).map (·.name) = [] := rfl
  have hliterals : (["x", "x", "x"].filter fun x =>
      !(Std.HashSet.ofList ([] : List String)).contains x).eraseDups =
        ["x"] := by
    simp [List.eraseDups, List.eraseDupsBy, List.eraseDupsBy.loop]
  have hterminals : draft.tokens.foldl (Terminals.addToken draft.modes)
      (["x"].foldl Terminals.addLiteral { scope := { start := "s" }, symbols := builtinSymbols }) =
      { scope := { literals := scope.literals, start := "s" }
        symbols := builtinSymbols ++ #[⟨"x", true, true, false⟩]
        lexical := flat.lexical.reverse } := rfl
  have hnames : draft.rules.foldl addRuleName (⟨{}, scope.literals, {}, {}, "s"⟩,
      builtinSymbols ++ #[⟨"x", true, true, false⟩],
      #[]) = (scope, flat.symbols.pop, #[⟨3⟩, ⟨4⟩, ⟨5⟩, ⟨6⟩]) := by
    simp only [draft, List.foldl_cons, List.foldl_nil, addRuleName, not_hidden]
    rfl
  have hrules : (draft.rules.zip [⟨3⟩, ⟨4⟩, ⟨5⟩, ⟨6⟩]).foldlM (lowerRule scope)
      { symbols := flat.symbols.pop.push ⟨acceptName, false, false, true⟩
        productions := #[{ lhs := .ofNat flat.symbols.pop.size, steps := [{ symbol := ⟨3⟩ }] }] } =
      .ok { symbols := flat.symbols, productions := flat.productions, rule := ⟨6⟩ } := by
    obtain ⟨-, -, hb, hn, -⟩ := lookup_eq
    simp only [draft, List.zip_cons_cons, List.zip_nil_right, List.foldlM_cons,
      List.foldlM_nil, lower_s, lower_b, lower_letter _ hb, lower_letter _ hn, bind, Except.bind]
    rfl
  have hscope : (⟨scope.names, scope.literals, scope.patterns, {}, scope.start⟩ : Scope) = scope :=
    rfl
  unfold flatten
  simp only [hparts, hdeclared, htexts, hpatterns, hfields, hliterals, List.zipIdx_nil,
    List.foldl_nil, hterminals, hnames]
  simp only [hscope, lookup_eq, bind, Except.bind, State.addSymbol, hrules]
  rw [if_neg (by decide)]
  rfl

private theorem wellFormed : flat.WellFormed :=
  wellFormed_of_flatten (Draft.valid_of_validate valid) flattened

def first : First where
  first := #[⟨1⟩, ⟨2⟩, ⟨4⟩, ⟨4⟩, ⟨4⟩, ⟨4⟩, .empty, ⟨4⟩]
  nullable := #[false, false, false, false, false, false, false, false]

private theorem first_eq : First.compute flat = first := by decide +kernel

def before : Items := [(⟨0, 0⟩, .singleton 0)]

/-- Pairs of an item and a lookahead are not predicted further than to the rule `s`. -/
private theorem propagated : Propagated flat before {x | x = (⟨0, 0⟩, 0) ∨ x = (⟨1, 0⟩, 0)} := by
  have hbegins {rest : List Step} {t : Nat} : StartsWith flat rest t ↔
      t ∈ (first.ofSteps rest).1 := by
    rw [← first_eq]
    exact (First.mem_ofSteps_iff wellFormed t).symm
  have hvanishes {rest : List Step} : Vanishes flat rest ↔ (first.ofSteps rest).2 = true := by
    rw [← first_eq]
    exact (First.nullable_ofSteps_iff wellFormed).symm
  have hnext {rest : List Step} {q : Nat} (h : Predicts flat ⟨0, 0⟩ rest q) : rest = [] ∧
      q = 1 := by
    obtain ⟨s, hs, -, hq⟩ := (predicts_iff wellFormed).1 h
    obtain ⟨rfl, rfl⟩ := List.cons.inj hs
    exact ⟨rfl, by simpa [flat, Flat.productionsOf] using hq⟩
  have hlast {rest : List Step} {q : Nat} (h : Predicts flat ⟨1, 0⟩ rest q) : rest =
      [{ symbol := ⟨6⟩ }] := by
    obtain ⟨s, hs, -⟩ := (predicts_iff wellFormed).1 h
    exact (List.cons.inj hs).2.symm
  constructor
  case kernel =>
    rintro i t ⟨ahead, hi, ht⟩
    obtain ⟨rfl, rfl⟩ := Prod.mk.inj (List.mem_singleton.1 hi)
    rw [BitSet.mem_singleton.1 ht]
    exact .inl rfl
  case begins =>
    rintro i t (hi | hi) rest q hpredicts u hu <;> obtain ⟨rfl, rfl⟩ := Prod.mk.inj hi
    · rw [hbegins, (hnext hpredicts).1] at hu
      exact absurd hu (BitSet.not_mem_empty u)
    · rw [hbegins, hlast hpredicts] at hu
      exact absurd hu (BitSet.not_mem_empty u)
  case vanishes =>
    rintro i t (hi | hi) rest q hpredicts hrest <;> obtain ⟨rfl, rfl⟩ := Prod.mk.inj hi
    · rw [(hnext hpredicts).2]
      exact .inr rfl
    · rw [hvanishes, hlast hpredicts] at hrest
      contradiction

end Barren

/-- In front of a rule that derives nothing, an item without a lookahead predicts an item with
one. -/
theorem barren_closure_not_least : Barren.draft.validate = .ok ⟨Barren.draft, "s"⟩ ∧
    flatten ⟨Barren.draft, "s"⟩ = .ok Barren.flat ∧ Proper Barren.flat Barren.before ∧
      (closure Barren.flat (First.compute Barren.flat) Barren.before).Has ⟨3, 0⟩ 2 ∧
      ¬ IsLeast {pairs | Propagated Barren.flat Barren.before pairs}
        (collection (closure Barren.flat (First.compute Barren.flat) Barren.before)).2 := by
  have hexact := First.exact_compute Barren.wellFormed
  have hhas : (closure Barren.flat (First.compute Barren.flat) Barren.before).Has ⟨3, 0⟩ 2 := by
    have hs : Closed Barren.flat Barren.before.cores ⟨1, 0⟩ :=
      (Closed.kernel (i := ⟨0, 0⟩) (by decide)).predict rfl rfl
        (by simp [Barren.flat, Flat.productionsOf])
    have ha : Closed Barren.flat Barren.before.cores ⟨2, 0⟩ :=
      hs.predict rfl rfl (by simp [Barren.flat, Flat.productionsOf])
    have hb : Ahead Barren.flat Barren.first Barren.before ⟨3, 0⟩ 2 :=
      .spontaneous ha rfl rfl (by simp [Barren.flat, Flat.productionsOf]) (by decide)
    rw [← Barren.first_eq] at hb
    exact (has_collection_closure Barren.wellFormed
      (Kernel.start.proper Barren.wellFormed hexact)).2 hb
  refine ⟨Barren.valid, Barren.flattened, Kernel.start.proper Barren.wellFormed hexact,
    hhas, fun hleast => ?_⟩
  have hmem : (⟨3, 0⟩, 2) ∈ {x : Item × Nat | x = (⟨0, 0⟩, 0) ∨ x = (⟨1, 0⟩, 0)} :=
    hleast.2 Barren.propagated hhas
  revert hmem
  decide

end Items
end Reparse.Table

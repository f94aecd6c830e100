import Mathlib
import Reparse.Proofs.Listing
import Reparse.Proofs.Lowering
import Reparse.Proofs.Rows

/-! # Which of several reductions is chosen

Reductions are compared two at a time, in order of productions, so a reduction that is stronger than
all others is met only after the ones before it have been compared among themselves. It is chosen
unless two of these clash. -/
namespace Reparse.Table
open Grammar

namespace Conflict

variable {g : Flat} {a b : Nat}

/-- What a reduction is compared by: first its level, and then its dynamic precedence. -/
def strength (g : Flat) (q : Nat) : Int ×ₗ Int := toLex ((precedenceOf g q).value, dynamicOf g q)

/-- Order of declaration settles what precedences leave open: within a rule, and within a group of
expected conflicts. -/
def Related (g : Flat) (a b : Nat) : Prop :=
  lhsOf g a = lhsOf g b ∨ g.conflictExpected (lhsOf g a) (lhsOf g b) = true

instance (g : Flat) (a b : Nat) : Decidable (Related g a b) := inferInstanceAs (Decidable (_ ∨ _))

theorem value_of_not_isDeclared {p : Precedence} (h : p.isDeclared = false) : p.value = 0 := by
  obtain ⟨level, assoc⟩ := p
  cases level with
  | none => rfl
  | some level => simp [Precedence.isDeclared] at h

/-- Levels that are not declared are equal, so it does no harm to compare them. -/
private theorem compare_level (g : Flat) (a b : Nat) :
    (if ((precedenceOf g a).isDeclared || (precedenceOf g b).isDeclared) = true
      then compare (precedenceOf g a).value (precedenceOf g b).value else .eq) =
        compare (precedenceOf g a).value (precedenceOf g b).value := by
  split
  · rfl
  · next h =>
    simp only [Bool.or_eq_true, not_or, Bool.not_eq_true] at h
    rw [value_of_not_isDeclared h.1, value_of_not_isDeclared h.2]
    rfl

private theorem compare_strength (g : Flat) (a b : Nat) : compare (strength g a) (strength g b) =
    (compare (precedenceOf g a).value (precedenceOf g b).value).then
      (compare (dynamicOf g a) (dynamicOf g b)) := by
  rw [Prod.Lex.compare_def]
  rfl

theorem preferReduce_eq (g : Flat) (a b : Nat) : preferReduce g a b =
    match compare (strength g a) (strength g b) with
    | .gt => some a
    | .lt => some b
    | .eq => if Related g a b then some (min a b) else none := by
  unfold preferReduce
  dsimp only
  rw [compare_level, ← compare_strength]
  rfl

private theorem preferReduce_of_lt (h : strength g a < strength g b) :
    preferReduce g a b = some b := by
  rw [preferReduce_eq, compare_lt_iff_lt.2 h]

private theorem preferReduce_of_gt (h : strength g b < strength g a) :
    preferReduce g a b = some a := by
  rw [preferReduce_eq, compare_gt_iff_gt.2 h]

private theorem preferReduce_of_eq (h : strength g a = strength g b) :
    preferReduce g a b = if Related g a b then some (min a b) else none := by
  rw [preferReduce_eq, compare_eq_iff_eq.2 h]

/-! ## All reductions of a cell -/

/-- The first of the strongest reductions. -/
structure Leads (g : Flat) (reduces : List Nat) (a : Nat) : Prop where
  mem : a ∈ reduces
  strongest : ∀ q ∈ reduces, strength g q ≤ strength g a
  first : ∀ q ∈ reduces, q < a → strength g q < strength g a

/-- A reduction meets an equally strong one, the first of the strongest up to there, and nothing
settles between them. -/
structure Clash (g : Flat) (reduces : List Nat) (a b : Nat) : Prop where
  left : Leads g (reduces.filter (· < b)) a
  right : b ∈ reduces
  tie : strength g a = strength g b
  unrelated : ¬ Related g a b

private theorem leads_singleton (g : Flat) (a : Nat) : Leads g [a] a where
  mem := List.mem_singleton_self a
  strongest q hq := by rw [List.mem_singleton.1 hq]
  first q hq hlt := absurd hlt (by rw [List.mem_singleton.1 hq]; exact Nat.lt_irrefl a)

/-- What one more reduction changes. -/
private theorem Leads.snoc {seen : List Nat} (h : Leads g seen a) (hb : ∀ q ∈ seen, q < b) :
    (strength g a < strength g b → Leads g (seen ++ [b]) b) ∧
      (strength g b ≤ strength g a → Leads g (seen ++ [b]) a) := by
  constructor
  · intro hlt
    refine ⟨by simp, fun q hq => ?_, fun q hq hqb => ?_⟩
    · rcases List.mem_append.1 hq with hq | hq
      · exact (lt_of_le_of_lt (h.strongest q hq) hlt).le
      · rw [List.mem_singleton.1 hq]
    · rcases List.mem_append.1 hq with hq | hq
      · exact lt_of_le_of_lt (h.strongest q hq) hlt
      · rw [List.mem_singleton.1 hq] at hqb
        exact absurd hqb (Nat.lt_irrefl b)
  · intro hle
    refine ⟨List.mem_append_left _ h.mem, fun q hq => ?_, fun q hq hqa => ?_⟩
    · rcases List.mem_append.1 hq with hq | hq
      · exact h.strongest q hq
      · rw [List.mem_singleton.1 hq]
        exact hle
    · rcases List.mem_append.1 hq with hq | hq
      · exact h.first q hq hqa
      · rw [List.mem_singleton.1 hq] at hqa
        exact absurd (hb a h.mem) (Nat.lt_asymm hqa)

private theorem Leads.unique {reduces : List Nat} (h : Leads g reduces a) (h' : Leads g reduces b) :
    a = b := by
  have htie : strength g a = strength g b :=
    le_antisymm (h'.strongest a h.mem) (h.strongest b h'.mem)
  rcases Nat.lt_trichotomy a b with hlt | heq | hlt
  · exact absurd (h'.first a h.mem hlt) (by rw [htie]; exact lt_irrefl _)
  · exact heq
  · exact absurd (h.first b h'.mem hlt) (by rw [htie]; exact lt_irrefl _)

/-- In increasing order, what is below an element is what stands before it. -/
theorem filter_lt_of_sorted {seen rest : List Nat} (h : (seen ++ b :: rest).Pairwise (· < ·)) :
    (seen ++ b :: rest).filter (· < b) = seen := by
  obtain ⟨-, hrest, hseen⟩ := List.pairwise_append.1 h
  have hbefore : seen.filter (· < b) = seen :=
    List.filter_eq_self.2 fun q hq => decide_eq_true (hseen q hq b List.mem_cons_self)
  have hbehind : (b :: rest).filter (· < b) = [] := by
    refine List.filter_eq_nil_iff.2 fun q hq => ?_
    rw [decide_eq_true_eq, Nat.not_lt]
    rcases List.mem_cons.1 hq with rfl | hq
    · exact Nat.le_refl q
    · exact Nat.le_of_lt ((List.pairwise_cons.1 hrest).1 q hq)
  rw [List.filter_append, hbefore, hbehind, List.append_nil]

/-- A clash at the next reduction is with the one that leads so far. -/
private theorem clash_next_iff {seen rest : List Nat} (h : (seen ++ b :: rest).Pairwise (· < ·))
    {w : Nat} (hw : Leads g seen w) :
    Clash g (seen ++ b :: rest) a b ↔ a = w ∧ strength g w = strength g b ∧ ¬ Related g w b := by
  constructor
  · rintro ⟨hleads, -, htie, hunrelated⟩
    rw [filter_lt_of_sorted h] at hleads
    obtain rfl := hleads.unique hw
    exact ⟨rfl, htie, hunrelated⟩
  · rintro ⟨rfl, htie, hunrelated⟩
    exact ⟨by rwa [filter_lt_of_sorted h], by simp, htie, hunrelated⟩

/-- The comparison of reductions goes on from the one that leads to the one that leads them all, or
ends in a clash. -/
theorem foldlM_preferReduce {rest seen : List Nat} {w : Nat}
    (hsorted : (seen ++ rest).Pairwise (· < ·)) (hw : Leads g seen w) :
    (∃ v, rest.foldlM (preferReduce g) w = some v ∧ Leads g (seen ++ rest) v ∧
        ∀ a, ∀ b ∈ rest, ¬ Clash g (seen ++ rest) a b) ∨
      rest.foldlM (preferReduce g) w = none ∧ ∃ a b, Clash g (seen ++ rest) a b := by
  induction rest generalizing seen w with
  | nil => exact .inl ⟨w, rfl, by rwa [List.append_nil], nofun⟩
  | cons b rest ih =>
    have hb : ∀ q ∈ seen, q < b := fun q hq =>
      (List.pairwise_append.1 hsorted).2.2 q hq b List.mem_cons_self
    have hnext {w' : Nat} (hstep : preferReduce g w b = some w') (hw' : Leads g (seen ++ [b]) w')
        (hcalm : ∀ a, ¬ Clash g (seen ++ b :: rest) a b) :
        (∃ v, (b :: rest).foldlM (preferReduce g) w = some v ∧ Leads g (seen ++ b :: rest) v ∧
            ∀ a, ∀ q ∈ b :: rest, ¬ Clash g (seen ++ b :: rest) a q) ∨
          (b :: rest).foldlM (preferReduce g) w = none ∧
          ∃ a q, Clash g (seen ++ b :: rest) a q := by
      rw [List.append_cons] at hsorted hcalm ⊢
      rw [List.foldlM_cons, hstep]
      rcases ih hsorted hw' with ⟨v, hv, hleads, hrest⟩ | hclash
      · refine .inl ⟨v, hv, hleads, fun a q hq => ?_⟩
        rcases List.mem_cons.1 hq with rfl | hq
        · exact hcalm a
        · exact hrest a q hq
      · exact .inr hclash
    rcases lt_trichotomy (strength g w) (strength g b) with hlt | heq | hgt
    · refine hnext (preferReduce_of_lt hlt) ((hw.snoc hb).1 hlt) fun a hclash => ?_
      exact hlt.ne ((clash_next_iff hsorted hw).1 hclash).2.1
    · by_cases hrelated : Related g w b
      · refine hnext ?_ ((hw.snoc hb).2 heq.ge) fun a hclash =>
          ((clash_next_iff hsorted hw).1 hclash).2.2 hrelated
        rw [preferReduce_of_eq heq, if_pos hrelated, Nat.min_eq_left (Nat.le_of_lt (hb w hw.mem))]
      · refine .inr ⟨?_, w, b, (clash_next_iff hsorted hw).2 ⟨rfl, heq, hrelated⟩⟩
        rw [List.foldlM_cons, preferReduce_of_eq heq, if_neg hrelated]
        rfl
    · refine hnext (preferReduce_of_gt hgt) ((hw.snoc hb).2 hgt.le) fun a hclash => ?_
      exact hgt.ne' ((clash_next_iff hsorted hw).1 hclash).2.1

/-- The reduction that is left over is the first of the strongest, unless there is a clash. -/
theorem leftover_or_clash {first : Nat} {rest : List Nat}
    (hsorted : (first :: rest).Pairwise (· < ·)) :
    (∃ v, rest.foldlM (preferReduce g) first = some v ∧ Leads g (first :: rest) v ∧
        ∀ a b, ¬ Clash g (first :: rest) a b) ∨
      rest.foldlM (preferReduce g) first = none ∧ ∃ a b, Clash g (first :: rest) a b := by
  have hfold := foldlM_preferReduce (show ([first] ++ rest).Pairwise (· < ·) from hsorted)
    (leads_singleton g first)
  rw [List.singleton_append] at hfold
  rcases hfold with ⟨v, hv, hleads, hcalm⟩ | hclash
  · refine .inl ⟨v, hv, hleads, fun a b hclash => ?_⟩
    rcases List.mem_cons.1 hclash.right with rfl | hb
    · -- nothing stands before the first reduction
      have hnone := filter_lt_of_sorted (show ([] ++ b :: rest).Pairwise (· < ·) from hsorted)
      have hleft := hclash.left.mem
      rw [← List.nil_append (b :: rest), hnone] at hleft
      contradiction
    · exact hcalm a b hb hclash
  · exact .inr hclash

theorem leads_or_clash {reduces : List Nat} (hsorted : reduces.Pairwise (· < ·))
    (hne : reduces ≠ []) :
    (∃ v, Leads g reduces v ∧ ∀ a b, ¬ Clash g reduces a b) ∨ ∃ a b, Clash g reduces a b := by
  obtain ⟨first, rest, rfl⟩ := List.exists_cons_of_ne_nil hne
  rcases leftover_or_clash (g := g) hsorted with ⟨v, -, hleads, hcalm⟩ | ⟨-, hclash⟩
  · exact .inl ⟨v, hleads, hcalm⟩
  · exact .inr hclash

variable {cell : Cell} (hsorted : cell.reduces.Pairwise (· < ·)) (id : Nat)
include hsorted

/-- A clash is reported, whether or not there is a shift. -/
theorem resolve_of_clash (h : Clash g cell.reduces a b) : resolve g id cell =
    .error (report g id cell.lookahead .reduceReduce (cell.reduces.map (completed g))) := by
  obtain ⟨lookahead, shift, reduces⟩ := cell
  obtain ⟨first, rest, rfl⟩ := List.exists_cons_of_ne_nil (List.ne_nil_of_mem h.right)
  rcases leftover_or_clash (g := g) hsorted with ⟨-, -, -, hcalm⟩ | ⟨hnone, -⟩
  · exact absurd h (hcalm a b)
  · simp only [resolve, hnone]

/-- Without a clash, the first of the strongest reductions is weighed against the shift. -/
theorem resolve_of_leads {v : Nat} (hleads : Leads g cell.reduces v)
    (hcalm : ∀ a b, ¬ Clash g cell.reduces a b) :
    resolve g id cell = match cell.shift with
      | none => .ok (some (reduceAction v))
      | some (target, items) =>
        match shiftOrReduce g items v with
        | some .shift => .ok (some (.shift target))
        | some .reduce => .ok (some (reduceAction v))
        | none => .error (report g id cell.lookahead .shiftReduce (items ++ [completed g v])) := by
  obtain ⟨lookahead, shift, reduces⟩ := cell
  obtain ⟨first, rest, rfl⟩ := List.exists_cons_of_ne_nil (List.ne_nil_of_mem hleads.mem)
  rcases leftover_or_clash (g := g) hsorted with ⟨w, hw, hleads', -⟩ | ⟨-, a, b, hclash⟩
  · obtain rfl := hleads.unique hleads'
    rcases shift with _ | ⟨target, items⟩
    · simp only [resolve, hw]
    · cases hshift : shiftOrReduce g items v with
      | none => simp only [resolve, hw, hshift]
      | some winner => cases winner <;> simp only [resolve, hw, hshift]
  · exact absurd hclash (hcalm a b)

end Conflict

/-! ## Three rules for one letter, of which the last is the strongest -/

namespace Rivals
open Data Grammar.Lowering Conflict

def draft : Draft where
  name := "rivals"
  rules :=
    [("s", .choice [.symbol "a", .symbol "b", .symbol "c"]), ("a", .text "x"), ("b", .text "x"),
      ("c", .precLevel 1 (.text "x"))]

def flat : Flat where
  name := "rivals"
  version := "0.0.0"
  symbols := builtinSymbols ++
    #[⟨"x", true, true, false⟩, ⟨"s", false, true, true⟩, ⟨"a", false, true, true⟩,
    ⟨"b", false, true, true⟩, ⟨"c", false, true, true⟩, ⟨acceptName, false, false, true⟩]
  terminalCount := 3
  productions := #[
    { lhs := ⟨7⟩, steps := [{ symbol := ⟨3⟩ }] }, { lhs := ⟨3⟩, steps := [{ symbol := ⟨4⟩ }] },
    { lhs := ⟨3⟩, steps := [{ symbol := ⟨5⟩ }] }, { lhs := ⟨3⟩, steps := [{ symbol := ⟨6⟩ }] },
    { lhs := ⟨4⟩, steps := [{ symbol := ⟨2⟩ }] }, { lhs := ⟨5⟩, steps := [{ symbol := ⟨2⟩ }] },
    { lhs := ⟨6⟩, steps := [{ symbol := ⟨2⟩, precedence := { level := some 1 } }],
      precedence := { level := some 1 } }]
  byLhs := #[#[], #[], #[], #[1, 2, 3], #[4], #[5], #[6], #[0]]
  start := ⟨3⟩
  fields := #[]
  extras := #[]
  word := none
  wordPattern := none
  conflictGroups := []
  declaredRules := [⟨3⟩, ⟨4⟩, ⟨5⟩, ⟨6⟩]
  lexical := [{ kind := ⟨2⟩, pattern := .literal "x" }]
  modes := [defaultMode]

private theorem not_hidden :
    isHiddenName "s" = false ∧ isHiddenName "a" = false ∧ isHiddenName "b" = false ∧
    isHiddenName "c" = false := by
  simp only [isHiddenName, String.startsWith_string_eq_false_iff]
  decide

theorem valid : draft.validate = .ok ⟨draft, "s"⟩ := by
  simp [Draft.validate, draft, Draft.checkRuleName, Draft.checkRuleBody, bind, Except.bind,
    pure, Except.pure, not_hidden, Expr.parts, Expr.listParts, Expr.symbol?, Expr.precLevel]

def scope : Scope where
  names :=
    (((({} : Std.HashMap String Kind).insert "s" ⟨3⟩).insert "a" ⟨4⟩).insert "b" ⟨5⟩).insert "c" ⟨6⟩
  literals := ({} : Std.HashMap String Kind).insert "x" ⟨2⟩
  start := "s"

theorem lookup_eq :
    scope.lookup "s" = .ok ⟨3⟩ ∧ scope.lookup "a" = .ok ⟨4⟩ ∧ scope.lookup "b" = .ok ⟨5⟩ ∧
    scope.lookup "c" = .ok ⟨6⟩ ∧ scope.literals["x"]? = some ⟨2⟩ := by
  simp [scope, Scope.lookup, Std.HashMap.getElem_insert]

private theorem lower_s (st : Lowering.State) : lowerRule scope st
    (("s", .choice [.symbol "a", .symbol "b", .symbol "c"]), ⟨3⟩) = .ok { st with
      productions := ((st.productions.push { lhs := ⟨3⟩, steps := [{ symbol := ⟨4⟩ }] }).push
        { lhs := ⟨3⟩, steps := [{ symbol := ⟨5⟩ }] }).push
          { lhs := ⟨3⟩, steps := [{ symbol := ⟨6⟩ }] }
      rule := ⟨3⟩
      repeats := 0 } := by
  simp [lowerRule, lower, lowerChoice, lookup_eq, bind, Except.bind, pure,
    Except.pure, maxAlternatives, State.addAlternatives]
  rw [distinct_of_nodup (by decide) (by simp)]
  rfl

/-- A rule for the letter alone. -/
private theorem lower_letter (st : Lowering.State) (name : String) (kind : Kind) :
    lowerRule scope st ((name, .text "x"), kind) =
    .ok { st with
      productions := st.productions.push { lhs := kind, steps := [{ symbol := ⟨2⟩ }] }
      rule := kind
      repeats := 0 } := by
  simp [lowerRule, lower, lookup_eq, bind, Except.bind, pure, Except.pure, maxAlternatives,
    State.addAlternatives, distinct_singleton]
  rfl

private theorem lower_c (st : Lowering.State) :
    lowerRule scope st (("c", .precLevel 1 (.text "x")), ⟨6⟩) = .ok { st with
      productions := st.productions.push
        { lhs := ⟨6⟩, steps := [{ symbol := ⟨2⟩, precedence := { level := some 1 } }],
          precedence := { level := some 1 } }
      rule := ⟨6⟩
      repeats := 0 } := by
  simp [lowerRule, lower, lookup_eq, bind, Except.bind, pure, Except.pure, maxAlternatives,
    State.addAlternatives, distinct_singleton, Expr.precLevel]
  rfl

theorem flattened : flatten ⟨draft, "s"⟩ = .ok flat := by
  let parts : List Expr :=
    [.choice [.symbol "a", .symbol "b", .symbol "c"], .symbol "a", .symbol "b", .symbol "c",
      .text "x", .text "x", .precLevel 1 (.text "x"), .text "x"]
  have hparts : (draft.rules.flatMap fun r => r.2.parts) = parts := by
    simp [draft, Expr.parts, Expr.listParts, parts, Expr.precLevel]
  have htexts : parts.filterMap Expr.text? = ["x", "x", "x"] := rfl
  have hpatterns : (parts.filterMap Expr.pattern?).eraseDups = [] := List.eraseDups_nil
  have hfields : sortNames (parts.filterMap Expr.field?) = [] := sortNames_nil
  have hdeclared : (draft.tokens.filter (·.isLiteral)).map (·.name) = [] := rfl
  have hliterals : (["x", "x", "x"].filter fun x =>
      !(Std.HashSet.ofList ([] : List String)).contains x).eraseDups =
        ["x"] := by
    simp [List.eraseDups, List.eraseDupsBy, List.eraseDupsBy.loop]
  have hterminals : draft.tokens.foldl (Terminals.addToken draft.modes)
      (["x"].foldl Terminals.addLiteral { scope := { start := "s" }, symbols := builtinSymbols }) =
      { scope := { literals := scope.literals, start := "s" }
        symbols := builtinSymbols ++ #[⟨"x", true, true, false⟩]
        lexical := flat.lexical.reverse } := rfl
  have hnames : draft.rules.foldl addRuleName (⟨{}, scope.literals, {}, {}, "s"⟩,
      builtinSymbols ++ #[⟨"x", true, true, false⟩],
      #[]) = (scope, flat.symbols.pop, #[⟨3⟩, ⟨4⟩, ⟨5⟩, ⟨6⟩]) := by
    simp only [draft, List.foldl_cons, List.foldl_nil, addRuleName, not_hidden]
    rfl
  have hrules : (draft.rules.zip [⟨3⟩, ⟨4⟩, ⟨5⟩, ⟨6⟩]).foldlM (lowerRule scope)
      { symbols := flat.symbols.pop.push ⟨acceptName, false, false, true⟩
        productions := #[{ lhs := .ofNat flat.symbols.pop.size, steps := [{ symbol := ⟨3⟩ }] }] } =
      .ok { symbols := flat.symbols, productions := flat.productions, rule := ⟨6⟩ } := by
    simp only [draft, List.zip_cons_cons, List.zip_nil_right, List.foldlM_cons, List.foldlM_nil,
      lower_s, lower_letter, lower_c, bind, Except.bind]
    rfl
  have hscope : (⟨scope.names, scope.literals, scope.patterns, {}, scope.start⟩ : Scope) = scope :=
    rfl
  unfold flatten
  simp only [hparts, hdeclared, htexts, hpatterns, hfields, hliterals, List.zipIdx_nil,
    List.foldl_nil, hterminals, hnames]
  simp only [hscope, lookup_eq, bind, Except.bind, State.addSymbol, hrules]
  rw [if_neg (by decide)]
  rfl

def first : First where
  first := #[⟨1⟩, ⟨2⟩, ⟨4⟩, ⟨4⟩, ⟨4⟩, ⟨4⟩, ⟨4⟩, ⟨4⟩]
  nullable := #[false, false, false, false, false, false, false, false]

private theorem first_eq : First.compute flat = first := by decide +kernel

def behindLetter : Table.State := ⟨[(⟨4, 1⟩, ⟨1⟩), (⟨5, 1⟩, ⟨1⟩), (⟨6, 1⟩, ⟨1⟩)], #[]⟩

/-- Before the letter, behind it, and behind each of the rules. -/
def states : Array Table.State := #[
  ⟨[(⟨0, 0⟩, ⟨1⟩)], #[(⟨2⟩, 1), (⟨3⟩, 2), (⟨4⟩, 3), (⟨5⟩, 4), (⟨6⟩, 5)]⟩,
  behindLetter,
  ⟨[(⟨0, 1⟩, ⟨1⟩)], #[]⟩,
  ⟨[(⟨1, 1⟩, ⟨1⟩)], #[]⟩,
  ⟨[(⟨2, 1⟩, ⟨1⟩)], #[]⟩,
  ⟨[(⟨3, 1⟩, ⟨1⟩)], #[]⟩]

private theorem automaton_eq : automaton flat first .lalr = states := by
  rw [Table.automaton_eq]
  cbv

/-- The cell behind the letter, at the end of the text. -/
def cell : Cell := ⟨.eof, none, [4, 5, 6]⟩

def conflict : Grammar.Conflict :=
  ⟨1, "end", .reduceReduce, ["a → 'x' •", "b → 'x' •", "c → 'x' •"]⟩

theorem conflicts : Table.build flat .lalr = .error (.conflicts [conflict]) := by
  unfold Table.build
  simp only [first_eq, automaton_eq]
  cbv

private theorem cells_eq : cells flat first behindLetter = [cell] := by cbv

private theorem dominates : ∀ q ∈ cell.reduces, q ≠ 6 → strength flat q < strength flat 6 := by
  decide

private theorem clash : Clash flat cell.reduces 4 5 where
  left := leads_singleton flat 4
  right := by decide
  tie := rfl
  unrelated := by decide

end Rivals

/-! ## The strongest reduction -/

namespace Conflict

/-- A reduction that is stronger than all others is chosen, unless two of those before it clash;
then there is a conflict. -/
theorem resolve_dominating {g : Flat} {cell : Cell} {d : Nat} (hshift : cell.shift = none)
    (hsorted : cell.reduces.Pairwise (· < ·)) (hd : d ∈ cell.reduces)
    (hdominates : ∀ q ∈ cell.reduces, q ≠ d → strength g q < strength g d) (id : Nat) :
    ((¬ ∃ a b, Clash g cell.reduces a b) → resolve g id cell = .ok (some (reduceAction d))) ∧
      ∀ a b, Clash g cell.reduces a b → a < b ∧ b < d ∧
        resolve g id cell =
          .error (report g id cell.lookahead .reduceReduce (cell.reduces.map (completed g))) := by
  constructor
  · intro hcalm
    rcases leads_or_clash (g := g) hsorted (List.ne_nil_of_mem hd) with ⟨v, hleads, -⟩ | hclash
    · obtain rfl : v = d := by
        by_contra hne
        exact absurd (hdominates v hleads.mem hne) (not_lt_of_ge (hleads.strongest d hd))
      rw [resolve_of_leads hsorted id hleads fun a b h => hcalm ⟨a, b, h⟩, hshift]
    · exact absurd hclash hcalm
  · intro a b hclash
    obtain ⟨ha, hab⟩ := List.mem_filter.1 hclash.left.mem
    have hab : a < b := of_decide_eq_true hab
    refine ⟨hab, ?_, resolve_of_clash hsorted id hclash⟩
    by_contra hdb
    rcases Nat.lt_or_eq_of_le (Nat.le_of_not_lt hdb) with hlt | rfl
    · -- the dominating reduction would lead before `b`
      have hle := hclash.left.strongest d (List.mem_filter.2 ⟨hd, decide_eq_true hlt⟩)
      rw [hclash.tie] at hle
      exact absurd (hdominates b hclash.right (Nat.ne_of_gt hlt)) (not_lt_of_ge hle)
    · exact (hdominates a ha (Nat.ne_of_lt hab)).ne hclash.tie

end Conflict

/-- Between the rules a and c the second is chosen; with the rule b there is a clash before it. -/
theorem Conflict.resolve_dominating_rivals :
    resolve Rivals.flat 1 ⟨.eof, none, [4, 6]⟩ = .ok (some (.reduce 6)) ∧
      resolve Rivals.flat 1 Rivals.cell = .error (report Rivals.flat 1 .eof .reduceReduce
        (Rivals.cell.reduces.map (completed Rivals.flat))) := by
  constructor
  · refine (resolve_dominating (d := 6) rfl (by decide) (by decide) (by decide) 1).1 ?_
    rintro ⟨a, b, hleft, hright, htie, -⟩
    have ha : a ∈ [4, 6] := (List.mem_filter.1 hleft.mem).1
    have hab : a < b := of_decide_eq_true (List.mem_filter.1 hleft.mem).2
    fin_cases ha <;> fin_cases hright <;> revert htie hab <;> decide
  · exact ((resolve_dominating (d := 6) rfl (by decide) (by decide) Rivals.dominates 1).2 4
      5 Rivals.clash).2.2

/-- The strongest reduction need not be chosen: the rule c has the only precedence, but the rules a
and b before it have clashed already. -/
theorem rivals_conflict : Rivals.draft.validate = .ok ⟨Rivals.draft, "s"⟩ ∧
    flatten ⟨Rivals.draft, "s"⟩ = .ok Rivals.flat ∧
      (∃ st, (automaton Rivals.flat (First.compute Rivals.flat) .lalr)[1]? = some st ∧
        cells Rivals.flat (First.compute Rivals.flat) st = [⟨.eof, none, [4, 5, 6]⟩]) ∧
        (∀ q ∈ [4, 5, 6], q ≠ 6 →
          Conflict.strength Rivals.flat q < Conflict.strength Rivals.flat 6) ∧
          Conflict.resolve Rivals.flat 1 ⟨.eof, none, [4, 5, 6]⟩ =
              .error ⟨1, "end", .reduceReduce, ["a → 'x' •", "b → 'x' •", "c → 'x' •"]⟩ ∧
            build Rivals.flat .lalr = .error (.conflicts
              [⟨1, "end", .reduceReduce, ["a → 'x' •", "b → 'x' •", "c → 'x' •"]⟩]) := by
  refine ⟨Rivals.valid, Rivals.flattened, ⟨Rivals.behindLetter, ?_, ?_⟩, Rivals.dominates, by cbv,
    Rivals.conflicts⟩
  · rw [Rivals.first_eq, Rivals.automaton_eq]
    rfl
  · rw [Rivals.first_eq]
    exact Rivals.cells_eq

end Reparse.Table

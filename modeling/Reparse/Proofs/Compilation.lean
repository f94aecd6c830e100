import Reparse.Language.Compile
import Reparse.Parse.Basic
import Reparse.Proofs.Flattening
import Reparse.Proofs.Relexing
import Reparse.Proofs.Rows

/-! # Grammars that compile -/
namespace Reparse
open Grammar

/-- A grammar that compiles, with what its compilation makes. -/
structure Compilation where
  draft : Draft
  grammar : Grammar
  valid : draft.validate = .ok grammar
  mode : Table.Mode
  flat : Flat
  flattened : flatten grammar = .ok flat
  lexer : Lexer
  lexed : flat.lexerSpec.build = .ok lexer
  table : Table
  built : Table.build flat mode = .ok table

/-- A token is read as its own kind, or as the word where its own kind has no action. -/
theorem Language.actionFor_eq_some_iff {l : Language} {state : Nat} {leaf : Leaf} {kind : Kind}
    {action : Table.Action} :
    l.actionFor state (some leaf) = (kind, some action) ↔ l.table.action? state kind = some action ∧
      (kind = leaf.kind ∨ l.table.action? state leaf.kind = none ∧ leaf.flags.word = true ∧
        l.word = some kind) := by
  unfold actionFor
  dsimp only
  cases hown : l.table.action? state leaf.kind with
  | some own =>
    simp only [Prod.mk.injEq, Option.some.injEq, reduceCtorEq, false_and, or_false]
    constructor
    · rintro ⟨rfl, rfl⟩
      exact ⟨hown, rfl⟩
    · rintro ⟨haction, rfl⟩
      exact ⟨rfl, Option.some.inj (hown.symm.trans haction)⟩
  | none =>
    have hother (h : l.table.action? state kind = some action) : kind ≠ leaf.kind := by
      rintro rfl
      rw [hown] at h
      contradiction
    cases hflag : leaf.flags.word with
    | false => simpa using fun h => hother h
    | true =>
      cases hword : l.word with
      | none => simpa using fun h => hother h
      | some word =>
        cases haction : l.table.action? state word with
        | none =>
          simp only [if_true, haction, Prod.mk.injEq, reduceCtorEq, and_false, true_and,
            Option.some.injEq, false_iff]
          rintro ⟨h, rfl | rfl⟩
          · exact hother h rfl
          · rw [haction] at h
            contradiction
        | some a =>
          simp only [if_true, haction, Prod.mk.injEq, true_and, Option.some.injEq]
          constructor
          · rintro ⟨rfl, rfl⟩
            exact ⟨haction, .inr rfl⟩
          · rintro ⟨h, rfl | rfl⟩
            · exact absurd rfl (hother h)
            · exact ⟨rfl, Option.some.inj (haction.symm.trans h)⟩

theorem Language.hasAction_eq_false_iff {l : Language} {state : Nat} {next : Option Leaf} :
    l.hasAction state next = false ↔ ∃ kind, l.actionFor state next = (kind, none) := by
  unfold hasAction
  rw [Option.isSome_eq_false_iff, Option.isNone_iff_eq_none]
  constructor
  · exact fun h => ⟨_, Prod.ext rfl h⟩
  · rintro ⟨kind, h⟩
    rw [h]

theorem Language.not_hasAction {l : Language} {state : Nat} {next : Option Leaf} {kind : Kind}
    (h : l.actionFor state next = (kind, none)) : ¬ l.hasAction state next = true := by
  rw [hasAction_eq_false_iff.2 ⟨kind, h⟩]
  nofun

namespace Grammar.Flat

variable {g : Flat}

theorem mem_of_mem_stepsFrom {q d : Nat} {s : Step} (h : s ∈ g.stepsFrom q d) :
    ∃ p, g.productions[q]? = some p ∧ s ∈ p.steps := by
  unfold stepsFrom at h
  cases hp : g.productions[q]? with
  | none => simp [hp] at h
  | some p =>
    rw [hp] at h
    exact ⟨p, rfl, List.mem_of_mem_drop h⟩

theorem stepsFrom_eq_drop (g : Flat) (q d : Nat) : g.stepsFrom q d = (g.stepsFrom q 0).drop d := by
  unfold stepsFrom
  cases g.productions[q]? with
  | none => simp
  | some p => simp

theorem stepsFrom_zero {q : Nat} {p : Production} (hp : g.productions[q]? = some p) :
    g.stepsFrom q 0 = p.steps := by
  unfold stepsFrom
  rw [hp]
  rfl

theorem stepsFrom_advance {i : Table.Item} {s : Step} {rest : List Step}
    (hs : g.stepsFrom i.production i.dot = s :: rest) :
    g.stepsFrom i.advance.production i.advance.dot = rest := by
  have htail := congrArg List.tail hs
  rw [stepsFrom_eq_drop, List.tail_drop] at htail
  rw [stepsFrom_eq_drop]
  exact htail

/-- Production 0 is never predicted. -/
theorem WellFormed.not_predicted (h : g.WellFormed) (cores : List Table.Item) :
    ¬ Table.Items.Predicted g cores 0 := by
  rintro ⟨i, s, rest, -, hs, -, hq⟩
  obtain ⟨accept, hzero, hunused⟩ := h.accepting
  obtain ⟨p, hp, hlhs⟩ := (h.index s.symbol 0).1 hq
  obtain ⟨p', hp', hmem⟩ :=
    mem_of_mem_stepsFrom (g := g) (q := i.production) (d := i.dot) (s := s) (by simp [hs])
  rw [hzero] at hp
  obtain rfl := Option.some.inj hp
  exact (hunused i.production p' hp').2 s hmem hlhs.symm

/-- Nothing but the end of input follows production 0. -/
private theorem WellFormed.ahead_zero (h : g.WellFormed) {f : Table.First} {kernel : Table.Items}
    (hk : Table.Kernel g f kernel) :
    ∀ entry ∈ kernel, entry.1.production = 0 → ∀ t ∈ entry.2, t = Kind.eof.id := by
  induction hk with
  | start =>
    intro entry hentry _ t ht
    rw [List.mem_singleton.1 hentry] at ht
    simpa [Data.BitSet.singleton] using ht
  | @successor kernel next k hk hnext ih =>
    intro entry hentry hzero
    obtain ⟨i, s, rest, hi, -, -, hadvance⟩ := Table.Items.of_mem_successors hnext entry hentry
    have hproduction : i.production = 0 := by
      rw [hadvance] at hzero
      exact hzero
    rcases Table.Items.of_mem_closure hi with hmem | ⟨-, hpredicted⟩
    · exact ih (i, entry.2) hmem hproduction
    · change Table.Items.Predicted g _ i.production at hpredicted
      rw [hproduction] at hpredicted
      exact absurd hpredicted (h.not_predicted _)
  | @unite a b ha hb hcores iha ihb =>
    intro entry hentry hzero t ht
    obtain ⟨s, u, hs, hu, heq⟩ := Table.Items.exists_of_mem_unite hcores hentry
    rw [heq, Data.BitSet.mem_union] at ht
    rcases ht with ht | ht
    · exact iha (entry.1, s) hs hzero t ht
    · exact ihb (entry.1, u) hu hzero t ht

/-- Acceptance is for the end of input. -/
theorem WellFormed.eof_of_accept (h : g.WellFormed) {mode : Table.Mode} {t : Table}
    (hb : Table.Built g mode t) {state : Nat} {k : Kind} (ha : t.action? state k = some .accept) :
    k = .eof := by
  obtain ⟨st, hst, i, ahead, hmem, hzero, -, hk⟩ := hb.of_accept ha
  have hkernel :=
    (Table.Construction.sound_automaton g (Table.First.compute g) mode).kernels state st hst
  rcases Table.Items.of_mem_closure hmem with hmem | ⟨-, hpredicted⟩
  · have hid := h.ahead_zero hkernel _ hmem hzero k.id hk
    cases k
    exact congrArg Kind.mk hid
  · change Table.Items.Predicted g _ i.production at hpredicted
    rw [hzero] at hpredicted
    exact absurd hpredicted (h.not_predicted _)

end Grammar.Flat

namespace Compilation

variable (k : Compilation)

/-- The compiled language. -/
def language : Language where
  metadata := ⟨formatVersion, k.flat.name, k.flat.version⟩
  symbols := k.flat.symbols
  terminalCount := k.flat.terminalCount
  fields := k.flat.fields
  lexer := k.lexer
  table := k.table
  extras := k.flat.extras
  word := k.flat.word
  start := k.flat.start

theorem compile_eq :
    k.grammar.compile k.mode = .ok ⟨k.language, Table.unreachableRules k.flat⟩ := by
  unfold Grammar.compile
  rw [k.flattened]
  simp only [bind, Except.bind, k.lexed, Except.mapError, k.built]
  rfl

/-- Every compiled language comes from a compilation. -/
theorem exists_of_compile {d : Draft} {g : Grammar} {mode : Table.Mode} {c : Compiled}
    (hvalid : d.validate = .ok g) (hc : g.compile mode = .ok c) :
    ∃ k : Compilation, k.draft = d ∧ k.mode = mode ∧ k.language = c.language := by
  obtain ⟨flat, hflat, hc⟩ := bind_eq_ok.1 hc
  obtain ⟨lexer, hlexer, hc⟩ := bind_eq_ok.1 hc
  obtain ⟨table, htable, hc⟩ := bind_eq_ok.1 hc
  obtain rfl := Except.ok.inj hc
  have hlexed : flat.lexerSpec.build = .ok lexer := by
    cases hb : flat.lexerSpec.build with
    | error e =>
      rw [hb] at hlexer
      contradiction
    | ok l =>
      rw [hb] at hlexer
      exact congrArg Except.ok (Except.ok.inj hlexer)
  exact ⟨⟨d, g, hvalid, mode, flat, hflat, lexer, hlexed, table, htable⟩, rfl, rfl, rfl⟩

theorem wellFormed : k.flat.WellFormed :=
  wellFormed_of_flatten (Draft.valid_of_validate k.valid) k.flattened

theorem tableBuilt : Table.Built k.flat k.mode k.table := Table.built_of_build k.built

/-- A lexer knows the kinds of the terminals. -/
theorem of_mem_rules {rule : Lexer.Outcome} (h : rule ∈ k.lexer.rules) :
    ∃ t ∈ k.flat.lexical, t.kind = rule.kind := by
  obtain ⟨-, -, hbuild⟩ := bind_eq_ok.1 k.lexed
  have hlexer := Except.ok.inj hbuild
  rw [← hlexer, Flat.lexerSpec] at h
  obtain ⟨r, hr, rfl⟩ := Array.mem_map.1 h
  obtain ⟨t, ht, rfl⟩ := List.mem_map.1 (List.mem_toArray.1 hr)
  exact ⟨t, ht, rfl⟩

theorem ne_eof_of_emits {kind : Kind} (h : k.lexer.Emits kind) : kind ≠ .eof := by
  rcases h with rfl | ⟨rule, hrule, rfl⟩
  · exact nofun
  · obtain ⟨t, ht, hkind⟩ := k.of_mem_rules hrule
    have hproper := (k.wellFormed.lexical t ht).1
    intro heq
    rw [hkind, heq] at hproper
    exact absurd hproper (by decide)

/-- Only the end of input completes a text. -/
theorem actionFor_ne_accept {state : Nat} {leaf : Leaf} {kind : Kind} (h : leaf.kind ≠ .eof) :
    k.language.actionFor state (some leaf) ≠ (kind, some .accept) := by
  intro ha
  obtain ⟨haction, hkind⟩ := Language.actionFor_eq_some_iff.1 ha
  obtain rfl := k.wellFormed.eof_of_accept k.tableBuilt haction
  rcases hkind with heof | ⟨-, -, hword⟩
  · exact h heof.symm
  · exact absurd (k.wellFormed.word _ hword).1 (by decide)

end Compilation
end Reparse

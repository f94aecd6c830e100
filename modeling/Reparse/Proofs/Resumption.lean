import Reparse.Proofs.Damage
import Reparse.Proofs.MaximalMunch
import Reparse.Proofs.Terminals

/-! # Tokens that are taken over are those that the lexer would find -/
namespace Reparse
open Text Reparse.Tree

namespace Lexer

variable {spec : Spec} {lexer : Lexer} {source : Bytes} {c d : Cursor} {t : Token}
  {offset mode : Nat} {ls : List Leaf}

/-! ## The mode after a token -/

/-- The rules make tokens of different kinds, none of which is that of errors. -/
structure Spec.Distinct (spec : Spec) : Prop where
  kinds : (spec.rules.toList.map (·.kind)).Nodup
  proper : ∀ rule ∈ spec.rules, rule.kind ≠ .error

private theorem exists_outcome (hbuild : spec.build = .ok lexer) {rule : Outcome}
    (h : rule ∈ lexer.rules) :
    ∃ r ∈ spec.rules, rule = ⟨r.kind, r.mode, r.nextMode⟩ := by
  obtain ⟨-, rfl⟩ := Spec.of_build hbuild
  obtain ⟨r, hr, rfl⟩ := Array.mem_map.1 h
  exact ⟨r, hr, rfl⟩

private theorem modeAfter_of_rule (hbuild : spec.build = .ok lexer) (hspec : spec.Distinct)
    {rule : Rule} (hrule : rule ∈ spec.rules) :
    lexer.modeAfter rule.kind rule.mode = rule.nextMode.getD rule.mode := by
  have hfind : lexer.rules.find? (fun r => r.kind == rule.kind && r.mode == rule.mode) =
      some ⟨rule.kind, rule.mode, rule.nextMode⟩ := by
    have hmem : (⟨rule.kind, rule.mode, rule.nextMode⟩ : Outcome) ∈ lexer.rules := by
      obtain ⟨-, rfl⟩ := Spec.of_build hbuild
      exact Array.mem_map.2 ⟨rule, hrule, rfl⟩
    cases hfound : lexer.rules.find? fun r => r.kind == rule.kind && r.mode == rule.mode with
    | none =>
      have hnot := Array.find?_eq_none.1 hfound _ hmem
      simp at hnot
    | some found =>
      have hsame := Array.find?_some hfound
      obtain ⟨r, hr, rfl⟩ := exists_outcome hbuild (Array.mem_of_find?_eq_some hfound)
      simp only [Bool.and_eq_true, beq_iff_eq] at hsame
      rw [List.inj_on_of_nodup_map hspec.kinds (Array.mem_toList_iff.2 hr)
        (Array.mem_toList_iff.2 hrule) hsame.1]
  rw [modeAfter, hfind]
  rfl

private theorem modeAfter_error (hbuild : spec.build = .ok lexer) (hspec : spec.Distinct) :
    lexer.modeAfter .error mode = mode := by
  have hfind : lexer.rules.find? (fun r => r.kind == .error && r.mode == mode) = none := by
    refine Array.find?_eq_none.2 fun rule hrule hsame => ?_
    obtain ⟨r, hr, rfl⟩ := exists_outcome hbuild hrule
    simp only [Bool.and_eq_true, beq_iff_eq] at hsame
    exact hspec.proper r hr hsame.1
  rw [modeAfter, hfind]
  rfl

private theorem mode_of_nextToken (h : lexer.nextToken source c = some t) : t.mode = c.mode := by
  cases nextToken_eq_some_iff.1 h <;> rfl

/-- The mode in which the lexer goes on follows from the kind of the token and its mode. -/
theorem nextMode_of_nextToken (hbuild : spec.build = .ok lexer) (hspec : spec.Distinct)
    (hsize : source.size ≤ maxSize) (h : lexer.nextToken source c = some t) :
    t.nextMode = lexer.modeAfter t.kind c.mode := by
  have hreads := reads_nextToken hbuild hsize h
  generalize hlexeme : t.lexeme = x at hreads
  have hmode : x.nextMode = lexer.modeAfter x.kind c.mode := by
    cases hreads with
    | @token n rule word takes isWord =>
      obtain ⟨i, hfits, -⟩ := takes.first
      rw [← hfits.mode]
      exact (modeAfter_of_rule hbuild hspec (Array.mem_of_getElem? hfits.number)).symm
    | error stuck => exact (modeAfter_error hbuild hspec).symm
  rwa [← hlexeme] at hmode

/-! ## The tokens of a text -/

/-- The leaves that the lexer makes from an offset on in a mode, up to the end of the text. -/
inductive Makes (lexer : Lexer) (source : Bytes) : Nat → Nat → List Leaf → Prop
  | done {offset mode : Nat} (finished : source.size ≤ offset) : Makes lexer source offset mode []
  | token {offset mode : Nat} {point : Position} {t : Token} {later : List Leaf}
      (here : lexer.nextToken source ⟨offset, point, mode⟩ = some t)
      (next : Makes lexer source t.range.stop t.nextMode later) :
      Makes lexer source offset mode (.ofToken t :: later)

theorem stop_eq (hsize : source.size ≤ maxSize) (h : lexer.nextToken source c = some t) :
    t.range.stop = c.offset + (Leaf.ofToken t).length := by
  have hcovers := covers_of_nextToken hsize h
  have hlength : (Leaf.ofToken t).length = t.range.stop - c.offset := by rw [← hcovers.start]; rfl
  rw [hlength, Nat.add_sub_cancel' (Nat.le_of_lt hcovers.forward)]

/-- There is one way to make leaves of a text. -/
theorem Makes.unique {ms : List Leaf} (hsize : source.size ≤ maxSize)
    (h : Makes lexer source offset mode ls) (h' : Makes lexer source offset mode ms) : ls = ms := by
  induction h generalizing ms with
  | done finished =>
    cases h' with
    | done => rfl
    | token here => exact absurd (lt_size_of_nextToken here) (Nat.not_lt.2 finished)
  | @token offset mode point t later here next ih =>
    cases h' with
    | done finished => exact absurd (lt_size_of_nextToken here) (Nat.not_lt.2 finished)
    | @token _ _ point' t' later' here' next' =>
      obtain ⟨u, hu, hleaf, hmode⟩ :=
        nextToken_congr (c := ⟨offset, point, mode⟩) (d := ⟨offset, point', mode⟩)
        hsize hsize rfl here (.refl source offset _)
      obtain rfl : u = t' := Option.some.inj (hu.symm.trans here')
      have hstop : u.range.stop = t.range.stop := by
        rw [stop_eq hsize here, stop_eq hsize here', hleaf]
      rw [hstop, hmode] at next'
      rw [hleaf, ih next']

/-- A leaf that the lexer makes is a token at its place in its mode. -/
theorem Makes.getElem? (hsize : source.size ≤ maxSize) (h : Makes lexer source offset mode ls)
    {i : Nat} {l : Leaf} (hl : ls[i]? = some l) :
    ∃ point t, lexer.nextToken source ⟨offset + totalLength (ls.take i), point, l.mode⟩ = some t ∧
      Leaf.ofToken t = l := by
  induction h generalizing i with
  | done => contradiction
  | @token offset mode point t later here next ih =>
    cases i with
    | zero =>
      obtain rfl := Option.some.inj hl
      have hmode : (Leaf.ofToken t).mode = mode := mode_of_nextToken here
      exact ⟨point, t, by rw [hmode]; exact here, rfl⟩
    | succ i =>
      obtain ⟨point', t', hnext, hleaf⟩ := ih hl
      rw [stop_eq hsize here, Nat.add_assoc, ← totalLength_cons] at hnext
      exact ⟨point', t', hnext, hleaf⟩

private theorem makes_tokenizeFrom (lexer : Lexer) (hsize : source.size ≤ maxSize)
    (done : Array Token) :
    ∃ later, (lexer.tokenizeFrom source c done).toList = done.toList ++ later ∧
      Makes lexer source c.offset c.mode (later.map Leaf.ofToken) := by
  fun_induction tokenizeFrom lexer source c done with
  | case1 c done hnone =>
    refine ⟨[], (List.append_nil _).symm, .done (Nat.le_of_not_lt fun hlt => ?_)⟩
    have hsome : (lexer.nextToken source c).isSome := nextToken_isSome hlt
    rw [hnone] at hsome
    contradiction
  | case2 c done t ht hforward ih =>
    obtain ⟨later, htokens, hlater⟩ := ih
    exact ⟨t :: later, by rw [htokens]; simp, .token ht hlater⟩
  | case3 c done t ht hstuck =>
    exact absurd ⟨(covers_of_nextToken hsize ht).forward, lt_size_of_nextToken ht⟩ hstuck

private theorem makes_tokenize (hsize : source.size ≤ maxSize) :
    Makes lexer source 0 0 ((lexer.tokenize source).toList.map Leaf.ofToken) := by
  obtain ⟨later, htokens, hlater⟩ := lexer.makes_tokenizeFrom (c := .start) hsize #[]
  rw [show (lexer.tokenize source).toList = later from htokens]
  exact hlater

end Lexer

/-! ## The tokens of an edited text -/

/-- Wherever the leaf is taken over, the lexer would find the same token and go on in the same
mode. -/
def OldLeaf.Reliable (lexer : Lexer) (source oldSource : Bytes) (o : OldLeaf) : Prop :=
  ∀ c d, TokenStream.takeOver lexer source oldSource c o = some d → c.offset < source.size →
    ∃ t, lexer.nextToken source c = some t ∧ Leaf.ofToken t = o.leaf.asLexed ∧
    d.offset = t.range.stop ∧ d.mode = t.nextMode

/-- An old leaf is reliable if the lexer found it in the old text and the bytes that it read are
still there. -/
theorem OldLeaf.reliable {spec : Lexer.Spec} {lexer : Lexer} (hbuild : spec.build = .ok lexer)
    (hspec : spec.Distinct) {source oldSource : Bytes} (hsize : source.size ≤ maxSize)
    (hold : oldSource.size ≤ maxSize) {o : OldLeaf} {point : Position} {t : Lexer.Token}
    (hlexed : lexer.nextToken oldSource ⟨o.oldStart, point, o.leaf.mode⟩ = some t)
    (hleaf : Leaf.ofToken t = o.leaf.asLexed)
    (hclean : o.dirty = false → o.StandsOn oldSource source) :
    o.Reliable lexer source oldSource := by
  intro c d htake hc
  simp only [TokenStream.takeOver] at htake
  split at htake
  · next h =>
    obtain ⟨hstart, hdirty, hmode, -⟩ := h
    obtain rfl := Option.some.inj htake
    have hagree : Agree oldSource source o.oldStart c.offset (Leaf.ofToken t).reach := by
      rw [hleaf, ← hstart]
      exact hclean (by simpa using hdirty)
    obtain ⟨u, hu, hsame, -⟩ := Lexer.nextToken_congr hold hsize (d := c) hmode.symm hlexed hagree
    rw [hleaf] at hsame
    have hkind : u.kind = o.leaf.lexedKind := congrArg Leaf.kind hsame
    refine ⟨u, hu, hsame, ?_, ?_⟩
    · rw [Lexer.stop_eq hsize hu, hsame, hstart]
      rfl
    · rw [Lexer.nextMode_of_nextToken hbuild hspec hsize hu, hkind]
  · contradiction

namespace TokenStream

variable {lexer : Lexer} {source oldSource : Bytes} {old : Array OldLeaf}

private theorem makes_relexFrom (hsize : source.size ≤ maxSize)
    (hold : ∀ (i : Nat) (o : OldLeaf), old[i]? = some o → o.Reliable lexer source oldSource)
    (i : Nat) (c : Lexer.Cursor) (s : TokenStream) :
    ∃ later, (relexFrom lexer source oldSource old i c s).tokens.toList = s.tokens.toList ++ later ∧
      lexer.Makes source c.offset c.mode (later.map (·.leaf)) := by
  fun_induction relexFrom lexer source oldSource old i c s with
  | case1 i c s inside i' o d taken ih =>
    obtain ⟨o', ho, hmap⟩ := Option.bind_eq_some_iff.1 taken
    obtain ⟨d', hd, heq⟩ := Option.map_eq_some_iff.1 hmap
    obtain ⟨rfl, rfl⟩ := Prod.mk.inj heq
    obtain ⟨t, ht, hleaf, hoffset, hmode⟩ := hold _ _ ho c d' hd inside
    obtain ⟨later, htokens, hlater⟩ := ih
    rw [hoffset, hmode] at hlater
    refine ⟨⟨o'.leaf.asLexed, some i'⟩ :: later, ?_, ?_⟩
    · rw [htokens]
      simp [addReused, Leaf.asLexed]
    · rw [List.map_cons, ← hleaf]
      exact .token ht hlater
  | case2 i c s inside i' taken hnext =>
    have hsome : (lexer.nextToken source c).isSome := Lexer.nextToken_isSome inside
    rw [hnext] at hsome
    contradiction
  | case3 i c s inside i' taken t hnext forward ih =>
    obtain ⟨later, htokens, hlater⟩ := ih
    exact ⟨⟨.ofToken t, none⟩ :: later, by rw [htokens]; simp [addRelexed], .token hnext hlater⟩
  | case4 i c s inside i' taken t hnext backward =>
    exact absurd (Lexer.covers_of_nextToken hsize hnext).forward backward
  | case5 i c s outside => exact ⟨[], (List.append_nil _).symm, .done (Nat.le_of_not_lt outside)⟩

/-- The tokens of a text are those that the lexer makes of it, if all old leaves are reliable. -/
theorem makes_relex (hsize : source.size ≤ maxSize)
    (hold : ∀ (i : Nat) (o : OldLeaf), old[i]? = some o → o.Reliable lexer source oldSource) :
    lexer.Makes source 0 0 ((relex lexer source oldSource old).tokens.toList.map (·.leaf)) := by
  obtain ⟨later, htokens, hlater⟩ := makes_relexFrom hsize hold 0 .start {}
  rw [show (relex lexer source oldSource old).tokens.toList = later from htokens]
  exact hlater

theorem leaves_relex (hsize : source.size ≤ maxSize)
    (hold : ∀ (i : Nat) (o : OldLeaf), old[i]? = some o → o.Reliable lexer source oldSource) :
    (relex lexer source oldSource old).tokens.toList.map (·.leaf) =
      (lexer.tokenize source).toList.map Leaf.ofToken :=
  (makes_relex hsize hold).unique hsize (Lexer.makes_tokenize hsize)

end TokenStream
end Reparse

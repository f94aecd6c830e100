import Mathlib
import Reparse.Parse.Basic
import Reparse.Proofs.Compilation
import Reparse.Proofs.Listing
import Reparse.Proofs.Losslessness
import Reparse.Proofs.Reuse

/-! # Parses lose nothing of their texts -/
namespace Reparse
open Text Parse Reparse.Tree

namespace Parser

/-- The tree whose parts may be taken over. -/
def usable (p : Parser) (previous : Option SyntaxTree) : Option SyntaxTree :=
  previous.filter (·.family == p.family)

/-- The leaves of the previous tree after the edits. -/
def oldLeaves (p : Parser) (previous : Option SyntaxTree) (edits : List Edit) : Array OldLeaf :=
  ((p.usable previous).map (OldLeaf.ofTree · edits)).getD #[]

/-- The tokens that the parser reads. -/
def tokens (p : Parser) (source : Bytes) (previous : Option SyntaxTree) (edits : List Edit) :
    TokenStream :=
  .relex p.language.lexer source (((p.usable previous).map (·.source)).getD #[])
    (p.oldLeaves previous edits)

/-- What the parser runs. -/
def job (p : Parser) (source : Bytes) (previous : Option SyntaxTree) (edits : List Edit) : Job where
  language := p.language
  config := p.config
  stream := (p.tokens source previous edits).tokens
  reuse := ((p.usable previous).filter fun _ => p.config.reuseNodes).map fun t =>
    Reuse.ofTree p.language t.root (p.tokens source previous edits).tokens

theorem root_parse (p : Parser) (source : Bytes) (previous : Option SyntaxTree)
    (edits : List Edit) :
    (p.parse source previous edits).root = ((p.job source previous edits).run {}).root := rfl

end Parser

/-- The trees that parsers of a language make, one from another. -/
inductive Parsed (l : Language) : SyntaxTree → Prop
  | parse {p : Parser} {source : Bytes} {previous : Option SyntaxTree} {edits : List Edit}
      (language : p.language = l) (size : source.size ≤ maxSize)
      (earlier : ∀ t, previous = some t → t.family = p.family → Parsed l t) :
      Parsed l (p.parse source previous edits)

theorem Parser.earlier_usable {p : Parser} {previous : Option SyntaxTree} {P : SyntaxTree → Prop}
    (h : ∀ t, previous = some t → t.family = p.family → P t) :
    ∀ t, p.usable previous = some t → P t := by
  intro t ht
  obtain ⟨hprevious, hfamily⟩ := Option.filter_eq_some_iff.1 ht
  exact h t hprevious (by simpa using hfamily)

/-- There are no more leaves than bytes. -/
theorem length_le_totalLength {ls : List Leaf} (h : ∀ l ∈ ls, 0 < l.length) :
    ls.length ≤ totalLength ls := by
  induction ls with
  | nil => exact Nat.le_refl 0
  | cons l rest ih =>
    have hl := h l (by simp)
    have hrest := ih fun l hl => h l (by simp [hl])
    rw [List.length_cons, totalLength_cons]
    omega

/-- Leaves of a subtree of an old tree stand behind its offset. -/
theorem SyntaxTree.Faithful.frontier_of_occurs {t : SyntaxTree} {i : Nat} {u : Tree}
    (h : Occurs t.root.children i u) :
    ∀ j < u.frontier.length, t.root.frontier[i + j]? = u.frontier[j]? := by
  intro j hj
  have hnode : t.root.isNode = true := by
    cases hroot : t.root with
    | leaf leaf =>
      rw [hroot] at h
      cases h
    | node info children => rfl
  obtain ⟨before, after, hsplit, rfl⟩ := h.split
  rw [frontier_children _ hnode] at hsplit
  rw [hsplit, List.getElem?_append_right (by omega), List.getElem?_append_left (by omega),
    Nat.add_sub_cancel_left]

theorem SyntaxTree.Faithful.length_le_of_occurs {t : SyntaxTree} (ht : t.Faithful) {i : Nat}
    {u : Tree} (h : Occurs t.root.children i u) : u.frontier.length ≤ maxSize := by
  have hall : t.root.frontier.length ≤ maxSize := by
    have := length_le_totalLength ht.nonempty
    rw [ht.spells] at this
    exact Nat.le_trans this ht.size
  by_cases hzero : u.frontier.length = 0
  · omega
  · have hlast := frontier_of_occurs h (u.frontier.length - 1) (by omega)
    rw [List.getElem?_eq_getElem (by omega : u.frontier.length - 1 < u.frontier.length)] at hlast
    have := (List.getElem?_eq_some_iff.1 hlast).1
    omega

section
variable {p : Parser} {source : Bytes} {previous : Option SyntaxTree} {edits : List Edit}

theorem Parser.covers_tokens (k : Compilation) (hp : p.language = k.language)
    (hsize : source.size ≤ maxSize) (hprevious : ∀ t, p.usable previous = some t → t.Faithful) :
    (p.tokens source previous edits).Covers (p.oldLeaves previous edits) source.size := by
  refine TokenStream.covers_relex hsize (fun kind h => ?_) (fun i o h => ?_)
  · rw [hp] at h
    exact k.ne_eof_of_emits h
  · unfold oldLeaves at h
    cases ht : p.usable previous with
    | none => simp [ht] at h
    | some t =>
      rw [ht] at h
      exact TokenStream.sound_ofTree (hprevious t ht) edits i o h

/-- A token that is an old leaf is that leaf as it was lexed. -/
theorem Parser.leaf_of_origin {t : SyntaxTree} (ht : p.usable previous = some t)
    (hfaithful : t.Faithful)
    (hcovers : (p.tokens source previous edits).Covers (p.oldLeaves previous edits) source.size)
    {i j : Nat} (h : (p.tokens source previous edits).tokens[i]?.bind (·.origin) = some j) :
    (p.job source previous edits).leaves[i]? = t.root.frontier[j]?.map Leaf.asLexed := by
  obtain ⟨token, htoken, horigin⟩ := Option.bind_eq_some_iff.1 h
  obtain ⟨o, ho, hleaf⟩ := hcovers.origin token (Array.mem_of_getElem? htoken) j horigin
  have hold : (OldLeaf.ofTree t edits)[j]? = some o := by
    rw [oldLeaves, ht] at ho
    exact ho
  rw [← Job.leaf?_eq, (OldLeaf.of_getElem?_ofTree hfaithful hold).1, Option.map_some, hleaf]
  change (p.tokens source previous edits).tokens[i]?.map (·.leaf) = _
  rw [htoken, Option.map_some]

/-- What is reused are tokens in their places. -/
theorem Parser.reuse_tokens (hprevious : ∀ t, p.usable previous = some t → t.Faithful)
    (hcovers : (p.tokens source previous edits).Covers (p.oldLeaves previous edits) source.size)
    {m : Machine} {u : Tree} {next : Nat}
    (h : (p.job source previous edits).reusable? m = some (u, next)) : u.Consistent ∧
      u.frontier.map Leaf.asLexed =
        ((p.job source previous edits).leaves.drop m.position).take u.leafCount := by
  obtain ⟨-, r, hr, hcandidate⟩ := Job.of_reusable? h
  obtain ⟨t, ht, rfl⟩ := Option.map_eq_some_iff.1 hr
  obtain ⟨ht, -⟩ := Option.filter_eq_some_iff.1 ht
  have hfaithful := hprevious t ht
  obtain ⟨origin, slot, horigin, hslot, hstarting, hfits⟩ := Reuse.of_candidate? hcandidate
  obtain ⟨-, hoccurs⟩ := Survey.occurs_of_starting hslot hstarting
  have hconsistent := hoccurs.consistent hfaithful.consistent.children
  have hcount : u.leafCount = u.frontier.length := by
    rw [hconsistent.leafCount_eq]
    exact clamp_of_le (hfaithful.length_le_of_occurs hoccurs)
  have hrun := origin_of_runLengths hfits.run horigin
  rw [hcount] at hrun ⊢
  refine ⟨hconsistent, List.ext_getElem? fun i => ?_⟩
  rw [List.getElem?_map, List.getElem?_take]
  by_cases hi : i < u.frontier.length
  · rw [if_pos hi, List.getElem?_drop, leaf_of_origin ht hfaithful hcovers (hrun i hi),
      SyntaxTree.Faithful.frontier_of_occurs hoccurs i hi]
  · rw [if_neg hi, List.getElem?_eq_none (Nat.le_of_not_lt hi)]
    rfl

theorem Parser.sound_job (k : Compilation) (hp : p.language = k.language)
    (hsize : source.size ≤ maxSize) (hprevious : ∀ t, p.usable previous = some t → t.Faithful) :
    (p.job source previous edits).Sound := by
  have hcovers : (p.tokens source previous edits).Covers (p.oldLeaves previous edits) source.size :=
    covers_tokens k hp hsize hprevious
  have hmem {leaf : Leaf} (h : leaf ∈ (p.job source previous edits).leaves) :
      ∃ token ∈ (p.tokens source previous edits).tokens, token.leaf = leaf := by
    obtain ⟨token, htoken, rfl⟩ := List.mem_map.1 h
    exact ⟨token, Array.mem_toList_iff.1 htoken, rfl⟩
  constructor
  · intro leaf hleaf
    obtain ⟨token, htoken, rfl⟩ := hmem hleaf
    exact hcovers.lexed token htoken
  · exact fun m t next h => reuse_tokens hprevious hcovers h
  · intro state leaf kind hleaf
    obtain ⟨token, htoken, rfl⟩ := hmem hleaf
    change p.language.actionFor state _ ≠ _
    rw [hp]
    exact k.actionFor_ne_accept (hcovers.tokens token htoken)

/-- A parse of any text makes a faithful tree, if the previous tree is one. -/
theorem Parser.faithful_parse (k : Compilation) (hp : p.language = k.language)
    (hsize : source.size ≤ maxSize) (hprevious : ∀ t, p.usable previous = some t → t.Faithful) :
    (p.parse source previous edits).Faithful := by
  have hcovers : (p.tokens source previous edits).Covers (p.oldLeaves previous edits) source.size :=
    covers_tokens k hp hsize hprevious
  have hjob : (p.job source previous edits).Sound := sound_job k hp hsize hprevious
  have hlossless := Job.lossless_run hjob
  have hleaves : (p.parse source previous edits).root.frontier.map Leaf.asLexed =
      (p.tokens source previous edits).tokens.toList.map (·.leaf) := hlossless.leaves
  have htoken {leaf : Leaf} (h : leaf ∈ (p.parse source previous edits).root.frontier) :
      ∃ token ∈ (p.tokens source previous edits).tokens, token.leaf = leaf.asLexed := by
    have hmem := List.mem_map_of_mem (f := Leaf.asLexed) h
    rw [hleaves] at hmem
    obtain ⟨token, htoken, heq⟩ := List.mem_map.1 hmem
    exact ⟨token, Array.mem_toList_iff.1 htoken, heq⟩
  refine ⟨hlossless.consistent, ?_, ?_, hsize, ?_⟩
  · intro leaf hleaf
    obtain ⟨token, hmem, heq⟩ := htoken hleaf
    have hpos := hcovers.nonempty token hmem
    rwa [heq] at hpos
  · have hlength := hcovers.length
    rw [← hleaves, totalLength, List.map_map] at hlength
    exact hlength
  · intro leaf hleaf
    obtain ⟨token, hmem, heq⟩ := htoken hleaf
    have hkind := hcovers.tokens token hmem
    rwa [heq] at hkind

end

theorem faithful_of_parsed (k : Compilation) {t : SyntaxTree} (h : Parsed k.language t) :
    t.Faithful := by
  induction h with
  | parse language size earlier ih =>
    exact Parser.faithful_parse k language size (Parser.earlier_usable ih)

/-- The text of a leaf at an offset. -/
def SyntaxTree.leafText (t : SyntaxTree) (place : Nat × Leaf) : Bytes :=
  t.slice (.ofLength place.1 place.2.length)

/-- The texts of the leaves of a faithful tree, one after another, are its source. -/
theorem SyntaxTree.Faithful.flatMap_leafText {t : SyntaxTree} (h : t.Faithful) :
    t.leaves.toList.flatMap (fun place => (t.leafText place).toList) = t.source.toList := by
  rw [SyntaxTree.leaves_toList (by rw [h.spells]; exact h.size)]
  exact flatMap_spans t.source t.root.frontier (by rw [h.spells, Nat.zero_add])

/-- Whatever the previous tree and the edits are, and however the parse ends, the leaves of the tree
are the tokens of the text, none of them is empty, and their texts make up the source. -/
theorem parse_lossless (k : Compilation) {p : Parser} (hp : p.language = k.language)
    {source : Bytes} (hsize : source.size ≤ maxSize) {previous : Option SyntaxTree}
    (hprevious : ∀ t, previous = some t → t.family = p.family → Parsed k.language t)
    (edits : List Edit) :
    let t := p.parse source previous edits
    t.root.leaves.toList.map Leaf.asLexed =
      (p.tokens source previous edits).tokens.toList.map (·.leaf) ∧
      (∀ leaf ∈ t.root.leaves, 0 < leaf.length) ∧ t.length = source.size ∧
      t.leaves.toList.flatMap (fun place => (t.leafText place).toList) = source.toList := by
  intro t
  have hearlier : ∀ t, p.usable previous = some t → t.Faithful :=
    Parser.earlier_usable fun t ht hfamily => faithful_of_parsed k (hprevious t ht hfamily)
  have hfaithful : t.Faithful := Parser.faithful_parse k hp hsize hearlier
  have hjob : (p.job source previous edits).Sound := Parser.sound_job k hp hsize hearlier
  have hlossless := Job.lossless_run hjob
  refine ⟨?_, ?_, ?_, hfaithful.flatMap_leafText⟩
  · rw [Tree.leaves_toList]
    exact hlossless.leaves
  · intro leaf hleaf
    apply hfaithful.nonempty leaf
    rwa [← Tree.leaves_toList, Array.mem_toList_iff]
  · rw [SyntaxTree.length, hfaithful.consistent.length_eq hlossless.node, hfaithful.spells,
      clamp_of_le hfaithful.size]
    rfl

/-! ## A grammar of one token -/

namespace Letter
open Data Grammar Grammar.Lowering Lexer Table

def draft : Draft := { name := "letter", rules := [("s", .text "x")] }

def flat : Flat where
  name := "letter"
  version := "0.0.0"
  symbols := builtinSymbols ++
    #[⟨"x", true, true, false⟩, ⟨"s", false, true, true⟩, ⟨acceptName, false, false, true⟩]
  terminalCount := 3
  productions :=
    #[{ lhs := ⟨4⟩, steps := [{ symbol := ⟨3⟩ }] }, { lhs := ⟨3⟩, steps := [{ symbol := ⟨2⟩ }] }]
  byLhs := #[#[], #[], #[], #[1], #[0]]
  start := ⟨3⟩
  fields := #[]
  extras := #[]
  word := none
  wordPattern := none
  conflictGroups := []
  declaredRules := [⟨3⟩]
  lexical := [{ kind := ⟨2⟩, pattern := .literal "x" }]
  modes := [defaultMode]

def dfa : Dfa := ⟨#[⟨#[⟨120, 120, 1⟩], none⟩, ⟨#[], some 0⟩]⟩
def lexer : Lexer := ⟨#[⟨defaultMode, dfa⟩], #[⟨⟨2⟩, 0, none⟩], none⟩

private theorem not_hidden : isHiddenName "s" = false := by
  simp only [isHiddenName, String.startsWith_string_eq_false_iff]
  decide

theorem valid : draft.validate = .ok ⟨draft, "s"⟩ := by
  simp [Draft.validate, draft, Draft.checkRuleName, Draft.checkRuleBody, bind, Except.bind,
    pure, Except.pure, not_hidden, Expr.parts, Expr.symbol?]

theorem flattened : flatten ⟨draft, "s"⟩ = .ok flat := by
  have hparts : (draft.rules.flatMap fun r => r.2.parts) = [.text "x"] := by
    simp [draft, Expr.parts]
  have hdeclared : (draft.tokens.filter (·.isLiteral)).map (·.name) = [] := rfl
  have htexts : ([.text "x"] : List Expr).filterMap Expr.text? = ["x"] := rfl
  have hpatterns : (([.text "x"] : List Expr).filterMap Expr.pattern?).eraseDups = [] :=
    List.eraseDups_nil
  have hfields : sortNames (([.text "x"] : List Expr).filterMap Expr.field?) = [] := sortNames_nil
  have hliterals : (["x"].filter fun x =>
      !(Std.HashSet.ofList ([] : List String)).contains x).eraseDups = ["x"] := by
    simp [List.eraseDups, List.eraseDupsBy, List.eraseDupsBy.loop]
  unfold flatten
  simp only [hparts, hdeclared, htexts, hpatterns, hfields, hliterals]
  simp [draft, Terminals.addLiteral, builtinSymbols, addRuleName, State.addSymbol, Scope.lookup,
    bind, Except.bind, pure, Except.pure, not_hidden, lowerRule, lower, maxAlternatives,
    State.addAlternatives, distinct_singleton, State.addProduction]
  rw [if_neg (by decide)]
  rfl

private theorem dfa_eq (rank : Nat → Int × Nat) : Dfa.ofRules [(.literal "x", 0)] rank = dfa :=
  Dfa.ofRules_range (by cbv) rfl rank

theorem lexed : flat.lexerSpec.build = .ok lexer := by
  have hrules : (flat.lexerSpec.rules.toList.zipIdx.filter (·.1.mode == 0)).map
      (fun p => (p.1.pattern, p.2)) = [(.literal "x", 0)] := by cbv
  exact Spec.build_of_defaultMode (by cbv) (by cbv) hrules (dfa_eq _) (by cbv) rfl

def first : First where
  first := #[⟨1⟩, ⟨2⟩, ⟨4⟩, ⟨4⟩, ⟨4⟩]
  nullable := #[false, false, false, false, false]

/-- Before anything, after the token, and after the rule. -/
def states : Array Table.State := #[
  ⟨[(⟨0, 0⟩, ⟨1⟩)], #[(⟨2⟩, 1), (⟨3⟩, 2)]⟩,
  ⟨[(⟨1, 1⟩, ⟨1⟩)], #[]⟩,
  ⟨[(⟨0, 1⟩, ⟨1⟩)], #[]⟩]

def table : Table where
  actions := #[#[(⟨2⟩, .shift 1)], #[(⟨0⟩, .reduce 1)], #[(⟨0⟩, .accept)]]
  gotos := #[#[(⟨3⟩, 2)], #[], #[]]
  productions := #[⟨⟨4⟩, #[none], 0⟩, ⟨⟨3⟩, #[none], 0⟩]

theorem first_eq : First.compute flat = first := by decide +kernel

theorem automaton_eq : automaton flat first .lalr = states := by
  rw [Table.automaton_eq]
  cbv

theorem built : Table.build flat .lalr = .ok table := by
  unfold Table.build
  simp only [first_eq, automaton_eq]
  cbv

end Letter

/-- The rule `s` is the letter x. -/
def Compilation.letter : Compilation where
  draft := Letter.draft
  grammar := ⟨Letter.draft, "s"⟩
  valid := Letter.valid
  mode := .lalr
  flat := Letter.flat
  flattened := Letter.flattened
  lexer := Letter.lexer
  lexed := Letter.lexed
  table := Letter.table
  built := Letter.built

def Letter.parser : Parser := { language := Compilation.letter.language }

/-- One text is parsed with the tree of another and an edit that does not describe the change. -/
theorem parse_lossless_letter :
    let t := Letter.parser.parse #[120, 121] (some (Letter.parser.parse #[120]))
      [{ start := 7, oldEnd := 9, newEnd := 7 }]
    t.root.leaves.toList.map Leaf.asLexed =
    (Letter.parser.tokens #[120, 121] (some (Letter.parser.parse #[120]))
        [{ start := 7, oldEnd := 9, newEnd := 7 }]).tokens.toList.map (·.leaf) ∧
      (∀ leaf ∈ t.root.leaves, 0 < leaf.length) ∧ t.length = 2 ∧
      t.leaves.toList.flatMap (fun place => (t.leafText place).toList) = [120, 121] := by
  refine parse_lossless Compilation.letter rfl (by decide) (fun t ht _ => ?_) _
  rw [← Option.some.inj ht]
  exact .parse rfl (by decide) nofun

end Reparse

import Reparse.Huff.Grammar
import Reparse.Proofs.Acceptance
import Reparse.Proofs.PatternBytes
import Reparse.Proofs.Preservation
import Reparse.Proofs.Regions

/-! # The grammar of Huff compiles -/
namespace Reparse

/-! ## Terminals and rules of the lexer -/

namespace Grammar

/-- The rule of the lexer for a terminal. -/
def Terminal.rule (modes : List String) (kind : Kind) (t : Terminal) : Lexer.Rule :=
  let l := t.lexical modes kind
  { kind := l.kind, pattern := l.pattern, priority := l.priority, mode := l.mode,
    nextMode := l.nextMode }

theorem getElem?_rules {g : Grammar} {flat : Flat} (f : Flattening g flat) (i : Nat) :
    flat.lexerSpec.rules[i]? = g.terminals[i]?.map (Terminal.rule g.draft.modes ⟨i + 2⟩) := by
  have hrules : flat.lexerSpec.rules.toList = flat.lexical.map fun t =>
      { kind := t.kind, pattern := t.pattern, priority := t.priority, mode := t.mode,
        nextMode := t.nextMode } := rfl
  rw [← Array.getElem?_toList, hrules, f.lexical_eq_terminals, List.map_map, List.getElem?_map,
    List.getElem?_zipIdx]
  cases hi : g.terminals[i]? with
  | none => rfl
  | some t =>
    have hlt := (List.getElem?_eq_some_iff.1 hi).1
    have hcount := f.terminalCount_eq
    have hmax := f.terminalCount_le
    have hkind : Kind.ofNat (2 + i) = ⟨i + 2⟩ := by
      rw [Kind.ofNat, Nat.min_eq_left (by omega), Nat.add_comm]
    simp only [Option.map_some, Function.comp_apply, hkind]
    rfl

/-- Declared tokens are the last terminals. -/
private theorem getElem?_terminals {g : Grammar} {n : Nat} {decl : TokenDecl}
    (h : g.draft.tokens[n]? = some decl) :
    g.terminals[g.terminals.length - g.draft.tokens.length + n]? = some (.token decl) := by
  obtain ⟨literals, patterns, hterminals, -⟩ := g.terminals_eq_inOrder
  have hlength : g.terminals.length - g.draft.tokens.length =
      (literals.map Terminal.literal ++ patterns.map fun p => Terminal.pattern p.1 p.2).length := by
    rw [hterminals, Terminal.inOrder, List.length_append, List.length_map Terminal.token,
      Nat.add_sub_cancel]
  rw [hlength, hterminals, Terminal.inOrder, List.getElem?_append_right (Nat.le_add_right _ n),
    Nat.add_sub_cancel_left, List.getElem?_map, h, Option.map_some]

/-- A literal has the number of its code. -/
theorem getElem?_terminals_literal {g : Grammar} {i : Nat} {text : String} :
    g.terminals[i]? = some (.literal text) ↔ (literalCodes g)[i]? = some (code text) := by
  rw [literalCodes_eq, List.getElem?_map, terminals, List.append_assoc]
  generalize (((g.draft.rules.flatMap fun r => r.2.parts).filterMap Expr.text?).filter
    (· ∉ (g.draft.tokens.filter (·.isLiteral)).map (·.name))).eraseDups = texts
  by_cases hi : i < texts.length
  · rw [List.getElem?_append_left (by rwa [List.length_map]), List.getElem?_map]
    simp [hi, code_injective.eq_iff]
  · rw [List.getElem?_append_right (by rw [List.length_map]; omega),
      List.getElem?_eq_none (Nat.le_of_not_lt hi)]
    refine iff_of_false (fun h => ?_) (Option.some_ne_none _).symm
    rcases List.mem_append.1 (List.mem_of_getElem? h) with hmem | hmem
    · obtain ⟨p, -, hp⟩ := List.mem_map.1 hmem
      exact Terminal.noConfusion hp
    · obtain ⟨decl, -, hdecl⟩ := List.mem_map.1 hmem
      exact Terminal.noConfusion hdecl

/-- Unnamed patterns stand between the literals and the declared tokens. -/
theorem of_getElem?_terminals_pattern {g : Grammar} {i n : Nat} {p : Lexer.Pattern}
    (h : g.terminals[i]? = some (.pattern p n)) :
    (literalCodes g).length ≤ i ∧ i < g.terminals.length - g.draft.tokens.length := by
  have hpatterns := congrArg (·[i]?) (map_pattern_terminals g)
  simp only [List.getElem?_map, h, Option.map_some, Terminal.pattern?] at hpatterns
  have hlength := length_terminals g
  constructor
  · by_contra hlt
    rw [List.getElem?_append_left (by rw [List.length_replicate]; omega), List.getElem?_replicate,
      if_pos (by omega)] at hpatterns
    simp at hpatterns
  · by_contra hge
    rw [List.getElem?_append_right (by rw [List.length_replicate]; omega), List.length_replicate,
      List.getElem?_append_right (by rw [List.length_map]; omega), List.length_map,
      List.getElem?_replicate] at hpatterns
    split at hpatterns <;> simp at hpatterns

end Grammar

namespace Huff
open Data Grammar Lexer Lowering

/-! ## The grammar compiles -/

def grammar : Grammar := ⟨draft, "source_file"⟩

/-- Numbers of symbols that block comments and what is around them consist of. -/
def natspecBlock : Nat := 204
def commentStart : Nat := 206
def commentText : Nat := 207
def commentStop : Nat := 208
def sourceFile : Nat := 210
def definition : Nat := 211
def natspec : Nat := 212
def comment : Nat := 213
def commentBlock : Nat := 214
def definitionRepeat : Nat := 245

/-- Right-hand sides by which block comments are read. -/
def commentRows : List (Nat × List Nat) :=
  [(definitionRepeat, [definition]), (sourceFile, [definitionRepeat]),
  (definition, [natspec]), (definition, [comment]), (natspec, [natspecBlock]),
  (comment, [commentBlock]), (commentBlock, [commentStart, commentText, commentStop]),
  (commentBlock, [commentStart, commentStop])]

/-! Numbers of symbols that macros consist of. -/

def comma : Nat := 3
def closeBracket : Nat := 4
def openParen : Nat := 5
def closeParen : Nat := 6
def defineWord : Nat := 8
def equals : Nat := 10
def macroWord : Nat := 13
def takesWord : Nat := 14
def leftBrace : Nat := 20
def rightBrace : Nat := 21
def openBracket : Nat := 30
def less : Nat := 186
def greater : Nat := 187
def colon : Nat := 188
def identifierToken : Nat := 200
def numberToken : Nat := 201
def declaration : Nat := 218
def macroRule : Nat := 222
def macroBody : Nat := 235
def bodyItem : Nat := 236
def opcode : Nat := 237
def macroCall : Nat := 238
def referencedParameter : Nat := 239
def referencedConstant : Nat := 240
def jumpdest : Nat := 241
def jumpdestLabel : Nat := 242
def bodyRepeat : Nat := 254
def argumentRepeat : Nat := 255

/-- The literals among them. -/
def marks : List (String × Nat) :=
  [(",", comma), ("]", closeBracket), ("(", openParen), (")", closeParen),
  ("#define", defineWord), ("=", equals), ("macro", macroWord), ("takes", takesWord),
  ("\x7b", leftBrace), ("\x7d", rightBrace), ("[", openBracket), ("<", less),
  (">", greater), (":", colon)]

/-- Right-hand sides by which macros without parameters are read. -/
def macroRows : List (Nat × List Nat) :=
  [(definition, [declaration]), (declaration, [defineWord, macroRule]),
  (macroRule, [macroWord, identifierToken, openParen, closeParen, equals, takesWord, openParen,
  numberToken, closeParen, macroBody]), (macroBody, [leftBrace, bodyRepeat, rightBrace]),
  (macroBody, [leftBrace, rightBrace]), (bodyRepeat, [bodyRepeat, bodyItem]),
  (bodyRepeat, [bodyItem]), (bodyItem, [opcode]), (bodyItem, [numberToken]), (bodyItem, [jumpdest]),
  (bodyItem, [jumpdestLabel]), (bodyItem, [macroCall]), (bodyItem, [referencedConstant]),
  (bodyItem, [referencedParameter]), (jumpdest, [identifierToken]),
  (jumpdestLabel, [identifierToken, colon]),
  (referencedConstant, [openBracket, identifierToken, closeBracket]),
  (referencedParameter, [less, identifierToken, greater]),
  (macroCall, [identifierToken, openParen, closeParen]),
  (macroCall, [identifierToken, openParen, identifierToken, closeParen]),
  (macroCall, [identifierToken, openParen, numberToken, closeParen]),
  (macroCall, [identifierToken, openParen, identifierToken, argumentRepeat, closeParen]),
  (macroCall, [identifierToken, openParen, numberToken, argumentRepeat, closeParen]),
  (argumentRepeat, [comma, identifierToken]), (argumentRepeat, [comma, numberToken]),
  (argumentRepeat, [argumentRepeat, comma, identifierToken]),
  (argumentRepeat, [argumentRepeat, comma, numberToken])]

/-- Functions that are called in macro bodies. -/
def builtins : List String :=
  ["__codesize", "__tablestart", "__tablesize", "__ERROR", "__EVENT_HASH",
    "__FUNC_SIG", "__RIGHTPAD"]

/-- Literals that are not made like names. -/
def signs : List String :=
  ["#[", ",", "]", "(", ")", "#include", "#define", "=", "\x7b", "\x7d", "[", "<", ">", ":",
  "FREE_STORAGE_POINTER()"]

/-- The numbers of keywords that are no names of their own in macro bodies, and of unnamed
patterns. -/
def keywordNumbers (literals : List Nat) : List Nat :=
  materialize ((opcodes ++ builtins ++ signs).map code) fun known =>
    (literals.zipIdx.filter fun l => !known.any (Nat.beq l.1)).map (·.2 + 2) ++
      List.range' (literals.length + 2) (198 - literals.length)

/-- These keywords do not occur behind an opening brace. -/
def keywordSet (literals : List Nat) : BitSet := Table.gather (keywordNumbers literals) .empty

def braceRegion (outside : BitSet) (spots : List Table.Spot) : Table.Region :=
  Table.findRegion leftBrace outside spots 4 .empty

private theorem of_braceRegion (outside : BitSet) (spots : List Table.Spot) :
    (braceRegion outside spots).opening = leftBrace ∧
      (braceRegion outside spots).outside = outside :=
  ⟨Table.opening_findRegion .., Table.outside_findRegion ..⟩

/-- Whether the right-hand sides of opcodes are the literals for the mnemonics. -/
def readsMnemonics (literals : List Nat) (spots : List Table.Spot) : Bool :=
  ((spots.filter fun s => !Nat.beq s.production 0 && Nat.beq s.lhs opcode).map fun s =>
    match s.rest with
    | [n + 2] => literals[n]?
    | _ => none) == opcodes.map fun m => some (code m)

/-- Whether an outline has some right-hand sides, those of opcodes among them. -/
def reads (rows : List (Nat × List Nat)) (literals : List Nat) (spots : List Table.Spot) : Bool :=
  (rows.all fun row => spots.any fun s => !Nat.beq s.production 0 && Nat.beq s.lhs row.1 &&
    s.rest == row.2) && readsMnemonics literals spots

/-- Whether FOLLOW sets leave nothing to settle in an outline with some right-hand sides, and keep
keywords out of bodies. -/
def shows (rows : List (Nat × List Nat)) (o : Outline) : Bool :=
  Nat.beq o.terminalCount 210 && materialize (literalCodes grammar) fun literals =>
    (marks.all fun m => literals[m.2 - 2]? == some (code m.1)) && materialize o.rows fun spots =>
      reads rows literals spots && materialize (keywordSet literals) fun outside =>
        Table.followSetsGuard 210 256 6 30 (braceRegion outside spots) spots

set_option maxRecDepth 100000 in
private theorem inOrder_draft : draft.inOrder "source_file" = true := by decide +kernel

set_option maxRecDepth 100000 in
private theorem shows_outline :
    (outline grammar).any (shows (commentRows ++ macroRows)) = true := by decide +kernel

/-- Whether a literal or unnamed pattern of a rule does not begin like a comment, unless it is its
beginning. -/
def avoidsSlash : Expr → Bool
  | .text literal => Nat.beq (code literal) (code "/*") || !(Pattern.literal literal).opens 47
  | .pattern p => !p.opens 47
  | _ => true

/-- The digits, and the letter that stands for a macro. -/
def digitsAndName : List UInt8 := [48, 49, 50, 51, 52, 53, 54, 55, 56, 57, 77]

/-- Whether the texts of a literal or unnamed pattern have no blank, and do not begin with a digit
or the name of a macro. -/
def keepsApart : Expr → Bool
  | .text literal => (Pattern.literal literal).lacks 32 && !digitsAndName.any fun b =>
      (Pattern.literal literal).opens b
  | .pattern p => p.lacks 32 && !digitsAndName.any fun b => p.opens b
  | _ => true

set_option maxRecDepth 100000 in
private theorem parts_checked :
    (draft.rules.all fun r => r.2.parts.all fun e => avoidsSlash e && keepsApart e) = true := by
  decide +kernel

private theorem avoidsSlash_of_mem {rule : String × Expr} (hrule : rule ∈ grammar.draft.rules)
    {part : Expr} (hpart : part ∈ rule.2.parts) :
    avoidsSlash part = true := by
  have hrules := List.all_eq_true.1 parts_checked rule hrule
  exact (Bool.and_eq_true_iff.1 (List.all_eq_true.1 hrules part hpart)).1

theorem keepsApart_of_mem {rule : String × Expr} (hrule : rule ∈ grammar.draft.rules) {part : Expr}
    (hpart : part ∈ rule.2.parts) :
    keepsApart part = true := by
  have hrules := List.all_eq_true.1 parts_checked rule hrule
  exact (Bool.and_eq_true_iff.1 (List.all_eq_true.1 hrules part hpart)).2

theorem not_hidden : isHiddenName "source_file" = false ∧ isHiddenName "natspec" = false ∧
    isHiddenName "comment" = false ∧ isHiddenName "_definition" = true ∧
      isHiddenName "_comment_block" = true := by
  simp only [isHiddenName, String.startsWith_string_eq_false_iff, String.startsWith_string_iff]
  decide

/-- A symbol has a right-hand side. -/
def Produces (g : Flat) (row : Nat × List Nat) : Prop :=
  ∃ q p, g.productions[q]? = some p ∧ q ≠ 0 ∧ p.lhs = ⟨row.1⟩ ∧
  p.steps.map (·.symbol) = row.2.map Kind.mk

/-- A compilation of the grammar, with the numbers of its symbols and some of its productions. -/
structure Compiles (k : Compilation) (rows : List (Nat × List Nat)) : Prop where
  source : k.grammar = grammar
  terminalCount : k.flat.terminalCount = 210
  single : Table.SingleCandidates k.flat k.mode
  hidden : ∀ i info, 244 ≤ i → k.flat.symbols[i]? = some info → info.visible = false
  rows : ∀ row ∈ rows, Produces k.flat row
  mnemonics : ∀ m ∈ opcodes, ∃ n, grammar.terminals[n]? = some (.literal m) ∧
    Produces k.flat (opcode, [n + 2])
  guarded : ∃ (b : Table.Bounds) (r : Table.Region), r.opening = leftBrace ∧
    r.outside = keywordSet (literalCodes grammar) ∧ b.Hold k.flat ∧ b.Guards r k.flat

theorem Compiles.mono {k : Compilation} {rows more : List (Nat × List Nat)} (h : Compiles k rows)
    (hsub : more ⊆ rows) :
    Compiles k more := { h with rows := fun row hrow => h.rows row (hsub hrow) }

section
variable {k : Compilation} {o : Outline} (houtlined : Outlined k o)
include houtlined

private theorem produces_of_spot {s : Table.Spot} (hs : s ∈ o.rows)
    (hzero : (!Nat.beq s.production 0) = true) :
    Produces k.flat (s.lhs, s.rest) := by
  rw [← houtlined.rows] at hs
  obtain ⟨⟨p, q⟩, hpq, rfl⟩ := List.mem_map.1 hs
  rw [List.mk_mem_zipIdx_iff_getElem?, Array.getElem?_toList] at hpq
  refine ⟨q, p, hpq, fun hq => ?_, rfl, ?_⟩
  · rw [hq] at hzero
    contradiction
  · rw [List.map_map]
    rfl

private theorem produces_of_mnemonics (h : readsMnemonics (literalCodes grammar) o.rows = true)
    {m : String} (hm : m ∈ opcodes) :
    ∃ n, grammar.terminals[n]? = some (.literal m) ∧ Produces k.flat (opcode, [n + 2]) := by
  have hmem := List.mem_map_of_mem (f := fun m => some (code m)) hm
  rw [← eq_of_beq h] at hmem
  obtain ⟨s, hs, hcode⟩ := List.mem_map.1 hmem
  simp only [List.mem_filter, Bool.and_eq_true] at hs
  obtain ⟨hs, hzero, hlhs⟩ := hs
  have hproduces := produces_of_spot houtlined hs hzero
  split at hcode
  · next n hrest =>
    rw [hrest, Nat.eq_of_beq_eq_true hlhs] at hproduces
    exact ⟨n, getElem?_terminals_literal.2 hcode, hproduces⟩
  · contradiction

private theorem of_shows {rows : List (Nat × List Nat)} (hgrammar : k.grammar = grammar)
    (h : shows rows o = true) :
    Compiles k rows := by
  simp only [shows, reads, Materialize.materialize_eq, Bool.and_eq_true, List.all_eq_true,
    List.any_eq_true] at h
  obtain ⟨hcount, -, ⟨hrows, hmnemonics⟩, hguard⟩ := h
  have hcount : k.flat.terminalCount = 210 :=
    houtlined.terminalCount.trans (Nat.eq_of_beq_eq_true hcount)
  refine ⟨hgrammar, hcount, houtlined.single, fun i info hi hinfo =>
    houtlined.hidden i info ?_ hinfo, fun row hrow => ?_, fun m hm =>
      produces_of_mnemonics houtlined hmnemonics hm, ?_⟩
  · rw [← houtlined.terminalCount, hcount, hgrammar]
    exact hi
  · obtain ⟨s, hs, ⟨hzero, hlhs⟩, hrest⟩ := hrows row hrow
    have hproduces := produces_of_spot houtlined hs hzero
    rwa [Nat.eq_of_beq_eq_true hlhs, eq_of_beq hrest] at hproduces
  · rw [← hcount, ← houtlined.rows] at hguard
    obtain ⟨b, hb, hguards⟩ := Table.exists_guards k.wellFormed hguard
    obtain ⟨hopening, houtside⟩ :=
      of_braceRegion (keywordSet (literalCodes grammar)) (Table.rows k.flat)
    exact ⟨b, _, hopening, houtside, hb, hguards⟩

end

/-- The grammar compiles to a table without conflicting candidates. -/
theorem exists_compiles_rows (mode : Table.Mode) :
    ∃ k : Compilation, k.mode = mode ∧ Compiles k (commentRows ++ macroRows) ∧
    compile mode = .ok ⟨k.language, Table.unreachableRules k.flat⟩ := by
  obtain ⟨o, houtline, hshows⟩ := (Option.any_eq_true _ _).1 shows_outline
  have hfollow : Table.followSetsSuffice o.terminalCount 256 6 30 o.rows = true := by
    simp only [shows, Materialize.materialize_eq, Bool.and_eq_true] at hshows
    rw [Nat.eq_of_beq_eq_true hshows.1]
    exact Table.followSetsSuffice_of_guard hshows.2.2.2
  obtain ⟨k, hdraft, hgrammar, hmode, houtlined⟩ := exists_compilation inOrder_draft not_hidden.1
    ⟨[blockCommentMode], rfl⟩ (by decide) houtline hfollow mode
  refine ⟨k, hmode, of_shows houtlined hgrammar hshows, ?_⟩
  have hvalid := k.valid
  rw [hdraft] at hvalid
  have hcompile := k.compile_eq
  rw [hmode] at hcompile
  unfold compile
  rw [hvalid]
  exact hcompile

theorem exists_compiles (mode : Table.Mode) :
    ∃ k : Compilation, k.mode = mode ∧ Compiles k commentRows ∧
    compile mode = .ok ⟨k.language, Table.unreachableRules k.flat⟩ := by
  obtain ⟨k, hmode, hk, hcompile⟩ := exists_compiles_rows mode
  exact ⟨k, hmode, hk.mono (List.subset_append_left _ _), hcompile⟩

/-- The marks have their numbers. -/
theorem getElem?_terminals_mark {m : String × Nat} (hm : m ∈ marks) :
    grammar.terminals[m.2 - 2]? = some (.literal m.1) := by
  obtain ⟨o, -, hshows⟩ := (Option.any_eq_true _ _).1 shows_outline
  simp only [shows, Materialize.materialize_eq, Bool.and_eq_true, List.all_eq_true] at hshows
  exact getElem?_terminals_literal.2 (eq_of_beq (hshows.2.1 m hm))

/-! ## Symbols and rules of the lexer -/

section
variable {k : Compilation} {rows : List (Nat × List Nat)} (hk : Compiles k rows)
include hk

theorem Compiles.flattening : Nonempty (Flattening grammar k.flat) := by
  rw [← hk.source]
  exact flattening_of_flatten k.flattened

theorem Compiles.valid : ∃ d : Draft, d.validate = .ok grammar :=
  ⟨k.draft, by rw [k.valid, hk.source]⟩

theorem Compiles.token {n : Nat} {decl : TokenDecl} (h : tokens[n]? = some decl) :
    grammar.terminals[198 + n]? = some (.token decl) := by
  obtain ⟨f⟩ := hk.flattening
  have hcount := f.terminalCount_eq
  rw [hk.terminalCount] at hcount
  have htokens : grammar.draft.tokens.length = 10 := rfl
  have hlength : grammar.terminals.length - grammar.draft.tokens.length = 198 := by omega
  have hget := getElem?_terminals (g := grammar) h
  rwa [hlength] at hget

/-- The rule of the lexer for a declared token. -/
theorem Compiles.rule {n : Nat} {decl : TokenDecl} (h : tokens[n]? = some decl) :
    k.flat.lexerSpec.rules[198 + n]? = some ((Terminal.token decl).rule draft.modes ⟨200 + n⟩) := by
  obtain ⟨f⟩ := hk.flattening
  have hkind : 198 + n + 2 = 200 + n := by omega
  rw [getElem?_rules f, hk.token h, Option.map_some, hkind]
  rfl

/-- The symbol for a declared rule. -/
theorem Compiles.symbol {i : Nat} {rule : String × Expr} (h : draft.rules[i]? = some rule) :
    k.language.symbol? ⟨210 + i⟩ = some ⟨rule.1, false, !isHiddenName rule.1, true⟩ := by
  obtain ⟨f⟩ := hk.flattening
  have hsymbol := f.symbol_rule h
  rwa [hk.terminalCount] at hsymbol

theorem Compiles.start : k.flat.start = ⟨sourceFile⟩ := by
  obtain ⟨f⟩ := hk.flattening
  obtain ⟨d, hvalid⟩ := hk.valid
  obtain ⟨i, hle, -, hstart, hsymbol⟩ := f.start_eq (Draft.valid_of_validate hvalid)
  have hcount : (terminalsOf grammar).symbols.toList.length = 210 := by
    rw [Array.length_toList, ← f.terminals_eq, hk.terminalCount]
  rw [← f.terminals_eq, hk.terminalCount] at hle
  rw [← Array.getElem?_toList, f.symbols_toList,
    List.getElem?_append_right (by rwa [hcount]), hcount, List.getElem?_map,
    Option.map_eq_some_iff] at hsymbol
  obtain ⟨rule, hrule, hname⟩ := hsymbol
  have hname : rule.1 = "source_file" := congrArg SymbolInfo.name hname
  have hfirst : i - 210 = 0 :=
    eq_of_name hvalid (show grammar.draft.rules[0]? = some _ from rfl) hrule hname
  have hi : i = 210 := by omega
  rw [hstart, hi]
  rfl

/-- Names of declared tokens stand for them. -/
theorem Compiles.lookup_token {n : Nat} {decl : TokenDecl} (hn : tokens[n]? = some decl)
    (f : Flattening grammar k.flat) :
    f.full.lookup decl.name = .ok ⟨200 + n⟩ := by
  obtain ⟨d, hvalid⟩ := hk.valid
  obtain ⟨hnames, -⟩ := bodyScope_eq f
  have hlt : n < 10 := (List.getElem?_eq_some_iff.1 hn).1
  have hkind : Kind.ofNat (2 + (198 + n)) = ⟨200 + n⟩ := by
    rw [Kind.ofNat, Nat.min_eq_left (by unfold maxId; omega)]
    congr 1
    omega
  have hname := getElem?_names_token hvalid (hk.token hn)
  rw [hnames, hkind] at hname
  rw [Scope.lookup, hname]

/-- Only blanks are extras. -/
theorem Compiles.isExtra_iff (x : Kind) : k.language.isExtra x = true ↔ x = ⟨209⟩ := by
  obtain ⟨f⟩ := hk.flattening
  have hextras : [⟨209⟩] = k.flat.extras.toList := by
    have hmap : ["_whitespace"].mapM f.full.lookup = .ok k.flat.extras.toList := f.extras
    rw [List.mapM_cons] at hmap
    obtain ⟨y, hy, hmap⟩ := bind_eq_ok.1 hmap
    obtain ⟨ys, hys, hmap⟩ := bind_eq_ok.1 hmap
    have hblanks := hk.lookup_token (n := 9) rfl f
    rw [hblanks, Except.ok.injEq] at hy
    rw [List.mapM_nil] at hys
    rw [← Except.ok.inj hmap, ← Except.ok.inj hys, ← hy]
  change k.flat.extras.contains x = true ↔ _
  rw [Array.contains_iff_mem, ← Array.mem_toList_iff, ← hextras, List.mem_singleton]

/-- Keywords can stand for identifiers. -/
theorem Compiles.word : k.language.word = some ⟨identifierToken⟩ := by
  obtain ⟨f⟩ := hk.flattening
  have hword : (some "identifier").mapM f.full.lookup = .ok k.flat.word := f.word
  obtain ⟨y, hy, hsome⟩ := bind_eq_ok.1 hword
  rw [hk.lookup_token (n := 0) rfl f, Except.ok.injEq] at hy
  exact (Except.ok.inj hsome).symm.trans (congrArg some hy.symm)

/-- The terminal that a rule of the lexer is for. -/
theorem Compiles.terminal {mode i : Nat} {w : List UInt8} {rule : Lexer.Rule}
    (h : k.flat.lexerSpec.Fits mode w i rule) :
    ∃ t, grammar.terminals[i]? = some t ∧ (t.lexical draft.modes ⟨i + 2⟩).mode = mode ∧
      w ∈ (t.lexical draft.modes ⟨i + 2⟩).pattern.language := by
  obtain ⟨f⟩ := hk.flattening
  have hrule := h.number
  rw [getElem?_rules f, Option.map_eq_some_iff] at hrule
  obtain ⟨t, ht, rfl⟩ := hrule
  exact ⟨t, ht, h.mode, h.matching⟩

theorem Compiles.eq_of_token {i n : Nat} {decl : TokenDecl}
    (hi : grammar.terminals[i]? = some (.token decl)) (hn : tokens[n]? = some decl) :
    i = 198 + n := by
  obtain ⟨d, hvalid⟩ := hk.valid
  exact Terminal.eq_of_nodup (distinct_terminals hvalid).names hi (hk.token hn) rfl rfl

/-- Texts that begin with a slash are read by declared tokens. -/
theorem Compiles.token_of_slash {mode i : Nat} {w : List UInt8} {rule : Lexer.Rule}
    (h : k.flat.lexerSpec.Fits mode (47 :: w) i rule) :
    ∃ n decl, tokens[n]? = some decl ∧ i = 198 + n ∧
      Terminals.modeNumber draft.modes (decl.mode.getD defaultMode) = mode ∧
        47 :: w ∈ decl.pattern.language := by
  obtain ⟨t, hi, hmode, hmem⟩ := hk.terminal h
  rcases of_mem_terminals (List.mem_of_getElem? hi) with
      ⟨text, rfl, rule, hrule, hpart⟩ | ⟨p, number, rfl, rule, hrule, hpart⟩ | ⟨decl, hdecl, rfl⟩
  · have hopens : (Pattern.literal text).opens 47 = true := Pattern.opens_of_mem _ w hmem
    have havoids := avoidsSlash_of_mem hrule hpart
    rw [avoidsSlash, hopens, Bool.not_true, Bool.or_false] at havoids
    obtain rfl := eq_of_beq_code havoids
    -- The beginning of a comment is declared, so that it is no other terminal.
    obtain ⟨d, hvalid⟩ := hk.valid
    have htoken := hk.token (n := 6) rfl
    obtain rfl := Terminal.eq_of_nodup (distinct_terminals hvalid).texts hi htoken rfl (by decide)
    rw [hi] at htoken
    exact Terminal.noConfusion (Option.some.inj htoken)
  · have hopens : p.opens 47 = true := Pattern.opens_of_mem _ w hmem
    have havoids := avoidsSlash_of_mem hrule hpart
    rw [avoidsSlash, hopens, Bool.not_true] at havoids
    exact absurd havoids Bool.false_ne_true
  · obtain ⟨n, hn⟩ := List.getElem?_of_mem hdecl
    exact ⟨n, decl, hn, hk.eq_of_token hi hn, hmode, hmem⟩

end

end Huff
end Reparse

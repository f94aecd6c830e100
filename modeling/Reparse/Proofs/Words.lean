import Reparse.Proofs.Comments
import Reparse.Proofs.Layout

/-! # Words of Huff

Where words have one blank between them, each is one token. A keyword that could be a name is marked
as a word. -/
namespace Reparse.Huff
open Lexer Grammar

/-! ## Tokens of words -/

section
variable {spec : Spec} {offset mode i : Nat} {text rest : List UInt8} {rule : Rule}
  {ts : List Lexeme}

/-- A token has all of a text, and is of the kind that the rules prefer. -/
structure Takes (spec : Spec) (mode : Nat) (text : List UInt8) (i : Nat) (rule : Rule)
    (t : Lexeme) : Prop where
  fits : spec.Fits mode text i rule
  first : ∀ j other, spec.Fits mode text j other → other.priority < rule.priority ∨
    other.priority = rule.priority ∧ i ≤ j
  kind : t.kind = rule.kind
  length : t.range.length = text.length
  clean : t.flags.error = false
  word : t.flags.word = true ↔ spec.IsWord text

/-- A text that some rule matches is one token, if no rule matches more. -/
theorem tokenizes_append (h : spec.Tokenizes offset mode (text ++ rest) ts) (hne : text ≠ [])
    (hfits : spec.Fits mode text i rule)
    (hlongest : ∀ more, more ≠ [] → more <+: rest →
      ∀ j other, ¬ spec.Fits mode (text ++ more) j other) :
    ∃ j rule t later, Takes spec mode text j rule t ∧ ts = t :: later ∧
      spec.Tokenizes (offset + text.length) (rule.nextMode.getD mode) rest later := by
  have hpos : 0 < text.length := List.length_pos_iff.2 hne
  have htake : (text ++ rest).take text.length = text := List.take_left
  generalize hall : text ++ rest = all at h htake
  have hinside : text.length ≤ all.length := by
    rw [← hall, List.length_append]
    exact Nat.le_add_right _ _
  have htaken : spec.Fits mode (all.take text.length) i rule := by rwa [htake]
  cases h with
  | done => exact absurd (List.append_eq_nil_iff.1 hall).1 hne
  | @token _ _ n _ rule' word later takes isWord next =>
    obtain rfl : n = text.length := by
      rcases Nat.lt_trichotomy n text.length with hlt | heq | hlt
      · exact absurd htaken (takes.longest _ hlt hinside i rule)
      · exact heq
      · obtain ⟨j, hj, -⟩ := takes.first
        have hmore : all.take n = text ++ rest.take (n - text.length) := by
          rw [← hall, List.take_append, List.take_of_length_le (Nat.le_of_lt hlt)]
        rw [hmore] at hj
        have hle := takes.inside
        rw [← hall, List.length_append] at hle
        refine absurd hj (hlongest _ (List.ne_nil_of_length_pos ?_) (List.take_prefix _ _) j rule')
        rw [List.length_take]
        omega
    obtain ⟨j, hj, hfirst⟩ := takes.first
    rw [htake] at hj hfirst isWord
    refine ⟨j, rule', _, later, ⟨hj, hfirst, rfl, ?_, rfl, isWord⟩, rfl, ?_⟩
    · simp [Text.Range.length]
    · rwa [← hall, List.drop_left] at next
  | error stuck next => exact absurd htaken (stuck _ hpos hinside i rule)

end

/-! ## Rules for words -/

/-- No text in which there may be blanks begins with the byte. -/
def plain (b : UInt8) : Bool :=
  b != doubleQuote && b != singleQuote && b != slash && !(Pattern.oneOf .blanks).opens b

def identifierPattern : Pattern := .seq [.oneOf identifierHead, .star (.oneOf identifierTail)]
def numberPattern : Pattern := .alt [decimal, hexadecimal]

/-- What the terminal of a number makes of a text that begins with a plain byte. -/
inductive Recognizes (i : Nat) (w : List UInt8) : Prop
  | literal {text : String} (terminal : grammar.terminals[i]? = some (.literal text))
      (apart : keepsApart (.text text) = true) (matching : w = (Text.ofString text).toList)
  | pattern {p : Pattern} {n : Nat} (terminal : grammar.terminals[i]? = some (.pattern p n))
      (apart : keepsApart (.pattern p) = true) (matching : w ∈ p.language)
  | identifier (token : i = 198) (matching : w ∈ identifierPattern.language)
  | number (token : i = 199) (matching : w ∈ numberPattern.language)

section
open Lowering
variable {k : Compilation} {rows : List (Nat × List Nat)} (hk : Compiles k rows) {mode i n : Nat}
  {b : UInt8} {w : List UInt8} {rule : Rule}

private theorem candidates_default : candidates 0 (fun _ => true) = [0, 1, 2, 3, 4, 5, 6, 9] := by
  cbv

private theorem opens_quoted {quote : UInt8}
    (hranges : (ByteSet.single quote).ranges = [(quote, quote)])
    (h : (quoted quote).opens b = true) : b = quote := by
  simp only [quoted, Pattern.opens, Pattern.opensSeq, Pattern.matchesEmpty, hranges, Bool.false_and,
    Bool.or_false] at h
  simp only [List.any_cons, List.any_nil, Bool.or_false, Bool.and_eq_true, decide_eq_true_eq] at h
  exact UInt8.le_antisymm h.2 h.1

/-- A literal in front of other patterns is where texts begin. -/
private theorem head_of_mem_literal_seq {text : String} {rest : List Pattern} {c : UInt8}
    {u : List UInt8} (htext : (Text.ofString text).toList = c :: u)
    (h : b :: w ∈ (Pattern.seq (.literal text :: rest)).language) : b = c := by
  obtain ⟨v, hv, -⟩ := mem_literal_seq.1 h
  rw [htext] at hv
  exact (List.cons.inj hv).1

/-- Only identifiers and numbers are tokens that begin with plain bytes. -/
private theorem token_of_plain {decl : TokenDecl} (hdecl : tokens[n]? = some decl)
    (hn : n ∈ candidates 0 fun _ => true) (hmem : b :: w ∈ decl.pattern.language)
    (hb : plain b = true) : n = 0 ∨ n = 1 := by
  simp only [plain, Bool.and_eq_true, bne_iff_ne, Bool.not_eq_true'] at hb
  obtain ⟨⟨⟨hdouble, hsingle⟩, hslash⟩, hblank⟩ := hb
  rw [candidates_default] at hn
  fin_cases hn
  · exact .inl rfl
  · exact .inr rfl
  · obtain rfl := Option.some.inj hdecl
    have hopens := Pattern.opens_of_mem _ _ hmem
    simp only [Pattern.opens, Pattern.opensAlt, Bool.or_false, Bool.or_eq_true] at hopens
    rcases hopens with hopens | hopens
    · exact absurd (opens_quoted (by cbv) hopens) hdouble
    · exact absurd (opens_quoted (by cbv) hopens) hsingle
  · obtain rfl := Option.some.inj hdecl
    exact absurd (head_of_mem_literal_seq rfl hmem) hslash
  · obtain rfl := Option.some.inj hdecl
    exact absurd (head_of_mem_literal_seq rfl hmem) hslash
  · obtain rfl := Option.some.inj hdecl
    exact absurd (head_of_mem_literal_seq rfl hmem) hslash
  · obtain rfl := Option.some.inj hdecl
    have hw : b :: w = [slash, star] := hmem
    exact absurd (List.cons.inj hw).1 hslash
  · obtain rfl := Option.some.inj hdecl
    have hopens : (Pattern.plus (.oneOf .blanks)).opens b = true := Pattern.opens_of_mem _ _ hmem
    rw [Pattern.plus, Pattern.opens, hblank] at hopens
    contradiction

include hk

/-- The rules that match a text with a plain byte in front are alike but for their kinds. -/
theorem Compiles.recognizes (h : k.flat.lexerSpec.Fits 0 (b :: w) i rule) (hb : plain b = true) :
    Recognizes i (b :: w) ∧ rule.kind = ⟨i + 2⟩ ∧ rule.priority = 0 ∧ rule.nextMode = none := by
  obtain ⟨f⟩ := hk.flattening
  have hrule := h.number
  rw [getElem?_rules f, Option.map_eq_some_iff] at hrule
  obtain ⟨t, ht, rfl⟩ := hrule
  have hmatching := h.matching
  rcases of_mem_terminals (List.mem_of_getElem? ht) with
      ⟨text, rfl, rule, hrule, hpart⟩ | ⟨p, number, rfl, rule, hrule, hpart⟩ | ⟨decl, hdecl, rfl⟩
  · exact ⟨.literal ht (keepsApart_of_mem hrule hpart) hmatching, rfl, rfl, rfl⟩
  · exact ⟨.pattern ht (keepsApart_of_mem hrule hpart) hmatching, rfl, rfl, rfl⟩
  · obtain ⟨n, hn⟩ := List.getElem?_of_mem hdecl
    have hi := hk.eq_of_token ht hn
    have hcandidate : n ∈ candidates 0 fun _ => true := mem_candidates hn h.mode rfl
    rcases token_of_plain hn hcandidate hmatching hb with rfl | rfl
    · obtain rfl := Option.some.inj hn
      exact ⟨.identifier hi hmatching, rfl, rfl, rfl⟩
    · obtain rfl := Option.some.inj hn
      exact ⟨.number hi hmatching, rfl, rfl, rfl⟩

omit hk in
/-- Such texts have no blanks. -/
private theorem Recognizes.not_blank (h : Recognizes i w) : blank ∉ w := by
  have hnot {p : Pattern} (hlacks : p.lacks blank = true) (hw : w ∈ p.language) : blank ∉ w :=
    Pattern.not_mem_of_lacks p hlacks w hw
  cases h with
  | @literal text terminal apart matching =>
    rw [keepsApart, Bool.and_eq_true] at apart
    exact hnot apart.1 matching
  | pattern terminal apart matching =>
    rw [keepsApart, Bool.and_eq_true] at apart
    exact hnot apart.1 matching
  | identifier token matching => exact hnot (by cbv) matching
  | number token matching => exact hnot (by cbv) matching

/-- The rule that is preferred has the lowest number. -/
private theorem Compiles.le_of_takes {t : Lexeme} (h : Takes k.flat.lexerSpec 0 (b :: w) i rule t)
    (hb : plain b = true) {j : Nat} {other : Rule}
    (hother : k.flat.lexerSpec.Fits 0 (b :: w) j other) : i ≤ j := by
  obtain ⟨-, -, hpriority, -⟩ := hk.recognizes h.fits hb
  obtain ⟨-, -, hpriority', -⟩ := hk.recognizes hother hb
  rcases h.first j other hother with hlt | ⟨-, hle⟩
  · rw [hpriority, hpriority'] at hlt
    exact absurd hlt (Int.lt_irrefl 0)
  · exact hle

end

/-! ## Kinds of words -/

/-- The text of a name: an identifier that is no opcode and no function. -/
structure IsName (w : List UInt8) : Prop where
  shape : w ∈ identifierPattern.language
  opcode : ∀ m ∈ opcodes, w ≠ (Text.ofString m).toList
  builtin : ∀ m ∈ builtins, w ≠ (Text.ofString m).toList

/-- Words with the terminals that they stand for. -/
inductive Word : List UInt8 → Nat → Prop
  | literal {text : String} {n : Nat} (terminal : grammar.terminals[n]? = some (.literal text))
      (opening : (Text.ofString text).toList.head?.any plain = true) :
      Word (Text.ofString text).toList (n + 2)
  | number {w : List UInt8} (shape : w ∈ numberPattern.language) : Word w numberToken
  | name {w : List UInt8} (name : IsName w) : Word w identifierToken

/-- The name of a macro begins with this letter. -/
def macroLetter : UInt8 := 77

/-- A word has the kind that it stands for, or it is a keyword that stands for a name. -/
def Stands (w : List UInt8) (y : Nat) (kind : Kind) (flags : Flags) : Prop :=
  kind = ⟨y⟩ ∨ y = identifierToken ∧ w.head? ≠ some macroLetter ∧
    kind.id ∈ keywordSet (literalCodes grammar) ∧ flags.word = true

section
variable {i n y : Nat} {b : UInt8} {w : List UInt8}

private theorem ranges_identifierHead :
    identifierHead.ranges = [(65, 90), (95, 95), (97, 122)] := by cbv
private theorem ranges_digits : ByteSet.digits.ranges = [(48, 57)] := by cbv
private theorem ranges_blanks : ByteSet.blanks.ranges = [(9, 10), (12, 13), (32, 32)] := by cbv

private theorem opens_identifier :
    identifierPattern.opens b = (Pattern.oneOf identifierHead).opens b := by
  simp only [identifierPattern, Pattern.opens, Pattern.opensSeq, Pattern.matchesEmpty,
    Bool.false_and, Bool.or_false]

/-- Any number of bytes of a set. -/
private theorem mem_star_oneOf {set : ByteSet} :
    w ∈ (Pattern.star (.oneOf set)).language ↔ ∀ b ∈ w, (Pattern.oneOf set).opens b = true := by
  rw [Pattern.star, Pattern.language, copies_none, pow_zero, one_mul]
  constructor
  · intro h b hb
    obtain ⟨us, rfl, hus⟩ := Language.mem_kstar.1 h
    obtain ⟨u, hu, hb⟩ := List.mem_flatten.1 hb
    obtain ⟨c, hc, rfl⟩ := mem_oneOf.1 (hus u hu)
    rwa [List.mem_singleton.1 hb]
  · intro h
    refine Language.mem_kstar.2
      ⟨w.map ([·]), by rw [← List.flatMap_def, List.flatMap_singleton'], fun u hu => ?_⟩
    obtain ⟨b, hb, rfl⟩ := List.mem_map.1 hu
    exact mem_oneOf.2 ⟨b, h b hb, rfl⟩

/-- An identifier is one byte for its beginning and any number of bytes behind it. -/
private theorem mem_identifier :
    b :: w ∈ identifierPattern.language ↔ (Pattern.oneOf identifierHead).opens b = true ∧
    ∀ c ∈ w, (Pattern.oneOf identifierTail).opens c = true := by
  rw [identifierPattern, Pattern.language, Pattern.languageOfSeq, Pattern.languageOfSeq,
    Pattern.languageOfSeq, mul_one, Language.mem_mul]
  constructor
  · rintro ⟨u, hu, v, hv, huv⟩
    obtain ⟨c, hc, rfl⟩ := mem_oneOf.1 hu
    obtain ⟨rfl, rfl⟩ := List.cons.inj huv
    exact ⟨hc, mem_star_oneOf.1 hv⟩
  · rintro ⟨hb, hw⟩
    exact ⟨[b], mem_oneOf.2 ⟨b, hb, rfl⟩, w, mem_star_oneOf.2 hw, rfl⟩

/-- Whether a text is a name. -/
def isNameText : List UInt8 → Bool
  | [] => false
  | b :: w => (Pattern.oneOf identifierHead).opens b &&
      w.all (fun c => (Pattern.oneOf identifierTail).opens c) &&
    !(opcodes ++ builtins).any fun m => b :: w == (Text.ofString m).toList

theorem isName_iff : IsName w ↔ isNameText w = true := by
  cases w with
  | nil =>
    exact iff_of_false (fun h =>
      absurd (Pattern.matchesEmpty_of_mem identifierPattern h.shape) (by decide)) nofun
  | cons b w =>
    simp only [isNameText, Bool.and_eq_true, List.all_eq_true, Bool.not_eq_true', List.any_eq_false,
      beq_iff_eq, List.mem_append, ← mem_identifier]
    exact ⟨fun h => ⟨h.shape, fun m hm => hm.elim (h.opcode m) (h.builtin m)⟩,
      fun h => ⟨h.1, fun m hm => h.2 m (.inl hm), fun m hm => h.2 m (.inr hm)⟩⟩

instance : Decidable (IsName w) := decidable_of_iff _ isName_iff.symm

/-- Every digit is a number. -/
theorem mem_number_of_digit (h : (Pattern.oneOf .digits).opens b = true) :
    [b] ∈ numberPattern.language := by
  have hdecimal : [b] ∈ decimal.language := by
    rw [decimal, Pattern.language, Pattern.languageOfSeq, Pattern.languageOfSeq,
      Pattern.languageOfSeq, mul_one, Language.mem_mul]
    refine ⟨[b], mem_oneOf.2 ⟨b, h, rfl⟩, [], ?_, rfl⟩
    rw [moreDigits, Pattern.star, Pattern.language, copies_none, pow_zero, one_mul]
    exact Language.nil_mem_kstar _
  rw [numberPattern, Pattern.language, Pattern.languageOfAlt, Language.mem_add]
  exact .inl hdecimal

private theorem plain_of_identifier (h : identifierPattern.opens b = true) : plain b = true := by
  simp [opens_identifier, Pattern.opens, ranges_identifierHead, UInt8.le_iff_toNat_le] at h
  simp [plain, Pattern.opens, ranges_blanks, doubleQuote, singleQuote, slash, UInt8.le_iff_toNat_le,
    ← UInt8.toNat_inj]
  omega

set_option maxRecDepth 10000 in
private theorem mem_digits : ∀ b : UInt8, 48 ≤ b → b ≤ 57 → b ∈ digitsAndName.take 10 := by decide

private theorem plain_digits :
    ((digitsAndName.take 10).all fun b => plain b && !identifierPattern.opens b) = true := by cbv

/-- Numbers begin with digits. -/
theorem digit_of_number (h : numberPattern.opens b = true) :
    b ∈ digitsAndName ∧ plain b = true ∧ identifierPattern.opens b = false := by
  have hrange : 48 ≤ b ∧ b ≤ 57 := by
    have hzero : (Text.ofString "0").toList = [48] := rfl
    simp [numberPattern, decimal, hexadecimal, Pattern.opens, Pattern.opensAlt, Pattern.opensSeq,
      Pattern.matchesEmpty, ranges_digits, hzero] at h
    rcases h with h | rfl
    · exact h
    · decide
  have hmem := mem_digits b hrange.1 hrange.2
  have hplain := List.all_eq_true.1 plain_digits b hmem
  rw [Bool.and_eq_true, Bool.not_eq_true'] at hplain
  exact ⟨List.mem_of_mem_take hmem, hplain⟩

private theorem signs_apart :
    (signs.all fun s => (Text.ofString s).toList.any identifierPattern.lacks) = true := by cbv

/-- No sign is made like a name. -/
private theorem ne_sign (h : w ∈ identifierPattern.language) {s : String} (hs : s ∈ signs) :
    w ≠ (Text.ofString s).toList := by
  rintro rfl
  obtain ⟨b, hb, hlacks⟩ := List.any_eq_true.1 (List.all_eq_true.1 signs_apart s hs)
  exact Pattern.not_mem_of_lacks identifierPattern hlacks _ h hb

theorem mem_keywordSet {x : Nat} :
    x ∈ keywordSet (literalCodes grammar) ↔ x ∈ keywordNumbers (literalCodes grammar) := by
  rw [keywordSet, Table.mem_gather]
  exact or_iff_left (Data.BitSet.not_mem_empty x)

/-- A literal that is a name is a keyword. -/
private theorem mem_keywordSet_literal {text : String}
    (h : grammar.terminals[i]? = some (.literal text))
    (hname : IsName (Text.ofString text).toList) : i + 2 ∈ keywordSet (literalCodes grammar) := by
  rw [mem_keywordSet, keywordNumbers, Data.Materialize.materialize_eq,
    List.mem_append, List.mem_map]
  refine .inl ⟨(code text, i), List.mem_filter.2 ⟨?_, ?_⟩, rfl⟩
  · exact List.mk_mem_zipIdx_iff_getElem?.2 (getElem?_terminals_literal.1 h)
  · rw [Bool.not_eq_true', List.any_eq_false]
    intro c hc heq
    obtain ⟨m, hm, rfl⟩ := List.mem_map.1 hc
    obtain rfl := eq_of_beq_code heq
    simp only [List.mem_append] at hm
    rcases hm with (hm | hm) | hm
    · exact hname.opcode text hm rfl
    · exact hname.builtin text hm rfl
    · exact ne_sign hname.shape hm rfl

/-- The pattern of names marks words. -/
private theorem wordPattern_of_flatten {g : Grammar} {flat : Flat} (h : flatten g = .ok flat) :
    flat.wordPattern = g.draft.word.bind fun name =>
      (g.draft.tokens.find? (·.name == name)).map (·.pattern) := by
  unfold flatten at h
  obtain ⟨start, hstart, h⟩ := bind_eq_ok.1 h
  obtain ⟨st, hst, h⟩ := bind_eq_ok.1 h
  simp only at h
  split at h
  · contradiction
  · obtain ⟨extras, hextras, h⟩ := bind_eq_ok.1 h
    obtain ⟨word, hword, h⟩ := bind_eq_ok.1 h
    obtain ⟨groups, -, h⟩ := bind_eq_ok.1 h
    obtain rfl := Except.ok.inj h
    rfl

/-- What begins with a digit or like the name of a macro is no keyword. -/
theorem Recognizes.token (h : Recognizes i (b :: w)) (hb : b ∈ digitsAndName) :
    i = 198 ∧ b :: w ∈ identifierPattern.language ∨ i = 199 ∧ b :: w ∈ numberPattern.language := by
  have hopens {p : Pattern} (hnone : (!digitsAndName.any fun b => p.opens b) = true)
      (hmem : b :: w ∈ p.language) : False := by
    rw [Bool.not_eq_true', List.any_eq_false] at hnone
    exact hnone b hb (Pattern.opens_of_mem p w hmem)
  cases h with
  | @literal text terminal apart matching =>
    rw [keepsApart, Bool.and_eq_true] at apart
    exact (hopens apart.2 matching).elim
  | pattern terminal apart matching =>
    rw [keepsApart, Bool.and_eq_true] at apart
    exact (hopens apart.2 matching).elim
  | identifier token matching => exact .inl ⟨token, matching⟩
  | number token matching => exact .inr ⟨token, matching⟩

private theorem candidates_blank : candidates 0 (·.opens blank) = [9] := by cbv

private theorem mem_blank : [blank] ∈ (Pattern.plus (.oneOf .blanks)).language := by
  refine mem_copies.2 ⟨1, Nat.le_refl 1, nofun, ?_⟩
  rw [pow_one]
  exact mem_oneOf.2 ⟨blank, by cbv, rfl⟩

section
variable {k : Compilation} {rows : List (Nat × List Nat)} (hk : Compiles k rows) {rule : Rule}
  {t : Lexeme}
include hk

theorem Compiles.length_terminals :
    grammar.terminals.length = 208 ∧ (literalCodes grammar).length ≤ 198 := by
  obtain ⟨f⟩ := hk.flattening
  have hcount := f.terminalCount_eq
  rw [hk.terminalCount] at hcount
  have hlength := Grammar.length_terminals grammar
  have htokens : grammar.draft.tokens.length = 10 := rfl
  omega

private theorem Compiles.mem_keywordSet_pattern {p : Pattern}
    (h : grammar.terminals[i]? = some (.pattern p n)) :
    i + 2 ∈ keywordSet (literalCodes grammar) := by
  obtain ⟨hlength, -⟩ := hk.length_terminals
  have htokens : grammar.draft.tokens.length = 10 := rfl
  obtain ⟨hle, hlt⟩ := of_getElem?_terminals_pattern h
  rw [mem_keywordSet, keywordNumbers, Data.Materialize.materialize_eq, List.mem_append,
    List.mem_range'_1]
  omega

private theorem Compiles.fits_literal {text : String}
    (hn : grammar.terminals[n]? = some (.literal text)) :
    k.flat.lexerSpec.Fits 0 (Text.ofString text).toList n
      ((Terminal.literal text).rule draft.modes ⟨n + 2⟩) := by
  obtain ⟨f⟩ := hk.flattening
  exact ⟨by rw [getElem?_rules f, hn]; rfl, rfl, rfl⟩

/-- Literals are preferred to everything else that matches them. -/
theorem Compiles.eq_of_literal {text : String} (hn : grammar.terminals[n]? = some (.literal text))
    (hb : (Text.ofString text).toList.head?.any plain = true)
    (h : Takes k.flat.lexerSpec 0 (Text.ofString text).toList i rule t) : i = n := by
  obtain ⟨d, hvalid⟩ := hk.valid
  obtain ⟨b, hhead, hplain⟩ := (Option.any_eq_true _ _).1 hb
  obtain ⟨w, hw⟩ := List.head?_eq_some_iff.1 hhead
  have hfits := hk.fits_literal hn
  rw [hw] at h hfits
  have hle := hk.le_of_takes h hplain hfits
  obtain ⟨-, hlength⟩ := hk.length_terminals
  have hlt := (List.getElem?_eq_some_iff.1 (getElem?_terminals_literal.1 hn)).1
  cases (hk.recognizes h.fits hplain).1 with
  | @literal text' terminal apart matching =>
    rw [← hw] at matching
    obtain rfl := bytes_injective (Array.toList_inj.1 matching)
    exact Terminal.eq_of_nodup (distinct_terminals hvalid).texts terminal hn rfl rfl
  | pattern terminal apart matching =>
    obtain ⟨hle', -⟩ := of_getElem?_terminals_pattern terminal
    omega
  | identifier token matching => omega
  | number token matching => omega

private theorem Compiles.isWord (h : w ∈ identifierPattern.language) :
    k.flat.lexerSpec.IsWord w := by
  have hflat := k.flattened
  rw [hk.source] at hflat
  have hfind : (grammar.draft.tokens.find? (·.name == "identifier")).map (·.pattern) =
      some identifierPattern := rfl
  exact ⟨identifierPattern, (wordPattern_of_flatten hflat).trans hfind, h⟩

/-- A word has the kind that it stands for, or it is a keyword that stands for a name. -/
theorem Compiles.stands (hw : Word w y) (h : Takes k.flat.lexerSpec 0 w i rule t) :
    Stands w y t.kind t.flags := by
  cases hw with
  | @literal text n terminal opening =>
    obtain rfl := hk.eq_of_literal terminal opening h
    obtain ⟨b, hhead, hplain⟩ := (Option.any_eq_true _ _).1 opening
    obtain ⟨w, hw⟩ := List.head?_eq_some_iff.1 hhead
    rw [hw] at h
    exact .inl (h.kind.trans (hk.recognizes h.fits hplain).2.1)
  | @number w shape =>
    cases w with
    | nil => exact absurd (Pattern.matchesEmpty_of_mem numberPattern shape) (by decide)
    | cons b w =>
      obtain ⟨hdigit, hplain, hnone⟩ := digit_of_number (Pattern.opens_of_mem _ _ shape)
      obtain ⟨hrecognizes, hkind, -⟩ := hk.recognizes h.fits hplain
      rcases hrecognizes.token hdigit with ⟨-, hidentifier⟩ | ⟨rfl, -⟩
      · exact absurd (Pattern.opens_of_mem _ _ hidentifier) (Bool.eq_false_iff.1 hnone)
      · exact .inl (h.kind.trans hkind)
  | @name w name =>
    cases w with
    | nil => exact absurd (Pattern.matchesEmpty_of_mem identifierPattern name.shape) (by decide)
    | cons b w =>
      have hopens := Pattern.opens_of_mem _ _ name.shape
      obtain ⟨hrecognizes, hkind, -⟩ := hk.recognizes h.fits (plain_of_identifier hopens)
      have hnumber (hshape : b :: w ∈ numberPattern.language) : False := by
        obtain ⟨-, -, hnone⟩ := digit_of_number (Pattern.opens_of_mem _ _ hshape)
        rw [hopens] at hnone
        contradiction
      have hkeyword (hb : b ≠ macroLetter) (hmem : i + 2 ∈ keywordSet (literalCodes grammar)) :
          Stands (b :: w) identifierToken t.kind t.flags := by
        refine .inr ⟨rfl, by simpa using hb, ?_, h.word.2 (hk.isWord name.shape)⟩
        rwa [h.kind, hkind]
      by_cases hb : b = macroLetter
      · rcases hrecognizes.token (by rw [hb]; decide) with ⟨rfl, -⟩ | ⟨-, hshape⟩
        · exact .inl (h.kind.trans hkind)
        · exact (hnumber hshape).elim
      · cases hrecognizes with
        | literal terminal apart matching =>
          exact hkeyword hb (mem_keywordSet_literal terminal (matching ▸ name))
        | pattern terminal apart matching => exact hkeyword hb (hk.mem_keywordSet_pattern terminal)
        | identifier token matching =>
          rw [token] at hkind
          exact .inl (h.kind.trans hkind)
        | number token matching => exact (hnumber matching).elim

/-! ## Texts of words -/

omit hk in
private theorem Word.plain (hw : Word w y) : ∃ b u, w = b :: u ∧ Huff.plain b = true := by
  have hshape {p : Pattern} (hempty : p.matchesEmpty = false) (hplain : ∀ b, p.opens b = true →
      Huff.plain b = true) (h : w ∈ p.language) : ∃ b u, w = b :: u ∧ Huff.plain b = true := by
    cases w with
    | nil => exact absurd (Pattern.matchesEmpty_of_mem p h) (Bool.eq_false_iff.1 hempty)
    | cons b u => exact ⟨b, u, rfl, hplain b (Pattern.opens_of_mem p u h)⟩
  cases hw with
  | literal terminal opening =>
    obtain ⟨b, hhead, hplain⟩ := (Option.any_eq_true _ _).1 opening
    obtain ⟨u, hu⟩ := List.head?_eq_some_iff.1 hhead
    exact ⟨b, u, hu, hplain⟩
  | number shape => exact hshape (by decide) (fun b hb => (digit_of_number hb).2.1) shape
  | name name => exact hshape (by decide) (fun b => plain_of_identifier) name.shape

private theorem Compiles.fits_word (hw : Word w y) :
    ∃ i rule, k.flat.lexerSpec.Fits 0 w i rule := by
  cases hw with
  | literal terminal opening => exact ⟨_, _, hk.fits_literal terminal⟩
  | number shape => exact ⟨_, _, hk.fits_token (n := 1) rfl (by decide) shape⟩
  | name name => exact ⟨_, _, hk.fits_token (n := 0) rfl (by decide) name.shape⟩

/-- Blanks are read up to something else. -/
private theorem Compiles.fits_blank (h : k.flat.lexerSpec.Fits 0 (blank :: w) i rule) :
    rule.kind = ⟨209⟩ ∧ rule.nextMode = none ∧
    ∀ b ∈ w, (Pattern.oneOf .blanks).opens b = true := by
  obtain ⟨f⟩ := hk.flattening
  have hrule := h.number
  rw [getElem?_rules f, Option.map_eq_some_iff] at hrule
  obtain ⟨t, ht, rfl⟩ := hrule
  have hmatching := h.matching
  have hlacks {p : Pattern} (hlacks : p.lacks blank = true) (hmem : blank :: w ∈ p.language) :
      False :=
    Pattern.not_mem_of_lacks p hlacks _ hmem List.mem_cons_self
  rcases of_mem_terminals (List.mem_of_getElem? ht) with
      ⟨text, rfl, rule, hrule, hpart⟩ | ⟨p, number, rfl, rule, hrule, hpart⟩ | ⟨decl, hdecl, rfl⟩
  · have hkeeps := keepsApart_of_mem hrule hpart
    rw [keepsApart, Bool.and_eq_true] at hkeeps
    exact (hlacks hkeeps.1 hmatching).elim
  · have hkeeps := keepsApart_of_mem hrule hpart
    rw [keepsApart, Bool.and_eq_true] at hkeeps
    exact (hlacks hkeeps.1 hmatching).elim
  · obtain ⟨n, hn⟩ := List.getElem?_of_mem hdecl
    obtain rfl := hk.eq_of_token ht hn
    have hcandidate : n ∈ candidates 0 (·.opens blank) :=
      mem_candidates hn h.mode (Pattern.opens_of_mem _ _ hmatching)
    rw [candidates_blank, List.mem_singleton] at hcandidate
    subst hcandidate
    obtain rfl := Option.some.inj hn
    refine ⟨rfl, rfl, fun b hb => ?_⟩
    by_contra hnone
    have hlacks : (Pattern.plus (.oneOf .blanks)).lacks b = true := by
      rw [Pattern.plus, Pattern.lacks, Pattern.lacks, ← Pattern.opens, Bool.eq_false_iff.2 hnone]
      rfl
    exact Pattern.not_mem_of_lacks _ hlacks _ hmatching (List.mem_cons_of_mem _ hb)

variable {offset : Nat} {rest : List UInt8} {ts : List Lexeme}

/-- A word in front of a blank, or at the end, is one token. -/
theorem Compiles.tokenizes_word (hw : Word w y) (hrest : ∀ c, rest.head? = some c → c = blank)
    (h : k.flat.lexerSpec.Tokenizes offset 0 (w ++ rest) ts) :
    ∃ t later, ts = t :: later ∧ Stands w y t.kind t.flags ∧
      t.range.length = w.length ∧ t.flags.error = false ∧
        k.flat.lexerSpec.Tokenizes (offset + w.length) 0 rest later := by
  obtain ⟨i, rule, hfits⟩ := hk.fits_word hw
  obtain ⟨b, u, hu, hplain⟩ := hw.plain
  have hlongest : ∀ more, more ≠ [] → more <+: rest →
      ∀ j other, ¬ k.flat.lexerSpec.Fits 0 (w ++ more) j other := by
    intro more hne hprefix j other hother
    obtain ⟨c, more, rfl⟩ := List.exists_cons_of_ne_nil hne
    obtain ⟨tail, rfl⟩ := hprefix
    rw [hu, List.cons_append] at hother
    refine (hk.recognizes hother hplain).1.not_blank ?_
    rw [hrest c rfl]
    simp
  obtain ⟨j, rule, t, later, htakes, rfl, hlater⟩ :=
    tokenizes_append h (by simp [hu]) hfits hlongest
  have hmode : rule.nextMode = none := by
    have hfits := htakes.fits
    rw [hu] at hfits
    exact (hk.recognizes hfits hplain).2.2.2
  rw [hmode] at hlater
  exact ⟨t, later, rfl, hk.stands hw htakes, htakes.length, htakes.clean, hlater⟩

/-- One blank in front of a word is one token. -/
theorem Compiles.tokenizes_blank (hrest : ∀ c, rest.head? = some c → plain c = true)
    (h : k.flat.lexerSpec.Tokenizes offset 0 (blank :: rest) ts) :
    ∃ t later, ts = t :: later ∧ t.kind = ⟨209⟩ ∧
      t.range.length = 1 ∧ t.flags.error = false ∧
        k.flat.lexerSpec.Tokenizes (offset + 1) 0 rest later := by
  have hfits : k.flat.lexerSpec.Fits 0 [blank] _ _ :=
    hk.fits_token (n := 9) rfl (by decide) mem_blank
  have hlongest : ∀ more, more ≠ [] → more <+: rest →
      ∀ j other, ¬ k.flat.lexerSpec.Fits 0 ([blank] ++ more) j other := by
    intro more hne hprefix j other hother
    obtain ⟨c, more, rfl⟩ := List.exists_cons_of_ne_nil hne
    obtain ⟨tail, rfl⟩ := hprefix
    have hopens := (hk.fits_blank hother).2.2 c List.mem_cons_self
    have hplain := hrest c rfl
    simp [plain, hopens] at hplain
  obtain ⟨j, rule, t, later, htakes, rfl, hlater⟩ :=
    tokenizes_append h (List.cons_ne_nil _ _) hfits hlongest
  obtain ⟨hkind, hmode, -⟩ := hk.fits_blank htakes.fits
  rw [hmode] at hlater
  exact ⟨t, later, rfl, htakes.kind.trans hkind, htakes.length, htakes.clean, hlater⟩

end

end

/-! ## Leaves of words -/

/-- The leaf of a word. -/
structure IsToken (x : List UInt8 × Nat) (leaf : Leaf) : Prop where
  word : Word x.1 x.2
  stands : Stands x.1 x.2 leaf.kind leaf.flags
  length : leaf.length = x.1.length
  clean : leaf.isError = false

/-- The leaves of words with a blank before each. -/
inductive SpacedTokens (l : Language) : List (List UInt8 × Nat) → List Leaf → Prop
  | nil : SpacedTokens l [] []
  | cons {x : List UInt8 × Nat} {rest : List (List UInt8 × Nat)} {gap leaf : Leaf}
      {leaves : List Leaf} (blank : gap.Blank l) (first : IsToken x leaf)
      (more : SpacedTokens l rest leaves) : SpacedTokens l (x :: rest) (gap :: leaf :: leaves)

theorem SpacedTokens.of_append {l : Language} {xs ys : List (List UInt8 × Nat)} {leaves : List Leaf}
    (h : SpacedTokens l (xs ++ ys) leaves) :
    ∃ first later, leaves = first ++ later ∧ SpacedTokens l xs first ∧ SpacedTokens l ys later := by
  induction xs generalizing leaves with
  | nil => exact ⟨[], leaves, rfl, .nil, h⟩
  | cons x xs ih =>
    cases h with
    | cons blank first more =>
      obtain ⟨_, later, rfl, hfirst, hlater⟩ := ih more
      exact ⟨_ :: _ :: _, later, rfl, .cons blank first hfirst, hlater⟩

section
variable {k : Compilation} {rows : List (Nat × List Nat)} (hk : Compiles k rows)
  {x : List UInt8 × Nat} {xs : List (List UInt8 × Nat)} {offset : Nat} {ts : List Token}
include hk

/-- The first of some tokens is for a word. -/
theorem Compiles.isToken {rest : List UInt8} (hx : Word x.1 x.2)
    (hrest : ∀ c, rest.head? = some c → c = blank)
    (h : k.flat.lexerSpec.Tokenizes offset 0 (x.1 ++ rest) (ts.map Token.lexeme)) :
    ∃ t later, ts = t :: later ∧
      IsToken x (Leaf.ofToken t) ∧
        k.flat.lexerSpec.Tokenizes (offset + x.1.length) 0 rest (later.map Token.lexeme) := by
  obtain ⟨_, _, hts, hstands, hlength, hclean, hlater⟩ := hk.tokenizes_word hx hrest h
  obtain ⟨t, later, rfl, rfl, rfl⟩ := List.map_eq_cons_iff.1 hts
  exact ⟨t, later, rfl, ⟨hx, hstands, hlength, hclean⟩, hlater⟩

private theorem Compiles.spacedTokens (hwords : ∀ x ∈ xs, Word x.1 x.2)
    (h : k.flat.lexerSpec.Tokenizes offset 0 (led (xs.map (·.1))) (ts.map Token.lexeme)) :
    SpacedTokens k.language xs (ts.map Leaf.ofToken) := by
  induction xs generalizing offset ts with
  | nil =>
    have hnone : ts.map Token.lexeme = [] := h.unique .done
    rw [List.map_eq_nil_iff.1 hnone]
    exact .nil
  | cons x xs ih =>
    have hx := hwords x List.mem_cons_self
    have hplain : ∀ c, (x.1 ++ led (xs.map (·.1))).head? = some c → plain c = true := by
      obtain ⟨b, u, hb, hplain⟩ := hx.plain
      rw [hb]
      rintro c ⟨⟩
      exact hplain
    obtain ⟨_, _, hts, hkind, hlength, hclean, hlater⟩ := hk.tokenizes_blank hplain h
    obtain ⟨gap, ts, rfl, rfl, rfl⟩ := List.map_eq_cons_iff.1 hts
    obtain ⟨t, later, rfl, htoken, hmore⟩ := hk.isToken hx eq_blank_of_head_led hlater
    exact .cons ⟨(hk.isExtra_iff _).2 hkind, hlength, hclean⟩ htoken
      (ih (fun y hy => hwords y (List.mem_cons_of_mem _ hy)) hmore)

/-- The leaves that the parser has of words with a blank between them. -/
theorem Compiles.leaves_spaced {source : Text.Bytes} (hsize : source.size ≤ Text.maxSize)
    (hx : Word x.1 x.2) (hxs : ∀ y ∈ xs, Word y.1 y.2)
    (hsource : source.toList = spaced (x.1 :: xs.map (·.1))) :
    ∃ leaf leaves, (({ language := k.language } : Parser).job source none []).leaves =
      leaf :: leaves ∧ IsToken x leaf ∧
      SpacedTokens k.language xs leaves := by
  have hleaves : (({ language := k.language } : Parser).job source none []).leaves =
      (k.lexer.tokenize source).toList.map Leaf.ofToken :=
    Parser.leaves_tokens k rfl hsize fun t ht => absurd ht (by simp [Parser.usable])
  have htokens := (tokenizes_iff_tokenize k.lexed hsize _).2 rfl
  rw [hsource, spaced_cons] at htokens
  obtain ⟨t, later, hts, htoken, hmore⟩ := hk.isToken hx eq_blank_of_head_led htokens
  rw [hleaves, hts]
  exact ⟨_, _, rfl, htoken, hk.spacedTokens hxs hmore⟩

end

/-! ## Reading words -/

/-- The word is read for what it is wherever some symbols are on the stack: an opening brace is
among them, or it is no name but that of a macro. -/
def Legible (under : List Kind) (x : List UInt8 × Nat) : Prop :=
  ⟨leftBrace⟩ ∈ under ∨ x.2 ≠ identifierToken ∨ x.1.head? = some macroLetter

/-- Trees of words, with nothing but leaves. -/
structure WordRow (l : Language) (xs : List (List UInt8 × Nat)) (ts : List Tree) : Prop where
  row : Tree.Row l xs ts
  leaves : ∀ t ∈ ts, t.isNode = false

section
open Parse
variable {k : Compilation} {rows : List (Nat × List Nat)} (hk : Compiles k rows) {under : List Kind}
  {x : List UInt8 × Nat} {xs : List (List UInt8 × Nat)} {leaf : Leaf} {leaves : List Leaf}
include hk

private theorem Compiles.lt_of_mem_keywordSet {n : Nat}
    (h : n ∈ keywordSet (literalCodes grammar)) : n < 200 := by
  obtain ⟨-, hlength⟩ := hk.length_terminals
  rw [mem_keywordSet, keywordNumbers, Data.Materialize.materialize_eq, List.mem_append,
    List.mem_map, List.mem_range'_1] at h
  rcases h with ⟨⟨c, i⟩, hmem, rfl⟩ | h
  · have hget := List.mk_mem_zipIdx_iff_getElem?.1 (List.mem_filter.1 hmem).1
    have hlt := (List.getElem?_eq_some_iff.1 hget).1
    dsimp only
    omega
  · omega

private theorem Compiles.lt_of_word {w : List UInt8} {y : Nat} (h : Word w y) : y < 209 := by
  obtain ⟨-, hlength⟩ := hk.length_terminals
  cases h with
  | literal terminal opening =>
    have hlt := (List.getElem?_eq_some_iff.1 (getElem?_terminals_literal.1 terminal)).1
    omega
  | number shape => decide
  | name name => decide

theorem Compiles.isExtra_of_ne {y : Nat} (h : y ≠ 209) : k.language.isExtra ⟨y⟩ = false :=
  Bool.eq_false_iff.2 fun hextra => h (congrArg Kind.id ((hk.isExtra_iff _).1 hextra))

/-- Where a keyword stands for a name, there is no action for the keyword. -/
private theorem Compiles.nextAs (h : IsToken x leaf) (hlegible : Legible under x) :
    NextAs k under (some leaf) ⟨x.2⟩ := by
  rcases h.stands with hkind | ⟨hname, hletter, hkeyword, hflag⟩
  · rw [← hkind]
    exact nextAs_kind k under leaf
  · have hopen : (⟨leftBrace⟩ : Kind) ∈ under :=
      hlegible.resolve_right fun hcertain => hcertain.elim (absurd hname) hletter
    obtain ⟨b, r, hopening, houtside, hb, hguards⟩ := hk.guarded
    intro entries stack i around action htracked hunder haction
    have hnone :=
      Tracks.no_action hb hguards htracked (hopening ▸ hunder hopen) (houtside ▸ hkeyword)
    rw [top_stackOf] at hnone
    exact Language.actionFor_eq_some_iff.2 ⟨haction, .inr ⟨hnone, hflag, hname ▸ hk.word⟩⟩

theorem Compiles.fits_piece (h : IsToken x leaf) (hlegible : Legible under x) {extras : Array Leaf}
    (hextras : ∀ gap ∈ extras, k.language.isExtra gap.kind = true) :
    Piece.Fits ⟨extras, leaf, ⟨x.2⟩⟩ k under where
  extras := hextras
  proper := by
    rcases h.stands with hkind | ⟨-, -, hkeyword, -⟩
    · rw [hkind]
      exact hk.isExtra_of_ne (Nat.ne_of_lt (hk.lt_of_word h.word))
    · have hlt := hk.lt_of_mem_keywordSet hkeyword
      exact hk.isExtra_of_ne (Nat.ne_of_lt (Nat.lt_trans hlt (by decide)))
  terminal := by
    have hlt := hk.lt_of_word h.word
    rw [Flat.isTerminal, hk.terminalCount, decide_eq_true_eq]
    exact Nat.lt_succ_of_lt hlt
  next := hk.nextAs h hlegible

theorem Compiles.covers_token (h : IsToken x leaf) :
    Tree.Covers k.language x (.leaf (leaf.reinterpret ⟨x.2⟩)) where
  kind := rfl
  length := by
    rw [Tree.frontier, Tree.totalLength_cons, Tree.totalLength_nil, Nat.add_zero]; exact h.length
  clean := h.clean
  proper := hk.isExtra_of_ne (Nat.ne_of_lt (hk.lt_of_word h.word))

/-- The leaves of words are pieces that are read as these words. -/
theorem Compiles.exists_pieces (h : SpacedTokens k.language xs leaves)
    (hlegible : ∀ x ∈ xs, Legible under x) :
    ∃ pieces : List Piece, leaves = pieces.flatMap Piece.leaves ∧
      pieces.map (·.kind) = xs.map (⟨·.2⟩) ∧
      (∀ p ∈ pieces, p.Fits k under) ∧ WordRow k.language xs (pieces.flatMap Piece.trees) := by
  induction h with
  | nil => exact ⟨[], rfl, rfl, nofun, .nil, nofun⟩
  | @cons x rest gap leaf leaves hblank hfirst hmore ih =>
    obtain ⟨pieces, rfl, hkinds, hfits, hrow⟩ :=
      ih fun y hy => hlegible y (List.mem_cons_of_mem _ hy)
    have hgap : ∀ extra ∈ #[gap], k.language.isExtra extra.kind = true := by
      intro extra hextra
      rw [Array.mem_singleton.1 hextra]
      exact hblank.extra
    have hpiece := hk.fits_piece hfirst (hlegible x List.mem_cons_self) hgap
    refine ⟨⟨#[gap], leaf, ⟨x.2⟩⟩ :: pieces, rfl, by rw [List.map_cons, hkinds, List.map_cons], ?_,
      .cons hblank (hk.covers_token hfirst) hrow.row, ?_⟩
    · intro p hp
      rcases List.mem_cons.1 hp with rfl | hp
      · exact hpiece
      · exact hfits p hp
    · intro t ht
      rw [List.flatMap_cons] at ht
      rcases List.mem_append.1 ht with ht | ht
      · simp only [Piece.trees, List.map_cons, List.map_nil, List.mem_append,
          List.mem_singleton] at ht
        rcases ht with rfl | rfl <;> rfl
      · exact hrow.leaves t ht

theorem Compiles.begins_word (h : SpacedTokens k.language (x :: xs) leaves)
    (hlegible : Legible under x) (rest : List Kind) :
    Begins k under leaves (⟨x.2⟩ :: rest) := by
  cases h with
  | @cons _ _ gap leaf leaves hblank hfirst hmore =>
    have hgap : ∀ extra ∈ #[gap], k.language.isExtra extra.kind = true := by
      intro extra hextra
      rw [Array.mem_singleton.1 hextra]
      exact hblank.extra
    exact (begins_piece (hk.fits_piece hfirst hlegible hgap)).append leaves rest

variable {job : Job} (hlanguage : job.language = k.language) (hreuse : job.reuse = none)
include hlanguage hreuse

/-- Words are read as terminals. -/
theorem Compiles.readsAll_words (h : SpacedTokens k.language (x :: xs) leaves)
    (hlegible : ∀ y ∈ x :: xs, Legible under y) :
    ReadsAll k job under ((x :: xs).map (⟨·.2⟩)) leaves 0 (Tree.Row k.language (x :: xs)) := by
  obtain ⟨pieces, rfl, hkinds, hfits, hrow⟩ := hk.exists_pieces h hlegible
  rw [← hkinds]
  have hne : pieces ≠ [] := by
    rintro rfl
    contradiction
  refine (readsAll_pieces hk.single hlanguage hreuse hne hfits).mono ?_
  rintro ts rfl
  exact hrow.row

/-- Words are read as terminals in front of other symbols. -/
theorem Compiles.readsAll_words_append (h : SpacedTokens k.language xs leaves)
    (hlegible : ∀ x ∈ xs, Legible under x) {rest : List Kind} {tokens : List Leaf}
    {reductions : Nat} {good : List Tree → Prop}
    (hrest : ∀ more, under ⊆ more → xs.map (⟨·.2⟩) ⊆ more →
      ReadsAll k job more rest tokens reductions good) :
    ReadsAll k job under (xs.map (⟨·.2⟩) ++ rest) (leaves ++ tokens) reductions
      fun ts => ∃ words others, ts = words ++ others ∧
        WordRow k.language xs words ∧ good others := by
  obtain ⟨pieces, rfl, hkinds, hfits, hrow⟩ := hk.exists_pieces h hlegible
  rw [← hkinds] at hrest ⊢
  refine (ReadsAll.pieces hk.single hlanguage hreuse hfits hrest).mono ?_
  rintro ts ⟨others, rfl, hothers⟩
  exact ⟨_, others, rfl, hrow, hothers⟩

end
end Reparse.Huff

import Reparse.Proofs.Huff
import Reparse.Proofs.Languages
import Reparse.Proofs.Reparsing
import Reparse.Proofs.Simulation

/-! # Block comments of Huff

A block comment ends where a star and a slash are next to each other for the first time. The
patterns for its text and for its end split it there, however many stars there are, and the parser
makes one node of the tokens. -/
namespace Reparse.Huff
open Lexer Computability

/-! ## Texts of comments -/

def slash : UInt8 := 47

/-- The text does not end a comment. -/
def Unclosed (w : List UInt8) : Prop := ¬ [star, slash] <:+: w

variable {w u v : List UInt8} {b : UInt8}

theorem unclosed_nil : Unclosed [] := fun h => absurd (List.infix_nil.1 h) (List.cons_ne_nil _ _)

theorem unclosed_cons : Unclosed (b :: w) ↔ ¬ (b = star ∧ w.head? = some slash) ∧ Unclosed w := by
  have hprefix : [star, slash] <+: b :: w ↔ b = star ∧ w.head? = some slash := by
    rw [List.cons_prefix_cons, eq_comm]
    cases w with
    | nil => simp
    | cons c w => simp [List.cons_prefix_cons, eq_comm]
  rw [Unclosed, Unclosed, List.infix_cons_iff, hprefix, not_or]

/-- What ends a comment may also be where two texts meet. -/
theorem unclosed_append : Unclosed (u ++ v) ↔
    Unclosed u ∧ Unclosed v ∧ ¬ (u.getLast? = some star ∧ v.head? = some slash) := by
  induction u with
  | nil => simp [unclosed_nil]
  | cons b u ih =>
    rw [List.cons_append, unclosed_cons, ih, unclosed_cons]
    cases u with
    | nil => simp [unclosed_nil]; tauto
    | cons c u => simp; tauto

private theorem unclosed_stars (n : Nat) : Unclosed (List.replicate n star) := by
  induction n with
  | zero => exact unclosed_nil
  | succ n ih =>
    refine unclosed_cons.2 ⟨fun ⟨_, hhead⟩ => ?_, ih⟩
    have hmem := List.mem_of_head? hhead
    exact absurd (List.eq_of_mem_replicate hmem) (by decide)

/-! ## Patterns -/

private theorem mem_pow_singleton (n : Nat) :
    w ∈ ({[b]} : FormalLanguage UInt8) ^ n ↔ w = List.replicate n b := by
  induction n generalizing w with
  | zero => rw [pow_zero, Language.mem_one, List.replicate_zero]
  | succ n ih =>
    rw [pow_succ', Language.mem_mul, List.replicate_succ]
    constructor
    · rintro ⟨_, rfl, v, hv, rfl⟩
      rw [ih.1 hv]
      rfl
    · rintro rfl
      exact ⟨[b], rfl, _, ih.2 rfl, rfl⟩

/-- One star or more. -/
theorem mem_stars :
    w ∈ (Pattern.plus (.literal "*")).language ↔ ∃ n, w = List.replicate (n + 1) star := by
  have hstar : (Pattern.literal "*").language = {[star]} := by
    rw [Pattern.language]
    congr 1
  rw [Pattern.plus, Pattern.language, hstar, mem_copies]
  constructor
  · rintro ⟨n, hn, -, hw⟩
    refine ⟨n - 1, ?_⟩
    rw [Nat.sub_add_cancel hn]
    exact (mem_pow_singleton n).1 hw
  · rintro ⟨n, rfl⟩
    exact ⟨n + 1, Nat.le_add_left 1 n, nofun, (mem_pow_singleton _).2 rfl⟩

theorem mem_oneOf {set : ByteSet} :
    w ∈ (Pattern.oneOf set).language ↔ ∃ b, (Pattern.oneOf set).opens b = true ∧ w = [b] := by
  simp only [Pattern.opens, List.any_eq_true, Bool.and_eq_true, decide_eq_true_eq]
  constructor
  · rintro ⟨r, hr, b, hlo, hhi, rfl⟩
    exact ⟨b, ⟨r, hr, hlo, hhi⟩, rfl⟩
  · rintro ⟨b, ⟨r, hr, hlo, hhi⟩, rfl⟩
    exact ⟨r, hr, b, hlo, hhi, rfl⟩

private theorem ne_iff_toNat {b c : UInt8} : b ≠ c ↔ b.toNat ≠ c.toNat := UInt8.toNat_inj.symm.not

private theorem opens_notStar :
    (Pattern.oneOf (ByteSet.single star).complement).opens b = true ↔ b ≠ star := by
  have hranges : (ByteSet.single star).complement.ranges = [(0, 41), (43, 255)] := by cbv
  have hstar : star.toNat = 42 := rfl
  have hlt := b.toNat_lt
  rw [ne_iff_toNat, hstar]
  simp [Pattern.opens, hranges, UInt8.le_iff_toNat_le]
  omega

private theorem opens_notStarSlash :
    (Pattern.oneOf (ByteSet.ofString "*/").complement).opens b = true ↔ b ≠ star ∧ b ≠ slash := by
  have hranges : (ByteSet.ofString "*/").complement.ranges =
      [(0, 41), (43, 46), (48, 255)] := by cbv
  have hstar : star.toNat = 42 := rfl
  have hslash : slash.toNat = 47 := rfl
  have hlt := b.toNat_lt
  rw [ne_iff_toNat, ne_iff_toNat, hstar, hslash]
  simp [Pattern.opens, hranges, UInt8.le_iff_toNat_le]
  omega

/-- A piece of the text of a comment. -/
def piece : Pattern := .alt [.oneOf (ByteSet.single star).complement,
  .seq [.plus (.literal "*"), .oneOf (ByteSet.ofString "*/").complement]]

/-- It is a byte that is no star, or stars and then a byte that does not end the comment. -/
theorem mem_piece : w ∈ piece.language ↔ (∃ b, b ≠ star ∧ w = [b]) ∨
    ∃ n b, b ≠ star ∧ b ≠ slash ∧ w = List.replicate (n + 1) star ++ [b] := by
  rw [piece, Pattern.language, Pattern.languageOfAlt, Pattern.languageOfAlt, Pattern.languageOfAlt,
    add_zero, Language.mem_add, mem_oneOf]
  refine or_congr (by simp only [opens_notStar]) ?_
  rw [Pattern.language, Pattern.languageOfSeq, Pattern.languageOfSeq, Pattern.languageOfSeq,
    mul_one, Language.mem_mul]
  simp only [mem_stars, mem_oneOf, opens_notStarSlash]
  constructor
  · rintro ⟨_, ⟨n, rfl⟩, _, ⟨b, ⟨hstar, hslash⟩, rfl⟩, rfl⟩
    exact ⟨n, b, hstar, hslash, rfl⟩
  · rintro ⟨n, b, hstar, hslash, rfl⟩
    exact ⟨_, ⟨n, rfl⟩, _, ⟨b, ⟨hstar, hslash⟩, rfl⟩, rfl⟩

/-- The end of a comment does not begin in the text, even if a slash comes after it. -/
def Settled (w : List UInt8) : Prop := Unclosed w ∧ w.getLast? ≠ some star

private theorem settled_nil : Settled [] := ⟨unclosed_nil, nofun⟩

private theorem Settled.append (hu : Settled u) (hv : Settled v) : Settled (u ++ v) := by
  refine ⟨unclosed_append.2 ⟨hu.1, hv.1, fun h => hu.2 h.1⟩, ?_⟩
  rw [List.getLast?_append]
  cases h : v.getLast? with
  | none => exact hu.2
  | some b => exact fun hstar => hv.2 (h.trans hstar)

private theorem settled_of_piece (h : w ∈ piece.language) : Settled w := by
  rcases mem_piece.1 h with ⟨b, hstar, rfl⟩ | ⟨n, b, hstar, hslash, rfl⟩
  · exact ⟨unclosed_cons.2 ⟨fun h => hstar h.1, unclosed_nil⟩, by simpa using hstar⟩
  · have hunclosed : Unclosed [b] := unclosed_cons.2 ⟨fun h => hstar h.1, unclosed_nil⟩
    refine ⟨unclosed_append.2 ⟨unclosed_stars _, hunclosed, ?_⟩, by simpa using hstar⟩
    rintro ⟨-, hhead⟩
    exact hslash (Option.some.inj hhead)

private theorem exists_stars (w : List UInt8) :
    ∃ n v, w = List.replicate n star ++ v ∧ v.head? ≠ some star := by
  induction w with
  | nil => exact ⟨0, [], rfl, nofun⟩
  | cons b w ih =>
    by_cases hb : b = star
    · obtain ⟨n, v, rfl, hv⟩ := ih
      exact ⟨n + 1, v, by rw [hb]; rfl, hv⟩
    · exact ⟨0, b :: w, rfl, by simpa using hb⟩

private theorem getLast?_stars (n : Nat) : (List.replicate (n + 1) star).getLast? = some star := by
  rw [List.getLast?_replicate, if_neg n.succ_ne_zero]

/-- Such a text is cut into pieces behind each run of stars. -/
theorem mem_pieces : w ∈ piece.language∗ ↔ Settled w := by
  constructor
  · intro h
    obtain ⟨us, rfl, hus⟩ := Language.mem_kstar.1 h
    clear h
    induction us with
    | nil => exact settled_nil
    | cons u us ih =>
      rw [List.flatten_cons]
      exact (settled_of_piece (hus u List.mem_cons_self)).append
        (ih fun v hv => hus v (List.mem_cons_of_mem _ hv))
  · intro h
    induction hlength : w.length using Nat.strong_induction_on generalizing w with
    | _ n ih =>
      obtain ⟨m, v, rfl, hv⟩ := exists_stars w
      cases v with
      | nil =>
        cases m with
        | zero => exact Language.nil_mem_kstar _
        | succ m =>
          rw [List.append_nil] at h
          exact absurd (getLast?_stars m) h.2
      | cons b v =>
        have hstar : b ≠ star := fun hb => hv (congrArg some hb)
        obtain ⟨-, hunclosed, hmeet⟩ := unclosed_append.1 h.1
        have hlast : v.getLast? ≠ some star := by
          intro hlast
          refine h.2 ?_
          simp [List.getLast?_append, List.getLast?_cons, hlast]
        have hpiece : List.replicate m star ++ [b] ∈ piece.language := by
          refine mem_piece.2 ?_
          cases m with
          | zero => exact .inl ⟨b, hstar, rfl⟩
          | succ m =>
            exact .inr ⟨m, b, hstar, fun hslash =>
              hmeet ⟨getLast?_stars m, congrArg some hslash⟩, rfl⟩
        have hlt : v.length < n := by
          rw [← hlength, List.length_append, List.length_cons]
          omega
        have hmore : piece.language * piece.language∗ ≤ piece.language∗ := mul_kstar_le_kstar
        rw [List.append_cons]
        exact hmore
          (Language.append_mem_mul hpiece (ih _ hlt ⟨(unclosed_cons.1 hunclosed).2, hlast⟩ rfl))

theorem mem_commentBody : w ∈ commentBody.language ↔ w ≠ [] ∧ Settled w := by
  have hbody : commentBody.language = piece.language * piece.language∗ := by
    change (Pattern.plus piece).language = _
    rw [Pattern.plus, Pattern.language, copies_none, pow_one]
  have hmore : piece.language * piece.language∗ ≤ piece.language∗ := mul_kstar_le_kstar
  rw [hbody]
  constructor
  · intro h
    refine ⟨?_, mem_pieces.1 (hmore h)⟩
    rintro rfl
    obtain ⟨u, hu, v, -, huv⟩ := Language.mem_mul.1 h
    obtain ⟨rfl, -⟩ := List.append_eq_nil_iff.1 huv
    exact absurd (Pattern.matchesEmpty_of_mem piece hu) (by decide)
  · rintro ⟨hne, hsettled⟩
    have h := mem_pieces.2 hsettled
    rw [← one_add_mul_kstar, Language.mem_add, Language.mem_one] at h
    exact h.resolve_left hne

theorem mem_commentEnd :
    w ∈ commentEnd.language ↔ ∃ n, w = List.replicate (n + 1) star ++ [slash] := by
  have hslash : (Pattern.literal "/").language = {[slash]} := by
    rw [Pattern.language]
    congr 1
  rw [commentEnd, Pattern.language, Pattern.languageOfSeq, Pattern.languageOfSeq,
    Pattern.languageOfSeq, mul_one, hslash, Language.mem_mul]
  simp only [mem_stars]
  constructor
  · rintro ⟨_, ⟨n, rfl⟩, _, rfl, rfl⟩
    exact ⟨n, rfl⟩
  · rintro ⟨n, rfl⟩
    exact ⟨_, ⟨n, rfl⟩, [slash], rfl, rfl⟩

theorem mem_literal_seq {text : String} {rest : List Pattern} :
    w ∈ (Pattern.seq (.literal text :: rest)).language ↔
      ∃ v, w = (Text.ofString text).toList ++ v ∧ v ∈ Pattern.languageOfSeq rest := by
  rw [Pattern.language, Pattern.languageOfSeq, Pattern.language, Language.mem_mul]
  constructor
  · rintro ⟨_, rfl, v, hv, rfl⟩
    exact ⟨v, rfl, hv⟩
  · rintro ⟨v, rfl, hv⟩
    exact ⟨_, rfl, v, hv, rfl⟩

private theorem mem_optional {p : Pattern} :
    w ∈ (Pattern.optional p).language ↔ w = [] ∨ w ∈ p.language := by
  rw [Pattern.optional, Pattern.language, copies_succ, copies_zero, mul_one,
    Language.mem_add, Language.mem_one]

/-- Comments for the specification have their text between two stars and the end of a comment. -/
theorem mem_natspecBlock :
    w ∈ (Pattern.seq [.literal "/**", .optional commentBody, commentEnd]).language ↔
      ∃ u n, Settled u ∧ w = slash :: star :: star ::
      (u ++ (List.replicate (n + 1) star ++ [slash])) := by
  have hopening : (Text.ofString "/**").toList = [slash, star, star] := rfl
  rw [mem_literal_seq, hopening]
  simp only [Pattern.languageOfSeq, mul_one, Language.mem_mul, mem_optional,
    mem_commentBody, mem_commentEnd]
  constructor
  · rintro ⟨_, rfl, u, hu, _, ⟨n, rfl⟩, rfl⟩
    refine ⟨u, n, ?_, rfl⟩
    rcases hu with rfl | ⟨-, hu⟩
    · exact settled_nil
    · exact hu
  · rintro ⟨u, n, hu, rfl⟩
    refine ⟨_, rfl, u, ?_, _, ⟨n, rfl⟩, rfl⟩
    by_cases hnil : u = []
    · exact .inl hnil
    · exact .inr ⟨hnil, hu⟩

/-- Stars at the end of a text belong to the end of the comment. -/
theorem exists_settled {s : List UInt8} (h : Unclosed s) :
    ∃ u n, s = u ++ List.replicate n star ∧ Settled u := by
  obtain ⟨n, v, hs, hv⟩ := exists_stars s.reverse
  have hsplit : s = v.reverse ++ List.replicate n star := by
    rw [← List.reverse_reverse s, hs, List.reverse_append, List.reverse_replicate]
  rw [hsplit, unclosed_append] at h
  exact ⟨v.reverse, n, hsplit, h.1, by rwa [List.getLast?_reverse]⟩

/-- The end of a comment is not part of its text. -/
theorem not_settled_of_ending {n : Nat} (hv : v ≠ [])
    (h : v <+: List.replicate (n + 1) star ++ [slash]) :
    ¬ Settled (u ++ v) := by
  rintro ⟨hunclosed, hlast⟩
  rw [List.getLast?_append] at hlast
  rcases List.prefix_concat_iff.1 h with rfl | h
  · obtain ⟨-, h, -⟩ := unclosed_append.1 hunclosed
    exact (unclosed_append.1 h).2.2 ⟨getLast?_stars n, rfl⟩
  · obtain ⟨-, hstars⟩ := List.prefix_replicate_iff.1 h
    obtain ⟨m, hm⟩ := Nat.exists_eq_succ_of_ne_zero (mt List.length_eq_zero_iff.1 hv)
    rw [hstars, hm, getLast?_stars] at hlast
    exact hlast rfl


/-! ## Rules of the lexer -/

section
open Grammar Lowering
variable {k : Compilation} {rows : List (Nat × List Nat)} (hk : Compiles k rows) {rule : Rule}
  {i n : Nat}

/-- The declared tokens of a mode whose patterns are of a kind. -/
def candidates (mode : Nat) (keeps : Pattern → Bool) : List Nat :=
  (tokens.zipIdx.filter fun t =>
    Terminals.modeNumber draft.modes (t.1.mode.getD defaultMode) == mode &&
    keeps t.1.pattern).map (·.2)

theorem mem_candidates {mode : Nat} {keeps : Pattern → Bool} {decl : TokenDecl}
    (h : tokens[n]? = some decl)
    (hmode : Terminals.modeNumber draft.modes (decl.mode.getD defaultMode) = mode)
    (hkeeps : keeps decl.pattern = true) :
    n ∈ candidates mode keeps := by
  refine List.mem_map.2 ⟨(decl, n),
    List.mem_filter.2 ⟨List.mk_mem_zipIdx_iff_getElem?.2 h, ?_⟩, rfl⟩
  rw [Bool.and_eq_true, beq_iff_eq]
  exact ⟨hmode, hkeeps⟩

private theorem candidates_opening : candidates 0 (·.opens slash) = [3, 4, 5, 6] := by cbv

private theorem candidates_inside : candidates 1 (fun _ => true) = [7, 8] := by cbv

include hk

/-- A slash and a star begin a comment, or a comment for the specification with its text. -/
theorem Compiles.fits_opening (h : k.flat.lexerSpec.Fits 0 (slash :: star :: w) i rule) :
    i = 204 ∧ w = [] ∨ i = 202 ∧ ∃ u n, Settled u ∧
      w = star :: (u ++ (List.replicate (n + 1) star ++ [slash])) := by
  obtain ⟨n, decl, hdecl, rfl, hmode, hmem⟩ := hk.token_of_slash h
  have hn : n ∈ candidates 0 (·.opens slash) :=
    mem_candidates hdecl hmode (Pattern.opens_of_mem _ _ hmem)
  -- Comments on one line and those for the specification begin with two slashes.
  have hline {rest : List Pattern} {text : String} {u : List UInt8}
      (htext : (Text.ofString text).toList = slash :: slash :: u)
      (hmem : slash :: star :: w ∈ (Pattern.seq (.literal text :: rest)).language) : False := by
    obtain ⟨v, hv, -⟩ := mem_literal_seq.1 hmem
    rw [htext] at hv
    exact absurd (List.cons.inj (List.cons.inj hv).2).1 (by decide)
  rw [candidates_opening] at hn
  fin_cases hn
  · obtain rfl := Option.some.inj hdecl
    exact (hline rfl hmem).elim
  · obtain rfl := Option.some.inj hdecl
    obtain ⟨u, m, hu, hw⟩ := mem_natspecBlock.1 hmem
    exact .inr ⟨rfl, u, m, hu, (List.cons.inj (List.cons.inj hw).2).2⟩
  · obtain rfl := Option.some.inj hdecl
    exact (hline rfl hmem).elim
  · obtain rfl := Option.some.inj hdecl
    have hw : slash :: star :: w = [slash, star] := hmem
    exact .inl ⟨rfl, (List.cons.inj (List.cons.inj hw).2).2⟩

/-- Inside of a comment there are its text and its end. -/
theorem Compiles.fits_inside (h : k.flat.lexerSpec.Fits 1 w i rule) :
    i = 205 ∧ Settled w ∨ i = 206 ∧ ∃ n, w = List.replicate (n + 1) star ++ [slash] := by
  obtain ⟨t, ht, hmode, hmem⟩ := hk.terminal h
  rcases of_mem_terminals (List.mem_of_getElem? ht) with
      ⟨text, rfl, -⟩ | ⟨p, number, rfl, -⟩ | ⟨decl, hdecl, rfl⟩
  · exact absurd (show (0 : Nat) = 1 from hmode) (by decide)
  · exact absurd (show (0 : Nat) = 1 from hmode) (by decide)
  · obtain ⟨n, hn⟩ := List.getElem?_of_mem hdecl
    have hindex : n ∈ candidates 1 (fun _ => true) := mem_candidates hn hmode rfl
    obtain rfl := hk.eq_of_token ht hn
    rw [candidates_inside] at hindex
    fin_cases hindex
    · obtain rfl := Option.some.inj hn
      exact .inl ⟨rfl, (mem_commentBody.1 hmem).2⟩
    · obtain rfl := Option.some.inj hn
      exact .inr ⟨rfl, mem_commentEnd.1 hmem⟩

/-- The rule for a declared token fits where its pattern matches. -/
theorem Compiles.fits_token {mode : Nat} {decl : TokenDecl} (hdecl : tokens[n]? = some decl)
    (hmode : Terminals.modeNumber draft.modes (decl.mode.getD defaultMode) = mode)
    (hmem : w ∈ decl.pattern.language) :
    k.flat.lexerSpec.Fits mode w (198 + n) ((Terminal.token decl).rule draft.modes ⟨200 + n⟩) :=
  ⟨hk.rule hdecl, hmode, hmem⟩

end

section
variable {spec : Spec} {offset mode i kind : Nat} {text rest : List UInt8} {rule : Rule}
  {kinds : List Nat}

/-- A text is read as tokens of some kinds, and none of them is an error. -/
def Spells (spec : Spec) (offset mode : Nat) (text : List UInt8) (kinds : List Nat) : Prop :=
  ∃ ts, spec.Tokenizes offset mode text ts ∧ ts.map (·.kind) = kinds.map Kind.mk ∧
    ∀ t ∈ ts, t.flags.error = false

private theorem spells_nil : Spells spec offset mode [] [] :=
  ⟨[], .done, rfl, fun _ ht => absurd ht List.not_mem_nil⟩

theorem spells_cons (hfits : spec.Fits mode text i rule) (hkind : rule.kind = ⟨kind⟩)
    (hne : text ≠ []) (honly : ∀ j other, spec.Fits mode text j other → j = i)
    (hlongest : ∀ more, more ≠ [] → more <+: rest →
      ∀ j other, ¬ spec.Fits mode (text ++ more) j other)
    (hrest : Spells spec (offset + text.length) (rule.nextMode.getD mode) rest kinds) :
    Spells spec offset mode (text ++ rest) (kind :: kinds) := by
  obtain ⟨ts, htokens, hkinds, hclean⟩ := hrest
  have htake : (text ++ rest).take text.length = text := List.take_left
  have hfirst (j : Nat) (other : Rule) (hother : spec.Fits mode text j other) :
      other.priority < rule.priority ∨ other.priority = rule.priority ∧ i ≤ j := by
    obtain rfl := honly j other hother
    rw [Option.some.inj (hother.number.symm.trans hfits.number)]
    exact .inr ⟨rfl, Nat.le_refl j⟩
  have htakes : spec.Takes mode (text ++ rest) text.length rule := by
    refine ⟨List.length_pos_iff.2 hne, by simp, ⟨i, by rwa [htake], by rwa [htake]⟩,
      fun m hm hle => ?_⟩
    rw [List.length_append] at hle
    rw [List.take_append, List.take_of_length_le (Nat.le_of_lt hm)]
    refine hlongest _ (List.ne_nil_of_length_pos ?_) (List.take_prefix _ _)
    rw [List.length_take]
    omega
  obtain ⟨word, hword⟩ : ∃ word : Bool, word = true ↔
      spec.IsWord ((text ++ rest).take text.length) := by
    classical exact ⟨decide _, decide_eq_true_iff⟩
  have hdrop : (text ++ rest).drop text.length = rest := List.drop_left
  rw [← hdrop] at htokens
  refine ⟨_, .token htakes hword htokens, ?_, fun t ht => ?_⟩
  · rw [List.map_cons, hkind, hkinds, List.map_cons]
  · rcases List.mem_cons.1 ht with rfl | ht
    · rfl
    · exact hclean t ht

end

section
variable {k : Compilation} {rows : List (Nat × List Nat)} (hk : Compiles k rows) {offset n : Nat}
  {s : List UInt8}
include hk

private theorem Compiles.spells_end :
    Spells k.flat.lexerSpec offset 1 (List.replicate (n + 1) star ++ [slash]) [commentStop] := by
  have hfits : k.flat.lexerSpec.Fits 1 _ _ _ :=
    hk.fits_token (n := 8) rfl (by decide) (mem_commentEnd.2 ⟨n, rfl⟩)
  rw [← List.append_nil (List.replicate (n + 1) star ++ [slash])]
  refine spells_cons hfits rfl (by simp) (fun j other hother => ?_)
    (fun more hmore hprefix => absurd (List.prefix_nil.1 hprefix) hmore) spells_nil
  · rcases hk.fits_inside hother with ⟨-, hsettled⟩ | ⟨hj, -⟩
    · exact absurd hsettled (not_settled_of_ending (u := []) (by simp) (List.prefix_refl _))
    · exact hj

private theorem Compiles.spells_text (hs : s ≠ []) (hsettled : Settled s)
    (hhead : s.head? ≠ some star) :
    Spells k.flat.lexerSpec offset 1
      (s ++ (List.replicate (n + 1) star ++ [slash])) [commentText, commentStop] := by
  have hfits : k.flat.lexerSpec.Fits 1 s _ _ :=
    hk.fits_token (n := 7) rfl (by decide) (mem_commentBody.2 ⟨hs, hsettled⟩)
  -- The end of a comment begins with a star.
  have hend (v : List UInt8) (hj : ∃ n, s ++ v = List.replicate (n + 1) star ++ [slash]) :
      False := by
    obtain ⟨n, hn⟩ := hj
    have hfirst := congrArg List.head? hn
    rw [List.head?_append_of_ne_nil _ hs] at hfirst
    exact hhead hfirst
  refine spells_cons hfits rfl hs
    (fun j other hother => ?_) (fun more hmore hprefix j other hother => ?_) hk.spells_end
  · rcases hk.fits_inside hother with ⟨hj, -⟩ | ⟨-, hj⟩
    · exact hj
    · exact (hend [] (by rwa [List.append_nil])).elim
  · rcases hk.fits_inside hother with ⟨-, hmeet⟩ | ⟨-, hj⟩
    · exact not_settled_of_ending hmore hprefix hmeet
    · exact hend more hj

/-- The text of a comment may be empty. -/
private theorem Compiles.spells_inside (hs : Unclosed s) (hhead : s.head? ≠ some star) :
    ∃ kinds ∈ [[commentText, commentStop], [commentStop]], ∀ offset,
      Spells k.flat.lexerSpec offset 1 (s ++ [star, slash]) kinds := by
  obtain ⟨u, n, rfl, hsettled⟩ := exists_settled hs
  have hsplit : u ++ List.replicate n star ++ [star, slash] =
      u ++ (List.replicate (n + 1) star ++ [slash]) := by
    rw [List.append_assoc, List.replicate_succ', List.append_assoc]
    rfl
  rw [hsplit]
  by_cases hu : u = []
  · rw [hu]
    exact ⟨_, List.mem_cons_of_mem _ List.mem_cons_self, fun _ => hk.spells_end⟩
  · rw [List.head?_append_of_ne_nil _ hu] at hhead
    exact ⟨_, List.mem_cons_self, fun _ => hk.spells_text hu hsettled hhead⟩

private theorem Compiles.spells_comment {kinds : List Nat} (hhead : s.head? ≠ some star)
    (hinside : ∀ offset, Spells k.flat.lexerSpec offset 1 (s ++ [star, slash]) kinds) :
    Spells k.flat.lexerSpec offset 0 ([slash, star] ++ (s ++ [star, slash]))
      (commentStart :: kinds) := by
  have hfits : k.flat.lexerSpec.Fits 0 [slash, star] _ _ :=
    hk.fits_token (n := 6) rfl (by decide) rfl
  refine spells_cons hfits rfl (List.cons_ne_nil _ _) (fun j other hother => ?_)
    (fun more hmore hprefix j other hother => ?_) (hinside _)
  · rcases hk.fits_opening hother with ⟨hj, -⟩ | ⟨-, u, n, -, hu⟩
    · exact hj
    · contradiction
  · rcases hk.fits_opening hother with ⟨-, hnil⟩ | ⟨-, u, n, -, hu⟩
    · exact hmore hnil
    · -- Only stars at the beginning of the text could make it a comment for the specification.
      obtain ⟨tail, htail⟩ := hprefix
      have hu : more = star :: (u ++ (List.replicate (n + 1) star ++ [slash])) := hu
      rw [hu] at htail
      cases s with
      | nil =>
        have hlength := congrArg List.length htail
        simp at hlength
        omega
      | cons b s => exact hhead (congrArg List.head? htail).symm

private theorem Compiles.spells_natspec (hs : Unclosed (star :: s)) :
    Spells k.flat.lexerSpec offset 0
      ([slash, star] ++ (star :: s ++ [star, slash])) [natspecBlock] := by
  obtain ⟨u, n, rfl, hsettled⟩ := exists_settled (unclosed_cons.1 hs).2
  have hsplit : [slash, star] ++ (star :: (u ++ List.replicate n star) ++ [star, slash]) =
      slash :: star :: star :: (u ++ (List.replicate (n + 1) star ++ [slash])) := by
    simp [List.replicate_succ']
  have hfits : k.flat.lexerSpec.Fits 0 _ _ _ :=
    hk.fits_token (n := 4) rfl (by decide) (mem_natspecBlock.2 ⟨u, n, hsettled, rfl⟩)
  rw [hsplit, ← List.append_nil (slash :: _)]
  refine spells_cons hfits rfl (List.cons_ne_nil _ _) (fun j other hother => ?_)
    (fun more hmore hprefix => absurd (List.prefix_nil.1 hprefix) hmore) spells_nil
  · rcases hk.fits_opening hother with ⟨-, hnil⟩ | ⟨hj, -⟩
    · contradiction
    · exact hj

/-- A block comment is read as one token for the specification, or as its beginning, its text and
its end. -/
theorem Compiles.spells (hs : Unclosed s) : ∃ kinds,
    Spells k.flat.lexerSpec 0 0 ([slash, star] ++ (s ++ [star, slash])) kinds ∧
      if s.head? = some star then kinds = [natspecBlock]
      else kinds = [commentStart, commentText, commentStop] ∨
        kinds = [commentStart, commentStop] := by
  split
  · next hhead =>
    obtain ⟨s, rfl⟩ := List.head?_eq_some_iff.1 hhead
    exact ⟨_, hk.spells_natspec hs, rfl⟩
  · next hhead =>
    obtain ⟨kinds, hkinds, hinside⟩ := hk.spells_inside hs hhead
    refine ⟨_, hk.spells_comment hhead hinside, ?_⟩
    simpa using hkinds

end

/-! ## Trees -/

section
open Parse Grammar
variable {k : Compilation} {rows : List (Nat × List Nat)} (hk : Compiles k rows)

section
include hk

theorem Compiles.isVisible_rule {i : Nat} {rule : String × Expr} (h : draft.rules[i]? = some rule) :
    k.language.isVisible ⟨210 + i⟩ = !isHiddenName rule.1 := by
  rw [Language.isVisible, hk.symbol h]
  rfl

theorem Compiles.kindName_rule {i : Nat} {rule : String × Expr} (h : draft.rules[i]? = some rule) :
    k.language.kindName ⟨210 + i⟩ = rule.1 := by
  rw [Language.kindName, hk.symbol h]
  rfl

/-- Symbols that are added for repetitions are hidden. -/
theorem Compiles.isVisible_added {i : Nat} (h : 244 ≤ i) : k.language.isVisible ⟨i⟩ = false := by
  have hsymbol : k.language.symbol? ⟨i⟩ = k.flat.symbols[i]? := rfl
  rw [Language.isVisible, hsymbol]
  cases hi : k.flat.symbols[i]? with
  | none => rfl
  | some info => exact hk.hidden i info h hi

variable {job : Job} (hlanguage : job.language = k.language) (hreuse : job.reuse = none) {x : Nat}
  {xs : List Nat} (hrow : Produces k.flat (x, xs)) {under : List Kind} {leaves : List Leaf}
  {reductions : Nat} {good : List Tree → Prop}
include hlanguage hreuse hrow

/-- A right-hand side is read, and the trees are reduced. -/
theorem Compiles.reads_produced (h : ReadsAll k job under (xs.map Kind.mk) leaves reductions good)
    (hroom : reductions < reductionLimit) :
    Reads k job under ⟨x⟩ leaves (reductions + 1) fun closed =>
      ∃ ts, good ts ∧ Closes k.language ⟨x⟩ ts closed := by
  obtain ⟨q, p, hp, hq, hlhs, hsteps⟩ := hrow
  have hreads := reads_of_production hk.single hlanguage hreuse hp hq (hsteps ▸ h) hroom
  rwa [hlhs] at hreads

/-- What a right-hand side is read as becomes children of a node. -/
theorem Compiles.reads_node (h : ReadsAll k job under (xs.map Kind.mk) leaves reductions good)
    (hroom : reductions < reductionLimit) (hvisible : k.language.isVisible ⟨x⟩ = true)
    (hproper : ∀ ts, good ts → ∀ t, ts.head? = some t → k.language.isTrivia t = false) :
    Reads k job under ⟨x⟩ leaves (reductions + 1) fun closed =>
      ∃ ts node, good ts ∧ closed = [node] ∧ NodeOver ⟨x⟩ ts node := by
  refine (hk.reads_produced hlanguage hreuse hrow h hroom).mono ?_
  rintro closed ⟨ts, hts, hcloses⟩
  obtain ⟨node, hclosed, hnode⟩ := hcloses.node hvisible (hproper ts hts)
  exact ⟨ts, node, hts, hclosed, hnode⟩

/-- Hidden symbols leave no node behind. -/
theorem Compiles.reads_hidden (h : ReadsAll k job under (xs.map Kind.mk) leaves reductions good)
    (hroom : reductions < reductionLimit) (hhidden : k.language.isVisible ⟨x⟩ = false) :
    Reads k job under ⟨x⟩ leaves (reductions + 1) good := by
  refine (hk.reads_produced hlanguage hreuse hrow h hroom).mono ?_
  rintro closed ⟨ts, hts, hcloses⟩
  rwa [(closes_iff_of_hidden hhidden).1 hcloses]

end

section
variable {job : Job} (hlanguage : job.language = k.language) (hreuse : job.reuse = none)
  {under : List Kind} {leaves : List Leaf} {reductions x : Nat}

/-- The tokens are the children of one node. -/
def Gathered (x : Nat) (leaves : List Leaf) (ts : List Tree) : Prop :=
  ∃ node, ts = [node] ∧ NodeOver ⟨x⟩ (leaves.map .leaf) node

variable (hc : Compiles k commentRows)
include hc hlanguage hreuse

/-- Tokens that are no blanks are read, whatever they are. -/
theorem Compiles.readsAll_leaves {kinds : List Nat}
    (hkinds : leaves.map (·.kind) = kinds.map Kind.mk) (hrange : ∀ x ∈ kinds, x < 209)
    (hne : kinds ≠ []) :
    ReadsAll k job under (kinds.map Kind.mk) leaves 0 (· = leaves.map .leaf) ∧
      ∀ t ∈ leaves.map Tree.leaf, k.language.isTrivia t = false := by
  have hleaves : ∀ leaf ∈ leaves, k.language.isExtra leaf.kind = false ∧
      k.flat.isTerminal leaf.kind = true := by
    intro leaf hleaf
    have hmem := List.mem_map_of_mem (f := (·.kind)) hleaf
    rw [hkinds] at hmem
    obtain ⟨x, hx, hkind⟩ := List.mem_map.1 hmem
    have hlt := hrange x hx
    rw [← hkind]
    refine ⟨Bool.eq_false_iff.2 fun hextra => ?_, ?_⟩
    · have heq := congrArg Kind.id ((hc.isExtra_iff _).1 hextra)
      change x = 209 at heq
      omega
    · rw [Flat.isTerminal, hc.terminalCount, decide_eq_true_eq]
      exact Nat.lt_succ_of_lt hlt
  have hleavesne : leaves ≠ [] := by
    rintro rfl
    exact hne (List.map_eq_nil_iff.1 hkinds.symm)
  rw [← hkinds]
  refine ⟨Parse.readsAll_leaves hc.single hlanguage hreuse hleavesne hleaves, fun t ht => ?_⟩
  obtain ⟨leaf, hleaf, rfl⟩ := List.mem_map.1 ht
  exact (hleaves leaf hleaf).1

private theorem Compiles.reads_natspec (hkinds : leaves.map (·.kind) = [natspecBlock].map Kind.mk) :
    Reads k job under ⟨natspec⟩ leaves 1 (Gathered natspec leaves) := by
  obtain ⟨hreads, hproper⟩ := hc.readsAll_leaves hlanguage hreuse hkinds (by decide) (by decide)
  have hrow : (natspec, [natspecBlock]) ∈ commentRows := by decide
  have hvisible := (hc.isVisible_rule (i := 2) rfl).trans (congrArg not not_hidden.2.1)
  have hnode := hc.reads_node hlanguage hreuse (hc.rows _ hrow) hreads (by decide) hvisible
    (by rintro ts rfl t ht; exact hproper t (List.mem_of_head? ht))
  refine hnode.mono ?_
  rintro closed ⟨ts, node, rfl, rfl, hnode⟩
  exact ⟨node, rfl, hnode⟩

private theorem Compiles.reads_comment {kinds : List Nat}
    (hkinds : leaves.map (·.kind) = kinds.map Kind.mk)
    (hcases : kinds = [commentStart, commentText, commentStop] ∨
      kinds = [commentStart, commentStop]) :
    Reads k job under ⟨comment⟩ leaves 2 (Gathered comment leaves) := by
  have hblock : (commentBlock, kinds) ∈ commentRows ∧ (∀ x ∈ kinds, x < 209) ∧ kinds ≠ [] := by
    rcases hcases with rfl | rfl <;> decide
  have hcomment : (comment, [commentBlock]) ∈ commentRows := by decide
  have hhidden := (hc.isVisible_rule (i := 4) rfl).trans (congrArg not not_hidden.2.2.2.2)
  have hvisible := (hc.isVisible_rule (i := 3) rfl).trans (congrArg not not_hidden.2.2.1)
  obtain ⟨htokens, hproper⟩ := hc.readsAll_leaves hlanguage hreuse hkinds hblock.2.1 hblock.2.2
  have hreads := hc.reads_hidden hlanguage hreuse (hc.rows _ hblock.1) htokens (by decide) hhidden
  have hnode :=
    hc.reads_node hlanguage hreuse (hc.rows _ hcomment) (.single hreads) (by decide) hvisible
    (by rintro ts rfl t ht; exact hproper t (List.mem_of_head? ht))
  refine hnode.mono ?_
  rintro closed ⟨ts, node, rfl, rfl, hnode⟩
  exact ⟨node, rfl, hnode⟩

/-- One definition makes a whole source. -/
theorem Compiles.reads_source {good : Tree → Prop} (hrow : Produces k.flat (definition, [x]))
    (h : Reads k job under ⟨x⟩ leaves reductions fun ts => ∃ node, ts = [node] ∧ good node)
    (hnode : ∀ node, good node → node.isNode = true) (hroom : reductions + 2 < reductionLimit) :
    Reads k job under ⟨sourceFile⟩ leaves (reductions + 3) fun ts =>
      ∃ node root, ts = [root] ∧ good node ∧
      NodeOver ⟨sourceFile⟩ [node] root := by
  have hrepeat : (definitionRepeat, [definition]) ∈ commentRows := by decide
  have hsource : (sourceFile, [definitionRepeat]) ∈ commentRows := by decide
  have hhidden := (hc.isVisible_rule (i := 1) rfl).trans (congrArg not not_hidden.2.2.2.1)
  have hvisible := (hc.isVisible_rule (i := 0) rfl).trans (congrArg not not_hidden.1)
  have hone := hc.reads_hidden hlanguage hreuse hrow (.single h) (by omega) hhidden
  have hmore := hc.reads_hidden hlanguage hreuse (hc.rows _ hrepeat) (.single hone) (by omega)
    (hc.isVisible_added (by decide))
  have hroot :=
    hc.reads_node hlanguage hreuse (hc.rows _ hsource) (.single hmore) (by omega) hvisible (by
    rintro _ ⟨node, rfl, hgood⟩ t ⟨⟩
    exact isTrivia_of_isNode (hnode node hgood))
  refine hroot.mono ?_
  rintro closed ⟨ts, root, ⟨node, rfl, hgood⟩, rfl, hroot⟩
  exact ⟨node, root, rfl, hgood, hroot⟩

/-- The tree of tokens that make up one definition. -/
theorem Compiles.root_of_definition {good : Tree → Prop} (hrow : Produces k.flat (definition, [x]))
    (h : Reads k job [] ⟨x⟩ job.leaves reductions fun ts => ∃ node, ts = [node] ∧ good node)
    (hnode : ∀ node, good node → node.isNode = true) (hroom : reductions + 2 < reductionLimit) :
    ∃ node, good node ∧ NodeOver ⟨sourceFile⟩ [node] (job.run {}).root := by
  have hsource := hc.reads_source hlanguage hreuse hrow h hnode hroom
  rw [← hc.start] at hsource
  obtain ⟨e, ⟨node, root, htrees, hgood, hroot⟩, hrun⟩ :=
    root_of_reads hc.single hlanguage hreuse hsource rfl
  rw [hrun, ← hc.start]
  exact ⟨node, hgood, hroot.root htrees⟩

end

end

/-- The node for a block comment with a text inside. -/
def definitionOf (s : List UInt8) : Nat := if s.head? = some star then natspec else comment

private theorem Compiles.root_of_comment {k : Compilation} (hc : Compiles k commentRows)
    {job : Parse.Job} (hlanguage : job.language = k.language) (hreuse : job.reuse = none)
    {s : List UInt8} {kinds : List Nat} (hkinds : job.leaves.map (·.kind) = kinds.map Kind.mk)
    (hcases : if s.head? = some star then kinds = [natspecBlock]
      else kinds = [commentStart, commentText, commentStop] ∨
        kinds = [commentStart, commentStop]) :
    ∃ node, Parse.NodeOver ⟨definitionOf s⟩ (job.leaves.map .leaf) node ∧
      Parse.NodeOver ⟨sourceFile⟩ [node] (job.run {}).root := by
  unfold definitionOf
  split at hcases
  · next hhead =>
    rw [hcases] at hkinds
    rw [if_pos hhead]
    exact hc.root_of_definition hlanguage hreuse (hc.rows _ (by decide))
      (hc.reads_natspec hlanguage hreuse hkinds) (fun _ hnode => hnode.isNode) (by decide)
  · next hhead =>
    rw [if_neg hhead]
    exact hc.root_of_definition hlanguage hreuse (hc.rows _ (by decide))
      (hc.reads_comment hlanguage hreuse hkinds hcases) (fun _ hnode => hnode.isNode) (by decide)

/-- A node that is all below the root is as long as the text. -/
private theorem length_of_only {t : SyntaxTree} (h : t.Faithful) {node : Tree}
    (hchildren : t.root.children = [node]) (hnode : node.isNode = true) :
    node.length = t.source.size := by
  have hfrontier : node.frontier = t.root.frontier := by
    cases hroot : t.root with
    | leaf leaf =>
      rw [hroot] at hchildren
      contradiction
    | node info children =>
      rw [hroot] at hchildren
      have hchildren : children = [node] := hchildren
      rw [Tree.frontier, hchildren, Tree.forestFrontier, Tree.forestFrontier, List.append_nil]
  have hconsistent : node.Consistent :=
    h.consistent.children node (by rw [hchildren]; exact List.mem_cons_self)
  rw [hconsistent.length_eq hnode, hfrontier, h.spells, Text.clamp_of_le h.size]

/-- The bytes of a block comment. -/
private theorem toList_blockComment (s : Text.Bytes) :
    (Text.ofString "/*" ++ s ++ Text.ofString "*/").toList =
      [slash, star] ++ (s.toList ++ [star, slash]) := by
  rw [Array.toList_append, Array.toList_append, List.append_assoc]
  rfl

/-- The tokens that the parser has of a text. -/
private theorem leaves_of_spells (k : Compilation) {source : Text.Bytes}
    (hsize : source.size ≤ Text.maxSize) {kinds : List Nat}
    (h : Spells k.flat.lexerSpec 0 0 source.toList kinds) :
    let job := ({ language := k.language } : Parser).job source none []
    job.leaves.map (·.kind) = kinds.map Kind.mk ∧ ∀ leaf ∈ job.leaves, leaf.isError = false := by
  intro job
  obtain ⟨ts, htokens, hkinds, hclean⟩ := h
  rw [tokenizes_iff_tokenize k.lexed hsize] at htokens
  have hleaves : job.leaves = (k.lexer.tokenize source).toList.map Leaf.ofToken :=
    Parser.leaves_tokens k rfl hsize fun t ht => absurd ht (by simp [Parser.usable])
  rw [hleaves]
  refine ⟨?_, fun leaf hleaf => ?_⟩
  · rw [← hkinds, htokens, List.map_map, List.map_map]
    rfl
  · obtain ⟨token, htoken, rfl⟩ := List.mem_map.1 hleaf
    refine hclean token.lexeme ?_
    rw [htokens]
    exact List.mem_map_of_mem htoken

/-- Every block comment is one definition: the parser makes no error, and all of the text is one
comment, or it is one comment for the specification if it begins with two stars. -/
theorem parse_blockComment (mode : Table.Mode) :
    ∃ c, compile mode = .ok c ∧ ∀ s : Text.Bytes, s.size < 2 ^ 32 - 4 →
      ¬ (Text.ofString "*/").toList <:+: s.toList →
      let source := Text.ofString "/*" ++ s ++ Text.ofString "*/"
      let t := ({ language := c.language } : Parser).parse source
      t.hasErrors = false ∧ c.language.kindName t.root.kind = "source_file" ∧
      ∃ node, t.root.children = [node] ∧ node.isNode = true ∧ node.length = source.size ∧
        c.language.kindName node.kind = if s[0]? = some star then "natspec" else "comment" := by
  obtain ⟨k, -, hc, hcompile⟩ := exists_compiles mode
  refine ⟨_, hcompile, fun s hsize hs => ?_⟩
  intro source t
  have hbytes : source.toList = [slash, star] ++ (s.toList ++ [star, slash]) :=
    toList_blockComment s
  have hmax : source.size ≤ Text.maxSize := by
    have hlength := congrArg List.length hbytes
    simp only [Array.length_toList, List.length_append, List.length_cons,
      List.length_nil] at hlength
    unfold Text.maxSize
    omega
  obtain ⟨kinds, hspells, hcases⟩ := hc.spells hs
  obtain ⟨hkinds, hclean⟩ := leaves_of_spells k hmax (hbytes ▸ hspells)
  obtain ⟨node, hnode, hroot⟩ :=
    hc.root_of_comment rfl (by rw [Parser.job_without_reuse (.inr rfl)]) hkinds hcases
  have hroot : Parse.NodeOver ⟨sourceFile⟩ [node] t.root := hroot
  have hfaithful : t.Faithful := Parser.faithful_parse k rfl hmax fun t ht =>
    absurd ht (by simp [Parser.usable])
  refine ⟨?_, ?_, node, hroot.children, hnode.isNode, ?_, ?_⟩
  · rw [SyntaxTree.hasErrors, hroot.hasError, List.any_cons, List.any_nil, Bool.or_false,
      hnode.hasError, List.any_map, List.any_eq_false]
    intro leaf hleaf
    exact Bool.eq_false_iff.1 (hclean leaf hleaf)
  · rw [hroot.kind]
    exact hc.kindName_rule (i := 0) rfl
  · exact length_of_only hfaithful hroot.children hnode.isNode
  · rw [hnode.kind, definitionOf, List.head?_eq_getElem?, Array.getElem?_toList]
    split
    · exact hc.kindName_rule (i := 2) rfl
    · exact hc.kindName_rule (i := 3) rfl

/-- A comment that ends in stars. -/
theorem parse_blockComment_stars :
    ∃ c, compile .lalr = .ok c ∧ (Text.ofString "a**").size < 2 ^ 32 - 4 ∧
    ¬ (Text.ofString "*/").toList <:+: (Text.ofString "a**").toList ∧
      let source := Text.ofString "/*" ++ Text.ofString "a**" ++ Text.ofString "*/"
      let t := ({ language := c.language } : Parser).parse source
      t.hasErrors = false ∧ c.language.kindName t.root.kind = "source_file" ∧
      ∃ node, t.root.children = [node] ∧
        node.isNode = true ∧ node.length = source.size ∧
        c.language.kindName node.kind = "comment" := by
  obtain ⟨c, hcompile, hparse⟩ := parse_blockComment .lalr
  have hsize : (Text.ofString "a**").size < 2 ^ 32 - 4 := by decide
  have hopen : ¬ (Text.ofString "*/").toList <:+: (Text.ofString "a**").toList := by decide
  exact ⟨c, hcompile, hsize, hopen, hparse _ hsize hopen⟩

end Reparse.Huff

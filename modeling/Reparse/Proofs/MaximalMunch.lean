import Reparse.Proofs.Flattening
import Reparse.Proofs.Lexing
import Reparse.Proofs.Parsing
import Reparse.Proofs.Subsets

/-! # Lexers take the longest match -/
namespace Reparse.Lexer
open Text

/-! ## Matches of one automaton -/

namespace Dfa

variable {dfa : Dfa} {rules : List (Pattern × Nat)} {rank : Nat → Int × Nat} {input : Bytes}
  {start state i k : Nat} {best : Option (Nat × Nat)} {rest : List UInt8}

/-- Some rule with this number matches the text. -/
def Matches (rules : List (Pattern × Nat)) (w : List UInt8) (r : Nat) : Prop :=
  ∃ p, (p, r) ∈ rules ∧ w ∈ p.language

/-- The longest match among the nonempty beginnings of a text, up to some length. -/
def LongestUpTo (rules : List (Pattern × Nat)) (rank : Nat → Int × Nat) (rest : List UInt8)
    (k : Nat) :
    Option (Nat × Nat) → Prop
  | some (n, r) => 0 < n ∧ n ≤ k ∧ Least rank (Matches rules (rest.take n)) (some r) ∧
    ∀ m, n < m → m ≤ k → ∀ r', ¬ Matches rules (rest.take m) r'
  | none => ∀ m, 0 < m → m ≤ k → ∀ r', ¬ Matches rules (rest.take m) r'

private theorem LongestUpTo.succ (h : LongestUpTo rules rank rest k best) {found : Option Nat}
    (hfound : Least rank (Matches rules (rest.take (k + 1))) found) :
    LongestUpTo rules rank rest (k + 1) ((found.map (k + 1, ·)).or best) := by
  cases found with
  | some r => exact ⟨Nat.succ_pos k, Nat.le_refl _, hfound, fun m hm hle => absurd hle (by omega)⟩
  | none =>
    have hlast {m : Nat} (hm : m ≤ k + 1) (hrest : m ≤ k → ∀ r', ¬ Matches rules (rest.take m) r') :
        ∀ r', ¬ Matches rules (rest.take m) r' := by
      rcases Nat.lt_or_eq_of_le hm with hlt | rfl
      · exact hrest (Nat.le_of_lt_succ hlt)
      · exact hfound
    match best, h with
    | some (n, r), ⟨hpos, hle, hleast, hlonger⟩ =>
      exact ⟨hpos, Nat.le_succ_of_le hle, hleast, fun m hm hmk => hlast hmk (hlonger m hm)⟩
    | none, hnone => exact fun m hm hmk => hlast hmk (hnone m hm)

/-- Nothing that goes on after a dead end matches. -/
private theorem LongestUpTo.of_dead (h : LongestUpTo rules rank rest k best) {n : Nat}
    (hdead : ∀ m, k < m → m ≤ n → ∀ r', ¬ Matches rules (rest.take m) r') (hle : k ≤ n) :
    LongestUpTo rules rank rest n best := by
  match best, h with
  | some (n', r), ⟨hpos, hn', hleast, hlonger⟩ =>
    refine ⟨hpos, Nat.le_trans hn' hle, hleast, fun m hm hmn => ?_⟩
    by_cases hmk : m ≤ k
    · exact hlonger m hm hmk
    · exact hdead m (Nat.lt_of_not_le hmk) hmn
  | none, hnone =>
    intro m hm hmn
    by_cases hmk : m ≤ k
    · exact hnone m hm hmk
    · exact hdead m (Nat.lt_of_not_le hmk) hmn

private theorem take_succ_drop (h : i < input.size) (hi : start ≤ i) :
    (input.toList.drop start).take (i + 1 - start) =
      (input.toList.drop start).take (i - start) ++ [input[i]] := by
  have hget : (input.toList.drop start)[i - start]? = some input[i] := by
    rw [List.getElem?_drop, Nat.add_sub_cancel' hi, Array.getElem?_toList,
      Array.getElem?_eq_getElem h]
  rw [Nat.succ_sub hi, List.take_add_one, hget]
  rfl

private theorem longestUpTo_matchFrom (hd : dfa.Decides rules rank) (hi : start ≤ i)
    (hsize : i ≤ input.size)
    (hrun : dfa.run ((input.toList.drop start).take (i - start)) = some state)
    (hbest : LongestUpTo rules rank (input.toList.drop start) (i - start) best) :
    LongestUpTo rules rank (input.toList.drop start)
      (input.size - start) (dfa.matchFrom input start state best i).best := by
  fun_induction matchFrom dfa input start state best i with
  | case1 state best i h hstep =>
    have hnone : dfa.run ((input.toList.drop start).take (i + 1 - start)) = none := by
      rw [take_succ_drop h hi, run_append_singleton, hrun]
      exact hstep
    refine hbest.of_dead (fun m hm hmn r' hmatch => ?_) (by omega)
    obtain ⟨p, hp, hmem⟩ := hmatch
    have hsplit : (input.toList.drop start).take m =
        (input.toList.drop start).take (i + 1 - start) ++
          ((input.toList.drop start).drop (i + 1 - start)).take (m - (i + 1 - start)) := by
      rw [← List.take_add, Nat.add_sub_cancel' (by omega)]
    rw [hsplit] at hmem
    exact hd.dead _ hnone _ p r' hp hmem
  | case2 state best i h next hnext best' ih =>
    have hrun' : dfa.run ((input.toList.drop start).take (i + 1 - start)) = some next := by
      rw [take_succ_drop h hi, run_append_singleton, hrun]
      exact hnext
    have hsucc : i + 1 - start = i - start + 1 := by omega
    refine ih (by omega) h hrun' ?_
    have hfound := hd.live _ _ hrun'
    have hbest' : best' = ((dfa.accept next).map (i + 1 - start, ·)).or best := by
      simp only [best']
      cases dfa.accept next <;> rfl
    rw [hbest']
    rw [hsucc] at hfound ⊢
    exact hbest.succ hfound
  | case3 state best i h =>
    rw [show input.size - start = i - start by omega]
    exact hbest

/-- The longest match is the longest of all nonempty beginnings that match. -/
theorem longestUpTo_longestMatch (hd : dfa.Decides rules rank) (hstart : start ≤ input.size) :
    LongestUpTo rules rank (input.toList.drop start)
      (input.size - start) (dfa.longestMatch input start).best := by
  refine longestUpTo_matchFrom hd (Nat.le_refl start) hstart ?_ ?_
  · rw [Nat.sub_self]
    rfl
  · intro m hm hle
    omega

private theorem accepts_iff {p : Pattern} (hd : dfa.Decides [(p, 0)] rank) {text : Bytes}
    (htext : 0 < text.size) :
    dfa.accepts text = true ↔ text.toList ∈ p.language := by
  have hnonempty : text.isEmpty = false := by
    rw [Array.isEmpty_eq_false_iff]
    rintro rfl
    exact absurd htext (by decide)
  have hfold : text.foldl (fun state b => state.bind (dfa.step · b)) (some 0) =
      dfa.run text.toList := by
    rw [← Array.foldl_toList]
    rfl
  unfold accepts
  rw [hfold]
  cases hrun : dfa.run text.toList with
  | none =>
    have hdead := hd.dead _ hrun [] p 0 List.mem_cons_self
    rw [List.append_nil] at hdead
    simp [hdead]
  | some state =>
    have hlive := hd.live _ _ hrun
    cases haccept : dfa.accept state with
    | none =>
      rw [haccept] at hlive
      have hnot : text.toList ∉ p.language := fun hmem => hlive 0 ⟨p, List.mem_cons_self, hmem⟩
      simp [hnot, haccept]
    | some r =>
      rw [haccept] at hlive
      obtain ⟨⟨p', hp', hmem⟩, -⟩ := hlive
      obtain ⟨rfl, -⟩ := Prod.mk.inj (List.mem_singleton.1 hp')
      simp [hnonempty, hmem, haccept]

end Dfa

/-! ## What a specification asks for -/

namespace Spec

variable {spec : Spec} {mode n m i : Nat} {text rest : List UInt8} {rule other : Rule}

/-- Rule number `i` of the mode matches the text. -/
structure Fits (spec : Spec) (mode : Nat) (text : List UInt8) (i : Nat) (rule : Rule) : Prop where
  number : spec.rules[i]? = some rule
  mode : rule.mode = mode
  matching : text ∈ rule.pattern.language

/-- A rule takes the longest nonempty beginning that any rule of the mode matches. Of the rules that
match it, it is the first among those with the highest priority. -/
structure Takes (spec : Spec) (mode : Nat) (rest : List UInt8) (n : Nat) (rule : Rule) : Prop where
  nonempty : 0 < n
  inside : n ≤ rest.length
  first : ∃ i, spec.Fits mode (rest.take n) i rule ∧
    ∀ j other, spec.Fits mode (rest.take n) j other → other.priority < rule.priority ∨
    other.priority = rule.priority ∧ i ≤ j
  longest : ∀ m, n < m → m ≤ rest.length → ∀ j other, ¬ spec.Fits mode (rest.take m) j other

/-- No rule of the mode matches a nonempty beginning. -/
def Stuck (spec : Spec) (mode : Nat) (rest : List UInt8) : Prop :=
  ∀ m, 0 < m → m ≤ rest.length → ∀ j other, ¬ spec.Fits mode (rest.take m) j other

/-- The text matches the word pattern, if there is one. -/
def IsWord (spec : Spec) (text : List UInt8) : Prop := ∃ p, spec.word = some p ∧ text ∈ p.language

end Spec

/-- What a token says of the text. -/
structure Lexeme where
  kind : Kind
  range : Range
  mode : Nat
  nextMode : Nat
  flags : Flags
deriving DecidableEq

def Token.lexeme (t : Token) : Lexeme := ⟨t.kind, t.range, t.mode, t.nextMode, t.flags⟩

/-- The tokens that a specification asks for in a text that starts at an offset in a mode. -/
inductive Spec.Tokenizes (spec : Spec) : Nat → Nat → List UInt8 → List Lexeme → Prop
  | done {offset mode : Nat} : Tokenizes spec offset mode [] []
  | token {offset mode n : Nat} {rest : List UInt8} {rule : Rule} {word : Bool}
      {later : List Lexeme} (takes : spec.Takes mode rest n rule)
      (isWord : word = true ↔ spec.IsWord (rest.take n))
      (next : Tokenizes spec (offset + n) (rule.nextMode.getD mode) (rest.drop n) later) :
      Tokenizes spec offset mode rest
        (⟨rule.kind, ⟨offset, offset + n⟩, mode, rule.nextMode.getD mode, { word }⟩ :: later)
  | error {offset mode : Nat} {b : UInt8} {rest : List UInt8} {later : List Lexeme}
      (stuck : spec.Stuck mode (b :: rest)) (next : Tokenizes spec (offset + 1) mode rest later) :
      Tokenizes spec offset mode
        (b :: rest) (⟨.error, ⟨offset, offset + 1⟩, mode, mode, { error := true }⟩ :: later)

namespace Spec

variable {spec : Spec} {mode n m i : Nat} {text rest : List UInt8} {rule other : Rule}

private theorem Takes.unique (h : spec.Takes mode rest n rule) (h' : spec.Takes mode rest m other) :
    n = m ∧ rule = other := by
  obtain ⟨i, hi, hbest⟩ := h.first
  obtain ⟨j, hj, hbest'⟩ := h'.first
  have hlength : n = m := by
    rcases Nat.lt_trichotomy n m with hlt | heq | hlt
    · exact absurd hj (h.longest m hlt h'.inside j other)
    · exact heq
    · exact absurd hi (h'.longest n hlt h.inside i rule)
  subst hlength
  have hle := hbest j other hj
  have hle' := hbest' i rule hi
  have hnumber : i = j := by omega
  subst hnumber
  exact ⟨rfl, Option.some.inj (hi.number.symm.trans hj.number)⟩

private theorem Takes.not_stuck (h : spec.Takes mode rest n rule) : ¬ spec.Stuck mode rest := by
  obtain ⟨i, hi, -⟩ := h.first
  exact fun hstuck => hstuck n h.nonempty h.inside i rule hi

/-- There is one way to read a text. -/
theorem Tokenizes.unique {offset : Nat} {ts us : List Lexeme}
    (h : spec.Tokenizes offset mode rest ts) (h' : spec.Tokenizes offset mode rest us) :
    ts = us := by
  induction h generalizing us with
  | done =>
    cases h' with
    | done => rfl
    | token takes => exact absurd takes.inside (Nat.not_le.2 takes.nonempty)
  | @token offset mode n rest rule word later takes isWord next ih =>
    cases h' with
    | done => exact absurd takes.inside (Nat.not_le.2 takes.nonempty)
    | @token _ _ m _ other word' later' takes' isWord' next' =>
      obtain ⟨rfl, rfl⟩ := takes.unique takes'
      rw [ih next', Bool.eq_iff_iff.2 (isWord.trans isWord'.symm)]
    | error stuck => exact absurd stuck takes.not_stuck
  | error stuck next ih =>
    cases h' with
    | token takes => exact absurd stuck takes.not_stuck
    | error _ next' => rw [ih next']

/-! ## Lexers that are built -/

variable {lexer : Lexer}

/-- What a specification makes of itself if its rules are in order. -/
theorem of_build (h : spec.build = .ok lexer) :
    (∀ rule ∈ spec.rules, spec.checkRule rule = .ok ()) ∧
    lexer = ⟨spec.modes.mapIdx fun i name => ⟨name, spec.modeDfa i⟩, spec.rules.map fun r =>
      ⟨r.kind, r.mode, r.nextMode⟩,
      spec.word.map fun p => .ofRules [(p, 0)] fun r => (0, r)⟩ := by
  obtain ⟨⟨⟩, hcheck, hlexer⟩ := Grammar.bind_eq_ok.1 h
  refine ⟨fun rule hrule => ?_, (Except.ok.inj hlexer).symm⟩
  have hall (rules : List Rule) (h : rules.forM spec.checkRule = .ok ()) : ∀ rule ∈ rules,
      spec.checkRule rule = .ok () := by
    induction rules with
    | nil => exact nofun
    | cons r rest ih =>
      obtain ⟨⟨⟩, hfirst, hrest⟩ := Grammar.bind_eq_ok.1 h
      intro rule hrule
      rcases List.mem_cons.1 hrule with rfl | hrule
      · exact hfirst
      · exact ih hrest rule hrule
  exact hall _ hcheck rule (Array.mem_toList_iff.2 hrule)

private theorem mode_lt_of_checkRule (h : spec.checkRule rule = .ok ()) :
    rule.mode < spec.modes.size := by
  unfold checkRule at h
  split at h
  · contradiction
  · split at h
    · contradiction
    · next hlt => exact Nat.lt_of_not_le hlt

/-- The numbered patterns of a mode. -/
def rulesOf (spec : Spec) (mode : Nat) : List (Pattern × Nat) :=
  (spec.rules.toList.zipIdx.filter (·.1.mode == mode)).map fun (r, i) => (r.pattern, i)

private theorem matches_rulesOf :
    Dfa.Matches (spec.rulesOf mode) text i ↔ ∃ rule, spec.Fits mode text i rule := by
  simp only [Dfa.Matches, rulesOf, List.mem_map, List.mem_filter, Prod.exists,
    List.mk_mem_zipIdx_iff_getElem?, Array.getElem?_toList, beq_iff_eq, Prod.mk.injEq]
  constructor
  · rintro ⟨p, ⟨rule, j, ⟨hrule, hmode⟩, rfl, rfl⟩, hmem⟩
    exact ⟨rule, hrule, hmode, hmem⟩
  · rintro ⟨rule, hrule, hmode, hmem⟩
    exact ⟨rule.pattern, ⟨rule, i, ⟨hrule, hmode⟩, rfl, rfl⟩, hmem⟩

private theorem rank_of_getElem? (h : spec.rules[i]? = some rule) :
    spec.rank i = (-rule.priority, i) := by
  unfold rank
  rw [h]
  rfl

/-- The match of a mode's automaton is what the rules of the mode ask for. -/
theorem takes_of_longest {length : Nat}
    (h : Dfa.LongestUpTo (spec.rulesOf mode) spec.rank rest rest.length (some (length, i))) :
    ∃ rule, spec.rules[i]? = some rule ∧ spec.Takes mode rest length rule := by
  obtain ⟨hpos, hle, ⟨hmatch, hleast⟩, hlonger⟩ := h
  obtain ⟨rule, hrule⟩ := matches_rulesOf.1 hmatch
  refine ⟨rule, hrule.number, hpos, hle, ⟨i, hrule, fun j other hother => ?_⟩,
    fun m hm hmle j other hother => ?_⟩
  · have hnot := hleast j (matches_rulesOf.2 ⟨other, hother⟩)
    rw [rank_of_getElem? hrule.number, rank_of_getElem? hother.number] at hnot
    unfold Dfa.Before at hnot
    omega
  · exact hlonger m hm hmle j (matches_rulesOf.2 ⟨other, hother⟩)

private theorem stuck_of_longest
    (h : Dfa.LongestUpTo (spec.rulesOf mode) spec.rank rest rest.length none) :
    spec.Stuck mode rest :=
  fun m hm hle j other hother => h m hm hle j (matches_rulesOf.2 ⟨other, hother⟩)

end Spec

/-! ## Tokens -/

variable {spec : Spec} {lexer : Lexer} {input : Bytes} {c : Cursor}

/-- What one token has to say. -/
inductive Spec.Reads (spec : Spec) (offset mode : Nat) (rest : List UInt8) : Lexeme → Prop
  | token {n : Nat} {rule : Rule} {word : Bool} (takes : spec.Takes mode rest n rule)
      (isWord : word = true ↔ spec.IsWord (rest.take n)) :
      Reads spec offset mode rest
        ⟨rule.kind, ⟨offset, offset + n⟩, mode, rule.nextMode.getD mode, { word }⟩
  | error (stuck : spec.Stuck mode rest) :
      Reads spec offset mode rest ⟨.error, ⟨offset, offset + 1⟩, mode, mode, { error := true }⟩

private theorem word_iff (hbuild : spec.build = .ok lexer) {start stop : Nat} (hlt : start < stop)
    (hstop : stop ≤ input.size) :
    lexer.word.any (·.accepts (input.extract start stop)) = true ↔
      spec.IsWord ((input.toList.drop start).take (stop - start)) := by
  obtain ⟨-, rfl⟩ := Spec.of_build hbuild
  unfold Spec.IsWord
  have htext : (input.extract start stop).toList =
      (input.toList.drop start).take (stop - start) := by
    rw [Array.toList_extract, List.extract_eq_take_drop]
  have hsize : 0 < (input.extract start stop).size := by
    rw [Array.size_extract]
    omega
  cases hword : spec.word with
  | none => simp
  | some p =>
    simp only [Option.map_some, Option.any_some, Option.some.injEq, exists_eq_left', ← htext]
    exact Dfa.accepts_iff (Dfa.decides_ofRules [(p, 0)] _) hsize

theorem reads_nextToken (hbuild : spec.build = .ok lexer) (hsize : input.size ≤ maxSize) {t : Token}
    (h : lexer.nextToken input c = some t) :
    spec.Reads c.offset c.mode (input.toList.drop c.offset) t.lexeme := by
  obtain ⟨hrules, hlexer⟩ := Spec.of_build hbuild
  have hclamp {byte : UInt8} (here : input[c.offset]? = some byte) : clamp c.offset = c.offset := by
    obtain ⟨hin, -⟩ := Array.getElem?_eq_some_iff.1 here
    exact clamp_of_le (by omega)
  have hlength : (input.toList.drop c.offset).length = input.size - c.offset := by simp
  have hstuck {byte : UInt8} (here : input[c.offset]? = some byte) (examinedEnd : Nat)
      (hstuck : spec.Stuck c.mode (input.toList.drop c.offset)) :
      spec.Reads c.offset c.mode (input.toList.drop c.offset)
      (Unrecognized.atCursor c byte examinedEnd).toToken.lexeme := by
    have herror : spec.Reads c.offset c.mode (input.toList.drop c.offset) _ := .error hstuck
    simpa only [Token.lexeme, Unrecognized.toToken, Unrecognized.range, Unrecognized.atCursor,
      Range.ofLength, hclamp here] using herror
  have hlongest {byte : UInt8} {mode : Mode} (here : input[c.offset]? = some byte)
      (known : lexer.modes[c.mode]? = some mode) : Dfa.LongestUpTo (spec.rulesOf c.mode) spec.rank
      (input.toList.drop c.offset) (input.toList.drop c.offset).length
        (mode.dfa.longestMatch input c.offset).best := by
    rw [hlexer, Array.getElem?_mapIdx] at known
    obtain ⟨name, -, rfl⟩ := Option.map_eq_some_iff.1 known
    obtain ⟨hin, -⟩ := Array.getElem?_eq_some_iff.1 here
    rw [hlength]
    exact Dfa.longestUpTo_longestMatch (Dfa.decides_ofRules (spec.rulesOf c.mode) spec.rank)
      (Nat.le_of_lt hin)
  have hnumbered {i : Nat} {rule : Rule} (hrule : spec.rules[i]? = some rule) :
      lexer.rules[i]? = some ⟨rule.kind, rule.mode, rule.nextMode⟩ := by
    rw [hlexer, Array.getElem?_map, hrule]
    rfl
  cases nextToken_eq_some_iff.1 h with
  | unknownMode here unknown =>
    refine hstuck here _ fun m _ _ j other hother => ?_
    have hlt := Spec.mode_lt_of_checkRule (hrules other (Array.mem_of_getElem? hother.number))
    rw [hother.mode] at hlt
    rw [hlexer, Array.getElem?_mapIdx, Array.getElem?_eq_getElem hlt] at unknown
    contradiction
  | @noMatch byte mode here known unmatched =>
    have hmatch := hlongest here known
    cases hbest : (mode.dfa.longestMatch input c.offset).best with
    | none =>
      rw [hbest] at hmatch
      exact hstuck here _ (Spec.stuck_of_longest hmatch)
    | some found =>
      -- A match is of a rule, which the lexer knows.
      rw [hbest] at hmatch unmatched
      obtain ⟨rule, hrule, -⟩ := Spec.takes_of_longest hmatch
      rw [Option.bind_some, hnumbered hrule] at unmatched
      contradiction
  | @rule byte mode length number outcome here known best numbered =>
    have hmatch := hlongest here known
    rw [best] at hmatch
    obtain ⟨rule, hrule, htakes⟩ := Spec.takes_of_longest hmatch
    obtain rfl : Outcome.mk rule.kind rule.mode rule.nextMode = outcome := by
      rw [hnumbered hrule] at numbered
      exact Option.some.inj numbered
    have hinside := htakes.inside
    rw [hlength] at hinside
    have hpos := htakes.nonempty
    have hstop : clamp (c.offset + length) = c.offset + length := clamp_of_le (by omega)
    have hword := word_iff hbuild (show c.offset < c.offset + length by omega)
      (show c.offset + length ≤ input.size by omega)
    rw [Nat.add_sub_cancel_left] at hword
    have htoken : spec.Reads c.offset c.mode (input.toList.drop c.offset) _ := .token htakes hword
    simpa only [Token.lexeme, token, hclamp here, hstop] using htoken

private theorem Spec.Reads.tokenizes {offset mode : Nat} {rest : List UInt8} {t : Lexeme}
    {later : List Lexeme} (h : spec.Reads offset mode rest t) (hrest : rest ≠ [])
    (htokens : spec.Tokenizes t.range.stop t.nextMode (rest.drop (t.range.stop - offset)) later) :
    spec.Tokenizes offset mode rest (t :: later) := by
  cases h with
  | token takes isWord =>
    rw [Nat.add_sub_cancel_left] at htokens
    exact .token takes isWord htokens
  | error stuck =>
    cases rest with
    | nil => exact absurd rfl hrest
    | cons b rest =>
      rw [Nat.add_sub_cancel_left] at htokens
      exact .error stuck htokens

private theorem tokenizes_tokenizeFrom (hbuild : spec.build = .ok lexer)
    (hsize : input.size ≤ maxSize) (done : Array Token) :
    ∃ later, (lexer.tokenizeFrom input c done).toList = done.toList ++ later ∧
      spec.Tokenizes c.offset c.mode (input.toList.drop c.offset) (later.map Token.lexeme) := by
  fun_induction tokenizeFrom lexer input c done with
  | case1 c done hnone =>
    refine ⟨[], (List.append_nil _).symm, ?_⟩
    have hend : input.size ≤ c.offset := by
      by_contra hlt
      have hsome : (lexer.nextToken input c).isSome := nextToken_isSome (Nat.lt_of_not_le hlt)
      rw [hnone] at hsome
      contradiction
    rw [List.drop_eq_nil_of_le (by simpa using hend)]
    exact .done
  | case2 c done t ht hforward ih =>
    obtain ⟨later, htokens, hlater⟩ := ih
    refine ⟨t :: later, by rw [htokens]; simp, ?_⟩
    have hcovers := covers_of_nextToken hsize ht
    refine (reads_nextToken hbuild hsize ht).tokenizes
      (List.ne_nil_of_length_pos (by simp; omega)) ?_
    rw [List.drop_drop]
    have hstop : c.offset + (t.lexeme.range.stop - c.offset) = t.range.stop :=
      Nat.add_sub_cancel' (Nat.le_of_lt hcovers.forward)
    rw [hstop]
    exact hlater
  | case3 c done t ht hstuck =>
    have hcovers := covers_of_nextToken hsize ht
    exact absurd ⟨hcovers.forward, lt_size_of_nextToken ht⟩ hstuck

/-- The tokens of a text are the ones that the specification of the lexer asks for, and there is no
other way to read the text: each takes the longest match of the rules of its mode. -/
theorem tokenizes_iff_tokenize {spec : Spec} {lexer : Lexer} (hbuild : spec.build = .ok lexer)
    {input : Bytes} (hsize : input.size ≤ maxSize) (ts : List Lexeme) :
    spec.Tokenizes 0 0 input.toList ts ↔ ts = (lexer.tokenize input).toList.map Token.lexeme := by
  obtain ⟨later, htokens, hlater⟩ := tokenizes_tokenizeFrom (c := .start) hbuild hsize #[]
  have heq : (lexer.tokenize input).toList = later := htokens
  rw [heq]
  exact ⟨fun h => h.unique hlater, fun h => h ▸ hlater⟩

/-- A letter and a byte that is not one. -/
theorem tokenizes_iff_tokenize_letter : Letter.flat.lexerSpec.Tokenizes 0 0 [120, 121]
    [⟨⟨2⟩, ⟨0, 1⟩, 0, 0, {}⟩, ⟨.error, ⟨1, 2⟩, 0, 0, { error := true }⟩] :=
  (tokenizes_iff_tokenize Letter.lexed (show (#[120, 121] : Bytes).size ≤ maxSize by decide) _).2
    (by cbv)

end Reparse.Lexer

import Reparse.Lexer.Basic

/-! # Bounds of tokens -/
namespace Reparse.Lexer
open Text

/-- A match that lies in the text and is not empty. -/
def Within (input : Bytes) (start : Nat) (found : Option (Nat × Nat)) : Prop :=
  ∀ length rule, found = some (length, rule) → 0 < length ∧ start + length ≤ input.size

private theorem Dfa.within_matchFrom (dfa : Dfa) {input : Bytes} {start state i : Nat}
    {best : Option (Nat × Nat)} (hi : start ≤ i) (hbest : Within input start best) :
    Within input start (dfa.matchFrom input start state best i).best := by
  fun_induction matchFrom dfa input start state best i with
  | case1 => exact hbest
  | case2 state best i h next hnext best' ih =>
    apply ih (by omega)
    intro length rule hfound
    simp only [best'] at hfound
    split at hfound
    · simp only [Option.some.injEq, Prod.mk.injEq] at hfound
      omega
    · exact hbest length rule hfound
  | case3 => exact hbest

theorem Dfa.within_longestMatch (dfa : Dfa) (input : Bytes) (start : Nat) :
    Within input start (dfa.longestMatch input start).best :=
  dfa.within_matchFrom (Nat.le_refl _) (fun _ _ h => by contradiction)

/-- The kinds that a lexer can give to a token. -/
def Emits (lexer : Lexer) (kind : Kind) : Prop :=
  kind = .error ∨ ∃ rule ∈ lexer.rules, rule.kind = kind

variable {lexer : Lexer} {source : Bytes} {c : Cursor} {t : Token}

/-- How the token at a cursor comes about. -/
inductive Produces (lexer : Lexer) (source : Bytes) (c : Cursor) : Token → Prop
  | unknownMode {byte : UInt8} (here : source[c.offset]? = some byte)
      (unknown : lexer.modes[c.mode]? = none) :
      Produces lexer source c (Unrecognized.atCursor c byte (c.offset + 1)).toToken
  | noMatch {byte : UInt8} {mode : Mode} (here : source[c.offset]? = some byte)
      (known : lexer.modes[c.mode]? = some mode)
      (unmatched : (mode.dfa.longestMatch source c.offset).best.bind
        (fun found => lexer.rules[found.2]?) = none) :
      Produces lexer source c
        (Unrecognized.atCursor c byte (mode.dfa.longestMatch source c.offset).examinedEnd).toToken
  | rule {byte : UInt8} {mode : Mode} {length number : Nat} {rule : Outcome}
      (here : source[c.offset]? = some byte) (known : lexer.modes[c.mode]? = some mode)
      (best : (mode.dfa.longestMatch source c.offset).best = some (length, number))
      (numbered : lexer.rules[number]? = some rule) :
      Produces lexer source c
        (lexer.token source c rule length (mode.dfa.longestMatch source c.offset).examinedEnd)

theorem nextToken_eq_some_iff : lexer.nextToken source c = some t ↔ Produces lexer source c t := by
  constructor
  · intro h
    obtain ⟨result, hnext, rfl⟩ := Option.map_eq_some_iff.1 h
    obtain ⟨byte, hbyte, hnext⟩ := Option.bind_eq_some_iff.1 hnext
    split at hnext
    · next hmode =>
      obtain rfl := Option.some.inj hnext
      exact .unknownMode hbyte hmode
    · next mode hmode =>
      simp only at hnext
      cases hbest : (mode.dfa.longestMatch source c.offset).best with
      | none =>
        rw [hbest] at hnext
        obtain rfl := Option.some.inj hnext
        exact .noMatch hbyte hmode (by rw [hbest]; rfl)
      | some found =>
        obtain ⟨length, number⟩ := found
        rw [hbest] at hnext
        simp only [Option.bind_some] at hnext
        cases hrule : lexer.rules[number]? with
        | none =>
          rw [hrule] at hnext
          obtain rfl := Option.some.inj hnext
          exact .noMatch hbyte hmode (by rw [hbest]; exact hrule)
        | some rule =>
          rw [hrule] at hnext
          obtain rfl := Option.some.inj hnext
          exact .rule hbyte hmode hbest hrule
  · rintro (⟨hbyte, hmode⟩ | ⟨hbyte, hmode, hnone⟩ | ⟨hbyte, hmode, hbest, hrule⟩)
    · simp [nextToken, next, hbyte, hmode]
    · simp only [nextToken, next, hbyte, hmode, Option.bind_eq_bind, Option.bind_some]
      cases hbest : (Dfa.longestMatch _ source c.offset).best with
      | none => rfl
      | some found =>
        rw [hbest] at hnone
        simp only [Option.bind_some] at hnone ⊢
        rw [hnone]
        rfl
    · simp [nextToken, next, hbyte, hmode, hbest, hrule]

/-- A token covers some bytes from the cursor on. -/
structure Covers (lexer : Lexer) (source : Bytes) (c : Cursor) (t : Token) : Prop where
  start : t.range.start = c.offset
  forward : c.offset < t.range.stop
  inside : t.range.stop ≤ source.size
  emits : lexer.Emits t.kind

private theorem covers_token {rule : Outcome} {length examinedEnd : Nat}
    (hsize : source.size ≤ maxSize) (hpos : 0 < length) (hstop : c.offset + length ≤ source.size)
    (hrule : rule ∈ lexer.rules) :
    Covers lexer source c (lexer.token source c rule length examinedEnd) where
  start := clamp_of_le (by omega)
  forward := by
    simp only [token, clamp_of_le (show c.offset + length ≤ maxSize by omega)]
    omega
  inside := by
    simpa only [token, clamp_of_le (show c.offset + length ≤ maxSize by omega)] using hstop
  emits := .inr ⟨rule, hrule, rfl⟩

private theorem covers_unrecognized {byte : UInt8} {examinedEnd : Nat}
    (hsize : source.size ≤ maxSize) (hin : c.offset < source.size) :
    Covers lexer source c (Unrecognized.atCursor c byte examinedEnd).toToken := by
  have hclamp : clamp c.offset = c.offset := clamp_of_le (by omega)
  refine ⟨hclamp, ?_, ?_, .inl rfl⟩
  · simp only [Unrecognized.toToken, Unrecognized.range, Unrecognized.atCursor,
      Range.ofLength, hclamp]
    omega
  · simp only [Unrecognized.toToken, Unrecognized.range, Unrecognized.atCursor,
      Range.ofLength, hclamp]
    omega

theorem covers_of_nextToken (hsize : source.size ≤ maxSize)
    (h : lexer.nextToken source c = some t) :
    Covers lexer source c t := by
  cases nextToken_eq_some_iff.1 h with
  | unknownMode here => exact covers_unrecognized hsize (Array.getElem?_eq_some_iff.1 here).1
  | noMatch here => exact covers_unrecognized hsize (Array.getElem?_eq_some_iff.1 here).1
  | @rule _ mode _ _ _ _ _ best numbered =>
    obtain ⟨hpos, hstop⟩ := mode.dfa.within_longestMatch source c.offset _ _ best
    exact covers_token hsize hpos hstop (Array.mem_of_getElem? numbered)

/-- Only unrecognized bytes make error tokens. -/
theorem emits_of_nextToken (h : lexer.nextToken source c = some t) :
    lexer.Emits t.kind ∧ (t.flags.error = true → t.kind = .error) := by
  cases nextToken_eq_some_iff.1 h with
  | unknownMode => exact ⟨.inl rfl, fun _ => rfl⟩
  | noMatch => exact ⟨.inl rfl, fun _ => rfl⟩
  | rule _ _ _ numbered => exact ⟨.inr ⟨_, Array.mem_of_getElem? numbered, rfl⟩, nofun⟩

theorem lt_size_of_nextToken (h : lexer.nextToken source c = some t) : c.offset < source.size := by
  obtain ⟨result, hnext, -⟩ := Option.map_eq_some_iff.1 h
  obtain ⟨byte, hbyte, -⟩ := Option.bind_eq_some_iff.1 hnext
  exact (Array.getElem?_eq_some_iff.1 hbyte).1

/-- Inside the text there is always a token. -/
theorem nextToken_isSome (h : c.offset < source.size) : (lexer.nextToken source c).isSome := by
  unfold nextToken next
  rw [Array.getElem?_eq_getElem h]
  simp only [Option.bind_eq_bind, Option.bind_some, Option.isSome_map]
  split
  · rfl
  · split <;> rfl

/-! ## Exploration of subsets -/

namespace Dfa

variable {nfa : Nfa} {rank : Nat → Int × Nat} {fuel : Nat} {d next : Discovery}
  {states : Array DfaState}

theorem Discovery.number_of_none {s : Data.Found} (h : d.index[s.set]? = none) :
    d.number s = (d.found.size, ⟨d.found.push s, d.index.insert s.set d.found.size⟩) := by
  unfold number
  rw [h]

theorem row_of_no_moves {s : Data.Found}
    (h : (s.members.flatMap fun i => (nfa[i]?.map (·.moves)).getD []) = []) (d : Discovery) :
    row nfa d s = (#[], d) := by
  unfold row
  rw [h]
  rfl

theorem explore_of_some {s : Data.Found} {transitions : Array Transition}
    (h : d.found[states.size]? = some s) (hrow : row nfa d s = (transitions, next)) :
    explore nfa rank (fuel + 1) d states =
      explore nfa rank fuel next (states.push ⟨transitions, winner nfa rank s⟩) := by
  rw [explore, h]
  simp only [hrow]

theorem explore_of_none (h : d.found[states.size]? = none) :
    explore nfa rank fuel d states = states := by
  cases fuel with
  | zero => rfl
  | succ fuel => rw [explore, h]

/-- The automaton for one range of bytes. -/
theorem ofRules_range {pattern : Pattern} {lo hi : UInt8} (hnfa : Nfa.ofRules [(pattern, 0)] =
      #[{ silent := [1] }, { moves := [(lo, hi, 2)] }, { accept := some 0 }])
    (hbounds : boundaries [(lo, hi, 2)] = [lo.toNat, hi.toNat + 1]) (rank : Nat → Int × Nat) :
    ofRules [(pattern, 0)] rank = ⟨#[⟨#[⟨lo, hi, 1⟩], none⟩, ⟨#[], some 0⟩]⟩ := by
  let nfa : Nfa := #[{ silent := [1] }, { moves := [(lo, hi, 2)] }, { accept := some 0 }]
  have hstart : nfa.closure [0] = ⟨⟨3⟩, [1, 0]⟩ := by cbv
  have hnext : nfa.closure [2] = ⟨⟨4⟩, [2]⟩ := by cbv
  have hrow : row nfa (.start ⟨⟨3⟩, [1, 0]⟩) ⟨⟨3⟩, [1, 0]⟩ =
      (#[⟨lo, hi, 1⟩],
      ⟨#[⟨⟨3⟩, [1, 0]⟩, ⟨⟨4⟩, [2]⟩], (({} : Std.HashMap _ Nat).insert ⟨3⟩ 0).insert ⟨4⟩ 1⟩) := by
    have hmoves : ([1, 0].flatMap fun i => (nfa[i]?.map (·.moves)).getD []) = [(lo, hi, 2)] := rfl
    have htargets : ([(lo, hi, 2)].filter fun m : UInt8 × UInt8 × Nat =>
        m.1.toNat ≤ lo.toNat ∧ hi.toNat + 1 ≤ m.2.1.toNat + 1).map (·.2.2) = [2] := by simp
    have hnumber := Discovery.number_of_none (d := .start ⟨⟨3⟩, [1, 0]⟩) (s := ⟨⟨4⟩, [2]⟩)
      (by simp [Discovery.start])
    unfold row
    simp only [hmoves, hbounds, List.tail_cons, List.zip_cons_cons, List.zip_nil_right,
      List.foldl_cons, List.foldl_nil, htargets, hnext, hnumber, Nat.add_sub_cancel, Nat.toUInt8,
      UInt8.ofNat_toNat]
    rfl
  unfold ofRules
  simp only [hnfa]
  rw [show nfa.closure [0] = _ from hstart, show (1 <<< nfa.size) + 1 = 7 + 2 from rfl,
    explore_of_some rfl hrow, explore_of_some rfl (row_of_no_moves rfl _), explore_of_none rfl]
  rfl

end Dfa
/-- A lexer in the default mode only has one automaton, for all of its rules. -/
theorem Spec.build_of_defaultMode {spec : Spec} {rules : List (Pattern × Nat)} {dfa : Dfa}
    {outcomes : Array Outcome} {word : Option Dfa} (hmodes : spec.modes = #[defaultMode])
    (hcheck : spec.rules.toList.forM spec.checkRule = .ok ())
    (hrules : (spec.rules.toList.zipIdx.filter (·.1.mode == 0)).map
      (fun p => (p.1.pattern, p.2)) = rules)
    (hdfa : Dfa.ofRules rules spec.rank = dfa)
    (houtcomes : (spec.rules.map fun r => ⟨r.kind, r.mode, r.nextMode⟩) = outcomes)
    (hword : (spec.word.map fun p => .ofRules [(p, 0)] fun r => (0, r)) = word) :
    spec.build = .ok ⟨#[⟨defaultMode, dfa⟩], outcomes, word⟩ := by
  have hmode : spec.modeDfa 0 = dfa := by
    unfold Spec.modeDfa
    rw [hrules, hdfa]
  unfold Spec.build
  rw [hcheck, hmodes, houtcomes, hword]
  change Except.ok _ = _
  simp [hmode]

end Reparse.Lexer

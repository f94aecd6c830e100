import Reparse.Proofs.Resumption

/-! # Texts that are parsed again after edits -/
namespace Reparse
open Grammar Text Parse Reparse.Tree

/-! ## Runs without subtrees to take over -/

namespace Parse.Job

variable {l : Language} {config : Config} {s s' : Array StreamToken}

theorem leaf?_congr (h : s.map (·.leaf) = s'.map (·.leaf)) (position : Nat) :
    leaf? ⟨l, config, s, none⟩ position = leaf? ⟨l, config, s', none⟩ position := by
  simp only [leaf?, ← Array.getElem?_map, h]

private theorem collectExtras_of_leaf {job : Job} {m : Machine} {leaf : Leaf}
    (h : job.leaf? m.position = some leaf) :
    job.collectExtras m = if job.language.isExtra leaf.kind then
      job.collectExtras { m with pending := m.pending.push leaf, position := m.position + 1 }
        else m := by
  obtain ⟨token, htoken, rfl⟩ := Option.map_eq_some_iff.1 h
  obtain ⟨hlt, rfl⟩ := Array.getElem?_eq_some_iff.1 htoken
  conv_lhs => rw [collectExtras, dif_pos hlt]

theorem collectExtras_congr (h : s.map (·.leaf) = s'.map (·.leaf)) (m : Machine) :
    collectExtras ⟨l, config, s, none⟩ m = collectExtras ⟨l, config, s', none⟩ m := by
  generalize hjob : (⟨l, config, s, none⟩ : Job) = job
  fun_induction collectExtras job m with
  | case1 m hlt leaf hextra ih =>
    subst hjob
    have hleaf : leaf? ⟨l, config, s', none⟩ m.position = some leaf := by
      rw [← leaf?_congr h]
      simp [leaf?, hlt, leaf]
    rw [ih, collectExtras_of_leaf hleaf, if_pos hextra]
  | case2 m hlt leaf hextra =>
    subst hjob
    have hleaf : leaf? ⟨l, config, s', none⟩ m.position = some leaf := by
      rw [← leaf?_congr h]
      simp [leaf?, hlt, leaf]
    rw [collectExtras_of_leaf hleaf, if_neg hextra]
  | case3 m hlt =>
    subst hjob
    have hnone : leaf? ⟨l, config, s', none⟩ m.position = none := by
      rw [← leaf?_congr h]
      simp [leaf?, hlt]
    refine (collectExtras_of_atToken fun leaf hleaf => ?_).symm
    rw [hnone] at hleaf
    contradiction

private theorem abandon_congr (h : s.map (·.leaf) = s'.map (·.leaf)) (m : Machine) :
    m.abandon ⟨l, config, s, none⟩ = m.abandon ⟨l, config, s', none⟩ := by
  have hsize : s.size = s'.size := by simpa using congrArg Array.size h
  simp only [Machine.abandon, Array.map_extract, h, hsize]

private theorem act_congr (h : s.map (·.leaf) = s'.map (·.leaf)) (m : Machine) :
    act ⟨l, config, s, none⟩ m = act ⟨l, config, s', none⟩ m := by
  simp only [act, recover, reduction?, leaf?_congr h, abandon_congr h]
  rfl

private theorem step_congr (h : s.map (·.leaf) = s'.map (·.leaf)) (m : Machine) :
    step ⟨l, config, s, none⟩ m = step ⟨l, config, s', none⟩ m := by
  rw [step, step, collectExtras_congr h, act_congr h]

/-- A run without subtrees to take over sees the leaves of its tokens and nothing else. -/
theorem run_congr (h : s.map (·.leaf) = s'.map (·.leaf)) (m : Machine) :
    run ⟨l, config, s, none⟩ m = run ⟨l, config, s', none⟩ m := by
  generalize hjob : (⟨l, config, s, none⟩ : Job) = job
  fun_induction run job m with
  | case1 m n hn ih =>
    subst hjob
    rw [ih, ← run_of_next (step_congr h m ▸ hn)]
  | case2 m o ho =>
    subst hjob
    rw [run_of_done (step_congr h m ▸ ho)]

theorem reaches_congr (h : s.map (·.leaf) = s'.map (·.leaf)) {m n : Machine}
    (hreached : Reaches ⟨l, config, s, none⟩ m n) : Reaches ⟨l, config, s', none⟩ m n := by
  induction hreached with
  | refl => exact .refl
  | tail _ hstep ih => exact ih.tail (step_congr h _ ▸ hstep)

end Parse.Job

namespace Compilation

variable (k : Compilation)

private theorem distinct : k.flat.lexerSpec.Distinct := by
  obtain ⟨f⟩ := flattening_of_flatten k.flattened
  constructor
  · have hnodup := f.nodup_kinds
    simpa [Flat.lexerSpec, Function.comp_def] using hnodup
  · intro rule hrule
    obtain ⟨t, ht, rfl⟩ := List.mem_map.1 (List.mem_toArray.1 hrule)
    have hproper := (k.wellFormed.lexical t ht).1
    intro heq
    rw [show t.kind = .error from heq] at hproper
    exact absurd hproper (by decide)

end Compilation

section
variable {k : Compilation} {p q : Parser} {old new : Bytes} {edits : List Edit}

theorem Parser.faithful_scratch (k : Compilation) (hq : q.language = k.language)
    (hold : old.size ≤ maxSize) :
    (q.parse old).Faithful := faithful_of_parsed k (.parse hq hold nofun)

/-- The leaves of a tree that is parsed from scratch are the tokens of the text. -/
theorem Parser.makes_scratch (k : Compilation) (hq : q.language = k.language)
    (hold : old.size ≤ maxSize) :
    k.lexer.Makes old 0 0 ((q.parse old).root.frontier.map Leaf.asLexed) := by
  have hsound : (q.job old none []).Sound := q.sound_job k hq hold nofun
  have hleaves : (q.parse old).root.frontier.map Leaf.asLexed =
      (q.tokens old none []).tokens.toList.map (·.leaf) :=
    (Job.lossless_run hsound).leaves
  have hlexer : q.language.lexer = k.lexer := by rw [hq]; rfl
  rw [hleaves, ← hlexer]
  exact TokenStream.makes_relex hold fun i o h => by simp [oldLeaves, usable] at h

/-- What truthful edits leave of a tree that is parsed from scratch may be taken over. -/
theorem Parser.reliable_scratch (k : Compilation) (hq : q.language = k.language)
    (hold : old.size ≤ maxSize) (hnew : new.size ≤ maxSize) (hedits : Edit.Leads edits old new)
    (i : Nat) (o : OldLeaf) (h : (OldLeaf.ofTree (q.parse old) edits)[i]? = some o) :
    o.Reliable k.lexer new old := by
  have hfaithful : (q.parse old).Faithful := faithful_scratch k hq hold
  obtain ⟨hleaf, hstart⟩ := OldLeaf.of_getElem?_ofTree hfaithful h
  have hlexed : ((q.parse old).root.frontier.map Leaf.asLexed)[i]? = some o.leaf.asLexed := by
    rw [List.getElem?_map, hleaf, Option.map_some]
  obtain ⟨point, t, hnext, hsame⟩ := (makes_scratch k hq hold).getElem? hold hlexed
  have hoffset : totalLength (((q.parse old).root.frontier.map Leaf.asLexed).take i) =
      o.oldStart := by
    rw [hstart, ← List.map_take, totalLength, List.map_map]
    rfl
  rw [hoffset, Nat.zero_add] at hnext
  exact OldLeaf.reliable k.lexed k.distinct hnew hold hnext hsame
    (OldLeaf.standsOn_ofTree hfaithful hedits h)

/-- The tokens that the parser reads are those of the text, if the leaves of the tree before may be
taken over. -/
theorem Parser.leaves_tokens (k : Compilation) (hp : p.language = k.language)
    (hnew : new.size ≤ maxSize) {previous : Option SyntaxTree}
    (hprevious : ∀ t, p.usable previous = some t → ∀ (i : Nat) (o : OldLeaf),
      (OldLeaf.ofTree t edits)[i]? = some o → o.Reliable k.lexer new t.source) :
    (p.tokens new previous edits).tokens.toList.map (·.leaf) =
      (k.lexer.tokenize new).toList.map Leaf.ofToken := by
  have hlexer : p.language.lexer = k.lexer := by rw [hp]; rfl
  rw [tokens, hlexer]
  refine TokenStream.leaves_relex hnew fun i o h => ?_
  unfold oldLeaves at h
  cases ht : p.usable previous with
  | none => simp [ht] at h
  | some t =>
    rw [ht] at h
    exact hprevious t ht i o h

theorem Parser.job_without_reuse {previous : Option SyntaxTree}
    (h : p.config.reuseNodes = false ∨ previous = none) :
    p.job new previous edits =
      ⟨p.language, p.config, (p.tokens new previous edits).tokens, none⟩ := by
  have hnone : (p.usable previous).filter (fun _ => p.config.reuseNodes) = none := by
    rcases h with h | rfl
    · simp [h]
    · rfl
  rw [job, hnone]
  rfl

end

/-- Reading a text again after edits finds the tokens that the lexer makes of it. Where no subtrees
are taken over, the parser then makes the tree that it makes without the old one. -/
theorem relex_eq_tokenize (k : Compilation) {p q : Parser} (hp : p.language = k.language)
    (hq : q.language = k.language) {old new : Bytes} (hold : old.size ≤ maxSize)
    (hnew : new.size ≤ maxSize) {edits : List Edit} (hedits : Edit.Leads edits old new) :
    (TokenStream.relex k.lexer new old (OldLeaf.ofTree (q.parse old) edits)).tokens.toList.map
        (·.leaf) = (k.lexer.tokenize new).toList.map Leaf.ofToken ∧
      (p.config.reuseNodes = false →
        (p.parse new (some (q.parse old)) edits).root = (p.parse new).root) := by
  have htokens := TokenStream.leaves_relex hnew (Parser.reliable_scratch k hq hold hnew hedits)
  refine ⟨htokens, fun hreuse => ?_⟩
  have hagain : (p.tokens new (some (q.parse old)) edits).tokens.toList.map (·.leaf) = _ :=
    p.leaves_tokens k hp hnew fun t ht => by
      obtain ⟨heq, -⟩ := Option.filter_eq_some_iff.1 ht
      rw [← Option.some.inj heq]
      exact Parser.reliable_scratch k hq hold hnew hedits
  have hfresh : (p.tokens new none []).tokens.toList.map (·.leaf) = _ :=
    p.leaves_tokens k hp hnew nofun
  have hleaves := hagain.trans hfresh.symm
  rw [Parser.root_parse, Parser.root_parse, Parser.job_without_reuse (.inl hreuse),
    Parser.job_without_reuse (.inr rfl),
    Job.run_congr (Array.toList_inj.1 (by simpa using hleaves))]

/-- A byte is added behind two letters, the first of which is taken over. -/
theorem relex_eq_tokenize_letter :
    (TokenStream.relex Letter.lexer #[120, 120, 121] #[120, 120]
        (OldLeaf.ofTree (Letter.parser.parse #[120, 120])
          [{ start := 2, oldEnd := 2, newEnd := 3 }])).tokens.toList.map
          (·.leaf) = (Letter.lexer.tokenize #[120, 120, 121]).toList.map Leaf.ofToken ∧
      (({ Letter.parser with config := { reuseNodes := false } } : Parser).parse #[120, 120, 121]
        (some (Letter.parser.parse #[120, 120])) [{ start := 2, oldEnd := 2, newEnd := 3 }]).root =
          (({ Letter.parser with config := { reuseNodes := false } } : Parser).parse
            #[120, 120, 121]).root := by
  have hturns : ({ start := 2, oldEnd := 2, newEnd := 3 } : Edit).Turns
      #[120, 120] #[120, 120, 121] :=
    ⟨by decide, by decide, #[121], rfl, by decide⟩
  have h := relex_eq_tokenize Compilation.letter
    (p := { Letter.parser with config := { reuseNodes := false } })
    (q := Letter.parser) rfl rfl (by decide) (by decide) (.cons hturns (.nil _))
  exact ⟨h.1, h.2 rfl⟩

end Reparse

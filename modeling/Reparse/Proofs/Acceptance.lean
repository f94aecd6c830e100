import Reparse.Proofs.Compilation
import Reparse.Proofs.Sketches

/-! # Grammars that can be seen to compile

Whether a grammar is in order can be checked with codes in place of names. If it has an outline in
which FOLLOW sets leave nothing to settle, and no text or unnamed pattern in a rule matches nothing,
then it compiles. -/
namespace Reparse.Grammar
open Data
open Lowering

/-! ## Validation -/

namespace Draft

/-- Checks of names succeed if all names are new. -/
private theorem exists_checks {α : Type} {key : α → String} {check : Names → α → Except Error Names}
    {xs : List α} {names : Names} {list : List String}
    (hcheck : ∀ names, ∀ x ∈ xs, names.contains (key x) = false →
      check names x = .ok (names.insert (key x) ()))
    (hnames : Holds names list) (hnodup : (list ++ xs.map key).Nodup) :
    ∃ next, xs.foldlM check names = .ok next ∧ Holds next (list ++ xs.map key) := by
  induction xs generalizing names list with
  | nil => exact ⟨names, rfl, by simpa using hnames⟩
  | cons x rest ih =>
    have hnew : names.contains (key x) = false := by
      rw [← Bool.not_eq_true, hnames]
      intro hmem
      exact (List.nodup_append.1 hnodup).2.2 _ hmem _ List.mem_cons_self rfl
    rw [List.map_cons, List.append_cons] at hnodup
    obtain ⟨next, hnext, hholds⟩ :=
      ih (fun names y hy => hcheck names y (List.mem_cons_of_mem x hy))
      (hnames.insert (key x)) hnodup
    refine ⟨next, ?_, by rwa [List.map_cons, List.append_cons]⟩
    rw [List.foldlM_cons, hcheck names x List.mem_cons_self hnew]
    exact hnext

private theorem forM_of_all {ε α : Type} {f : α → Except ε Unit} {xs : List α}
    (h : ∀ x ∈ xs, f x = .ok ()) :
    xs.forM f = .ok () := by
  induction xs with
  | nil => rfl
  | cons x rest ih =>
    change (f x >>= fun _ => rest.forM f) = .ok ()
    rw [h x List.mem_cons_self]
    exact ih fun y hy => h y (List.mem_cons_of_mem x hy)

private theorem find?_missing {names : Names} {list asked : List String} (hnames : Holds names list)
    (h : ∀ x ∈ asked, x ∈ list) :
    asked.find? (fun x => !names.contains x) = none := by
  rw [List.find?_eq_none]
  intro x hx
  rw [Bool.not_eq_true', Bool.not_eq_false]
  exact (hnames x).2 (h x hx)

/-- Validation finds no fault in a draft without any. -/
theorem validate_of_checked {d : Draft} {first : String × Expr}
    (hfirst : d.rules.head? = some first)
    (hnodup : (d.tokens.map (·.name) ++ d.rules.map (·.1)).Nodup)
    (hvalid : Valid ⟨d, d.start.getD first.1⟩) (hchecked : Checked ⟨d, d.start.getD first.1⟩) :
    d.validate = .ok ⟨d, d.start.getD first.1⟩ := by
  have htokens (names : Names) (t : TokenDecl)
      (ht : t ∈ d.tokens) (hnew : names.contains t.name = false) :
      d.checkToken names t = .ok (names.insert t.name ()) := by
    have hmodes : (t.mode.toList ++ t.enter.toList).find? (!d.modes.contains ·) = none := by
      rw [List.find?_eq_none]
      intro mode hmode
      simpa using hchecked.modes t ht mode hmode
    have hempty : t.pattern.matchesEmpty = false := hchecked.patterns t ht
    simp only [checkToken, hnew, hempty, hmodes]
    rfl
  have hrules (names : Names)
      (rule : String × Expr) (_ : rule ∈ d.rules) (hnew : names.contains rule.1 = false) :
      checkRuleName names rule = .ok (names.insert rule.1 ()) := by
    rw [checkRuleName, hnew]
    rfl
  have htokensOnce : ([] ++ d.tokens.map TokenDecl.name).Nodup := (List.nodup_append.1 hnodup).1
  obtain ⟨tokens, htokens, hholds⟩ := exists_checks htokens holds_empty htokensOnce
  rw [List.nil_append] at hholds
  obtain ⟨names, hnames, hall⟩ := exists_checks hrules hholds hnodup
  have hbodies : d.rules.forM (checkRuleBody names) = .ok () := forM_of_all fun rule hrule => by
    have hfound : (rule.2.parts.filterMap Expr.symbol?).find? (!names.contains ·) = none := by
      refine find?_missing hall fun name hname => ?_
      obtain ⟨part, hpart, hsymbol⟩ := List.mem_filterMap.1 hname
      cases part with
      | symbol x =>
        obtain rfl := Option.some.inj hsymbol
        exact hchecked.bodies rule hrule x hpart
      | _ => contradiction
    rw [checkRuleBody, hfound]
  have hextras := find?_missing hholds hvalid.tokens
  have hconflicts := find?_missing (holds_rules d.rules) hchecked.conflicts
  have hstart := (holds_rules d.rules _).2 hvalid.start
  have hvisible : isHiddenName (d.start.getD first.1) = false := hvalid.visible
  unfold validate
  rw [hfirst]
  simp only [htokens, hnames, hbodies, hextras, hconflicts, hstart, hvisible, bind, Except.bind,
    pure, Except.pure]
  rfl

/-! ## Checks by codes -/

/-- Whether the code of a name is listed. -/
def among (codes : List Nat) (name : String) : Bool :=
  materialize (code name) fun n => codes.any (Nat.beq n)

/-- Whether a part of a rule stands for something, where the codes are those of tokens and rules. -/
def meaningful (codes : List Nat) : Expr → Bool
  | .symbol name => among codes name
  | .text literal => !Nat.beq (code literal) 0
  | .pattern p => !p.matchesEmpty
  | _ => true

/-- Whether a draft with this start rule is in order. -/
def inOrder (d : Draft) (start : String) : Bool :=
  materialize (d.tokens.map fun t => code t.name) fun tokens =>
    materialize (d.rules.map fun r => code r.1) fun rules =>
    noRepeat (tokens ++ rules) &&
      d.tokens.all (fun t => !t.pattern.matchesEmpty &&
        (t.mode.toList ++ t.enter.toList).all (among (d.modes.map code))) &&
      d.rules.all (fun r => r.2.parts.all (meaningful (tokens ++ rules))) &&
      (d.extras ++ d.word.toList).all (among tokens) && d.conflicts.flatten.all (among rules) &&
      among rules start && d.rules.head?.any fun first =>
      Nat.beq (code (d.start.getD first.1)) (code start)

private theorem mem_of_among {names : List String} {name : String}
    (h : among (names.map code) name = true) : name ∈ names := by
  rw [among, Materialize.materialize_eq, List.any_map, List.any_eq_true] at h
  obtain ⟨other, hmem, hsame⟩ := h
  rwa [eq_of_beq_code hsame]

private theorem validate_of_inOrder {d : Draft} {start : String} (h : d.inOrder start = true)
    (hvisible : isHiddenName start = false) :
    d.validate = .ok ⟨d, start⟩ ∧ ∀ rule ∈ d.rules, Expr.text "" ∉ rule.2.parts ∧
      ∀ p, Expr.pattern p ∈ rule.2.parts → p.matchesEmpty = false := by
  have htokenCodes : (d.tokens.map fun t => code t.name) = (d.tokens.map (·.name)).map code := by
    rw [List.map_map]
    rfl
  have hruleCodes : (d.rules.map fun r => code r.1) = (d.rules.map (·.1)).map code := by
    rw [List.map_map]
    rfl
  simp only [inOrder, Materialize.materialize_eq, htokenCodes, hruleCodes, ← List.map_append,
    Bool.and_eq_true] at h
  obtain ⟨⟨⟨⟨⟨⟨hnames, htokens⟩, hrules⟩, hextras⟩, hconflicts⟩, hstart⟩, hfirst⟩ := h
  simp only [List.all_eq_true, Bool.and_eq_true,
    Bool.not_eq_true'] at htokens hrules hextras hconflicts
  obtain ⟨first, hhead, hsame⟩ := (Option.any_eq_true _ _).1 hfirst
  obtain rfl := eq_of_beq_code hsame
  have hnodup : (d.tokens.map (·.name) ++ d.rules.map (·.1)).Nodup :=
    List.Nodup.of_map code (nodup_of_noRepeat hnames)
  refine ⟨validate_of_checked hhead hnodup
    ⟨fun name hname => mem_of_among (hextras name hname), fun rule hrule hmem => ?_,
    mem_of_among hstart, hvisible⟩ ⟨fun t ht => (htokens t ht).1,
      fun t ht mode hmode => mem_of_among ((htokens t ht).2 mode hmode),
      fun rule hrule name hname => mem_of_among (hrules rule hrule _ hname),
      fun name hname => mem_of_among (hconflicts name hname)⟩, fun rule hrule =>
      ⟨fun htext => ?_, fun p hp => ?_⟩⟩
  · exact (List.nodup_append.1 hnodup).2.2 _ hmem _ (List.mem_map_of_mem hrule) rfl
  · have hnonempty : Nat.beq (code "") 0 = false := by
      simpa only [meaningful, Bool.not_eq_true'] using hrules rule hrule _ htext
    rw [show code "" = 0 by rfl, Nat.beq_refl] at hnonempty
    contradiction
  · simpa only [meaningful, Bool.not_eq_true'] using hrules rule hrule _ hp

end Draft

/-! ## Compilation -/

/-- A compilation has the productions of an outline, and one candidate at most in each cell. -/
structure Outlined (k : Compilation) (o : Outline) : Prop where
  terminalCount : k.flat.terminalCount = o.terminalCount
  rows : Table.rows k.flat = o.rows
  /-- Symbols that were added to the declared ones do not show. -/
  hidden : ∀ i info, o.terminalCount + k.grammar.draft.rules.length ≤ i →
    k.flat.symbols[i]? = some info → info.visible = false
  single : Table.SingleCandidates k.flat k.mode

/-- A grammar in order compiles if FOLLOW sets leave nothing to settle in its outline. -/
theorem exists_compilation {d : Draft} {start : String} (horder : d.inOrder start = true)
    (hvisible : isHiddenName start = false)
    (hmodes : ∃ names : List String, d.modes =
      (names.foldl Draft.declareMode { name := d.name }).modes)
    (hcount : d.modes.length < 65536) {o : Outline} (houtline : outline ⟨d, start⟩ = some o)
    {width count fuel : Nat}
    (hfollow : Table.followSetsSuffice o.terminalCount width count fuel o.rows = true)
    (mode : Table.Mode) :
    ∃ k : Compilation, k.draft = d ∧ k.grammar = ⟨d, start⟩ ∧ k.mode = mode ∧ Outlined k o := by
  obtain ⟨hvalid, hparts⟩ := Draft.validate_of_inOrder horder hvisible
  obtain ⟨flat, hflat, hterminals, hrows, hhidden⟩ := flatten_of_outline hvalid houtline
  rw [← hterminals, ← hrows] at hfollow
  have hwell := wellFormed_of_flatten (Draft.valid_of_validate hvalid) hflat
  obtain ⟨hsingle, table, htable⟩ := Table.exists_table_of_followSets hwell hfollow mode
  cases hlexer : flat.lexerSpec.build with
  | error e =>
    cases refusal_of_build hvalid hmodes hcount hflat hlexer with
    | text hrule htext => exact absurd htext (hparts _ hrule).1
    | pattern hrule hpattern hempty => simp [(hparts _ hrule).2 _ hpattern] at hempty
  | ok lexer =>
    exact ⟨⟨d, ⟨d, start⟩, hvalid, mode, flat, hflat, lexer, hlexer, table, htable⟩, rfl, rfl, rfl,
      ⟨hterminals, hrows, hhidden, hsingle⟩⟩

end Reparse.Grammar

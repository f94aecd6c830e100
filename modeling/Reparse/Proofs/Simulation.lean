import Reparse.Proofs.Segments
import Reparse.Proofs.Tracking

/-! # Runs that read what items ask for

Where no cell has two candidates, the parser reads what an item asks for. What it makes of some
tokens is described symbol by symbol: for a terminal it pushes the token, and for another symbol it
reads the symbols of a production and reduces them. -/
namespace Reparse.Parse
open Grammar Stack
open Table (Item First)

/-- The stack of some entries, top last, on the first state. -/
def stackOf (entries : List Entry) : Stack := entries.foldl Stack.push .initial

theorem stackOf_append (entries : List Entry) (e : Entry) :
    stackOf (entries ++ [e]) = (stackOf entries).push e := by
  rw [stackOf, List.foldl_append]
  rfl

private theorem entries_stackOf (entries : List Entry) :
    (stackOf entries).entries = Stack.initial.entries ++ entries := by
  induction entries using List.reverseRecOn with
  | nil => rfl
  | append_singleton entries e ih => rw [stackOf_append, entries_push, ih, List.append_assoc]

theorem top_stackOf (entries : List Entry) : (stackOf entries).top.state = topState 0 entries := by
  rw [← topState_entries _ 0, entries_stackOf, topState_append]
  rfl

/-- An item is tracked by the stack of some entries, which stand for some symbols, top first. -/
def Tracked (k : Compilation) (entries : List Entry) (xs : List Kind) (i : Item)
    (around : List Kind) : Prop :=
  Tracks k (stackOf entries) xs i around

section
variable {k : Compilation} {entries : List Entry} {xs : List Kind} {i : Item} {around : List Kind}
  {step : Step} {rest : List Step}

namespace Tracked

private theorem start (k : Compilation) : Tracked k [] [] ⟨0, 0⟩ [] := .bottom rfl

private theorem predict (h : Tracked k entries xs i around)
    (hs : k.flat.stepsFrom i.production i.dot = step :: rest) {q : Nat} {p : Production}
    (hp : k.flat.productions[q]? = some p) (hlhs : p.lhs = step.symbol) :
    Tracked k entries xs ⟨q, 0⟩ (rest.map (·.symbol) ++ around) := by
  have hnonterminal : k.flat.isTerminal step.symbol = false := by
    have hle := (k.wellFormed.lhs q p hp).1
    rw [← hlhs]
    simpa [Flat.isTerminal] using hle
  exact Tracks.predict h hs hnonterminal ((k.wellFormed.index _ q).2 ⟨p, hp, hlhs⟩)

/-- The next terminal is shifted. -/
theorem shift (hsingle : Table.SingleCandidates k.flat k.mode) (h : Tracked k entries xs i around)
    (hs : k.flat.stepsFrom i.production i.dot = step :: rest)
    (hterminal : k.flat.isTerminal step.symbol = true) :
    ∃ state, k.table.action? (topState 0 entries) step.symbol = some (.shift state) ∧
      ∀ e : Entry, e.state = state →
        Tracked k (entries ++ [e]) (step.symbol :: xs) i.advance around := by
  obtain ⟨st, target, hst, hedge, haction⟩ := Tracks.shift_action hsingle h hs hterminal
  rw [top_stackOf] at haction
  refine ⟨target, haction, fun e he => ?_⟩
  rw [Tracked, stackOf_append]
  exact Tracks.advance h hs hst (he ▸ hedge)

/-- There is a state to go to behind the next symbol. -/
theorem goto (h : Tracked k entries xs i around)
    (hs : k.flat.stepsFrom i.production i.dot = step :: rest)
    (hnonterminal : k.flat.isTerminal step.symbol = false) :
    ∃ state, k.table.goto? (topState 0 entries) step.symbol = some state ∧
      ∀ e : Entry, e.state = state →
        Tracked k (entries ++ [e]) (step.symbol :: xs) i.advance around := by
  obtain ⟨st, ahead, hst, hmem, -⟩ := Tracks.mem_closure h
  obtain ⟨target, st', ahead', hedge, -⟩ := Table.exists_transition k.wellFormed hst hmem hs
  have hgoto := k.tableBuilt.goto_of_transition k.wellFormed hst hedge hnonterminal
  rw [top_stackOf] at hgoto
  refine ⟨target, hgoto, fun e he => ?_⟩
  rw [Tracked, stackOf_append]
  exact Tracks.advance h hs hst (he ▸ hedge)

/-- What is complete is reduced. -/
theorem complete (hsingle : Table.SingleCandidates k.flat k.mode)
    (h : Tracked k entries xs i around) (hs : k.flat.stepsFrom i.production i.dot = []) {x : Kind}
    (hx : Follows (First.compute k.flat) x.id around) :
    k.table.action? (topState 0 entries) x = some (Table.Conflict.reduceAction i.production) := by
  rw [← top_stackOf]
  exact Tracks.complete_action hsingle h hs hx

end Tracked
end

/-! ## Symbols that are read -/

/-- Wherever some symbols are on the stack, the next token is read as a kind for which there is an
action. -/
def NextAs (k : Compilation) (under : List Kind) (next : Option Leaf) (x : Kind) : Prop :=
  ∀ (entries : List Entry) (xs : List Kind) (i : Item) (around : List Kind) (action : Table.Action),
    Tracked k entries xs i around → under ⊆ xs →
    k.table.action? (topState 0 entries) x = some action →
      k.language.actionFor (topState 0 entries) next = (x, some action)

theorem NextAs.mono {k : Compilation} {under more : List Kind} {next : Option Leaf} {x : Kind}
    (h : NextAs k under next x) (hsub : under ⊆ more) : NextAs k more next x :=
  fun entries xs i around action htracked hunder haction =>
  h entries xs i around action htracked (List.Subset.trans hsub hunder) haction

/-- A token is read as what it is. -/
theorem nextAs_kind (k : Compilation) (under : List Kind) (leaf : Leaf) :
    NextAs k under (some leaf) leaf.kind :=
  fun _ _ _ _ _ _ _ haction => Language.actionFor_eq_some_iff.2 ⟨haction, .inl rfl⟩

private theorem nextAs_end (k : Compilation) (under : List Kind) : NextAs k under none .eof :=
  fun _ _ _ _ _ _ _ haction => congrArg (Kind.eof, ·) haction

/-- A run comes to a point where it has made entries of the tokens before some later ones, with so
many reductions at most since the last token. -/
def Job.Comes (job : Job) (entries : List Entry) (later : List Leaf) (reductions : Nat) : Prop :=
  ∃ n, job.run {} = job.run n ∧ job.Stands {} entries later n ∧ n.reductions ≤ reductions

/-- Wherever a symbol is asked for and some symbols are on the stack, a run reads some tokens as the
symbol and pushes trees with some property. It ends with so many reductions at most. -/
def Reads (k : Compilation) (job : Job) (under : List Kind) (x : Kind) (tokens : List Leaf)
    (reductions : Nat) (good : List Tree → Prop) : Prop :=
  ∀ (entries : List Entry) (xs : List Kind) (i : Item) (around : List Kind) (step : Step)
    (rest : List Step) (later : List Leaf) (next : Kind) (before : Nat),
    Tracked k entries xs i around → under ⊆ xs →
      k.flat.stepsFrom i.production i.dot = step :: rest → step.symbol = x →
        NextAs k under (firstProper job.language later) next →
          Follows (First.compute k.flat) next.id (rest.map (·.symbol) ++ around) →
            job.Comes entries (tokens ++ later) before → ∃ e : Entry, good e.trees ∧
              job.Comes (entries ++ [e]) later reductions ∧
              Tracked k (entries ++ [e]) (x :: xs) i.advance around

/-- Wherever some symbols are what is left of a production, a run reads some tokens as these symbols
and pushes trees with some property. -/
def ReadsAll (k : Compilation) (job : Job) (under symbols : List Kind) (tokens : List Leaf)
    (reductions : Nat) (good : List Tree → Prop) : Prop :=
  ∀ (entries : List Entry) (xs : List Kind) (i : Item) (around : List Kind) (later : List Leaf)
    (next : Kind) (before : Nat),
    Tracked k entries xs i around → under ⊆ xs →
    (k.flat.stepsFrom i.production i.dot).map (·.symbol) = symbols →
      NextAs k under (firstProper job.language later) next →
      Follows (First.compute k.flat) next.id around →
        job.Comes entries (tokens ++ later) before →
        ∃ new : List Entry, new.length = symbols.length ∧
          good (new.flatMap (·.trees)) ∧ job.Comes (entries ++ new) later reductions ∧
            Tracked k (entries ++ new) (symbols.reverse ++ xs) ⟨i.production,
            i.dot + symbols.length⟩ around

/-- A node over some children. -/
def NodeOver (kind : Kind) (children : List Tree) (t : Tree) : Prop :=
  ∃ elements state, t = branchOf kind elements state ∧ elements.map (·.2) = children

section
variable {l : Language} {x : Kind} {ts : List Tree} {t : Tree} (h : NodeOver x ts t)
include h

theorem NodeOver.isNode : t.isNode = true := by
  obtain ⟨elements, state, rfl, -⟩ := h
  rfl

theorem NodeOver.isTrivia : l.isTrivia t = false := isTrivia_of_isNode h.isNode

theorem NodeOver.kind : t.kind = x := by
  obtain ⟨elements, state, rfl, -⟩ := h
  exact kind_branchOf x elements state

theorem NodeOver.children : t.children = ts := by
  obtain ⟨elements, state, rfl, rfl⟩ := h
  rfl

theorem NodeOver.hasError : t.hasError = ts.any Tree.hasError := by
  obtain ⟨elements, state, rfl, rfl⟩ := h
  exact hasError_branchOf x elements state

end

/-- What a reduction makes of some trees: a node without the extras in front, or just the trees for
a hidden rule. -/
def Closes (l : Language) (lhs : Kind) (ts closed : List Tree) : Prop :=
  if l.isVisible lhs then
    ∃ node, closed = ts.takeWhile l.isTrivia ++ [node] ∧
      NodeOver lhs (ts.dropWhile l.isTrivia) node
  else closed = ts

private theorem closes_reduced (l : Language) (lhs : Kind) (elements : Array Element)
    (state : Nat) :
    Closes l lhs (treesOf elements) (treesOf (reduced l lhs elements state)) := by
  unfold Closes reduced
  split
  · refine ⟨branchOf lhs (elements.toList.dropWhile fun e => l.isTrivia e.2) state,
      ?_, _, _, rfl, ?_⟩
    · simp only [treesOf, Array.toList_push, Array.toList_takeWhile, List.map_append,
        List.takeWhile_map]
      rfl
    · rw [treesOf, List.dropWhile_map]
      rfl
  · rfl

theorem closes_iff_of_hidden {l : Language} {lhs : Kind} {ts closed : List Tree}
    (h : l.isVisible lhs = false) :
    Closes l lhs ts closed ↔ closed = ts := by
  rw [Closes, h, if_neg Bool.false_ne_true]

/-- Where no extras are in front, there is nothing besides the node. -/
theorem Closes.node {l : Language} {lhs : Kind} {ts closed : List Tree} (h : Closes l lhs ts closed)
    (hvisible : l.isVisible lhs = true) (hfirst : ∀ t, ts.head? = some t → l.isTrivia t = false) :
    ∃ node, closed = [node] ∧ NodeOver lhs ts node := by
  rw [Closes, if_pos hvisible] at h
  obtain ⟨node, rfl, hnode⟩ := h
  cases ts with
  | nil => exact ⟨node, rfl, hnode⟩
  | cons t ts =>
    have hproper : ¬ l.isTrivia t = true := Bool.eq_false_iff.1 (hfirst t rfl)
    rw [List.dropWhile_cons_of_neg hproper] at hnode
    exact ⟨node, by rw [List.takeWhile_cons_of_neg hproper, List.nil_append], hnode⟩

section
variable {k : Compilation} {job : Job} {under : List Kind}

theorem Reads.mono {x : Kind} {tokens : List Leaf} {reductions : Nat}
    {good good' : List Tree → Prop} (h : Reads k job under x tokens reductions good)
    (hgood : ∀ ts, good ts → good' ts) :
    Reads k job under x tokens reductions good' := by
  intro entries xs i around step rest later next before htracked hunder hs hsymbol
    hnext hfollows hcomes
  obtain ⟨e, he, hafter⟩ :=
    h entries xs i around step rest later next before htracked hunder hs hsymbol
      hnext hfollows hcomes
  exact ⟨e, hgood _ he, hafter⟩

/-- There may be fewer reductions. -/
theorem Reads.weaken {x : Kind} {tokens : List Leaf} {reductions more : Nat}
    {good : List Tree → Prop} (h : Reads k job under x tokens reductions good)
    (hle : reductions ≤ more) : Reads k job under x tokens more good := by
  intro entries xs i around step rest later next before htracked hunder hs hsymbol
    hnext hfollows hcomes
  obtain ⟨e, he, ⟨n, hrun, hstands, hcount⟩, hadvance⟩ :=
    h entries xs i around step rest later next before htracked hunder hs hsymbol
      hnext hfollows hcomes
  exact ⟨e, he, ⟨n, hrun, hstands, Nat.le_trans hcount hle⟩, hadvance⟩

theorem ReadsAll.mono {symbols : List Kind} {tokens : List Leaf} {reductions : Nat}
    {good good' : List Tree → Prop} (h : ReadsAll k job under symbols tokens reductions good)
    (hgood : ∀ ts, good ts → good' ts) :
    ReadsAll k job under symbols tokens reductions good' := by
  intro entries xs i around later next before htracked hunder hs hnext hfollows hcomes
  obtain ⟨new, hlength, hnew, hafter⟩ :=
    h entries xs i around later next before htracked hunder hs hnext hfollows hcomes
  exact ⟨new, hlength, hgood _ hnew, hafter⟩

theorem ReadsAll.single {x : Kind} {tokens : List Leaf} {reductions : Nat} {good : List Tree → Prop}
    (h : Reads k job under x tokens reductions good) :
    ReadsAll k job under [x] tokens reductions good := by
  intro entries xs i around later next before htracked hunder hs hnext hfollows hcomes
  obtain ⟨step, hsteps, hsymbol⟩ := List.map_eq_singleton_iff.1 hs
  obtain ⟨e, he, hafter, hadvance⟩ :=
    h entries xs i around step [] later next before htracked hunder hsteps hsymbol
      hnext hfollows hcomes
  exact ⟨[e], rfl, by rwa [List.flatMap_singleton], hafter, hadvance⟩

end

/-- A token behind extras, with the kind as which it is read. -/
structure Piece where
  extras : Array Leaf
  leaf : Leaf
  kind : Kind

def Piece.leaves (p : Piece) : List Leaf := p.extras.toList ++ [p.leaf]

/-- What becomes of it in a tree. -/
def Piece.trees (p : Piece) : List Tree :=
  p.extras.toList.map .leaf ++ [.leaf (p.leaf.reinterpret p.kind)]

/-- The token is read as a terminal of the kind wherever some symbols are on the stack. -/
structure Piece.Fits (p : Piece) (k : Compilation) (under : List Kind) : Prop where
  extras : ∀ x ∈ p.extras, k.language.isExtra x.kind = true
  proper : k.language.isExtra p.leaf.kind = false
  terminal : k.flat.isTerminal p.kind = true
  next : NextAs k under (some p.leaf) p.kind

private theorem Piece.Fits.mono {p : Piece} {k : Compilation} {under more : List Kind}
    (h : p.Fits k under) (hsub : under ⊆ more) :
    p.Fits k more := { h with next := h.next.mono hsub }

section
variable {k : Compilation} {job : Job} (hsingle : Table.SingleCandidates k.flat k.mode)
  (hlanguage : job.language = k.language) (hreuse : job.reuse = none)

private theorem comes_start (job : Job) : job.Comes [] job.leaves 0 :=
  ⟨{}, rfl, ⟨(List.append_nil _).symm, rfl, fun _ h => absurd h (Array.not_mem_empty _), rfl⟩,
    Nat.le_refl 0⟩

include hsingle hlanguage hreuse

/-- A token is pushed where a terminal is asked for. -/
theorem comes_piece {under xs around : List Kind} {p : Piece} (hp : p.Fits k under)
    {entries : List Entry} {i : Item} {step : Step} {rest : List Step} {later : List Leaf}
    {before : Nat} (htracked : Tracked k entries xs i around) (hunder : under ⊆ xs)
    (hs : k.flat.stepsFrom i.production i.dot = step :: rest) (hsymbol : step.symbol = p.kind)
    (hcomes : job.Comes entries (p.leaves ++ later) before) : ∃ e : Entry, e.trees = p.trees ∧
      job.Comes (entries ++ [e]) later 0 ∧
        Tracked k (entries ++ [e]) (p.kind :: xs) i.advance around := by
  obtain ⟨n, hrun, hstands, -⟩ := hcomes
  obtain ⟨state, haction, hadvance⟩ := htracked.shift hsingle hs (hsymbol ▸ hp.terminal)
  rw [Piece.leaves, List.append_assoc] at hstands
  have hshift : job.language.actionFor
      (topState ({} : Machine).stack.top.state entries) (some p.leaf) =
        (p.kind, some (.shift state)) := by
    rw [hlanguage]
    exact hp.next entries xs i around _ htracked hunder (hsymbol ▸ haction)
  obtain ⟨n', hquiet, hzero, hstands'⟩ := hstands.shift hreuse (show ({} : Machine).Idle from rfl)
    (by rw [hlanguage]; exact hp.extras) (by rw [hlanguage]; exact hp.proper) hshift
  exact ⟨_, trees_tokenEntry ..,
    ⟨n', hrun.trans (Job.run_of_next hquiet.step), hstands', Nat.le_of_eq hzero⟩,
    hsymbol ▸ hadvance _ rfl⟩

/-- A token is read as a terminal. -/
private theorem reads_piece {under : List Kind} {p : Piece} (hp : p.Fits k under) :
    Reads k job under p.kind p.leaves 0 (· = p.trees) :=
  fun _ _ _ _ _ _ _ _ _ htracked hunder hs hsymbol _ _ hcomes =>
    comes_piece hsingle hlanguage hreuse hp htracked hunder hs hsymbol hcomes

/-- A token is read as a terminal in front of other symbols. -/
theorem ReadsAll.piece {under rest : List Kind} {p : Piece} (hp : p.Fits k under)
    {tokens : List Leaf} {reductions : Nat} {good : List Tree → Prop}
    (hrest : ReadsAll k job (p.kind :: under) rest tokens reductions good) :
    ReadsAll k job under (p.kind :: rest) (p.leaves ++ tokens) reductions
      fun ts => ∃ others, ts = p.trees ++ others ∧ good others := by
  intro entries xs i around later next before htracked hunder hs hlast hfollows hcomes
  obtain ⟨step, steps, hsteps, hsymbol, hsymbols⟩ := List.map_eq_cons_iff.1 hs
  rw [List.append_assoc] at hcomes
  obtain ⟨e, he, hafter, hadvance⟩ :=
    comes_piece hsingle hlanguage hreuse hp htracked hunder hsteps hsymbol hcomes
  obtain ⟨new, hlength, hnew, hafter', hcomplete⟩ :=
    hrest (entries ++ [e]) (p.kind :: xs) i.advance around later next 0
    hadvance (List.cons_subset_cons _ hunder) (by rw [Flat.stepsFrom_advance hsteps, hsymbols])
    (hlast.mono (List.subset_cons_self _ _)) hfollows hafter
  rw [List.append_assoc] at hafter' hcomplete
  refine ⟨e :: new, by rw [List.length_cons, hlength, List.length_cons],
    ⟨_, by rw [List.flatMap_cons, he], hnew⟩, hafter', ?_⟩
  have hdot : i.dot + (rest.length + 1) = i.dot + 1 + rest.length := by omega
  rw [List.length_cons, hdot, List.reverse_cons, List.append_assoc]
  exact hcomplete

/-- Tokens are read as terminals in front of other symbols, which are read on top of them. -/
theorem ReadsAll.pieces {under rest : List Kind} {pieces : List Piece}
    (hpieces : ∀ p ∈ pieces, p.Fits k under) {tokens : List Leaf} {reductions : Nat}
    {good : List Tree → Prop}
    (hrest : ∀ more, under ⊆ more → pieces.map (·.kind) ⊆ more →
      ReadsAll k job more rest tokens reductions good) :
    ReadsAll k job under (pieces.map (·.kind) ++ rest)
      (pieces.flatMap Piece.leaves ++ tokens) reductions
      fun ts => ∃ others, ts = pieces.flatMap Piece.trees ++ others ∧ good others := by
  induction pieces generalizing under with
  | nil =>
    exact (hrest under (List.Subset.refl _) (List.nil_subset _)).mono fun ts hts => ⟨ts, rfl, hts⟩
  | cons p pieces ih =>
    have hsub := List.subset_cons_self p.kind under
    have hmore := ih (fun x hx => (hpieces x (List.mem_cons_of_mem _ hx)).mono hsub)
      fun more hmore hkinds => hrest more (List.Subset.trans hsub hmore)
      (List.cons_subset.2 ⟨hmore List.mem_cons_self, hkinds⟩)
    have hall := ReadsAll.piece hsingle hlanguage hreuse (hpieces p List.mem_cons_self) hmore
    rw [← List.append_assoc, ← List.flatMap_cons] at hall
    refine hall.mono ?_
    rintro ts ⟨_, rfl, others, rfl, hothers⟩
    exact ⟨others, by rw [List.flatMap_cons, List.append_assoc], hothers⟩

/-- Tokens are read as terminals. -/
theorem readsAll_pieces {under : List Kind} {pieces : List Piece} (hne : pieces ≠ [])
    (hpieces : ∀ p ∈ pieces, p.Fits k under) :
    ReadsAll k job under (pieces.map (·.kind)) (pieces.flatMap Piece.leaves) 0
      (· = pieces.flatMap Piece.trees) := by
  obtain ⟨front, p, rfl⟩ := (List.eq_nil_or_concat' pieces).resolve_left hne
  have hlast := hpieces p (List.mem_append_right _ List.mem_cons_self)
  have hall :=
    ReadsAll.pieces hsingle hlanguage hreuse (fun x hx => hpieces x (List.mem_append_left _ hx))
    fun more hmore _ => .single (reads_piece hsingle hlanguage hreuse (hlast.mono hmore))
  rw [List.map_append, List.flatMap_append, List.flatMap_append, List.flatMap_singleton,
    List.flatMap_singleton]
  refine hall.mono ?_
  rintro ts ⟨others, rfl, rfl⟩
  rfl

/-- Tokens without extras are read as what they are. -/
theorem readsAll_leaves {under : List Kind} {leaves : List Leaf} (hne : leaves ≠ [])
    (hleaves : ∀ leaf ∈ leaves, k.language.isExtra leaf.kind = false ∧
      k.flat.isTerminal leaf.kind = true) :
    ReadsAll k job under (leaves.map (·.kind)) leaves 0 (· = leaves.map .leaf) := by
  have hpieces : ∀ p ∈ leaves.map fun leaf => (⟨#[], leaf, leaf.kind⟩ : Piece), p.Fits k under := by
    intro p hp
    obtain ⟨leaf, hleaf, rfl⟩ := List.mem_map.1 hp
    exact ⟨fun x hx => absurd hx (Array.not_mem_empty x), (hleaves leaf hleaf).1,
      (hleaves leaf hleaf).2, nextAs_kind k under leaf⟩
  have hall := readsAll_pieces hsingle hlanguage hreuse (by simpa using hne) hpieces
  simp only [List.map_map, List.flatMap_map, Function.comp_def, Piece.leaves, Piece.trees,
    List.nil_append, List.map_nil, List.flatMap_singleton'] at hall
  rwa [← List.map_eq_flatMap] at hall

/-- The symbols of a production are read and reduced. -/
theorem reads_of_production {under : List Kind} {q : Nat} {p : Production}
    (hp : k.flat.productions[q]? = some p) (hq : q ≠ 0) {tokens : List Leaf} {reductions : Nat}
    {good : List Tree → Prop}
    (h : ReadsAll k job under (p.steps.map (·.symbol)) tokens reductions good)
    (hroom : reductions < reductionLimit) :
    Reads k job under p.lhs tokens (reductions + 1) fun closed => ∃ ts, good ts ∧
      Closes k.language p.lhs ts closed := by
  intro entries xs i around step rest later next before htracked hunder hs hsymbol
    hnext hfollows hcomes
  obtain ⟨new, hlength, hgood, ⟨n, hrun, hstands, hle⟩, hcomplete⟩ :=
    h entries xs ⟨q, 0⟩ _ later next before (htracked.predict hs hp hsymbol.symm) hunder
      (by rw [Flat.stepsFrom_zero hp]) hnext hfollows hcomes
  rw [List.length_map] at hlength hcomplete
  have hnonterminal : k.flat.isTerminal step.symbol = false := by
    have hle := (k.wellFormed.lhs q p hp).1
    rw [hsymbol]
    simpa [Flat.isTerminal] using hle
  have hdone : k.flat.stepsFrom q (0 + p.steps.length) = [] := by
    rw [Nat.zero_add, Flat.stepsFrom_eq_drop, Flat.stepsFrom_zero hp, List.drop_length]
  have haction := hcomplete.complete hsingle hdone hfollows
  rw [Table.Conflict.reduceAction, if_neg hq] at haction
  obtain ⟨state, hgoto, hadvance⟩ := htracked.goto hs hnonterminal
  have hinfo := k.tableBuilt.productions q
  rw [hp, Option.map_some] at hinfo
  have haction : job.language.actionFor
      (topState 0 (entries ++ new)) (firstProper job.language later) =
        (next, some (.reduce q)) := by
    rw [hlanguage] at hnext ⊢
    exact hnext (entries ++ new) _ _ _ _ hcomplete
      (List.Subset.trans hunder (List.subset_append_right _ _)) haction
  have hinfo : job.language.table.productions[q]? =
      some ⟨p.lhs, (p.steps.map (·.field)).toArray, p.dynamic⟩ := by
    rw [hlanguage]
    exact hinfo
  have hgoto : job.language.table.goto? (topState 0 entries) p.lhs = some state := by
    rw [hlanguage]
    exact hsymbol ▸ hgoto
  rcases hstands.reduce hreuse haction hinfo (by simpa using hlength) hgoto with
      hoverruns | ⟨n', hquiet, hcount, hstands'⟩
  · have hfull := hoverruns.1
    omega
  · refine ⟨_, ⟨_, hgood, ?_⟩, ⟨n', hrun.trans (Job.run_of_next hquiet.step), hstands', ?_⟩,
      hsymbol ▸ hadvance _ rfl⟩
    · have hcloses := closes_reduced k.language p.lhs
        (labelAll k.language new (p.steps.map (·.field))) (topState 0 entries)
      rw [treesOf_labelAll k.language (by rw [hlength, List.length_map])] at hcloses
      rw [closedEntry, hlanguage]
      exact hcloses
    · omega

end

/-! ## Tokens in front of symbols -/

/-- Some tokens begin like symbols: the first is read as a terminal with which the symbols can
begin. -/
def Begins (k : Compilation) (under : List Kind) (tokens : List Leaf) (symbols : List Kind) :
    Prop :=
  ∀ later, ∃ x w, NextAs k under (firstProper k.language (tokens ++ later)) x ∧
    k.flat.isTerminal x = true ∧ Yields k.flat symbols (x :: w)

section
variable {k : Compilation} {job : Job} {under : List Kind} {tokens tokens' : List Leaf}
  {symbols : List Kind}

theorem Begins.append (h : Begins k under tokens symbols) (tokens' : List Leaf) (rest : List Kind) :
    Begins k under (tokens ++ tokens') (symbols ++ rest) := by
  intro later
  obtain ⟨x, w, hnext, hterminal, hyields⟩ := h (tokens' ++ later)
  rw [List.append_assoc]
  exact ⟨x, w ++ rest, hnext, hterminal, hyields.append (.refl rest)⟩

/-- What begins like a right-hand side begins like the left-hand side. -/
theorem Begins.of_production {q : Nat} {p : Production} (hp : k.flat.productions[q]? = some p)
    (h : Begins k under tokens (p.steps.map (·.symbol))) : Begins k under tokens [p.lhs] := by
  intro later
  obtain ⟨x, w, hnext, hterminal, hyields⟩ := h later
  exact ⟨x, w, hnext, hterminal, .expand hp (by rwa [List.append_nil])⟩

private theorem firstProper_piece {p : Piece} (hp : p.Fits k under) (later : List Leaf) :
    firstProper k.language (p.leaves ++ later) = some p.leaf := by
  have hnone : p.extras.toList.find? (fun x => !k.language.isExtra x.kind) = none :=
    List.find?_eq_none.2 fun x hx => by simp [hp.extras x (Array.mem_toList_iff.1 hx)]
  have hproper : (!k.language.isExtra p.leaf.kind) = true := by rw [hp.proper, Bool.not_false]
  rw [Piece.leaves, firstProper, List.append_assoc, List.find?_append, hnone, Option.none_or,
    List.singleton_append]
  exact List.find?_cons_of_pos hproper

theorem begins_piece {p : Piece} (hp : p.Fits k under) : Begins k under p.leaves [p.kind] := by
  intro later
  rw [firstProper_piece hp]
  exact ⟨p.kind, [], hp.next, hp.terminal, .refl _⟩

/-- One symbol and then others, which are on top of it and before which the next token is one of
theirs. -/
theorem ReadsAll.cons (hlanguage : job.language = k.language) {x : Kind} {rest : List Kind}
    {reductions reductions' : Nat} {good good' : List Tree → Prop}
    (h : Reads k job under x tokens reductions good)
    (hrest : ReadsAll k job (x :: under) rest tokens' reductions' good')
    (hbegins : Begins k under tokens' rest) :
    ReadsAll k job under (x :: rest) (tokens ++ tokens') reductions' fun ts =>
      ∃ first others, ts = first ++ others ∧ good first ∧ good' others := by
  intro entries xs i around later next before htracked hunder hs hlast hfollows hcomes
  obtain ⟨step, steps, hsteps, hsymbol, hsymbols⟩ := List.map_eq_cons_iff.1 hs
  rw [List.append_assoc] at hcomes
  obtain ⟨first, w, hfirst, hterminal, hyields⟩ := hbegins later
  have hahead : Follows (First.compute k.flat) first.id (rest ++ around) :=
    follows_of_yields (hyields.append (.refl around)) fun y hy => Option.some.inj hy ▸ hterminal
  obtain ⟨e, he, hafter, hadvance⟩ :=
    h entries xs i around step steps (tokens' ++ later) first before htracked hunder
    hsteps hsymbol (hlanguage ▸ hfirst) (by rw [hsymbols]; exact hahead) hcomes
  obtain ⟨new, hlength, hnew, hafter', hcomplete⟩ :=
    hrest (entries ++ [e]) (x :: xs) i.advance around later next
    reductions hadvance (List.cons_subset_cons x hunder)
    (by rw [Flat.stepsFrom_advance hsteps, hsymbols])
    (hlast.mono (List.subset_cons_self _ _)) hfollows hafter
  rw [List.append_assoc] at hafter' hcomplete
  refine ⟨e :: new, by rw [List.length_cons, hlength, List.length_cons],
    ⟨_, _, List.flatMap_cons, he, hnew⟩, hafter', ?_⟩
  have hdot : i.dot + (rest.length + 1) = i.dot + 1 + rest.length := by omega
  rw [List.length_cons, hdot, List.reverse_cons, List.append_assoc]
  exact hcomplete

/-! ## Roots -/

/-- What is on the stack when the start symbol is read. -/
private theorem stack_of_entries {s : Stack} {e : Entry}
    (h : s.entries = Stack.initial.entries ++ [e]) :
    s = ⟨e, [⟨0, #[]⟩]⟩ := by
  obtain ⟨top, below⟩ := s
  have hreverse := congrArg List.reverse h
  rw [entries, List.reverse_reverse] at hreverse
  change top :: below = [e, ⟨0, #[]⟩] at hreverse
  rw [(List.cons.inj hreverse).1, (List.cons.inj hreverse).2]

/-- The node of the start symbol becomes the root, as it is alone on the stack. -/
theorem NodeOver.root {start : Kind} {children : List Tree} {t : Tree} {e : Entry}
    (h : NodeOver start children t) (htrees : e.trees = [t]) :
    NodeOver start children (Stack.root ⟨e, [⟨0, #[]⟩]⟩ start []) := by
  obtain ⟨elements, state, rfl, rfl⟩ := h
  obtain ⟨⟨field, t⟩, helement, rfl⟩ := List.map_eq_singleton_iff.1 htrees
  have hnode : (branchOf start elements state).isNode = true := rfl
  have hkind := kind_branchOf start elements state
  have hclean : (branchOf start elements state).isErrorNode = false := Tree.isError_infoOf
  refine ⟨elements, 0, ?_, rfl⟩
  have hbottom : (⟨0, #[]⟩ : Entry).trees = [] := rfl
  simp [Stack.root, helement, hnode, hkind, hclean, hbottom, labelledChildren_branchOf]

/-- A text that is read as the start symbol is accepted. -/
theorem root_of_reads (hsingle : Table.SingleCandidates k.flat k.mode)
    (hlanguage : job.language = k.language) (hreuse : job.reuse = none) {tokens : List Leaf}
    {reductions : Nat} {good : List Tree → Prop}
    (h : Reads k job [] k.flat.start tokens reductions good) (hleaves : job.leaves = tokens) :
    ∃ e : Entry, good e.trees ∧ (job.run {}).root = Stack.root ⟨e, [⟨0, #[]⟩]⟩ k.flat.start [] := by
  obtain ⟨accept, hzero, -⟩ := k.wellFormed.accepting
  have hsteps := Flat.stepsFrom_zero hzero
  have hfollows : Follows (First.compute k.flat) Kind.eof.id [] :=
    .inr ⟨fun _ hx => absurd hx List.not_mem_nil, rfl⟩
  obtain ⟨e, he, ⟨n, hrun, hstands, -⟩, hadvance⟩ :=
    h [] [] ⟨0, 0⟩ [] _ [] [] .eof 0 (.start k) (List.nil_subset _) hsteps rfl
    (nextAs_end k []) hfollows (by rw [List.append_nil, ← hleaves]; exact comes_start job)
  refine ⟨e, he, ?_⟩
  have haction := hadvance.complete hsingle (Flat.stepsFrom_advance hsteps) hfollows
  have hcollected := hstands.collectExtras
  have hat := Job.atToken_collectExtras job n
  have htop : (job.collectExtras n).stack.top.state = topState 0 [e] := by
    rw [← topState_entries _ 0, hcollected.stack, topState_append]
    rfl
  have haccept : job.language.actionFor (job.collectExtras n).stack.top.state
      (job.leaf? (job.collectExtras n).position) = (.eof, some .accept) := by
    rw [htop, Job.leaf?_eq_firstProper hat hcollected.waiting, hcollected.ahead, hlanguage]
    exact congrArg (Kind.eof, ·) haction
  have hidle : (job.collectExtras n).Idle := by
    rw [Machine.Idle, hcollected.recovery]
  have hpending : (job.collectExtras n).pending = #[] := by
    have hahead := hcollected.ahead
    rw [Job.ahead, List.append_eq_nil_iff] at hahead
    exact Array.toList_inj.1 hahead.1
  have hstart : job.language.start = k.flat.start := by
    rw [hlanguage]
    rfl
  have hdone : job.step n = .done ((job.collectExtras n).accept job.language.start) := by
    rw [Job.step, Job.act_of_fresh hreuse, haccept, Machine.flush_of_idle hidle]
  rw [hrun, Job.run_of_done hdone, Machine.accept, hpending, hstart,
    stack_of_entries hcollected.stack]
  rfl

end
end Reparse.Parse

import Reparse.Proofs.Agreement
import Reparse.Proofs.Exactness
import Reparse.Proofs.Lines

/-! # Subtrees are what the parser makes of their tokens again -/
namespace Reparse
namespace Parse
open Reparse.Tree Stack

variable {l : Language} {ts us : List Tree} {next : Option Leaf}

/-! ## Nodes that are made -/

/-- On top of its state, the parser makes the node of its tokens if the next token is the one
given. -/
def Replays (l : Language) (next : Option Leaf) : Tree → Prop
  | .leaf _ => False
  | .node info children => ∃ state, l.table.goto? info.state info.kind = some state ∧
      Builds l info.state ((forestFrontier children).map Leaf.asLexed)
      [⟨state, #[(none, .node info children)]⟩] next

/-- The parser reads extras as what they are. -/
private theorem Builds.isExtra_eq (hword : l.WordApart) {base : Nat} {tokens : List Leaf}
    {entries : List Entry} (h : Builds l base tokens entries next) :
    ∀ x ∈ forestFrontier (entries.flatMap (·.trees)),
      l.isExtra x.kind = l.isExtra x.asLexed.kind := by
  induction h with
  | nil => nofun
  | @shift tokens entries extras leaf kind state before lexed skipped proper action next ih =>
    intro x hx
    rw [List.flatMap_append, List.flatMap_singleton, trees_tokenEntry, forestFrontier_append,
      forestFrontier_append, forestFrontier_leaves] at hx
    simp only [List.mem_append, forestFrontier, Tree.frontier, List.append_nil,
      List.mem_singleton] at hx
    rcases hx with hx | hx | rfl
    · exact ih x hx
    · rw [(skipped x (Array.mem_toList_iff.1 hx)).2]
    · rw [Leaf.asLexed_reinterpret, lexed, proper]
      exact hword.of_actionFor proper action
  | @reduce tokens kept popped next kind production state info before action
      produces size goes ih =>
    intro x hx
    apply ih x
    rw [List.flatMap_append, List.flatMap_singleton, forestFrontier_append,
      frontier_closedEntry size, ← forestFrontier_append, ← List.flatMap_append] at hx
    exact hx

private theorem replays_branchOf {kind : Kind} {elements : List Element} {base state : Nat}
    (goes : l.table.goto? base kind = some state)
    (h : Builds l base ((branchOf kind elements base).frontier.map Leaf.asLexed)
      [⟨state, #[(none, branchOf kind elements base)]⟩] next) :
    Replays l next (branchOf kind elements base) := by
  refine ⟨state, ?_, ?_⟩
  · rw [kind_infoOf, state_infoOf]
    exact goes
  · rw [state_infoOf]
    exact h

/-- A visible node that a reduction makes of all that was built on a state is made again, if no
extras are in front. -/
private theorem Builds.replays_of_front {base : Nat} {tokens : List Leaf} {popped : List Entry}
    (h : Builds l base tokens popped next) {kind : Kind} {production state : Nat}
    {info : Table.ProductionInfo}
    (action : l.actionFor (topState base popped) next = (kind, some (.reduce production)))
    (produces : l.table.productions[production]? = some info)
    (size : popped.length = info.fields.size) (goes : l.table.goto? base info.lhs = some state)
    (hvisible : l.isVisible info.lhs = true)
    (hfront : (labelAll l popped info.fields.toList).toList.takeWhile (fun e => l.isTrivia e.2) =
      []) :
    Replays l next (branchOf info.lhs (labelAll l popped info.fields.toList).toList base) := by
  have hmade : Builds l base tokens [closedEntry l info state base popped] next := by
    rw [← List.nil_append popped] at h action
    exact h.reduce action produces size goes
  have hall : (labelAll l popped info.fields.toList).toList.dropWhile (fun e => l.isTrivia e.2) =
      (labelAll l popped info.fields.toList).toList := by
    have hsplit := List.takeWhile_append_dropWhile (p := fun e : Element => l.isTrivia e.2)
      (l := (labelAll l popped info.fields.toList).toList)
    rwa [hfront, List.nil_append] at hsplit
  have hreduced := reduced_visible hvisible (labelAll l popped info.fields.toList) base
  rw [hfront, hall, List.nil_append] at hreduced
  have hentry : closedEntry l info state base popped =
      ⟨state, #[(none, branchOf info.lhs (labelAll l popped info.fields.toList).toList base)]⟩ := by
    rw [closedEntry, Array.toList_inj.1 hreduced]
  rw [hentry] at hmade
  apply replays_branchOf goes
  have htokens := hmade.frontier
  simp only [List.flatMap_singleton, Entry.trees, List.map_cons, List.map_nil, forestFrontier,
    List.append_nil] at htokens
  rwa [← htokens] at hmade

private theorem Builds.replays (hword : l.WordApart) {base : Nat} {tokens : List Leaf}
    {popped : List Entry} (h : Builds l base tokens popped next) {kind : Kind}
    {production state : Nat} {info : Table.ProductionInfo}
    (action : l.actionFor (topState base popped) next = (kind, some (.reduce production)))
    (produces : l.table.productions[production]? = some info)
    (size : popped.length = info.fields.size) (goes : l.table.goto? base info.lhs = some state)
    (hvisible : l.isVisible info.lhs = true) :
    Replays l next (branchOf info.lhs
      ((labelAll l popped info.fields.toList).toList.dropWhile fun e => l.isTrivia e.2) base) := by
  have hlength : popped.length = info.fields.toList.length := by rw [size, Array.length_toList]
  have htrees := treesOf_labelAll l hlength
  have hproper (hfront : ∀ e rest, (labelAll l popped info.fields.toList).toList = e :: rest →
      l.isTrivia e.2 = false) :
      Replays l next (branchOf info.lhs
      ((labelAll l popped info.fields.toList).toList.dropWhile fun e => l.isTrivia e.2) base) := by
    cases hall : (labelAll l popped info.fields.toList).toList with
    | nil =>
      have hreplays := h.replays_of_front action produces size goes hvisible (by rw [hall]; rfl)
      rwa [hall] at hreplays
    | cons e rest =>
      have hfirst := hfront e rest hall
      have hreplays :=
        h.replays_of_front action produces size goes hvisible (by rw [hall]; simp [hfirst])
      rw [hall] at hreplays
      rwa [List.dropWhile_cons_of_neg (by simp [hfirst])]
  rcases h.trim hword with
      hhead | ⟨t, rest, hheaded, hnode⟩ | ⟨extras, rest, trimmed, hextras, rfl, htrimmed, hbuilds⟩
  · -- The first token is no extra, so that an extra cannot be in front.
    refine hproper fun e rest hall => ?_
    rw [treesOf, hall] at htrees
    cases he : e.2 with
    | node info children => rfl
    | leaf x =>
      have hfrontier : forestFrontier (popped.flatMap (·.trees)) =
          x :: forestFrontier (rest.map (·.2)) := by
        rw [← htrees, List.map_cons, he]
        rfl
      have hx := h.isExtra_eq hword x (by rw [hfrontier]; exact List.mem_cons_self)
      have htokens := h.frontier
      rw [hfrontier] at htokens
      exact hx.trans (hhead x.asLexed (by rw [← htokens]; rfl))
  · refine hproper fun e rest' hall => ?_
    rw [treesOf, hall, hheaded] at htrees
    rw [show e.2 = t from (List.cons.inj htrees).1]
    exact isTrivia_of_isNode hnode
  · obtain ⟨hall, first, more, hcons, hfirst⟩ := htrimmed.labelAll hextras hlength
    have htrivia : ∀ e ∈ extras.toList.map (fun x => ((none, .leaf x) : Element)),
        l.isTrivia e.2 = true := by
      intro e he
      obtain ⟨x, hx, rfl⟩ := List.mem_map.1 he
      exact hextras x (Array.mem_toList_iff.1 hx)
    rw [htrimmed.topState_eq] at action
    have hreplays :=
      hbuilds.replays_of_front action produces (htrimmed.length_eq ▸ size) goes hvisible
      (by rw [hcons]; simp [hfirst])
    rwa [hall, List.dropWhile_append_of_pos htrivia, hcons,
      List.dropWhile_cons_of_neg (by simp [hfirst]), ← hcons]

/-! ## Entries and nodes on the stack -/

variable {rest rest' : List (Leaf × Bool)} {entries popped : List Entry}

/-- An entry without errors is what the parser makes of its tokens on the state below it, before the
token behind it. -/
def EntriesBuilt (l : Language) (entries : List Entry) (rest : List (Leaf × Bool)) : Prop :=
  ∀ lower base e upper, entries = lower ++ base :: e :: upper →
    (∀ t ∈ e.trees, t.hasError = false) →
    ∀ next, nextOf l (forestLine false (upper.flatMap (·.trees)) ++ rest) = next.map (·, false) →
      Builds l base.state ((forestFrontier e.trees).map Leaf.asLexed) [e] next

/-- Every visible node without errors is made again, before the token behind it. -/
def NodesReplay (l : Language) (ts : List Tree) (rest : List (Leaf × Bool)) : Prop :=
  ∀ i t, Occurs ts i t → Survey.isReusable l t = true →
    ∀ next, nextOf l ((forestLine false ts ++ rest).drop (i + t.frontier.length)) =
      next.map (·, false) → Replays l next t

private theorem EntriesBuilt.below {above : List Entry}
    (h : EntriesBuilt l (entries ++ above) rest) :
    EntriesBuilt l entries (forestLine false (above.flatMap (·.trees)) ++ rest) := by
  intro lower base e upper hentries hclean next hnext
  refine h lower base e (upper ++ above) (by rw [hentries]; simp) hclean next ?_
  rw [List.flatMap_append, forestLine_append, List.append_assoc]
  exact hnext

/-- A push keeps what is below, if it covers the tokens behind it. -/
theorem EntriesBuilt.push {e : Entry} (h : EntriesBuilt l entries rest)
    (hgrows : Grows rest (forestLine false e.trees ++ rest'))
    (hnew : ∀ lower base, entries = lower ++ [base] → (∀ t ∈ e.trees, t.hasError = false) →
      ∀ next, nextOf l rest' = next.map (·, false) →
      Builds l base.state ((forestFrontier e.trees).map Leaf.asLexed) [e] next) :
    EntriesBuilt l (entries ++ [e]) rest' := by
  intro lower base e' upper hentries hclean next hnext
  rcases List.eq_nil_or_concat' upper with rfl | ⟨upper, last, rfl⟩
  · rw [show lower ++ [base, e'] = (lower ++ [base]) ++ [e'] by simp] at hentries
    obtain ⟨hbelow, hlast⟩ := List.append_inj' hentries rfl
    obtain rfl := List.singleton_inj.1 hlast
    exact hnew lower base hbelow hclean next hnext
  · rw [show lower ++ base :: e' :: (upper ++ [last]) = (lower ++ base :: e' :: upper) ++
      [last] by simp] at hentries
    obtain ⟨hbelow, hlast⟩ := List.append_inj' hentries rfl
    obtain rfl := List.singleton_inj.1 hlast
    refine h lower base e' upper hbelow hclean next ?_
    rw [List.flatMap_append, List.flatMap_singleton, forestLine_append, List.append_assoc] at hnext
    exact ((Grows.refl _).append hgrows).nextOf_eq hnext

/-- An entry with an error need not be built. -/
private theorem EntriesBuilt.push_error {e : Entry} (h : EntriesBuilt l entries rest) {t : Tree}
    (ht : t ∈ e.trees) (herror : t.hasError = true)
    (hgrows : Grows rest (forestLine false e.trees ++ rest')) :
    EntriesBuilt l (entries ++ [e]) rest' := by
  refine h.push hgrows fun lower base _ hclean => ?_
  rw [hclean t ht] at herror
  contradiction

/-- Entries without errors that stand on each other are built one after another. -/
theorem EntriesBuilt.builds {lower : List Entry} {base : Entry}
    (h : EntriesBuilt l (lower ++ base :: popped) rest)
    (hconsistent : AllConsistent (popped.flatMap (·.trees)))
    (hclean : ∀ t ∈ popped.flatMap (·.trees), t.hasError = false)
    (hnext : nextOf l rest = next.map (·, false)) :
    Builds l base.state ((forestFrontier (popped.flatMap (·.trees))).map Leaf.asLexed)
      popped next := by
  induction popped generalizing lower base with
  | nil => exact .nil next
  | cons e popped ih =>
    rw [List.flatMap_cons] at hconsistent hclean
    have hupper : AllConsistent (popped.flatMap (·.trees)) :=
      hconsistent.subset (List.subset_append_right _ _)
    have hrest : ∀ t ∈ popped.flatMap (·.trees), t.hasError = false :=
      fun t ht => hclean t (List.mem_append_right _ ht)
    have habove :=
      ih (show EntriesBuilt l ((lower ++ [base]) ++ e :: popped) rest by simpa using h) hupper hrest
    have hline : nextOf l (forestLine false (popped.flatMap (·.trees)) ++ rest) =
        ((firstProper l ((forestFrontier (popped.flatMap (·.trees))).map Leaf.asLexed)).or next).map
        (·, false) := by
      rw [nextOf_append, hnext, forestLine_clean hupper hrest, nextOf_unmarked]
      cases firstProper l ((forestFrontier (popped.flatMap (·.trees))).map Leaf.asLexed) <;> rfl
    have hfirst :=
      h lower base e popped rfl (fun t ht => hclean t (List.mem_append_left _ ht)) _ hline
    rw [List.flatMap_cons, forestFrontier_append, List.map_append]
    exact hfirst.append habove rfl

/-- The nodes stay, if tokens are marked at most, unless they are new. -/
theorem NodesReplay.of_occurs (h : NodesReplay l ts rest)
    (hgrows : Grows (forestLine false ts ++ rest) (forestLine false us ++ rest'))
    (hoccurs : ∀ i t, Occurs us i t → Survey.isReusable l t = true →
      Occurs ts i t ∨
      ∀ next, nextOf l ((forestLine false us ++ rest').drop (i + t.frontier.length)) =
        next.map (·, false) → Replays l next t) :
    NodesReplay l us rest' := by
  intro i t ht hreusable next hnext
  rcases hoccurs i t ht hreusable with hold | hnew
  · exact h i t hold hreusable next ((hgrows.drop _).nextOf_eq hnext)
  · exact hnew next hnext

private theorem not_isReusable_of_hasError {t : Tree} (h : t.hasError = true) :
    Survey.isReusable l t = false := by
  simp [Survey.isReusable, h]

private theorem not_isReusable_leaf {t : Tree} (h : t.isNode = false) :
    Survey.isReusable l t = false := by
  simp [Survey.isReusable, h]

private theorem EntriesBuilt.grow (h : EntriesBuilt l entries rest) (hgrows : Grows rest rest') :
    EntriesBuilt l entries rest' :=
  fun lower base e upper hentries hclean next hnext =>
    h lower base e upper hentries hclean next (((Grows.refl _).append hgrows).nextOf_eq hnext)

private theorem NodesReplay.grow (h : NodesReplay l ts rest) (hgrows : Grows rest rest') :
    NodesReplay l ts rest' :=
  h.of_occurs ((Grows.refl _).append hgrows) fun _ _ ht _ => .inl ht

/-- A node that is no error may be replaced by its children. -/
private theorem NodesReplay.unfold {t : Tree} (h : NodesReplay l (ts ++ t :: us) rest)
    (hnode : t.isNode = true) (herror : t.isErrorNode = false) :
    NodesReplay l (ts ++ (t.children ++ us)) rest := by
  cases t with
  | leaf leaf => contradiction
  | node info children =>
    have hline : Tree.line false (.node info children) = forestLine false children := by
      change forestLine (false || info.isError) children = _
      rw [show info.isError = false from herror]
      rfl
    refine h.of_occurs ?_ fun i u hu _ => .inl ?_
    · rw [forestLine_append, forestLine_append, forestLine_append, forestLine, hline]
      exact .refl _
    · rcases hu.of_append with hbefore | ⟨j, rfl, hbehind⟩
      · exact hbefore.append_left _
      · rcases hbehind.of_append with hinside | ⟨j, rfl, hafter⟩
        · exact Occurs.append_right (.inside hinside) ts
        · exact Occurs.append_right (.later hafter) ts

/-- Leaves add no nodes. -/
theorem NodesReplay.append_leaves {ls : List Leaf}
    (h : NodesReplay l ts (forestLine false (ls.map .leaf) ++ rest)) :
    NodesReplay l (ts ++ ls.map .leaf) rest := by
  refine h.of_occurs ?_ fun i t ht hreusable => ?_
  · rw [forestLine_append, List.append_assoc]
    exact .refl _
  · rcases ht.of_append with hold | ⟨j, -, hleaf⟩
    · exact .inl hold
    · rw [not_isReusable_leaf hleaf.isNode_leaves] at hreusable
      contradiction

/-- The nodes stay when some trees, with leaves behind them, are closed into an error. -/
theorem NodesReplay.close {inner : List Tree} {ls : List Leaf} (state : Nat)
    (h : NodesReplay l (ts ++ inner) rest)
    (hgrows : Grows rest (ls.map (fun x => (x.asLexed, true)) ++ rest')) :
    NodesReplay l (ts ++ [.errorNode (inner ++ ls.map .leaf) state]) rest' := by
  refine h.of_occurs ?_ fun i t ht hreusable => ?_
  · rw [forestLine_append, forestLine_append, forestLine_errorNode, forestFrontier_append,
      forestFrontier_leaves, List.map_append, List.append_assoc, List.append_assoc,
      List.append_assoc]
    exact (Grows.refl _).append ((Grows.inError inner).append hgrows)
  · rcases ht.of_append with hold | ⟨j, rfl, herror⟩
    · exact .inl (hold.append_left inner)
    · cases herror with
      | here =>
        rw [not_isReusable_of_hasError (hasError_errorNode _ _)] at hreusable
        contradiction
      | inside below =>
        rcases below.of_append with hinner | ⟨j, -, hleaf⟩
        · exact .inl (hinner.append_right ts)
        · rw [not_isReusable_leaf hleaf.isNode_leaves] at hreusable
          contradiction
      | later behind => cases behind

/-! ## Reductions -/

section
variable {lower : List Entry} {base : Entry} {info : Table.ProductionInfo} {kind : Kind}
  {production state : Nat}

private theorem trees_closedEntry (l : Language) (info : Table.ProductionInfo) (state top : Nat)
    (popped : List Entry) :
    (closedEntry l info state top popped).trees =
      treesOf (reduced l info.lhs (labelAll l popped info.fields.toList) top) := rfl

private theorem forestLine_closedEntry (size : popped.length = info.fields.size) (state top : Nat) :
    forestLine false (closedEntry l info state top popped).trees =
      forestLine false (popped.flatMap (·.trees)) := by
  rw [trees_closedEntry, forestLine_reduced, treesOf_labelAll l (by rw [size, Array.length_toList])]

/-- What a reduction took has no errors, if what it made has none. -/
private theorem noError_of_closedEntry (size : popped.length = info.fields.size) {top : Nat}
    (h : ∀ t ∈ (closedEntry l info state top popped).trees, t.hasError = false) :
    ∀ t ∈ popped.flatMap (·.trees), t.hasError = false := by
  have hany := any_reduced l info.lhs (labelAll l popped info.fields.toList) top
  rw [treesOf_labelAll l (by rw [size, Array.length_toList]), ← trees_closedEntry l info state,
    List.any_eq_false.2 fun t ht => by simp [h t ht]] at hany
  intro t ht
  simpa using List.any_eq_false.1 hany.symm t ht

private theorem EntriesBuilt.reduce (h : EntriesBuilt l (lower ++ [base] ++ popped) rest)
    (hconsistent : AllConsistent (popped.flatMap (·.trees)))
    (size : popped.length = info.fields.size)
    (action : ∀ next, nextOf l rest = next.map (·, false) →
      l.actionFor (topState base.state popped) next = (kind, some (.reduce production)))
    (produces : l.table.productions[production]? = some info)
    (goes : l.table.goto? base.state info.lhs = some state) :
    EntriesBuilt l (lower ++ [base] ++ [closedEntry l info state base.state popped]) rest := by
  refine h.below.push (by rw [forestLine_closedEntry size]; exact .refl _)
    fun lower' base' hbase hclean next hnext => ?_
  obtain ⟨-, hlast⟩ := List.append_inj' hbase rfl
  obtain rfl := List.singleton_inj.1 hlast
  rw [List.append_assoc] at h
  have hbuilt := h.builds hconsistent (noError_of_closedEntry size hclean) hnext
  have haction := action next hnext
  rw [← List.nil_append popped] at hbuilt haction
  have hmade := hbuilt.reduce haction produces size goes
  rw [frontier_closedEntry size]
  exact hmade

private theorem NodesReplay.reduce (h : NodesReplay l (ts ++ popped.flatMap (·.trees)) rest)
    (hword : l.WordApart) (hentries : EntriesBuilt l (lower ++ [base] ++ popped) rest)
    (hconsistent : AllConsistent (popped.flatMap (·.trees)))
    (size : popped.length = info.fields.size)
    (action : ∀ next, nextOf l rest = next.map (·, false) →
      l.actionFor (topState base.state popped) next = (kind, some (.reduce production)))
    (produces : l.table.productions[production]? = some info)
    (goes : l.table.goto? base.state info.lhs = some state)
    (hextras : ∀ x ∈ forestFrontier (popped.flatMap (·.trees)), l.isExtra x.kind = true →
      x.isError = false) :
    NodesReplay l (ts ++ (closedEntry l info state base.state popped).trees) rest := by
  have htrees := treesOf_labelAll l
    (show popped.length = info.fields.toList.length by rw [size, Array.length_toList])
  refine h.of_occurs ?_ fun i t ht hreusable => ?_
  · rw [forestLine_append, forestLine_append, forestLine_closedEntry size]
    exact .refl _
  rcases ht.of_append with hold | ⟨j, rfl, hnew⟩
  · exact .inl (hold.append_left _)
  rcases occurs_reduced hnew with hold | ⟨hvisible, rfl, hend⟩
  · rw [htrees] at hold
    exact .inl (hold.append_right _)
  -- The new node has no errors, and the extras that stay in front of it have none either.
  right
  intro next hnext
  have hline :
      (forestLine false (ts ++ (closedEntry l info state base.state popped).trees)).length =
        (forestFrontier ts).length + j +
      (branchOf info.lhs ((labelAll l popped info.fields.toList).toList.dropWhile
        fun e => l.isTrivia e.2) base.state).frontier.length := by
    rw [length_forestLine, forestFrontier_append, List.length_append, frontier_closedEntry size,
      ← htrees, ← hend, Nat.add_assoc]
  rw [← hline, List.drop_left] at hnext
  have hclean : ∀ t ∈ popped.flatMap (·.trees), t.hasError = false := by
    have hnode :
        (branchOf info.lhs ((labelAll l popped info.fields.toList).toList.dropWhile fun e =>
        l.isTrivia e.2) base.state).hasError = false := by
      simp only [Survey.isReusable, Bool.and_eq_true, Bool.not_eq_true'] at hreusable
      exact hreusable.1.2
    rw [hasError_branchOf, List.any_eq_false] at hnode
    intro t ht
    rw [← htrees, treesOf,
      ← List.takeWhile_append_dropWhile (p := fun e : Element => l.isTrivia e.2)
      (l := (labelAll l popped info.fields.toList).toList), List.map_append, List.mem_append] at ht
    rcases ht with hfront | hinner
    · obtain ⟨e, he, rfl⟩ := List.mem_map.1 hfront
      have htrivia := List.all_eq_true.1 List.all_takeWhile e he
      cases hleaf : e.2 with
      | node info children =>
        rw [hleaf] at htrivia
        contradiction
      | leaf x =>
        rw [hleaf] at htrivia
        refine hextras x ?_ htrivia
        have hmem : e.2 ∈ popped.flatMap (·.trees) := by
          rw [← htrees]
          exact List.mem_map_of_mem ((List.takeWhile_sublist _).subset he)
        rw [forestFrontier_eq_flatMap]
        exact List.mem_flatMap.2 ⟨e.2, hmem, by rw [hleaf]; exact List.mem_cons_self⟩
    · simpa using hnode t hinner
  rw [List.append_assoc] at hentries
  exact (hentries.builds hconsistent hclean hnext).replays hword (action next hnext) produces
    size goes hvisible

end

/-! ## Runs -/

namespace Stack

theorem entries_append (s : Stack) (t : Tree) :
    (s.append t).entries = s.below.reverse ++ [s.top.pushTree t] := by
  simp [entries, append]

theorem entries_eq (s : Stack) : s.entries = s.below.reverse ++ [s.top] := by
  simp [entries]

end Stack

private theorem trees_pushTree (e : Entry) (t : Tree) : (e.pushTree t).trees = e.trees ++ [t] := by
  simp [Entry.trees, Entry.pushTree]

/-- Trees and skipped tokens are closed into an error on top of some entries. -/
theorem EntriesBuilt.close {lower above : List Entry} {top : Entry} {ls : List Leaf} (state : Nat)
    (h : EntriesBuilt l (lower ++ [top] ++ above) rest)
    (hgrows : Grows rest (ls.map (fun x => (x.asLexed, true)) ++ rest')) :
    EntriesBuilt l
      (lower ++ [top.pushTree (.errorNode (above.flatMap (·.trees) ++ ls.map .leaf) state)])
      rest' := by
  let error : Tree := .errorNode (above.flatMap (·.trees) ++ ls.map .leaf) state
  have htrees : (top.pushTree error).trees = top.trees ++ [error] := trees_pushTree top error
  refine h.below.below.push_error (t := error) ?_ (hasError_errorNode _ _) ?_
  · rw [htrees]
    exact List.mem_append_right _ List.mem_cons_self
  · rw [List.flatMap_singleton, htrees, forestLine_append, forestLine_errorNode,
      forestFrontier_append, forestFrontier_leaves, List.map_append, List.append_assoc,
      List.append_assoc]
    exact (Grows.refl _).append ((Grows.inError _).append hgrows)

namespace Machine

variable {k : Compilation} {job : Job} {m : Machine}

/-- The line of tokens behind the stack. -/
def behind (job : Job) (m : Machine) : List (Leaf × Bool) :=
  m.recovery.skipped.toList.map (fun x => (x.asLexed, true)) ++ (job.ahead m).map fun x =>
    (x.asLexed, x.isError)

/-- What is on the stack is made again, and tokens that were read as extras are no errors. -/
structure Replayable (job : Job) (m : Machine) : Prop where
  entries : EntriesBuilt job.language m.stack.entries (m.behind job)
  nodes : NodesReplay job.language m.stack.trees (m.behind job)
  extras : ∀ x ∈ forestFrontier m.stack.trees ++ m.recovery.skipped.toList,
    job.language.isExtra x.kind = true → x.isError = false

private theorem replayable_start (job : Job) : Replayable job {} where
  entries lower base e upper h := by
    have hlength := congrArg List.length h
    simp only [Stack.entries, Stack.initial, List.length_reverse, List.length_append,
      List.length_cons, List.length_nil] at hlength
    omega
  nodes i t h := by cases h
  extras x h := by contradiction

private theorem Replayable.collectExtras (h : m.Replayable job) :
    (job.collectExtras m).Replayable job := by
  have hbehind : (job.collectExtras m).behind job = m.behind job := by
    rw [behind, Job.collectExtras_recovery, Job.ahead_collectExtras, behind]
  constructor
  · rw [Job.collectExtras_stack, hbehind]
    exact h.entries
  · rw [Job.collectExtras_stack, hbehind]
    exact h.nodes
  · rw [Job.collectExtras_stack, Job.collectExtras_recovery]
    exact h.extras

private theorem Replayable.flush (h : m.Replayable job) : m.flush.Replayable job := by
  unfold Machine.flush
  split
  · exact h
  · next state hstate =>
    by_cases hnone : m.recovery.skipped.isEmpty
    · have hskipped : m.recovery.skipped = #[] := by simpa using hnone
      rw [if_pos hnone]
      have hbehind : behind job
          { m with recovery := { m.recovery with errorState := none, skipped := #[] } } =
            m.behind job := by
        rw [behind, behind, hskipped]
        rfl
      refine ⟨?_, ?_, fun x hx => h.extras x ?_⟩
      · rw [hbehind]
        exact h.entries
      · rw [hbehind]
        exact h.nodes
      · rw [hskipped]
        exact hx
    · rw [if_neg hnone]
      refine ⟨?_, ?_, fun x hx => h.extras x ?_⟩
      · have hentries := h.entries
        rw [Stack.entries_eq, ← List.append_nil (_ ++ _)] at hentries
        have hclosed := hentries.close state
          (show Grows _ (m.recovery.skipped.toList.map (fun x => (x.asLexed, true)) ++ _)
          from .refl _)
        simp only [Stack.entries_append]
        exact hclosed
      · have hnodes := h.nodes
        rw [← List.append_nil m.stack.trees] at hnodes
        have hclosed := hnodes.close state
          (show Grows _ (m.recovery.skipped.toList.map (fun x => (x.asLexed, true)) ++ _)
          from .refl _)
        simp only [trees_append]
        exact hclosed
      · simpa [forestFrontier] using hx

/-- The push of a token. -/
theorem Replayable.shift (h : m.Replayable job) (hjob : job.Scratch k)
    (hword : job.language.WordApart) (hlossless : m.Lossless job) (hwaiting : job.WaitingExtras m)
    (hat : job.AtToken m) {leaf : Leaf} {kind : Kind} {next : Nat}
    (here : job.leaf? m.position = some leaf)
    (action : job.language.actionFor m.stack.top.state (some leaf) = (kind, some (.shift next))) :
    (m.flush.push next (.leaf (leaf.reinterpret kind)) 1).Replayable job := by
  have hflush := h.flush
  have hskipped : m.flush.recovery.skipped = #[] := hlossless.flush.idle (flush_errorState m)
  have hproper := hat leaf here
  have hmem {x : Leaf} (hx : x ∈ m.pending) : x ∈ job.leaves :=
    hlossless.ahead_subset (List.mem_append_left _ (Array.mem_toList_iff.2 hx))
  let pushed : List Leaf := m.pending.toList ++ [leaf.reinterpret kind]
  let e : Entry := tokenEntry next m.pending (leaf.reinterpret kind)
  have htrees : e.trees = pushed.map .leaf := by
    rw [trees_tokenEntry, List.map_append]
    rfl
  have hentries : (m.flush.push next (.leaf (leaf.reinterpret kind)) 1).stack.entries =
      m.flush.stack.entries ++ [e] := by
    rw [push, entries_push, pending_flush]
    rfl
  have hbehind : m.flush.behind job = forestLine false (pushed.map .leaf) ++
      (m.flush.push next (.leaf (leaf.reinterpret kind)) 1).behind job := by
    have hlater : job.ahead (m.flush.push next (.leaf (leaf.reinterpret kind)) 1) =
        job.leaves.drop (m.position + 1) := by
      rw [Job.ahead, push, flush_position]
      rfl
    have hnothing : (m.flush.push next (.leaf (leaf.reinterpret kind)) 1).recovery.skipped = #[] :=
      hskipped
    rw [behind, behind, hskipped, hnothing, hlater, Job.ahead, pending_flush, flush_position,
      Job.drop_of_leaf? here, forestLine_leaves]
    simp [pushed]
  refine ⟨?_, ?_, ?_⟩
  · rw [hentries]
    refine hflush.entries.push (by rw [hbehind, htrees]; exact .refl _)
      fun lower base hbase _ behind _ => ?_
    have hstate : base.state = m.stack.top.state := by
      rw [Stack.entries_eq] at hbase
      obtain ⟨-, htop⟩ := List.append_inj' hbase rfl
      rw [← (List.singleton_inj.1 htop), top_flush]
    rw [← hstate] at action
    have hnil : Builds job.language base.state [] [] (some leaf) := .nil _
    have hbuilt := hnil.shift (hjob.lexed leaf (Job.Scratch.mem_of_leaf? here))
      (fun x hx => ⟨hwaiting x hx, hjob.lexed x (hmem hx)⟩) hproper action behind
    have htokens := hbuilt.frontier
    rw [List.nil_append, List.flatMap_singleton] at htokens
    rw [htokens]
    exact hbuilt
  · have hnodes := hflush.nodes
    rw [hbehind] at hnodes
    have hpushed := hnodes.append_leaves
    rw [Stack.trees_eq, hentries, List.flatMap_append, List.flatMap_singleton, htrees]
    exact hpushed
  · intro x hx hextra
    rw [Stack.trees_eq, hentries, List.flatMap_append, List.flatMap_singleton, htrees,
      forestFrontier_append, forestFrontier_leaves, List.append_assoc, List.mem_append] at hx
    rcases hx with hx | hx
    · exact hflush.extras x (List.mem_append_left _ hx) hextra
    · have hnothing : (m.flush.push next (.leaf (leaf.reinterpret kind)) 1).recovery.skipped =
          #[] := hskipped
      rw [hnothing, Array.toList_empty, List.append_nil] at hx
      rcases List.mem_append.1 hx with hx | hx
      · exact hjob.isError_of_extra (hmem (Array.mem_toList_iff.1 hx)) hextra
      · rw [List.mem_singleton.1 hx] at hextra
        have hread : job.language.isExtra (leaf.reinterpret kind).kind = false :=
          hword.of_actionFor hproper action
        rw [hread] at hextra
        contradiction

/-- An unmarked token behind the stack is the one that the machine reads. -/
private theorem leaf?_of_nextOf (hlossless : m.Lossless job) (hlexed : job.Lexed)
    (hwaiting : job.WaitingExtras m) (hat : job.AtToken m) {next : Option Leaf}
    (hnext : nextOf job.language (m.behind job) = next.map (·, false)) :
    job.leaf? m.position = next := by
  have hahead : (job.ahead m).map (fun x => (x.asLexed, x.isError)) =
      (job.ahead m).map fun x => (x, x.isError) :=
    List.map_congr_left fun x hx => by rw [hlexed x (hlossless.ahead_subset hx)]
  have hfind : nextOf job.language ((job.ahead m).map fun x => (x, x.isError)) =
      (firstProper job.language (job.ahead m)).map fun x => (x, x.isError) := by
    rw [nextOf, List.find?_map, firstProper]
    rfl
  rw [behind, nextOf_append, hahead, hfind] at hnext
  rw [Job.leaf?_eq_firstProper hat hwaiting]
  cases hskipped : nextOf job.language
    (m.recovery.skipped.toList.map fun x => (x.asLexed, true)) with
  | some p =>
    rw [hskipped] at hnext
    obtain ⟨x, -, rfl⟩ := List.mem_map.1 (List.mem_of_find?_eq_some hskipped)
    cases next <;> simp at hnext
  | none =>
    rw [hskipped, Option.none_or] at hnext
    cases hfirst : firstProper job.language (job.ahead m) with
    | none =>
      rw [hfirst] at hnext
      cases next with
      | none => rfl
      | some y => contradiction
    | some x =>
      rw [hfirst] at hnext
      cases next with
      | none => contradiction
      | some y => exact congrArg (fun p : Option (Leaf × Bool) => p.map (·.1)) hnext

/-- A reduction. -/
theorem Replayable.reduce (h : m.Replayable job) (hword : job.language.WordApart)
    (hlossless : m.Lossless job) (hlexed : job.Lexed) (hwaiting : job.WaitingExtras m)
    (hat : job.AtToken m) {kind : Kind} {production next : Nat} {info : Table.ProductionInfo}
    (action : job.language.actionFor m.stack.top.state (job.leaf? m.position) =
      (kind, some (.reduce production)))
    (applies : job.reduction? m production = some (info, next)) :
    (m.reduced job.language info next).Replayable job := by
  obtain ⟨produces, state, huncovered, goes⟩ := Job.reduction?_eq_some_iff.1 applies
  have hsize := length_popped huncovered
  have hsplit := entries_uncovered m.stack info.fields.size
  have htop := top_uncovered huncovered
  have hreduced : (m.reduced job.language info next).stack.entries =
      (m.stack.uncovered info.fields.size).entries ++
        [closedEntry job.language info next state (m.stack.popped info.fields.size)] := by
    rw [reduced, reduce_eq, entries_push, handle, htop]
    rfl
  have htrees : (m.stack.uncovered info.fields.size).trees ++
      (m.stack.popped info.fields.size).flatMap (·.trees) = m.stack.trees :=
    trees_uncovered m.stack info.fields.size
  generalize m.stack.popped info.fields.size = popped at hsize hsplit hreduced htrees
  generalize m.stack.uncovered info.fields.size = below at hsplit htop hreduced htrees
  have hconsistent : AllConsistent (popped.flatMap (·.trees)) :=
    hlossless.consistent.subset (by rw [← htrees]; exact List.subset_append_right _ _)
  -- Where the token behind is unmarked, it is the one before which the reduction was made.
  have haction (next : Option Leaf)
      (hnext : nextOf job.language (m.behind job) = next.map (·, false)) :
      job.language.actionFor (topState state popped) next = (kind, some (.reduce production)) := by
    rw [← leaf?_of_nextOf hlossless hlexed hwaiting hat hnext, ← action,
      ← topState_entries m.stack 0, ← hsplit, topState_append, topState_entries, htop]
  have hentries := h.entries
  rw [← hsplit, Stack.entries_eq] at hentries
  subst htop
  have hfrontier : forestFrontier (m.reduced job.language info next).stack.trees =
      forestFrontier m.stack.trees :=
    frontier_reduce huncovered next
  refine ⟨?_, ?_, ?_⟩
  · rw [hreduced, Stack.entries_eq below]
    exact hentries.reduce hconsistent hsize haction produces goes
  · rw [Stack.trees_eq, hreduced, List.flatMap_append, List.flatMap_singleton, ← Stack.trees_eq]
    have hnodes := h.nodes
    rw [← htrees] at hnodes
    refine hnodes.reduce hword hentries hconsistent hsize haction produces goes fun x hx =>
      h.extras x ?_
    rw [← htrees, forestFrontier_append]
    exact List.mem_append_left _ (List.mem_append_right _ hx)
  · rw [hfrontier]
    exact h.extras

/-- Entries and skipped tokens are closed into an error. -/
theorem Replayable.resume (h : m.Replayable job) {p : Nat → Bool} {popped : List Entry}
    {stack : Stack} (hstack : m.stack.unwindTo? p = some (popped, stack)) :
    (m.failed.resume popped stack).Replayable job := by
  have hsplit := entries_unwindTo? hstack
  have htrees := trees_unwindTo? hstack
  refine ⟨?_, ?_, fun x hx => h.extras x ?_⟩
  · have hentries := h.entries
    rw [← hsplit, Stack.entries_eq] at hentries
    have hclosed := hentries.close (m.failed.recovery.errorState.getD stack.top.state)
      (show Grows _ (m.recovery.skipped.toList.map (fun x => (x.asLexed, true)) ++ _) from .refl _)
    simp only [Machine.resume, Stack.entries_append]
    exact hclosed
  · have hnodes := h.nodes
    rw [← htrees] at hnodes
    have hclosed := hnodes.close (m.failed.recovery.errorState.getD stack.top.state)
      (show Grows _ (m.recovery.skipped.toList.map (fun x => (x.asLexed, true)) ++ _) from .refl _)
    simp only [Machine.resume, trees_append]
    exact hclosed
  · rw [← htrees]
    simpa [Machine.resume, failed, Recovery.fail, forestFrontier] using hx

/-- A token is skipped, with the extras that wait. -/
theorem Replayable.skip (h : m.Replayable job) (hjob : job.Scratch k) (hlossless : m.Lossless job)
    (hat : job.AtToken m) {leaf : Leaf} (here : job.leaf? m.position = some leaf) :
    (m.failed.skip leaf).Replayable job := by
  have hbehind : Grows (m.behind job) ((m.failed.skip leaf).behind job) := by
    have hahead : job.ahead (m.failed.skip leaf) = job.leaves.drop (m.position + 1) := rfl
    have hskipped : (m.failed.skip leaf).recovery.skipped =
        (m.recovery.skipped ++ m.pending).push leaf := rfl
    rw [behind, behind, hahead, hskipped, Job.ahead, Job.drop_of_leaf? here]
    simp only [Array.toList_push, Array.toList_append, List.map_append, List.map_cons, List.map_nil,
      List.append_assoc]
    refine (Grows.refl _).append (Grows.append ?_ (.cons ⟨rfl, by simp⟩ (Grows.refl _)))
    exact List.forall₂_map_left_iff.2
      (List.forall₂_map_right_iff.2 (List.forall₂_same.2 fun x _ => ⟨rfl, by simp⟩))
  refine ⟨h.entries.grow hbehind, h.nodes.grow hbehind, fun x hx hextra => ?_⟩
  have hskipped : (m.failed.skip leaf).recovery.skipped.toList = m.recovery.skipped.toList ++
      (m.pending.toList ++ [leaf]) := by
    simp [Machine.skip, failed, Recovery.fail]
  rw [hskipped, ← List.append_assoc] at hx
  rcases List.mem_append.1 hx with hx | hx
  · exact h.extras x hx hextra
  · rcases List.mem_append.1 hx with hx | hx
    · exact hjob.isError_of_extra (hlossless.ahead_subset (List.mem_append_left _ hx)) hextra
    · rw [List.mem_singleton.1 hx, hat leaf here] at hextra
      contradiction

/-- The nodes of an accepted text. -/
theorem Replayable.accept (h : m.Replayable job) (hskipped : m.recovery.skipped = #[])
    (hend : job.leaf? m.position = none) (start : Kind) :
    NodesReplay job.language (m.accept start).root.children [] := by
  have hbehind : m.behind job = forestLine false (m.pending.toList.map .leaf) ++ [] := by
    rw [behind, hskipped, Job.ahead, Job.drop_of_leaf?_eq_none hend, forestLine_leaves]
    simp
  have hnodes := h.nodes
  rw [hbehind] at hnodes
  have hall := hnodes.append_leaves
  change NodesReplay _ (m.stack.root start (leafTrees m.pending)).children []
  rcases root_cases m.stack start (leafTrees m.pending) with
      ⟨before, e, after, helements, hstart, -, hroot⟩ | ⟨-, hroot⟩
  · have htop : m.stack.top.trees = before.map (·.2) ++ e.2 :: after.map (·.2) := by
      simp [Entry.trees, helements]
    have hchildren : (m.stack.root start (leafTrees m.pending)).children =
        (m.stack.treesBelow ++ before.map (·.2)) ++
          (e.2.children ++ (after.map (·.2) ++ leafTrees m.pending)) := by
      rw [hroot]
      change List.map _ _ = _
      rw [List.map_append, List.map_append, map_bare_snd, map_bare_snd, labelledChildren_snd]
      simp
    simp only [isStart, Bool.and_eq_true, Bool.not_eq_true'] at hstart
    rw [hchildren]
    apply NodesReplay.unfold _ hstart.1.1 hstart.2
    rw [trees_eq_treesBelow, htop] at hall
    simpa [leafTrees] using hall
  · rw [hroot]
    change NodesReplay _ (List.map _ _) []
    rw [map_bare_snd]
    exact hall

/-- The nodes of a text that is given up. -/
theorem Replayable.abandon (h : m.Replayable job) :
    NodesReplay job.language (m.abandon job).root.children [] := by
  let rest :=
    m.recovery.skipped ++ m.pending ++ (job.stream.extract m.position job.stream.size).map (·.leaf)
  have hrest : rest.toList = m.recovery.skipped.toList ++ job.ahead m := toList_rest job m
  have hbehind : Grows (m.behind job) (rest.toList.map (fun x => (x.asLexed, true)) ++ []) := by
    rw [hrest, List.append_nil, List.map_append, behind]
    refine (Grows.refl _).append ?_
    exact List.forall₂_map_left_iff.2
      (List.forall₂_map_right_iff.2 (List.forall₂_same.2 fun x _ => ⟨rfl, by simp⟩))
  change NodesReplay _
      (m.stack.trees ++ if (leafTrees rest).isEmpty then [] else [.errorNode (leafTrees rest) _]) []
  split
  · next hempty =>
    have hnone : rest.toList = [] := List.map_eq_nil_iff.1 (List.isEmpty_iff.1 hempty)
    rw [hnone] at hbehind
    rw [List.append_nil]
    exact h.nodes.grow hbehind
  · have hnodes := h.nodes
    rw [← List.append_nil m.stack.trees] at hnodes
    exact hnodes.close _ hbehind

end Machine

namespace Job

variable {k : Compilation} {job : Job} {m : Machine}

/-- What a run keeps up. -/
structure Keeps (job : Job) (m : Machine) : Prop where
  lossless : m.Lossless job
  waiting : job.WaitingExtras m
  replayable : m.Replayable job

private theorem Keeps.collectExtras (h : job.Keeps m) : job.Keeps (job.collectExtras m) :=
  ⟨h.lossless.collectExtras, waitingExtras_collectExtras h.waiting, h.replayable.collectExtras⟩

private theorem keeps_of_act (hjob : job.Scratch k) (hword : job.language.WordApart)
    (hat : job.AtToken m) {progress : Progress} (hact : Act job m progress) (h : job.Keeps m) :
    progress.Satisfies job.Keeps fun o => NodesReplay job.language o.root.children [] := by
  have hlossless := lossless_of_act hjob.sound hact h.lossless
  have hnothing : ∀ leaf ∈ (#[] : Array Leaf), job.language.isExtra leaf.kind = true := nofun
  cases hact with
  | reuse found =>
    rw [hjob.reusable?] at found
    contradiction
  | shift fresh here action =>
    exact ⟨hlossless, hnothing, h.replayable.shift hjob hword h.lossless h.waiting hat here action⟩
  | reduce fresh action applies room =>
    exact ⟨hlossless, h.waiting,
      h.replayable.reduce hword h.lossless hjob.lexed h.waiting hat action applies⟩
  | accept fresh action =>
    have hend : job.leaf? m.flush.position = none := by
      rw [Machine.flush_position]
      cases hleaf : job.leaf? m.position with
      | none => rfl
      | some leaf =>
        rw [hleaf] at action
        exact absurd action (hjob.sound.accept _ leaf _ (Scratch.mem_of_leaf? hleaf))
    exact h.replayable.flush.accept (h.lossless.flush.idle (Machine.flush_errorState m)) hend _
  | resume fresh action found => exact ⟨hlossless, h.waiting, h.replayable.resume found⟩
  | skip fresh here action =>
    exact ⟨hlossless, hnothing, h.replayable.skip hjob h.lossless hat here⟩
  | giveUp fresh action =>
    have hfailed : m.failed.Replayable job :=
      ⟨h.replayable.entries, h.replayable.nodes, h.replayable.extras⟩
    exact hfailed.abandon
  | stuck fresh action fails => exact h.replayable.abandon
  | overrun fresh action applies full => exact h.replayable.abandon
  | shiftAtEnd fresh here action => exact h.replayable.flush.abandon

theorem replays_run (hjob : job.Scratch k) (hword : job.language.WordApart) :
    NodesReplay job.language (job.run {}).root.children [] := by
  let good (o : Outcome) : Prop := NodesReplay job.language o.root.children []
  change good (job.run {})
  refine run_of_invariant (fun m hm => ?_)
    (show job.Keeps {} from ⟨Machine.lossless_start job, nofun, Machine.replayable_start job⟩)
  exact keeps_of_act hjob hword (atToken_collectExtras job m) (step_cases job m) hm.collectExtras

end Job
end Parse

open Reparse.Tree Parse Text

/-- Subtrees are what the parser makes of their tokens again. Below the root of the tree of a text,
a visible node without errors is followed by a token that is no extra, or by the end. If that token
is no error and stands in no error, then on every stack with the state the node was made in on top,
the tokens of the node are read and reduced to the same node, by steps that neither recover nor take
anything from that stack, or the reductions run out. -/
theorem subtree_replays (k : Compilation) (hword : k.language.WordApart) {p : Parser}
    (hp : p.language = k.language) (source : Bytes) {i : Nat} {info : NodeInfo}
    {children : List Tree} (hoccurs : Occurs (p.parse source).root.children i (.node info children))
    (hreusable : Survey.isReusable k.language (.node info children) = true) {next : Option Leaf}
    (hnext : nextOf k.language
      ((forestLine false (p.parse source).root.children).drop
      (i + (forestFrontier children).length)) = next.map (·, false)) :
    ∃ state, k.language.table.goto? info.state info.kind = some state ∧
      ∀ (job : Job) (m : Machine), job.language = k.language → job.reuse = none → m.Idle →
        m.pending = #[] → m.stack.top.state = info.state →
        ∀ later, firstProper k.language later = next →
          job.leaves.drop m.position = (forestFrontier children).map Leaf.asLexed ++ later →
            ∃ n, Relation.ReflTransGen (job.Quiet m.stack) m n ∧
              (n.stack = m.stack.push ⟨state, #[(none, .node info children)]⟩ ∧
                n.recovery = m.recovery ∧ job.ahead n = later ∨ job.Overruns n) := by
  have hlanguage : (p.job source none []).language = k.language := hp
  have hnodes := Job.replays_run (p.scratch_job k hp source) (hlanguage ▸ hword)
  rw [hlanguage] at hnodes
  obtain ⟨state, hgoes, hbuilds⟩ :=
    hnodes i _ hoccurs hreusable next (by rw [List.append_nil]; exact hnext)
  refine ⟨state, hgoes, ?_⟩
  intro job m hjob hreuse hidle hpending hstate later hlater hleaves
  rw [← hjob] at hlater hbuilds
  rw [← hstate] at hbuilds
  have hwaiting : job.WaitingExtras m := by
    intro x hx
    rw [hpending] at hx
    exact absurd hx (Array.not_mem_empty x)
  have hahead : job.ahead m = (forestFrontier children).map Leaf.asLexed ++ later := by
    rw [Job.ahead, hpending]
    exact hleaves
  obtain ⟨n, hreached, hstands | hoverruns⟩ := hbuilds.run hreuse hidle hlater hwaiting hahead
  · refine ⟨n, hreached, .inl ⟨Stack.entries_injective ?_, hstands.recovery, hstands.ahead⟩⟩
    rw [hstands.stack, Stack.entries_push]
  · exact ⟨n, hreached, .inr hoverruns⟩

namespace Keyword

/-- The node of the word between two keywords, in the text kkk. -/
def nameInfo : NodeInfo where
  kind := ⟨5⟩
  length := 1
  leafCount := 1
  isError := false
  hasError := false
  state := 1
  fields := #[]

def nameNode : Tree := .node nameInfo [.leaf (keyword.reinterpret ⟨3⟩)]

theorem wordApart (mode : Table.Mode) : (Compilation.keyword mode).language.WordApart := by
  have hextras : (Compilation.keyword mode).language.extras = #[] := rfl
  intro word _
  simp [Language.isExtra, hextras]

/-- Whether trees are the three that stand below the root of the text kkk. -/
def isSentence : List Tree → Bool
  | [.leaf x, .node info [.leaf y], .leaf z] =>
    x == keyword && info == nameInfo && y == keyword.reinterpret ⟨3⟩ && z == keyword
  | _ => false

private theorem children_of_keywords : ((parser .canonical).parse #[107, 107, 107]).root.children =
    [.leaf keyword, nameNode, .leaf keyword] := by
  have hpasses : (job .canonical [keyword, keyword, keyword]).passes (fun _ => true)
      (fun o => isSentence o.root.children) 9 {} = true := by cbv
  have hsentence := (Job.of_passes hpasses).2
  rw [← job_of_keywords, ← Parser.root_parse] at hsentence
  unfold isSentence at hsentence
  split at hsentence
  · next x info y z hchildren =>
    simp only [Bool.and_eq_true, beq_iff_eq] at hsentence
    obtain ⟨⟨⟨rfl, rfl⟩, rfl⟩, rfl⟩ := hsentence
    exact hchildren
  · contradiction

end Keyword

/-- The word between the keywords of the text kkk is read again between other keywords. -/
theorem subtree_replays_keyword : ∃ n, Relation.ReflTransGen
      ((Keyword.job .canonical [Keyword.keyword, Keyword.keyword]).Quiet
        (Stack.initial.push ⟨1, #[]⟩))
      { stack := Stack.initial.push ⟨1, #[]⟩ } n ∧
    (n.stack = (Stack.initial.push ⟨1, #[]⟩).push ⟨6, #[(none, Keyword.nameNode)]⟩ ∧
      n.recovery = {} ∧
        (Keyword.job .canonical [Keyword.keyword, Keyword.keyword]).ahead n = [Keyword.keyword] ∨
      (Keyword.job .canonical [Keyword.keyword, Keyword.keyword]).Overruns n) := by
  have hoccurs : Occurs ((Keyword.parser .canonical).parse #[107, 107, 107]).root.children
      1 Keyword.nameNode := by
    rw [Keyword.children_of_keywords]
    exact .later .here
  have hnext : nextOf (Compilation.keyword .canonical).language ((forestLine false
      ((Keyword.parser .canonical).parse #[107, 107, 107]).root.children).drop 2) =
        (some Keyword.keyword).map (·, false) := by
    rw [Keyword.children_of_keywords]
    cbv
  obtain ⟨state, hgoes, hreplays⟩ :=
    subtree_replays (.keyword .canonical) (Keyword.wordApart .canonical)
    (p := Keyword.parser .canonical) rfl #[107, 107, 107] hoccurs rfl hnext
  have hsix : (Compilation.keyword .canonical).language.table.goto? 1 ⟨5⟩ = some 6 := by cbv
  obtain rfl : 6 = state := Option.some.inj (hsix.symm.trans hgoes)
  exact hreplays (Keyword.job .canonical [Keyword.keyword, Keyword.keyword])
    { stack := Stack.initial.push ⟨1, #[]⟩ } rfl rfl rfl rfl rfl [Keyword.keyword] (by cbv) rfl

end Reparse

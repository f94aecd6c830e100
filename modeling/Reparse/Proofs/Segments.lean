import Reparse.Proofs.Splicing
import Reparse.Proofs.Trivia

/-! # Segments of a run

What the parser does on top of a state, until the tokens of a segment are read, depends on that
state, on these tokens and on the next token behind them. -/
namespace Reparse.Parse
open Reparse.Tree Stack

/-- The state on top of some entries, top last, that stand on a state. -/
def topState (base : Nat) (entries : List Entry) : Nat := (entries.map (·.state)).getLast?.getD base

/-- What the push of a token puts on the stack. -/
def tokenEntry (next : Nat) (extras : Array Leaf) (leaf : Leaf) : Entry :=
  ⟨next, (extras.map fun l => (none, .leaf l)).push (none, .leaf leaf)⟩

/-- What a reduction puts on the stack. -/
def closedEntry (l : Language) (info : Table.ProductionInfo) (next state : Nat)
    (popped : List Entry) : Entry :=
  ⟨next, reduced l info.lhs (labelAll l popped info.fields.toList) state⟩

/-- On top of a state, the parser makes some entries of some tokens if the next token is the one
given. Extras are read with the token behind them. -/
inductive Builds (l : Language) (base : Nat) : List Leaf → List Entry → Option Leaf → Prop
  | nil (next : Option Leaf) : Builds l base [] [] next
  | shift {tokens : List Leaf} {entries : List Entry} {extras : Array Leaf} {leaf : Leaf}
      {kind : Kind} {state : Nat} (before : Builds l base tokens entries (some leaf))
      (lexed : leaf.asLexed = leaf)
      (skipped : ∀ x ∈ extras, l.isExtra x.kind = true ∧ x.asLexed = x)
      (proper : l.isExtra leaf.kind = false)
      (action : l.actionFor (topState base entries) (some leaf) = (kind, some (.shift state)))
      (next : Option Leaf) :
      Builds l base (tokens ++ (extras.toList ++ [leaf]))
        (entries ++ [tokenEntry state extras (leaf.reinterpret kind)]) next
  | reduce {tokens : List Leaf} {kept popped : List Entry} {next : Option Leaf} {kind : Kind}
      {production state : Nat} {info : Table.ProductionInfo}
      (before : Builds l base tokens (kept ++ popped) next)
      (action : l.actionFor (topState base (kept ++ popped)) next =
        (kind, some (.reduce production)))
      (produces : l.table.productions[production]? = some info)
      (size : popped.length = info.fields.size)
      (goes : l.table.goto? (topState base kept) info.lhs = some state) :
      Builds l base tokens (kept ++ [closedEntry l info state (topState base kept) popped]) next

/-- The first token that is no extra. -/
def firstProper (l : Language) (tokens : List Leaf) : Option Leaf :=
  tokens.find? fun x => !l.isExtra x.kind

variable {l : Language} {base : Nat} {tokens : List Leaf} {entries : List Entry}
  {next : Option Leaf}

@[simp] theorem topState_nil (base : Nat) : topState base [] = base := rfl

@[simp] theorem topState_singleton (base : Nat) (e : Entry) : topState base [e] = e.state := rfl

theorem topState_append (base : Nat) (a b : List Entry) :
    topState base (a ++ b) = topState (topState base a) b := by
  simp only [topState, List.map_append, List.getLast?_append]
  cases (b.map (·.state)).getLast? <;> rfl

theorem trees_tokenEntry (state : Nat) (extras : Array Leaf) (leaf : Leaf) :
    (tokenEntry state extras leaf).trees = extras.toList.map .leaf ++ [.leaf leaf] := by
  simp [tokenEntry, Entry.trees]

theorem frontier_closedEntry {info : Table.ProductionInfo} {popped : List Entry}
    (h : popped.length = info.fields.size) (state top : Nat) :
    forestFrontier (closedEntry l info state top popped).trees =
      forestFrontier (popped.flatMap (·.trees)) := by
  change forestFrontier (treesOf (reduced l info.lhs (labelAll l popped info.fields.toList) top)) =
      _
  rw [frontier_reduced, treesOf_labelAll l (by rw [h, Array.length_toList])]

namespace Builds

/-- The entries have the tokens. -/
theorem frontier (h : Builds l base tokens entries next) :
    (forestFrontier (entries.flatMap (·.trees))).map Leaf.asLexed = tokens := by
  induction h with
  | nil => rfl
  | @shift tokens entries extras leaf kind state before lexed skipped proper action next ih =>
    have hextras : extras.toList.map Leaf.asLexed = extras.toList := by
      rw [List.map_congr_left fun x hx => (skipped x (Array.mem_toList_iff.1 hx)).2]
      exact List.map_id' _
    rw [List.flatMap_append, List.flatMap_singleton, trees_tokenEntry]
    simp [ih, hextras, lexed, forestFrontier, Tree.frontier]
  | reduce before action produces size goes ih =>
    rw [← ih]
    simp only [List.flatMap_append, List.flatMap_singleton, forestFrontier_append,
      frontier_closedEntry size]

/-- A segment goes on with what is built on top of it, if it was built before the first of those
tokens. -/
theorem append {first : Option Leaf} (h : Builds l base tokens entries first) {more : List Leaf}
    {above : List Entry} (habove : Builds l (topState base entries) more above next)
    (hfirst : first = (firstProper l more).or next) :
    Builds l base (tokens ++ more) (entries ++ above) next := by
  induction habove generalizing first with
  | nil next =>
    obtain rfl := hfirst
    rw [List.append_nil, List.append_nil]
    exact h
  | @shift more above extras leaf kind state before lexed skipped proper action next ih =>
    have hleaf : firstProper l (extras.toList ++ [leaf]) = some leaf := by
      have hnone : extras.toList.find? (fun x => !l.isExtra x.kind) = none :=
        List.find?_eq_none.2 fun x hx => by simp [(skipped x (Array.mem_toList_iff.1 hx)).1]
      rw [firstProper, List.find?_append, hnone]
      simp [proper]
    have hbefore : Builds l base (tokens ++ more) (entries ++ above) (some leaf) := ih h (by
      rw [hfirst, firstProper, List.find?_append, ← firstProper, ← firstProper, hleaf]
      cases firstProper l more <;> rfl)
    rw [← topState_append] at action
    simpa only [List.append_assoc] using hbefore.shift lexed skipped proper action next
  | @reduce more kept popped next kind production state info before action produces size goes ih =>
    have hbefore := ih h hfirst
    rw [← topState_append] at action goes
    rw [← List.append_assoc] at action hbefore
    have hreduced := hbefore.reduce action produces size goes
    rwa [topState_append, List.append_assoc] at hreduced

end Builds

/-! ## Leading extras -/

/-- The entries with and without some leading extras, which stand in front of something else. -/
inductive Trimmed (l : Language) (extras : Array Leaf) : List Entry → List Entry → Prop
  | intro {empty after : List Entry} {state : Nat} {elements rest : Array Element}
      (hempty : ∀ e ∈ empty, e.elements = #[])
      (helements : elements.toList = extras.toList.map (fun x => (none, .leaf x)) ++ rest.toList)
      (hrest : ∃ first more, rest.toList = first :: more ∧ l.isTrivia first.2 = false) :
      Trimmed l extras (empty ++ ⟨state, elements⟩ :: after) (empty ++ ⟨state, rest⟩ :: after)

namespace Trimmed

variable {extras : Array Leaf} {kept popped trimmed : List Entry}

private theorem states (h : Trimmed l extras entries trimmed) :
    entries.map (·.state) = trimmed.map (·.state) := by
  cases h
  simp

theorem topState_eq (h : Trimmed l extras entries trimmed) (base : Nat) :
    topState base entries = topState base trimmed := by
  rw [topState, h.states, topState]

theorem length_eq (h : Trimmed l extras entries trimmed) : entries.length = trimmed.length := by
  simpa using congrArg List.length h.states

theorem append_right (h : Trimmed l extras entries trimmed) (above : List Entry) :
    Trimmed l extras (entries ++ above) (trimmed ++ above) := by
  cases h with
  | intro hempty helements hrest =>
    rw [List.append_assoc, List.append_assoc]
    exact .intro hempty helements hrest

theorem append_left (h : Trimmed l extras entries trimmed) (hkept : ∀ e ∈ kept, e.elements = #[]) :
    Trimmed l extras (kept ++ entries) (kept ++ trimmed) := by
  cases h with
  | @intro empty after state elements rest hempty helements hrest =>
    rw [← List.append_assoc, ← List.append_assoc]
    refine .intro (fun e he => ?_) helements hrest
    rcases List.mem_append.1 he with he | he
    · exact hkept e he
    · exact hempty e he

/-- The extras are in one of two parts. -/
theorem of_append (h : Trimmed l extras (kept ++ popped) trimmed) :
    (∃ kept', trimmed = kept' ++ popped ∧ Trimmed l extras kept kept') ∨
      ∃ popped', trimmed = kept ++ popped' ∧ (∀ e ∈ kept, e.elements = #[]) ∧
        Trimmed l extras popped popped' := by
  generalize hall : kept ++ popped = all at h
  cases h with
  | @intro empty after state elements rest hempty helements hrest =>
    rcases List.append_eq_append_iff.1 hall with ⟨between, rfl, rfl⟩ | ⟨between, rfl, hafter⟩
    · right
      refine ⟨between ++ ⟨state, rest⟩ :: after, List.append_assoc ..,
        fun e he => hempty e (List.mem_append_left _ he), ?_⟩
      exact .intro (fun e he => hempty e (List.mem_append_right _ he)) helements hrest
    · cases between with
      | nil =>
        right
        rw [List.nil_append] at hafter
        subst hafter
        refine ⟨⟨state, rest⟩ :: after, by simp, fun e he => hempty e (by simpa using he), ?_⟩
        rw [← List.nil_append (⟨state, elements⟩ :: after),
          ← List.nil_append (⟨state, rest⟩ :: after)]
        exact .intro nofun helements hrest
      | cons e between =>
        left
        obtain ⟨rfl, rfl⟩ := List.cons_eq_cons.1 hafter
        exact ⟨empty ++ ⟨state, rest⟩ :: between, by simp, .intro hempty helements hrest⟩

/-- A field leaves extras alone. -/
private theorem label_extras (hextras : ∀ x ∈ extras, l.isExtra x.kind = true)
    {elements rest : Array Element}
    (h : elements.toList = extras.toList.map (fun x => (none, .leaf x)) ++ rest.toList)
    (field : Option Field) :
    (label l elements field).toList = extras.toList.map (fun x => (none, .leaf x)) ++
      (label l rest field).toList := by
  cases field with
  | none => exact h
  | some f =>
    have hkeeps : (extras.toList.map fun x => ((none, .leaf x) : Element)).map
        (fun e => if e.1.isNone && takesField l e.2 then (some f, e.2) else e) =
          extras.toList.map fun x => (none, .leaf x) := by
      rw [List.map_map]
      apply List.map_congr_left
      intro x hx
      have htrivia : takesField l (.leaf x) = false :=
        takesField_of_trivia (show l.isTrivia (.leaf x) =
          true from hextras x (Array.mem_toList_iff.1 hx))
      simp [htrivia]
    simp only [label, Array.toList_map, h, List.map_append, hkeeps]

/-- What a reduction takes begins with the same extras. -/
theorem labelAll (hextras : ∀ x ∈ extras, l.isExtra x.kind = true)
    (h : Trimmed l extras popped trimmed) {fields : List (Option Field)}
    (hlength : popped.length = fields.length) :
    (labelAll l popped fields).toList =
        extras.toList.map (fun x => (none, .leaf x)) ++ (Parse.labelAll l trimmed fields).toList ∧
      ∃ first more, (Parse.labelAll l trimmed fields).toList = first :: more ∧
        l.isTrivia first.2 = false := by
  cases h with
  | @intro empty after state elements rest hempty helements hrest =>
    have hfields : fields = fields.take empty.length ++ fields.drop empty.length :=
      (List.take_append_drop _ _).symm
    have htaken : empty.length = (fields.take empty.length).length := by
      rw [List.length_take]
      simp only [List.length_append] at hlength
      omega
    obtain ⟨f, later, hdrop⟩ : ∃ f later, fields.drop empty.length = f :: later := by
      refine List.exists_cons_of_ne_nil fun hnil => ?_
      have hle := List.drop_eq_nil_iff.1 hnil
      simp only [List.length_append, List.length_cons] at hlength
      omega
    have hnothing : (empty.zip (fields.take empty.length)).flatMap
        (fun p => (label l p.1.elements p.2).toList) = [] := by
      rw [List.flatMap_eq_nil_iff]
      rintro ⟨e, field⟩ he
      rw [hempty e (List.of_mem_zip he).1]
      cases field with
      | none => rfl
      | some f => simp [label]
    have hparts (els : Array Element) :
        (Parse.labelAll l (empty ++ ⟨state, els⟩ :: after) fields).toList =
        (label l els f).toList ++ (after.zip later).flatMap fun p =>
        (label l p.1.elements p.2).toList := by
      rw [toList_labelAll, hfields, hdrop, List.zip_append htaken, List.flatMap_append, hnothing]
      rfl
    obtain ⟨first, more, hrest, hfirst⟩ := hrest
    rw [hparts, hparts, label_extras hextras helements, List.append_assoc]
    refine ⟨rfl, ?_⟩
    obtain ⟨head, tail, hcons⟩ : ∃ head tail, (label l rest f).toList =
        head :: tail ∧ head.2 = first.2 := by
      have htrees := treesOf_label l rest f
      simp only [treesOf, hrest, List.map_cons] at htrees
      obtain ⟨head, tail, heq, hhead, -⟩ := List.map_eq_cons_iff.1 htrees
      exact ⟨head, tail, heq, hhead⟩
    exact ⟨head, tail ++ _, by rw [hcons.1, List.cons_append], by rw [hcons.2, hfirst]⟩

/-- A reduction leaves the extras in front of what it makes. -/
theorem closedEntry (hextras : ∀ x ∈ extras, l.isExtra x.kind = true)
    (h : Trimmed l extras popped trimmed) {info : Table.ProductionInfo}
    (hsize : popped.length = info.fields.size) (state top : Nat) :
    Trimmed l extras [closedEntry l info state top popped]
      [Parse.closedEntry l info state top trimmed] := by
  obtain ⟨hall, first, more, hcons, hfirst⟩ := h.labelAll hextras
    (show popped.length = info.fields.toList.length by rw [hsize, Array.length_toList])
  rw [← List.nil_append [Parse.closedEntry l info state top popped],
    ← List.nil_append [Parse.closedEntry l info state top trimmed]]
  have htrivia : ∀ e ∈ extras.toList.map (fun x => ((none, .leaf x) : Element)),
      l.isTrivia e.2 = true := by
    intro e he
    obtain ⟨x, hx, rfl⟩ := List.mem_map.1 he
    exact hextras x (Array.mem_toList_iff.1 hx)
  cases hvisible : l.isVisible info.lhs with
  | false =>
    refine .intro nofun ?_ ⟨first, more, ?_, hfirst⟩
    · rw [reduced_hidden hvisible, reduced_hidden hvisible, hall]
    · rw [reduced_hidden hvisible, hcons]
  | true =>
    refine .intro nofun ?_ ⟨(none, branchOf info.lhs (first :: more) top), [], ?_, rfl⟩
    · rw [reduced_visible hvisible, reduced_visible hvisible, hall, hcons,
        List.takeWhile_append_of_pos htrivia, List.dropWhile_append_of_pos htrivia]
      simp [hfirst]
    · rw [reduced_visible hvisible, hcons]
      simp [hfirst]

end Trimmed

/-- What is in front is a node. -/
def Headed (entries : List Entry) : Prop :=
  ∃ t rest, entries.flatMap (·.trees) = t :: rest ∧ t.isNode = true

private theorem Headed.append_right (h : Headed entries) (above : List Entry) :
    Headed (entries ++ above) := by
  obtain ⟨t, rest, htrees, hnode⟩ := h
  exact ⟨t, rest ++ above.flatMap (·.trees), by rw [List.flatMap_append, htrees, List.cons_append],
    hnode⟩

theorem isTrivia_of_isNode {t : Tree} (h : t.isNode = true) : l.isTrivia t = false := by
  cases t with
  | leaf leaf => contradiction
  | node info children => rfl

/-- A reduction makes a node of one that is in front, or leaves it there. -/
theorem Headed.reduce {kept popped : List Entry} (h : Headed (kept ++ popped))
    {info : Table.ProductionInfo} (hsize : popped.length = info.fields.size) (state top : Nat) :
    Headed (kept ++ [closedEntry l info state top popped]) := by
  obtain ⟨t, rest, htrees, hnode⟩ := h
  rw [List.flatMap_append] at htrees
  cases hkept : kept.flatMap (·.trees) with
  | cons u below =>
    rw [hkept, List.cons_append, List.cons.injEq] at htrees
    exact Headed.append_right ⟨u, below, hkept, htrees.1 ▸ hnode⟩ _
  | nil =>
    rw [hkept, List.nil_append, ← treesOf_labelAll l (by rw [hsize, Array.length_toList])] at htrees
    have hentry : (closedEntry l info state top popped).trees =
        treesOf (reduced l info.lhs (labelAll l popped info.fields.toList) top) := rfl
    cases hvisible : l.isVisible info.lhs with
    | false =>
      refine ⟨t, rest, ?_, hnode⟩
      rw [List.flatMap_append, hkept, List.flatMap_singleton, hentry,
        reduced_hidden hvisible, htrees]
      rfl
    | true =>
      obtain ⟨first, more, hcons, rfl, -⟩ := List.map_eq_cons_iff.1 htrees
      refine ⟨branchOf info.lhs (first :: more) top, [], ?_, rfl⟩
      rw [List.flatMap_append, hkept, List.flatMap_singleton, hentry, treesOf,
        reduced_visible hvisible, hcons]
      simp [isTrivia_of_isNode hnode]

/-- The tokens of entries that begin with extras begin with them too, and the parser makes the same
entries without these extras, unless a node is in front of them. -/
theorem Builds.trim (hword : l.WordApart) (h : Builds l base tokens entries next) :
    (∀ x, tokens.head? = some x → l.isExtra x.kind = false) ∨ Headed entries ∨
      ∃ extras rest trimmed, (∀ x ∈ extras, l.isExtra x.kind = true) ∧
        tokens = Array.toList extras ++ rest ∧
        Trimmed l extras entries trimmed ∧ Builds l base rest trimmed next := by
  induction h with
  | nil => exact .inl (by simp)
  | @shift tokens entries extras leaf kind state before lexed skipped proper action next ih =>
    rcases ih with hhead | hheaded | ⟨extras', rest, trimmed, hextras, rfl, htrimmed, hbuilds⟩
    · cases tokens with
      | cons x tokens => exact .inl fun y hy => hhead y hy
      | nil =>
        by_cases hnone : extras.toList = []
        · left
          rw [hnone]
          intro x hx
          rwa [← Option.some.inj hx]
        -- No token was read before, so that what is in front can only be a node.
        · right
          cases htrees : entries.flatMap (·.trees) with
          | cons t more =>
            left
            apply Headed.append_right
            refine ⟨t, more, htrees, ?_⟩
            have hfrontier := before.frontier
            rw [htrees] at hfrontier
            cases t with
            | leaf leaf => simp [forestFrontier, Tree.frontier] at hfrontier
            | node info children => rfl
          | nil =>
            right
            have hempty : ∀ e ∈ entries, e.elements = #[] := by
              intro e he
              have := List.flatMap_eq_nil_iff.1 htrees e he
              simpa [Entry.trees] using this
            refine ⟨extras, [leaf], entries ++ [tokenEntry state #[] (leaf.reinterpret kind)],
              fun x hx => (skipped x hx).1, rfl, ?_, ?_⟩
            · apply Trimmed.append_left _ hempty
              rw [← List.nil_append [tokenEntry state extras (leaf.reinterpret kind)],
                ← List.nil_append [tokenEntry state #[] (leaf.reinterpret kind)]]
              have hleaf : l.isTrivia (.leaf (leaf.reinterpret kind)) = false :=
                hword.of_actionFor proper action
              exact .intro (by simp) (by simp)
                ⟨(none, .leaf (leaf.reinterpret kind)), [], by simp, hleaf⟩
            · have hshifted : Builds l base ([] ++ (Array.toList #[] ++ [leaf])) _ next :=
                before.shift lexed (by simp) proper action next
              exact hshifted
    · exact .inr (.inl (hheaded.append_right _))
    · refine .inr
        (.inr ⟨extras', rest ++ (extras.toList ++ [leaf]), _, hextras, List.append_assoc ..,
        htrimmed.append_right _, ?_⟩)
      rw [htrimmed.topState_eq] at action
      exact hbuilds.shift lexed skipped proper action next
  | @reduce tokens kept popped next kind production state info before action
      produces size goes ih =>
    rcases ih with hhead | hheaded | ⟨extras, rest, trimmed, hextras, rfl, htrimmed, hbuilds⟩
    · exact .inl hhead
    · exact .inr (.inl (hheaded.reduce size _ _))
    · refine .inr (.inr ⟨extras, rest, ?_⟩)
      rw [htrimmed.topState_eq] at action
      rcases htrimmed.of_append with ⟨kept', rfl, hkept⟩ | ⟨popped', rfl, hempty, hpopped⟩
      · rw [hkept.topState_eq] at goes ⊢
        exact ⟨_, hextras, rfl, hkept.append_right _, hbuilds.reduce action produces size goes⟩
      · refine ⟨_, hextras, rfl, (hpopped.closedEntry hextras size _ _).append_left hempty, ?_⟩
        exact hbuilds.reduce action produces (hpopped.length_eq ▸ size) goes

/-! ## Segments are run -/

namespace Stack

variable {s : Stack} {kept popped : List Entry}

theorem topState_entries (s : Stack) (base : Nat) : topState base s.entries = s.top.state := by
  simp [topState, entries]

/-- The parts of a stack of which enough entries are known. -/
private theorem split_of_entries (h : s.entries = kept ++ popped) (hkept : kept ≠ []) (base : Nat) :
    (s.uncovered popped.length).entries = kept ∧ s.popped popped.length = popped ∧
      s.uncovered? popped.length = some (topState base kept) := by
  have hle : popped.length ≤ s.below.length := by
    have hlength := congrArg List.length h
    have hpos := List.length_pos_iff.2 hkept
    simp only [entries, List.length_reverse, List.length_cons, List.length_append] at hlength
    omega
  obtain ⟨state, hstate⟩ := exists_uncovered? hle
  have hsplit := (entries_uncovered s popped.length).trans h
  obtain ⟨hbelow, habove⟩ := List.append_inj' hsplit (length_popped hstate)
  refine ⟨hbelow, habove, ?_⟩
  rw [hstate, ← top_uncovered hstate, ← hbelow, topState_entries]

end Stack

namespace Job

variable {job : Job} {m n : Machine}

/-- A step without recovery that takes nothing from a stack. -/
structure Quiet (job : Job) (stack : Stack) (m n : Machine) : Prop where
  step : job.step m = .next n
  recovery : n.recovery = m.recovery
  above : ∃ entries, entries ≠ [] ∧ n.stack.entries = stack.entries ++ entries

/-- The next step would be a reduction, and there were as many as there may be. -/
def Overruns (job : Job) (m : Machine) : Prop :=
  reductionLimit ≤ m.reductions ∧
    ∃ kind production, job.language.actionFor (job.collectExtras m).stack.top.state
    (job.leaf? (job.collectExtras m).position) = (kind, some (.reduce production))

/-- A machine has read the tokens up to some later ones, and has built some entries on a stack. -/
structure Stands (job : Job) (start : Machine) (entries : List Entry) (later : List Leaf)
    (n : Machine) : Prop where
  stack : n.stack.entries = start.stack.entries ++ entries
  recovery : n.recovery = start.recovery
  waiting : job.WaitingExtras n
  ahead : job.ahead n = later

theorem Stands.collectExtras {entries : List Entry} {later : List Leaf}
    (h : job.Stands m entries later n) :
    job.Stands m entries later (job.collectExtras n) where
  stack := by rw [collectExtras_stack, h.stack]
  recovery := by rw [collectExtras_recovery, h.recovery]
  waiting := waitingExtras_collectExtras h.waiting
  ahead := by rw [ahead_collectExtras, h.ahead]

theorem firstProper_extras {extras : List Leaf}
    (h : ∀ x ∈ extras, job.language.isExtra x.kind = true) (later : List Leaf) :
    firstProper job.language (extras ++ later) = firstProper job.language later := by
  rw [firstProper, List.find?_append, List.find?_eq_none.2 fun x hx => by simp [h x hx]]
  rfl

/-- A machine at a token reads the first proper one of those ahead. -/
theorem leaf?_eq_firstProper (hat : job.AtToken m) (hwaiting : job.WaitingExtras m) :
    job.leaf? m.position = firstProper job.language (job.ahead m) := by
  rw [ahead, firstProper_extras fun x hx => hwaiting x (Array.mem_toList_iff.1 hx)]
  cases hleaf : job.leaf? m.position with
  | none =>
    rw [drop_of_leaf?_eq_none hleaf]
    rfl
  | some leaf =>
    rw [drop_of_leaf? hleaf, firstProper, List.find?_cons_of_pos (by simp [hat leaf hleaf])]

/-- The extras in front of the next token are those that wait. -/
private theorem pending_eq (hat : job.AtToken m) (hwaiting : job.WaitingExtras m)
    {extras : Array Leaf} {leaf : Leaf} {later : List Leaf}
    (hextras : ∀ x ∈ extras, job.language.isExtra x.kind = true)
    (hleaf : job.language.isExtra leaf.kind = false)
    (hahead : job.ahead m = extras.toList ++ leaf :: later) :
    m.pending = extras ∧ job.leaves.drop (m.position + 1) = later := by
  have hproper : job.leaf? m.position = some leaf := by
    rw [leaf?_eq_firstProper hat hwaiting, hahead,
      firstProper_extras fun x hx => hextras x (Array.mem_toList_iff.1 hx), firstProper,
      List.find?_cons_of_pos (by simp [hleaf])]
  rw [ahead, drop_of_leaf? hproper] at hahead
  have hpending := congrArg (List.takeWhile fun x : Leaf => job.language.isExtra x.kind) hahead
  rw [List.takeWhile_append_of_pos fun x hx => hwaiting x (Array.mem_toList_iff.1 hx),
    List.takeWhile_append_of_pos fun x hx => hextras x (Array.mem_toList_iff.1 hx),
    List.takeWhile_cons_of_neg (by simp [hleaf]), List.takeWhile_cons_of_neg (by simp [hleaf]),
    List.append_nil, List.append_nil] at hpending
  rw [hpending] at hahead
  exact ⟨Array.toList_inj.1 hpending, (List.cons.inj (List.append_cancel_left hahead)).2⟩

/-- The push of a token. -/
theorem Stands.shift (hreuse : job.reuse = none) (hidle : m.Idle) {entries : List Entry}
    {extras : Array Leaf} {leaf : Leaf} {later : List Leaf}
    (h : job.Stands m entries (extras.toList ++ leaf :: later) n)
    (hextras : ∀ x ∈ extras, job.language.isExtra x.kind = true)
    (hleaf : job.language.isExtra leaf.kind = false) {kind : Kind} {state : Nat}
    (action : job.language.actionFor (topState m.stack.top.state entries) (some leaf) =
      (kind, some (.shift state))) :
    ∃ n', job.Quiet m.stack n n' ∧ n'.reductions = 0 ∧
      job.Stands m (entries ++ [tokenEntry state extras (leaf.reinterpret kind)]) later n' := by
  have hcollected := h.collectExtras
  have hat := atToken_collectExtras job n
  have hhere : job.leaf? (job.collectExtras n).position = some leaf := by
    rw [leaf?_eq_firstProper hat hcollected.waiting, hcollected.ahead,
      firstProper_extras fun x hx => hextras x (Array.mem_toList_iff.1 hx), firstProper,
      List.find?_cons_of_pos (by simp [hleaf])]
  obtain ⟨hpending, hlater⟩ := pending_eq hat hcollected.waiting hextras hleaf hcollected.ahead
  have htop : (job.collectExtras n).stack.top.state = topState m.stack.top.state entries := by
    rw [← topState_entries _ 0, hcollected.stack, topState_append, topState_entries]
  have hquiet : (job.collectExtras n).Idle := by
    rw [Machine.Idle, hcollected.recovery]
    exact hidle
  have hstep : job.step n =
      .next ((job.collectExtras n).push state (.leaf (leaf.reinterpret kind)) 1) := by
    rw [step, act_of_fresh hreuse, hhere, htop, action, Machine.flush_of_idle hquiet]
  have hstack : ((job.collectExtras n).push state (.leaf (leaf.reinterpret kind)) 1).stack.entries =
      m.stack.entries ++ (entries ++ [tokenEntry state extras (leaf.reinterpret kind)]) := by
    rw [Machine.push, entries_push, hcollected.stack, hpending, List.append_assoc]
    rfl
  refine ⟨_, ⟨hstep, ?_, _, ?_, hstack⟩, rfl, hstack, hcollected.recovery,
    fun x hx => absurd hx (Array.not_mem_empty x), hlater⟩
  · exact hcollected.recovery.trans h.recovery.symm
  · simp

/-- A reduction, if there may be another one. -/
theorem Stands.reduce (hreuse : job.reuse = none) {kept popped : List Entry} {later : List Leaf}
    (h : job.Stands m (kept ++ popped) later n) {kind : Kind} {production state : Nat}
    {info : Table.ProductionInfo}
    (action : job.language.actionFor (topState m.stack.top.state (kept ++ popped))
      (firstProper job.language later) = (kind, some (.reduce production)))
    (produces : job.language.table.productions[production]? = some info)
    (size : popped.length = info.fields.size)
    (goes : job.language.table.goto? (topState m.stack.top.state kept) info.lhs = some state) :
    job.Overruns n ∨ ∃ n', job.Quiet m.stack n n' ∧ n'.reductions = n.reductions + 1 ∧ job.Stands m
      (kept ++ [closedEntry job.language info state (topState m.stack.top.state kept) popped])
        later n' := by
  have hcollected := h.collectExtras
  have hhere : job.leaf? (job.collectExtras n).position = firstProper job.language later := by
    rw [leaf?_eq_firstProper (atToken_collectExtras job n) hcollected.waiting, hcollected.ahead]
  have htop : (job.collectExtras n).stack.top.state =
      topState m.stack.top.state (kept ++ popped) := by
    rw [← topState_entries _ 0, hcollected.stack, topState_append, topState_entries]
  rw [← htop, ← hhere] at action
  rcases Nat.lt_or_ge n.reductions reductionLimit with hroom | hfull
  · right
    have hentries : (job.collectExtras n).stack.entries = m.stack.entries ++ kept ++ popped := by
      rw [hcollected.stack, List.append_assoc]
    obtain ⟨hbelow, habove, huncovered⟩ := split_of_entries hentries (by simp [entries_ne_nil]) 0
    rw [topState_append, topState_entries, size] at huncovered
    rw [size] at hbelow habove
    have happlies : job.reduction? (job.collectExtras n) production = some (info, state) :=
      reduction?_eq_some_iff.2 ⟨produces, _, huncovered, goes⟩
    have hstep : job.step n = .next ((job.collectExtras n).reduced job.language info state) := by
      rw [step, act_of_fresh hreuse, action]
      simp only [happlies, collectExtras_reductions, if_pos hroom]
    have hstack : ((job.collectExtras n).reduced job.language info state).stack.entries =
        m.stack.entries ++
        (kept ++
          [closedEntry job.language info state (topState m.stack.top.state kept) popped]) := by
      rw [Machine.reduced, reduce_eq, entries_push, hbelow, handle, habove,
        top_uncovered huncovered, List.append_assoc]
      rfl
    refine ⟨_, ⟨hstep, ?_, _, ?_, hstack⟩, ?_, hstack, hcollected.recovery,
      hcollected.waiting, hcollected.ahead⟩
    · exact hcollected.recovery.trans h.recovery.symm
    · simp
    · exact congrArg (· + 1) (collectExtras_reductions job n)
  · exact .inl ⟨hfull, kind, production, action⟩

end Job

/-- What can be built of the tokens ahead is built, unless there are too many reductions. -/
theorem Builds.run {job : Job} {m : Machine} (hreuse : job.reuse = none) (hidle : m.Idle)
    (h : Builds job.language m.stack.top.state tokens entries next) {later : List Leaf}
    (hnext : firstProper job.language later = next) (hwaiting : job.WaitingExtras m)
    (hahead : job.ahead m = tokens ++ later) :
    ∃ n, Relation.ReflTransGen (job.Quiet m.stack) m n ∧
      (job.Stands m entries later n ∨ job.Overruns n) := by
  induction h generalizing later with
  | nil next => exact ⟨m, .refl, .inl ⟨(List.append_nil _).symm, rfl, hwaiting, hahead⟩⟩
  | @shift tokens entries extras leaf kind state before lexed skipped proper action next ih =>
    have hextras : ∀ x ∈ extras, job.language.isExtra x.kind = true := fun x hx => (skipped x hx).1
    have hfirst : firstProper job.language (extras.toList ++ leaf :: later) = some leaf := by
      rw [Job.firstProper_extras fun x hx => hextras x (Array.mem_toList_iff.1 hx), firstProper,
        List.find?_cons_of_pos (by simp [proper])]
    obtain ⟨n, hreached, hstands | hoverruns⟩ := ih hfirst (by rw [hahead]; simp)
    · obtain ⟨n', hquiet, -, hstands'⟩ := hstands.shift hreuse hidle hextras proper action
      exact ⟨n', hreached.tail hquiet, .inl hstands'⟩
    · exact ⟨n, hreached, .inr hoverruns⟩
  | reduce before action produces size goes ih =>
    obtain ⟨n, hreached, hstands | hoverruns⟩ := ih hnext hahead
    · rw [← hnext] at action
      rcases hstands.reduce hreuse action produces size goes with
          hoverruns | ⟨n', hquiet, -, hstands'⟩
      · exact ⟨n, hreached, .inr hoverruns⟩
      · exact ⟨n', hreached.tail hquiet, .inl hstands'⟩
    · exact ⟨n, hreached, .inr hoverruns⟩

end Reparse.Parse

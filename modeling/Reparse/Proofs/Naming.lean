import Reparse.Proofs.Blame

/-! # What reports name

A report on an error node does not look for the culprit. It names the first proper token of the
node, or else the next one behind it, and lists the terminals with an action in the state of the
node. The two fit together if that token is the culprit. They may not if the report is on the root
of a text that was given up, whose state is the first one, or if the culprit is overlooked in its
node. -/
namespace Reparse
open Data Grammar Text Parse Reparse.Tree

/-! ## What a report names -/

/-- Terminals are told apart by the names that reports give them. -/
def Language.NamesApart (l : Language) : Prop :=
  ∀ a b, l.isTerminal a = true → l.isTerminal b = true →
    SyntaxTree.displayKind l a = SyntaxTree.displayKind l b → a = b

namespace SyntaxTree

variable {t : SyntaxTree} {significant : Array (Nat × Leaf)} {offset : Nat} {e : SyntaxError}

private theorem exists_of_mem_forestReportsAt {ts : List Tree}
    (he : e ∈ t.forestReportsAt significant offset ts)
    (h : ∀ u ∈ ts, ∀ offset, e ∈ t.reportsAt significant offset u → ∃ i v, Occurs [u] i v ∧
      e ∈ t.reportOn significant (offset + totalLength (u.frontier.take i)) v) :
    ∃ i v, Occurs ts i v ∧ e ∈
      t.reportOn significant (offset + totalLength ((forestFrontier ts).take i)) v := by
  induction ts generalizing offset with
  | nil => contradiction
  | cons u rest ih =>
    rw [forestReportsAt] at he
    rcases List.mem_append.1 he with he | he
    · obtain ⟨i, v, hv, hreport⟩ := h u List.mem_cons_self offset he
      refine ⟨i, v, hv.append_left rest, ?_⟩
      obtain ⟨before, after, hsplit, hlength⟩ := hv.split
      rw [forestFrontier, forestFrontier, List.append_nil] at hsplit
      have hle : i ≤ u.frontier.length := by
        rw [hsplit, List.length_append]
        omega
      rwa [forestFrontier, List.take_append_of_le_length hle]
    · obtain ⟨i, v, hv, hreport⟩ := ih he fun w hw => h w (List.mem_cons_of_mem _ hw)
      refine ⟨_, v, .later hv, ?_⟩
      rw [forestFrontier, List.take_length_add_append, totalLength_append, ← Nat.add_assoc]
      exact hreport

/-- Every report is on a tree at the offset where it stands. -/
private theorem exists_of_mem_reportsAt {u : Tree} (he : e ∈ t.reportsAt significant offset u) :
    ∃ i v, Occurs [u] i v ∧ e ∈
      t.reportOn significant (offset + totalLength (u.frontier.take i)) v := by
  induction u using Tree.induction generalizing offset with
  | leaf l => exact ⟨0, .leaf l, .here, he⟩
  | node info children ih =>
    rw [reportsAt] at he
    rcases List.mem_append.1 he with he | he
    · exact ⟨0, .node info children, .here, by rwa [List.take_zero, totalLength_nil, Nat.add_zero]⟩
    · obtain ⟨i, v, hv, hreport⟩ := exists_of_mem_forestReportsAt he fun u hu _ => ih u hu
      exact ⟨i, v, .inside hv, hreport⟩

/-- Every report is on the root, or on what is below it. -/
private theorem exists_of_mem_errors (ht : t.Faithful) (he : e ∈ t.errors) :
    ∃ i v, (i = 0 ∧ v = t.root ∨ Occurs t.root.children i v) ∧
      e ∈ t.reportOn (t.leaves.filter fun place => !t.language.isExtra place.2.kind)
        (totalLength (t.root.frontier.take i)) v := by
  have herrors : t.hasErrors = true := by
    rw [← Bool.not_eq_false]
    intro hclean
    rw [(errors_eq_empty_iff ht).2 hclean] at he
    exact absurd he (Array.not_mem_empty e)
  have hreports : e ∈ t.reports := by
    rw [← errors_eq_reports ht herrors]
    exact Array.mem_toList_iff.2 he
  obtain ⟨i, v, hoccurs, hreport⟩ := exists_of_mem_reportsAt hreports
  rw [Nat.zero_add] at hreport
  exact ⟨i, v, hoccurs.root_or_below, hreport⟩

/-- The first of some leaves that does not begin before an offset. -/
def nextAfter (significant : Array (Nat × Leaf)) (stop : Nat) : Option Leaf :=
  (significant[partitionPoint significant.size fun i =>
    (significant[i]?.map (·.1)).any (· < stop)]?).map (·.2)

/-- The first proper token of the node that is no error, or else, if there are only extras, the
first proper token behind it. -/
private theorem found_of_reportOn {v : Tree} (he : e ∈ t.reportOn significant offset v)
    {found : String} {expected : List String} (hcause : e.cause = .unexpected found expected) :
    v.isErrorNode = true ∧ expected = expectedNames t.language v.stateOf ∧
      ∃ x, found = displayKind t.language x.kind ∧
        (v.frontier.find? (fun y => !t.language.isExtra y.kind && !y.isError) = some x ∨
          (∀ y ∈ v.frontier, t.language.isExtra y.kind = true) ∧
            nextAfter significant (offset + totalLength v.frontier) = some x) := by
  unfold reportOn at he
  cases v with
  | leaf l =>
    simp only at he
    split at he
    · rw [List.mem_singleton.1 he] at hcause
      contradiction
    · contradiction
  | node info children =>
    simp only at he
    split at he
    · next hreported =>
      rw [Bool.and_eq_true] at hreported
      obtain ⟨herror, hreportable⟩ := hreported
      have hleaves : (significantLeaves t.language (.node info children)).find? (!·.isError) =
          (Tree.node info children).frontier.find?
          (fun y => !t.language.isExtra y.kind && !y.isError) := by
        rw [← Array.find?_toList, significantLeaves, Array.toList_filter, Tree.leaves_toList,
          List.find?_filter]
        congr 1
        funext y
        simp
      rw [List.mem_singleton.1 he] at hcause
      unfold nodeError at hcause
      simp only at hcause
      refine ⟨herror, ?_⟩
      cases hfind : (significantLeaves t.language (.node info children)).find? (!·.isError) with
      | some x =>
        rw [hfind] at hcause
        obtain ⟨rfl, rfl⟩ := SyntaxError.Cause.unexpected.inj hcause
        exact ⟨rfl, x, rfl, .inl (hleaves.symm.trans hfind)⟩
      | none =>
        rw [hfind] at hcause
        simp only at hcause
        split at hcause
        · next kind hkind =>
          obtain ⟨rfl, rfl⟩ := SyntaxError.Cause.unexpected.inj hcause
          obtain ⟨place, hplace, rfl⟩ := Option.map_eq_some_iff.1 hkind
          refine ⟨rfl, place.2, rfl, .inr ⟨fun y hy => ?_, congrArg (Option.map Prod.snd) hplace⟩⟩
          have hempty : (significantLeaves t.language (.node info children)).isEmpty = true := by
            unfold isReportable at hreportable
            rcases Bool.or_eq_true_iff.1 hreportable with hempty | hany
            · exact hempty
            · rw [Array.any_eq_true'] at hany
              obtain ⟨y, hy, hproper⟩ := hany
              exact absurd hproper (Array.find?_eq_none.1 hfind y hy)
          cases hextra : t.language.isExtra y.kind with
          | true => rfl
          | false =>
            have hmem : y ∈ significantLeaves t.language (.node info children) := by
              refine Array.mem_filter.2 ⟨?_, by rw [hextra]; rfl⟩
              rw [← Array.mem_toList_iff, Tree.leaves_toList]
              exact hy
            rw [Array.isEmpty_iff.1 hempty] at hmem
            exact absurd hmem (Array.not_mem_empty y)
        · contradiction
    · contradiction

private theorem map_snd_spans (ls : List Leaf) (offset : Nat) :
    (spans offset ls).map (·.2) = ls := by
  induction ls generalizing offset with
  | nil => rfl
  | cons l rest ih => rw [spans, List.map_cons, ih]

private theorem spans_append (a b : List Leaf) (offset : Nat) :
    spans offset (a ++ b) = spans offset a ++ spans (offset + totalLength a) b := by
  induction a generalizing offset with
  | nil => rfl
  | cons l rest ih =>
    rw [List.cons_append, spans, ih, spans, List.cons_append, totalLength_cons, Nat.add_assoc]

private theorem mem_spans {ls : List Leaf} {offset : Nat} {place : Nat × Leaf}
    (h : place ∈ spans offset ls) :
    place.2 ∈ ls ∧ offset ≤ place.1 ∧ place.1 + place.2.length ≤ offset + totalLength ls := by
  induction ls generalizing offset with
  | nil => contradiction
  | cons l rest ih =>
    rw [totalLength_cons]
    rcases List.mem_cons.1 h with rfl | h
    · exact ⟨List.mem_cons_self, Nat.le_refl _, by simp only; omega⟩
    · obtain ⟨hmem, hle, hstop⟩ := ih h
      exact ⟨List.mem_cons_of_mem _ hmem, by omega, by omega⟩

/-- Behind some leaves, the search by offsets finds the first one that is no extra. -/
theorem nextAfter_eq (ht : t.Faithful) (n : Nat) :
    nextAfter (t.leaves.filter fun place => !t.language.isExtra place.2.kind)
      (totalLength (t.root.frontier.take n)) =
        (t.root.frontier.drop n).find? fun y => !t.language.isExtra y.kind := by
  let proper (place : Nat × Leaf) : Bool := !t.language.isExtra place.2.kind
  let significant := t.leaves.filter proper
  let stop := totalLength (t.root.frontier.take n)
  let before := (spans 0 (t.root.frontier.take n)).filter proper
  let behind := (spans stop (t.root.frontier.drop n)).filter proper
  have hspans : t.leaves.toList = spans 0 t.root.frontier :=
    leaves_toList (by rw [ht.spells]; exact ht.size)
  have hall : significant.toList = before ++ behind := by
    have hsplit := spans_append (t.root.frontier.take n) (t.root.frontier.drop n) 0
    rw [List.take_append_drop, Nat.zero_add] at hsplit
    rw [Array.toList_filter, hspans, hsplit, List.filter_append]
  have hsize : significant.size = before.length + behind.length := by
    rw [← Array.length_toList, hall, List.length_append]
  have hget (i : Nat) : significant[i]? = (before ++ behind)[i]? := by
    rw [← hall, Array.getElem?_toList]
  have hbefore : ∀ place ∈ before, place.1 < stop := by
    intro place hplace
    obtain ⟨hmem, -, hle⟩ := mem_spans (List.mem_of_mem_filter hplace)
    have hpos := ht.nonempty place.2 (List.mem_of_mem_take hmem)
    change _ ≤ 0 + stop at hle
    omega
  have hbehind : ∀ place ∈ behind, stop ≤ place.1 := fun place hplace =>
    (mem_spans (List.mem_of_mem_filter hplace)).2.1
  have hpoint :
      partitionPoint significant.size (fun i => (significant[i]?.map (·.1)).any (· < stop)) =
        before.length := by
    refine partitionPoint_eq (by omega) (fun i hi => ?_) fun i hle hlt => ?_
    · rw [hget, List.getElem?_append_left hi, List.getElem?_eq_getElem hi]
      simpa using hbefore _ (List.getElem_mem hi)
    · have hi : i - before.length < behind.length := by omega
      rw [hget, List.getElem?_append_right hle, List.getElem?_eq_getElem hi]
      simpa using hbehind _ (List.getElem_mem hi)
  change (significant[partitionPoint significant.size fun i =>
      (significant[i]?.map (·.1)).any (· < stop)]?).map (·.2) = _
  rw [hpoint, hget, List.getElem?_append_right (Nat.le_refl _), Nat.sub_self,
    ← List.head?_eq_getElem?, List.head?_filter]
  conv => rhs; rw [← map_snd_spans (t.root.frontier.drop n) stop, List.find?_map]
  rfl

end SyntaxTree

/-! ## Reports that contradict themselves -/

/-- The culprit is in the node, but a report names another token: a proper one before it, or, since
the culprit is unrecognized, one behind it. -/
def Parse.Overlooks (l : Language) (tokens : List Leaf) (i : Nat) (t : Tree) (j : Nat) : Prop :=
  (∃ n x, t.frontier[n]? = some x ∧ i + n < j ∧ l.isExtra x.kind = false ∧ x.isError = false) ∨
    j < i + t.frontier.length ∧ ∃ x, tokens[j]? = some x ∧ x.isError = true

namespace Parse.Blames

variable {l : Language} {tokens leaves : List Leaf} {i j : Nat} {v : Tree} {x : Leaf}

/-- If the first proper token of a node has an action, then it is not the culprit. -/
private theorem overlooks (h : Blames l tokens i v j)
    (hfind : v.frontier.find? (fun y => !l.isExtra y.kind && !y.isError) = some x)
    {action : Table.Action} (haction : l.table.action? v.stateOf x.kind = some action) :
    Overlooks l tokens i v j := by
  have hle := h.le
  obtain ⟨hx, n, hn, rfl, hbefore⟩ := List.find?_eq_some_iff_getElem.1 hfind
  rw [Bool.and_eq_true, Bool.not_eq_true', Bool.not_eq_true'] at hx
  have hget : v.frontier[n]? = some v.frontier[n] := List.getElem?_eq_getElem hn
  rcases Nat.lt_trichotomy (i + n) j with hlt | rfl | hgt
  · exact .inl ⟨n, v.frontier[n], hget, hlt, hx⟩
  · -- The token named is the culprit.
    have htoken := h.inside (by omega)
    rw [Nat.add_sub_cancel_left, hget] at htoken
    have hfails := h.fails
    rw [← htoken] at hfails
    rw [(Language.action?_of_not_hasAction hfails).1] at haction
    contradiction
  · -- The culprit is passed over, so it is unrecognized.
    have hj : j - i < v.frontier.length := by omega
    have htoken := h.inside (by omega)
    rw [List.getElem?_eq_getElem hj] at htoken
    have hpassed := hbefore (j - i) (by omega)
    rw [Bool.not_eq_true', Bool.and_eq_false_iff, Bool.not_eq_false', Bool.not_eq_false',
      h.proper _ htoken.symm] at hpassed
    rcases hpassed with hextra | herror
    · contradiction
    · exact .inr ⟨by omega, _, htoken.symm, herror⟩

/-- If there are only extras in a node, then the first proper token behind it is the culprit. -/
private theorem fails_behind (h : Blames l (leaves.map Leaf.asLexed) i v j) (hword : l.WordApart)
    (hread : ∀ y ∈ leaves, ReadAs l y) (hextras : ∀ y ∈ v.frontier, l.isExtra y.kind = true)
    (hfind : (leaves.drop (i + v.frontier.length)).find? (fun y => !l.isExtra y.kind) = some x) :
    l.table.action? v.stateOf x.kind = none := by
  have hlexed (y : Leaf) (hy : y ∈ leaves) : l.isExtra y.lexedKind = l.isExtra y.kind := by
    rcases (hread y hy).kind with hkind | ⟨-, hkind, hproper⟩
    · rw [hkind]
    · rw [hproper, hword _ hkind]
  have htokens (n : Nat) (y : Leaf) (hy : leaves[n]? = some y) :
      (leaves.map Leaf.asLexed)[n]? = some y.asLexed := by
    rw [List.getElem?_map, hy]
    rfl
  have hbehind : i + v.frontier.length ≤ j := by
    refine Nat.le_of_not_lt fun hlt => ?_
    have hle := h.le
    have hj : j - i < v.frontier.length := by omega
    have htoken := h.inside hlt
    rw [List.getElem?_eq_getElem hj] at htoken
    have hproper := h.proper _ htoken.symm
    rw [hextras _ (List.getElem_mem hj)] at hproper
    contradiction
  obtain ⟨hx, n, hn, rfl, hbefore⟩ := List.find?_eq_some_iff_getElem.1 hfind
  rw [Bool.not_eq_true'] at hx
  have hget : leaves[i + v.frontier.length + n]? =
      some (leaves.drop (i + v.frontier.length))[n] := by
    rw [← List.getElem?_drop, List.getElem?_eq_getElem hn]
  have hmem := List.mem_of_getElem? hget
  rcases Nat.lt_trichotomy (i + v.frontier.length + n) j with hlt | rfl | hgt
  · have hextra := h.between _ _ (by omega) hlt (htokens _ _ hget)
    change l.isExtra (Leaf.lexedKind _) = true at hextra
    rw [hlexed _ hmem, hx] at hextra
    contradiction
  · have hfails := h.fails
    rw [htokens _ _ hget] at hfails
    obtain ⟨hown, hasWord⟩ := Language.action?_of_not_hasAction hfails
    rcases (hread _ hmem).kind with hkind | ⟨hflag, hkind, -⟩
    · rw [hkind]
      exact hown
    · exact hasWord _ hflag hkind
  · have hj : j - (i + v.frontier.length) < (leaves.drop (i + v.frontier.length)).length := by omega
    have hextra := hbefore (j - (i + v.frontier.length)) (by omega)
    have hculprit : leaves[j]? =
        some (leaves.drop (i + v.frontier.length))[j - (i + v.frontier.length)] := by
      rw [← List.getElem?_eq_getElem hj, List.getElem?_drop, Nat.add_sub_cancel' hbehind]
    have hproper := h.proper _ (htokens _ _ hculprit)
    change l.isExtra (Leaf.lexedKind _) = false at hproper
    rw [hlexed _ (List.mem_of_getElem? hculprit)] at hproper
    rw [hproper] at hextra
    contradiction

end Parse.Blames

/-- A terminal that is expected by name has an action. -/
theorem Compilation.action_of_mem_expectedNames (k : Compilation) (hnames : k.language.NamesApart)
    {state : Nat} {kind : Kind} (hkind : k.language.isTerminal kind = true)
    (h : SyntaxTree.displayKind k.language kind ∈ SyntaxTree.expectedNames k.language state) :
    ∃ action, k.language.table.action? state kind = some action := by
  obtain ⟨other, hother, hname⟩ := List.mem_map.1 h
  obtain ⟨action, haction⟩ :=
    k.action_of_mem_expected (Array.mem_filter.1 (Array.mem_toList_iff.1 hother)).1
  have hterminal : k.language.isTerminal other = true :=
    k.tableBuilt.isTerminal_of_action k.wellFormed haction
  obtain rfl := hnames other kind hterminal hkind hname
  exact ⟨action, haction⟩

/-- The tokens of a tree are terminals. -/
theorem isTerminal_parse (k : Compilation) (hword : k.language.WordApart) {p : Parser}
    (hp : p.language = k.language) {source : Bytes} {leaf : Leaf}
    (hleaf : leaf ∈ (p.parse source).root.frontier) :
    k.language.isTerminal leaf.kind = true := by
  have hjob := Parser.scratch_job k hp source
  have hread := (wellFormed_parse k hword hp source).tokens leaf
    (by rwa [← Array.mem_toList_iff, Tree.leaves_toList])
  rcases hread.kind with hkind | ⟨-, hkind, -⟩
  · have hmem : leaf.asLexed ∈ (p.job source none []).leaves := by
      rw [← (Job.lossless_run hjob.sound).leaves]
      exact List.mem_map_of_mem hleaf
    rw [hkind]
    exact hjob.isTerminal hmem
  · exact decide_eq_true (k.wellFormed.word _ hkind).2

/-- Where a report expects the token that it names, it is on the root of a text that was given up,
or on a node whose culprit it overlooks, unless there were too many reductions. -/
theorem overlooks_of_found_expected (k : Compilation) (hword : k.language.WordApart)
    (hnames : k.language.NamesApart) {p : Parser} (hp : p.language = k.language) {source : Bytes}
    (hsize : source.size ≤ maxSize) {e : SyntaxError} (he : e ∈ (p.parse source).errors)
    {found : String} {expected : List String} (hcause : e.cause = .unexpected found expected)
    (hfound : found ∈ expected) :
    (∃ m, (p.job source none []).Reaches {} m ∧ (p.job source none []).Overruns m) ∨
    ((p.parse source).root.isErrorNode = true ∧ e.range = ⟨0, source.size⟩) ∨
    ∃ i u j, Occurs (p.parse source).root.children i u ∧ u.isErrorNode = true ∧
      e.range = .ofLength (totalLength ((p.parse source).root.frontier.take i))
        (totalLength u.frontier) ∧
      Blames k.language ((p.parse source).root.frontier.map Leaf.asLexed) i u j ∧
      Overlooks k.language ((p.parse source).root.frontier.map Leaf.asLexed) i u j := by
  let t := p.parse source
  have hjob := Parser.scratch_job k hp source
  have hfaithful : t.Faithful := Parser.faithful_parse k hp hsize nofun
  have hlanguage : t.language = k.language := hp
  have hleaves : t.root.frontier.map Leaf.asLexed = (p.job source none []).leaves :=
    (Job.lossless_run hjob.sound).leaves
  have hroot : t.root = ((p.job source none []).run {}).root := Parser.root_parse ..
  have hread : ∀ y ∈ t.root.frontier, ReadAs k.language y := fun y hy =>
    (wellFormed_parse k hword hp source).tokens y
      (by rwa [← Array.mem_toList_iff, Tree.leaves_toList])
  rcases hjob.blaming_run with hblames | hover
  swap
  · exact .inl hover
  rw [hjob.language, ← hleaves, ← hroot] at hblames
  obtain ⟨i, v, hoccurs, hreport⟩ := SyntaxTree.exists_of_mem_errors hfaithful he
  have hrange := SyntaxTree.range_reportOn e hreport
  obtain ⟨herror, rfl, x, rfl, hx⟩ := SyntaxTree.found_of_reportOn hreport hcause
  rw [hlanguage] at hfound hx
  rcases hoccurs with ⟨rfl, rfl⟩ | hbelow
  · refine .inr (.inl ⟨herror, ?_⟩)
    rw [hrange, List.take_zero, totalLength_nil, hfaithful.spells, Range.ofLength, Nat.zero_add]
    rfl
  · have hexpected (hmem : x ∈ t.root.frontier) :=
      k.action_of_mem_expectedNames hnames (isTerminal_parse k hword hp hmem) hfound
    obtain ⟨j, hblame⟩ := hblames i v hbelow herror
    refine .inr (.inr ⟨i, v, j, hbelow, herror, hrange, hblame, ?_⟩)
    rcases hx with hinside | ⟨hextras, hnext⟩
    · obtain ⟨action, haction⟩ :=
        hexpected (hbelow.mem_frontier (List.mem_of_find?_eq_some hinside))
      exact hblame.overlooks hinside haction
    · rw [hbelow.totalLength_take, ← hlanguage, SyntaxTree.nextAfter_eq hfaithful,
        hlanguage] at hnext
      obtain ⟨action, haction⟩ := hexpected (List.mem_of_mem_drop (List.mem_of_find?_eq_some hnext))
      rw [hblame.fails_behind hword hread hextras hnext] at haction
      contradiction

namespace Letter

private theorem namesApart : Compilation.letter.language.NamesApart := by
  have hnames : ∀ a < 3, ∀ b < 3, SyntaxTree.displayKind Compilation.letter.language ⟨a⟩ =
      SyntaxTree.displayKind Compilation.letter.language ⟨b⟩ → a = b := by decide
  intro a b ha hb heq
  exact congrArg Kind.mk (hnames a.id (of_decide_eq_true ha) b.id (of_decide_eq_true hb) heq)

/-- The parser of the letter x, without recovery. -/
def strict : Parser := { parser with config := { errorRecovery := false } }

def strictJob : Job where
  language := Compilation.letter.language
  config := strict.config
  stream := #[⟨leaf, none⟩, ⟨leaf, none⟩]

private theorem strictJob_eq : strict.job #[120, 120] none [] = strictJob := by
  have htokens : (strict.tokens #[120, 120] none []).tokens =
      #[⟨leaf, none⟩, ⟨leaf, none⟩] := by cbv
  unfold Parser.job
  rw [htokens]
  rfl

private theorem strictStep_start : strictJob.step {} = .next shifted := by cbv
private theorem strictStep_shifted :
    strictJob.step shifted = .done (shifted.failed.abandon strictJob) := by cbv

private theorem root_strict :
    (strict.parse #[120, 120]).root = .failedRoot ⟨3⟩ [.leaf leaf, .errorNode [.leaf leaf] 1] := by
  rw [Parser.root_parse, strictJob_eq, Job.run_of_next strictStep_start,
    Job.run_of_done strictStep_shifted]
  cbv

private theorem reports_abandoned {t : SyntaxTree}
    (hlanguage : t.language = Compilation.letter.language)
    (hroot : t.root = .failedRoot ⟨3⟩ [.leaf leaf, .errorNode [.leaf leaf] 1]) :
    t.reports = [⟨⟨0, 2⟩, .unexpected "x" ["x"]⟩, ⟨⟨1, 2⟩, .unexpected "x" ["end of input"]⟩] := by
  cases t
  subst hlanguage hroot
  cbv

/-- The second letter fails, but the report on the root names the first one, and what is expected in
its place. -/
theorem error_strict :
    (⟨⟨0, 2⟩, .unexpected "x" ["x"]⟩ : SyntaxError) ∈ (strict.parse #[120, 120]).errors := by
  have hfaithful : (strict.parse #[120, 120]).Faithful :=
    Parser.faithful_parse Compilation.letter (p := strict) rfl (by decide) nofun
  have herrors : (strict.parse #[120, 120]).hasErrors = true := by
    unfold SyntaxTree.hasErrors
    rw [root_strict]
    rfl
  rw [← Array.mem_toList_iff, SyntaxTree.errors_eq_reports hfaithful herrors,
    reports_abandoned rfl root_strict]
  exact List.mem_cons_self

end Letter

/-- A letter that is unexpected where it is expected. -/
theorem letter_unexpected_and_expected : Compilation.letter.language.NamesApart ∧
    ∃ e ∈ (Letter.strict.parse #[120, 120]).errors, ∃ found expected,
      e.cause = .unexpected found expected ∧ found ∈ expected :=
  ⟨Letter.namesApart, _, Letter.error_strict, "x", ["x"], rfl, List.mem_cons_self⟩

namespace Brackets

private theorem wordApart (mode : Table.Mode) : (Compilation.brackets mode).language.WordApart :=
  nofun

private theorem namesApart : (Compilation.brackets .lalr).language.NamesApart := by
  have hnames : ∀ a < 5, ∀ b < 5,
      SyntaxTree.displayKind (Compilation.brackets .lalr).language ⟨a⟩ =
        SyntaxTree.displayKind (Compilation.brackets .lalr).language ⟨b⟩ → a = b := by decide
  intro a b ha hb heq
  exact congrArg Kind.mk (hnames a.id (of_decide_eq_true ha) b.id (of_decide_eq_true hb) heq)

/-- The node of a bracket that was accepted and then given up. -/
def unclosedInfo : NodeInfo where
  kind := .error
  length := 1
  leafCount := 1
  isError := true
  hasError := true
  state := 1
  fields := #[]

/-- The tree of the text (, which ends too early. -/
def unclosedRoot : Tree :=
  .node { unclosedInfo with kind := ⟨5⟩, isError := false, state := 0 }
    [.node unclosedInfo [.leaf opening]]

/-- Whether a tree is the one of the text (. -/
def isUnclosed : Tree → Bool
  | .node info [.node inner [.leaf x]] =>
    info == { unclosedInfo with kind := ⟨5⟩, isError := false, state := 0 } &&
      inner == unclosedInfo && x == opening
  | _ => false

private theorem job_unclosed : parser.job #[40] none [] = job [opening] := job_of_tokens (by cbv)

private theorem passes_unclosed :
    (job [opening]).passes (fun m => decide (m.reductions < reductionLimit))
    (fun o => isUnclosed o.root) 12 {} = true := by cbv

private theorem root_unclosed : (parser.parse #[40]).root = unclosedRoot := by
  have hlast := (Job.of_passes passes_unclosed).2
  rw [← job_unclosed, ← Parser.root_parse] at hlast
  unfold isUnclosed at hlast
  split at hlast
  · next info inner x hroot =>
    simp only [Bool.and_eq_true, beq_iff_eq] at hlast
    obtain ⟨⟨rfl, rfl⟩, rfl⟩ := hlast
    exact hroot
  · contradiction

private theorem not_overruns_unclosed (m : Machine) (hm : (parser.job #[40] none []).Reaches {} m) :
    ¬ (parser.job #[40] none []).Overruns m := by
  rintro ⟨hfull, -⟩
  rw [job_unclosed] at hm
  have hlt := of_decide_eq_true ((Job.of_passes passes_unclosed).1 m hm)
  exact Nat.not_lt.2 hfull hlt

private theorem reports_unclosed {t : SyntaxTree}
    (hlanguage : t.language = (Compilation.brackets .lalr).language)
    (hroot : t.root = unclosedRoot) :
    t.reports = [⟨⟨0, 1⟩, .unexpected "(" ["(", ")"]⟩] := by
  cases t
  subst hlanguage hroot
  cbv

private theorem error_unclosed :
    (⟨⟨0, 1⟩, .unexpected "(" ["(", ")"]⟩ : SyntaxError) ∈ (parser.parse #[40]).errors := by
  have hfaithful : (parser.parse #[40]).Faithful :=
    Parser.faithful_parse (.brackets .lalr) (p := parser) rfl (by decide) nofun
  have herrors : (parser.parse #[40]).hasErrors = true := by
    unfold SyntaxTree.hasErrors
    rw [root_unclosed]
    rfl
  rw [← Array.mem_toList_iff, SyntaxTree.errors_eq_reports hfaithful herrors,
    reports_unclosed rfl root_unclosed]
  exact List.mem_cons_self

end Brackets

/-- A letter too many, without recovery, is reported on the root. An opening bracket at the end of
the text is reported on a node of its own: the culprit is the end, and the bracket comes before
it. -/
theorem overlooks_of_found_expected_brackets :
    ((⟨⟨0, 2⟩, .unexpected "x" ["x"]⟩ : SyntaxError) ∈ (Letter.strict.parse #[120, 120]).errors ∧
      (Letter.strict.parse #[120, 120]).root.isErrorNode = true) ∧
    (⟨⟨0, 1⟩, .unexpected "(" ["(", ")"]⟩ : SyntaxError) ∈ (Brackets.parser.parse #[40]).errors ∧
    ∃ i u j, Occurs (Brackets.parser.parse #[40]).root.children i u ∧ u.isErrorNode = true ∧
      (⟨0, 1⟩ : Range) =
        .ofLength (totalLength ((Brackets.parser.parse #[40]).root.frontier.take i))
          (totalLength u.frontier) ∧
      Blames (Compilation.brackets .lalr).language
        ((Brackets.parser.parse #[40]).root.frontier.map Leaf.asLexed) i u j ∧
      Overlooks (Compilation.brackets .lalr).language
        ((Brackets.parser.parse #[40]).root.frontier.map Leaf.asLexed) i u j := by
  refine ⟨⟨Letter.error_strict, by rw [Letter.root_strict]; rfl⟩, Brackets.error_unclosed, ?_⟩
  rcases overlooks_of_found_expected (.brackets .lalr) (Brackets.wordApart .lalr)
    Brackets.namesApart (p := Brackets.parser) rfl (by decide) Brackets.error_unclosed rfl
    List.mem_cons_self with ⟨m, hm, hover⟩ | ⟨hroot, -⟩ | hbelow
  · exact absurd hover (Brackets.not_overruns_unclosed m hm)
  · rw [Brackets.root_unclosed] at hroot
    contradiction
  · exact hbelow

end Reparse

import Reparse.Proofs.Segments

/-! # Extras in front of a segment

Extras that wait when a segment begins are pushed with its first token. They come out in front of
everything that is made of the segment, unless a node was made before the first token. -/
namespace Reparse

namespace Tree

mutual
/-- No token comes before the first node without children. -/
def startsEmpty : Tree → Bool
  | .leaf _ => false
  | .node _ children => forestStartsEmpty children

/-- No token comes before the first node without children, or before the end. -/
def forestStartsEmpty : List Tree → Bool
  | [] => true
  | t :: _ => t.startsEmpty
end

mutual
/-- Trees without tokens begin with a node without children. -/
private theorem startsEmpty_of_frontier : (t : Tree) → t.frontier = [] → t.startsEmpty = true
  | .leaf _, h => by contradiction
  | .node _ children, h => forestStartsEmpty_of_frontier children h

private theorem forestStartsEmpty_of_frontier :
    (ts : List Tree) → forestFrontier ts = [] → forestStartsEmpty ts = true
  | [], _ => rfl
  | t :: _, h => startsEmpty_of_frontier t (List.append_eq_nil_iff.1 h).1
end

private theorem forestStartsEmpty_append {ts us : List Tree} (h : forestStartsEmpty ts = true)
    (hne : ts ≠ []) :
    forestStartsEmpty (ts ++ us) = true := by
  cases ts with
  | nil => contradiction
  | cons t rest => exact h

end Tree

namespace Parse
open Reparse.Tree Stack

variable {l : Language} {base : Nat} {tokens : List Leaf} {entries kept popped : List Entry}
  {next : Option Leaf} {extras : Array Leaf}

private theorem elements_eq_nil (h : entries.flatMap (·.trees) = []) :
    ∀ e ∈ entries, e.elements = #[] := by
  intro e he
  have := List.flatMap_eq_nil_iff.1 h e he
  simpa [Entry.trees] using this

/-- What is made of some entries begins with an empty node if they do. -/
theorem forestStartsEmpty_closedEntry {info : Table.ProductionInfo}
    (hsize : popped.length = info.fields.size) (state top : Nat) :
    forestStartsEmpty (closedEntry l info state top popped).trees =
      forestStartsEmpty (popped.flatMap (·.trees)) := by
  rw [← treesOf_labelAll l (show popped.length =
    info.fields.toList.length by rw [hsize, Array.length_toList])]
  change forestStartsEmpty
      (treesOf (reduced l info.lhs (labelAll l popped info.fields.toList) top)) = _
  cases hvisible : l.isVisible info.lhs with
  | false => rw [reduced_hidden hvisible]
  | true =>
    rw [treesOf, reduced_visible hvisible, treesOf]
    cases (labelAll l popped info.fields.toList).toList with
    | nil => rfl
    | cons e rest =>
      -- An extra in front stays there, and another tree becomes the first child.
      cases htrivia : l.isTrivia e.2 with
      | false =>
        rw [List.takeWhile_cons_of_neg (by simp [htrivia]),
          List.dropWhile_cons_of_neg (by simp [htrivia])]
        rfl
      | true =>
        rw [List.takeWhile_cons_of_pos (by simp [htrivia])]
        rfl

/-- A node in front that begins with one without children stays in front. -/
private theorem forestStartsEmpty_reduce
    (h : forestStartsEmpty ((kept ++ popped).flatMap (·.trees)) = true)
    {info : Table.ProductionInfo} (hsize : popped.length = info.fields.size) (state top : Nat) :
    forestStartsEmpty ((kept ++ [closedEntry l info state top popped]).flatMap (·.trees)) =
      true := by
  rw [List.flatMap_append] at h
  rw [List.flatMap_append, List.flatMap_singleton]
  cases hkept : kept.flatMap (·.trees) with
  | cons t rest =>
    rw [hkept] at h
    exact h
  | nil =>
    rw [hkept] at h
    exact (forestStartsEmpty_closedEntry hsize state top).trans h

/-- Without empty productions every entry begins with a token. -/
theorem Builds.startsEmpty_eq_false (hproductions : ∀ info ∈ l.table.productions, info.fields ≠ #[])
    (h : Builds l base tokens entries next) : ∀ e ∈ entries, forestStartsEmpty e.trees = false := by
  induction h with
  | nil => exact nofun
  | @shift tokens entries skipped leaf kind state before lexed hskipped proper action next ih =>
    intro e he
    rcases List.mem_append.1 he with he | he
    · exact ih e he
    · rw [List.mem_singleton.1 he, trees_tokenEntry]
      cases skipped.toList with
      | nil => rfl
      | cons x rest => rfl
  | @reduce tokens kept popped next kind production state info before action
      produces size goes ih =>
    intro e he
    rcases List.mem_append.1 he with he | he
    · exact ih e (List.mem_append_left _ he)
    · rw [List.mem_singleton.1 he, forestStartsEmpty_closedEntry size]
      have hfields := hproductions info (Array.mem_of_getElem? produces)
      cases popped with
      | nil => exact absurd (Array.eq_empty_of_size_eq_zero size.symm) hfields
      | cons first rest =>
        have hfirst := ih first (List.mem_append_right _ List.mem_cons_self)
        rw [List.flatMap_cons]
        cases htrees : first.trees with
        | nil =>
          rw [htrees] at hfirst
          contradiction
        | cons t ts =>
          rw [htrees] at hfirst
          exact hfirst

namespace Trimmed

/-- With extras in front of a part of some entries they are in front of all, and the parts are the
others' parts. -/
private theorem exists_append (h : Trimmed l extras entries (kept ++ popped)) :
    (∃ kept', entries = kept' ++ popped ∧ Trimmed l extras kept' kept) ∨
      ∃ popped', entries = kept ++ popped' ∧ (∀ e ∈ kept, e.elements = #[]) ∧
        Trimmed l extras popped' popped := by
  have hlength : (entries.take kept.length).length = kept.length := by
    rw [List.length_take, h.length_eq, List.length_append]
    omega
  have hsplit : entries.take kept.length ++ entries.drop kept.length = entries :=
    List.take_append_drop ..
  rw [← hsplit] at h
  rcases h.of_append with ⟨kept', heq, hkept⟩ | ⟨popped', heq, hempty, hpopped⟩
  · obtain ⟨rfl, hpopped⟩ := List.append_inj heq (by rw [← hkept.length_eq, hlength])
    exact .inl ⟨_, by rw [hpopped, hsplit], hkept⟩
  · obtain ⟨hkept, rfl⟩ := List.append_inj heq hlength.symm
    exact .inr ⟨_, hsplit.symm.trans (congrArg (· ++ entries.drop kept.length) hkept.symm),
      by rwa [hkept], hpopped⟩

/-- Extras in front of one tree. -/
private theorem eq_singleton {state : Nat} {t : Tree}
    (h : Trimmed l extras entries [⟨state, #[(none, t)]⟩]) :
    entries = [⟨state, (extras.map fun x => (none, .leaf x)).push (none, t)⟩] := by
  generalize hone : [(⟨state, #[(none, t)]⟩ : Entry)] = one at h
  cases h with
  | @intro empty after state' elements rest hempty helements hrest =>
    cases empty with
    | cons e empty => simp at hone
    | nil =>
      simp only [List.nil_append, List.cons.injEq, Entry.mk.injEq] at hone
      obtain ⟨⟨rfl, rfl⟩, rfl⟩ := hone
      have heq : elements = (extras.map fun x => (none, .leaf x)).push (none, t) := by
        apply Array.toList_inj.1
        rw [helements]
        simp
      rw [heq]
      rfl

end Trimmed

/-- Of the tokens with some extras before them the parser makes the same entries with the extras in
front, unless what is in front was made before the first token. -/
theorem Builds.lead (hword : l.WordApart)
    (hextras : ∀ x ∈ extras, l.isExtra x.kind = true ∧ x.asLexed = x)
    (h : Builds l base tokens entries next)
    (hfirst : ∀ x, tokens.head? = some x → l.isExtra x.kind = false) :
    forestStartsEmpty (entries.flatMap (·.trees)) = true ∨
      ∃ full, Trimmed l extras full entries ∧
        Builds l base (extras.toList ++ tokens) full next := by
  have hkinds : ∀ x ∈ extras, l.isExtra x.kind = true := fun x hx => (hextras x hx).1
  induction h with
  | nil => exact .inl rfl
  | @shift tokens entries skipped leaf kind state before lexed hskipped proper action next ih =>
    have hbefore : ∀ x, tokens.head? = some x → l.isExtra x.kind = false := by
      intro x hx
      cases tokens with
      | nil => contradiction
      | cons y tokens => exact hfirst x hx
    rcases ih hbefore with hempty | ⟨full, htrimmed, hbuilds⟩
    · cases htrees : entries.flatMap (·.trees) with
      | cons t rest =>
        rw [htrees] at hempty
        rw [List.flatMap_append, htrees]
        exact .inl (forestStartsEmpty_append hempty (List.cons_ne_nil _ _))
      | nil =>
        -- This is the first token, and the extras are pushed with it.
        right
        have hnothing := before.frontier
        rw [htrees] at hnothing
        obtain rfl : [] = tokens := hnothing
        have hnone : skipped = #[] := by
          rw [← Array.toList_eq_nil_iff]
          cases hlist : skipped.toList with
          | nil => rfl
          | cons y rest =>
            have hy := hfirst y (by simp [hlist])
            rw [(hskipped y (Array.mem_toList_iff.1 (by rw [hlist]; exact List.mem_cons_self))).1]
              at hy
            contradiction
        subst hnone
        refine ⟨entries ++ [tokenEntry state extras (leaf.reinterpret kind)], ?_, ?_⟩
        · apply Trimmed.append_left _ (elements_eq_nil htrees)
          rw [← List.nil_append [tokenEntry state extras (leaf.reinterpret kind)],
            ← List.nil_append [tokenEntry state #[] (leaf.reinterpret kind)]]
          have hleaf : l.isTrivia (.leaf (leaf.reinterpret kind)) = false :=
            hword.of_actionFor proper action
          exact .intro (by simp) (by simp)
            ⟨(none, .leaf (leaf.reinterpret kind)), [], by simp, hleaf⟩
        · have hshifted := before.shift lexed hextras proper action next
          simpa using hshifted
    · refine .inr ⟨_, htrimmed.append_right _, ?_⟩
      rw [← htrimmed.topState_eq] at action
      rw [← List.append_assoc]
      exact hbuilds.shift lexed hskipped proper action next
  | @reduce tokens kept popped next kind production state info before action
      produces size goes ih =>
    rcases ih hfirst with hempty | ⟨full, htrimmed, hbuilds⟩
    · exact .inl (forestStartsEmpty_reduce hempty size _ _)
    · right
      rw [← htrimmed.topState_eq] at action
      rcases htrimmed.exists_append with ⟨kept', rfl, hkept⟩ | ⟨popped', rfl, hnone, hpopped⟩
      · rw [← hkept.topState_eq] at goes ⊢
        exact ⟨_, hkept.append_right _, hbuilds.reduce action produces size goes⟩
      · have hsize : popped'.length = info.fields.size := hpopped.length_eq.trans size
        exact ⟨_, (hpopped.closedEntry hkinds hsize _ _).append_left hnone,
          hbuilds.reduce action produces hsize goes⟩

/-- A tree that the parser makes is made with extras in front of it, if it begins with a token. -/
theorem Builds.lead_tree (hword : l.WordApart)
    (hextras : ∀ x ∈ extras, l.isExtra x.kind = true ∧ x.asLexed = x) {state : Nat} {t : Tree}
    (h : Builds l base tokens [⟨state, #[(none, t)]⟩] next)
    (hfirst : ∀ x, tokens.head? = some x → l.isExtra x.kind = false) (ht : t.startsEmpty = false) :
    Builds l base (extras.toList ++ tokens)
      [⟨state, (extras.map fun x => (none, .leaf x)).push (none, t)⟩] next := by
  rcases h.lead hword hextras hfirst with hempty | ⟨full, htrimmed, hbuilds⟩
  · change t.startsEmpty = true at hempty
    rw [ht] at hempty
    contradiction
  · rwa [htrimmed.eq_singleton] at hbuilds

end Parse
end Reparse

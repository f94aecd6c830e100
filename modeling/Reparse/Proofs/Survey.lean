import Reparse.Parse.Reuse
import Reparse.Proofs.Frontier

/-! # The survey of an old tree -/
namespace Reparse
open Reparse.Tree

namespace Tree

/-- The tree `t` is one of the trees, or below one, with `i` leaves before it. -/
inductive Occurs : List Tree → Nat → Tree → Prop
  | here {t rest} : Occurs (t :: rest) 0 t
  | inside {info children rest i t} (below : Occurs children i t) :
      Occurs (.node info children :: rest) i t
  | later {u rest i t} (behind : Occurs rest i t) : Occurs (u :: rest) (u.frontier.length + i) t

namespace Occurs

theorem append_left {ts : List Tree} {i : Nat} {t : Tree} (h : Occurs ts i t) (more : List Tree) :
    Occurs (ts ++ more) i t := by
  induction h with
  | here => exact .here
  | inside below _ => exact .inside below
  | later _ ih => exact .later ih

theorem append_right {ts : List Tree} {i : Nat} {t : Tree} (h : Occurs ts i t)
    (before : List Tree) :
    Occurs (before ++ ts) ((forestFrontier before).length + i) t := by
  induction before with
  | nil => simpa [forestFrontier] using h
  | cons u rest ih =>
    rw [forestFrontier, List.length_append, Nat.add_assoc]
    exact .later ih

/-- The leaves of an occurrence stand where it stands. -/
theorem split {ts : List Tree} {i : Nat} {t : Tree} (h : Occurs ts i t) :
    ∃ before after, forestFrontier ts = before ++ (t.frontier ++ after) ∧ before.length = i := by
  induction h with
  | @here t rest => exact ⟨[], forestFrontier rest, by rw [forestFrontier, List.nil_append], rfl⟩
  | @inside info children rest i t below ih =>
    obtain ⟨before, after, hsplit, hlength⟩ := ih
    exact ⟨before, after ++ forestFrontier rest,
      by rw [forestFrontier, Tree.frontier, hsplit]; simp, hlength⟩
  | @later u rest i t behind ih =>
    obtain ⟨before, after, hsplit, hlength⟩ := ih
    exact ⟨u.frontier ++ before,
      after, by rw [forestFrontier, hsplit]; simp, by rw [List.length_append, hlength]⟩

theorem consistent {ts : List Tree} {i : Nat} {t : Tree} (h : Occurs ts i t)
    (hts : ∀ u ∈ ts, u.Consistent) :
    t.Consistent := by
  induction h with
  | here => exact hts _ (by simp)
  | @inside info children rest i t below ih =>
    have hnode : (Tree.node info children).Consistent := hts _ (by simp)
    exact ih hnode.children
  | later behind ih => exact ih fun u hu => hts u (by simp [hu])

end Occurs

mutual
/-- For each leaf whether it is an error or stands in an error node. -/
def marks (inError : Bool) : Tree → List Bool
  | .leaf l => [inError || l.isError]
  | .node info children => forestMarks (inError || info.isError) children

def forestMarks (inError : Bool) : List Tree → List Bool
  | [] => []
  | t :: rest => t.marks inError ++ forestMarks inError rest
end

private theorem forestMarks_append (inError : Bool) (a b : List Tree) :
    forestMarks inError (a ++ b) = forestMarks inError a ++ forestMarks inError b := by
  induction a with
  | nil => rfl
  | cons t rest ih => simp only [List.cons_append, forestMarks, ih, List.append_assoc]

end Tree

namespace Parse.Survey

variable {l : Language}

/-- What a survey of some trees adds. -/
structure Adds (l : Language) (ts : List Tree) (s s' : Survey) (new : List OldSlot) : Prop where
  slots : s'.slots = s.slots ++ new.toArray
  depth : s'.errorDepth = s.errorDepth
  extra : new.map (·.extra) = (forestFrontier ts).map fun leaf => l.isExtra leaf.kind
  inError : new.map (·.inError) = forestMarks (0 < s.errorDepth) ts
  /-- Trees that start at a slot occur there, unless they were open before. -/
  starting : ∀ i slot, new[i]? = some slot → ∀ t ∈ slot.starting,
    isReusable l t = true ∧ Occurs ts i t ∨ i = 0 ∧ t ∈ s.opened
  opened : ∀ t ∈ s'.opened, isReusable l t = true ∧ Occurs ts new.length t ∨ new = [] ∧ t ∈ s.opened

theorem Adds.length {ts : List Tree} {s s' : Survey} {new : List OldSlot} (h : Adds l ts s s' new) :
    new.length = (forestFrontier ts).length := by
  have := congrArg List.length h.extra
  simpa using this

private theorem Adds.nil (s : Survey) : Adds l [] s s [] where
  slots := by simp
  depth := rfl
  extra := rfl
  inError := rfl
  starting := by
    intro i slot h
    simp at h
  opened := fun t ht => .inr ⟨rfl, ht⟩

private theorem Adds.append {a b : List Tree} {s s' s'' : Survey} {new more : List OldSlot}
    (ha : Adds l a s s' new) (hb : Adds l b s' s'' more) : Adds l (a ++ b) s s'' (new ++ more) where
  slots := by rw [hb.slots, ha.slots]; simp
  depth := hb.depth.trans ha.depth
  extra := by rw [List.map_append, ha.extra, hb.extra, forestFrontier_append, List.map_append]
  inError := by rw [List.map_append, ha.inError, hb.inError, ha.depth, forestMarks_append]
  starting := by
    intro i slot hslot t ht
    by_cases hi : i < new.length
    · rw [List.getElem?_append_left hi] at hslot
      rcases ha.starting i slot hslot t ht with ⟨hr, ho⟩ | h
      · exact .inl ⟨hr, ho.append_left b⟩
      · exact .inr h
    · rw [List.getElem?_append_right (by omega)] at hslot
      have hi' : i = (forestFrontier a).length + (i - new.length) := by rw [← ha.length]; omega
      rcases hb.starting _ slot hslot t ht with ⟨hr, ho⟩ | ⟨hzero, hopen⟩
      · exact .inl ⟨hr, by rw [hi']; exact ho.append_right a⟩
      · have hend : i = new.length := by omega
        rcases ha.opened t hopen with ⟨hr, ho⟩ | ⟨hnil, ho⟩
        · exact .inl ⟨hr, by rw [hend]; exact ho.append_left b⟩
        · exact .inr ⟨by rw [hend, hnil]; rfl, ho⟩
  opened := by
    intro t ht
    rcases hb.opened t ht with ⟨hr, ho⟩ | ⟨hnil, hopen⟩
    · exact .inl ⟨hr, by rw [List.length_append, ha.length]; exact ho.append_right a⟩
    · rcases ha.opened t hopen with ⟨hr, ho⟩ | ⟨hnil', ho⟩
      · exact .inl ⟨hr, by rw [hnil, List.append_nil]; exact ho.append_left b⟩
      · exact .inr ⟨by rw [hnil, hnil']; rfl, ho⟩

private theorem Adds.leaf (s : Survey) (field : Option Field) (leaf : Leaf) :
    Adds l [.leaf leaf] s (visit l s (.enter field (.leaf leaf)))
      [⟨s.opened.reverse, l.isExtra leaf.kind, 0 < s.errorDepth || leaf.isError⟩] where
  slots := rfl
  depth := rfl
  extra := rfl
  inError := rfl
  starting := by
    intro i slot hslot t ht
    obtain ⟨rfl, rfl⟩ : i = 0 ∧ _ = slot := by
      cases i with
      | zero => exact ⟨rfl, by simpa using hslot⟩
      | succ i => simp at hslot
    exact .inr ⟨rfl, List.mem_reverse.1 ht⟩
  opened := by
    intro t ht
    contradiction

private theorem Adds.node {info : NodeInfo} {children : List Tree} {s s' : Survey}
    {new : List OldSlot} (field : Option Field)
    (h : Adds l children (visit l s (.enter field (.node info children))) s' new) :
    Adds l [.node info children] s (visit l s' (.leave (.node info children))) new := by
  have hdepth : (visit l s (.enter field (.node info children))).errorDepth =
      s.errorDepth + info.isError.toNat := rfl
  have hopened : ∀ t ∈ (visit l s (.enter field (.node info children))).opened,
      isReusable l t = true ∧ t = .node info children ∨ t ∈ s.opened := by
    intro t ht
    simp only [visit] at ht
    split at ht
    · next hr =>
      rcases List.mem_cons.1 ht with rfl | ht
      · exact .inl ⟨hr, rfl⟩
      · exact .inr ht
    · exact .inr ht
  refine ⟨h.slots, ?_, ?_, ?_, ?_, ?_⟩
  · change s'.errorDepth - info.isError.toNat = s.errorDepth
    rw [h.depth, hdepth]
    omega
  · rw [h.extra]
    simp [forestFrontier, Tree.frontier]
  · rw [h.inError, hdepth]
    simp only [forestMarks, marks, List.append_nil]
    congr 1
    cases info.isError <;> simp
  · intro i slot hslot t ht
    rcases h.starting i slot hslot t ht with ⟨hr, ho⟩ | ⟨rfl, ho⟩
    · exact .inl ⟨hr, .inside ho⟩
    · rcases hopened t ho with ⟨hr, rfl⟩ | ho
      · exact .inl ⟨hr, .here⟩
      · exact .inr ⟨rfl, ho⟩
  · intro t ht
    rcases h.opened t ht with ⟨hr, ho⟩ | ⟨hnil, ho⟩
    · exact .inl ⟨hr, .inside ho⟩
    · rcases hopened t ho with ⟨hr, rfl⟩ | ho
      · exact .inl ⟨hr, by rw [hnil]; exact .here⟩
      · exact .inr ⟨hnil, ho⟩

/-- A walk surveys one subtree and goes on. -/
theorem walkFrom_visit (t : Tree) (field : Option Field) (rest : List Visit) (s : Survey) :
    ∃ s' new, walkFrom (visit l) (.enter field t :: rest) s = walkFrom (visit l) rest s' ∧
      Adds l [t] s s' new := by
  induction t using Tree.induction generalizing field rest s with
  | leaf leaf => exact ⟨_, _, by rw [walkFrom], .leaf s field leaf⟩
  | node info children ih =>
    have below (cs : List (Option Field × Tree)) (hcs : ∀ p ∈ cs, p.2 ∈ children)
        (after : List Visit) (s : Survey) : ∃ s' new, walkFrom (visit l)
        (cs.map (fun p => .enter p.1 p.2) ++ after) s = walkFrom (visit l) after s' ∧
          Adds l (cs.map (·.2)) s s' new := by
      induction cs generalizing s with
      | nil => exact ⟨s, [], rfl, .nil s⟩
      | cons c cs ihc =>
        obtain ⟨s₁, new, hwalk, hadds⟩ := ih c.2 (hcs c (by simp)) c.1
          (cs.map (fun p => .enter p.1 p.2) ++ after) s
        obtain ⟨s₂, more, hwalk', hadds'⟩ := ihc (fun p hp => hcs p (by simp [hp])) s₁
        exact ⟨s₂, new ++ more, hwalk.trans hwalk', hadds.append hadds'⟩
    have hmem : ∀ p ∈ (Tree.node info children).labelledChildren, p.2 ∈ children := by
      intro p hp
      have h := List.mem_map_of_mem (f := (·.2)) hp
      rwa [labelledChildren_snd] at h
    obtain ⟨s', new, hwalk, hadds⟩ := below _ hmem (.leave (.node info children) :: rest)
      (visit l s (.enter field (.node info children)))
    rw [labelledChildren_snd] at hadds
    refine ⟨_, new, ?_, hadds.node field⟩
    rw [walkFrom]
    simp only [enterChildren, hwalk]
    rw [walkFrom]

private theorem walkFrom_enterChildren (children : List (Option Field × Tree)) (s : Survey) :
    ∃ s' new, walkFrom (visit l) (children.map fun p => .enter p.1 p.2) s = s' ∧
      Adds l (children.map (·.2)) s s' new := by
  induction children generalizing s with
  | nil => exact ⟨s, [], by rw [List.map_nil, walkFrom], .nil s⟩
  | cons c rest ih =>
    obtain ⟨s₁, new, hwalk, hadds⟩ := walkFrom_visit c.2 c.1 (rest.map fun p => .enter p.1 p.2) s
    obtain ⟨s₂, more, hwalk', hadds'⟩ := ih s₁
    exact ⟨s₂, new ++ more, hwalk.trans hwalk', hadds.append hadds'⟩

/-- A survey has one slot for each leaf below the root. -/
theorem adds_ofTree (root : Tree) : ∃ s, Adds l root.children {} s (ofTree l root).toList := by
  obtain ⟨s, new, hwalk, hadds⟩ := walkFrom_enterChildren (l := l) root.labelledChildren {}
  have hnew : (ofTree l root).toList = new := by
    unfold ofTree walkBelow enterChildren
    rw [hwalk, hadds.slots]
    simp
  rw [labelledChildren_snd] at hadds
  exact ⟨s, hnew ▸ hadds⟩

/-- Trees that start at a slot occur there. -/
theorem occurs_of_starting {root : Tree} {i : Nat} {slot : OldSlot}
    (h : (ofTree l root)[i]? = some slot) {t : Tree} (ht : t ∈ slot.starting) :
    isReusable l t = true ∧ Occurs root.children i t := by
  obtain ⟨s, hadds⟩ := adds_ofTree (l := l) root
  rcases hadds.starting i slot (by simpa using h) t ht with h | ⟨-, h⟩
  · exact h
  · contradiction

end Parse.Survey
end Reparse

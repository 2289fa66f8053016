import FanoutIndex.Proofs.Tree.Checked

/-!
# The first violation of a tree

The check keeps the nodes that it has still to visit on a stack. What it reports is what a recursive
walk finds first, and that is nothing if and only if every node is packed and the keys of the tree
in order increase.
-/

namespace FanoutIndex

variable {w n : Nat} {V : Type}

theorem findSome?_filterMap {α β γ : Type} (f : α → Option β) (g : β → Option γ) (l : List α) :
    (l.filterMap f).findSome? g = l.findSome? fun a => (f a).bind g := by
  induction l with
  | nil => rfl
  | cons a rest ih =>
    rw [List.filterMap_cons, List.findSome?_cons, ← ih]
    cases f a with
    | none => rfl
    | some b => rfl

namespace Tree

/-- The fault of a node, else the first violation below its links, of which the last is walked
first. -/
def firstViolation (tree : Tree w n V) (i : Nat) (bounds : Bounds n) (depth : Nat) :
    Option Violation :=
  ((tree.layout i).fault? bounds depth).or <|
    (List.finRange (w + 1)).reverse.findSome? fun link =>
      match _down : (tree.layout i).link link with
      | none => none
      | some child =>
        tree.firstViolation child (bounds.under (tree.layout i) link) (depth + 1)
  termination_by tree.nodes.size - i
  decreasing_by
    have hlt := tree.lt_of_layout_link _down
    omega

variable {tree : Tree w n V} {i depth : Nat} {bounds : Bounds n}

theorem firstViolation_eq : tree.firstViolation i bounds depth =
    ((tree.layout i).fault? bounds depth).or ((tree.children i).reverse.findSome? fun entry =>
      tree.firstViolation entry.2 (bounds.under (tree.layout i) entry.1) (depth + 1)) := by
  rw [firstViolation, children, Node.children, ← List.filterMap_reverse, findSome?_filterMap]
  congr 2
  funext link
  rw [Option.bind_map]
  split
  · next hdown =>
    have hlink : (tree.node i).links.get link = none := hdown
    rw [hlink, Option.bind_none]
  · next child hdown =>
    have hlink : (tree.node i).links.get link = some child := hdown
    rw [hlink, Option.bind_some]
    rfl

theorem tidy_of_violation?_eq_none
    (h : (tree.node i).violation? bounds depth = none) : tree.layout.Tidy i bounds := by
  rw [Node.violation?_eq, Face.fault?_eq_none_iff] at h
  exact Layout.tidy_iff.2 h

theorem checkFrom_eq (stack : List (Visit n)) : tree.checkFrom stack =
    .ok (stack.findSome? fun visit =>
      tree.firstViolation visit.node visit.bounds visit.depth) := by
  fun_induction checkFrom with
  | case1 => rfl
  | case2 visit rest violation hfound =>
    rw [Node.violation?_eq] at hfound
    have hfault : (tree.layout visit.node).fault? visit.bounds visit.depth = some violation := hfound
    rw [List.findSome?_cons, firstViolation_eq, hfault]
    rfl
  | case3 visit rest hnone fault hfault =>
    -- A node that passed its test has a key on each side of a link with a child.
    cases hfault.symm.trans (visitEach_eq (tidy_of_violation?_eq_none hnone) fun _ => id)
  | case4 visit rest hnone visits hvisits ih =>
    have hok := visitEach_eq (tidy_of_violation?_eq_none hnone) fun _ => id
    obtain rfl := Except.ok.inj (hvisits.symm.trans hok)
    rw [Node.violation?_eq] at hnone
    have hfault : (tree.layout visit.node).fault? visit.bounds visit.depth = none := hnone
    rw [ih, ← List.singleton_append, List.findSome?_append, List.findSome?_append,
      List.findSome?_singleton, firstViolation_eq, hfault, Option.none_or, ← List.map_reverse,
      List.findSome?_map]
    rfl

theorem packed_below_iff : (∀ j e, tree.layout.Below i depth j e → (tree.layout j).Packed) ↔
    (tree.layout i).Packed ∧ ∀ link child, (tree.layout i).link link = some child →
      ∀ j e, tree.layout.Below child (depth + 1) j e → (tree.layout j).Packed := by
  constructor
  · intro packed
    exact ⟨packed i depth .here, fun link child hlink j e hbelow =>
      packed j e (Layout.below_iff.2 (.inr ⟨link, child, hlink, hbelow⟩))⟩
  · rintro ⟨packed, hchildren⟩ j e hbelow
    rcases Layout.below_iff.1 hbelow with ⟨rfl, _⟩ | ⟨link, child, hlink, hchild⟩
    · exact packed
    · exact hchildren link child hlink j e hchild

theorem firstViolation_eq_none : tree.firstViolation i bounds depth = none ↔
    ((tree.layout i).Packed ∧ (tree.layout i).Ordered bounds) ∧
      ∀ link child, (tree.layout i).link link = some child →
        tree.firstViolation child (bounds.under (tree.layout i) link) (depth + 1) = none := by
  rw [firstViolation_eq, Option.or_eq_none_iff, Face.fault?_eq_none_iff,
    List.findSome?_eq_none_iff]
  simp only [List.mem_reverse, Prod.forall, children, Node.mem_children_iff]
  rfl

/-- The walk finds nothing below a node if and only if the nodes there are packed and their keys in
order increase, within the bounds. -/
theorem firstViolation_eq_none_iff (tree : Tree w n V) (i : Nat) (bounds : Bounds n) (depth : Nat) :
    tree.firstViolation i bounds depth = none ↔
      (∀ j e, tree.layout.Below i depth j e → (tree.layout j).Packed) ∧
        (tree.inorderFrom i).Pairwise (· < ·) ∧
        ∀ k ∈ tree.inorderFrom i, bounds.contains k = true := by
  have ih (link : Fin (w + 1)) (child : Nat) (hlink : (tree.layout i).link link = some child) :=
    have hlt := tree.lt_of_layout_link hlink
    firstViolation_eq_none_iff tree child (bounds.under (tree.layout i) link) (depth + 1)
  have hparts := tree.forall_inorderUnder_iff i
    (p := fun link keys => keys.Pairwise (· < ·) ∧
      ∀ k ∈ keys, (bounds.under (tree.layout i) link).contains k = true) (by simp)
  have hbelow := tree.link_ne_none_of_inorderUnder i
  rw [firstViolation_eq_none, packed_below_iff, inorderFrom_eq]
  constructor
  · rintro ⟨⟨packed, ordered⟩, hnone⟩
    have hchild (link child) (hlink : (tree.layout i).link link = some child) :=
      (ih link child hlink).1 (hnone link child hlink)
    exact ⟨⟨packed, fun link child hlink => (hchild link child hlink).1⟩,
      (packed.sorted_interleave_iff hbelow).2
        ⟨ordered, hparts.2 fun link child hlink => (hchild link child hlink).2⟩⟩
  · rintro ⟨⟨packed, hpacked⟩, sorted⟩
    obtain ⟨ordered, hsorted⟩ := (packed.sorted_interleave_iff hbelow).1 sorted
    exact ⟨⟨packed, ordered⟩, fun link child hlink => (ih link child hlink).2
      ⟨hpacked link child hlink, hparts.1 hsorted link child hlink⟩⟩
  termination_by tree.nodes.size - i

/-- The check of any tree returns. It reports the first violation that a recursive walk finds, and
it reports none if and only if every node is packed and the keys in order increase. -/
theorem check_reports_first (tree : Tree w n V) :
    tree.check = .ok (tree.firstViolation root .all 1) ∧
      (tree.check = .ok none ↔ (∀ i, tree.layout.Reachable i → (tree.layout i).Packed) ∧
        tree.inorder.Pairwise (· < ·)) := by
  have hcheck : tree.check = .ok (tree.firstViolation root .all 1) := by
    rw [check, checkFrom_eq]
    simp
  refine ⟨hcheck, ?_⟩
  rw [hcheck, Except.ok.injEq, firstViolation_eq_none_iff]
  constructor
  · rintro ⟨packed, sorted, _⟩
    refine ⟨fun i hi => ?_, sorted⟩
    obtain ⟨d, hd⟩ := hi.exists_hasDepth
    exact packed i d hd
  · rintro ⟨packed, sorted⟩
    exact ⟨fun i d hd => packed i (Layout.HasDepth.reachable hd), sorted, fun _ _ => rfl⟩

end Tree

end FanoutIndex

import FanoutIndex.Tree.Basic

namespace FanoutIndex

namespace Tree

variable {w n : Nat} {V : Type} (tree : Tree w n V)

section ModifyNode

variable (i : Nat) (change : Node w n V → Node w n V)
  (keeps : ∀ node, (change node).links = node.links)

theorem nodes_modifyNode :
    (tree.modifyNode i change keeps).nodes = tree.nodes.modify i change := rfl

@[simp]
theorem size_modifyNode :
    (tree.modifyNode i change keeps).nodes.size = tree.nodes.size := by
  simp [nodes_modifyNode]

theorem node_modifyNode (j : Nat) :
    (tree.modifyNode i change keeps).node j =
      if i = j ∧ j < tree.nodes.size then change (tree.node j) else tree.node j := by
  by_cases hj : j < tree.nodes.size
  · rw [node_of_lt _ (by simpa using hj), node_of_lt _ hj]
    simp only [nodes_modifyNode, Array.getElem_modify, hj, and_true]
  · rw [node_of_ge _ (by simpa using Nat.le_of_not_lt hj), node_of_ge _ (Nat.le_of_not_lt hj)]
    simp [hj]

end ModifyNode

theorem node_setVersion (i j : Nat) (version : Version) :
    (tree.setVersion i version).node j =
      if i = j ∧ j < tree.nodes.size then (tree.node j).setVersion version else tree.node j :=
  tree.node_modifyNode i _ _ j

theorem node_assign (i j : Nat) (slot : Fin w) (key : Key n) (value : V) :
    (tree.assign i slot key value).node j =
      if i = j ∧ j < tree.nodes.size then (tree.node j).assign slot key value else tree.node j :=
  tree.node_modifyNode i _ _ j

theorem nodes_setLink {i : Nat} {link : Fin (w + 1)} {child : Nat}
    (younger : i < child ∧ child < tree.nodes.size) :
    (tree.setLink i link child).nodes = tree.nodes.modify i (·.setLink link child) := by
  simp [setLink, younger]

theorem node_setLink {i : Nat} {link : Fin (w + 1)} {child : Nat}
    (younger : i < child ∧ child < tree.nodes.size) (j : Nat) :
    (tree.setLink i link child).node j =
      if i = j then (tree.node j).setLink link child else tree.node j := by
  have h : (tree.setLink i link child).nodes = _ := tree.nodes_setLink younger
  have hi : i < tree.nodes.size := Nat.lt_trans younger.1 younger.2
  by_cases hj : j < tree.nodes.size
  · rw [node_of_lt _ (by simpa [h] using hj), node_of_lt _ hj]
    simp only [h, Array.getElem_modify]
  · have : i ≠ j := by omega
    rw [node_of_ge _ (by simpa [h] using Nat.le_of_not_lt hj), node_of_ge _ (Nat.le_of_not_lt hj)]
    simp [this]

section AddNode

variable (node : Node w n V) (bare : ∀ link : Fin (w + 1), node.links.get link = none)

theorem nodes_addNode : (tree.addNode node bare).nodes = tree.nodes.push node := rfl

@[simp]
theorem size_addNode : (tree.addNode node bare).nodes.size = tree.nodes.size + 1 := by
  simp [nodes_addNode]

theorem node_addNode (j : Nat) :
    (tree.addNode node bare).node j = if j = tree.nodes.size then node else tree.node j := by
  by_cases hj : j < tree.nodes.size + 1
  · rw [node_of_lt _ (by simpa using hj)]
    simp only [nodes_addNode, Array.getElem_push]
    split
    · next hlt => rw [node_of_lt _ hlt]; simp [Nat.ne_of_lt hlt]
    · next hge => simp [show j = tree.nodes.size by omega]
  · rw [node_of_ge _ (by rw [size_addNode]; omega), node_of_ge _ (by omega)]
    simp [show j ≠ tree.nodes.size by omega]

theorem node_addNode_of_lt {j : Nat} (hj : j < tree.nodes.size) :
    (tree.addNode node bare).node j = tree.node j := by
  rw [node_addNode, if_neg (Nat.ne_of_lt hj)]

/-- A new node is younger than every other, so it can be hung anywhere. -/
theorem younger_addNode {i : Nat} (hi : i < tree.nodes.size) :
    i < tree.nodes.size ∧ tree.nodes.size < (tree.addNode node bare).nodes.size := by
  rw [size_addNode]
  exact ⟨hi, Nat.lt_succ_self _⟩

end AddNode

@[simp]
theorem node_countEntry (j : Nat) : tree.countEntry.node j = tree.node j := rfl

@[simp]
theorem node_countNode (j : Nat) : tree.countNode.node j = tree.node j := rfl

end Tree

end FanoutIndex

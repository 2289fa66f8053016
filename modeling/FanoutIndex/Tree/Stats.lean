import FanoutIndex.Tree.Walk

namespace FanoutIndex

structure Stats where
  /-- Nodes that the root leads to, itself included. -/
  nodes : Nat
  /-- Occupied slots of these nodes. -/
  entries : Nat
  /-- Depth of the deepest of them; the root has depth 1. -/
  maxDepth : Nat
  deriving DecidableEq, Repr

namespace Tree

variable {w n : Nat} {V : Type} (tree : Tree w n V)

/-- Counts the nodes on a stack, each with its depth, and everything below them. -/
def statsFrom (stack : List (Nat × Nat)) (stats : Stats) : Stats :=
  match stack with
  | [] => stats
  | (i, depth) :: rest =>
    let below := (tree.children i).map fun entry => (entry.2, depth + 1)
    statsFrom (below.reverse ++ rest)
      { nodes := stats.nodes + 1
        entries := stats.entries + (tree.node i).occupied
        maxDepth := max stats.maxDepth depth }
  termination_by tree.stackWeight (stack.map (·.1))
  decreasing_by
    have h := tree.stackWeight_children_lt i
    have e : ((below.reverse ++ rest).map (·.1))
        = ((tree.children i).map (·.2)).reverse ++ rest.map (·.1) := by
      simp [below]
    rw [e]
    simp only [stackWeight_append, stackWeight_reverse, List.map_cons, stackWeight_cons]
    omega

def stats : Stats := tree.statsFrom [(root, 1)] ⟨0, 0, 0⟩

end Tree

end FanoutIndex

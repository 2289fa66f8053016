import FanoutIndex.Tree.Basic

/-!
# Walks

A walk keeps a stack of nodes to visit and replaces the top one by its children. Links lead to
younger nodes only, so a node weighs more than all its children together: the weight of the stack
falls with every visit, and every walk ends.
-/

namespace FanoutIndex

namespace Tree

variable {w n : Nat} {V : Type} (tree : Tree w n V)

/-- The weight of one node: each younger node weighs less by the factor `w + 2`. -/
def weight (i : Nat) : Nat := Nat.pow (w + 2) (tree.nodes.size - i)

def stackWeight : List Nat → Nat
  | [] => 0
  | i :: stack => tree.weight i + stackWeight stack

@[simp]
theorem stackWeight_cons (i : Nat) (stack : List Nat) :
    tree.stackWeight (i :: stack) = tree.weight i + tree.stackWeight stack := rfl

@[simp]
theorem stackWeight_append (a b : List Nat) :
    tree.stackWeight (a ++ b) = tree.stackWeight a + tree.stackWeight b := by
  induction a with
  | nil => simp [stackWeight]
  | cons i rest ih => simp [ih, Nat.add_assoc]

@[simp]
theorem stackWeight_reverse (stack : List Nat) :
    tree.stackWeight stack.reverse = tree.stackWeight stack := by
  induction stack with
  | nil => rfl
  | cons i rest ih => simp [ih, Nat.add_comm, stackWeight]

theorem weight_pos (i : Nat) : 0 < tree.weight i := Nat.pow_pos (Nat.succ_pos _)

theorem weight_le_of_le {i c : Nat} (h : i ≤ c) : tree.weight c ≤ tree.weight i :=
  Nat.pow_le_pow_right (Nat.succ_pos _) (by omega)

theorem weight_of_lt {i : Nat} (h : i < tree.nodes.size) :
    tree.weight i = (w + 2) * tree.weight (i + 1) := by
  have split : tree.nodes.size - i = tree.nodes.size - (i + 1) + 1 := by omega
  rw [weight, split]
  exact Nat.mul_comm _ _

theorem stackWeight_le_of_younger {i : Nat} {stack : List Nat} (younger : ∀ c ∈ stack, i < c) :
    tree.stackWeight stack ≤ stack.length * tree.weight (i + 1) := by
  induction stack with
  | nil => simp [stackWeight]
  | cons c rest ih =>
    have hc : tree.weight c ≤ tree.weight (i + 1) :=
      tree.weight_le_of_le (younger c List.mem_cons_self)
    have hr := ih fun x hx => younger x (List.mem_cons_of_mem _ hx)
    rw [stackWeight_cons, List.length_cons, Nat.succ_mul]
    omega

/-- The children of a node weigh less than the node. -/
theorem stackWeight_children_lt (i : Nat) :
    tree.stackWeight ((tree.children i).map (·.2)) < tree.weight i := by
  have younger : ∀ c ∈ (tree.children i).map (·.2), i < c := by
    intro c hc
    obtain ⟨entry, he, rfl⟩ := List.mem_map.1 hc
    exact (tree.lt_of_mem_children he).1
  have bound := tree.stackWeight_le_of_younger younger
  rw [List.length_map] at bound
  by_cases hi : i < tree.nodes.size
  · have few : (tree.children i).length ≤ w + 1 := (tree.node i).length_children_le
    have step := Nat.mul_le_mul_right (tree.weight (i + 1)) few
    rw [tree.weight_of_lt hi]
    calc
      _ ≤ (w + 1) * tree.weight (i + 1) := Nat.le_trans bound step
      _ < (w + 2) * tree.weight (i + 1) :=
        Nat.mul_lt_mul_of_pos_right (by omega) (tree.weight_pos _)
  · have none : tree.children i = [] := by
      rw [List.eq_nil_iff_forall_not_mem]
      intro entry he
      have := tree.lt_of_mem_children he
      omega
    rw [none]
    exact tree.weight_pos i

end Tree

end FanoutIndex

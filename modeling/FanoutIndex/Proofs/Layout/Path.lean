import FanoutIndex.Proofs.Layout.Face

/-!
# Paths of keys

A layout gives every node its face. The path of a key leads from the root along the links that the
key routes to; it stays a path however the layout grows, and at most one node on it is its end.
-/

namespace FanoutIndex

variable {w n : Nat} {V : Type}

abbrev Layout (w n : Nat) := Nat → Face w n

def Tree.layout (tree : Tree w n V) : Layout w n := fun i => (tree.node i).face

namespace Layout

/-- The nodes that a search for a key visits, with their depths. -/
inductive Path (L : Layout w n) (key : Key n) : Nat → Nat → Prop
  | root : Path L key FanoutIndex.root 1
  | step {i d c : Nat} {link : Fin (w + 1)} (before : Path L key i d)
      (down : (L i).Routes key (.descend link (some c))) : Path L key c (d + 1)

/-- The nodes that links lead to from the root. -/
inductive Reachable (L : Layout w n) : Nat → Prop
  | root : Reachable L FanoutIndex.root
  | step {i c : Nat} {link : Fin (w + 1)} (before : Reachable L i)
      (down : (L i).link link = some c) : Reachable L c

def Grows (L M : Layout w n) : Prop := ∀ i, (L i).Grows (M i)

variable {L M N : Layout w n} {key : Key n} {i j d e : Nat}

theorem Grows.refl (L : Layout w n) : L.Grows L := fun i => Face.Grows.refl (L i)

theorem Grows.trans (hLM : L.Grows M) (hMN : M.Grows N) : L.Grows N :=
  fun i => (hLM i).trans (hMN i)

theorem Path.grows (hp : L.Path key i d) (hg : L.Grows M) : M.Path key i d := by
  induction hp with
  | root => exact .root
  | step _ down ih => exact .step ih (down.down_grows (hg _))

theorem Reachable.grows (hr : L.Reachable i) (hg : L.Grows M) : M.Reachable i := by
  induction hr with
  | root => exact .root
  | step _ down ih => exact .step ih ((hg _).link _ _ down)

theorem Path.reachable (hp : L.Path key i d) : L.Reachable i := by
  induction hp with
  | root => exact .root
  | step _ down ih => exact .step ih down.2

theorem Path.depth_pos (hp : L.Path key i d) : 1 ≤ d := by
  cases hp with
  | root => exact Nat.le_refl 1
  | step _ _ => exact Nat.le_add_left 1 _

theorem Path.unique (hi : L.Path key i d) (hj : L.Path key j d) : i = j := by
  induction hi generalizing j with
  | root =>
    cases hj with
    | root => rfl
    | step before _ => exact absurd before.depth_pos (by omega)
  | step before down ih =>
    cases hj with
    | root => exact absurd before.depth_pos (by omega)
    | step before' down' =>
      obtain rfl := ih before'
      have h := down.unique down'
      simp only [Route.descend.injEq, Option.some.injEq] at h
      exact h.2

/-- A path goes on from each of its nodes but the last. -/
theorem Path.down_of_lt (hi : L.Path key i d) (hj : L.Path key j e) (h : d < e) :
    ∃ link c, (L i).Routes key (.descend link (some c)) := by
  induction hj with
  | root => exact absurd hi.depth_pos (by omega)
  | @step p f c link before down ih =>
    rcases Nat.lt_succ_iff_lt_or_eq.1 h with hlt | rfl
    · exact ih hlt
    · obtain rfl := hi.unique before
      exact ⟨link, c, down⟩

theorem Path.depth_le_of_end {place : Place w} (hi : L.Path key i d)
    (hend : (L i).Routes key place.route) (hj : L.Path key j e) : e ≤ d := by
  by_contra hlt
  obtain ⟨link, c, down⟩ := hi.down_of_lt hj (Nat.lt_of_not_le hlt)
  have h := hend.unique down
  cases place <;> simp [Place.route] at h

theorem Path.end_unique {place place' : Place w} (hi : L.Path key i d)
    (hend : (L i).Routes key place.route) (hj : L.Path key j e)
    (hend' : (L j).Routes key place'.route) : i = j ∧ d = e ∧ place = place' := by
  obtain rfl := Nat.le_antisymm (hj.depth_le_of_end hend' hi) (hi.depth_le_of_end hend hj)
  obtain rfl := hi.unique hj
  have h := hend.unique hend'
  refine ⟨rfl, rfl, ?_⟩
  cases place <;> cases place' <;> simp_all [Place.route]

end Layout

namespace Tree

variable (tree : Tree w n V)

theorem layout_of_ge {i : Nat} (h : tree.nodes.size ≤ i) :
    tree.layout i = (Node.empty : Node w n V).face := by
  rw [layout, tree.node_of_ge h]

theorem lt_of_layout_link {i c : Nat} {link : Fin (w + 1)}
    (h : (tree.layout i).link link = some c) : i < c ∧ c < tree.nodes.size :=
  tree.lt_of_link h

theorem lt_of_path {key : Key n} {i d : Nat} (size : 0 < tree.nodes.size)
    (h : tree.layout.Path key i d) : i < tree.nodes.size := by
  cases h with
  | root => exact size
  | step _ down => exact (tree.lt_of_layout_link down.2).2

theorem lt_of_reachable {i : Nat} (size : 0 < tree.nodes.size)
    (h : tree.layout.Reachable i) : i < tree.nodes.size := by
  cases h with
  | root => exact size
  | step _ down => exact (tree.lt_of_layout_link down).2

end Tree

end FanoutIndex

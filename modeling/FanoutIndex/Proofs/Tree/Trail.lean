import FanoutIndex.Proofs.Layout.Depth
import FanoutIndex.Proofs.Tree.Insert

/-!
# Trails of keys

The trail of a key lists the nodes that a search for it visits, from the root down. It ends at the
target of the key, in any tree, and its length is the depth of the target. After an insertion it
leads to the entry that was inserted.
-/

namespace FanoutIndex

variable {w n : Nat} {V : Type}

namespace Tree

variable (tree : Tree w n V) {key : Key n} {i child : Nat} {place : Place w}

theorem lt_of_turn_down (h : ((tree.node i).route key).turn = .down child) :
    i < child ∧ child < tree.nodes.size := by
  obtain ⟨link, hroute⟩ := turn_eq_down_iff.1 h
  exact tree.lt_of_layout_link (((tree.node i).route_eq_iff key).1 hroute).2

/-- The nodes that a search for a key visits from a node on. -/
def trailFrom (key : Key n) (i : Nat) : List Nat :=
  match _turn : ((tree.node i).route key).turn with
  | .here _ => [i]
  | .down child => i :: trailFrom key child
  termination_by tree.nodes.size - i
  decreasing_by
    have hlt := tree.lt_of_turn_down _turn
    omega

def trail (key : Key n) : List Nat := tree.trailFrom key root

variable {tree}

theorem trailFrom_of_here (h : ((tree.node i).route key).turn = .here place) :
    tree.trailFrom key i = [i] ∧ tree.targetFrom key i = (i, place) := by
  rw [trailFrom, targetFrom]
  constructor
  · split
    · rfl
    · next h' => cases h.symm.trans h'
  · split
    · next h' => cases h.symm.trans h'; rfl
    · next h' => cases h.symm.trans h'

theorem trailFrom_of_down (h : ((tree.node i).route key).turn = .down child) :
    tree.trailFrom key i = i :: tree.trailFrom key child ∧
      tree.targetFrom key i = tree.targetFrom key child := by
  rw [trailFrom, targetFrom]
  constructor
  · split
    · next h' => cases h.symm.trans h'
    · next h' => cases h.symm.trans h'; rfl
  · split
    · next h' => cases h.symm.trans h'
    · next h' => cases h.symm.trans h'; rfl

/-- A trail ends at the target, and goes one level down with each node. -/
theorem exists_trailFrom_eq {i d : Nat} (path : tree.layout.Path key i d) :
    ∃ above, tree.trailFrom key i = above ++ [(tree.targetFrom key i).1] ∧
      tree.layout.Path key (tree.targetFrom key i).1 (d + above.length) := by
  cases hturn : ((tree.node i).route key).turn with
  | here place =>
    obtain ⟨htrail, htarget⟩ := trailFrom_of_here hturn
    rw [htrail, htarget]
    exact ⟨[], rfl, path⟩
  | down child =>
    have hlt := tree.lt_of_turn_down hturn
    obtain ⟨htrail, htarget⟩ := trailFrom_of_down hturn
    obtain ⟨link, hroute⟩ := turn_eq_down_iff.1 hturn
    obtain ⟨above, habove, hend⟩ :=
      exists_trailFrom_eq (path.step (((tree.node i).route_eq_iff key).1 hroute))
    rw [htrail, htarget, habove]
    refine ⟨i :: above, rfl, ?_⟩
    rwa [List.length_cons, Nat.add_comm above.length, ← Nat.add_assoc]
  termination_by tree.nodes.size - i

theorem exists_trail_eq (tree : Tree w n V) (key : Key n) :
    ∃ above, tree.trail key = above ++ [(tree.target key).1] ∧
      tree.layout.Path key (tree.target key).1 (tree.trail key).length := by
  obtain ⟨above, habove, hend⟩ := exists_trailFrom_eq (.root : tree.layout.Path key root 1)
  refine ⟨above, habove, ?_⟩
  rw [trail, habove, List.length_append, List.length_singleton, Nat.add_comm]
  exact hend

theorem path_target (tree : Tree w n V) (key : Key n) :
    tree.layout.Path key (tree.target key).1 (tree.trail key).length :=
  (tree.exists_trail_eq key).choose_spec.2

theorem target_mem_trail (tree : Tree w n V) (key : Key n) :
    (tree.target key).1 ∈ tree.trail key := by
  obtain ⟨above, habove, _⟩ := tree.exists_trail_eq key
  simp [habove]

theorem routes_target (tree : Tree w n V) (key : Key n) :
    (tree.layout (tree.target key).1).Routes key (tree.target key).2.route :=
  (tree.target_end key).choose_spec.2

theorem targetFrom_congr {other : Tree w n V} (h : other.layout = tree.layout) (key : Key n)
    (i : Nat) : other.targetFrom key i = tree.targetFrom key i := by
  have hroute : (other.node i).route key = (tree.node i).route key :=
    Node.route_congr key (congrFun h i)
  cases hturn : ((tree.node i).route key).turn with
  | here place => rw [(trailFrom_of_here hturn).2, (trailFrom_of_here (hroute ▸ hturn)).2]
  | down child =>
    have hlt := tree.lt_of_turn_down hturn
    rw [(trailFrom_of_down hturn).2, (trailFrom_of_down (hroute ▸ hturn)).2,
      targetFrom_congr h key child]
  termination_by tree.nodes.size - i

theorem trailFrom_congr {other : Tree w n V} (h : other.layout = tree.layout) (key : Key n)
    (i : Nat) : other.trailFrom key i = tree.trailFrom key i := by
  have hroute : (other.node i).route key = (tree.node i).route key :=
    Node.route_congr key (congrFun h i)
  cases hturn : ((tree.node i).route key).turn with
  | here place => rw [(trailFrom_of_here hturn).1, (trailFrom_of_here (hroute ▸ hturn)).1]
  | down child =>
    have hlt := tree.lt_of_turn_down hturn
    rw [(trailFrom_of_down hturn).1, (trailFrom_of_down (hroute ▸ hturn)).1,
      trailFrom_congr h key child]
  termination_by tree.nodes.size - i

theorem target_and_trail_eq {d : Nat} (path : tree.layout.Path key i d)
    (hend : (tree.layout i).Routes key place.route) :
    tree.target key = (i, place) ∧ (tree.trail key).length = d := by
  obtain ⟨hi, hd, hplace⟩ := (tree.path_target key).end_unique (tree.routes_target key) path hend
  exact ⟨Prod.ext hi hplace, hd⟩

section Insert

variable {value : V}

theorem routes_found_occupy {f : Face w n} {slot : Fin w} (h : f.Routes key (.vacant slot)) :
    (f.occupy slot key).Routes key (.found slot) :=
  ⟨h.1.grows (Face.grows_occupy h.2), by rw [Face.key_occupy, if_pos rfl]⟩

theorem routes_found_single (hw : 0 < w) :
    (Face.single key).Routes key (.found (⟨0, hw⟩ : Fin w)) :=
  ⟨fun _ h => absurd h (Nat.not_lt_zero _), by simp [Face.single]⟩

/-- A key that was inserted is found where it was put, in a tree of any content. -/
theorem exists_target_insert (key : Key n) (value : V) (hw : 0 < w) (size : 0 < tree.nodes.size) :
    ∃ j slot, (tree.insert key value).target key = (j, .update slot) ∧
      ((tree.insert key value).node j).stored? slot = some (key, value) ∧
      ((tree.insert key value).trail key).length =
        (tree.trail key).length + created (tree.target key).2 := by
  have hend := tree.routes_target key
  have hi := target_lt size key
  have grown : (tree.insert key value).layout.Path key _ _ :=
    (tree.path_target key).grows (grows_insert size)
  rw [insert] at *
  generalize (tree.target key).1 = i at *
  generalize (tree.trail key).length = d at *
  cases hplace : (tree.target key).2 with
  | update slot =>
    rw [hplace] at hend grown
    have found : ((tree.change i (.update slot) key value).layout i).Routes key
        (Place.update slot).route := by
      rw [layout_change_update hi hend]
      exact hend
    obtain ⟨htarget, hlength⟩ := target_and_trail_eq grown found
    refine ⟨i, slot, htarget, ?_, hlength⟩
    rw [node_change_update, if_pos ⟨rfl, hi⟩, Node.stored?_assign_self]
  | fill slot =>
    rw [hplace] at hend grown
    have found : ((tree.change i (.fill slot) key value).layout i).Routes key
        (Place.update slot).route := by
      rw [layout_change_fill hi, Layout.occupy_self]
      exact routes_found_occupy hend
    obtain ⟨htarget, hlength⟩ := target_and_trail_eq grown found
    refine ⟨i, slot, htarget, ?_, hlength⟩
    rw [node_change_fill, if_pos ⟨rfl, hi⟩]
    exact Node.stored?_assign_self _ slot key value
  | attach link =>
    rw [hplace] at hend grown
    -- The path goes on to the new node, which has the key in its first slot.
    have down : ((tree.change i (.attach link) key value).layout i).Routes key
        (.descend link (some tree.nodes.size)) := by
      rw [layout_change_attach hi, Layout.hang_self, create_of_ne hi]
      exact ⟨hend.1, by rw [Face.link_hang, if_pos rfl]⟩
    have found : ((tree.change i (.attach link) key value).layout tree.nodes.size).Routes key
        (Place.update ⟨0, hw⟩).route := by
      rw [layout_change_attach hi, Layout.hang_of_ne hi.ne', Function.update_self]
      exact routes_found_single hw
    obtain ⟨htarget, hlength⟩ := target_and_trail_eq (grown.step down) found
    refine ⟨tree.nodes.size, ⟨0, hw⟩, htarget, ?_, hlength⟩
    rw [node_change_attach hi, if_pos rfl, Node.stored?_ofEntry, if_pos rfl]

end Insert

end Tree

end FanoutIndex

import FanoutIndex.Proofs.Tree.Insert
import FanoutIndex.Proofs.Tree.Visits

namespace FanoutIndex

variable {w n : Nat} {V V' : Type}

/-- The nodes of a tree with their versions, keys and links, and its counters. -/
@[ext]
structure Shape (w n : Nat) where
  size : Nat
  version : Nat → Version
  layout : Layout w n
  len : Nat
  nodeCount : Nat

def Tree.shape (tree : Tree w n V) : Shape w n where
  size := tree.nodes.size
  version i := (tree.node i).version
  layout := tree.layout
  len := tree.len
  nodeCount := tree.nodeCount

namespace Node

variable {a : Node w n V} {b : Node w n V'}

theorem children_congr (h : a.face = b.face) : a.children = b.children := by
  have hlink (link : Fin (w + 1)) : a.links.get link = b.links.get link :=
    congrFun (congrArg Face.link h) link
  simp only [children, hlink]

theorem occupied_le_of_face_eq (h : a.face = b.face) : a.occupied ≤ b.occupied := by
  by_contra hlt
  have hb : b.occupied < w := (Nat.lt_of_not_le hlt).trans_le a.occupied_le
  obtain ⟨key, hkey⟩ :=
    a.face_key_of_lt_occupied (show (⟨b.occupied, hb⟩ : Fin w).val < a.occupied by simpa using hlt)
  rw [h, b.face_key_occupied hb] at hkey
  cases hkey

theorem occupied_congr (h : a.face = b.face) : a.occupied = b.occupied :=
  Nat.le_antisymm (occupied_le_of_face_eq h) (occupied_le_of_face_eq h.symm)

end Node

namespace Tree

variable {s : Tree w n V} {t : Tree w n V'} {key : Key n} {value : V} {other : V'} {i : Nat}

theorem stats_congr (h : s.shape = t.shape) : s.stats = t.stats := by
  have hface (i : Nat) : (s.node i).face = (t.node i).face :=
    congrFun (congrArg Shape.layout h) i
  have hfrom (stack : List (Nat × Nat)) (stats : Stats) :
      s.statsFrom stack stats = t.statsFrom stack stats := by
    fun_induction s.statsFrom stack stats with
    | case1 => rw [statsFrom]
    | case2 stats i depth rest below ih =>
      rw [ih, statsFrom, Node.occupied_congr (hface i)]
      simp only [below, children, Node.children_congr (hface i)]
  exact hfrom _ _

theorem target_congr (h : s.layout = t.layout) (key : Key n) : s.target key = t.target key := by
  obtain ⟨d, path, hend⟩ := s.target_end key
  rw [h] at path hend
  exact (target_eq path hend).symm

theorem version_of_ge {tree : Tree w n V} (h : tree.nodes.size ≤ i) :
    (tree.node i).version = .new := by
  rw [tree.node_of_ge h]
  rfl

theorem layout_change_congr (hi : i < s.nodes.size) (hi' : i < t.nodes.size)
    (size : s.nodes.size = t.nodes.size) (h : s.layout = t.layout) (place : Place w) :
    (s.change i place key value).layout = (t.change i place key other).layout := by
  cases place with
  | update slot => rw [change, change, layout_assign hi, layout_assign hi', h]
  | fill slot => rw [layout_change_fill hi, layout_change_fill hi', h]
  | attach link => rw [layout_change_attach hi, layout_change_attach hi', h, size]

theorem version_change_of_ge (hi : i < s.nodes.size) (place : Place w) {j : Nat}
    (hj : s.nodes.size ≤ j) : ((s.change i place key value).node j).version = .new := by
  have hij : i ≠ j := (hi.trans_le hj).ne
  cases place with
  | update slot =>
    rw [node_change_update, if_neg fun h => hij h.1, version_of_ge hj]
  | fill slot =>
    rw [node_change_fill, if_neg fun h => hij h.1, version_of_ge hj]
  | attach link =>
    rw [node_change_attach hi, if_neg hij]
    split_ifs
    · rfl
    · exact version_of_ge hj

/-- What a change makes of a shape does not depend on values. -/
theorem shape_change_congr (hi : i < s.nodes.size) (h : s.shape = t.shape) (place : Place w) :
    (s.change i place key value).shape = (t.change i place key other).shape := by
  have size : s.nodes.size = t.nodes.size := congrArg Shape.size h
  have hi' : i < t.nodes.size := size ▸ hi
  ext1
  case size => exact (size_change place hi).trans ((size ▸ size_change place hi').symm)
  case version =>
    funext j
    rcases Nat.lt_or_ge j s.nodes.size with hj | hj
    · have hversion : (s.node j).version = (t.node j).version :=
        congrFun (congrArg Shape.version h) j
      exact (version_change place hi hj).trans
        (hversion ▸ (version_change place hi' (size ▸ hj)).symm)
    · exact (version_change_of_ge hi place hj).trans
        (version_change_of_ge hi' place (size ▸ hj)).symm
  case layout => exact layout_change_congr hi hi' size (congrArg Shape.layout h) place
  case len =>
    have hlen : s.len = t.len := congrArg Shape.len h
    exact (len_change place).trans (hlen ▸ (len_change place).symm)
  case nodeCount =>
    have hcount : s.nodeCount = t.nodeCount := congrArg Shape.nodeCount h
    exact (nodeCount_change place).trans (hcount ▸ (nodeCount_change place).symm)

theorem shape_insert_congr (size : 0 < s.nodes.size) (h : s.shape = t.shape) :
    (s.insert key value).shape = (t.insert key other).shape := by
  rw [insert, insert, ← target_congr (congrArg Shape.layout h)]
  exact shape_change_congr (target_lt size key) h _

theorem shape_change_update {slot : Fin w} (hi : i < s.nodes.size)
    (found : (s.layout i).Routes key (.found slot)) :
    (s.change i (.update slot) key value).shape = s.shape := by
  ext1
  case size => exact size_change _ hi
  case version =>
    funext j
    change ((s.change i (.update slot) key value).node j).version = (s.node j).version
    rw [node_change_update]
    split_ifs <;> rfl
  case layout => exact layout_change_update hi found
  case len => exact len_change _
  case nodeCount => exact nodeCount_change _

end Tree

end FanoutIndex

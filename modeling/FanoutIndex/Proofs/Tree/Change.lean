import FanoutIndex.Proofs.Layout.Contents
import FanoutIndex.Proofs.Version.Word
import FanoutIndex.Tree.Lemmas

/-!
# Changes of trees

What a put does to a tree, without locks: the target of a key is found on the way down from the
root, and there an entry is written or a new node is hung. A node that gets a slot or a child has
one more change counted in its version.
-/

namespace FanoutIndex

variable {w n : Nat} {V : Type}

namespace Tree

theorem ext_node {s t : Tree w n V} (size : s.nodes.size = t.nodes.size)
    (node : ∀ i < s.nodes.size, s.node i = t.node i) (keyWidth : s.keyWidth = t.keyWidth)
    (nodeCount : s.nodeCount = t.nodeCount) (len : s.len = t.len) : s = t := by
  have nodes : s.nodes = t.nodes := by
    apply Array.ext size
    intro i hs ht
    rw [← s.node_of_lt hs, ← t.node_of_lt ht]
    exact node i hs
  cases s
  cases t
  simp_all

variable (tree : Tree w n V)

def bump (i : Nat) : Tree w n V := tree.setVersion i (tree.node i).version.bumped

/-- The nodes that a change at a place creates. -/
def created : Place w → Nat
  | .update _ => 0
  | .fill _ => 0
  | .attach _ => 1

/-- Makes the change of a put at a place of a node. -/
def change (i : Nat) (place : Place w) (key : Key n) (value : V) : Tree w n V :=
  match place with
  | .update slot => tree.assign i slot key value
  | .fill slot => ((tree.assign i slot key value).bump i).countEntry
  | .attach link =>
    (((tree.addNode (.ofEntry key value) (Node.links_ofEntry key value)).setLink i link
      tree.nodes.size).bump i).countNode.countEntry

def targetFrom (key : Key n) (i : Nat) : Nat × Place w :=
  match _turn : ((tree.node i).route key).turn with
  | .here place => (i, place)
  | .down child => targetFrom key child
  termination_by tree.nodes.size - i
  decreasing_by
    obtain ⟨link, h⟩ := turn_eq_down_iff.1 _turn
    have hlink := ((tree.node i).route_eq_iff key).1 h
    have hlt := tree.lt_of_layout_link hlink.2
    omega

def target (key : Key n) : Nat × Place w := tree.targetFrom key root

def insert (key : Key n) (value : V) : Tree w n V :=
  tree.change (tree.target key).1 (tree.target key).2 key value

variable {tree} {key : Key n} {value : V}

theorem targetFrom_end {i d : Nat} (path : tree.layout.Path key i d) :
    ∃ e, tree.layout.Path key (tree.targetFrom key i).1 e ∧
      (tree.layout (tree.targetFrom key i).1).Routes key (tree.targetFrom key i).2.route := by
  rw [targetFrom]
  split
  · next place h =>
    exact ⟨d, path, ((tree.node i).route_eq_iff key).1 (turn_eq_here_iff.1 h)⟩
  · next child h =>
    obtain ⟨link, h⟩ := turn_eq_down_iff.1 h
    have hroute := ((tree.node i).route_eq_iff key).1 h
    have hlt := tree.lt_of_layout_link hroute.2
    exact targetFrom_end (path.step hroute)
  termination_by tree.nodes.size - i

variable {i d : Nat}

theorem target_end (tree : Tree w n V) (key : Key n) :
    ∃ d, tree.layout.Path key (tree.target key).1 d ∧
      (tree.layout (tree.target key).1).Routes key (tree.target key).2.route :=
  targetFrom_end .root

/-- The value that a search for a key ends at. -/
def contents (tree : Tree w n V) (key : Key n) : Option V :=
  (tree.node (tree.target key).1).valueOf (tree.target key).2

theorem contents_eq_some_iff (sound : tree.layout.Sound) :
    tree.contents key = some value ↔ tree.Holds key value := by
  obtain ⟨d, path, hend⟩ := tree.target_end key
  exact valueOf_eq_some_iff sound path hend

theorem contents_congr {after : Tree w n V} (before : tree.layout.Sound)
    (sound : after.layout.Sound) (same : ∀ k v, after.Holds k v ↔ tree.Holds k v) :
    after.contents = tree.contents := by
  funext k
  apply Option.ext
  intro v
  rw [contents_eq_some_iff sound, contents_eq_some_iff before, same]

theorem Stores.contents {after : Tree w n V} (h : tree.Stores after key value)
    (before : tree.layout.Sound) (sound : after.layout.Sound) :
    after.contents = Function.update tree.contents key (some value) := by
  funext k
  apply Option.ext
  intro v
  rw [contents_eq_some_iff sound, h k v, Function.update_apply]
  split_ifs with hk
  · simp [eq_comm]
  · exact (contents_eq_some_iff before).symm

theorem target_eq {place : Place w} (path : tree.layout.Path key i d)
    (hend : (tree.layout i).Routes key place.route) : tree.target key = (i, place) := by
  obtain ⟨e, hpath, hroutes⟩ := tree.target_end key
  obtain ⟨hi, _, hplace⟩ := hpath.end_unique hroutes path hend
  exact Prod.ext hi hplace

theorem insert_eq {place : Place w} (path : tree.layout.Path key i d)
    (hend : (tree.layout i).Routes key place.route) :
    tree.insert key value = tree.change i place key value := by
  rw [insert, target_eq path hend]

theorem node_bump (j : Nat) :
    (tree.bump i).node j =
      if i = j ∧ j < tree.nodes.size then (tree.node j).setVersion (tree.node j).version.bumped
      else tree.node j := by
  rw [bump, node_setVersion]
  split_ifs with h
  · rw [h.1]
  · rfl

@[simp]
theorem size_bump : (tree.bump i).nodes.size = tree.nodes.size :=
  size_modifyNode tree i (·.setVersion (tree.node i).version.bumped) fun _ => rfl

@[simp]
theorem size_assign (slot : Fin w) :
    (tree.assign i slot key value).nodes.size = tree.nodes.size :=
  size_modifyNode tree i (·.assign slot key value) fun _ => rfl

@[simp]
theorem size_setVersion (version : Version) :
    (tree.setVersion i version).nodes.size = tree.nodes.size :=
  size_modifyNode tree i (·.setVersion version) fun _ => rfl

theorem size_setLink {link : Fin (w + 1)} {child : Nat}
    (younger : i < child ∧ child < tree.nodes.size) :
    (tree.setLink i link child).nodes.size = tree.nodes.size := by
  rw [nodes_setLink tree younger, Array.size_modify]

theorem version_setVersion {version : Version} (hi : i < tree.nodes.size) :
    ((tree.setVersion i version).node i).version = version := by
  rw [node_setVersion, if_pos ⟨rfl, hi⟩]
  rfl

theorem setVersion_setVersion (a b : Version) :
    (tree.setVersion i a).setVersion i b = tree.setVersion i b := by
  apply ext_node
  case node =>
    intro j _
    rw [node_setVersion, node_setVersion, node_setVersion, size_setVersion]
    split_ifs <;> rfl
  all_goals simp [setVersion, modifyNode]

theorem setVersion_version : tree.setVersion i (tree.node i).version = tree := by
  apply ext_node
  case node =>
    intro j _
    rw [node_setVersion]
    split_ifs with h
    · rw [h.1]
      rfl
    · rfl
  all_goals simp [setVersion, modifyNode]

section SetLink

variable {link : Fin (w + 1)} {child : Nat}

theorem keyWidth_setLink : (tree.setLink i link child).keyWidth = tree.keyWidth := by
  obtain ⟨⟩ := tree
  dsimp only [setLink]
  split_ifs <;> rfl

theorem len_setLink : (tree.setLink i link child).len = tree.len := by
  obtain ⟨⟩ := tree
  dsimp only [setLink]
  split_ifs <;> rfl

theorem nodeCount_setLink : (tree.setLink i link child).nodeCount = tree.nodeCount := by
  obtain ⟨⟩ := tree
  dsimp only [setLink]
  split_ifs <;> rfl

end SetLink

theorem version_assign (slot : Fin w) (j : Nat) :
    ((tree.assign i slot key value).node j).version = (tree.node j).version := by
  rw [node_assign]
  split_ifs <;> rfl

section SetVersion

variable {version : Version}

theorem assign_setVersion (slot : Fin w) :
    (tree.setVersion i version).assign i slot key value =
      (tree.assign i slot key value).setVersion i version := by
  apply ext_node
  case node =>
    intro j _
    rw [node_assign, node_setVersion, node_setVersion, node_assign, size_setVersion, size_assign]
    split_ifs <;> rfl
  all_goals simp [setVersion, assign, modifyNode]

theorem addNode_setVersion (hi : i < tree.nodes.size) (node : Node w n V)
    (bare : ∀ link : Fin (w + 1), node.links.get link = none) :
    (tree.setVersion i version).addNode node bare =
      (tree.addNode node bare).setVersion i version := by
  apply ext_node
  case size => simp
  case node =>
    intro j _
    rw [node_addNode, node_setVersion, node_setVersion, node_addNode, size_setVersion,
      size_addNode]
    by_cases hj : j = tree.nodes.size
    · simp [hj, Nat.ne_of_lt hi]
    · by_cases hij : i = j
      · subst hij
        simp [hj, hi, Nat.lt_succ_of_lt hi]
      · simp [hj, hij]
  all_goals rfl

theorem setLink_setVersion {link : Fin (w + 1)} {child : Nat}
    (younger : i < child ∧ child < tree.nodes.size) :
    (tree.setVersion i version).setLink i link child =
      (tree.setLink i link child).setVersion i version := by
  have younger' : i < child ∧ child < (tree.setVersion i version).nodes.size := by
    rwa [size_setVersion]
  apply ext_node
  case size => rw [size_setLink younger', size_setVersion, size_setVersion, size_setLink younger]
  case node =>
    intro j _
    rw [node_setLink _ younger', node_setVersion, node_setVersion, node_setLink _ younger,
      size_setLink younger]
    split_ifs <;> rfl
  case keyWidth =>
    rw [keyWidth_setLink]
    exact (keyWidth_setLink : (tree.setLink i link child).keyWidth = _).symm
  case nodeCount =>
    rw [nodeCount_setLink]
    exact (nodeCount_setLink : (tree.setLink i link child).nodeCount = _).symm
  case len =>
    rw [len_setLink]
    exact (len_setLink : (tree.setLink i link child).len = _).symm

theorem countEntry_setVersion :
    (tree.setVersion i version).countEntry = tree.countEntry.setVersion i version := rfl

theorem countNode_setVersion :
    (tree.setVersion i version).countNode = tree.countNode.setVersion i version := rfl

end SetVersion

theorem size_change (place : Place w) (hi : i < tree.nodes.size) :
    (tree.change i place key value).nodes.size =
      tree.nodes.size + created place := by
  cases place with
  | update slot => exact size_assign slot
  | fill slot =>
    change ((tree.assign i slot key value).bump i).nodes.size = _
    rw [size_bump, size_assign]
    rfl
  | attach link =>
    change ((((tree.addNode _ _).setLink i link tree.nodes.size).bump i)).nodes.size = _
    rw [size_bump, size_setLink (by simpa using hi), size_addNode]
    rfl

theorem node_change_update (slot : Fin w) (j : Nat) :
    (tree.change i (.update slot) key value).node j =
      if i = j ∧ j < tree.nodes.size then (tree.node j).assign slot key value else tree.node j :=
  tree.node_assign i j slot key value

theorem node_change_fill (slot : Fin w) (j : Nat) :
    (tree.change i (.fill slot) key value).node j =
      if i = j ∧ j < tree.nodes.size then
        ((tree.node j).assign slot key value).setVersion (tree.node j).version.bumped
      else tree.node j := by
  rw [change, node_countEntry, node_bump, node_assign, size_assign]
  split_ifs <;> rfl

theorem node_change_attach (hi : i < tree.nodes.size) (link : Fin (w + 1)) (j : Nat) :
    (tree.change i (.attach link) key value).node j =
      if j = tree.nodes.size then .ofEntry key value
      else if i = j then
        ((tree.node j).setLink link tree.nodes.size).setVersion (tree.node j).version.bumped
      else tree.node j := by
  have younger : i < tree.nodes.size ∧ tree.nodes.size <
      (tree.addNode (.ofEntry key value) (Node.links_ofEntry key value)).nodes.size := by
    simpa using hi
  rw [change, node_countEntry, node_countNode, node_bump, node_setLink _ younger, node_addNode,
    size_setLink younger, size_addNode]
  by_cases hj : j = tree.nodes.size
  · simp [hj, Nat.ne_of_lt hi]
  · by_cases hij : i = j
    · subst hij
      simp only [hj, if_true, if_false, true_and, Nat.lt_succ_of_lt hi]
      rfl
    · simp [hj, hij]

end Tree

end FanoutIndex

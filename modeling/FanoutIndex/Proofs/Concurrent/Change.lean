import FanoutIndex.Proofs.Concurrent.Search

/-!
# Changes, access by access

A client that holds a lock is the only one to change its node, so what it knows of the node is true
until it writes, and the changes of the layout are those of a sound one.
-/

namespace FanoutIndex

variable {w n : Nat} {V : Type}

namespace Node

variable {node : Node w n V} {slot : Fin w} {index i : Fin n} {word : UInt64}

/-- A word of a vacant slot, or a word that is there already, is no change of the face. -/
theorem face_setWord
    (h : node.face.key slot = none ∨ (node.keys.get slot).words.get index = word) :
    (node.setWord slot index word).face = node.face := by
  ext1
  · funext s
    rw [face_key, face_key]
    by_cases hs : s = slot
    · subst hs
      rcases h with h | h
      · rw [face_key_eq_none_iff] at h
        simp [setWord, h]
      · subst h
        simp [setWord, get_eq_getElem]
    · have hne : slot.val ≠ s.val := fun e => hs (Fin.ext e.symm)
      simp [setWord, get_eq_getElem, hne]
  · rfl

theorem words_setWord : ((node.setWord slot index word).keys.get slot).words.get i =
    if i = index then word else (node.keys.get slot).words.get i := by
  simp only [setWord, get_eq_getElem, Vector.getElem_set_self, Vector.getElem_set]
  by_cases h : index.val = i.val
  · simp [h, Fin.ext h.symm]
  · have hne : i ≠ index := fun e => h (congrArg Fin.val e.symm)
    simp [h, hne]

theorem changes_empty : (empty : Node w n V).version.changes = 0 := Version.changes_new

theorem changes_ofEntry (key : Key n) (value : V) :
    (ofEntry key value : Node w n V).version.changes = 0 := Version.changes_new

theorem setValue_eq_assign (value : V) :
    node.setValue slot value = node.assign slot (node.keys.get slot) value := by
  simp [setValue, assign, get_eq_getElem]

end Node

namespace Tree

variable {before after tree : Tree w n V} {stage : Stage w n V} {i child : Nat} {slot : Fin w}
  {version : Version} {key : Key n} {value : V}

/-- The trees have the same nodes but for one. -/
structure AgreesOff (before after : Tree w n V) (i : Nat) : Prop where
  size : after.nodes.size = before.nodes.size
  frame : ∀ j, j ≠ i → after.node j = before.node j

theorem agreesOff_modifyNode {change : Node w n V → Node w n V}
    (keeps : ∀ node, (change node).links = node.links) :
    tree.AgreesOff (tree.modifyNode i change keeps) i where
  size := size_modifyNode tree i change keeps
  frame := by
    intro j hj
    rw [node_modifyNode, if_neg fun h => hj h.1.symm]

theorem agreesOff_setVersion : tree.AgreesOff (tree.setVersion i version) i :=
  agreesOff_modifyNode _

theorem agreesOff_setWord {index : Fin n} {word : UInt64} :
    tree.AgreesOff (tree.setWord i slot index word) i :=
  agreesOff_modifyNode _

theorem agreesOff_assign : tree.AgreesOff (tree.assign i slot key value) i :=
  agreesOff_modifyNode _

theorem agreesOff_setLink {link : Fin (w + 1)} (younger : i < child ∧ child < tree.nodes.size) :
    tree.AgreesOff (tree.setLink i link child) i where
  size := size_setLink younger
  frame := by
    intro j hj
    rw [node_setLink _ younger, if_neg (Ne.symm hj)]

theorem steps_of_node (same : before.AgreesOff after stage.node)
    (advances : (before.node stage.node).Advances (after.node stage.node))
    (free : stage.isHolding = true ∨ (before.node stage.node).version.isLocked = false)
    (linked : ∀ l c, (after.layout stage.node).link l = some c →
      (before.layout stage.node).link l = some c ∨ stage.child? = some c) :
    before.Steps after stage where
  size := same.size.ge
  advances := by
    intro j _
    by_cases hj : j = stage.node
    · rwa [hj]
    · rw [same.frame j hj]
      exact .refl _
  frame := fun j _ hj => same.frame j hj
  kept := by
    intro j _ hmine hlocked
    apply same.frame
    rintro rfl
    rcases free with hheld | hfree
    · exact hmine hheld rfl
    · rw [hfree] at hlocked
      cases hlocked
  linked := by
    intro j l c hl
    by_cases hj : j = stage.node
    · subst hj
      exact linked l c hl
    · rw [layout, same.frame j hj] at hl
      exact .inl hl

theorem Wellformed.of_node (wf : before.Wellformed) (same : before.AgreesOff after i)
    (sound : after.layout.Sound)
    (counted : (after.node i).version.changes ≤ (after.node i).face.size) : after.Wellformed where
  size := same.size ▸ wf.size
  sound := sound
  counted := by
    intro j
    by_cases hj : j = i
    · rwa [hj]
    · rw [same.frame j hj]
      exact wf.counted j

section Create

theorem steps_create :
    tree.Steps (tree.addNode (.ofEntry key value) (Node.links_ofEntry key value)) stage where
  size := by
    rw [size_addNode]
    exact Nat.le_succ _
  advances := by
    intro j hj
    rw [node_addNode_of_lt _ _ _ hj]
    exact .refl _
  frame := fun j hj _ => node_addNode_of_lt _ _ _ hj
  kept := fun j hj _ _ => node_addNode_of_lt _ _ _ hj
  linked := by
    intro j l c hl
    rw [layout_create] at hl
    by_cases hj : j = tree.nodes.size
    · rw [hj, Function.update_self] at hl
      cases hl
    · rw [Function.update_of_ne hj] at hl
      exact .inl hl

theorem Wellformed.create (wf : tree.Wellformed) (key : Key n) (value : V) :
    (tree.addNode (.ofEntry key value) (Node.links_ofEntry key value)).Wellformed where
  size := by
    rw [size_addNode]
    exact Nat.succ_pos _
  sound := sound_create wf.size wf.sound
  counted := by
    intro j
    rw [node_addNode]
    split_ifs with hj
    · rw [Node.changes_ofEntry]
      exact Nat.zero_le _
    · exact wf.counted j

end Create

section SetVersion

theorem node_setVersion_self (hi : i < tree.nodes.size) :
    (tree.setVersion i version).node i = (tree.node i).setVersion version := by
  rw [node_setVersion, if_pos ⟨rfl, hi⟩]

theorem steps_setVersion (node : stage.node = i) (hi : i < tree.nodes.size)
    (advances : (tree.node i).version.Advances version)
    (free : stage.isHolding = true ∨ (tree.node i).version.isLocked = false) :
    tree.Steps (tree.setVersion i version) stage := by
  subst node
  apply steps_of_node agreesOff_setVersion _ free
  · intro l c hl
    rw [layout_setVersion] at hl
    exact .inl hl
  · rw [node_setVersion_self hi]
    exact .setVersion advances

theorem wellformed_setVersion (wf : tree.Wellformed) (hi : i < tree.nodes.size)
    (room : version.changes ≤ (tree.node i).face.size) :
    (tree.setVersion i version).Wellformed := by
  refine wf.of_node agreesOff_setVersion ?_ ?_
  · rw [layout_setVersion]
    exact wf.sound
  · rw [node_setVersion_self hi]
    exact room

theorem Spare.setVersion (spare : tree.Spare child key value) (hne : i ≠ child) :
    (tree.setVersion i version).Spare child key value where
  known := by
    rw [size_setVersion]
    exact spare.known
  entry := by
    rw [node_setVersion, if_neg (fun h => hne h.1)]
    exact spare.entry
  unlinked := by
    rw [layout_setVersion]
    exact spare.unlinked

end SetVersion

section SetWord

variable {index : Fin n} {word : UInt64}

theorem node_setWord (j : Nat) : (tree.setWord i slot index word).node j =
    if i = j ∧ j < tree.nodes.size then (tree.node j).setWord slot index word else tree.node j :=
  tree.node_modifyNode i _ _ j

theorem node_setWord_self (hi : i < tree.nodes.size) :
    (tree.setWord i slot index word).node i = (tree.node i).setWord slot index word := by
  rw [node_setWord, if_pos ⟨rfl, hi⟩]

theorem layout_setWord (h : (tree.node i).face.key slot = none ∨
    ((tree.node i).keys.get slot).words.get index = word) :
    (tree.setWord i slot index word).layout = tree.layout := by
  funext j
  rw [layout, node_setWord]
  split_ifs with hij
  · rw [← hij.1]
    exact Node.face_setWord h
  · rfl

end SetWord

theorem node_assign_self (hi : i < tree.nodes.size) :
    (tree.assign i slot key value).node i = (tree.node i).assign slot key value := by
  rw [node_assign, if_pos ⟨rfl, hi⟩]

theorem node_setValue (j : Nat) : (tree.setValue i slot value).node j =
    if i = j ∧ j < tree.nodes.size then (tree.node j).setValue slot value else tree.node j :=
  tree.node_modifyNode i _ _ j

/-- Where the key is there already, the value makes the entry. -/
theorem setValue_eq_assign (same : (tree.node i).keys.get slot = key) :
    tree.setValue i slot value = tree.assign i slot key value := by
  apply ext_node
  case size =>
    exact (size_modifyNode tree i (·.setValue slot value) fun _ => rfl).trans
      (size_assign slot).symm
  case node =>
    intro j _
    rw [node_setValue, node_assign]
    split_ifs with h
    · rw [← h.1, Node.setValue_eq_assign, same]
    · rfl
  all_goals rfl

theorem room_of_wide (wide : w < 2 ^ 29) {node : Node w n V}
    (marked : node.version.isInserting = true → node.version.changes + 1 ≤ node.face.size) :
    node.version.isInserting = true → node.version.changes + 1 < 2 ^ 30 := by
  intro h
  have hmarked := marked h
  have hsize := node.face.size_le
  omega

end Tree

end FanoutIndex

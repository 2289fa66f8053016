import FanoutIndex.Proofs.Tree.Shape

namespace FanoutIndex

variable {w n : Nat} {V : Type}

theorem Node.assign_eq_setValue {node : Node w n V} {slot : Fin w} {key : Key n} {value : V}
    (h : node.face.key slot = some key) : node.assign slot key value = node.setValue slot value := by
  have hkeys : node.keys.set slot key = node.keys := by
    ext1 s hs
    rw [Vector.getElem_set]
    split_ifs with heq
    · subst heq
      exact (node.keys_eq_of_face_key h).symm
    · rfl
  rw [assign, setValue, hkeys]

namespace Tree

/-- One node becomes another, and so many keys and nodes are new; the rest is as it was. -/
structure Changed (before after : Tree w n V) (i : Nat) (node : Node w n V) (keys nodes : Nat) :
    Prop where
  reached : before.layout.Reachable i
  here : after.node i = node
  others : ∀ j < before.nodes.size, j ≠ i → after.node j = before.node j
  size : after.nodes.size = before.nodes.size + nodes
  keyWidth : after.keyWidth = before.keyWidth
  len : after.len = before.len + keys
  nodeCount : after.nodeCount = before.nodeCount + nodes

/-- The value in the slot of a key was replaced. -/
structure Overwritten (before after : Tree w n V) (i : Nat) (slot : Fin w) (key : Key n)
    (value : V) : Prop extends before.Changed after i
      ((before.node i).setValue slot value) 0 0 where
  held : (before.node i).key? slot = some key
  stats : after.stats = before.stats

/-- An entry was written to a vacant slot. -/
structure Filled (before after : Tree w n V) (i : Nat) (slot : Fin w) (key : Key n)
    (value : V) : Prop extends before.Changed after i
      (((before.node i).assign slot key value).setVersion ⟨(before.node i).version.word + 4⟩) 1 0
      where
  vacant : (before.node i).key? slot = none

/-- A node with an entry in its first slot was created and hung under a link that led nowhere. -/
structure Hung (before after : Tree w n V) (i : Nat) (link : Fin (w + 1)) (key : Key n)
    (value : V) : Prop extends before.Changed after i
      (((before.node i).setLink link before.nodes.size).setVersion
        ⟨(before.node i).version.word + 4⟩) 1 1 where
  missing : (before.node i).links.get link = none
  version : (after.node before.nodes.size).version = .new
  entry : ∀ slot, (after.node before.nodes.size).stored? slot =
    if slot.val = 0 then some (key, value) else none
  childless : ∀ link : Fin (w + 1), (after.node before.nodes.size).links.get link = none

variable {tree : Tree w n V} {key k : Key n} {value x : V} {i d j : Nat} {slot t : Fin w}
  {link : Fin (w + 1)} {place : Place w}

theorem changed_change (hi : i < tree.nodes.size) (hr : tree.layout.Reachable i)
    (place : Place w) {node : Node w n V} (here : (tree.change i place key value).node i = node) :
    tree.Changed (tree.change i place key value) i node (added place) (created place) where
  reached := hr
  here := here
  others := by
    intro j hj hne
    cases place with
    | update slot => rw [node_change_update, if_neg fun h => hne h.1.symm]
    | fill slot => rw [node_change_fill, if_neg fun h => hne h.1.symm]
    | attach link => rw [node_change_attach hi, if_neg hj.ne, if_neg (Ne.symm hne)]
  size := size_change place hi
  keyWidth := keyWidth_change place
  len := len_change place
  nodeCount := nodeCount_change place

theorem overwritten_change (hi : i < tree.nodes.size) (hr : tree.layout.Reachable i)
    (found : (tree.layout i).Routes key (.found slot)) :
    tree.Overwritten (tree.change i (.update slot) key value) i slot key value where
  toChanged := by
    refine changed_change hi hr (.update slot) ?_
    rw [node_change_update, if_pos ⟨rfl, hi⟩, Node.assign_eq_setValue found.2]
  held := found.2
  stats := stats_congr (shape_change_update hi found)

theorem filled_change (key : Key n) (value : V) (hi : i < tree.nodes.size)
    (hr : tree.layout.Reachable i) (vacant : (tree.layout i).key slot = none) :
    tree.Filled (tree.change i (.fill slot) key value) i slot key value where
  toChanged := by
    refine changed_change hi hr (.fill slot) ?_
    rw [node_change_fill, if_pos ⟨rfl, hi⟩]
    rfl
  vacant := vacant

theorem hung_change (key : Key n) (value : V) (hi : i < tree.nodes.size)
    (hr : tree.layout.Reachable i) (missing : (tree.layout i).link link = none) :
    tree.Hung (tree.change i (.attach link) key value) i link key value where
  toChanged := by
    refine changed_change hi hr (.attach link) ?_
    rw [node_change_attach hi, if_neg hi.ne, if_pos rfl]
    rfl
  missing := missing
  version := by
    rw [node_change_attach hi, if_pos rfl, version_ofEntry]
  entry := by
    intro slot
    rw [node_change_attach hi, if_pos rfl, Node.stored?_ofEntry]
  childless := by
    intro link
    rw [node_change_attach hi, if_pos rfl, Node.links_ofEntry]

theorem holdsAt_change_of_ne (size : 0 < tree.nodes.size)
    (path : tree.layout.Path key i d) (hend : (tree.layout i).Routes key place.route)
    (hk : k ≠ key) : (tree.change i place key value).HoldsAt j t k x ↔ tree.HoldsAt j t k x := by
  have hi := tree.lt_of_path size path
  have hr := path.reachable
  cases place with
  | update slot =>
    rw [change, holdsAt_assign hi hr]
    split_ifs with h
    · obtain ⟨rfl, rfl⟩ := h
      refine iff_of_false (fun h => hk h.1) fun h => hk ?_
      exact Option.some.inj (h.face_key.symm.trans hend.2)
    · rfl
  | fill slot =>
    rw [change, holdsAt_countEntry, holdsAt_bump, holdsAt_assign hi hr]
    split_ifs with h
    · obtain ⟨rfl, rfl⟩ := h
      refine iff_of_false (fun h => hk h.1) fun h => ?_
      cases h.face_key.symm.trans hend.2
    · rfl
  | attach link =>
    have hempty : ((tree.addNode (.ofEntry key value)
        (Node.links_ofEntry key value)).layout i).link link = none := by
      rw [layout_create, create_of_ne hi]
      exact hend.2
    rw [change, holdsAt_countEntry, holdsAt_countNode, holdsAt_bump,
      holdsAt_setLink spare_create hi ((reachable_create size).2 hr) hempty, holdsAt_create size,
      or_iff_left fun h => hk h.2.2.1]

/-- An insertion leaves the entries of all other keys where they are, also in depth. -/
theorem holdsAt_insert_of_ne (size : 0 < tree.nodes.size) (sound : tree.layout.Sound)
    (hk : k ≠ key) :
    (tree.insert key value).HoldsAt j t k x ∧ (tree.insert key value).layout.HasDepth j d ↔
      tree.HoldsAt j t k x ∧ tree.layout.HasDepth j d := by
  obtain ⟨e, path, hend⟩ := tree.target_end key
  rw [insert, holdsAt_change_of_ne size path hend hk]
  refine and_congr_right fun h => ⟨fun hafter => ?_, fun hbefore => hbefore.grows ?_⟩
  · -- The node has a depth, and its depth afterwards is the same.
    obtain ⟨f, hf⟩ := h.1.exists_hasDepth
    have hgrown : (tree.insert key value).layout.HasDepth j f := hf.grows (grows_insert size)
    rwa [hafter.depth_unique (sound_insert size sound).forest hgrown]
  · exact grows_insert size

theorem exists_overwritten_insert (size : 0 < tree.nodes.size) (sound : tree.layout.Sound)
    (held : ∃ v, tree.Holds key v) (value : V) :
    (∃ i slot, tree.Overwritten (tree.insert key value) i slot key value) ∧
      (tree.insert key value).shape = tree.shape := by
  obtain ⟨d, path, hend⟩ := tree.target_end key
  have hi := target_lt size key
  rw [insert]
  cases hplace : (tree.target key).2 with
  | update slot =>
    rw [hplace] at hend
    exact ⟨⟨_, slot, overwritten_change hi path.reachable hend⟩, shape_change_update hi hend⟩
  | fill slot =>
    obtain ⟨v, hv⟩ := held
    exact absurd hv (not_holds_of_end sound path hend (by simp [hplace]))
  | attach link =>
    obtain ⟨v, hv⟩ := held
    exact absurd hv (not_holds_of_end sound path hend (by simp [hplace]))

/-- Inserting a new key fills a slot or hangs a node, and never does both. -/
theorem xor_filled_hung_insert (size : 0 < tree.nodes.size) (absent : ¬∃ v, tree.Holds key v)
    (value : V) :
    Xor (∃ i slot, tree.Filled (tree.insert key value) i slot key value)
      (∃ i link, tree.Hung (tree.insert key value) i link key value) := by
  obtain ⟨d, path, hend⟩ := tree.target_end key
  have hi := target_lt size key
  have apart {after : Tree w n V} (hfill : ∃ i slot, tree.Filled after i slot key value)
      (hhang : ∃ i link, tree.Hung after i link key value) : False := by
    obtain ⟨_, _, hfill⟩ := hfill
    obtain ⟨_, _, hhang⟩ := hhang
    have := hfill.size.symm.trans hhang.size
    omega
  rw [insert]
  cases hplace : (tree.target key).2 with
  | update slot =>
    rw [hplace] at hend
    obtain ⟨v, hv⟩ := Node.exists_stored?_of_face_key hend.2
    exact absurd ⟨v, _, slot, path.reachable, hv⟩ absent
  | fill slot =>
    rw [hplace] at hend
    have hfill := filled_change key value hi path.reachable hend.2
    exact .inl ⟨⟨_, slot, hfill⟩, apart ⟨_, slot, hfill⟩⟩
  | attach link =>
    rw [hplace] at hend
    have hhang := hung_change key value hi path.reachable hend.2
    exact .inr ⟨⟨_, link, hhang⟩, fun hfill => apart hfill ⟨_, link, hhang⟩⟩

end Tree

end FanoutIndex

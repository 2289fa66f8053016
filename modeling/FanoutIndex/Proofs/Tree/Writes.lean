import FanoutIndex.Proofs.Tree.Effect

namespace FanoutIndex

variable {w n : Nat} {V : Type}

namespace Tree

def reached (tree : Tree w n V) : Set Nat := {i | tree.layout.Reachable i}

/-- A node with one entry that no link leads to. -/
structure Spare (tree : Tree w n V) (child : Nat) (key : Key n) (value : V) : Prop where
  known : child < tree.nodes.size
  entry : tree.node child = .ofEntry key value
  unlinked : ∀ j l, (tree.layout j).link l ≠ some child

variable {tree : Tree w n V} {key k : Key n} {value x : V} {i j d child : Nat} {slot t : Fin w}
  {link : Fin (w + 1)}

theorem finite_reached (size : 0 < tree.nodes.size) : tree.reached.Finite :=
  (Set.finite_Iio tree.nodes.size).subset fun _ h => tree.lt_of_reachable size h

theorem mem_entries_iff : (j, t) ∈ tree.entries ↔ ∃ k x, tree.HoldsAt j t k x := Iff.rfl

section Version

variable {version : Version}

@[simp]
theorem holdsAt_setVersion :
    (tree.setVersion i version).HoldsAt j t k x ↔ tree.HoldsAt j t k x := by
  rw [HoldsAt, HoldsAt, layout_setVersion, node_setVersion]
  split_ifs <;> rfl

@[simp]
theorem holdsAt_bump : (tree.bump i).HoldsAt j t k x ↔ tree.HoldsAt j t k x := holdsAt_setVersion

end Version

@[simp]
theorem holdsAt_countEntry : tree.countEntry.HoldsAt j t k x ↔ tree.HoldsAt j t k x := Iff.rfl

@[simp]
theorem holdsAt_countNode : tree.countNode.HoldsAt j t k x ↔ tree.HoldsAt j t k x := Iff.rfl

section Create

variable {tree : Tree w n V}

theorem layout_create : (tree.addNode (.ofEntry key value) (Node.links_ofEntry key value)).layout =
    Function.update tree.layout tree.nodes.size (Face.single key) := by
  rw [layout_addNode, Node.face_ofEntry]

theorem reachable_addNode (size : 0 < tree.nodes.size) (node : Node w n V)
    (bare : ∀ link : Fin (w + 1), node.links.get link = none) :
    (tree.addNode node bare).layout.Reachable j ↔ tree.layout.Reachable j := by
  rw [layout_addNode]
  constructor
  · intro h
    induction h with
    | root => exact .root
    | @step a c l _ down ih =>
      have ha : a ≠ tree.nodes.size := Nat.ne_of_lt (tree.lt_of_reachable size ih)
      rw [Function.update_of_ne ha] at down
      exact .step ih down
  · intro h
    induction h with
    | root => exact .root
    | @step a c l before down ih =>
      have ha : a ≠ tree.nodes.size := Nat.ne_of_lt (tree.lt_of_reachable size before)
      have down' : (Function.update tree.layout tree.nodes.size node.face a).link l = some c := by
        rwa [Function.update_of_ne ha]
      exact .step ih down'

theorem reachable_create (size : 0 < tree.nodes.size) :
    (tree.addNode (.ofEntry key value) (Node.links_ofEntry key value)).layout.Reachable j ↔
      tree.layout.Reachable j := reachable_addNode size _ _

theorem holdsAt_create (size : 0 < tree.nodes.size) :
    (tree.addNode (.ofEntry key value) (Node.links_ofEntry key value)).HoldsAt j t k x ↔
      tree.HoldsAt j t k x := by
  rw [HoldsAt, HoldsAt, reachable_create size, node_addNode]
  split_ifs with hj
  · subst hj
    simp [not_reachable_size size]
  · rfl

theorem spare_create :
    (tree.addNode (.ofEntry key value) (Node.links_ofEntry key value)).Spare tree.nodes.size key
      value where
  known := by
    rw [size_addNode]
    exact Nat.lt_succ_self _
  entry := by rw [node_addNode, if_pos rfl]
  unlinked := by
    rw [layout_create]
    exact private_create.unlinked

theorem sound_create (size : 0 < tree.nodes.size) (sound : tree.layout.Sound) :
    (tree.addNode (.ofEntry key value) (Node.links_ofEntry key value)).layout.Sound := by
  rw [layout_create]
  exact sound.create key layout_size (not_reachable_size size)

end Create

section Assign

theorem reachable_assign (hi : i < tree.nodes.size) :
    (tree.assign i slot key value).layout.Reachable j ↔ tree.layout.Reachable j := by
  rw [layout_assign hi, Layout.reachable_occupy]

theorem holdsAt_assign (hi : i < tree.nodes.size) (hr : tree.layout.Reachable i) :
    (tree.assign i slot key value).HoldsAt j t k x ↔
      if j = i ∧ t = slot then k = key ∧ x = value else tree.HoldsAt j t k x := by
  rw [HoldsAt, HoldsAt, reachable_assign hi, node_assign]
  by_cases hj : j = i
  · subst hj
    rw [if_pos ⟨rfl, hi⟩]
    by_cases ht : t = slot
    · subst ht
      rw [if_pos ⟨rfl, rfl⟩, Node.stored?_assign_self, and_iff_right hr]
      simp [eq_comm]
    · rw [if_neg (fun h => ht h.2), Node.stored?_assign_of_ne _ ht]
  · rw [if_neg (fun h => hj h.1.symm), if_neg (fun h => hj h.1)]

theorem stores_assign (hi : i < tree.nodes.size) (hr : tree.layout.Reachable i)
    (sound : (tree.assign i slot key value).layout.Sound)
    (mine : ∀ k, (tree.layout i).key slot = some k → k = key) :
    tree.Stores (tree.assign i slot key value) key value := by
  apply stores_of_entry i slot sound
  · rw [holdsAt_assign hi hr, if_pos ⟨rfl, rfl⟩]
    exact ⟨rfl, rfl⟩
  · intro j t k x hne
    rw [holdsAt_assign hi hr, if_neg hne]
  · exact fun k x h => mine k h.face_key

theorem entries_assign (hi : i < tree.nodes.size) (hr : tree.layout.Reachable i) :
    (tree.assign i slot key value).entries = Insert.insert (i, slot) tree.entries := by
  ext ⟨j, t⟩
  rw [Set.mem_insert_iff, mem_entries_iff, mem_entries_iff, Prod.mk.injEq]
  simp only [holdsAt_assign hi hr]
  split_ifs with h
  · simp [h]
  · simp [h]

theorem reached_assign (hi : i < tree.nodes.size) :
    (tree.assign i slot key value).reached = tree.reached := by
  ext j
  exact reachable_assign hi

theorem ncard_entries_assign_of_vacant (hi : i < tree.nodes.size) (hr : tree.layout.Reachable i)
    (vacant : (tree.layout i).key slot = none) :
    (tree.assign i slot key value).entries.ncard = tree.entries.ncard + 1 := by
  have hnew : (i, slot) ∉ tree.entries := by
    rintro ⟨k, x, h⟩
    cases vacant.symm.trans h.face_key
  rw [entries_assign hi hr,
    Set.ncard_insert_of_notMem hnew (entries_finite (Nat.zero_lt_of_lt hi))]

theorem entries_assign_of_found (hi : i < tree.nodes.size) (hr : tree.layout.Reachable i)
    (found : (tree.layout i).key slot = some k) :
    (tree.assign i slot key value).entries = tree.entries := by
  obtain ⟨x, hx⟩ := Node.exists_stored?_of_face_key found
  have hold : (i, slot) ∈ tree.entries := ⟨k, x, hr, hx⟩
  rw [entries_assign hi hr, Set.insert_eq_of_mem hold]

end Assign

section SetLink

theorem Spare.isPrivate (spare : tree.Spare child key value) : tree.layout.Private child key where
  unlinked := spare.unlinked
  bare := by
    intro l
    rw [layout, spare.entry, Node.face_ofEntry]
    rfl
  only := by
    intro s k h
    rw [layout, spare.entry, Node.face_ofEntry] at h
    simp only [Face.single] at h
    split_ifs at h
    exact (Option.some.inj h).symm

theorem Spare.not_reachable (spare : tree.Spare child key value) (pos : 0 < child) :
    ¬tree.layout.Reachable child := by
  intro h
  cases h with
  | root => exact Nat.lt_irrefl 0 pos
  | step _ down => exact spare.unlinked _ _ down

variable (spare : tree.Spare child key value) (younger : i < child)
  (hr : tree.layout.Reachable i) (empty : (tree.layout i).link link = none)

include spare younger

theorem sound_setLink (sound : tree.layout.Sound) (path : tree.layout.Path key i d)
    (place : (tree.layout i).Routes key (.descend link none)) :
    (tree.setLink i link child).layout.Sound := by
  rw [layout_setLink ⟨younger, spare.known⟩]
  exact sound.hang path place spare.isPrivate younger

include hr empty

theorem reachable_setLink :
    (tree.setLink i link child).layout.Reachable j ↔ tree.layout.Reachable j ∨ j = child := by
  rw [layout_setLink ⟨younger, spare.known⟩,
    Layout.reachable_hang spare.isPrivate hr empty (Nat.ne_of_gt younger)]

theorem reached_setLink : (tree.setLink i link child).reached = Insert.insert child tree.reached := by
  ext j
  rw [Set.mem_insert_iff, or_comm]
  exact reachable_setLink spare younger hr empty

theorem holdsAt_setLink : (tree.setLink i link child).HoldsAt j t k x ↔
    tree.HoldsAt j t k x ∨ j = child ∧ t.val = 0 ∧ k = key ∧ x = value := by
  have hchild := spare.not_reachable (Nat.zero_lt_of_lt younger)
  have hstored : ((tree.setLink i link child).node j).stored? t = (tree.node j).stored? t := by
    rw [node_setLink _ ⟨younger, spare.known⟩]
    split_ifs <;> rfl
  rw [HoldsAt, HoldsAt, reachable_setLink spare younger hr empty, hstored]
  by_cases hj : j = child
  · subst hj
    rw [spare.entry, Node.stored?_ofEntry]
    by_cases ht : t.val = 0
    · simp [hchild, ht, eq_comm]
    · simp [hchild, ht]
  · simp [hj]

/-- Hanging the node of an entry under the link that its key leads to stores it. -/
theorem stores_setLink (hw : 0 < w) (sound : (tree.setLink i link child).layout.Sound) :
    tree.Stores (tree.setLink i link child) key value := by
  have hchild := spare.not_reachable (Nat.zero_lt_of_lt younger)
  apply stores_of_entry child ⟨0, hw⟩ sound
  · rw [holdsAt_setLink spare younger hr empty]
    exact .inr ⟨rfl, rfl, rfl, rfl⟩
  · intro j t k x hne
    rw [holdsAt_setLink spare younger hr empty, or_iff_left]
    rintro ⟨hj, ht, _⟩
    exact hne ⟨hj, Fin.ext ht⟩
  · exact fun k x h => absurd h.1 hchild

theorem entries_setLink (hw : 0 < w) :
    (tree.setLink i link child).entries = Insert.insert (child, ⟨0, hw⟩) tree.entries := by
  ext ⟨j, t⟩
  rw [Set.mem_insert_iff, mem_entries_iff, mem_entries_iff, Prod.mk.injEq, Fin.ext_iff]
  simp only [holdsAt_setLink spare younger hr empty]
  constructor
  · rintro ⟨k, x, h | ⟨hj, ht, _⟩⟩
    · exact .inr ⟨k, x, h⟩
    · exact .inl ⟨hj, ht⟩
  · rintro (⟨hj, ht⟩ | ⟨k, x, h⟩)
    · exact ⟨key, value, .inr ⟨hj, ht, rfl, rfl⟩⟩
    · exact ⟨k, x, .inl h⟩

theorem ncard_reached_setLink (size : 0 < tree.nodes.size) :
    (tree.setLink i link child).reached.ncard = tree.reached.ncard + 1 := by
  have hnew : child ∉ tree.reached := spare.not_reachable (Nat.zero_lt_of_lt younger)
  rw [reached_setLink spare younger hr empty, Set.ncard_insert_of_notMem hnew (finite_reached size)]

theorem ncard_entries_setLink (hw : 0 < w) (size : 0 < tree.nodes.size) :
    (tree.setLink i link child).entries.ncard = tree.entries.ncard + 1 := by
  have hnew : (child, ⟨0, hw⟩) ∉ tree.entries := by
    rintro ⟨k, x, h⟩
    exact spare.not_reachable (Nat.zero_lt_of_lt younger) h.1
  rw [entries_setLink spare younger hr empty hw,
    Set.ncard_insert_of_notMem hnew (entries_finite size)]

end SetLink

end Tree

end FanoutIndex

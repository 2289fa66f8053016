import FanoutIndex.Access.Run
import FanoutIndex.Proofs.Tree.Insert
import FanoutIndex.Proofs.Tree.Shape

/-!
# What is left alone

Whoever holds a lock may change what it guards, and may lock other nodes for a while. The locks of
others stay as they are, and a node that was at rest is at rest again. What is refused leaves every
node in use as it is.
-/

namespace FanoutIndex

variable {w n : Nat} {V : Type}

namespace Tree

/-- The versions after a change that was made under a lock, or under none: the lock is still held,
and no other node is locked or given back. -/
structure Shelters (held : Option Lock) (before after : Tree w n V) : Prop where
  size : before.nodes.size ≤ after.nodes.size
  rest : ∀ i, (before.node i).version.isBusy = false → (after.node i).version.isBusy = false
  others : ∀ i, (before.node i).version.isBusy = true → held ≠ some ⟨i⟩ →
    (after.node i).version = (before.node i).version
  own : ∀ i, held = some ⟨i⟩ → (before.node i).version.isLocked = true →
    (after.node i).version.isLocked = true

/-- Every node in use is as before. A node that was created for nothing is not in use. -/
structure Intact (before after : Tree w n V) : Prop where
  size : before.nodes.size ≤ after.nodes.size
  nodes : ∀ i < before.nodes.size, after.node i = before.node i
  reached : after.reached = before.reached
  len : after.len = before.len
  nodeCount : after.nodeCount = before.nodeCount
  keyWidth : after.keyWidth = before.keyWidth

variable {held : Option Lock} {tree before mid after : Tree w n V} {key : Key n} {value : V}
  {i : Nat}

theorem Shelters.of_versions (size : before.nodes.size ≤ after.nodes.size)
    (same : ∀ i, (after.node i).version = (before.node i).version) :
    before.Shelters held after where
  size := size
  rest i h := by rwa [same]
  others i _ _ := same i
  own i _ h := by rwa [same]

theorem Shelters.refl (tree : Tree w n V) : tree.Shelters held tree :=
  .of_versions (Nat.le_refl _) fun _ => rfl

theorem Shelters.trans (first : before.Shelters held mid) (second : mid.Shelters held after) :
    before.Shelters held after where
  size := first.size.trans second.size
  rest i h := second.rest i (first.rest i h)
  others i busy other := by
    have hmid := first.others i busy other
    rw [second.others i (by rwa [hmid]) other, hmid]
  own i h locked := second.own i h (first.own i h locked)

theorem Shelters.atRest (h : before.Shelters none after) (rest : before.AtRest) : after.AtRest :=
  fun i => h.rest i (rest i)

theorem shelters_insert (size : 0 < tree.nodes.size)
    (rest : (tree.node (tree.target key).1).version.isBusy = false) (value : V) :
    tree.Shelters held (tree.insert key value) := by
  have ht := target_lt size key
  -- Only the target counts a change, and it was at rest.
  have hversion (i : Nat) : ((tree.insert key value).node i).version = (tree.node i).version ∨
      i = (tree.target key).1 ∧
        ((tree.insert key value).node i).version = (tree.node i).version.bumped := by
    rcases Nat.lt_or_ge i tree.nodes.size with hi | hi
    · rw [insert, version_change _ ht hi]
      split_ifs with h
      · exact .inr ⟨h.1.symm, rfl⟩
      · exact .inl rfl
    · left
      rw [insert, version_change_of_ge ht _ hi, version_of_ge hi]
  constructor
  case size => exact (size_insert_le key value size).1
  case rest =>
    intro i h
    rcases hversion i with hsame | ⟨_, hbumped⟩
    · rwa [hsame]
    · rw [hbumped]
      exact Version.isBusy_bumped h
  case others =>
    intro i busy _
    rcases hversion i with hsame | ⟨rfl, _⟩
    · exact hsame
    · cases rest.symm.trans busy
  case own =>
    intro i _ locked
    rcases hversion i with hsame | ⟨rfl, _⟩
    · rwa [hsame]
    · cases rest.symm.trans (Version.isBusy_of_isLocked locked)

theorem shelters_setVersion {version : Version} (locked : version.isLocked = true)
    (busy : (tree.node i).version.isBusy = true) :
    tree.Shelters (some ⟨i⟩) (tree.setVersion i version) where
  size := by rw [size_setVersion]
  rest j h := by
    rw [node_setVersion]
    split_ifs with hj
    · cases h.symm.trans (hj.1 ▸ busy)
    · exact h
  others j _ other := by
    rw [node_setVersion, if_neg]
    rintro ⟨rfl, _⟩
    exact other rfl
  own j _ h := by
    rw [node_setVersion]
    split_ifs
    · exact locked
    · exact h

/-- A lock that is taken and given back, whatever is done under it. -/
theorem Shelters.scope {locked : Version} (rest : (tree.node i).version.isBusy = false)
    (inner : (tree.setVersion i locked).Shelters (some ⟨i⟩) after) {released : Version}
    (free : released.isBusy = false) : tree.Shelters held (after.setVersion i released) := by
  have hother {j : Nat} (hj : i ≠ j) :
      ((tree.setVersion i locked).node j).version = (tree.node j).version ∧
        ((after.setVersion i released).node j).version = (after.node j).version := by
    rw [node_setVersion, node_setVersion, if_neg fun h => hj h.1, if_neg fun h => hj h.1]
    exact ⟨rfl, rfl⟩
  -- A node that was busy before is not the one that the scope locks, so the scope kept its version.
  have hothers (j : Nat) (busy : (tree.node j).version.isBusy = true) :
      ((after.setVersion i released).node j).version = (tree.node j).version := by
    have hj : i ≠ j := by
      rintro rfl
      cases rest.symm.trans busy
    obtain ⟨hbefore, hafter⟩ := hother hj
    have hne : some (Lock.mk i) ≠ some ⟨j⟩ := fun h => hj (congrArg Lock.node (Option.some.inj h))
    rw [hafter, inner.others j (by rwa [hbefore]) hne, hbefore]
  constructor
  case size =>
    have hsize := inner.size
    rwa [size_setVersion] at hsize ⊢
  case rest =>
    intro j h
    by_cases hj : i = j
    · subst hj
      rw [node_setVersion]
      split_ifs with hlt
      · exact free
      · rw [version_of_ge (Nat.le_of_not_lt fun hi => hlt ⟨rfl, hi⟩)]
        rfl
    · obtain ⟨hbefore, hafter⟩ := hother hj
      rw [hafter]
      exact inner.rest j (by rwa [hbefore])
  case others => exact fun j busy _ => hothers j busy
  case own =>
    intro j _ hlocked
    rwa [hothers j (Version.isBusy_of_isLocked hlocked)]

theorem Intact.refl (tree : Tree w n V) : tree.Intact tree :=
  ⟨Nat.le_refl _, fun _ _ => rfl, rfl, rfl, rfl, rfl⟩

theorem intact_addNode (size : 0 < tree.nodes.size) (node : Node w n V)
    (bare : ∀ link : Fin (w + 1), node.links.get link = none) :
    tree.Intact (tree.addNode node bare) where
  size := by
    rw [size_addNode]
    exact Nat.le_succ _
  nodes _ hi := node_addNode_of_lt tree node bare hi
  reached := Set.ext fun _ => reachable_addNode size node bare
  len := rfl
  nodeCount := rfl
  keyWidth := rfl

theorem version_addNode {node : Node w n V}
    (bare : ∀ link : Fin (w + 1), node.links.get link = none) (new : node.version = .new)
    (i : Nat) : ((tree.addNode node bare).node i).version = (tree.node i).version := by
  rw [node_addNode]
  split_ifs with hi
  · rw [new, version_of_ge hi.ge]
  · rfl

theorem version_setLink {link : Fin (w + 1)} {child : Nat}
    (younger : i < child ∧ child < tree.nodes.size) (j : Nat) :
    ((tree.setLink i link child).node j).version = (tree.node j).version := by
  rw [node_setLink _ younger]
  split_ifs <;> rfl

end Tree

end FanoutIndex

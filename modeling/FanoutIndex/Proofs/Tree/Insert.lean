import FanoutIndex.Proofs.Tree.Writes

namespace FanoutIndex

variable {w n : Nat} {V : Type}

namespace Tree

def AtRest (tree : Tree w n V) : Prop := ∀ i, (tree.node i).version.isBusy = false

variable {tree : Tree w n V} {key : Key n} {value : V} {i d : Nat}

/-- The keys that a change at a place adds. -/
def added : Place w → Nat
  | .update _ => 0
  | .fill _ => 1
  | .attach _ => 1

@[simp]
theorem keyWidth_change (place : Place w) :
    (tree.change i place key value).keyWidth = tree.keyWidth := by
  cases place with
  | update slot => rfl
  | fill slot => rfl
  | attach link =>
    change ((tree.addNode _ (Node.links_ofEntry key value)).setLink i link _).keyWidth = _
    rw [keyWidth_setLink]
    rfl

theorem len_change (place : Place w) :
    (tree.change i place key value).len = tree.len + added place := by
  cases place with
  | update slot => rfl
  | fill slot => rfl
  | attach link =>
    change ((tree.addNode _ (Node.links_ofEntry key value)).setLink i link _).len + 1 = _
    rw [len_setLink]
    rfl

theorem nodeCount_change (place : Place w) :
    (tree.change i place key value).nodeCount = tree.nodeCount + created place := by
  cases place with
  | update slot => rfl
  | fill slot => rfl
  | attach link =>
    change ((tree.addNode _ (Node.links_ofEntry key value)).setLink i link _).nodeCount + 1 = _
    rw [nodeCount_setLink]
    rfl

theorem version_ofEntry (key : Key n) (value : V) :
    (Node.ofEntry key value : Node w n V).version = .new := rfl

theorem version_change (place : Place w) (hi : i < tree.nodes.size) {j : Nat}
    (hj : j < tree.nodes.size) :
    ((tree.change i place key value).node j).version =
      if i = j ∧ ∀ s, place ≠ .update s then (tree.node j).version.bumped
      else (tree.node j).version := by
  cases place with
  | update slot =>
    rw [node_change_update]
    split_ifs <;> simp_all [Node.assign]
  | fill slot =>
    rw [node_change_fill]
    by_cases hij : i = j <;> simp [hij, hj, Node.setVersion]
  | attach link =>
    rw [node_change_attach hi, if_neg (Nat.ne_of_lt hj)]
    by_cases hij : i = j <;> simp [hij, Node.setVersion]

theorem AtRest.change (rest : tree.AtRest) (place : Place w) (hi : i < tree.nodes.size) :
    (tree.change i place key value).AtRest := by
  intro j
  by_cases hj : j < tree.nodes.size
  · rw [version_change place hi hj]
    split_ifs
    · exact Version.isBusy_bumped (rest j)
    · exact rest j
  · cases place with
    | update slot =>
      rw [node_change_update, if_neg (fun h => hj h.2)]
      exact rest j
    | fill slot =>
      rw [node_change_fill, if_neg (fun h => hj h.2)]
      exact rest j
    | attach link =>
      rw [node_change_attach hi]
      split_ifs with h h'
      · rw [version_ofEntry]
        rfl
      · exact absurd hi (h' ▸ hj)
      · exact rest j

theorem Stores.congr {before after before' after' : Tree w n V} (h : before.Stores after key value)
    (first : ∀ k x, before'.Holds k x ↔ before.Holds k x)
    (second : ∀ k x, after'.Holds k x ↔ after.Holds k x) : before'.Stores after' key value := by
  intro k x
  rw [second, h k x, first]

/-- The change of a put at the end of the path of its key stores the entry. -/
theorem stores_change {place : Place w} (hw : 0 < w) (size : 0 < tree.nodes.size)
    (sound : tree.layout.Sound) (path : tree.layout.Path key i d)
    (hend : (tree.layout i).Routes key place.route) :
    tree.Stores (tree.change i place key value) key value := by
  have hi := tree.lt_of_path size path
  have hsound : (tree.change i place key value).layout.Sound := sound_change size sound path hend
  cases place with
  | update slot =>
    apply stores_assign hi path.reachable hsound
    intro k hk
    exact Option.some.inj (hk.symm.trans hend.2)
  | fill slot =>
    have hassign : tree.Stores (tree.assign i slot key value) key value := by
      apply stores_assign hi path.reachable
      · rwa [layout_change_fill hi, ← layout_assign hi] at hsound
      · intro k hk
        cases hk.symm.trans hend.2
    refine hassign.congr (fun k x => Iff.rfl) (holds_congr fun j t k x => ?_)
    rw [change, holdsAt_countEntry, holdsAt_bump]
  | attach link =>
    have younger : i < tree.nodes.size ∧ tree.nodes.size <
        (tree.addNode (.ofEntry key value) (Node.links_ofEntry key value)).nodes.size := by
      simpa using hi
    have hempty : ((tree.addNode (.ofEntry key value)
        (Node.links_ofEntry key value)).layout i).link link = none := by
      rw [layout_create, create_of_ne hi]
      exact hend.2
    have hlink := stores_setLink spare_create hi
      ((reachable_create size).2 path.reachable) hempty hw
    rw [layout_change_attach hi, ← layout_create, ← layout_setLink younger] at hsound
    refine (hlink hsound).congr (holds_congr fun j t k x => (holdsAt_create size).symm)
      (holds_congr fun j t k x => ?_)
    rw [change, holdsAt_countEntry, holdsAt_countNode, holdsAt_bump]

section Insert

theorem target_lt (size : 0 < tree.nodes.size) (key : Key n) :
    (tree.target key).1 < tree.nodes.size := by
  obtain ⟨d, path, _⟩ := tree.target_end key
  exact tree.lt_of_path size path

theorem keyWidth_insert : (tree.insert key value).keyWidth = tree.keyWidth := keyWidth_change _

theorem encode_insert (bytes : Bytes) :
    (tree.insert key value).encode bytes = tree.encode bytes := by
  rw [encode, encode, keyWidth_insert]

theorem size_insert_le (key : Key n) (value : V) (size : 0 < tree.nodes.size) :
    tree.nodes.size ≤ (tree.insert key value).nodes.size ∧
      (tree.insert key value).nodes.size ≤ tree.nodes.size + 1 := by
  rw [insert, size_change _ (target_lt size key)]
  cases (tree.target key).2 <;> simp [created]

theorem AtRest.insert (rest : tree.AtRest) (size : 0 < tree.nodes.size) :
    (tree.insert key value).AtRest := rest.change _ (target_lt size key)

theorem grows_insert (size : 0 < tree.nodes.size) :
    tree.layout.Grows (tree.insert key value).layout := by
  obtain ⟨d, _, hend⟩ := tree.target_end key
  exact grows_change (target_lt size key) hend

theorem sound_insert (size : 0 < tree.nodes.size) (sound : tree.layout.Sound) :
    (tree.insert key value).layout.Sound := by
  obtain ⟨d, path, hend⟩ := tree.target_end key
  exact sound_change size sound path hend

theorem stores_insert (hw : 0 < w) (size : 0 < tree.nodes.size) (sound : tree.layout.Sound) :
    tree.Stores (tree.insert key value) key value := by
  obtain ⟨d, path, hend⟩ := tree.target_end key
  exact stores_change hw size sound path hend

open Classical in
theorem len_insert (sound : tree.layout.Sound) :
    (tree.insert key value).len = tree.len + if ∃ v, tree.Holds key v then 0 else 1 := by
  obtain ⟨d, path, hend⟩ := tree.target_end key
  rw [insert, len_change]
  cases hplace : (tree.target key).2 with
  | update slot =>
    rw [hplace] at hend
    obtain ⟨v, hv⟩ := Node.exists_stored?_of_face_key hend.2
    rw [if_pos ⟨v, _, slot, path.reachable, hv⟩]
    rfl
  | fill slot =>
    have absent (v : V) : ¬tree.Holds key v := not_holds_of_end sound path hend (by simp [hplace])
    rw [if_neg (fun h => absent h.choose h.choose_spec)]
    rfl
  | attach link =>
    have absent (v : V) : ¬tree.Holds key v := not_holds_of_end sound path hend (by simp [hplace])
    rw [if_neg (fun h => absent h.choose h.choose_spec)]
    rfl

end Insert

end Tree

end FanoutIndex

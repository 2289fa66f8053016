import FanoutIndex.Proofs.Layout.Sound

namespace FanoutIndex

variable {w n : Nat} {V : Type}

namespace Node

def stored? (node : Node w n V) (slot : Fin w) : Option (Key n × V) :=
  (node.values.get slot).map fun value => (node.keys.get slot, value)

/-- The value at a place where a search can end. -/
def valueOf (node : Node w n V) : Place w → Option V
  | .update slot => node.values.get slot
  | .fill _ => none
  | .attach _ => none

variable {node : Node w n V} {slot : Fin w} {key : Key n} {value : V}

theorem face_key (node : Node w n V) (slot : Fin w) :
    node.face.key slot = (node.values.get slot).map fun _ => node.keys.get slot := by
  cases h : node.values.get slot <;> simp [face, key?, isOccupied, h]

theorem stored?_eq_some_iff :
    node.stored? slot = some (key, value) ↔
      node.face.key slot = some key ∧ node.values.get slot = some value := by
  cases h : node.values.get slot <;> simp [face_key, stored?, h]

theorem face_key_eq_none_iff : node.face.key slot = none ↔ node.values.get slot = none := by
  rw [face_key, Option.map_eq_none_iff]

theorem keys_eq_of_face_key (h : node.face.key slot = some key) : node.keys.get slot = key := by
  rw [face_key, Option.map_eq_some_iff] at h
  exact h.choose_spec.2

theorem exists_stored?_of_face_key (h : node.face.key slot = some key) :
    ∃ value, node.stored? slot = some (key, value) := by
  cases hv : node.values.get slot with
  | none =>
    rw [face_key_eq_none_iff.2 hv] at h
    cases h
  | some value => exact ⟨value, stored?_eq_some_iff.2 ⟨h, hv⟩⟩

end Node

namespace Tree

def HoldsAt (tree : Tree w n V) (i : Nat) (slot : Fin w) (key : Key n) (value : V) : Prop :=
  tree.layout.Reachable i ∧ (tree.node i).stored? slot = some (key, value)

def Holds (tree : Tree w n V) (key : Key n) (value : V) : Prop :=
  ∃ i slot, tree.HoldsAt i slot key value

/-- One tree maps keys as another does, but for one key, which it maps to a given value. -/
def Stores (before after : Tree w n V) (key : Key n) (value : V) : Prop :=
  ∀ k v, after.Holds k v ↔ if k = key then v = value else before.Holds k v

/-- The slots of nodes in use that hold entries. -/
def entries (tree : Tree w n V) : Set (Nat × Fin w) :=
  {p | ∃ key value, tree.HoldsAt p.1 p.2 key value}

variable {before after tree : Tree w n V} {key : Key n} {value : V} {i d : Nat} {slot : Fin w}

theorem HoldsAt.face_key (h : tree.HoldsAt i slot key value) :
    (tree.layout i).key slot = some key := (Node.stored?_eq_some_iff.1 h.2).1

theorem holds_iff_of_found (sound : tree.layout.Sound) (path : tree.layout.Path key i d)
    (found : (tree.layout i).Routes key (.found slot)) :
    tree.Holds key value ↔ (tree.node i).values.get slot = some value := by
  constructor
  · rintro ⟨j, t, h⟩
    obtain ⟨rfl, rfl⟩ := sound.slot_unique h.1 path.reachable h.face_key found.2
    exact (Node.stored?_eq_some_iff.1 h.2).2
  · intro h
    exact ⟨i, slot, path.reachable, Node.stored?_eq_some_iff.2 ⟨found.2, h⟩⟩

theorem not_holds_of_end {place : Place w} (sound : tree.layout.Sound)
    (path : tree.layout.Path key i d) (hend : (tree.layout i).Routes key place.route)
    (hplace : ∀ s, place ≠ .update s) : ¬tree.Holds key value := by
  rintro ⟨j, t, h⟩
  exact sound.absent path hend hplace h.1 h.face_key

/-- A search ends at the value that the tree maps its key to. -/
theorem valueOf_eq_some_iff {place : Place w} (sound : tree.layout.Sound)
    (path : tree.layout.Path key i d) (hend : (tree.layout i).Routes key place.route) :
    (tree.node i).valueOf place = some value ↔ tree.Holds key value := by
  cases place with
  | update slot => exact (holds_iff_of_found sound path hend).symm
  | fill slot => simpa [Node.valueOf] using not_holds_of_end sound path hend (by simp)
  | attach link => simpa [Node.valueOf] using not_holds_of_end sound path hend (by simp)

theorem Holds.unique {a b : V} (sound : tree.layout.Sound) (ha : tree.Holds key a)
    (hb : tree.Holds key b) : a = b := by
  obtain ⟨i, s, hi⟩ := ha
  obtain ⟨j, t, hj⟩ := hb
  obtain ⟨rfl, rfl⟩ := sound.slot_unique hi.1 hj.1 hi.face_key hj.face_key
  have h := hi.2.symm.trans hj.2
  simpa using h

theorem holds_congr (same : ∀ j t k x, after.HoldsAt j t k x ↔ before.HoldsAt j t k x) (k : Key n)
    (x : V) : after.Holds k x ↔ before.Holds k x :=
  exists_congr fun j => exists_congr fun t => same j t k x

/-- Writing the entry of a key to its place stores it. -/
theorem stores_of_entry (i : Nat) (slot : Fin w) (sound : after.layout.Sound)
    (here : after.HoldsAt i slot key value)
    (same : ∀ j t k x, ¬(j = i ∧ t = slot) → (after.HoldsAt j t k x ↔ before.HoldsAt j t k x))
    (mine : ∀ k x, before.HoldsAt i slot k x → k = key) : before.Stores after key value := by
  intro k x
  split_ifs with hk
  · subst hk
    constructor
    · intro h
      exact h.unique sound ⟨i, slot, here⟩
    · rintro rfl
      exact ⟨i, slot, here⟩
  · constructor
    · rintro ⟨j, t, h⟩
      have hne : ¬(j = i ∧ t = slot) := by
        rintro ⟨rfl, rfl⟩
        exact hk (Option.some.inj (h.face_key.symm.trans here.face_key))
      exact ⟨j, t, (same j t k x hne).1 h⟩
    · rintro ⟨j, t, h⟩
      have hne : ¬(j = i ∧ t = slot) := by
        rintro ⟨rfl, rfl⟩
        exact hk (mine k x h)
      exact ⟨j, t, (same j t k x hne).2 h⟩

theorem entries_finite (size : 0 < tree.nodes.size) : tree.entries.Finite := by
  apply Set.Finite.subset ((Set.finite_Iio tree.nodes.size).prod Set.finite_univ)
  rintro ⟨j, t⟩ ⟨k, x, h⟩
  exact ⟨tree.lt_of_reachable size h.1, trivial⟩

end Tree

end FanoutIndex

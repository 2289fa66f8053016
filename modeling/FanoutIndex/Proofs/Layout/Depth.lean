import FanoutIndex.Proofs.Layout.Contents

/-!
# Depths of nodes

The nodes below a node are those that its links lead to, each link one level deeper. In a sound
layout a node hangs under one link only, so it has one depth, and the parts below two children of a
node have no node in common.
-/

namespace FanoutIndex

variable {w n : Nat} {V : Type}

namespace Layout

/-- The nodes that links lead to from a node of some depth, itself included, with their depths. -/
inductive Below (L : Layout w n) (i d : Nat) : Nat → Nat → Prop
  | here : Below L i d i d
  | step {j e c : Nat} {link : Fin (w + 1)} (above : Below L i d j e)
      (down : (L j).link link = some c) : Below L i d c (e + 1)

/-- Links lead to younger nodes, and no node hangs under two of them. -/
structure Forest (L : Layout w n) : Prop where
  forward : ∀ i l c, (L i).link l = some c → i < c
  oneParent : ∀ i j l m c, (L i).link l = some c → (L j).link m = some c → i = j ∧ l = m

theorem Sound.forest {L : Layout w n} (sound : L.Sound) : L.Forest :=
  ⟨sound.forward, sound.oneParent⟩

/-- A node in use, with its depth; the root has depth 1. -/
def HasDepth (L : Layout w n) (i d : Nat) : Prop := L.Below FanoutIndex.root 1 i d

variable {L : Layout w n} {key : Key n} {i j d e : Nat}

theorem Below.trans {k f : Nat} (h : L.Below i d j e) (h' : L.Below j e k f) :
    L.Below i d k f := by
  induction h' with
  | here => exact h
  | step _ down ih => exact .step ih down

theorem Below.grows {M : Layout w n} (h : L.Below i d j e) (hg : L.Grows M) : M.Below i d j e := by
  induction h with
  | here => exact .here
  | step _ down ih => exact .step ih ((hg _).link _ _ down)

theorem Below.le (forest : L.Forest) (h : L.Below i d j e) : i ≤ j := by
  induction h with
  | here => exact Nat.le_refl i
  | step _ down ih => exact ih.trans (forest.forward _ _ _ down).le

theorem below_iff : L.Below i d j e ↔
    (j = i ∧ e = d) ∨ ∃ link c, (L i).link link = some c ∧ L.Below c (d + 1) j e := by
  constructor
  · intro h
    induction h with
    | here => exact .inl ⟨rfl, rfl⟩
    | @step k f c link _ down ih =>
      rcases ih with ⟨rfl, rfl⟩ | ⟨first, child, hlink, hbelow⟩
      · exact .inr ⟨link, c, down, .here⟩
      · exact .inr ⟨first, child, hlink, .step hbelow down⟩
  · rintro (⟨rfl, rfl⟩ | ⟨link, c, hlink, hbelow⟩)
    · exact .here
    · exact (Below.step .here hlink).trans hbelow

/-- The parts below two nodes with the same parent have no node in common. -/
theorem Below.sibling_unique {p a b f : Nat} {l m : Fin (w + 1)} (forest : L.Forest)
    (ha : (L p).link l = some a) (hb : (L p).link m = some b) (hi : L.Below a d i e)
    (hj : L.Below b f i j) : a = b := by
  -- Both ways up from the node lead through the same links, as far as they are both below `p`.
  induction hi generalizing j with
  | here =>
    cases hj with
    | here => rfl
    | step above down =>
      obtain ⟨rfl, rfl⟩ := forest.oneParent _ _ _ _ _ ha down
      have hle := above.le forest
      have hlt := forest.forward _ _ _ hb
      omega
  | step above down ih =>
    cases hj with
    | here =>
      obtain ⟨rfl, rfl⟩ := forest.oneParent _ _ _ _ _ hb down
      have hle := above.le forest
      have hlt := forest.forward _ _ _ ha
      omega
    | step above' down' =>
      obtain ⟨rfl, rfl⟩ := forest.oneParent _ _ _ _ _ down down'
      exact ih above'

theorem Below.depth_unique (forest : L.Forest) {f : Nat} (h : L.Below i d j e)
    (h' : L.Below i d j f) : e = f := by
  induction h generalizing f with
  | here =>
    cases h' with
    | here => rfl
    | step above down =>
      have hle := above.le forest
      have hlt := forest.forward _ _ _ down
      omega
  | step above down ih =>
    cases h' with
    | here =>
      have hle := above.le forest
      have hlt := forest.forward _ _ _ down
      omega
    | step above' down' =>
      obtain ⟨rfl, rfl⟩ := forest.oneParent _ _ _ _ _ down down'
      rw [ih above']

theorem Path.hasDepth (path : L.Path key i d) : L.HasDepth i d := by
  induction path with
  | root => exact .here
  | step _ down ih => exact .step ih down.2

theorem Reachable.exists_hasDepth (h : L.Reachable i) : ∃ d, L.HasDepth i d := by
  induction h with
  | root => exact ⟨1, .here⟩
  | step _ down ih =>
    obtain ⟨d, hd⟩ := ih
    exact ⟨d + 1, .step hd down⟩

theorem HasDepth.reachable (h : L.HasDepth i d) : L.Reachable i := by
  induction h with
  | here => exact .root
  | step _ down ih => exact .step ih down

theorem HasDepth.pos (h : L.HasDepth i d) : 1 ≤ d := by
  cases h with
  | here => exact Nat.le_refl 1
  | step _ _ => exact Nat.le_add_left 1 _

end Layout

namespace Tree

def HoldsAtDepth (tree : Tree w n V) (key : Key n) (d : Nat) : Prop :=
  ∃ i slot value, tree.HoldsAt i slot key value ∧ tree.layout.HasDepth i d

variable {tree : Tree w n V} {key : Key n} {value : V} {i j d e : Nat} {slot : Fin w}
  {place : Place w}

theorem HoldsAt.eq_end (sound : tree.layout.Sound) (h : tree.HoldsAt j slot key value)
    (path : tree.layout.Path key i d) (hend : (tree.layout i).Routes key place.route) :
    i = j ∧ place = .update slot := by
  obtain ⟨f, hf⟩ := sound.routed j slot key h.1 h.face_key
  have found : (tree.layout j).Routes key (Place.update slot).route :=
    ⟨fun t ht => sound.ordered j t slot key ht h.face_key, h.face_key⟩
  obtain ⟨hij, _, hplace⟩ := path.end_unique hend hf found
  exact ⟨hij, hplace⟩

/-- A search ends at the depth of the node that holds its key. -/
theorem depth_eq_some_iff (sound : tree.layout.Sound) (path : tree.layout.Path key i d)
    (hend : (tree.layout i).Routes key place.route) :
    (((tree.node i).valueOf place).map fun _ => d) = some e ↔ tree.HoldsAtDepth key e := by
  rw [Option.map_eq_some_iff]
  constructor
  · rintro ⟨v, hv, rfl⟩
    obtain ⟨j, slot, h⟩ := (valueOf_eq_some_iff sound path hend).1 hv
    obtain ⟨rfl, _⟩ := h.eq_end sound path hend
    exact ⟨i, slot, v, h, path.hasDepth⟩
  · rintro ⟨j, slot, v, h, hdepth⟩
    obtain ⟨rfl, _⟩ := h.eq_end sound path hend
    exact ⟨v, (valueOf_eq_some_iff sound path hend).2 ⟨i, slot, h⟩,
      path.hasDepth.depth_unique sound.forest hdepth⟩

end Tree

end FanoutIndex

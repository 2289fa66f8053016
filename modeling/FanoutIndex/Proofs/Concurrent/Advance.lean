import FanoutIndex.Proofs.Tree.Writes
import FanoutIndex.Proofs.Version.Token

/-!
# Advancing nodes

However many clients work on a node, its face only grows, and it is other than before only while a
change is marked. So a token that is still current vouches for all that its reader saw of the node.
-/

namespace FanoutIndex

variable {w n : Nat} {V : Type}

namespace Face

/-- Occupied slots and children. -/
def size (f : Face w n) : Nat :=
  (Finset.univ.filter fun s => (f.key s).isSome).card +
    (Finset.univ.filter fun l => (f.link l).isSome).card

variable {f g : Face w n}

theorem size_le (f : Face w n) : f.size ≤ 2 * w + 1 := by
  have hkeys := Finset.card_filter_le (Finset.univ : Finset (Fin w)) fun s => (f.key s).isSome
  have hlinks := Finset.card_filter_le (Finset.univ : Finset (Fin (w + 1))) fun l => (f.link l).isSome
  rw [Finset.card_univ, Fintype.card_fin] at hkeys hlinks
  rw [size]
  omega

theorem size_occupy {slot : Fin w} {key : Key n} (h : f.key slot = none) :
    (f.occupy slot key).size = f.size + 1 := by
  have hinsert : (Finset.univ.filter fun s => ((f.occupy slot key).key s).isSome) =
      insert slot (Finset.univ.filter fun s => (f.key s).isSome) := by
    ext s
    simp only [Finset.mem_filter, Finset.mem_univ, true_and, Finset.mem_insert, key_occupy]
    by_cases hs : s = slot
    · simp [hs]
    · simp [hs]
  have hnew : slot ∉ Finset.univ.filter fun s => (f.key s).isSome := by simp [h]
  rw [size, hinsert, Finset.card_insert_of_notMem hnew, size]
  change _ + 1 + (Finset.univ.filter fun l => (f.link l).isSome).card = _
  omega

theorem size_hang {link : Fin (w + 1)} {child : Nat} (h : f.link link = none) :
    (f.hang link child).size = f.size + 1 := by
  have hinsert : (Finset.univ.filter fun l => ((f.hang link child).link l).isSome) =
      insert link (Finset.univ.filter fun l => (f.link l).isSome) := by
    ext l
    simp only [Finset.mem_filter, Finset.mem_univ, true_and, Finset.mem_insert, link_hang]
    by_cases hl : l = link
    · simp [hl]
    · simp [hl]
  have hnew : link ∉ Finset.univ.filter fun l => (f.link l).isSome := by simp [h]
  rw [size, hinsert, Finset.card_insert_of_notMem hnew, size]
  exact (Nat.add_assoc _ _ _).symm

end Face

namespace Node

/-- What a step of any client does to a node. -/
structure Advances (before after : Node w n V) : Prop where
  grows : before.face.Grows after.face
  version : before.version.Advances after.version
  marked : after.face ≠ before.face →
    before.version.isInserting = true ∧ after.version.isInserting = true

/-- As long as the token is current, the face of the node has a property. -/
structure Vouches (node : Node w n V) (token : Token) (p : Face w n → Prop) : Prop where
  issued : node.version.Issued token
  current : node.version.IsCurrent token → p node.face

variable {node before after : Node w n V} {token : Token} {p q : Face w n → Prop}

theorem Advances.refl (node : Node w n V) : node.Advances node where
  grows := Face.Grows.refl _
  version := .refl _
  marked := fun h => absurd rfl h

theorem Advances.of_face (face : after.face = before.face)
    (version : before.version.Advances after.version) : before.Advances after where
  grows := face ▸ Face.Grows.refl _
  version := version
  marked := fun h => absurd face h

theorem Advances.setVersion {version : Version} (h : node.version.Advances version) :
    node.Advances (node.setVersion version) where
  grows := Face.Grows.refl _
  version := h
  marked := fun h => absurd rfl h

theorem Vouches.advances (h : before.Vouches token p) (a : before.Advances after) :
    after.Vouches token p := by
  refine ⟨h.issued.advances a.version, ?_⟩
  intro hcurrent
  have hbefore := hcurrent.of_advances h.issued a.version
  -- A face changes under a mark only, and no token is current under a mark.
  have hface : after.face = before.face := by
    by_contra hne
    have hmark := (a.marked hne).1
    rw [hbefore.1] at hmark
    cases hmark
  rw [hface]
  exact h.current hbefore

theorem Vouches.imp (h : node.Vouches token p) (himp : p node.face → q node.face) :
    node.Vouches token q :=
  ⟨h.issued, fun hcurrent => himp (h.current hcurrent)⟩

theorem vouches_of_rest (rest : node.version.isBusy = false) (h : p node.face) :
    node.Vouches node.version.word p :=
  ⟨Version.issued_of_rest rest, fun _ => h⟩

end Node

end FanoutIndex

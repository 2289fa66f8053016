import FanoutIndex.Proofs.Tree.Change

namespace FanoutIndex

variable {w n : Nat} {V : Type}

namespace Face

def bare (w n : Nat) : Face w n := ⟨fun _ => none, fun _ => none⟩

def single (key : Key n) : Face w n :=
  ⟨fun slot => if slot.val = 0 then some key else none, fun _ => none⟩

theorem bare_grows (f : Face w n) : (bare w n).Grows f := by
  constructor <;> intro _ _ h <;> cases h

theorem occupy_eq_self {f : Face w n} {slot : Fin w} {key : Key n} (h : f.key slot = some key) :
    f.occupy slot key = f := by
  ext1
  · exact Function.update_eq_self_iff.2 h.symm
  · rfl

end Face

namespace Node

variable (node : Node w n V)

theorem face_empty : (empty : Node w n V).face = Face.bare w n := by
  ext1
  · funext slot
    rw [face_key_eq_none_iff.2]
    · rfl
    · simp [empty]
  · funext link
    exact links_empty link

theorem face_assign (slot : Fin w) (key : Key n) (value : V) :
    (node.assign slot key value).face = node.face.occupy slot key := by
  ext1
  · funext s
    rw [Face.key_occupy, face_key, face_key]
    simp only [assign, get_eq_getElem, Vector.getElem_set]
    by_cases h : slot.val = s.val
    · simp [h, Fin.ext h.symm]
    · have hne : s ≠ slot := fun e => h (congrArg Fin.val e.symm)
      simp [h, hne]
  · rfl

theorem face_setLink (link : Fin (w + 1)) (child : Nat) :
    (node.setLink link child).face = node.face.hang link child := by
  ext1
  · rfl
  · funext l
    rw [Face.link_hang]
    simp only [face, setLink, get_eq_getElem, Vector.getElem_set]
    by_cases h : link.val = l.val
    · simp [h, Fin.ext h.symm]
    · have hne : l ≠ link := fun e => h (congrArg Fin.val e.symm)
      simp [h, hne]

theorem face_ofEntry (key : Key n) (value : V) : (ofEntry key value : Node w n V).face = Face.single key := by
  ext1
  · funext s
    rw [face_key]
    simp only [ofEntry, empty, get_eq_getElem, Vector.getElem_setIfInBounds, Face.single]
    by_cases h : s.val = 0
    · simp [h]
    · simp [h, Ne.symm h]
  · funext l
    exact links_ofEntry key value l

theorem stored?_assign_of_ne {slot s : Fin w} (h : s ≠ slot) (key : Key n) (value : V) :
    (node.assign slot key value).stored? s = node.stored? s := by
  have hne : slot.val ≠ s.val := fun e => h (Fin.ext e.symm)
  simp [stored?, assign, get_eq_getElem, hne]

theorem stored?_assign_self (slot : Fin w) (key : Key n) (value : V) :
    (node.assign slot key value).stored? slot = some (key, value) := by
  simp [stored?, assign, get_eq_getElem]

theorem stored?_ofEntry (key : Key n) (value : V) (s : Fin w) :
    (ofEntry key value : Node w n V).stored? s = if s.val = 0 then some (key, value) else none := by
  simp only [stored?, ofEntry, empty, get_eq_getElem, Vector.getElem_setIfInBounds]
  by_cases h : s.val = 0
  · simp [h]
  · simp [h, Ne.symm h]

end Node

namespace Layout

variable {L : Layout w n} {key : Key n} {c : Nat}

/-- A node without anything in it and above it gets one entry. -/
theorem Sound.create (sound : L.Sound) (key : Key n) (bare : L c = Face.bare w n) (hc : ¬L.Reachable c) :
    Sound (Function.update L c (Face.single key)) := by
  have grows : L.Grows (Function.update L c (Face.single key)) := by
    intro j
    by_cases hj : j = c
    · subst hj
      rw [bare]
      exact Face.bare_grows _
    · rw [Function.update_of_ne hj]
      exact Face.Grows.refl _
  have link (j : Nat) : (Function.update L c (Face.single key) j).link = (L j).link := by
    by_cases hj : j = c
    · subst hj
      rw [Function.update_self, bare]
      rfl
    · rw [Function.update_of_ne hj]
  have reachable {j : Nat} (h : Reachable (Function.update L c (Face.single key)) j) :
      L.Reachable j := by
    induction h with
    | root => exact .root
    | step _ down ih => exact .step ih (by rwa [link] at down)
  constructor
  case ordered =>
    intro j s t k hst ht
    by_cases hj : j = c
    · subst hj
      rw [Function.update_self] at ht
      simp only [Face.single] at ht
      split_ifs at ht with h0
      exact absurd hst (by omega)
    · rw [Function.update_of_ne hj] at ht ⊢
      exact sound.ordered j s t k hst ht
  case placed =>
    intro j l d hl s hs
    rw [link] at hl
    obtain ⟨k, hk⟩ := sound.placed j l d hl s hs
    exact ⟨k, (grows j).key s k hk⟩
  case forward =>
    intro j l d hl
    rw [link] at hl
    exact sound.forward j l d hl
  case oneParent =>
    intro j j' l m d hl hm
    rw [link] at hl hm
    exact sound.oneParent j j' l m d hl hm
  case routed =>
    intro j s k hj hk
    have hj := reachable hj
    -- The entry of the new node is on no path yet, since nothing leads to the node.
    have hne : j ≠ c := fun e => hc (e ▸ hj)
    rw [Function.update_of_ne hne] at hk
    obtain ⟨d, hd⟩ := sound.routed j s k hj hk
    exact ⟨d, hd.grows grows⟩

end Layout

namespace Tree

variable {tree : Tree w n V} {key : Key n} {value : V} {i d : Nat}

@[simp]
theorem layout_setVersion (version : Version) : (tree.setVersion i version).layout = tree.layout := by
  funext j
  rw [layout, node_setVersion]
  split_ifs <;> rfl

theorem layout_size : tree.layout tree.nodes.size = Face.bare w n := by
  rw [layout_of_ge _ (Nat.le_refl _), Node.face_empty]

theorem not_reachable_size (size : 0 < tree.nodes.size) :
    ¬tree.layout.Reachable tree.nodes.size :=
  fun h => Nat.lt_irrefl _ (tree.lt_of_reachable size h)

theorem layout_addNode (node : Node w n V)
    (bare : ∀ link : Fin (w + 1), node.links.get link = none) :
    (tree.addNode node bare).layout = Function.update tree.layout tree.nodes.size node.face := by
  funext j
  rw [layout, node_addNode]
  by_cases hj : j = tree.nodes.size
  · rw [if_pos hj, hj, Function.update_self]
  · rw [if_neg hj, Function.update_of_ne hj]
    rfl

theorem layout_assign (hi : i < tree.nodes.size) (slot : Fin w) :
    (tree.assign i slot key value).layout = tree.layout.occupy i slot key := by
  funext j
  rw [layout, node_assign]
  by_cases hij : i = j
  · subst hij
    rw [if_pos ⟨rfl, hi⟩, Node.face_assign, Layout.occupy_self]
    rfl
  · rw [if_neg (by simp [hij]), Layout.occupy_of_ne (Ne.symm hij)]
    rfl

theorem layout_setLink {link : Fin (w + 1)} {child : Nat}
    (younger : i < child ∧ child < tree.nodes.size) :
    (tree.setLink i link child).layout = tree.layout.hang i link child := by
  funext j
  rw [layout, node_setLink _ younger]
  by_cases hij : i = j
  · subst hij
    rw [if_pos rfl, Node.face_setLink, Layout.hang_self]
    rfl
  · rw [if_neg hij, Layout.hang_of_ne (Ne.symm hij)]
    rfl

@[simp]
theorem layout_bump : (tree.bump i).layout = tree.layout := layout_setVersion _

@[simp]
theorem layout_countEntry : tree.countEntry.layout = tree.layout := rfl

@[simp]
theorem layout_countNode : tree.countNode.layout = tree.layout := rfl

theorem layout_change_update {slot : Fin w} (hi : i < tree.nodes.size)
    (found : (tree.layout i).Routes key (.found slot)) :
    (tree.change i (.update slot) key value).layout = tree.layout := by
  rw [change, layout_assign hi, Layout.occupy, Face.occupy_eq_self found.2, Function.update_eq_self]

theorem layout_change_fill {slot : Fin w} (hi : i < tree.nodes.size) :
    (tree.change i (.fill slot) key value).layout = tree.layout.occupy i slot key := by
  rw [change, layout_countEntry, layout_bump, layout_assign hi]

theorem layout_change_attach {link : Fin (w + 1)} (hi : i < tree.nodes.size) :
    (tree.change i (.attach link) key value).layout =
      Layout.hang (Function.update tree.layout tree.nodes.size (Face.single key)) i link
        tree.nodes.size := by
  have younger : i < tree.nodes.size ∧ tree.nodes.size <
      (tree.addNode (.ofEntry key value) (Node.links_ofEntry key value)).nodes.size := by
    simpa using hi
  rw [change, layout_countEntry, layout_countNode, layout_bump, layout_setLink younger,
    layout_addNode, Node.face_ofEntry]

theorem grows_create :
    tree.layout.Grows (Function.update tree.layout tree.nodes.size (Face.single key)) := by
  intro j
  by_cases hj : j = tree.nodes.size
  · subst hj
    rw [layout_size]
    exact Face.bare_grows _
  · rw [Function.update_of_ne hj]
    exact Face.Grows.refl _

theorem create_of_ne (hi : i < tree.nodes.size) :
    Function.update tree.layout tree.nodes.size (Face.single key) i = tree.layout i :=
  Function.update_of_ne (Nat.ne_of_lt hi) _ _

theorem grows_change {place : Place w} (hi : i < tree.nodes.size)
    (hend : (tree.layout i).Routes key place.route) :
    tree.layout.Grows (tree.change i place key value).layout := by
  cases place with
  | update slot =>
    rw [layout_change_update hi hend]
    exact Layout.Grows.refl _
  | fill slot =>
    rw [layout_change_fill hi]
    exact Layout.grows_occupy hend.2
  | attach link =>
    rw [layout_change_attach hi]
    apply grows_create.trans
    apply Layout.grows_hang
    rw [create_of_ne hi]
    exact hend.2

theorem private_create :
    Layout.Private (Function.update tree.layout tree.nodes.size (Face.single key)) tree.nodes.size
      key := by
  constructor
  case unlinked =>
    intro j l h
    by_cases hj : j = tree.nodes.size
    · subst hj
      rw [Function.update_self] at h
      cases h
    · rw [Function.update_of_ne hj] at h
      exact Nat.lt_irrefl _ (tree.lt_of_layout_link h).2
  case bare =>
    intro l
    rw [Function.update_self]
    rfl
  case only =>
    intro s k h
    rw [Function.update_self] at h
    simp only [Face.single] at h
    split_ifs at h
    exact (Option.some.inj h).symm

theorem sound_change {place : Place w} (size : 0 < tree.nodes.size) (sound : tree.layout.Sound)
    (path : tree.layout.Path key i d) (hend : (tree.layout i).Routes key place.route) :
    (tree.change i place key value).layout.Sound := by
  have hi := tree.lt_of_path size path
  cases place with
  | update slot => rwa [layout_change_update hi hend]
  | fill slot =>
    rw [layout_change_fill hi]
    exact sound.occupy hend fun _ => ⟨d, path⟩
  | attach link =>
    rw [layout_change_attach hi]
    have hcreate := sound.create key layout_size (not_reachable_size size)
    apply hcreate.hang (path.grows grows_create) _ private_create hi
    rwa [create_of_ne hi]

end Tree

end FanoutIndex

import FanoutIndex.Proofs.Tree.Trail

/-!
# Insertions that commute

Two trees agree if the same paths of links lead to like nodes. Nodes are numbered as they are
created, so this is all that can be said of two insertions made in one order and in the other. They
lead to trees that agree unless both keys have their place in a vacant slot of one node, or under
one vacant link.
-/

namespace FanoutIndex

variable {w n : Nat} {V : Type}

namespace Layout

/-- The node at the end of a path of links. -/
def follow (L : Layout w n) : List (Fin (w + 1)) → Nat → Option Nat
  | [], i => some i
  | link :: rest, i => ((L i).link link).bind (L.follow rest)

variable {L M : Layout w n} {path : List (Fin (w + 1))} {link : Fin (w + 1)} {i j c : Nat}

theorem follow_concat (h : L.follow path i = some j) (down : (L j).link link = some c) :
    L.follow (path ++ [link]) i = some c := by
  induction path generalizing i with
  | nil =>
    cases h
    simp [follow, down]
  | cons first rest ih =>
    obtain ⟨child, hlink, hrest⟩ := Option.bind_eq_some_iff.1 h
    simp only [List.cons_append, follow, hlink, Option.bind_some]
    exact ih hrest

theorem follow_grows (h : L.follow path i = some j) (hg : L.Grows M) :
    M.follow path i = some j := by
  induction path generalizing i with
  | nil => exact h
  | cons first rest ih =>
    obtain ⟨child, hlink, hrest⟩ := Option.bind_eq_some_iff.1 h
    simp only [follow, (hg i).link _ _ hlink, Option.bind_some]
    exact ih hrest

theorem Reachable.exists_follow (h : L.Reachable i) :
    ∃ path, L.follow path FanoutIndex.root = some i := by
  induction h with
  | root => exact ⟨[], rfl⟩
  | step _ down ih =>
    obtain ⟨path, hpath⟩ := ih
    exact ⟨path ++ [_], follow_concat hpath down⟩

end Layout

/-- Two nodes have the same version and the same entries in the same slots, and children under the
same links. -/
structure Node.Alike (a b : Node w n V) : Prop where
  version : a.version = b.version
  stored : ∀ slot, a.stored? slot = b.stored? slot
  linked : ∀ link, (a.links.get link).isSome = (b.links.get link).isSome

theorem Node.face_key_eq_map (node : Node w n V) (slot : Fin w) :
    node.face.key slot = (node.stored? slot).map Prod.fst := by
  rw [face_key, stored?, Option.map_map]
  rfl

namespace Tree

/-- The same paths of links lead to like nodes in both trees, and to none where they do in one. -/
structure Agree (s t : Tree w n V) : Prop where
  len : s.len = t.len
  nodeCount : s.nodeCount = t.nodeCount
  nodes : ∀ path, Option.Rel (fun i j => (s.node i).Alike (t.node j))
    (s.layout.follow path root) (t.layout.follow path root)

/-- Nodes that are related have the same version and entries, and related children. -/
structure Renumbers (s t : Tree w n V) (R : Nat → Nat → Prop) : Prop where
  version : ∀ i j, R i j → (s.node i).version = (t.node j).version
  stored : ∀ i j, R i j → ∀ slot, (s.node i).stored? slot = (t.node j).stored? slot
  linked : ∀ i j, R i j → ∀ link,
    Option.Rel R ((s.node i).links.get link) ((t.node j).links.get link)

variable {s t : Tree w n V} {R : Nat → Nat → Prop} {i j : Nat}

theorem isSome_eq_of_rel {a b : Option Nat} (h : Option.Rel R a b) : a.isSome = b.isSome := by
  cases h <;> rfl

theorem Renumbers.alike (h : s.Renumbers t R) (hij : R i j) : (s.node i).Alike (t.node j) :=
  ⟨h.version i j hij, h.stored i j hij, fun link => isSome_eq_of_rel (h.linked i j hij link)⟩

theorem Renumbers.follow (h : s.Renumbers t R) (hij : R i j) (path : List (Fin (w + 1))) :
    Option.Rel R (s.layout.follow path i) (t.layout.follow path j) := by
  induction path generalizing i j with
  | nil => exact .some hij
  | cons link rest ih =>
    have hlink : Option.Rel R ((s.layout i).link link) ((t.layout j).link link) :=
      h.linked i j hij link
    simp only [Layout.follow]
    generalize (s.layout i).link link = a, (t.layout j).link link = b at hlink ⊢
    cases hlink with
    | none => exact .none
    | some hchild => exact ih hchild

theorem Renumbers.agree (h : s.Renumbers t R) (hroot : R root root) (len : s.len = t.len)
    (nodeCount : s.nodeCount = t.nodeCount) : s.Agree t where
  len := len
  nodeCount := nodeCount
  nodes := by
    intro path
    have hrel := h.follow hroot path
    generalize s.layout.follow path root = a, t.layout.follow path root = b at hrel ⊢
    cases hrel with
    | none => exact .none
    | some hij => exact .some (h.alike hij)

theorem Agree.key_eq {path : List (Fin (w + 1))} (h : s.Agree t)
    (hs : s.layout.follow path root = some i) (ht : t.layout.follow path root = some j)
    (slot : Fin w) : (s.layout i).key slot = (t.layout j).key slot := by
  have hnodes := h.nodes path
  rw [hs, ht] at hnodes
  cases hnodes with
  | some halike =>
    rw [layout, layout, Node.face_key_eq_map, Node.face_key_eq_map, halike.stored]

end Tree

namespace Place

def slot? : Place w → Option (Fin w)
  | update slot => some slot
  | fill slot => some slot
  | attach _ => none

def link? : Place w → Option (Fin (w + 1))
  | update _ => none
  | fill _ => none
  | attach link => some link

/-- Two new keys want vacant slots of a node, or the same vacant link. -/
def Competes : Place w → Place w → Prop
  | fill _, fill _ => True
  | attach link, attach other => link = other
  | _, _ => False

end Place

namespace Tree

section Change

variable {tree : Tree w n V} {i k : Nat} {place : Place w} {key : Key n} {value : V} {slot : Fin w}
  {link : Fin (w + 1)}

theorem node_change_of_ne (hi : i < tree.nodes.size) (hk : k < tree.nodes.size) (hne : k ≠ i) :
    (tree.change i place key value).node k = tree.node k := by
  cases place <;>
    simp [node_change_update, node_change_fill, node_change_attach hi, hk.ne, hne.symm]

theorem stored?_change (hi : i < tree.nodes.size) (hk : k < tree.nodes.size) :
    ((tree.change i place key value).node k).stored? slot =
      if k = i ∧ place.slot? = some slot then some (key, value)
      else (tree.node k).stored? slot := by
  by_cases hki : k = i
  · subst hki
    have hassign (s : Fin w) : ((tree.node k).assign s key value).stored? slot =
        if s = slot then some (key, value) else (tree.node k).stored? slot := by
      split_ifs with h
      · rw [h, Node.stored?_assign_self]
      · exact Node.stored?_assign_of_ne _ (Ne.symm h) key value
    cases place with
    | update s =>
      rw [node_change_update, if_pos ⟨rfl, hk⟩, hassign]
      simp [Place.slot?]
    | fill s =>
      rw [node_change_fill, if_pos ⟨rfl, hk⟩]
      exact (hassign s).trans (by simp [Place.slot?])
    | attach l =>
      rw [node_change_attach hi, if_neg hk.ne, if_pos rfl, if_neg (by simp [Place.slot?])]
      rfl
  · rw [node_change_of_ne hi hk hki, if_neg fun h => hki h.1]

theorem link_change (hi : i < tree.nodes.size) (hk : k < tree.nodes.size) :
    ((tree.change i place key value).node k).links.get link =
      if k = i ∧ place.link? = some link then some tree.nodes.size
      else (tree.node k).links.get link := by
  by_cases hki : k = i
  · subst hki
    cases place with
    | update s =>
      rw [node_change_update, if_pos ⟨rfl, hk⟩, if_neg (by simp [Place.link?])]
      rfl
    | fill s =>
      rw [node_change_fill, if_pos ⟨rfl, hk⟩, if_neg (by simp [Place.link?])]
      rfl
    | attach l =>
      rw [node_change_attach hi, if_neg hk.ne, if_pos rfl]
      have hhang := congrFun (congrArg Face.link
        ((tree.node k).face_setLink l tree.nodes.size)) link
      rw [Face.link_hang] at hhang
      exact hhang.trans (by simp [Place.link?, Node.face, eq_comm])
  · rw [node_change_of_ne hi hk hki, if_neg fun h => hki h.1]

theorem node_change_size (hi : i < tree.nodes.size) (h : place.link? = some link) :
    (tree.change i place key value).node tree.nodes.size = .ofEntry key value := by
  cases place with
  | update s => cases h
  | fill s => cases h
  | attach l => rw [node_change_attach hi, if_pos rfl]

theorem key_change (hi : i < tree.nodes.size) (hk : k < tree.nodes.size) :
    ((tree.change i place key value).layout k).key slot =
      if k = i ∧ place.slot? = some slot then some key else (tree.layout k).key slot := by
  rw [layout, Node.face_key_eq_map, stored?_change hi hk, layout, Node.face_key_eq_map]
  split_ifs <;> rfl

end Change

section Pair

variable {tree : Tree w n V} {a b : Key n} {x y : V} {i j : Nat} {p q : Place w} {s : Fin w}
  {l : Fin (w + 1)}

theorem competes_comm : p.Competes q ↔ q.Competes p := by
  cases p <;> cases q <;> simp [Place.Competes, eq_comm]

/-- Two keys that do not compete do not write the same slot. -/
theorem slots_apart (hne : a ≠ b) (hend : (tree.layout i).Routes a p.route)
    (hend' : (tree.layout i).Routes b q.route) (free : ¬p.Competes q) :
    ¬(p.slot? = some s ∧ q.slot? = some s) := by
  rintro ⟨hp, hq⟩
  cases p with
  | attach l => cases hp
  | update s' =>
    cases hp
    cases q with
    | attach l => cases hq
    | update t =>
      cases hq
      exact hne (Option.some.inj (hend.2.symm.trans hend'.2))
    | fill t =>
      cases hq
      cases hend.2.symm.trans hend'.2
  | fill s' =>
    cases hp
    cases q with
    | attach l => cases hq
    | update t =>
      cases hq
      cases hend.2.symm.trans hend'.2
    | fill t => exact free trivial

theorem links_apart (free : ¬p.Competes q) : ¬(p.link? = some l ∧ q.link? = some l) := by
  rintro ⟨hp, hq⟩
  cases p <;> cases hp
  cases q <;> cases hq
  exact free rfl

/-- A key keeps its place when a key that does not compete with it is put. -/
theorem routes_change (hi : i < tree.nodes.size) (hj : j < tree.nodes.size)
    (hend : (tree.layout i).Routes a p.route) (hend' : (tree.layout j).Routes b q.route)
    (free : i = j → ¬p.Competes q) : ((tree.change i p a x).layout j).Routes b q.route := by
  have grows : (tree.layout j).Grows ((tree.change i p a x).layout j) := grows_change hi hend j
  cases q with
  | update t => exact hend'.found_grows grows
  | fill t =>
    refine ⟨hend'.1.grows grows, ?_⟩
    rw [key_change hi hj, if_neg, hend'.2]
    rintro ⟨rfl, hslot⟩
    cases p with
    | attach l => cases hslot
    | update s =>
      cases hslot
      cases hend.2.symm.trans hend'.2
    | fill s => exact free rfl trivial
  | attach l =>
    refine ⟨hend'.1.grows grows, ?_⟩
    have hlink : ((tree.change i p a x).layout j).link l = _ := link_change hi hj
    rw [hlink, if_neg]
    · exact hend'.2
    · rintro ⟨rfl, hset⟩
      exact links_apart (free rfl) ⟨hset, rfl⟩

theorem target_insert_of_not_competes (size : 0 < tree.nodes.size)
    (free : (tree.target a).1 = (tree.target b).1 → ¬(tree.target a).2.Competes (tree.target b).2) :
    (tree.insert a x).target b = tree.target b :=
  target_eq ((tree.path_target b).grows (grows_insert size))
    (routes_change (target_lt size a) (target_lt size b) (tree.routes_target a)
      (tree.routes_target b) free)

/-- The numbers that a node has when two changes are made in one order and in the other. -/
inductive Renumbered (size : Nat) (p q : Place w) : Nat → Nat → Prop
  | old {k : Nat} (h : k < size) : Renumbered size p q k k
  | first {l : Fin (w + 1)} (h : p.link? = some l) : Renumbered size p q size (size + created q)
  | second {l : Fin (w + 1)} (h : q.link? = some l) : Renumbered size p q (size + created p) size

theorem lt_size_change (hi : i < tree.nodes.size) {k : Nat} (hk : k < tree.nodes.size) :
    k < (tree.change i p a x).nodes.size := by
  rw [size_change p hi]
  exact Nat.lt_add_right _ hk

theorem node_created_first (hi : i < tree.nodes.size) (hj : j < tree.nodes.size)
    (hp : p.link? = some l) :
    ((tree.change i p a x).change j q b y).node tree.nodes.size = .ofEntry a x := by
  have hcreated : tree.nodes.size < (tree.change i p a x).nodes.size := by
    rw [size_change p hi]
    cases p <;> cases hp
    exact Nat.lt_succ_self _
  rw [node_change_of_ne (lt_size_change hi hj) hcreated hj.ne', node_change_size hi hp]

theorem node_created_second (hi : i < tree.nodes.size) (hj : j < tree.nodes.size)
    (hq : q.link? = some l) :
    ((tree.change i p a x).change j q b y).node (tree.nodes.size + created p) = .ofEntry b y := by
  rw [← size_change p hi]
  exact node_change_size (lt_size_change hi hj) hq

/-- Changes of different slots and links commute, but for the numbers of the nodes that they
create. -/
theorem renumbers_change_change (hi : i < tree.nodes.size) (hj : j < tree.nodes.size)
    (slots : i = j → ∀ s, ¬(p.slot? = some s ∧ q.slot? = some s))
    (links : i = j → ∀ l, ¬(p.link? = some l ∧ q.link? = some l)) :
    ((tree.change i p a x).change j q b y).Renumbers ((tree.change j q b y).change i p a x)
      (Renumbered tree.nodes.size p q) := by
  have hi' : i < (tree.change j q b y).nodes.size := lt_size_change hj hi
  have hj' : j < (tree.change i p a x).nodes.size := lt_size_change hi hj
  have hfirst {l : Fin (w + 1)} (hp : p.link? = some l) :
      ((tree.change i p a x).change j q b y).node tree.nodes.size =
        ((tree.change j q b y).change i p a x).node (tree.nodes.size + created q) :=
    (node_created_first hi hj hp).trans (node_created_second hj hi hp).symm
  have hsecond {l : Fin (w + 1)} (hq : q.link? = some l) :
      ((tree.change i p a x).change j q b y).node (tree.nodes.size + created p) =
        ((tree.change j q b y).change i p a x).node tree.nodes.size :=
    (node_created_second hi hj hq).trans (node_created_first hj hi hq).symm
  constructor
  case version =>
    intro k k' hk
    cases hk with
    | old hk =>
      rw [version_change q hj' (lt_size_change hi hk), version_change p hi hk,
        version_change p hi' (lt_size_change hj hk), version_change q hj hk]
      split_ifs <;> rfl
    | first hp => rw [hfirst hp]
    | second hq => rw [hsecond hq]
  case stored =>
    intro k k' hk slot
    cases hk with
    | old hk =>
      rw [stored?_change hj' (lt_size_change hi hk), stored?_change hi hk,
        stored?_change hi' (lt_size_change hj hk), stored?_change hj hk]
      split_ifs with hq hp
      · exact absurd ⟨hp.2, hq.2⟩ (slots (hp.1.symm.trans hq.1) slot)
      all_goals rfl
    | first hp => rw [hfirst hp]
    | second hq => rw [hsecond hq]
  case linked =>
    intro k k' hk link
    cases hk with
    | old hk =>
      rw [link_change hj' (lt_size_change hi hk), link_change hi hk,
        link_change hi' (lt_size_change hj hk), link_change hj hk, size_change p hi,
        size_change q hj]
      -- The numbers under a link differ only where one of the changes hung its new node.
      split_ifs with hq hp hp
      · exact absurd ⟨hp.2, hq.2⟩ (links (hp.1.symm.trans hq.1) link)
      · exact .some (.second hq.2)
      · exact .some (.first hp.2)
      · cases hlink : (tree.node k).links.get link with
        | none => exact .none
        | some c => exact .some (.old (tree.lt_of_link hlink).2)
    | first hp =>
      rw [hfirst hp, node_created_second hj hi hp, Node.links_ofEntry]
      exact .none
    | second hq =>
      rw [hsecond hq, node_created_first hj hi hq, Node.links_ofEntry]
      exact .none

/-- Puts of keys that do not compete commute. -/
theorem agree_insert_insert (size : 0 < tree.nodes.size) (hne : a ≠ b)
    (free : (tree.target a).1 = (tree.target b).1 → ¬(tree.target a).2.Competes (tree.target b).2) :
    ((tree.insert a x).insert b y).Agree ((tree.insert b y).insert a x) := by
  have hi := target_lt size a
  have hj := target_lt size b
  have hfirst : (tree.insert a x).target b = tree.target b :=
    target_insert_of_not_competes size free
  have hsecond : (tree.insert b y).target a = tree.target a :=
    target_insert_of_not_competes size fun h => competes_comm.not.1 (free h.symm)
  rw [insert, hfirst, insert, insert, hsecond, insert]
  refine (renumbers_change_change hi hj ?_ fun h _ => links_apart (free h)).agree (.old size) ?_ ?_
  · intro h s
    refine slots_apart hne (tree.routes_target a) ?_ (free h)
    rw [h]
    exact tree.routes_target b
  · simp only [len_change]
    omega
  · simp only [nodeCount_change]
    omega

/-- A path of links leads to the slot of a key in every layout that its insertion grows into. -/
def LeadsToKey (L : Layout w n) (path : List (Fin (w + 1))) (slot : Fin w) (key : Key n) : Prop :=
  ∃ i, L.follow path root = some i ∧ (L i).key slot = some key

theorem LeadsToKey.grows {L M : Layout w n} {path : List (Fin (w + 1))}
    (h : LeadsToKey L path s a) (hg : L.Grows M) : LeadsToKey M path s a := by
  obtain ⟨i, hpath, hkey⟩ := h
  exact ⟨i, Layout.follow_grows hpath hg, (hg i).key s a hkey⟩

variable {path : List (Fin (w + 1))}

theorem leadsToKey_fill (hi : i < tree.nodes.size) (hpath : tree.layout.follow path root = some i)
    (hend : (tree.layout i).Routes a (Place.fill s).route) :
    LeadsToKey (tree.change i (.fill s) a x).layout path s a := by
  refine ⟨i, Layout.follow_grows hpath (grows_change hi hend), ?_⟩
  rw [key_change hi hi, if_pos ⟨rfl, rfl⟩]

theorem leadsToKey_attach (hw : 0 < w) (hi : i < tree.nodes.size)
    (hpath : tree.layout.follow path root = some i)
    (hend : (tree.layout i).Routes a (Place.attach l).route) :
    LeadsToKey (tree.change i (.attach l) a x).layout (path ++ [l]) ⟨0, hw⟩ a := by
  refine ⟨tree.nodes.size, Layout.follow_concat
    (Layout.follow_grows hpath (grows_change hi hend)) ?_, ?_⟩
  · exact (link_change hi hi).trans (if_pos ⟨rfl, rfl⟩)
  · rw [layout_change_attach hi, Layout.hang_of_ne hi.ne', Function.update_self]
    simp [Face.single]

/-- Two keys that compete want the same slot of the same node, the one that is put first gets it. -/
theorem exists_leadsToKey_of_competes (hw : 0 < w) (size : 0 < tree.nodes.size)
    (hsame : (tree.target a).1 = (tree.target b).1)
    (competes : (tree.target a).2.Competes (tree.target b).2) :
    ∃ path slot, LeadsToKey (tree.insert a x).layout path slot a ∧
      LeadsToKey (tree.insert b y).layout path slot b := by
  obtain ⟨path, hpath⟩ := (tree.path_target a).reachable.exists_follow
  have hi := target_lt size a
  have hend := tree.routes_target a
  have hend' := tree.routes_target b
  rw [insert, insert, ← hsame]
  rw [← hsame] at hend'
  generalize (tree.target a).1 = i at *
  generalize (tree.target a).2 = p, (tree.target b).2 = q at *
  cases p with
  | update s => exact competes.elim
  | fill s =>
    cases q with
    | update t => exact competes.elim
    | attach l => exact competes.elim
    | fill t =>
      -- Both are the first vacant slot.
      have hst : s = t := by
        apply Fin.ext
        apply Nat.le_antisymm
        · exact hend.1.le_of_not fun k hk => by cases hk.symm.trans hend'.2
        · exact hend'.1.le_of_not fun k hk => by cases hk.symm.trans hend.2
      subst hst
      exact ⟨path, s, leadsToKey_fill hi hpath hend, leadsToKey_fill hi hpath hend'⟩
  | attach l =>
    cases q with
    | update t => exact competes.elim
    | fill t => exact competes.elim
    | attach m =>
      obtain rfl : l = m := competes
      exact ⟨path ++ [l], ⟨0, hw⟩, leadsToKey_attach hw hi hpath hend,
        leadsToKey_attach hw hi hpath hend'⟩

theorem not_agree_insert_insert (hw : 0 < w) (size : 0 < tree.nodes.size) (hne : a ≠ b)
    (hsame : (tree.target a).1 = (tree.target b).1)
    (competes : (tree.target a).2.Competes (tree.target b).2) :
    ¬((tree.insert a x).insert b y).Agree ((tree.insert b y).insert a x) := by
  intro agree
  obtain ⟨path, slot, hfirst, hsecond⟩ :=
    exists_leadsToKey_of_competes (x := x) (y := y) hw size hsame competes
  obtain ⟨i, hi, hkey⟩ := hfirst.grows (grows_insert ((size_insert_le a x size).1.trans_lt' size))
  obtain ⟨j, hj, hkey'⟩ := hsecond.grows (grows_insert ((size_insert_le b y size).1.trans_lt' size))
  have hsame := agree.key_eq hi hj slot
  rw [hkey, hkey'] at hsame
  exact hne (Option.some.inj hsame)

end Pair

end Tree

end FanoutIndex

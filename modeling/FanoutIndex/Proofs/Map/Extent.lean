import FanoutIndex.Proofs.Layout.Levels
import FanoutIndex.Proofs.Map.Growth
import FanoutIndex.Proofs.Map.Sequences

/-!
# Extents of indexes

Whatever the order of the puts, every node of an index that holds anything holds a key, so there are
no more nodes than keys, and with `w` slots and `w + 1` links at a node the depth bounds the keys.
The depth never exceeds the number of nodes, and a key stays where it was put; so its depth is at
most its rank among the distinct keys in the order in which they came.
-/

namespace FanoutIndex

variable {w n : Nat} {V : Type}

namespace Layout

variable {L : Layout w n} {key : Key n} {i d : Nat} {slot : Fin w}

theorem Sound.exists_key_first (sound : L.Sound) (hw : 0 < w) (hk : (L i).key slot = some key) :
    ∃ k, (L i).key ⟨0, hw⟩ = some k := by
  rcases Nat.eq_zero_or_pos slot.val with hzero | hpos
  · rw [show slot = ⟨0, hw⟩ from Fin.ext hzero] at hk
    exact ⟨key, hk⟩
  · obtain ⟨k, hfirst, _⟩ := sound.ordered i ⟨0, hw⟩ slot key hpos hk
    exact ⟨k, hfirst⟩

theorem Sound.exists_key_root (sound : L.Sound) (hw : 0 < w) (hi : L.Reachable i)
    (hk : (L i).key slot = some key) : ∃ k, (L FanoutIndex.root).key ⟨0, hw⟩ = some k := by
  obtain ⟨d, path⟩ := sound.routed i slot key hi hk
  rcases Nat.lt_or_eq_of_le path.depth_pos with hd | rfl
  · -- The path of the key leaves the root by a link, and the slots left of that are occupied.
    obtain ⟨link, c, _, down⟩ := Path.root.down_of_lt path hd
    exact sound.placed _ link c down ⟨0, hw⟩ (Nat.zero_le _)
  · obtain rfl := path.unique .root
    exact sound.exists_key_first hw hk

end Layout

namespace Tree

variable {tree : Tree w n V} {key : Key n} {value : V} {i d : Nat}

theorem HoldsAtDepth.grows {after : Tree w n V} (h : tree.HoldsAtDepth key d)
    (grows : tree.layout.Grows after.layout) : after.HoldsAtDepth key d := by
  obtain ⟨i, slot, value, hslot, hd⟩ := h
  obtain ⟨x, hx⟩ := Node.exists_stored?_of_face_key ((grows i).key slot key hslot.face_key)
  exact ⟨i, slot, x, ⟨hslot.1.grows grows, hx⟩, hd.grows grows⟩

theorem Holds.exists_depth (h : tree.Holds key value) : ∃ d, tree.HoldsAtDepth key d := by
  obtain ⟨i, slot, hslot⟩ := h
  obtain ⟨d, hd⟩ := hslot.1.exists_hasDepth
  exact ⟨d, i, slot, value, hslot, hd⟩

theorem HoldsAtDepth.le_maxDepth (h : tree.HoldsAtDepth key d) : d ≤ tree.stats.maxDepth := by
  obtain ⟨i, _, _, _, hd⟩ := h
  exact tree.maxDepth_stats.2 ⟨i, hd⟩

section Exact

variable (exact : tree.Exact)

include exact

/-- Where there is a key, every node in use holds one in its first slot. -/
theorem Exact.exists_key_first (hw : 0 < w) (filled : tree.len ≠ 0) (hi : i ∈ tree.reached) :
    ∃ k, (tree.layout i).key ⟨0, hw⟩ = some k := by
  by_cases hroot : i = root
  · obtain ⟨k, d, j, slot, v, h, _⟩ := exact.exists_holdsAtDepth_iff.2 filled
    rw [hroot]
    exact exact.sound.exists_key_root hw h.1 h.face_key
  · obtain ⟨slot, k, hk⟩ := exact.used i (tree.lt_of_reachable exact.settled.size hi) hroot
    exact exact.sound.exists_key_first hw hk

theorem Exact.nodes_le (hw : 0 < w) : tree.stats.nodes ≤ max 1 tree.len := by
  rw [nodes_stats exact.sound]
  by_cases hlen : tree.len = 0
  · -- A node other than the root would hold a key.
    have honly : tree.reached ⊆ {root} := by
      intro i hi
      by_contra hne
      obtain ⟨d, hd⟩ := Layout.Reachable.exists_hasDepth hi
      obtain ⟨k, hk⟩ := exact.holdsAtDepth hd hne
      exact exact.exists_holdsAtDepth_iff.1 ⟨k, d, hk⟩ hlen
    calc
      tree.reached.ncard ≤ ({root} : Set Nat).ncard :=
        Set.ncard_le_ncard honly (Set.finite_singleton root)
      _ = 1 := Set.ncard_singleton root
      _ ≤ max 1 tree.len := le_max_left 1 tree.len
  · have hentry : ∀ i ∈ tree.reached, (i, (⟨0, hw⟩ : Fin w)) ∈ tree.entries := by
      intro i hi
      obtain ⟨k, hk⟩ := exact.exists_key_first hw hlen hi
      obtain ⟨v, hv⟩ := Node.exists_stored?_of_face_key hk
      exact ⟨k, v, hi, hv⟩
    calc
      tree.reached.ncard ≤ tree.entries.ncard :=
        Set.ncard_le_ncard_of_injOn (fun i => (i, (⟨0, hw⟩ : Fin w))) hentry
          (fun i _ j _ h => congrArg Prod.fst h) (entries_finite exact.settled.size)
      _ = tree.len := exact.entries
      _ ≤ max 1 tree.len := le_max_right 1 tree.len

theorem Exact.len_le_mul_nodes : tree.len ≤ w * tree.stats.nodes := by
  have hsubset : tree.entries ⊆ tree.reached ×ˢ (Set.univ : Set (Fin w)) := by
    rintro ⟨i, slot⟩ ⟨k, v, h⟩
    exact ⟨h.1, trivial⟩
  have hfinite := (finite_reached exact.settled.size).prod (Set.finite_univ (α := Fin w))
  calc
    tree.len = tree.entries.ncard := exact.entries.symm
    _ ≤ (tree.reached ×ˢ (Set.univ : Set (Fin w))).ncard := Set.ncard_le_ncard hsubset hfinite
    _ = w * tree.stats.nodes := by
      rw [Set.ncard_prod, Set.ncard_univ, Nat.card_fin, Nat.mul_comm, nodes_stats exact.sound]

theorem Exact.maxDepth_le_nodes : tree.stats.maxDepth ≤ tree.stats.nodes := by
  obtain ⟨⟨i, hi⟩, _⟩ := tree.maxDepth_stats
  have hsubset : tree.layout.upTo tree.stats.maxDepth ⊆ tree.reached := by
    rintro j ⟨e, _, hj⟩
    exact hj.reachable
  rw [nodes_stats exact.sound]
  exact (hi.le_ncard_upTo exact.sound.forest).trans
    (Set.ncard_le_ncard hsubset (finite_reached exact.settled.size))

theorem Exact.len_lt_pow : tree.len < (w + 1) ^ tree.stats.maxDepth := by
  have hsubset : tree.reached ⊆ tree.layout.upTo tree.stats.maxDepth := by
    intro i hi
    obtain ⟨d, hd⟩ := Layout.Reachable.exists_hasDepth hi
    exact ⟨d, tree.maxDepth_stats.2 ⟨i, hd⟩, hd⟩
  calc
    tree.len ≤ w * tree.reached.ncard := by
      rw [← nodes_stats exact.sound]
      exact exact.len_le_mul_nodes
    _ ≤ w * (tree.layout.upTo tree.stats.maxDepth).ncard :=
      Nat.mul_le_mul_left w (Set.ncard_le_ncard hsubset (tree.layout.finite_upTo _))
    _ < (w + 1) ^ tree.stats.maxDepth := tree.layout.mul_ncard_upTo_lt _

end Exact

end Tree

/-- As many keys come for a first time as there are padded keys. -/
theorem length_firstKeys (entries : List (Bytes × V)) :
    (firstKeys n entries).length = (paddedKeys n entries).card := by
  induction entries using List.reverseRecOn with
  | nil => rfl
  | append_singleton entries entry ih =>
    obtain ⟨bytes, value⟩ := entry
    rw [paddedKeys_append_singleton]
    by_cases hmem : padBytes n bytes ∈ paddedKeys n entries
    · rw [firstKeys_append_of_mem hmem, Finset.insert_eq_of_mem hmem, ih]
    · rw [firstKeys_append_of_notMem hmem, Finset.card_insert_of_notMem hmem, List.length_append, ih]
      rfl

namespace Tree

/-- A tree that some entries leave, in which no key is deeper than its rank. -/
structure Ranked (tree : Tree w n V) (entries : List (Bytes × V)) : Prop extends
    tree.Models entries where
  exact : tree.Exact
  early : ∀ j bytes key, (firstKeys n entries)[j]? = some (padBytes n bytes) →
    Key.ofBytes n bytes = .ok key → ∃ d ≤ j + 1, tree.HoldsAtDepth key d

variable {tree : Tree w n V} {entries : List (Bytes × V)} {bytes : Bytes} {key : Key n}

theorem ranked_empty {width : Nat} (h : width ≤ Key.capacity n) :
    (empty width : Tree w n V).Ranked [] where
  toModels := models_empty h
  exact := exact_empty h
  early := by
    intro j bytes key hfirst
    cases hfirst

/-- The depth of a key that was just put is at most the number of keys. -/
theorem Models.exists_depth_le {other : Bytes} {k : Key n} (models : tree.Models entries)
    (exact : tree.Exact) (hw : 0 < w) (hk : Key.ofBytes n other = .ok k)
    (mem : padBytes n other ∈ paddedKeys n entries) : ∃ d ≤ tree.len, tree.HoldsAtDepth k d := by
  obtain ⟨v, hlast⟩ := exists_lastPut_iff.2 mem
  obtain ⟨d, hd⟩ := ((models.holds other k v hk).2 hlast).exists_depth
  have hlen : tree.len ≠ 0 := exact.exists_holdsAtDepth_iff.1 ⟨k, d, hd⟩
  refine ⟨d, ?_, hd⟩
  calc
    d ≤ tree.stats.maxDepth := hd.le_maxDepth
    _ ≤ tree.stats.nodes := exact.maxDepth_le_nodes
    _ ≤ max 1 tree.len := exact.nodes_le hw
    _ = tree.len := max_eq_right (Nat.one_le_iff_ne_zero.2 hlen)

theorem Ranked.insert (ranked : tree.Ranked entries) (hw : 0 < w)
    (accepted : tree.encode bytes = .ok key) (value : V) :
    (tree.insert key value).Ranked (entries ++ [(bytes, value)]) where
  toModels := ranked.toModels.insert hw accepted value
  exact := ranked.exact.insert hw accepted value
  early := by
    intro j other k hfirst hk
    have stays (h : (firstKeys n entries)[j]? = some (padBytes n other)) :
        ∃ d ≤ j + 1, (tree.insert key value).HoldsAtDepth k d := by
      obtain ⟨d, hd, hdepth⟩ := ranked.early j other k h hk
      exact ⟨d, hd, hdepth.grows (grows_insert ranked.settled.size)⟩
    by_cases hmem : padBytes n bytes ∈ paddedKeys n entries
    · rw [firstKeys_append_of_mem hmem] at hfirst
      exact stays hfirst
    · rw [firstKeys_append_of_notMem hmem] at hfirst
      rcases Nat.lt_or_ge j (firstKeys n entries).length with hj | hj
      · rw [List.getElem?_append_left hj] at hfirst
        exact stays hfirst
      · -- The last of the first keys is the one that was put now.
        have models := ranked.toModels.insert hw accepted value
        rw [List.getElem?_append_right hj, List.getElem?_singleton] at hfirst
        split_ifs at hfirst with hzero
        obtain ⟨d, hd, hdepth⟩ := models.exists_depth_le (ranked.exact.insert hw accepted value) hw hk
          (by simp [paddedKeys_append_singleton, ← Option.some.inj hfirst])
        refine ⟨d, hd.trans ?_, hdepth⟩
        rw [models.len, ← length_firstKeys, firstKeys_append_of_notMem hmem, List.length_append,
          List.length_singleton]
        omega

end Tree

namespace Operation

/-- The shape of an index is bounded, whatever the order of the puts. Nodes are no more than keys,
apart from the root, and hold no more than `w` keys each; a tree of some depth has at least that many
nodes and holds fewer than `(w + 1) ^ depth` keys. The key that came as the `j`-th of the distinct
ones, counted from zero, has a depth of at most `j + 1`. -/
theorem shape_is_bounded {config : Config} {start : Tree w n V} (hw : 0 < w)
    (built : Tree.ofConfig config = .ok start) (calls : List (MapCall V)) :
    ∃ replies tree,
      exec (MapCall.performEach calls) (.quiet start) = some (.ok replies, .quiet tree) ∧
      tree.stats.nodes ≤ max 1 tree.len ∧
      tree.len ≤ w * tree.stats.nodes ∧
      tree.stats.maxDepth ≤ tree.stats.nodes ∧
      tree.len ≤ (w + 1) ^ tree.stats.maxDepth - 1 ∧
      ∀ j bytes, bytes.length ≤ start.keyWidth →
        (firstKeys n (entriesOf start.keyWidth calls))[j]? = some (padBytes n bytes) →
        ∃ depth ≤ j + 1,
          exec (depthOf? bytes) (.quiet tree) = some (.ok (some depth), .quiet tree) := by
  obtain ⟨width, hle, rfl⟩ := Tree.eq_empty_of_ofConfig built
  obtain ⟨replies, tree, hcalls, ranked, hwidth⟩ := exec_performEach_keeps (P := Tree.Ranked)
    (fun h => h.settled) (fun value h accepted => h.insert hw accepted value)
    (Tree.ranked_empty hle) calls
  refine ⟨replies, tree, hcalls, ranked.exact.nodes_le hw, ranked.exact.len_le_mul_nodes,
    ranked.exact.maxDepth_le_nodes, Nat.le_sub_one_of_lt ranked.exact.len_lt_pow, ?_⟩
  intro j bytes hshort hfirst
  obtain ⟨key, accepted⟩ := Tree.exists_encode ranked.settled.width (hwidth ▸ hshort)
  obtain ⟨d, hd, hdepth⟩ := ranked.early j bytes key hfirst
    ((Tree.encode_eq_ok_iff tree bytes key).1 accepted).2
  obtain ⟨depth, hexec, hiff⟩ := exec_depthOf_quiet ranked.exact accepted
  exact ⟨d, hd, (hiff d).2 hdepth ▸ hexec⟩

/-- The third of the distinct keys is the fourth that is put, and comes to stand below the root. -/
theorem shape_is_bounded_third :
    ∃ replies tree,
      exec (MapCall.performEach [.put [98] 1 .own, .put [97] 2 .own, .put [98, 0] 3 .own,
        .put [99] 4 .own]) (.quiet (Tree.empty 8 : Tree 1 1 Nat)) =
          some (.ok replies, .quiet tree) ∧
      tree.stats.nodes ≤ max 1 tree.len ∧
      tree.len ≤ 1 * tree.stats.nodes ∧
      tree.stats.maxDepth ≤ tree.stats.nodes ∧
      tree.len ≤ (1 + 1) ^ tree.stats.maxDepth - 1 ∧
      ∃ depth ≤ 3, exec (depthOf? [99]) (.quiet tree) = some (.ok (some depth), .quiet tree) := by
  obtain ⟨replies, tree, hcalls, hnodes, hfull, hdeep, hwide, hfirst⟩ :=
    shape_is_bounded (by decide)
      (show Tree.ofConfig ({} : Config) = .ok (Tree.empty 8 : Tree 1 1 Nat) from rfl)
      [.put [98] 1 .own, .put [97] 2 .own, .put [98, 0] 3 .own, .put [99] 4 .own]
  exact ⟨replies, tree, hcalls, hnodes, hfull, hdeep, hwide,
    hfirst 2 [99] (by decide) (by decide)⟩

end Operation

end FanoutIndex

import FanoutIndex.Proofs.Scripted.Built
import FanoutIndex.Proofs.Tree.Commute
import FanoutIndex.Proofs.Tree.Visits

/-!
# Chains

A chain is a tree whose nodes hang one below the other, each under the same link of the node above
it. Its nodes share a row of entries out among them in order: each full one has as many as the
others, the last one has the rest. A key that every full node sends on under that link, and that
comes after the entries of a last node that is not full, makes the chain longer by its entry.
-/

namespace FanoutIndex

variable {w n : Nat} {V : Type}

theorem getElem?_concat {α : Type} (row : List α) (last : α) (i : Nat) :
    (row ++ [last])[i]? = if i = row.length then some last else row[i]? := by
  split_ifs with h
  · rw [h, List.getElem?_concat_length]
  · rcases Nat.lt_or_gt_of_ne h with hlt | hgt
    · exact List.getElem?_append_left hlt
    · rw [List.getElem?_eq_none hgt.le, List.getElem?_eq_none]
      rw [List.length_append]
      exact hgt

namespace Tree

/-- Each node has the next entries of a row in its first slots, as many as its share, and the next
node under one link, as long as there are more. -/
structure Chained (tree : Tree w n V) (share : Nat) (link : Fin (w + 1))
    (entries : List (Key n × V)) : Prop where
  known : ∀ i, i < tree.nodes.size ↔ i = root ∨ i * share < entries.length
  stored : ∀ i < tree.nodes.size, ∀ slot, (tree.node i).stored? slot =
    if slot.val < share then entries[i * share + slot.val]? else none
  links : ∀ i < tree.nodes.size, ∀ l, (tree.node i).links.get l =
    if l = link ∧ i + 1 < tree.nodes.size then some (i + 1) else none

variable {tree : Tree w n V} {share i s : Nat} {link : Fin (w + 1)} {slot : Fin w}
  {entries : List (Key n × V)} {key : Key n} {value : V}

theorem chained_empty (width share : Nat) (link : Fin (w + 1)) :
    (empty width : Tree w n V).Chained share link [] where
  known := by
    intro i
    simp [empty, root]
  stored := by
    intro i _ slot
    rw [node_empty]
    simp [Node.stored?, Node.empty, get_eq_getElem]
  links := by
    intro i _ l
    rw [node_empty, Node.links_empty, if_neg]
    exact fun h => Nat.not_lt_zero i (Nat.lt_of_succ_lt_succ h.2)

namespace Chained

variable (chained : tree.Chained share link entries)

include chained

theorem size_pos : 0 < tree.nodes.size := (chained.known root).2 (.inl rfl)

theorem known_succ : i + 1 < tree.nodes.size ↔ (i + 1) * share < entries.length := by
  rw [chained.known]
  exact or_iff_right (Nat.succ_ne_zero i)

theorem next (h : i + 1 < tree.nodes.size) : (tree.layout i).link link = some (i + 1) :=
  (chained.links i (Nat.lt_of_succ_lt h) link).trans (if_pos ⟨rfl, h⟩)

theorem hasDepth (hi : i < tree.nodes.size) : tree.layout.HasDepth i (i + 1) := by
  induction i with
  | zero => exact .here
  | succ i ih => exact .step (ih (Nat.lt_of_succ_lt hi)) (chained.next hi)

theorem path (leads : ∀ j, (j + 1) * share ≤ entries.length → (tree.layout j).LeadsTo key link)
    (hi : i < tree.nodes.size) : tree.layout.Path key i (i + 1) := by
  induction i with
  | zero => exact .root
  | succ i ih =>
    exact .step (ih (Nat.lt_of_succ_lt hi))
      ⟨leads i (chained.known_succ.1 hi).le, chained.next hi⟩

theorem known_of_lt (hlt : i * share + s < entries.length) : i < tree.nodes.size :=
  (chained.known i).2 (.inr ((Nat.le_add_right _ s).trans_lt hlt))

theorem exists_key (hslot : slot.val < share) (h : i * share + slot.val < entries.length) :
    ∃ entry ∈ entries, (tree.layout i).key slot = some entry.1 := by
  have hstored := chained.stored i (chained.known_of_lt h) slot
  rw [if_pos hslot, List.getElem?_eq_getElem h] at hstored
  exact ⟨_, List.getElem_mem h, (Node.stored?_eq_some_iff.1 hstored).1⟩

theorem key_eq_none (hi : i < tree.nodes.size) (h : entries.length ≤ i * share + slot.val) :
    (tree.layout i).key slot = none := by
  by_contra hne
  obtain ⟨k, hk⟩ := Option.ne_none_iff_exists'.1 hne
  obtain ⟨v, hv⟩ := Node.exists_stored?_of_face_key hk
  rw [chained.stored i hi, List.getElem?_eq_none h, ite_self] at hv
  cases hv

theorem insert_fill (hi : i < tree.nodes.size) (hslot : slot.val < share)
    (hlen : entries.length = i * share + slot.val)
    (leads : ∀ j, (j + 1) * share ≤ entries.length → (tree.layout j).LeadsTo key link)
    (follows : (tree.layout i).Precedes key slot) :
    (tree.insert key value).Chained share link (entries ++ [(key, value)]) := by
  have vacant : (tree.layout i).Routes key (Place.fill slot).route :=
    ⟨follows, chained.key_eq_none hi hlen.le⟩
  have hsize : (tree.change i (.fill slot) key value).nodes.size = tree.nodes.size :=
    size_change _ hi
  rw [insert_eq (chained.path leads hi) vacant]
  constructor
  case known =>
    -- The entry needs no further node: where a node starts at its position there is one.
    intro j
    rw [hsize, chained.known, List.length_append, List.length_singleton, Nat.lt_succ_iff_lt_or_eq,
      ← or_assoc, iff_self_or]
    intro heq
    obtain ⟨rfl, _⟩ := block_unique (s := 0) (Nat.zero_lt_of_lt hslot) hslot
      ((Nat.add_zero _).trans (heq.trans hlen))
    exact (chained.known j).1 hi
  case stored =>
    intro j hj s
    rw [hsize] at hj
    rw [stored?_change hi hj, chained.stored j hj]
    by_cases hs : s.val < share
    · rw [if_pos hs, if_pos hs, getElem?_concat]
      refine if_congr ?_ rfl rfl
      constructor
      · rintro ⟨rfl, hslot'⟩
        cases hslot'
        exact hlen.symm
      · intro heq
        obtain ⟨rfl, hval⟩ := block_unique hs hslot (heq.trans hlen)
        exact ⟨rfl, congrArg some (Fin.ext hval.symm)⟩
    · rw [if_neg hs, if_neg hs, if_neg]
      rintro ⟨_, hslot'⟩
      cases hslot'
      exact hs hslot
  case links =>
    intro j hj l
    rw [hsize] at hj ⊢
    rw [link_change hi hj, if_neg (by simp [Place.link?]), chained.links j hj]

theorem size_of_full (hshare : 0 < share) (hlen : entries.length = (i + 1) * share) :
    tree.nodes.size = i + 1 := by
  apply eq_of_forall_lt_iff
  intro j
  rw [chained.known, hlen, Nat.mul_lt_mul_right hshare]
  exact or_iff_right_of_imp fun hroot => hroot ▸ Nat.succ_pos i

/-- Where every node is full, the entry goes to a new one under the last of them. -/
theorem insert_attach (hshare : 0 < share) (hlen : entries.length = (i + 1) * share)
    (leads : ∀ j, (j + 1) * share ≤ entries.length → (tree.layout j).LeadsTo key link) :
    (tree.insert key value).Chained share link (entries ++ [(key, value)]) := by
  have hsize := chained.size_of_full hshare hlen
  have hi : i < tree.nodes.size := hsize ▸ Nat.lt_succ_self i
  have bare : (tree.layout i).Routes key (Place.attach link).route := by
    refine ⟨leads i hlen.ge, (chained.links i hi link).trans (if_neg ?_)⟩
    exact fun h => Nat.ne_of_lt h.2 hsize.symm
  have hsize' : (tree.change i (.attach link) key value).nodes.size = i + 2 := by
    rw [size_change _ hi, hsize]
    rfl
  have hnew : (tree.change i (.attach link) key value).node (i + 1) = .ofEntry key value := by
    rw [← hsize]
    exact node_change_size hi (rfl : (Place.attach link).link? = some link)
  rw [insert_eq (chained.path leads hi) bare]
  constructor
  case known =>
    intro j
    rw [hsize', List.length_append, List.length_singleton, hlen, Nat.lt_succ_iff, Nat.lt_succ_iff,
      Nat.mul_le_mul_right_iff hshare]
    exact (or_iff_right_of_imp fun hroot => hroot ▸ Nat.zero_le _).symm
  case stored =>
    intro j hj s
    rw [hsize'] at hj
    rcases Nat.lt_succ_iff_lt_or_eq.1 hj with hlt | rfl
    · rw [stored?_change hi (hsize ▸ hlt), if_neg (by simp [Place.slot?]),
        chained.stored j (hsize ▸ hlt)]
      split_ifs with hs
      · rw [getElem?_concat, if_neg]
        intro heq
        obtain ⟨hj', _⟩ := block_unique hs hshare (heq.trans (hlen.trans (Nat.add_zero _).symm))
        exact Nat.ne_of_lt hlt hj'
      · rfl
    · rw [hnew, Node.stored?_ofEntry, ← hlen, getElem?_concat]
      by_cases hs : s.val = 0
      · simp [hs, hshare]
      · simp [hs]
  case links =>
    intro j hj l
    rw [hsize'] at hj ⊢
    rcases Nat.lt_succ_iff_lt_or_eq.1 hj with hlt | rfl
    · rw [link_change hi (hsize ▸ hlt), chained.links j (hsize ▸ hlt), hsize]
      by_cases hji : j = i
      · simp [hji, Place.link?, eq_comm]
      · have hmore : j + 1 < i + 1 := by omega
        simp [hji, hmore, Nat.lt_succ_of_lt hmore]
    · rw [hnew, Node.links_ofEntry, if_neg]
      omega

/-- A key that full nodes send down the chain and that comes after the entries of the last node. -/
theorem insert (hshare : 0 < share) (hle : share ≤ w)
    (leads : ∀ j, (j + 1) * share ≤ entries.length → (tree.layout j).LeadsTo key link)
    (follows : ∀ j (t : Fin w), t.val < share → entries.length = j * share + t.val →
      (tree.layout j).Precedes key t) :
    (tree.insert key value).Chained share link (entries ++ [(key, value)]) := by
  have hmod := Nat.mod_lt entries.length hshare
  have hlen := (Nat.div_add_mod' entries.length share).symm
  obtain ⟨slot, hslot⟩ : ∃ slot : Fin w, slot.val = entries.length % share :=
    ⟨⟨_, hmod.trans_le hle⟩, rfl⟩
  rw [← hslot] at hmod hlen
  -- The last node has room, unless it is full or there is only the root, which is empty.
  rcases Nat.eq_zero_or_pos slot.val with hzero | hpos
  · cases hdiv : entries.length / share with
    | zero =>
      rw [hdiv] at hlen
      exact chained.insert_fill chained.size_pos hmod hlen leads (follows _ _ hmod hlen)
    | succ i =>
      rw [hdiv, hzero, Nat.add_zero] at hlen
      exact chained.insert_attach hshare hlen leads
  · have hi : entries.length / share < tree.nodes.size :=
      (chained.known _).2 (.inr (by omega))
    exact chained.insert_fill hi hmod hlen leads (follows _ _ hmod hlen)

end Chained

/-- A key above all others goes to the end of a chain of rightmost links. -/
theorem Chained.insert_above (chained : tree.Chained w (Fin.last w) entries) (hw : 0 < w)
    (above : ∀ entry ∈ entries, entry.1 < key) :
    (tree.insert key value).Chained w (Fin.last w) (entries ++ [(key, value)]) := by
  have precedes {j p : Nat} (h : j * w + p ≤ entries.length) : (tree.layout j).Precedes key p := by
    intro s hs
    obtain ⟨entry, hmem, hkey⟩ := chained.exists_key (i := j) s.isLt (by omega)
    exact ⟨entry.1, hkey, above entry hmem⟩
  apply chained.insert hw le_rfl
  · intro j hj
    rw [Nat.succ_mul] at hj
    exact ⟨precedes hj, fun h => absurd h (Nat.lt_irrefl w)⟩
  · intro j t _ ht
    exact precedes ht.ge

/-- A key below all others goes to the end of a chain of leftmost links. -/
theorem Chained.insert_below (chained : tree.Chained 1 0 entries) (hw : 0 < w)
    (below : ∀ entry ∈ entries, key < entry.1) :
    (tree.insert key value).Chained 1 0 (entries ++ [(key, value)]) := by
  apply chained.insert Nat.one_pos hw
  · intro j hj
    refine ⟨fun s hs => absurd hs (Nat.not_lt_zero _), fun h => ?_⟩
    have hlt : j * 1 + (⟨0, h⟩ : Fin w).val < entries.length := by simpa using hj
    obtain ⟨entry, hmem, hkey⟩ := chained.exists_key Nat.one_pos hlt
    exact ⟨entry.1, hkey, below entry hmem⟩
  · intro j t ht _ s hs
    exact absurd hs (by omega)

section Shape

variable (chained : tree.Chained share link entries) (hshare : 0 < share)

include chained hshare

theorem Chained.holdsAt {p : Nat} (h : entries[p]? = some (key, value))
    (hslot : slot.val = p % share) :
    tree.HoldsAt (p / share) slot key value ∧ tree.layout.HasDepth (p / share) (p / share + 1) := by
  have hp : p < entries.length := (List.getElem?_eq_some_iff.1 h).1
  have hpos := Nat.div_add_mod' p share
  have hi : p / share < tree.nodes.size := chained.known_of_lt (hpos.trans_lt hp)
  refine ⟨⟨(chained.hasDepth hi).reachable, ?_⟩, chained.hasDepth hi⟩
  rw [chained.stored _ hi, hslot, if_pos (Nat.mod_lt p hshare), hpos, h]

theorem Chained.size_eq : tree.nodes.size = max 1 (entries.length ⌈/⌉ share) := by
  apply eq_of_forall_lt_iff
  intro i
  rw [chained.known, lt_max_iff, Nat.lt_one_iff, ← not_le, ← not_le,
    ceilDiv_le_iff_le_mul hshare, Nat.mul_comm]
  rfl

theorem Chained.nodes_eq (sound : tree.layout.Sound) :
    tree.stats.nodes = max 1 (entries.length ⌈/⌉ share) := by
  have hreached : tree.reached = ↑(Finset.range tree.nodes.size) := by
    ext i
    rw [Finset.coe_range, Set.mem_Iio]
    constructor
    · exact fun h => tree.lt_of_reachable chained.size_pos h
    · exact fun h => (chained.hasDepth h).reachable
  rw [nodes_stats sound, hreached, Set.ncard_coe_finset, Finset.card_range,
    chained.size_eq hshare]

theorem Chained.maxDepth_eq (sound : tree.layout.Sound) :
    tree.stats.maxDepth = max 1 (entries.length ⌈/⌉ share) := by
  rw [← chained.size_eq hshare]
  refine tree.maxDepth_stats.unique ⟨?_, ?_⟩
  · have hdepth := chained.hasDepth (Nat.pred_lt chained.size_pos.ne')
    rw [← Nat.succ_eq_add_one, Nat.succ_pred chained.size_pos.ne'] at hdepth
    exact ⟨_, hdepth⟩
  · rintro d ⟨i, hd⟩
    have hi := tree.lt_of_reachable chained.size_pos hd.reachable
    rw [hd.depth_unique sound.forest (chained.hasDepth hi)]
    exact hi

end Shape

end Tree

end FanoutIndex

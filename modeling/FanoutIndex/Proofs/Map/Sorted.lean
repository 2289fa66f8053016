import FanoutIndex.Proofs.Key.Lexicographic
import FanoutIndex.Proofs.Map.Sequences
import FanoutIndex.Proofs.Tree.Chain

namespace FanoutIndex

variable {w n : Nat} {V : Type}

def packedEntries (n : Nat) (entries : List (Bytes × V)) : List (Key n × V) :=
  entries.map fun entry => (Key.packed n entry.1, entry.2)

theorem Key.compare_packed {a b : Bytes} (ha : a.length ≤ capacity n) (hb : b.length ≤ capacity n) :
    compare (packed n a) (packed n b) = List.compareLex compare (padBytes n a) (padBytes n b) := by
  rw [compare_eq_compare_toBytes, toBytes_ofBytes (ofBytes_eq_ok ha),
    toBytes_ofBytes (ofBytes_eq_ok hb)]

namespace Tree

/-- The nodes hang one below the other, each under the same link, and each has its share of some
entries in the order of these: as many as the share in each node but the last. -/
structure IsChain (tree : Tree w n V) (share : Nat) (link : Fin (w + 1))
    (entries : List (Bytes × V)) : Prop where
  placed : ∀ i bytes value, entries[i]? = some (bytes, value) → ∃ key node slot,
    Key.ofBytes n bytes = .ok key ∧ tree.HoldsAt node slot key value ∧
      slot.val = i % share ∧ tree.layout.HasDepth node (i / share + 1)
  nodes : tree.stats.nodes = max 1 (entries.length ⌈/⌉ share)
  maxDepth : tree.stats.maxDepth = max 1 (entries.length ⌈/⌉ share)
  linked : ∀ i l child, (tree.node i).links.get l = some child → l = link

/-- A tree that is a chain of its entries if these came in order. -/
structure Strung (tree : Tree w n V) (entries : List (Bytes × V)) : Prop where
  settled : tree.Settled
  sound : tree.layout.Sound
  rising : (packedEntries n entries).Pairwise (fun a b => a.1 < b.1) →
    tree.Chained w (Fin.last w) (packedEntries n entries)
  falling : (packedEntries n entries).Pairwise (fun a b => b.1 < a.1) →
    tree.Chained 1 0 (packedEntries n entries)

variable {tree : Tree w n V} {entries : List (Bytes × V)} {bytes : Bytes} {key : Key n}

theorem strung_empty {width : Nat} (h : width ≤ Key.capacity n) :
    (empty width : Tree w n V).Strung [] where
  settled := settled_empty h
  sound := by
    rw [layout_empty]
    exact Layout.Sound.bare
  rising _ := chained_empty width w (Fin.last w)
  falling _ := chained_empty width 1 0

theorem Strung.insert (strung : tree.Strung entries) (hw : 0 < w)
    (accepted : tree.encode bytes = .ok key) (value : V) :
    (tree.insert key value).Strung (entries ++ [(bytes, value)]) := by
  have hkey := ((encode_eq_ok_iff tree bytes key).1 accepted).2
  obtain rfl : Key.packed n bytes = key := by
    rw [Key.ofBytes_eq_ok (Key.exists_ofBytes_iff.1 ⟨key, hkey⟩)] at hkey
    exact Except.ok.inj hkey
  have hpacked : packedEntries n (entries ++ [(bytes, value)]) =
      packedEntries n entries ++ [(Key.packed n bytes, value)] := List.map_append
  constructor
  case settled => exact (Evolves.put .refl accepted).settled strung.settled
  case sound => exact sound_insert strung.settled.size strung.sound
  case rising =>
    rw [hpacked, List.pairwise_append]
    rintro ⟨sorted, _, above⟩
    exact (strung.rising sorted).insert_above hw fun entry hmem => above entry hmem _ (.head _)
  case falling =>
    rw [hpacked, List.pairwise_append]
    rintro ⟨sorted, _, below⟩
    exact (strung.falling sorted).insert_below hw fun entry hmem => below entry hmem _ (.head _)

theorem Chained.isChain {share : Nat} {link : Fin (w + 1)}
    (chained : tree.Chained share link (packedEntries n entries)) (sound : tree.layout.Sound)
    (hshare : 0 < share) (hle : share ≤ w)
    (fits : ∀ entry ∈ entries, entry.1.length ≤ Key.capacity n) :
    tree.IsChain share link entries := by
  have hlength : (packedEntries n entries).length = entries.length := List.length_map _
  constructor
  case placed =>
    intro i bytes value h
    have hpacked : (packedEntries n entries)[i]? = some (Key.packed n bytes, value) := by
      simp [packedEntries, h]
    have hkey := Key.ofBytes_eq_ok (fits _ (List.mem_of_getElem? h))
    obtain ⟨holds, depth⟩ := chained.holdsAt hshare hpacked
      (show (⟨i % share, (Nat.mod_lt i hshare).trans_le hle⟩ : Fin w).val = i % share from rfl)
    exact ⟨_, _, _, hkey, holds, rfl, depth⟩
  case nodes =>
    rw [← hlength]
    exact chained.nodes_eq hshare sound
  case maxDepth =>
    rw [← hlength]
    exact chained.maxDepth_eq hshare sound
  case linked =>
    intro i l child h
    have hi : i < tree.nodes.size := by
      have hlt := tree.lt_of_link h
      omega
    rw [chained.links i hi] at h
    split_ifs at h with hl
    exact hl.1

end Tree

namespace Operation

/-- Keys in increasing order fill one node after the other, each node under the rightmost link of the
one before it; keys in decreasing order take the first slot of a node each, under the leftmost link.
The order is that of the padded byte strings. -/
theorem sorted_puts_build_chains {config : Config} {start : Tree w n V} (hw : 0 < w)
    (built : Tree.ofConfig config = .ok start) {entries : List (Bytes × V)}
    (short : ∀ entry ∈ entries, entry.1.length ≤ start.keyWidth) :
    ∃ tree, exec (putEach entries) (.quiet start) = some (.ok (), .quiet tree) ∧
      (entries.Pairwise (fun a b =>
          List.compareLex compare (padBytes n a.1) (padBytes n b.1) = .lt) →
        tree.IsChain w (Fin.last w) entries) ∧
      (entries.Pairwise (fun a b =>
          List.compareLex compare (padBytes n a.1) (padBytes n b.1) = .gt) →
        tree.IsChain 1 0 entries) := by
  obtain ⟨width, hle, rfl⟩ := Tree.eq_empty_of_ofConfig built
  obtain ⟨tree, hputs, strung⟩ := exec_putEach_keeps (P := Tree.Strung) (fun strung => strung.settled)
    (fun value strung accepted => strung.insert hw accepted value) (Tree.strung_empty hle) short
  have fits : ∀ entry ∈ entries, entry.1.length ≤ Key.capacity n :=
    fun entry hmem => (short entry hmem).trans hle
  refine ⟨tree, hputs, ?_, ?_⟩
  · intro sorted
    refine Tree.Chained.isChain (strung.rising ?_) strung.sound hw le_rfl fits
    refine List.pairwise_map.2 (sorted.imp_of_mem ?_)
    intro a b ha hb h
    rw [Key.lt_iff_compare, Key.compare_packed (fits a ha) (fits b hb)]
    exact h
  · intro sorted
    refine Tree.Chained.isChain (strung.falling ?_) strung.sound Nat.one_pos hw fits
    refine List.pairwise_map.2 (sorted.imp_of_mem ?_)
    intro a b ha hb h
    rw [Key.gt_iff_compare, Key.compare_packed (fits a ha) (fits b hb)]
    exact h

/-- The third of the rising keys no longer fits into the root. -/
theorem sorted_puts_build_chains_three :
    (∃ tree, exec (putEach [([97], 1), ([98], 2), ([98, 1], 3)])
          (.quiet (Tree.empty 8 : Tree 2 1 Nat)) = some (.ok (), .quiet tree) ∧
        tree.IsChain 2 (Fin.last 2) [([97], 1), ([98], 2), ([98, 1], 3)]) ∧
      ∃ tree, exec (putEach [([98, 1], 3), ([98], 2), ([97], 1)])
          (.quiet (Tree.empty 8 : Tree 2 1 Nat)) = some (.ok (), .quiet tree) ∧
        tree.IsChain 1 0 [([98, 1], 3), ([98], 2), ([97], 1)] := by
  have built : Tree.ofConfig ({} : Config) = .ok (Tree.empty 8 : Tree 2 1 Nat) := rfl
  have rise : ∀ entry ∈ [(([97] : Bytes), 1), ([98], 2), ([98, 1], 3)], entry.1.length ≤ 8 := by
    decide
  have fall : ∀ entry ∈ [(([98, 1] : Bytes), 3), ([98], 2), ([97], 1)], entry.1.length ≤ 8 := by
    decide
  obtain ⟨up, hup, rising, _⟩ := sorted_puts_build_chains (by decide) built rise
  obtain ⟨down, hdown, _, falling⟩ := sorted_puts_build_chains (by decide) built fall
  exact ⟨⟨up, hup, rising (by decide)⟩, down, hdown, falling (by decide)⟩

end Operation

end FanoutIndex

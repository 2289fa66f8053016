import FanoutIndex.Proofs.Map.Sequences
import FanoutIndex.Proofs.Tree.Places

/-!
# How an index grows

A put changes one place of the tree, and nothing in it ever moves. So its shape is told by the keys
in the order in which each was put for the first time: values, overwrites and look-ups leave no
trace in it.
-/

namespace FanoutIndex

variable {w n : Nat} {V : Type}

/-- The padded keys of some entries, each where it comes first. -/
def firstKeys (n : Nat) (entries : List (Bytes × V)) : List Bytes :=
  (entries.map fun entry => padBytes n entry.1).eraseDups

section FirstKeys

variable {entries : List (Bytes × V)} {bytes : Bytes} {value : V}

theorem firstKeys_append_of_mem (h : padBytes n bytes ∈ paddedKeys n entries) :
    firstKeys n (entries ++ [(bytes, value)]) = firstKeys n entries := by
  rw [paddedKeys, List.mem_toFinset] at h
  simp [firstKeys, List.eraseDups_append, List.removeAll, h]

theorem firstKeys_append_of_notMem (h : padBytes n bytes ∉ paddedKeys n entries) :
    firstKeys n (entries ++ [(bytes, value)]) = firstKeys n entries ++ [padBytes n bytes] := by
  rw [paddedKeys, List.mem_toFinset] at h
  simp [firstKeys, List.eraseDups_append, List.eraseDups_cons, List.removeAll, h]

end FirstKeys

namespace Tree

/-- A tree in which keys were put one after the other. -/
def planted (keys : List Bytes) : Tree w n Unit :=
  keys.foldl (fun tree bytes =>
    match Key.ofBytes n bytes with
    | .ok key => tree.insert key ()
    | .error _ => tree) (empty (Key.capacity n))

theorem planted_append {keys : List Bytes} {bytes : Bytes} {key : Key n}
    (h : Key.ofBytes n bytes = .ok key) :
    (planted (keys ++ [bytes]) : Tree w n Unit) = (planted keys).insert key () := by
  simp [planted, h]

/-- A tree holds what some entries leave, and its shape is that which their first keys give. -/
structure Grown (tree : Tree w n V) (entries : List (Bytes × V)) : Prop extends
    tree.Models entries where
  shape : tree.shape = (planted (firstKeys n entries)).shape

variable {tree : Tree w n V} {entries : List (Bytes × V)} {bytes : Bytes} {key : Key n}

theorem grown_empty {width : Nat} (h : width ≤ Key.capacity n) :
    (empty width : Tree w n V).Grown [] where
  toModels := models_empty h
  shape := by
    ext1
    case layout => exact (layout_empty width).trans (layout_empty _).symm
    case version =>
      funext i
      rcases Nat.eq_zero_or_pos i with rfl | hi
      · rfl
      · exact (version_of_ge hi).trans (version_of_ge hi).symm
    all_goals rfl

theorem Grown.insert (grown : tree.Grown entries) (hw : 0 < w)
    (accepted : tree.encode bytes = .ok key) (value : V) :
    (tree.insert key value).Grown (entries ++ [(bytes, value)]) where
  toModels := grown.toModels.insert hw accepted value
  shape := by
    have size := grown.settled.size
    -- A key that is there leaves both shapes, a new one is inserted in both trees.
    by_cases hmem : padBytes n bytes ∈ paddedKeys n entries
    · have held := (grown.exists_holds_iff accepted).2 hmem
      rw [firstKeys_append_of_mem hmem, ← grown.shape]
      exact (exists_overwritten_insert size grown.sound held value).2
    · have hkey := ((encode_eq_ok_iff tree bytes key).1 accepted).2
      rw [firstKeys_append_of_notMem hmem, planted_append (Key.ofBytes_padBytes hkey)]
      exact shape_insert_congr size grown.shape

end Tree

namespace Operation

theorem grown_of_run {config : Config} {start : Tree w n V} (hw : 0 < w)
    (built : Tree.ofConfig config = .ok start) (calls : List (MapCall V)) :
    ∃ replies tree, exec (MapCall.performEach calls) (.quiet start) =
        some (.ok replies, .quiet tree) ∧
      tree.Grown (entriesOf start.keyWidth calls) ∧ tree.keyWidth = start.keyWidth := by
  obtain ⟨width, hle, rfl⟩ := Tree.eq_empty_of_ofConfig built
  exact exec_performEach_keeps (fun grown => grown.settled)
    (fun value grown accepted => grown.insert hw accepted value) (Tree.grown_empty hle) calls

/-- A put changes one place of the tree. Where its key is held, the value in the slot of the key is
replaced; where it is not, a vacant slot is filled or a new node is hung, but not both. The keys,
the versions, the links and the counters change by no more than that, and every other key keeps its
node, slot, depth and value. So two runs end with the same shape, whatever calls they made, if they
put the same keys for the first time in the same order. -/
theorem put_changes_one_place {config : Config} {start : Tree w n V} (hw : 0 < w)
    (built : Tree.ofConfig config = .ok start) (calls : List (MapCall V)) :
    ∃ replies tree,
      exec (MapCall.performEach calls) (.quiet start) = some (.ok replies, .quiet tree) ∧
      (∀ bytes value, bytes.length ≤ start.keyWidth → ∃ key after,
        Key.ofBytes n bytes = .ok key ∧
        exec (put bytes value .own) (.quiet tree) = some (.ok (), .quiet after) ∧
        ((∃ v, tree.Holds key v) →
          (∃ i slot, tree.Overwritten after i slot key value) ∧ after.shape = tree.shape) ∧
        ((¬∃ v, tree.Holds key v) →
          Xor (∃ i slot, tree.Filled after i slot key value)
            (∃ i link, tree.Hung after i link key value)) ∧
        ∀ k ≠ key, ∀ i slot v d,
          after.HoldsAt i slot k v ∧ after.layout.HasDepth i d ↔
            tree.HoldsAt i slot k v ∧ tree.layout.HasDepth i d) ∧
      ∀ (V' : Type) (config' : Config) (start' : Tree w n V') (calls' : List (MapCall V')),
        Tree.ofConfig config' = .ok start' → ∃ replies' tree',
          exec (MapCall.performEach calls') (.quiet start') = some (.ok replies', .quiet tree') ∧
          (firstKeys n (entriesOf start'.keyWidth calls') =
              firstKeys n (entriesOf start.keyWidth calls) →
            tree'.shape = tree.shape ∧ tree'.stats = tree.stats) := by
  obtain ⟨replies, tree, hcalls, grown, hwidth⟩ := grown_of_run hw built calls
  have size := grown.settled.size
  refine ⟨replies, tree, hcalls, ?_, ?_⟩
  · intro bytes value hshort
    obtain ⟨key, accepted⟩ := Tree.exists_encode grown.settled.width (hwidth ▸ hshort)
    refine ⟨key, tree.insert key value, ((Tree.encode_eq_ok_iff tree bytes key).1 accepted).2,
      exec_put_quiet grown.settled accepted value, ?_, ?_, ?_⟩
    · exact fun held => Tree.exists_overwritten_insert size grown.sound held value
    · exact fun absent => Tree.xor_filled_hung_insert size absent value
    · intro k hk i slot v d
      exact Tree.holdsAt_insert_of_ne size grown.sound hk
  · intro V' config' start' calls' built'
    obtain ⟨replies', tree', hcalls', grown', _⟩ := grown_of_run hw built' calls'
    refine ⟨replies', tree', hcalls', fun hfirst => ?_⟩
    have hshape : tree'.shape = tree.shape := by rw [grown'.shape, grown.shape, hfirst]
    exact ⟨hshape, Tree.stats_congr hshape⟩

/-- The second key is hung below the first, also where values are of another type, keys are padded
otherwise and a look-up comes in between. -/
theorem put_changes_one_place_hung :
    ∃ replies tree,
      exec (MapCall.performEach [.put [98] 1 .own, .put [97] 2 .own, .put [98, 0] 3 .own])
        (.quiet (Tree.empty 8 : Tree 1 1 Nat)) = some (.ok replies, .quiet tree) ∧
      (∀ bytes value, bytes.length ≤ 8 → ∃ key after,
        Key.ofBytes 1 bytes = .ok key ∧
        exec (put bytes value .own) (.quiet tree) = some (.ok (), .quiet after) ∧
        ((∃ v, tree.Holds key v) →
          (∃ i slot, tree.Overwritten after i slot key value) ∧ after.shape = tree.shape) ∧
        ((¬∃ v, tree.Holds key v) →
          Xor (∃ i slot, tree.Filled after i slot key value)
            (∃ i link, tree.Hung after i link key value)) ∧
        ∀ k ≠ key, ∀ i slot v d,
          after.HoldsAt i slot k v ∧ after.layout.HasDepth i d ↔
            tree.HoldsAt i slot k v ∧ tree.layout.HasDepth i d) ∧
      ∃ replies' tree',
        exec (MapCall.performEach [.put [98, 0] true .own, .get [99] .own, .put [97] false .own])
          (.quiet (Tree.empty 2 : Tree 1 1 Bool)) = some (.ok replies', .quiet tree') ∧
        tree'.shape = tree.shape ∧ tree'.stats = tree.stats := by
  obtain ⟨replies, tree, hcalls, hputs, hruns⟩ := put_changes_one_place (by decide)
    (show Tree.ofConfig ({} : Config) = .ok (Tree.empty 8 : Tree 1 1 Nat) from rfl)
    [.put [98] 1 .own, .put [97] 2 .own, .put [98, 0] 3 .own]
  obtain ⟨replies', tree', hcalls', hshape⟩ := hruns Bool { keyWidth := some 2 } (Tree.empty 2)
    [.put [98, 0] true .own, .get [99] .own, .put [97] false .own] rfl
  exact ⟨replies, tree, hcalls, hputs, replies', tree', hcalls', hshape (by decide)⟩

end Operation

end FanoutIndex

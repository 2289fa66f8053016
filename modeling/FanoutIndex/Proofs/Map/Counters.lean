import FanoutIndex.Proofs.Map.Refinement
import FanoutIndex.Proofs.Tree.Checked

namespace FanoutIndex

variable {w n : Nat} {V : Type}

namespace MapCall

/-- Whether a call is a put that hangs a new node: its search ends where a child is missing. -/
def hangs (tree : Tree w n V) : MapCall V → Bool
  | put key _ .own =>
    match (Operation.scripted fun react => do
        Operation.findLocked react (← Operation.encode key)).exec (.quiet tree) with
    | some (.ok ⟨_, .attach _, _⟩, _) => true
    | _ => false
  | _ => false

def hangings (tree : Tree w n V) : List (MapCall V) → Nat
  | [] => 0
  | call :: rest =>
    (call.hangs tree).toNat +
      match call.operation.exec (.quiet tree) with
      | some (_, run) => hangings run.tree rest
      | none => 0

end MapCall

namespace Tree

variable {tree : Tree w n V} {key : Key n} {value : V} {i d : Nat} {place : Place w}

section Change

@[simp]
theorem entries_bump : (tree.bump i).entries = tree.entries := by
  ext ⟨j, t⟩
  simp only [mem_entries_iff, holdsAt_bump]

@[simp]
theorem reached_bump : (tree.bump i).reached = tree.reached := by
  rw [reached, layout_bump, reached]

@[simp]
theorem entries_countEntry : tree.countEntry.entries = tree.entries := rfl

@[simp]
theorem reached_countEntry : tree.countEntry.reached = tree.reached := rfl

@[simp]
theorem entries_countNode : tree.countNode.entries = tree.entries := rfl

@[simp]
theorem reached_countNode : tree.countNode.reached = tree.reached := rfl

theorem entries_create (size : 0 < tree.nodes.size) :
    (tree.addNode (.ofEntry key value) (Node.links_ofEntry key value)).entries = tree.entries := by
  ext ⟨j, t⟩
  simp only [mem_entries_iff, holdsAt_create size]

theorem reached_create (size : 0 < tree.nodes.size) :
    (tree.addNode (.ofEntry key value) (Node.links_ofEntry key value)).reached = tree.reached :=
  Set.ext fun _ => reachable_create size

theorem ncard_change (hw : 0 < w) (size : 0 < tree.nodes.size)
    (path : tree.layout.Path key i d) (hend : (tree.layout i).Routes key place.route) :
    (tree.change i place key value).entries.ncard = tree.entries.ncard + added place ∧
      (tree.change i place key value).reached.ncard = tree.reached.ncard + created place := by
  have hi := tree.lt_of_path size path
  have hr := path.reachable
  cases place with
  | update slot =>
    rw [change, entries_assign_of_found hi hr hend.2, reached_assign hi]
    exact ⟨rfl, rfl⟩
  | fill slot =>
    rw [change, entries_countEntry, reached_countEntry, entries_bump, reached_bump,
      ncard_entries_assign_of_vacant hi hr hend.2, reached_assign hi]
    exact ⟨rfl, rfl⟩
  | attach link =>
    have spare : (tree.addNode (.ofEntry key value) (Node.links_ofEntry key value)).Spare
      tree.nodes.size key value := spare_create
    have hr' : (tree.addNode (.ofEntry key value)
      (Node.links_ofEntry key value)).layout.Reachable i := (reachable_create size).2 hr
    have hempty : ((tree.addNode (.ofEntry key value)
        (Node.links_ofEntry key value)).layout i).link link = none := by
      rw [layout_create, create_of_ne hi]
      exact hend.2
    have hsize := Nat.zero_lt_of_lt spare.known
    rw [change, entries_countEntry, reached_countEntry, entries_countNode, reached_countNode,
      entries_bump, reached_bump, ncard_entries_setLink spare hi hr' hempty hw hsize,
      ncard_reached_setLink spare hi hr' hempty hsize, entries_create size, reached_create size]
    exact ⟨rfl, rfl⟩

end Change

/-- An index that nobody works on counts what it holds: no node but the root is without an entry,
and every key is one that a put can have been given. -/
structure Exact (tree : Tree w n V) : Prop where
  settled : tree.Settled
  sound : tree.layout.Sound
  entries : tree.entries.ncard = tree.len
  nodes : tree.reached.ncard = tree.nodeCount
  used : ∀ i < tree.nodes.size, i ≠ root → ∃ slot k, (tree.layout i).key slot = some k
  encoded : ∀ k v, tree.Holds k v → ∃ bytes, tree.encode bytes = .ok k

theorem exact_empty {width : Nat} (h : width ≤ Key.capacity n) :
    (empty width : Tree w n V).Exact where
  settled := settled_empty h
  sound := by
    rw [layout_empty]
    exact Layout.Sound.bare
  entries := (congrArg Set.ncard (entries_empty width)).trans (Set.ncard_empty _)
  nodes := (congrArg Set.ncard (reached_empty width)).trans (Set.ncard_singleton _)
  used := fun i hi hne => absurd (Nat.lt_one_iff.1 hi) hne
  encoded := fun _ _ h => absurd h not_holds_empty

theorem node_insert_of_ge (size : 0 < tree.nodes.size) (hi : i < (tree.insert key value).nodes.size)
    (new : tree.nodes.size ≤ i) : (tree.insert key value).node i = .ofEntry key value := by
  have ht := target_lt size key
  rw [insert, size_change _ ht] at hi
  cases hplace : (tree.target key).2 with
  | update slot =>
    rw [hplace, created] at hi
    omega
  | fill slot =>
    rw [hplace, created] at hi
    omega
  | attach link =>
    rw [hplace, created] at hi
    obtain rfl : i = tree.nodes.size := by omega
    rw [insert, hplace, node_change_attach ht, if_pos rfl]

theorem used_insert (hw : 0 < w) (size : 0 < tree.nodes.size)
    (used : ∀ i < tree.nodes.size, i ≠ root → ∃ slot k, (tree.layout i).key slot = some k)
    (hi : i < (tree.insert key value).nodes.size) (hne : i ≠ root) :
    ∃ slot k, ((tree.insert key value).layout i).key slot = some k := by
  rcases Nat.lt_or_ge i tree.nodes.size with hlt | hge
  · obtain ⟨slot, k, hk⟩ := used i hlt hne
    exact ⟨slot, k, (grows_insert size i).key slot k hk⟩
  · refine ⟨⟨0, hw⟩, key, ?_⟩
    rw [layout, node_insert_of_ge size hi hge, Node.face_ofEntry]
    rfl

theorem Exact.insert (exact : tree.Exact) (hw : 0 < w) {bytes : Bytes}
    (accepted : tree.encode bytes = .ok key) (value : V) : (tree.insert key value).Exact where
  settled := (Evolves.put .refl accepted).settled exact.settled
  sound := sound_insert exact.settled.size exact.sound
  entries := by
    obtain ⟨d, path, hend⟩ := tree.target_end key
    rw [Tree.insert, (ncard_change hw exact.settled.size path hend).1, len_change, exact.entries]
  nodes := by
    obtain ⟨d, path, hend⟩ := tree.target_end key
    rw [Tree.insert, (ncard_change hw exact.settled.size path hend).2, nodeCount_change,
      exact.nodes]
  used := fun i => used_insert hw exact.settled.size exact.used
  encoded := by
    intro k v h
    rw [stores_insert hw exact.settled.size exact.sound k v] at h
    simp only [encode_insert]
    split_ifs at h with hk
    · exact ⟨bytes, hk ▸ accepted⟩
    · exact exact.encoded k v h

section Exact

variable (exact : tree.Exact)

include exact

theorem Exact.occupied_pos (hi : i < tree.nodes.size) (hne : i ≠ root) :
    0 < (tree.node i).occupied := by
  obtain ⟨slot, k, hk⟩ := exact.used i hi hne
  exact Nat.zero_lt_of_lt ((exists_key_iff exact.sound).1 ⟨k, hk⟩)

/-- A node in use holds a key, unless it is the root. -/
theorem Exact.holdsAtDepth (hd : tree.layout.HasDepth i d) (hne : i ≠ root) :
    ∃ k, tree.HoldsAtDepth k d := by
  have hi := tree.lt_of_reachable exact.settled.size hd.reachable
  obtain ⟨slot, k, hk⟩ := exact.used i hi hne
  obtain ⟨v, hv⟩ := Node.exists_stored?_of_face_key hk
  exact ⟨k, i, slot, v, ⟨hd.reachable, hv⟩, hd⟩

theorem Exact.exists_holdsAtDepth_iff : (∃ k d, tree.HoldsAtDepth k d) ↔ tree.len ≠ 0 := by
  rw [← exact.entries, ← Nat.pos_iff_ne_zero,
    Set.ncard_pos (entries_finite exact.settled.size)]
  constructor
  · rintro ⟨k, d, i, slot, v, h, _⟩
    exact ⟨(i, slot), k, v, h⟩
  · rintro ⟨⟨i, slot⟩, k, v, h⟩
    obtain ⟨d, hd⟩ := h.1.exists_hasDepth
    exact ⟨k, d, i, slot, v, h, hd⟩

/-- The deepest node is the root of an empty tree, or it holds a key. -/
theorem Exact.isGreatest_depth (filled : tree.len ≠ 0) :
    IsGreatest {d | ∃ k, tree.HoldsAtDepth k d} tree.stats.maxDepth := by
  obtain ⟨⟨i, hi⟩, hup⟩ := tree.maxDepth_stats
  constructor
  · by_cases hne : i = root
    · subst hne
      obtain ⟨k, d, h⟩ := exact.exists_holdsAtDepth_iff.2 filled
      obtain ⟨j, slot, v, hslot, hd⟩ := h
      have hle := hup ⟨j, hd⟩
      have hpos := hd.pos
      have hone := hi.depth_unique exact.sound.forest .here
      obtain rfl : d = tree.stats.maxDepth := by omega
      exact ⟨k, j, slot, v, hslot, hd⟩
    · exact exact.holdsAtDepth hi hne
  · rintro d ⟨k, j, slot, v, _, hd⟩
    exact hup ⟨j, hd⟩

theorem Exact.maxDepth_of_empty (h : tree.len = 0) : tree.stats.maxDepth = 1 := by
  obtain ⟨⟨i, hi⟩, _⟩ := tree.maxDepth_stats
  by_cases hne : i = root
  · subst hne
    exact hi.depth_unique exact.sound.forest .here
  · obtain ⟨k, hk⟩ := exact.holdsAtDepth hi hne
    exact absurd h (exact.exists_holdsAtDepth_iff.1 ⟨k, _, hk⟩)

end Exact

end Tree

namespace Operation

variable {tree : Tree w n V} {key : Key n} {bytes : Bytes}

theorem exec_findLocked_quiet (settled : tree.Settled) (levels : Nat) (key : Key n) :
    ∃ d, exec (findLocked (interfere levels) key) (.quiet tree) =
      some (.ok ⟨⟨(tree.target key).1⟩, (tree.target key).2, d⟩,
        (Run.quiet tree).locked (tree.target key).1) := by
  obtain ⟨after, calls, j, d, place, hpass, hfind, path, hend⟩ :=
    exec_findLocked (reacts_interfere levels) (Run.ready_quiet settled) (Nat.zero_le levels) key
  cases hpass.eq_quiet
  have htarget : tree.target key = (j, place) := Tree.target_eq path hend
  rw [htarget]
  exact ⟨d, hfind⟩

theorem hangs_put (settled : tree.Settled) (accepted : tree.encode bytes = .ok key) (value : V) :
    ((MapCall.put bytes value .own).hangs tree).toNat = Tree.created (tree.target key).2 := by
  obtain ⟨d, hfind⟩ := exec_findLocked_quiet settled 0 key
  have hsearch : exec (scripted fun react => do findLocked react (← encode bytes)) (.quiet tree) =
      some (.ok ⟨⟨(tree.target key).1⟩, (tree.target key).2, d⟩,
        (Run.quiet tree).locked (tree.target key).1) := by
    rw [exec_scripted]
    exact (exec_bind_ok (exec_encode_ok accepted)).trans hfind
  rw [MapCall.hangs, hsearch]
  cases (tree.target key).2 <;> rfl

theorem hangs_put_refused {fault : Fault} (refused : tree.encode bytes = .error fault) (value : V) :
    (MapCall.put bytes value .own).hangs tree = false := by
  have hsearch : exec (scripted fun react => do findLocked react (← encode bytes)) (.quiet tree) =
      some (.error fault, .quiet tree) := by
    rw [exec_scripted]
    exact exec_bind_error (exec_encode_error refused)
  rw [MapCall.hangs, hsearch]

theorem exec_operation_insert (settled : tree.Settled) (call : MapCall V) :
    ∃ reply after, exec call.operation (.quiet tree) = some (reply, .quiet after) ∧
      (after = tree ∧ call.accepted? tree.keyWidth = none ∧ call.hangs tree = false ∨
        ∃ bytes key value, tree.encode bytes = .ok key ∧ after = tree.insert key value ∧
          call.accepted? tree.keyWidth = some (bytes, value) ∧
          (call.hangs tree).toNat = Tree.created (tree.target key).2) := by
  rcases call with ⟨bytes, value, _ | _⟩ | ⟨bytes, _ | _⟩ | ⟨bytes⟩
  case put.own =>
    by_cases hshort : bytes.length ≤ tree.keyWidth
    · obtain ⟨key, hencode⟩ := Tree.exists_encode settled.width hshort
      exact ⟨_, _, exec_bind_ok (exec_put_quiet settled hencode value),
        .inr ⟨bytes, key, value, hencode, rfl, if_pos hshort, hangs_put settled hencode value⟩⟩
    · have hrefused := Tree.encode_of_long hshort
      exact ⟨_, tree, exec_bind_error (exec_put_refused hrefused value),
        .inl ⟨rfl, if_neg hshort, hangs_put_refused hrefused value⟩⟩
  case put.foreign =>
    exact ⟨_, tree, exec_bind_error (exec_put_foreign _ _ _), .inl ⟨rfl, rfl, rfl⟩⟩
  case get.own =>
    cases hencode : tree.encode bytes with
    | ok key =>
      obtain ⟨after, calls, j, e, place, hpass, hget, _⟩ :=
        exec_lookups _ (Run.ready_quiet settled) hencode
      cases hpass.eq_quiet
      exact ⟨_, tree, exec_bind_ok hget, .inl ⟨rfl, rfl, rfl⟩⟩
    | error fault =>
      exact ⟨_, tree, exec_bind_error (exec_get_refused hencode), .inl ⟨rfl, rfl, rfl⟩⟩
  case get.foreign => exact ⟨_, tree, exec_bind_error (exec_get_foreign _ _), .inl ⟨rfl, rfl, rfl⟩⟩
  case depthOf =>
    cases hencode : tree.encode bytes with
    | ok key =>
      obtain ⟨after, calls, j, e, place, hpass, _, hdepth, _⟩ :=
        exec_lookups _ (Run.ready_quiet settled) hencode
      cases hpass.eq_quiet
      exact ⟨_, tree, exec_bind_ok hdepth, .inl ⟨rfl, rfl, rfl⟩⟩
    | error fault =>
      exact ⟨_, tree, exec_bind_error (exec_depthOf_refused hencode), .inl ⟨rfl, rfl, rfl⟩⟩

theorem exec_depthOf_quiet (exact : tree.Exact) (accepted : tree.encode bytes = .ok key) :
    ∃ depth, exec (depthOf? bytes) (.quiet tree) = some (.ok depth, .quiet tree) ∧
      ∀ d, depth = some d ↔ tree.HoldsAtDepth key d := by
  obtain ⟨after, calls, j, e, place, hpass, _, hdepth, path, hend⟩ :=
    exec_lookups _ (Run.ready_quiet exact.settled) accepted
  cases hpass.eq_quiet
  exact ⟨_, hdepth, fun d => Tree.depth_eq_some_iff exact.sound path hend⟩

theorem exists_exec_depthOf_iff (exact : tree.Exact) (d : Nat) :
    (∃ bytes, exec (depthOf? bytes) (.quiet tree) = some (.ok (some d), .quiet tree)) ↔
      ∃ k, tree.HoldsAtDepth k d := by
  constructor
  · rintro ⟨bytes, h⟩
    cases hencode : tree.encode bytes with
    | ok key =>
      obtain ⟨depth, hdepth, hiff⟩ := exec_depthOf_quiet exact hencode
      have hsome : depth = some d := by simpa using hdepth.symm.trans h
      exact ⟨key, (hiff d).1 hsome⟩
    | error fault => cases h.symm.trans (exec_depthOf_refused hencode)
  · rintro ⟨k, h⟩
    obtain ⟨i, slot, v, hslot, _⟩ := id h
    obtain ⟨bytes, accepted⟩ := exact.encoded k v ⟨i, slot, hslot⟩
    obtain ⟨depth, hdepth, hiff⟩ := exec_depthOf_quiet exact accepted
    exact ⟨bytes, (hiff d).2 h ▸ hdepth⟩

/-- Calls one after the other keep the counters exact. -/
theorem exec_performEach_exact (exact : tree.Exact) (hw : 0 < w) (calls : List (MapCall V)) :
    ∃ replies after, exec (MapCall.performEach calls) (.quiet tree) =
        some (.ok replies, .quiet after) ∧ after.Exact ∧
      after.nodeCount = tree.nodeCount + MapCall.hangings tree calls := by
  induction calls generalizing tree with
  | nil => exact ⟨[], tree, rfl, exact, rfl⟩
  | cons call rest ih =>
    obtain ⟨reply, mid, hcall, heffect⟩ := exec_operation_insert exact.settled call
    have hmid : mid.Exact ∧ mid.nodeCount = tree.nodeCount + (call.hangs tree).toNat := by
      rcases heffect with ⟨rfl, _, hquiet⟩ | ⟨bytes, key, value, accepted, rfl, _, hhangs⟩
      · exact ⟨exact, by rw [hquiet]; rfl⟩
      · exact ⟨exact.insert hw accepted value, by rw [hhangs, Tree.insert, Tree.nodeCount_change]⟩
    obtain ⟨replies, after, hrest, hafter, hcount⟩ := ih hmid.1
    refine ⟨reply :: replies, after, ?_, hafter, ?_⟩
    · rw [MapCall.performEach, exec_bind_ok (exec_outcome hcall), exec_bind_ok hrest]
      rfl
    · rw [hcount, hmid.2, MapCall.hangings, hcall, Nat.add_assoc]
      rfl

/-- The check and the counters agree with every run of calls. The walks count what the counters say,
every put that hangs a node adds one to the root, no other node is empty, and the greatest depth is
that of a key, or that of the root where there is none. -/
theorem counters_are_exact {config : Config} {start : Tree w n V} (hw : 0 < w)
    (built : Tree.ofConfig config = .ok start) (calls : List (MapCall V)) :
    ∃ replies tree,
      exec (MapCall.performEach calls) (.quiet start) = some (.ok replies, .quiet tree) ∧
      tree.check = .ok none ∧
      tree.stats.entries = tree.len ∧
      tree.stats.nodes = tree.nodeCount ∧
      tree.nodeCount = 1 + MapCall.hangings start calls ∧
      (∀ i < tree.nodes.size, i ≠ root → 0 < (tree.node i).occupied) ∧
      (tree.len = 0 → tree.stats.maxDepth = 1) ∧
      (tree.len ≠ 0 → IsGreatest
        {d | ∃ key, exec (depthOf? key) (.quiet tree) = some (.ok (some d), .quiet tree)}
        tree.stats.maxDepth) := by
  obtain ⟨width, hle, rfl⟩ := Tree.eq_empty_of_ofConfig built
  obtain ⟨replies, tree, hcalls, exact, hcount⟩ :=
    exec_performEach_exact (Tree.exact_empty hle) hw calls
  refine ⟨replies, tree, hcalls, Tree.check_eq_none exact.sound,
    (Tree.entries_stats exact.sound).trans exact.entries,
    (Tree.nodes_stats exact.sound).trans exact.nodes, hcount,
    fun i hi hne => exact.occupied_pos hi hne, exact.maxDepth_of_empty, ?_⟩
  intro filled
  simp only [exists_exec_depthOf_iff exact]
  exact exact.isGreatest_depth filled

/-- The second and the fourth key are hung below the first, and two puts are refused. -/
theorem counters_are_exact_two_hung :
    ∃ replies tree,
      exec (MapCall.performEach [.put [98] 1 .own, .put [97] 2 .own, .put [98, 0] 3 .own,
        .put [99] 4 .own, .put [97] 5 .foreign, .put [1, 2, 3] 6 .own])
          (.quiet (Tree.empty 2 : Tree 1 1 Nat)) = some (.ok replies, .quiet tree) ∧
      tree.check = .ok none ∧
      tree.stats.entries = tree.len ∧
      tree.stats.nodes = tree.nodeCount ∧
      tree.nodeCount = 1 + 2 ∧
      (∀ i < tree.nodes.size, i ≠ root → 0 < (tree.node i).occupied) ∧
      (tree.len = 0 → tree.stats.maxDepth = 1) ∧
      (tree.len ≠ 0 → IsGreatest
        {d | ∃ key, exec (depthOf? key) (.quiet tree) = some (.ok (some d), .quiet tree)}
        tree.stats.maxDepth) := by
  have two : MapCall.hangings (Tree.empty 2 : Tree 1 1 Nat) [.put [98] 1 .own, .put [97] 2 .own,
      .put [98, 0] 3 .own, .put [99] 4 .own, .put [97] 5 .foreign, .put [1, 2, 3] 6 .own] = 2 := by
    decide +kernel
  obtain ⟨replies, tree, hcalls, hcheck, hentries, hnodes, hcount, hrest⟩ :=
    counters_are_exact (by decide)
      (show Tree.ofConfig { keyWidth := some 2 } = .ok (Tree.empty 2 : Tree 1 1 Nat) from rfl)
      [.put [98] 1 .own, .put [97] 2 .own, .put [98, 0] 3 .own, .put [99] 4 .own,
        .put [97] 5 .foreign, .put [1, 2, 3] 6 .own]
  rw [two] at hcount
  exact ⟨replies, tree, hcalls, hcheck, hentries, hnodes, hcount, hrest⟩

end Operation

end FanoutIndex

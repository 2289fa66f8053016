import FanoutIndex.Proofs.Scripted.Quiet

namespace FanoutIndex

variable {w n : Nat} {V : Type}

def putsOf (changes : List (Change V)) : List (Bytes × V) :=
  changes.filterMap fun
    | .put key value => some (key, value)
    | .bump _ => none

theorem putsOf_append (a b : List (Change V)) : putsOf (a ++ b) = putsOf a ++ putsOf b :=
  List.filterMap_append

/-- How often a node was counted up by the bumps among some changes. -/
def bumpsOf (changes : List (Change V)) (i : Nat) : Nat :=
  changes.countP fun
    | .put _ _ => false
    | .bump j => j == i

def Operation.putEach (entries : List (Bytes × V)) : Operation w n V Unit :=
  entries.forM fun entry => put entry.1 entry.2 .own

namespace Tree

/-- A tree is another one but for the version words, which are ahead by some changes. -/
structure Ahead (tree plain : Tree w n V) (count : Nat → Nat) : Prop where
  size : tree.nodes.size = plain.nodes.size
  keyWidth : tree.keyWidth = plain.keyWidth
  nodeCount : tree.nodeCount = plain.nodeCount
  len : tree.len = plain.len
  node : ∀ i, tree.node i =
    (plain.node i).setVersion ⟨advanced (plain.node i).version.word (count i)⟩
  fresh : ∀ i, plain.nodes.size ≤ i → count i = 0

variable {tree plain : Tree w n V} {count : Nat → Nat} {key : Key n} {value : V}

theorem Ahead.refl (tree : Tree w n V) : tree.Ahead tree fun _ => 0 := by
  refine ⟨rfl, rfl, rfl, rfl, ?_, fun _ _ => rfl⟩
  intro i
  rw [advanced_zero]
  rfl

theorem Ahead.layout (h : tree.Ahead plain count) : tree.layout = plain.layout := by
  funext i
  rw [Tree.layout, h.node]
  rfl

theorem Ahead.target (h : tree.Ahead plain count) (key : Key n) :
    tree.target key = plain.target key := by
  obtain ⟨d, path, hend⟩ := plain.target_end key
  rw [← h.layout] at path hend
  exact target_eq path hend

theorem bumped_advanced (v : Version) (count : Nat) :
    Version.bumped ⟨advanced v.word count⟩ = ⟨advanced v.bumped.word count⟩ := by
  simp only [Version.bumped, advanced, UInt32.add_assoc]
  rw [UInt32.add_comm Version.counterStep]

theorem Ahead.insert (h : tree.Ahead plain count) (size : 0 < plain.nodes.size) :
    (tree.insert key value).Ahead (plain.insert key value) count := by
  have hi : (plain.target key).1 < plain.nodes.size := target_lt size key
  have hi' : (plain.target key).1 < tree.nodes.size := by rwa [h.size]
  rw [Tree.insert, Tree.insert, h.target]
  have hsize := h.size
  refine ⟨?_, ?_, ?_, ?_, ?_, ?_⟩
  · rw [size_change _ hi', size_change _ hi, h.size]
  · rw [keyWidth_change, keyWidth_change, h.keyWidth]
  · rw [nodeCount_change, nodeCount_change, h.nodeCount]
  · rw [len_change, len_change, h.len]
  · intro j
    have hnode := h.node j
    cases (plain.target key).2 with
    | update slot =>
      rw [node_change_update, node_change_update, h.size]
      split_ifs
      · rw [hnode]
        rfl
      · exact hnode
    | fill slot =>
      rw [node_change_fill, node_change_fill, h.size]
      split_ifs
      · rw [hnode]
        exact congrArg (((plain.node j).assign slot key value).setVersion ·) (bumped_advanced _ _)
      · exact hnode
    | attach link =>
      rw [node_change_attach hi', node_change_attach hi, h.size]
      split_ifs with hj
      · rw [h.fresh j (Nat.le_of_eq hj.symm), advanced_zero]
        rfl
      · rw [hnode]
        exact congrArg (((plain.node j).setLink link plain.nodes.size).setVersion ·)
          (bumped_advanced _ _)
      · exact hnode
  · intro j hj
    rw [size_change _ hi] at hj
    exact h.fresh j (by omega)

theorem Ahead.bump (h : tree.Ahead plain count) {i : Nat} (hi : i < tree.nodes.size) :
    (tree.bump i).Ahead plain fun j => count j + if i = j then 1 else 0 := by
  refine ⟨by rw [size_bump, h.size], h.keyWidth, h.nodeCount, h.len, ?_, ?_⟩
  · intro j
    rw [node_bump, h.node j]
    by_cases hij : i = j
    · subst hij
      simp only [hi, and_self, if_true]
      rw [advanced_succ]
      rfl
    · simp [hij]
  · intro j hj
    have hij : i ≠ j := by
      rw [h.size] at hi
      omega
    simp [h.fresh j hj, hij]

/-- The puts among some changes make the same tree, but for the version words. -/
theorem Evolves.exists_plain {start : Tree w n V} {changes : List (Change V)}
    (h : start.Evolves changes tree) (size : 0 < start.nodes.size) :
    ∃ plain, start.Evolves ((putsOf changes).map fun entry => .put entry.1 entry.2) plain ∧
      tree.Ahead plain (bumpsOf changes) := by
  induction h with
  | refl => exact ⟨start, .refl, .refl start⟩
  | @put changes t bytes key value _ accepted ih =>
    obtain ⟨plain, hplain, hahead⟩ := ih
    have hpos : 0 < plain.nodes.size := (hplain.size size).1.trans_lt' size
    refine ⟨plain.insert key value, ?_, ?_⟩
    · rw [putsOf_append, List.map_append]
      refine .put hplain ?_
      rw [Tree.encode, ← hahead.keyWidth]
      exact accepted
    · have hcount : bumpsOf (changes ++ [Change.put bytes value]) = bumpsOf changes := by
        funext j
        simp [bumpsOf]
      rw [hcount]
      exact hahead.insert hpos
  | @bump changes t i _ known ih =>
    obtain ⟨plain, hplain, hahead⟩ := ih
    refine ⟨plain, ?_, ?_⟩
    · have hputs : putsOf (changes ++ [Change.bump i]) = putsOf changes := by simp [putsOf]
      rwa [hputs]
    · have hcount : bumpsOf (changes ++ [Change.bump i]) =
          fun j => bumpsOf changes j + if i = j then 1 else 0 := by
        funext j
        simp [bumpsOf, List.countP_append, List.countP_singleton]
      rw [hcount]
      exact hahead.bump known

end Tree

namespace Operation

variable {tree : Tree w n V} {key : Key n} {bytes : Bytes}

theorem exec_forM_append {α : Type} (body : α → Operation w n V Unit) (a b : List α)
    {run after : Run w n V} (h : exec (a.forM body) run = some (.ok (), after)) :
    exec ((a ++ b).forM body) run = exec (b.forM body) after := by
  rw [List.forM_eq_forM, List.forM_append, ← List.forM_eq_forM]
  exact exec_bind_ok h

theorem exec_putEach {start : Tree w n V} (settled : start.Settled) {entries : List (Bytes × V)}
    (h : start.Evolves (entries.map fun entry => .put entry.1 entry.2) tree) :
    exec (putEach entries) (.quiet start) = some (.ok (), .quiet tree) := by
  induction entries using List.reverseRecOn generalizing tree with
  | nil =>
    cases h.eq_of_nil
    rfl
  | append_singleton entries entry ih =>
    rw [List.map_append] at h
    generalize hchanges : entries.map (fun entry => Change.put entry.1 entry.2) ++
      [entry].map (fun entry => Change.put entry.1 entry.2) = changes at h
    cases h with
    | refl => simp at hchanges
    | bump _ _ => simp at hchanges
    | @put changes mid bytes key value before accepted =>
      obtain ⟨rfl, hlast⟩ := List.append_inj' hchanges rfl
      simp only [List.map_cons, List.map_nil, List.cons.injEq, Change.put.injEq] at hlast
      obtain ⟨⟨rfl, rfl⟩, _⟩ := hlast
      rw [putEach, exec_forM_append _ entries [entry] (ih before)]
      exact exec_bind_ok (exec_put_quiet (before.settled settled) accepted _)

/-- A put among events leaves the tree that its nested puts, in the order in which they returned,
and the put itself leave when nothing disturbs them; only the version words are ahead, by the
changes that other clients counted. -/
theorem put_replays (built : tree.Built) {script : List (Event V)}
    (admissible : ScriptAdmissible tree.keyWidth script) (few : script.length < 2 ^ 30)
    (short : bytes.length ≤ tree.keyWidth) (value : V) :
    ∃ (after : Run w n V) (calls : Array (Call V)) (plain : Tree w n V),
      exec (put bytes value .own) ⟨tree, script, some #[]⟩ = some (.ok (), after) ∧
      after.trace = some calls ∧
      exec (putEach (putsOf (changesOf calls.toList) ++ [(bytes, value)])) (.quiet tree) =
        some (.ok (), .quiet plain) ∧
      after.tree.Ahead plain (bumpsOf (changesOf calls.toList)) := by
  have settled := built.settled
  obtain ⟨key, accepted⟩ := Tree.exists_encode settled.width short
  obtain ⟨mid, calls, hpass, hput⟩ :=
    exec_put ⟨tree, script, some #[]⟩ ⟨settled, admissible, few⟩ accepted value
  have hevolves : tree.Evolves (changesOf calls ++ [.put bytes value])
      (mid.tree.insert key value) := by
    refine .put hpass.tree ?_
    rw [Tree.encode, hpass.tree.keyWidth]
    exact accepted
  obtain ⟨plain, hplain, hahead⟩ := hevolves.exists_plain settled.size
  have hbumps : bumpsOf (changesOf calls ++ [Change.put bytes value]) =
      bumpsOf (changesOf calls) := by
    funext j
    simp [bumpsOf]
  rw [hbumps] at hahead
  have heach := exec_putEach settled hplain
  rw [putsOf_append] at heach
  obtain ⟨made, hmade, hcalls⟩ := Option.map_eq_some_iff.1 hpass.trace
  obtain rfl : made.toList = calls := by simpa using hcalls
  exact ⟨_, made, plain, hput, hmade, heach, hahead⟩

/-- The nested put fills the root, so the disturbed one starts over and hangs a node before it; the
root is counted up by the bump, the fill and the link. -/
theorem put_replays_nested_put :
    ∃ (after : Run 1 1 Nat) (calls : Array (Call Nat)) (plain : Tree 1 1 Nat),
      exec (put [97] 1 .own) ⟨.empty 8,
        [⟨.hasChanged, 1, .bump⟩, ⟨.tryLock, 1, .put [98] 2⟩, ⟨.hasChangedLocked, 1, .fail⟩],
        some #[]⟩ = some (.ok (), after) ∧
      after.trace = some calls ∧
      exec (putEach (putsOf (changesOf calls.toList) ++ [([97], 1)])) (.quiet (.empty 8)) =
        some (.ok (), .quiet plain) ∧
      after.tree.Ahead plain (bumpsOf (changesOf calls.toList)) ∧
      putsOf (changesOf calls.toList) = [([98], 2)] ∧
      bumpsOf (changesOf calls.toList) root = 1 ∧
      after.tree.len = 2 ∧ after.tree.nodes.size = 2 ∧
      (after.tree.node root).key? 0 = some ⟨#v[0x6200000000000000]⟩ ∧
      (after.tree.node root).values.get 0 = some 2 ∧
      (after.tree.node root).links.get 0 = some 1 ∧
      (after.tree.node root).version.word = 12 ∧
      (after.tree.node 1).key? 0 = some ⟨#v[0x6100000000000000]⟩ ∧
      (after.tree.node 1).values.get 0 = some 1 := by
  have built : (Tree.empty 8 : Tree 1 1 Nat).Built :=
    .empty (show Tree.ofConfig ({} : Config) = .ok (Tree.empty 8) from rfl)
  have admissible : ScriptAdmissible 8 [⟨.hasChanged, 1, .bump⟩, ⟨.tryLock, 1, .put [98] 2⟩,
      ⟨.hasChangedLocked, 1, .fail⟩] := by
    intro event hevent
    simp only [List.mem_cons, List.not_mem_nil, or_false] at hevent
    rcases hevent with rfl | rfl | rfl
    · trivial
    · exact ⟨by decide, by decide⟩
    · trivial
  obtain ⟨after, calls, plain, hput, htrace, heach, hahead⟩ :=
    put_replays built admissible (by decide) (show [97].length ≤ _ by decide) 1
  refine ⟨after, calls, plain, hput, htrace, heach, hahead, ?_⟩
  have left : ∀ outcome ∈ exec (put [97] 1 .own) (⟨.empty 8, [⟨.hasChanged, 1, .bump⟩,
      ⟨.tryLock, 1, .put [98] 2⟩, ⟨.hasChangedLocked, 1, .fail⟩], some #[]⟩ : Run 1 1 Nat),
      (outcome.2.trace.map fun calls => putsOf (changesOf calls.toList)) = some [([98], 2)] ∧
      (outcome.2.trace.map fun calls => bumpsOf (changesOf calls.toList) root) = some 1 ∧
      outcome.2.tree.len = 2 ∧ outcome.2.tree.nodes.size = 2 ∧
      (outcome.2.tree.node root).key? 0 = some ⟨#v[0x6200000000000000]⟩ ∧
      (outcome.2.tree.node root).values.get 0 = some 2 ∧
      (outcome.2.tree.node root).links.get 0 = some 1 ∧
      (outcome.2.tree.node root).version.word = 12 ∧
      (outcome.2.tree.node 1).key? 0 = some ⟨#v[0x6100000000000000]⟩ ∧
      (outcome.2.tree.node 1).values.get 0 = some 1 := by
    decide +kernel
  simpa only [htrace, Option.map_some, Option.some.injEq] using left _ hput

end Operation

end FanoutIndex

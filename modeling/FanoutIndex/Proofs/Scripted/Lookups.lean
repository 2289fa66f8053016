import FanoutIndex.Proofs.Layout.Depth
import FanoutIndex.Proofs.Scripted.Replay

namespace FanoutIndex

variable {w n : Nat} {V : Type}

namespace Operation

variable {tree : Tree w n V} {key : Key n} {bytes : Bytes}

/-- A look-up and a question for the depth return, both with the answer of the tree as it is then.
That is the tree that the nested puts leave when nothing disturbs them; only the version words are
ahead, by the changes that other clients counted. -/
theorem lookups_are_final (built : tree.Built) {script : List (Event V)}
    (admissible : ScriptAdmissible tree.keyWidth script) (few : script.length < 2 ^ 30)
    (accepted : tree.encode bytes = .ok key) :
    ∃ (after : Run w n V) (calls : Array (Call V)) (plain : Tree w n V) (value : Option V)
      (depth : Option Nat),
      exec (get? bytes .own) ⟨tree, script, some #[]⟩ = some (.ok value, after) ∧
      exec (depthOf? bytes) ⟨tree, script, some #[]⟩ = some (.ok depth, after) ∧
      (∀ v, value = some v ↔ after.tree.Holds key v) ∧
      (∀ d, depth = some d ↔ after.tree.HoldsAtDepth key d) ∧
      after.trace = some calls ∧
      exec (putEach (putsOf (changesOf calls.toList))) (.quiet tree) =
        some (.ok (), .quiet plain) ∧
      after.tree.Ahead plain (bumpsOf (changesOf calls.toList)) := by
  have settled := built.settled
  obtain ⟨after, calls, j, e, place, hpass, hget, hdepth, path, hend⟩ :=
    exec_lookups ⟨tree, script, some #[]⟩ ⟨settled, admissible, few⟩ accepted
  have sound : after.tree.layout.Sound := hpass.tree.sound settled.size built.sound
  obtain ⟨plain, hplain, hahead⟩ := hpass.tree.exists_plain settled.size
  obtain ⟨made, hmade, hcalls⟩ := Option.map_eq_some_iff.1 hpass.trace
  obtain rfl : made.toList = calls := by simpa using hcalls
  exact ⟨after, made, plain, _, _, hget, hdepth,
    fun v => Tree.valueOf_eq_some_iff sound path hend,
    fun d => Tree.depth_eq_some_iff sound path hend, hmade, exec_putEach settled hplain, hahead⟩

/-- While the root is scanned, another client puts its first key, a change is counted, and the key
in question is hung below it. -/
theorem lookups_are_final_nested_puts :
    ∃ (after : Run 1 1 Nat) (calls : Array (Call Nat)) (plain : Tree 1 1 Nat) (value : Option Nat)
      (depth : Option Nat),
      exec (get? [98] .own) ⟨.empty 8, [⟨.stable, 1, .put [97] 1⟩, ⟨.hasChanged, 3, .bump⟩,
        ⟨.hasChanged, 4, .put [98] 2⟩, ⟨.hasChanged, 8, .fail⟩], some #[]⟩ =
          some (.ok value, after) ∧
      exec (depthOf? [98]) ⟨.empty 8, [⟨.stable, 1, .put [97] 1⟩, ⟨.hasChanged, 3, .bump⟩,
        ⟨.hasChanged, 4, .put [98] 2⟩, ⟨.hasChanged, 8, .fail⟩], some #[]⟩ =
          some (.ok depth, after) ∧
      (∀ v, value = some v ↔ after.tree.Holds ⟨#v[0x6200000000000000]⟩ v) ∧
      (∀ d, depth = some d ↔ after.tree.HoldsAtDepth ⟨#v[0x6200000000000000]⟩ d) ∧
      after.trace = some calls ∧
      exec (putEach (putsOf (changesOf calls.toList))) (.quiet (.empty 8)) =
        some (.ok (), .quiet plain) ∧
      after.tree.Ahead plain (bumpsOf (changesOf calls.toList)) := by
  have built : (Tree.empty 8 : Tree 1 1 Nat).Built :=
    .empty (show Tree.ofConfig ({} : Config) = .ok (Tree.empty 8) from rfl)
  refine lookups_are_final built ?_ (by decide) rfl
  intro event hevent
  simp only [List.mem_cons, List.not_mem_nil, or_false] at hevent
  rcases hevent with rfl | rfl | rfl | rfl
  · exact ⟨by decide, by decide⟩
  · trivial
  · exact ⟨by decide, by decide⟩
  · trivial

end Operation

end FanoutIndex

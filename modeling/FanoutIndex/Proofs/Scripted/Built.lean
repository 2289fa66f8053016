import FanoutIndex.Proofs.Scripted.Puts

namespace FanoutIndex

variable {w n : Nat} {V : Type}

namespace Operation

open Run

variable {run after : Run w n V} {bytes : Bytes} {value : V} {guard : GuardOrigin}

theorem exec_put_foreign (run : Run w n V) (bytes : Bytes) (value : V) :
    exec (put bytes value .foreign) run = some (.error .foreignGuard, run) := rfl

theorem exec_put_refused {fault : Fault} (refused : run.tree.encode bytes = .error fault)
    (value : V) : exec (put bytes value .own) run = some (.error fault, run) := by
  rw [put, exec_scripted, putWith, checkGuard,
    exec_bind_ok (exec_pure run ())]
  exact exec_bind_error (exec_encode_error refused)

/-- Whatever comes of a put, the tree evolved. -/
theorem evolves_of_exec_put (ready : run.Ready) {result : Except Fault Unit}
    (h : exec (put bytes value guard) run = some (result, after)) :
    ∃ changes, run.tree.Evolves changes after.tree := by
  cases guard with
  | foreign =>
    cases h
    exact ⟨[], .refl⟩
  | own =>
    cases hencode : run.tree.encode bytes with
    | error fault =>
      rw [exec_put_refused hencode] at h
      cases h
      exact ⟨[], .refl⟩
    | ok key =>
      obtain ⟨mid, calls, hpass, hput⟩ := exec_put run ready hencode value
      rw [hput] at h
      cases h
      have accepted : mid.tree.encode bytes = .ok key := by
        rw [Tree.encode, hpass.tree.keyWidth]
        exact hencode
      exact ⟨_, .put hpass.tree accepted⟩

end Operation

namespace Layout

theorem Sound.bare : Sound (fun _ => Face.bare w n) := by
  constructor
  case ordered =>
    intro i s t k _ h
    cases h
  case placed =>
    intro i l c h
    cases h
  case forward =>
    intro i l c h
    cases h
  case oneParent =>
    intro i j l m c h
    cases h
  case routed =>
    intro i s k _ h
    cases h

end Layout

namespace Tree

theorem node_empty (width i : Nat) : (empty width : Tree w n V).node i = .empty := by
  rw [node, Array.getD]
  split
  · next h =>
    obtain rfl : i = 0 := by simpa [empty] using h
    rfl
  · rfl

theorem layout_empty (width : Nat) :
    (empty width : Tree w n V).layout = fun _ => Face.bare w n := by
  funext i
  rw [layout, node_empty, Node.face_empty]

theorem reached_empty (width : Nat) : (empty width : Tree w n V).reached = {root} := by
  ext i
  rw [reached, layout_empty]
  constructor
  · intro h
    cases h with
    | root => rfl
    | step _ down => cases down
  · rintro rfl
    exact .root

theorem entries_empty (width : Nat) : (empty width : Tree w n V).entries = ∅ := by
  apply Set.eq_empty_of_forall_notMem
  rintro ⟨i, slot⟩ ⟨key, value, h⟩
  have hkey := h.face_key
  rw [layout_empty] at hkey
  cases hkey

theorem not_holds_empty {width : Nat} {key : Key n} {value : V} :
    ¬(empty width : Tree w n V).Holds key value := by
  rintro ⟨i, slot, h⟩
  have hmem : (i, slot) ∈ (empty width : Tree w n V).entries := ⟨key, value, h⟩
  rw [entries_empty] at hmem
  cases hmem

/-- The trees that puts build from an empty one, whatever events they meet. -/
inductive Built : Tree w n V → Prop
  | empty {config : Config} {tree : Tree w n V} (h : ofConfig config = .ok tree) : Built tree
  | put {run after : Run w n V} {bytes : Bytes} {value : V} {guard : GuardOrigin}
      {result : Except Fault Unit} (before : Built run.tree)
      (admissible : ScriptAdmissible run.tree.keyWidth run.script)
      (few : run.script.length < 2 ^ 30)
      (h : (Operation.put bytes value guard).exec run = some (result, after)) : Built after.tree

variable {tree : Tree w n V} {config : Config}

theorem ofConfig_eq_ok_iff : ofConfig config = .ok tree ↔
    ∃ width, config.resolveKeyWidth (Key.capacity n) = .ok width ∧ tree = empty width := by
  rw [ofConfig]
  cases config.resolveKeyWidth (Key.capacity n) with
  | error cause => simp [Except.map]
  | ok width => simp [Except.map, eq_comm]

theorem eq_empty_of_ofConfig (h : ofConfig config = .ok tree) :
    ∃ width ≤ Key.capacity n, tree = empty width := by
  obtain ⟨width, hwidth, hempty⟩ := ofConfig_eq_ok_iff.1 h
  exact ⟨width, Config.resolveKeyWidth_le hwidth, hempty⟩

theorem settled_empty {width : Nat} (h : width ≤ Key.capacity n) :
    (empty width : Tree w n V).Settled where
  size := Nat.zero_lt_one
  rest := by
    intro i
    rw [node_empty]
    exact Version.isBusy_new
  width := h

theorem Built.settled (h : tree.Built) : tree.Settled := by
  induction h with
  | empty h =>
    obtain ⟨width, hle, rfl⟩ := eq_empty_of_ofConfig h
    exact settled_empty hle
  | put _ admissible few h ih =>
    obtain ⟨changes, hevolves⟩ := Operation.evolves_of_exec_put ⟨ih, admissible, few⟩ h
    exact hevolves.settled ih

theorem Built.sound (h : tree.Built) : tree.layout.Sound := by
  induction h with
  | empty h =>
    obtain ⟨width, _, rfl⟩ := eq_empty_of_ofConfig h
    rw [layout_empty]
    exact Layout.Sound.bare
  | put before admissible few h ih =>
    obtain ⟨changes, hevolves⟩ :=
      Operation.evolves_of_exec_put ⟨before.settled, admissible, few⟩ h
    exact hevolves.sound before.settled.size ih

end Tree

end FanoutIndex

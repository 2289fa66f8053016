import FanoutIndex.Proofs.Scripted.Built

namespace FanoutIndex

variable {w n : Nat} {V : Type}

namespace Run

variable {tree : Tree w n V} {after : Run w n V} {calls : List (Call V)}

theorem ready_quiet (settled : tree.Settled) : Ready (.quiet tree) :=
  ⟨settled, fun _ h => absurd h List.not_mem_nil, by simp [quiet]⟩

/-- Where nobody disturbs, nothing changes but what the operation itself does. -/
theorem Passes.eq_quiet (h : (quiet tree).Passes after calls) : after = quiet tree := by
  have hcost := h.cost
  simp only [quiet, List.length_nil, Nat.le_zero, Nat.add_eq_zero_iff,
    List.length_eq_zero_iff] at hcost
  have htree := h.tree
  rw [hcost.1] at htree
  have htrace := h.trace
  simp only [quiet, Option.map_none, Option.map_eq_none_iff] at htrace
  obtain ⟨t, script, trace⟩ := after
  cases htree.eq_of_nil
  simp only at hcost htrace
  rw [hcost.2, htrace]
  rfl

end Run

namespace Operation

variable {tree : Tree w n V} {key : Key n} {bytes : Bytes}

theorem exec_put_quiet (settled : tree.Settled) (accepted : tree.encode bytes = .ok key)
    (value : V) :
    exec (put bytes value .own) (.quiet tree) = some (.ok (), .quiet (tree.insert key value)) := by
  obtain ⟨after, calls, hpass, hput⟩ := exec_put _ (Run.ready_quiet settled) accepted value
  rw [hput, hpass.eq_quiet]
  rfl

theorem exec_lookups_quiet (settled : tree.Settled) (sound : tree.layout.Sound)
    (accepted : tree.encode bytes = .ok key) :
    ∃ value depth, (∀ v, value = some v ↔ tree.Holds key v) ∧
      exec (get? bytes .own) (.quiet tree) = some (.ok value, .quiet tree) ∧
      exec (depthOf? bytes) (.quiet tree) = some (.ok (value.map fun _ => depth), .quiet tree) := by
  obtain ⟨after, calls, j, e, place, hpass, hget, hdepth, path, hend⟩ :=
    exec_lookups _ (Run.ready_quiet settled) accepted
  cases hpass.eq_quiet
  exact ⟨_, e, fun v => Tree.valueOf_eq_some_iff sound path hend, hget, hdepth⟩

theorem exec_get_foreign (run : Run w n V) (bytes : Bytes) :
    exec (get? bytes .foreign) run = some (.error .foreignGuard, run) := rfl

theorem exec_get_refused {run : Run w n V} {fault : Fault}
    (refused : run.tree.encode bytes = .error fault) :
    exec (get? bytes .own) run = some (.error fault, run) := by
  rw [get?, exec_scripted, getWith, checkGuard,
    exec_bind_ok (exec_pure _ ())]
  exact exec_bind_error (exec_encode_error refused)

theorem exec_depthOf_refused {run : Run w n V} {fault : Fault}
    (refused : run.tree.encode bytes = .error fault) :
    exec (depthOf? bytes) run = some (.error fault, run) := by
  rw [depthOf?, exec_scripted, depthOfWith]
  exact exec_bind_error (exec_encode_error refused)

end Operation

end FanoutIndex

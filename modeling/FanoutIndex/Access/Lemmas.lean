import FanoutIndex.Access.Run

namespace FanoutIndex

namespace Operation

variable {w n : Nat} {V α β : Type} (run : Run w n V)

@[simp]
theorem exec_pure (a : α) : exec (pure a : Operation w n V α) run = some (.ok a, run) := rfl

theorem exec_bind (body : Operation w n V α) (next : α → Operation w n V β) :
    exec (body >>= next) run =
      match body.exec run with
      | none => none
      | some (.ok a, run) => (next a).exec run
      | some (.error fault, run) => some (.error fault, run) := by
  change (body.exec run).bind _ = _
  cases h : body.exec run with
  | none => rfl
  | some result =>
    obtain ⟨value, run⟩ := result
    cases value <;> rfl

theorem exec_bind_ok {body : Operation w n V α} {next : α → Operation w n V β} {a : α}
    {run run' : Run w n V} (h : body.exec run = some (.ok a, run')) :
    exec (body >>= next) run = (next a).exec run' := by
  rw [exec_bind, h]

theorem exec_bind_error {body : Operation w n V α} {next : α → Operation w n V β} {fault : Fault}
    {run run' : Run w n V} (h : body.exec run = some (.error fault, run')) :
    exec (body >>= next) run = some (.error fault, run') := by
  rw [exec_bind, h]

theorem exec_bind_none {body : Operation w n V α} {next : α → Operation w n V β}
    {run : Run w n V} (h : body.exec run = none) : exec (body >>= next) run = none := by
  rw [exec_bind, h]

theorem exec_bind_eq_ok {body : Operation w n V α} {next : α → Operation w n V β} {b : β}
    {run after : Run w n V} (h : exec (body >>= next) run = some (.ok b, after)) :
    ∃ a mid, body.exec run = some (.ok a, mid) ∧ (next a).exec mid = some (.ok b, after) := by
  rw [exec_bind] at h
  split at h
  · cases h
  · next a mid hbody => exact ⟨a, mid, hbody, h⟩
  · cases h

@[simp]
theorem exec_ofExcept (result : Except Fault α) :
    exec (ofExcept result : Operation w n V α) run = some (result, run) := rfl

theorem exec_outcome {body : Operation w n V α} {result : Except Fault α}
    {run run' : Run w n V} (h : body.exec run = some (result, run')) :
    exec (outcome body) run = some (.ok result, run') := by
  change (body.exec run).map _ = _
  rw [h]
  rfl

theorem exec_ofExcept_eq_ok {result : Except Fault α} {a : α} {run after : Run w n V}
    (h : exec (ofExcept result) run = some (.ok a, after)) : result = .ok a ∧ run = after := by
  rw [exec_ofExcept] at h
  cases h
  exact ⟨rfl, rfl⟩

theorem exec_outcome_eq_ok {body : Operation w n V α} {result : Except Fault α}
    {run after : Run w n V} (h : exec (outcome body) run = some (.ok result, after)) :
    exec body run = some (result, after) := by
  change (exec body run).map _ = _ at h
  obtain ⟨⟨result', mid⟩, hbody, h⟩ := Option.map_eq_some_iff.1 h
  cases h
  exact hbody

theorem exec_liftM {body : StateT (Run w n V) Option α} {a : α} {run after : Run w n V}
    (h : body.run run = some (a, after)) :
    exec (liftM body : Operation w n V α) run = some (.ok a, after) := by
  change (body.run run).bind _ = _
  rw [h]
  rfl

theorem exec_liftM_none {body : StateT (Run w n V) Option α} {run : Run w n V}
    (h : body.run run = none) : exec (liftM body : Operation w n V α) run = none := by
  change (body.run run).bind _ = _
  rw [h]
  rfl

@[simp]
theorem exec_eventsLeft :
    exec (eventsLeft : Operation w n V Nat) run = some (.ok run.script.length, run) := rfl

@[simp]
theorem exec_tree : exec (tree : Operation w n V (Tree w n V)) run = some (.ok run.tree, run) := rfl

@[simp]
theorem exec_node (i : Nat) :
    exec (node i : Operation w n V (Node w n V)) run = some (.ok (run.tree.node i), run) := rfl

@[simp]
theorem exec_version (i : Nat) :
    exec (version i : Operation w n V Version) run = some (.ok (run.tree.node i).version, run) :=
  rfl

@[simp]
theorem exec_changeTree (change : Tree w n V → Tree w n V) :
    exec (changeTree change) run = some (.ok (), { run with tree := change run.tree }) := rfl

@[simp]
theorem exec_setVersion (i : Nat) (version : Version) :
    exec (setVersion i version) run =
      some (.ok (), { run with tree := run.tree.setVersion i version }) := rfl

@[simp]
theorem exec_note (call : Call V) :
    exec (note call) run = some (.ok (), { run with trace := run.trace.map (·.push call) }) := rfl

@[simp]
theorem exec_takeDue (site : Site) :
    exec (takeDue site) run = some (.ok (Event.dueAt site run.script),
      { run with script := Event.afterCallOf site run.script }) := rfl

@[simp]
theorem exec_create (node : Node w n V) (bare : ∀ link : Fin (w + 1), node.links.get link = none) :
    exec (create node bare) run =
      some (.ok run.tree.nodes.size, { run with tree := run.tree.addNode node bare }) := rfl

/-- Without events a call is answered by the version alone. -/
theorem exec_disturbed_of_script_nil (react : Reaction w n V) (site : Site) (i : Nat)
    (h : run.script = []) : exec (disturbed react site i) run = some (.ok false, run) := by
  obtain ⟨tree, script, trace⟩ := run
  subst h
  rfl

end Operation

end FanoutIndex

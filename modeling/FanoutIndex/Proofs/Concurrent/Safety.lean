import FanoutIndex.Proofs.Concurrent.Runs
import FanoutIndex.Proofs.Layout.Bounds

namespace FanoutIndex

variable {w n : Nat} {V : Type}

namespace System

variable {before after system : System w n V} {c : Nat}

theorem Ok.grows_moves (wide : w < 2 ^ 29) (ok : before.Ok) (h : before.Moves c after) :
    before.tree.layout.Grows after.tree.layout := by
  cases h with
  | rest => exact .refl _
  | take _ _ _ tree =>
    rw [tree]
    exact .refl _
  | @access _ client request stage here task tree =>
    have holds := ok.holds ((task?_of_client here).trans task)
    rw [tree]
    exact (Stage.keeps_step ok.wellformed wide holds).steps.grows

theorem Ok.grows_run (wide : w < 2 ^ 29) (ok : system.Ok) (schedule : List Nat) :
    system.tree.layout.Grows (system.run schedule).tree.layout := by
  induction schedule generalizing system with
  | nil => exact .refl _
  | cons c schedule ih =>
    rw [run_cons]
    exact (ok.grows_moves wide (system.step_moves c)).trans (ih (ok.step wide c))

/-- The layout is safe in every state of every run. The nodes in use are tidy within the bounds that
the links above them imply, nothing that was laid out is ever changed, no client sees a contract
broken, and a client at a stage that is under a lock holds the lock of its node alone. -/
theorem run_safe (wide : w < 2 ^ 29) (width : Nat) (requests : List (List (Request n V)))
    (schedule : List Nat) :
    let system := (ofRequests (Tree.empty width : Tree w n V) requests).run schedule
    (∀ i, system.tree.layout.Reachable i → ∃ bounds, system.tree.layout.Within i bounds) ∧
    (∀ i bounds, system.tree.layout.Within i bounds → system.tree.layout.Tidy i bounds) ∧
    (∀ later, system.tree.layout.Grows (system.run later).tree.layout) ∧
    (∀ (c : Nat) client, system.clients[c]? = some client → client.broken = none) ∧
    ∀ c request stage, system.task? c = some (request, stage) → stage.isHolding = true →
      (system.tree.node stage.node).version.isLocked = true ∧
        ∀ d other theirs, c ≠ d → system.task? d = some (other, theirs) →
          theirs.isHolding = true → stage.node ≠ theirs.node := by
  intro system
  have ok : system.Ok := (ok_ofRequests width requests).run wide schedule
  refine ⟨fun i h => h.exists_within, fun i bounds h => ok.wellformed.sound.tidy h, ?_, ?_, ?_⟩
  · exact ok.grows_run wide
  · exact fun c client h => ok.unbroken h
  · intro c request stage task holding
    refine ⟨(ok.holds task).sees.isLocked holding, ?_⟩
    intro d other theirs hne htheirs held
    exact (ok.apart hne task htheirs).locks holding held

/-- In the middle of a put: the words of its key are written, its value is not. -/
theorem run_safe_race :
    let system := (ofRequests (Tree.empty 8 : Tree 1 1 Nat)
      [[.put ⟨#v[5]⟩ 1], [.put ⟨#v[5]⟩ 2, .get ⟨#v[7]⟩]]).run ((List.range 21).map (· % 2))
    system.task? 0 = some (.put ⟨#v[5]⟩ 1, .swapValue 0 0 true 1) ∧
    (∀ i, system.tree.layout.Reachable i → ∃ bounds, system.tree.layout.Within i bounds) ∧
    (∀ i bounds, system.tree.layout.Within i bounds → system.tree.layout.Tidy i bounds) ∧
    (∀ later, system.tree.layout.Grows (system.run later).tree.layout) ∧
    (∀ (c : Nat) client, system.clients[c]? = some client → client.broken = none) ∧
    ∀ c request stage, system.task? c = some (request, stage) → stage.isHolding = true →
      (system.tree.node stage.node).version.isLocked = true ∧
        ∀ d other theirs, c ≠ d → system.task? d = some (other, theirs) →
          theirs.isHolding = true → stage.node ≠ theirs.node :=
  ⟨rfl, run_safe (by decide) 8 _ _⟩

end System

end FanoutIndex

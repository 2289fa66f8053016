import FanoutIndex.Proofs.Concurrent.Runs
import FanoutIndex.Proofs.Scripted.Evolution

/-!
# Owners of locks

A version that is locked or marked belongs to a client, who gives the lock back before its request is
over. So when nobody is at work, all versions are at rest.
-/

namespace FanoutIndex

variable {w n : Nat} {V : Type}

namespace Stage

def Owns (stage : Stage w n V) (i : Nat) : Prop := stage.isHolding = true ∧ stage.node = i

end Stage

def Progress.Owns (i : Nat) : Progress w n V → Prop
  | .next stage => stage.Owns i
  | _ => False

namespace Stage

/-- A version that is busy after an access is that of a lock of the client, or it was busy before
and not for the client. -/
def Tends (tree : Tree w n V) (stage : Stage w n V) (result : Progress w n V × Tree w n V) : Prop :=
  ∀ j, (result.2.node j).version.isBusy = true →
    result.1.Owns j ∨ (tree.node j).version.isBusy = true ∧ ¬stage.Owns j

variable {tree after : Tree w n V} {request : Request n V} {stage : Stage w n V}
  {progress : Progress w n V}

theorem tends_of_free (free : stage.isHolding = false) : stage.Tends tree (progress, tree) := by
  intro j busy
  refine .inr ⟨busy, fun owns => ?_⟩
  rw [owns.1] at free
  cases free

theorem tends_of_agreesOff (same : tree.AgreesOff after stage.node)
    (mine : progress.Owns stage.node ∨ (after.node stage.node).version.isBusy = false) :
    stage.Tends tree (progress, after) := by
  intro j busy
  change (after.node j).version.isBusy = true at busy
  by_cases hj : j = stage.node
  · subst hj
    rcases mine with owns | rest
    · exact .inl owns
    · rw [rest] at busy
      cases busy
  · rw [same.frame j hj] at busy
    exact .inr ⟨busy, fun owns => hj owns.2.symm⟩

theorem tends_of_owns (owns : progress.Owns stage.node) : stage.Tends tree (progress, tree) :=
  tends_of_agreesOff ⟨rfl, fun _ _ => rfl⟩ (.inl owns)

theorem owns_writeWord {i : Nat} {slot : Fin w} {isNew : Bool} {value : V} {index : Nat} :
    (writeWord i slot isNew value index : Stage w n V).Owns i := by
  rw [writeWord]
  split <;> exact ⟨rfl, rfl⟩

theorem tends_storeUnlocked {i : Nat} {unlocked : Version} (hi : i < tree.nodes.size)
    (node : stage.node = i) (h : (tree.node i).version.unlock = .ok unlocked) :
    stage.Tends tree (progress, tree.setVersion i unlocked) := by
  subst node
  refine tends_of_agreesOff Tree.agreesOff_setVersion (.inr ?_)
  rw [Tree.node_setVersion_self hi, Version.released_eq_of_unlock h]
  exact Version.isBusy_released _

theorem tends_withVersion {version : Except Fault Version} {next : Version → Stage w n V}
    (owns : ∀ v, (next v).Owns stage.node) (fine : ∃ v, version = .ok v) :
    stage.Tends tree (withVersion version next, tree) := by
  obtain ⟨v, rfl⟩ := fine
  exact tends_of_owns (owns v)

theorem tends_change {i : Nat} {token : Token} {place : Place w} :
    (confirm i token place).Tends tree (change i place request tree) := by
  cases request with
  | get key => exact tends_of_owns ⟨rfl, rfl⟩
  | put key value =>
    cases place with
    | update slot => exact tends_of_owns owns_writeWord
    | fill slot => exact tends_of_owns ⟨rfl, rfl⟩
    | attach link =>
      intro j busy
      by_cases hj : j = i
      · exact .inl ⟨rfl, hj.symm⟩
      · refine .inr ⟨?_, fun owns => hj owns.2.symm⟩
        rw [change, Tree.node_addNode] at busy
        split_ifs at busy
        · rw [Tree.version_ofEntry] at busy
          cases busy
        · exact busy

/-- No access leaves a lock without an owner. -/
theorem tends_step (size : 0 < tree.nodes.size) (h : stage.Holds tree request) :
    stage.Tends tree (stage.step request tree) := by
  have hlt := h.lt_size size
  have locked := h.sees.isLocked
  cases stage with
  | takeToken | readSlot | recheck | readVersion | validate =>
    rw [step]
    split <;> exact tends_of_free rfl
  | readWord =>
    rw [step]
    split <;> exact tends_of_free rfl
  | readLink | readValue => exact tends_of_free rfl
  | swapVersion =>
    rw [step]
    split
    · exact tends_of_agreesOff Tree.agreesOff_setVersion (.inl ⟨rfl, rfl⟩)
    · exact tends_of_free rfl
  | confirm =>
    rw [step]
    split
    · exact tends_of_owns ⟨rfl, rfl⟩
    · exact tends_change
  | readRetreat | readUnlock =>
    exact tends_withVersion (fun _ => ⟨rfl, rfl⟩) ⟨_, Version.unlock_of_isLocked (locked rfl)⟩
  | readMarkFill | readMarkAttach =>
    exact tends_withVersion (fun _ => ⟨rfl, rfl⟩) ⟨_, Version.markInsert_of_isLocked (locked rfl)⟩
  | storeRetreat => exact tends_storeUnlocked hlt rfl h.sees.2
  | storeUnlock => exact tends_storeUnlocked hlt rfl h.sees.2.2
  | storeMarkFill =>
    refine tends_of_agreesOff Tree.agreesOff_setVersion (.inl ?_)
    cases request with
    | get key => exact ⟨rfl, rfl⟩
    | put key value => exact owns_writeWord
  | storeMarkAttach => exact tends_of_agreesOff Tree.agreesOff_setVersion (.inl ⟨rfl, rfl⟩)
  | storeWord => exact tends_of_agreesOff Tree.agreesOff_setWord (.inl owns_writeWord)
  | swapValue i slot isNew =>
    refine tends_of_agreesOff (Tree.agreesOff_modifyNode _) (.inl ?_)
    cases isNew <;> exact ⟨rfl, rfl⟩
  | readChild i link =>
    have hempty : (tree.node i).links.get link = none := h.sees.2.2
    rw [step, hempty]
    exact tends_of_owns ⟨rfl, rfl⟩
  | storeChild i link child =>
    obtain ⟨younger, _, _, spare⟩ := h.child child rfl
    exact tends_of_agreesOff (Tree.agreesOff_setLink ⟨younger, spare.known⟩) (.inl ⟨rfl, rfl⟩)
  | countNode | countEntry => exact tends_of_agreesOff ⟨rfl, fun _ _ => rfl⟩ (.inl ⟨rfl, rfl⟩)

end Stage

namespace System

variable {system before after : System w n V} {c : Nat}

/-- Every busy version is that of a lock that a client holds. -/
def Tended (system : System w n V) : Prop :=
  ∀ i, (system.tree.node i).version.isBusy = true →
    ∃ c request stage, system.task? c = some (request, stage) ∧ stage.Owns i

theorem Tended.moves (ok : before.Ok) (tended : before.Tended) (h : before.Moves c after) :
    after.Tended := by
  intro i busy
  cases h with
  | rest => exact tended i busy
  | @take _ client request todo here idle next tree clients =>
    rw [tree] at busy
    obtain ⟨d, request, stage, hd, owns⟩ := tended i busy
    have hdc : d ≠ c := by
      rintro rfl
      cases (task?_of_client here ▸ hd).symm.trans idle
    exact ⟨d, request, stage, (task?_of_ne ((clients d).trans (if_neg hdc))).trans hd, owns⟩
  | @access _ client request stage here task tree clients =>
    have mine : before.task? c = some (request, stage) := (task?_of_client here).trans task
    rw [tree] at busy
    rcases Stage.tends_step ok.wellformed.size (ok.holds mine) i busy with hmine | ⟨hbusy, hnot⟩
    · cases hprogress : (stage.step request before.tree).1 with
      | next following =>
        rw [hprogress] at hmine clients
        exact ⟨c, request, following, task?_of_client ((clients c).trans (if_pos rfl)), hmine⟩
      | ended reply =>
        rw [hprogress] at hmine
        cases hmine
      | broken cause =>
        rw [hprogress] at hmine
        cases hmine
    · obtain ⟨d, other, theirs, hd, owns⟩ := tended i hbusy
      have hdc : d ≠ c := by
        rintro rfl
        cases mine.symm.trans hd
        exact hnot owns
      exact ⟨d, other, theirs, (task?_of_ne ((clients d).trans (if_neg hdc))).trans hd, owns⟩

theorem keyWidth_moves (h : before.Moves c after) : after.tree.keyWidth = before.tree.keyWidth := by
  cases h with
  | rest => rfl
  | take _ _ _ tree => rw [tree]
  | access _ _ tree =>
    rw [tree]
    exact Stage.keyWidth_step

theorem tended_of_atRest (rest : system.tree.AtRest) : system.Tended := by
  intro i busy
  rw [rest i] at busy
  cases busy

theorem Tended.run (wide : w < 2 ^ 29) (ok : system.Ok) (tended : system.Tended)
    (schedule : List Nat) : (system.run schedule).Tended := by
  induction schedule generalizing system with
  | nil => exact tended
  | cons c schedule ih =>
    rw [run_cons]
    exact ih (ok.step wide c) (tended.moves ok (step_moves system c))

theorem keyWidth_run (system : System w n V) (schedule : List Nat) :
    (system.run schedule).tree.keyWidth = system.tree.keyWidth := by
  induction schedule generalizing system with
  | nil => rfl
  | cons c schedule ih =>
    rw [run_cons, ih]
    exact keyWidth_moves (step_moves system c)

/-- When nobody is at work, no version is busy. -/
theorem Tended.atRest (tended : system.Tended) (idle : ∀ c, system.task? c = none) :
    system.tree.AtRest := by
  intro i
  rw [Bool.eq_false_iff]
  intro busy
  obtain ⟨c, request, stage, hc, _⟩ := tended i busy
  cases (idle c).symm.trans hc

/-- Clients that were let work on a settled index leave it settled. -/
theorem settled_run (wide : w < 2 ^ 29) (ok : system.Ok) (settled : system.tree.Settled)
    {schedule : List Nat} (idle : ∀ c, (system.run schedule).task? c = none) :
    (system.run schedule).tree.Settled where
  size := (ok.run wide schedule).wellformed.size
  rest := ((tended_of_atRest settled.rest).run wide ok schedule).atRest idle
  width := (keyWidth_run system schedule).trans_le settled.width

end System

end FanoutIndex

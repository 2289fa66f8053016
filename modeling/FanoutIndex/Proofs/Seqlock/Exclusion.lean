import FanoutIndex.Proofs.Version.Token
import FanoutIndex.Seqlock.Basic

/-!
# Exclusion

Marking and unlocking are a load and a store each, so they are right only while nobody else changes
the version in between. Nobody does: an exchange succeeds only where the version is at rest, and
then nobody is between its lock and its unlock.
-/

namespace FanoutIndex

namespace Seqlock

variable {κ ι α : Type}

namespace Stage

def done? : Stage ι α → Option Done
  | inside done _ => some done
  | storeMark done _ _ => some done
  | storeUnlock isMarked _ => some (if isMarked then .marked else .nothing)
  | _ => none

def Knows (version : Version) : Stage ι α → Prop
  | swapVersion _ _ expected => expected.isBusy = false
  | inside done _ => version.IsHeld (done == .marked)
  | storeMark done _ marked => version.IsHeld (done == .marked) ∧ version.markInsert = .ok marked
  | storeUnlock isMarked unlocked => version.IsHeld isMarked ∧ version.unlock = .ok unlocked
  | _ => True

variable {stage : Stage ι α} {version other : Version} {done : Done}

theorem Knows.isHeld (knows : stage.Knows version) (h : stage.done? = some done) :
    version.IsHeld (done == .marked) := by
  cases stage with
  | inside d body =>
    cases h
    exact knows
  | storeMark d rest marked =>
    cases h
    exact knows.1
  | storeUnlock isMarked unlocked =>
    cases h
    cases isMarked <;> exact knows.1
  | _ => cases h

/-- A client without the lock relies on nothing that others can change. -/
theorem Knows.of_done?_eq_none (knows : stage.Knows version) (h : stage.done? = none) :
    stage.Knows other := by
  cases stage with
  | inside d body => cases h
  | storeMark d rest marked => cases h
  | storeUnlock isMarked unlocked => cases h
  | _ => exact knows

end Stage

/-- What an access does to the memory, by what its client did under the lock before and after it. -/
inductive Effect (memory : Memory ι α) :
    (completes : Bool) → (before after : Option Done) → Memory ι α → Prop
  | idle : Effect memory false none none memory
  | lock (rest : memory.version.isBusy = false) :
      Effect memory false none (some .nothing) { memory with version := memory.version.locked }
  | load {done : Done} : Effect memory false (some done) (some done) memory
  | store {done : Done} {cells : ι → α} :
      Effect memory false (some done) (some done.store) { memory with cells := cells }
  | mark {done : Done} {marked : Version} (held : memory.version.IsHeld (done == .marked))
      (h : memory.version.markInsert = .ok marked) :
      Effect memory false (some done) (some .marked) { memory with version := marked }
  | unlock {isMarked : Bool} {unlocked : Version} (held : memory.version.IsHeld isMarked)
      (h : memory.version.unlock = .ok unlocked) :
      Effect memory isMarked (some (if isMarked then .marked else .nothing)) none
        { memory with version := unlocked }

namespace Progress

def stage? : Progress ι α → Option (Stage ι α)
  | next stage => some stage
  | _ => none

/-- What a client may rely on after an access; it saw no contract broken. -/
def Knows (version : Version) : Progress ι α → Prop
  | next stage => stage.Knows version
  | ended _ => True
  | broken _ => False

end Progress

theorem Stage.knows_turnedAway (insists : Bool) (body : Body ι α .nothing) (version : Version) :
    (turnedAway insists body).stage?.bind done? = none ∧
      (turnedAway insists body).Knows version := by
  cases insists <;> exact ⟨rfl, trivial⟩

section Step

variable [DecidableEq ι] {memory : Memory ι α} {stage : Stage ι α}

/-- What an access does, and what its client may rely on afterwards. -/
theorem Stage.effect (knows : stage.Knows memory.version) :
    Effect memory stage.completes stage.done? ((stage.step memory).1.stage?.bind done?)
        (stage.step memory).2 ∧
      (stage.step memory).1.Knows (stage.step memory).2.version := by
  cases stage with
  | takeToken probe =>
    rw [step]
    cases memory.version.stable? <;> exact ⟨.idle, trivial⟩
  | look token loads probe => cases probe <;> exact ⟨.idle, trivial⟩
  | readVersion insists body =>
    rw [step]
    split_ifs with hbusy
    · obtain ⟨hdone, hknows⟩ := knows_turnedAway insists body memory.version
      rw [hdone]
      exact ⟨.idle, hknows⟩
    · exact ⟨.idle, eq_false_of_ne_true hbusy⟩
  | swapVersion insists body expected =>
    rw [step]
    split_ifs with hsame
    · subst hsame
      exact ⟨.lock knows, Version.isHeld_locked knows⟩
    · obtain ⟨hdone, hknows⟩ := knows_turnedAway insists body memory.version
      rw [hdone]
      exact ⟨.idle, hknows⟩
  | inside done body =>
    have held : memory.version.IsHeld (done == .marked) := knows
    cases body with
    | finish whole =>
      have hunlock := Version.unlock_of_isLocked held.1
      rw [step, hunlock]
      cases done with
      | nothing => exact ⟨.load, held, hunlock⟩
      | stored => exact absurd rfl whole
      | marked => exact ⟨.load, held, hunlock⟩
    | mark rest =>
      have hmark := Version.markInsert_of_isLocked held.1
      rw [step, hmark]
      exact ⟨.load, held, hmark⟩
    | store cell value rest =>
      refine ⟨.store, ?_⟩
      cases done <;> exact held
    | load cell rest => exact ⟨.load, held⟩
  | storeMark done rest marked =>
    exact ⟨.mark knows.1 knows.2, (Version.isHeld_of_markInsert knows.1 knows.2).1⟩
  | storeUnlock isMarked unlocked => exact ⟨.unlock knows.1 knows.2, trivial⟩

end Step

namespace Effect

variable {memory after : Memory ι α} {completes : Bool} {old new : Option Done} {done : Done}

/-- The version is changed only by a client that holds the lock before or afterwards. -/
theorem version_eq (h : Effect memory completes none none after) : after = memory := by
  cases h
  rfl

theorem rest_of_lock (h : Effect memory completes none (some done) after) :
    memory.version.isBusy = false := by
  cases h with
  | lock rest => exact rest

theorem rest_of_unlock (h : Effect memory completes (some done) none after) :
    after.version.isBusy = false := by
  generalize hold : some done = old at h
  cases h with
  | idle => cases hold
  | unlock held h => exact (Version.rest_of_unlock held h).1

theorem cells (h : Effect memory completes old new after) :
    after.cells = memory.cells ∨ ∃ done, new = some done ∧ done ≠ .nothing := by
  cases h with
  | @store done cells => exact .inr ⟨done.store, rfl, by cases done <;> decide⟩
  | _ => exact .inl rfl

theorem keeps (h : Effect memory completes (some done) new after) (hdone : done ≠ .nothing) :
    completes = true ∨ ∃ done, new = some done ∧ done ≠ .nothing := by
  generalize hold : some done = old at h
  cases h with
  | idle => cases hold
  | lock rest => cases hold
  | load => exact .inr ⟨done, hold.symm, hdone⟩
  | store =>
    cases hold
    exact .inr ⟨done.store, rfl, by cases done <;> decide⟩
  | mark held h => exact .inr ⟨.marked, rfl, by decide⟩
  | unlock held h =>
    cases completes with
    | false =>
      cases hold
      exact absurd rfl hdone
    | true => exact .inl rfl

/-- The counter of a version counts the completed changes, in 30 bits. -/
theorem changes (h : Effect memory completes old new after) :
    after.version.changes = (memory.version.changes + completes.toNat) % 2 ^ 30 := by
  have hlt := memory.version.changes_lt
  cases h with
  | lock rest =>
    rw [Version.changes_locked rest]
    exact (Nat.mod_eq_of_lt hlt).symm
  | mark held h =>
    rw [(Version.isHeld_of_markInsert held h).2]
    exact (Nat.mod_eq_of_lt hlt).symm
  | unlock held h => exact (Version.rest_of_unlock held h).2
  | _ => exact (Nat.mod_eq_of_lt hlt).symm

end Effect

namespace Client

variable [DecidableEq ι] {client : Client ι α} {memory : Memory ι α} {stage : Stage ι α}

theorem step_of_stage (memory : Memory ι α) (h : client.stage = some stage) :
    client.step memory = (client.advance (stage.step memory).1, (stage.step memory).2) := by
  simp only [step, h]

theorem step_of_none (memory : Memory ι α) (h : client.stage = none) :
    (client.step memory).2 = memory ∧ (client.step memory).1.replies = client.replies ∧
      (client.step memory).1.broken = client.broken ∧
      ∀ stage, (client.step memory).1.stage = some stage →
        ∃ task : Task ι α, stage = task.start := by
  obtain ⟨todo, _, replies, broken⟩ := client
  cases h
  cases todo with
  | nil => exact ⟨rfl, rfl, rfl, nofun⟩
  | cons task todo => exact ⟨rfl, rfl, rfl, fun stage h => ⟨task, (Option.some.inj h).symm⟩⟩

theorem effect (knows : ∀ stage, client.stage = some stage → stage.Knows memory.version) :
    Effect memory (client.stage.any Stage.completes) (client.stage.bind Stage.done?)
        ((client.step memory).1.stage.bind Stage.done?) (client.step memory).2 ∧
      (∀ stage, (client.step memory).1.stage = some stage →
        stage.Knows (client.step memory).2.version) ∧
      (client.step memory).1.broken = client.broken := by
  cases hstage : client.stage with
  | some stage =>
    obtain ⟨heffect, hknows⟩ := Stage.effect (knows stage hstage)
    rw [step_of_stage memory hstage]
    cases hprogress : (stage.step memory).1 with
    | next stage' =>
      rw [hprogress] at heffect hknows
      exact ⟨heffect, fun _ h => Option.some.inj h ▸ hknows, rfl⟩
    | ended reply =>
      rw [hprogress] at heffect
      exact ⟨heffect, nofun, rfl⟩
    | broken cause =>
      rw [hprogress] at hknows
      exact hknows.elim
  | none =>
    obtain ⟨hmemory, _, hbroken, hstart⟩ := step_of_none memory hstage
    have hdone : (client.step memory).1.stage.bind Stage.done? = none := by
      rw [Option.bind_eq_none_iff]
      intro stage h
      obtain ⟨task, rfl⟩ := hstart stage h
      cases task <;> rfl
    rw [hmemory, hdone]
    refine ⟨.idle, fun stage h => ?_, hbroken⟩
    obtain ⟨task, rfl⟩ := hstart stage h
    cases task <;> trivial

end Client

namespace State

def done? (state : State κ ι α) (c : κ) : Option Done := (state.clients c).stage.bind Stage.done?

/-- What holds of every state that a run reaches: the clients can rely on what they know, one of
them at most holds the lock, and the version is at rest if none does. -/
structure Ok (state : State κ ι α) : Prop where
  knows : ∀ c stage, (state.clients c).stage = some stage → stage.Knows state.memory.version
  exclusive : ∀ c d, state.done? c ≠ none → state.done? d ≠ none → c = d
  busy : state.memory.version.isBusy = true → ∃ c, state.done? c ≠ none
  intact : ∀ c, (state.clients c).broken = none

variable {state : State κ ι α} {c d : κ} {done : Done}

theorem Ok.isHeld (ok : state.Ok) (h : state.done? c = some done) :
    state.memory.version.IsHeld (done == .marked) := by
  obtain ⟨stage, hstage, hdone⟩ := Option.bind_eq_some_iff.1 h
  exact (ok.knows c stage hstage).isHeld hdone

/-- Nobody holds the lock of a version at rest. -/
theorem Ok.done?_eq_none (ok : state.Ok) (rest : state.memory.version.isBusy = false) (c : κ) :
    state.done? c = none := by
  cases hdone : state.done? c with
  | none => rfl
  | some done =>
    have hbusy := Version.isBusy_of_isHeld (ok.isHeld hdone)
    rw [rest] at hbusy
    cases hbusy

theorem ok_ofTasks {word : UInt32} (rest : (Version.mk word).isBusy = false) (cells : ι → α)
    (tasks : κ → List (Task ι α)) : (ofTasks word cells tasks).Ok where
  knows := nofun
  exclusive := fun c d h => absurd rfl h
  busy := by
    intro hbusy
    cases rest.symm.trans hbusy
  intact := fun _ => rfl

section Step

variable [DecidableEq κ] [DecidableEq ι]

theorem clients_step_self (state : State κ ι α) (c : κ) :
    (state.step c).clients c = ((state.clients c).step state.memory).1 :=
  Function.update_self _ _ _

theorem clients_step_of_ne (h : d ≠ c) : (state.step c).clients d = state.clients d :=
  Function.update_of_ne h _ _

theorem done?_step_of_ne (h : d ≠ c) : (state.step c).done? d = state.done? d := by
  rw [done?, clients_step_of_ne h, done?]

theorem Ok.effect (ok : state.Ok) (c : κ) :
    Effect state.memory (state.completes c) (state.done? c) ((state.step c).done? c)
      (state.step c).memory := by
  have heffect := (Client.effect (ok.knows c)).1
  rwa [← clients_step_self] at heffect

/-- While a client holds the lock, nobody else changes the version. -/
theorem Ok.version_step_of_ne (ok : state.Ok) (hne : d ≠ c) (h : state.done? d ≠ none) :
    state.done? c = none ∧ (state.step c).done? c = none ∧
      (state.step c).memory = state.memory := by
  have hnone : state.done? c = none := by
    by_contra hc
    exact hne (ok.exclusive d c h hc)
  have heffect := ok.effect c
  rw [hnone] at heffect
  cases hafter : (state.step c).done? c with
  | none =>
    rw [hafter] at heffect
    exact ⟨hnone, rfl, heffect.version_eq⟩
  | some done =>
    rw [hafter] at heffect
    exact absurd (ok.done?_eq_none heffect.rest_of_lock d) h

theorem Ok.step (ok : state.Ok) (c : κ) : (state.step c).Ok where
  knows := by
    intro d stage hstage
    by_cases hd : d = c
    · subst hd
      rw [clients_step_self] at hstage
      exact (Client.effect (ok.knows d)).2.1 stage hstage
    · rw [clients_step_of_ne hd] at hstage
      have hknows := ok.knows d stage hstage
      cases hdone : stage.done? with
      | none => exact hknows.of_done?_eq_none hdone
      | some done =>
        have hholds : state.done? d ≠ none := by simp [State.done?, hstage, hdone]
        rwa [(ok.version_step_of_ne hd hholds).2.2]
  exclusive := by
    have other {d : κ} (hd : d ≠ c) (h : (state.step c).done? d ≠ none) :
        state.done? d ≠ none ∧ (state.step c).done? c = none := by
      rw [done?_step_of_ne hd] at h
      exact ⟨h, (ok.version_step_of_ne hd h).2.1⟩
    intro a b ha hb
    by_cases hac : a = c
    · by_cases hbc : b = c
      · rw [hac, hbc]
      · exact absurd (other hbc hb).2 (hac ▸ ha)
    · by_cases hbc : b = c
      · exact absurd (other hac ha).2 (hbc ▸ hb)
      · exact ok.exclusive a b (other hac ha).1 (other hbc hb).1
  busy := by
    intro hbusy
    have heffect := ok.effect c
    cases hafter : (state.step c).done? c with
    | some done => exact ⟨c, by simp [hafter]⟩
    | none =>
      rw [hafter] at heffect
      cases hbefore : state.done? c with
      | some done =>
        rw [hbefore] at heffect
        cases heffect.rest_of_unlock.symm.trans hbusy
      | none =>
        rw [hbefore] at heffect
        rw [heffect.version_eq] at hbusy
        obtain ⟨d, hd⟩ := ok.busy hbusy
        have hne : d ≠ c := by
          rintro rfl
          exact hd hbefore
        exact ⟨d, by rwa [done?_step_of_ne hne]⟩
  intact := by
    intro d
    by_cases hd : d = c
    · subst hd
      rw [clients_step_self, (Client.effect (ok.knows d)).2.2, ok.intact]
    · rw [clients_step_of_ne hd, ok.intact]

theorem Ok.run (ok : state.Ok) (schedule : List κ) : (state.run schedule).Ok := by
  induction schedule generalizing state with
  | nil => exact ok
  | cons c rest ih => exact ih (ok.step c)

end Step

end State

end Seqlock

end FanoutIndex

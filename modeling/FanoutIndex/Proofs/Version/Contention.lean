import FanoutIndex.Proofs.Version.Guarded
import FanoutIndex.Version.Contention

/-!
# Exclusion among guards

At any time the version tells exactly what the guards are: nobody has one, or one client has one
that is marked or not. The two accesses of a mark and of an unlock are made by that client, and
nobody else changes the word before it has dropped its guard; an exchange succeeds only on a word at
rest, whatever happened since that word was loaded.
-/

namespace FanoutIndex

namespace Contention

variable {κ : Type}

/-- The client that has a guard, and whether it stored its mark. -/
abbrev Holder (κ : Type) := Option (κ × Bool)

/-- What a client at a stage relies on. -/
def Stage.Knows (c : κ) (holder : Holder κ) (count : Nat) : Stage → Prop
  | compareLocked _ | readToMark | readToUnlock => ∃ m, holder = some (c, m)
  | swapLocked expected => expected.isBusy = false
  | storeMark marked => (∃ m, holder = some (c, m)) ∧ marked = .ofGuard (some true) count
  | storeUnlock unlocked => ∃ m, holder = some (c, m) ∧ unlocked = .ofGuard none (count + m.toNat)
  | broken _ => False
  | _ => True

def Progress.Knows (c : κ) (holder : Holder κ) (count : Nat) : Progress → Prop
  | next stage => stage.Knows c holder count
  | returned reply => ∀ token, reply = .token token → token.toNat % 4 = 0

def Progress.counted : Progress → Nat
  | returned (.dropped isMarked) => isMarked.toNat
  | _ => 0

/-- How an access of a client changes who has a guard, and how many changes it counts. -/
inductive Turn (c : κ) : (before : Holder κ) → (counted : Nat) → (after : Holder κ) → Prop
  | idle {holder : Holder κ} : Turn c holder 0 holder
  | lock : Turn c none 0 (some (c, false))
  | mark {m : Bool} : Turn c (some (c, m)) 0 (some (c, true))
  | unlock {m : Bool} : Turn c (some (c, m)) m.toNat none

variable {c d : κ} {before after : Holder κ} {count counted : Nat} {stage : Stage} {guard : Guard}

/-- What the other clients rely on is not touched. -/
theorem Turn.knows (turn : Turn c before counted after) (hne : d ≠ c)
    (knows : stage.Knows d before count) : stage.Knows d after (count + counted) := by
  -- Only the client that has the guard relies on who has it, and then nobody else can turn.
  have holds {m : Bool} (h : before = some (d, m)) : after = before ∧ counted = 0 := by
    cases turn with
    | idle => exact ⟨rfl, rfl⟩
    | lock => cases h
    | mark => exact absurd (congrArg Prod.fst (Option.some.inj h)).symm hne
    | unlock => exact absurd (congrArg Prod.fst (Option.some.inj h)).symm hne
  cases stage with
  | compareLocked token =>
    obtain ⟨m, h⟩ := knows
    exact ⟨m, (holds h).1.trans h⟩
  | readToMark =>
    obtain ⟨m, h⟩ := knows
    exact ⟨m, (holds h).1.trans h⟩
  | readToUnlock =>
    obtain ⟨m, h⟩ := knows
    exact ⟨m, (holds h).1.trans h⟩
  | storeMark marked =>
    obtain ⟨⟨m, h⟩, rfl⟩ := knows
    exact ⟨⟨m, (holds h).1.trans h⟩, by rw [(holds h).2, Nat.add_zero]⟩
  | storeUnlock unlocked =>
    obtain ⟨m, h, rfl⟩ := knows
    exact ⟨m, (holds h).1.trans h, by rw [(holds h).2, Nat.add_zero]⟩
  | broken cause => exact knows.elim
  | _ => exact knows

def HasGuard (c : κ) (holder : Holder κ) (guard : Guard) : Prop :=
  ∀ m, guard = some m ↔ holder = some (c, m)

theorem hasGuard_some {m : Bool} : HasGuard c (some (c, m)) (some m) := by simp [HasGuard]

theorem hasGuard_none : HasGuard c none none := by simp [HasGuard]

theorem Turn.hasGuard_of_ne (turn : Turn c before counted after) (hne : d ≠ c)
    (h : HasGuard d before guard) : HasGuard d after guard := by
  intro m
  rw [h m]
  cases turn <;> simp [hne.symm]

theorem Request.knows_start {request : Request} (hguard : HasGuard c before guard)
    (h : request.start guard = some stage) : stage.Knows c before count := by
  have holds (h : guard.isSome) : ∃ m, before = some (c, m) := by
    obtain ⟨m, hm⟩ := Option.isSome_iff_exists.1 h
    exact ⟨m, (hguard m).1 hm⟩
  cases guard with
  | none =>
    cases request <;> cases h <;> trivial
  | some m =>
    cases request with
    | stable | hasChanged | tryAcquire =>
      cases h
      trivial
    | guardHasChanged | markInsert | drop =>
      cases h
      exact holds rfl

/-- What an access may come to where the version told who had a guard: it tells that afterwards. -/
def Turns (c : κ) (before : Holder κ) (count : Nat) (outcome : Progress × Guard × Version) : Prop :=
  ∃ after, outcome.2.2 = .ofGuard (after.map Prod.snd) (count + outcome.1.counted) ∧
    Turn c before outcome.1.counted after ∧ HasGuard c after outcome.2.1 ∧
    outcome.1.Knows c after (count + outcome.1.counted)

theorem turns_idle {progress : Progress} (hguard : HasGuard c before guard)
    (idle : progress.counted = 0) (knows : progress.Knows c before count) :
    Turns c before count (progress, guard, .ofGuard (before.map Prod.snd) count) := by
  refine ⟨before, ?_, ?_, hguard, ?_⟩
  · rw [idle, Nat.add_zero]
  · rw [idle]
    exact .idle
  · rwa [idle, Nat.add_zero]

theorem Stage.turns_access (hguard : HasGuard c before guard) (knows : stage.Knows c before count) :
    Turns c before count (stage.access guard (.ofGuard (before.map Prod.snd) count)) := by
  cases stage with
  | awaitToken =>
    rw [access]
    cases before with
    | none =>
      rw [Option.map_none, Version.stable?_ofGuard_none]
      apply turns_idle hguard rfl
      rintro token ⟨⟩
      simp [Version.toNat_ofGuard, Version.guardBits]
    | some holder =>
      rw [Option.map_some, Version.stable?_ofGuard_some]
      exact turns_idle hguard rfl trivial
  | compare token => exact turns_idle hguard rfl (by rintro _ ⟨⟩)
  | compareLocked token => exact turns_idle hguard rfl (by rintro _ ⟨⟩)
  | readToLock =>
    rw [access]
    split_ifs with hbusy
    · exact turns_idle hguard rfl (by rintro _ ⟨⟩)
    · exact turns_idle hguard rfl (eq_false_of_ne_true hbusy)
  | swapLocked expected =>
    rw [access]
    split_ifs with hsame
    · subst hsame
      cases before with
      | none =>
        rw [Option.map_none, Version.locked_ofGuard]
        exact ⟨some (c, false), rfl, .lock, hasGuard_some, by rintro _ ⟨⟩⟩
      | some holder => cases knows.symm.trans (Version.isBusy_ofGuard (some holder.2) count)
    · exact turns_idle hguard rfl (by rintro _ ⟨⟩)
  | readToMark =>
    obtain ⟨m, rfl⟩ := knows
    have hmark : (Version.ofGuard ((some (c, m)).map Prod.snd) count).markInsert =
        .ok (.ofGuard (some true) count) := Version.markInsert_ofGuard m count
    rw [access, hmark]
    exact turns_idle hguard rfl ⟨⟨m, rfl⟩, rfl⟩
  | storeMark marked =>
    obtain ⟨⟨m, rfl⟩, rfl⟩ := knows
    exact ⟨some (c, true), rfl, .mark, hasGuard_some, by rintro _ ⟨⟩⟩
  | readToUnlock =>
    obtain ⟨m, rfl⟩ := knows
    have hunlock : (Version.ofGuard ((some (c, m)).map Prod.snd) count).unlock =
        .ok (.ofGuard none (count + m.toNat)) := Version.unlock_ofGuard m count
    rw [access, hunlock]
    exact turns_idle hguard rfl ⟨m, rfl, rfl⟩
  | storeUnlock unlocked =>
    obtain ⟨m, rfl, rfl⟩ := knows
    obtain rfl := (hguard m).2 rfl
    have hmark : (some m == some true) = m := by cases m <;> rfl
    rw [access, hmark]
    exact ⟨none, rfl, .unlock, hasGuard_none, by rintro _ ⟨⟩⟩
  | broken cause => exact knows.elim

namespace State

/-- What holds of every state that a run reaches: one client at most has a guard, and the version
tells whether one has, whether it stored its mark, and how many marked sections were completed. -/
structure Ok (first : Nat) (holder : Holder κ) (state : State κ) : Prop where
  version : state.version = .ofGuard (holder.map Prod.snd) (first + state.sections)
  guards : ∀ c, HasGuard c holder (state.clients c).guard
  knows : ∀ c stage, (state.clients c).stage = some stage →
    stage.Knows c holder (first + state.sections)
  tokens : ∀ c token, (c, Reply.token token) ∈ state.replies → token.toNat % 4 = 0

variable {state : State κ} {first : Nat} {holder : Holder κ}

theorem ok_ofWord {word : UInt32} (rest : (Version.mk word).isBusy = false) :
    (ofWord word : State κ).Ok (Version.mk word).changes none where
  version := Version.eq_ofGuard rest
  guards := fun c m => by simp [ofWord]
  knows := nofun
  tokens := nofun

theorem sections_snoc (state : State κ) (version : Version) (clients : κ → Client) (c : κ) (reply : Reply) :
    sections ⟨version, clients, state.replies ++ [(c, reply)]⟩ =
      state.sections + (Progress.returned reply).counted := by
  rw [sections, List.countP_append, sections]
  rcases reply with _ | _ | _ | _ | _ | _ <;> rfl

variable [DecidableEq κ]

theorem Ok.begin (ok : state.Ok first holder) (c : κ) (request : Request) :
    (state.step (.begin c request)).Ok first holder := by
  have hguards := ok.guards c
  rw [step]
  split
  · exact ok
  · next guard hclient =>
    rw [hclient] at hguards
    refine { version := ok.version, guards := ?_, knows := ?_, tokens := ok.tokens }
    · intro d
      by_cases hd : d = c
      · subst hd
        simpa using hguards
      · simpa [hd] using ok.guards d
    · intro d stage hstage
      by_cases hd : d = c
      · subst hd
        exact Request.knows_start hguards (by simpa using hstage)
      · exact ok.knows d stage (by simpa [hd] using hstage)

theorem Ok.access (ok : state.Ok first holder) (c : κ) :
    ∃ after, (state.step (.access c)).Ok first after := by
  have hguards := ok.guards c
  rw [step]
  split
  · exact ⟨holder, ok⟩
  · next guard stage hclient =>
    rw [hclient] at hguards
    obtain ⟨after, hversion, turn, hguard', hknows⟩ :=
      Stage.turns_access hguards (ok.knows c stage (by rw [hclient]))
    rw [← ok.version] at hversion turn hguard' hknows
    generalize stage.access guard state.version = outcome at hversion turn hguard' hknows
    obtain ⟨progress, guard', version⟩ := outcome
    dsimp only at hversion turn hguard' hknows
    subst hversion
    have hguard (next : Option Stage) (d : κ) : HasGuard d after
        (Function.update state.clients c ⟨guard', next⟩ d).guard := by
      by_cases hd : d = c
      · subst hd
        simpa using hguard'
      · simpa [hd] using turn.hasGuard_of_ne hd (ok.guards d)
    have hothers {d : κ} (hd : d ≠ c) {stage : Stage} (h : (state.clients d).stage = some stage) :
        stage.Knows d after (first + state.sections + progress.counted) :=
      turn.knows hd (ok.knows d stage h)
    refine ⟨after, ?_⟩
    cases progress with
    | next stage' =>
      refine { version := rfl, guards := hguard _, knows := ?_, tokens := ok.tokens }
      intro d stage hstage
      by_cases hd : d = c
      · subst hd
        simp only [Function.update_self, Option.some.injEq] at hstage
        exact hstage ▸ hknows
      · exact hothers hd (by simpa [hd] using hstage)
    | returned reply =>
      have hsections := sections_snoc state
        (.ofGuard (after.map Prod.snd) (first + state.sections + (Progress.returned reply).counted))
        (Function.update state.clients c ⟨guard', none⟩) c reply
      refine { version := ?_, guards := hguard _, knows := ?_, tokens := ?_ }
      · rw [hsections, Nat.add_assoc]
      · intro d stage hstage
        rw [hsections, ← Nat.add_assoc]
        by_cases hd : d = c
        · subst hd
          simp at hstage
        · exact hothers hd (by simpa [hd] using hstage)
      · intro d token hmem
        rcases List.mem_append.1 hmem with hold | hnew
        · exact ok.tokens d token hold
        · simp only [List.mem_singleton, Prod.mk.injEq] at hnew
          exact hknows token hnew.2.symm

theorem Ok.run (ok : state.Ok first holder) (schedule : List (Move κ)) :
    ∃ after, (state.run schedule).Ok first after := by
  induction schedule generalizing state holder with
  | nil => exact ⟨holder, ok⟩
  | cons move rest ih =>
    cases move with
    | begin c request => exact ih (ok.begin c request)
    | access c =>
      obtain ⟨mid, hmid⟩ := ok.access c
      exact ih hmid

section Undisturbed

variable {c : κ} {guard : Guard} (idle : state.clients c = ⟨guard, none⟩)

include idle

/-- The two accesses of a call that nobody disturbs do what the operation on the version does. -/
theorem version_run_tryAcquire :
    (state.run [.begin c .tryAcquire, .access c, .access c]).version =
      state.version.tryLock?.getD state.version := by
  cases hbusy : state.version.isBusy <;>
    simp [run, step, idle, Request.start, Stage.access, Version.tryLock?, hbusy]

theorem version_run_markInsert (held : guard ≠ none) :
    (state.run [.begin c .markInsert, .access c, .access c]).version =
      state.version.markInsert.toOption.getD state.version := by
  obtain ⟨m, rfl⟩ := Option.ne_none_iff_exists'.1 held
  cases hmark : state.version.markInsert <;>
    simp [run, step, idle, Request.start, Stage.access, Stage.withVersion, hmark, Except.toOption]

theorem version_run_drop (held : guard ≠ none) :
    (state.run [.begin c .drop, .access c, .access c]).version =
      state.version.unlock.toOption.getD state.version := by
  obtain ⟨m, rfl⟩ := Option.ne_none_iff_exists'.1 held
  cases hunlock : state.version.unlock <;>
    simp [run, step, idle, Request.start, Stage.access, Stage.withVersion, hunlock, Except.toOption]

end Undisturbed

/-- Clients that take guards on one version exclude each other, and no change of theirs is lost.
Whatever calls they make and in whatever order the accesses of these come: at most one client has a
guard; the lock bit is set if and only if one has, and the other bit if and only if that one has
stored its mark; the counter has counted the marked sections that were completed, in 30 bits; no
contract is broken; and every token that was given has both bits clear. -/
theorem guards_exclude {word : UInt32} (rest : (Version.mk word).isBusy = false)
    (schedule : List (Move κ)) {last : State κ} (hlast : (ofWord word).run schedule = last) :
    (∀ c d, (last.clients c).guard ≠ none → (last.clients d).guard ≠ none → c = d) ∧
      (last.version.isLocked = true ↔ ∃ c, (last.clients c).guard ≠ none) ∧
      (last.version.isInserting = true ↔ ∃ c, (last.clients c).guard = some true) ∧
      last.version.changes = ((Version.mk word).changes + last.sections) % 2 ^ 30 ∧
      (∀ c cause, (last.clients c).stage ≠ some (.broken cause)) ∧
      ∀ c token, (c, Reply.token token) ∈ last.replies → token.toNat % 4 = 0 := by
  obtain ⟨holder, ok⟩ := (ok_ofWord rest).run schedule
  rw [hlast] at ok
  have hholds (c : κ) : (last.clients c).guard ≠ none ↔ ∃ m, holder = some (c, m) := by
    simp only [Option.ne_none_iff_exists', ok.guards c _]
  refine ⟨?_, ?_, ?_, ?_, ?_, ok.tokens⟩
  · intro c d hc hd
    obtain ⟨m, hm⟩ := (hholds c).1 hc
    obtain ⟨m', hm'⟩ := (hholds d).1 hd
    exact congrArg Prod.fst (Option.some.inj (hm.symm.trans hm'))
  · rw [ok.version, Version.isLocked_ofGuard, Option.isSome_map, Option.isSome_iff_exists]
    simp only [hholds, Prod.exists]
  · simp only [ok.version, Version.isInserting_ofGuard, ok.guards _ _]
    cases holder <;> simp [Prod.ext_iff]
  · rw [ok.version, Version.changes_ofGuard]
  · intro c cause h
    exact ok.knows c _ h

/-- Both clients find the lock free, and the second is late. It waits for a token while the first
marks a change, which is the one that brings the counter round. -/
theorem guards_exclude_race :
    ∃ last : State (Fin 2),
      (ofWord 0xFFFFFFFC).run [.begin 0 .tryAcquire, .begin 1 .tryAcquire, .access 0, .access 1,
        .access 0, .access 1, .begin 0 .markInsert, .access 0, .begin 1 .stable, .access 1,
        .access 0, .begin 0 .drop, .access 0, .access 1, .access 0, .access 1] = last ∧
      last.replies = [(0, .acquired true), (1, .acquired false), (0, .marked),
        (0, .dropped true), (1, .token 0)] ∧
      (∀ c d, (last.clients c).guard ≠ none → (last.clients d).guard ≠ none → c = d) ∧
      (last.version.isLocked = true ↔ ∃ c, (last.clients c).guard ≠ none) ∧
      (last.version.isInserting = true ↔ ∃ c, (last.clients c).guard = some true) ∧
      last.version.changes = ((Version.mk 0xFFFFFFFC).changes + last.sections) % 2 ^ 30 ∧
      (∀ c cause, (last.clients c).stage ≠ some (.broken cause)) ∧
      ∀ c token, (c, Reply.token token) ∈ last.replies → token.toNat % 4 = 0 :=
  ⟨_, rfl, rfl, guards_exclude rfl _ rfl⟩

end State

end Contention

end FanoutIndex

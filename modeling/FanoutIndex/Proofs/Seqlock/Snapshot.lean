import FanoutIndex.Proofs.Seqlock.Exclusion

/-!
# Snapshots

A token is taken of a version at rest, and at rest means that no writer is between its lock and its
unlock. Cells that are stored afterwards belong to a section that marks a change: either it still
holds the lock, or its change is counted. So where the version is as it was, nothing was stored,
unless the counter came round.
-/

namespace FanoutIndex

namespace Seqlock

variable {κ ι α : Type}

theorem Client.replies_step [DecidableEq ι] (client : Client ι α) (memory : Memory ι α) :
    ∃ more, (client.step memory).1.replies = client.replies ++ more := by
  cases hstage : client.stage with
  | some stage =>
    rw [step_of_stage memory hstage]
    cases (stage.step memory).1 with
    | next stage => exact ⟨[], (List.append_nil _).symm⟩
    | ended reply => exact ⟨[reply], rfl⟩
    | broken cause => exact ⟨[], (List.append_nil _).symm⟩
  | none => exact ⟨[], by rw [(step_of_none memory hstage).2.1, List.append_nil]⟩

namespace State

/-- Since some moment, after which a number of changes was completed, a change was completed or is
on its way. -/
def Stirred (state : State κ ι α) (completed : Nat) : Prop :=
  0 < completed ∨ ∃ c done, state.done? c = some done ∧ done ≠ .nothing

/-- Each cell was loaded with its value at some moment. -/
def Faithful (cells : ι → α) (loads : List (ι × α)) : Prop :=
  ∀ load ∈ loads, load.2 = cells load.1

/-- How a reader stands since it took its token, when the cells had these values. -/
inductive Reader (state : State κ ι α) (completed : Nat) (cells : ι → α) (token : Token)
    (replies : List (Reply ι α)) (c : κ) : Prop
  | looking {loads : List (ι × α)} {probe : Probe ι α}
      (stage : (state.clients c).stage = some (.look token loads probe))
      (before : (state.clients c).replies = replies)
      (faithful : ¬state.Stirred completed → Faithful cells loads) : Reader ..
  | answered {loads : List (ι × α)} {changed : Bool} {more : List (Reply ι α)}
      (after : (state.clients c).replies = replies ++ .read token loads changed :: more)
      (faithful : changed = false → completed < 2 ^ 30 → Faithful cells loads) : Reader ..

/-- What holds since a token was taken, when the cells had these values. -/
structure Since (state : State κ ι α) (completed : Nat) (cells : ι → α) (token : Token) : Prop where
  ok : state.Ok
  resting : token.toNat % 4 = 0
  counted : state.memory.version.changes = (token.toNat / 4 + completed) % 2 ^ 30
  cells : ¬state.Stirred completed → state.memory.cells = cells

variable {state : State κ ι α} {completed : Nat} {cells : ι → α} {token : Token}
  {replies : List (Reply ι α)} {c d : κ}

/-- Where the version is as it was, nothing was stirred, unless the counter came round. -/
theorem Since.not_stirred (since : state.Since completed cells token)
    (same : state.memory.version.hasChanged token = false) (few : completed < 2 ^ 30) :
    ¬state.Stirred completed := by
  rw [Version.hasChanged_eq_false_iff] at same
  have rest : state.memory.version.isBusy = false := by
    rw [Version.isBusy_eq_false_iff, same]
    exact since.resting
  have hlt := token.toNat_lt
  have hcounted := since.counted
  rw [Version.changes_eq, same] at hcounted
  rintro (hpos | ⟨d, done, hdone, _⟩)
  · omega
  · cases hdone.symm.trans (since.ok.done?_eq_none rest d)

section Step

variable [DecidableEq κ] [DecidableEq ι]

theorem Stirred.step (ok : state.Ok) (d : κ) (h : state.Stirred completed) :
    (state.step d).Stirred (completed + (state.completes d).toNat) := by
  rcases h with hpos | ⟨e, done, hdone, hne⟩
  · exact .inl (Nat.add_pos_left hpos _)
  · by_cases hed : e = d
    · subst hed
      have heffect := ok.effect e
      rw [hdone] at heffect
      rcases heffect.keeps hne with hcompletes | ⟨later, hlater, hne'⟩
      · exact .inl (by rw [hcompletes]; exact Nat.succ_pos _)
      · exact .inr ⟨e, later, hlater, hne'⟩
    · exact .inr ⟨e, done, by rw [done?_step_of_ne hed, hdone], hne⟩

theorem Since.step (since : state.Since completed cells token) (d : κ) :
    (state.step d).Since (completed + (state.completes d).toNat) cells token where
  ok := since.ok.step d
  resting := since.resting
  counted := by
    have hcounted := since.counted
    have hstep := (since.ok.effect d).changes
    omega
  cells := by
    intro calm
    rcases (since.ok.effect d).cells with hsame | ⟨done, hdone, hne⟩
    · rw [hsame]
      exact since.cells fun h => calm (h.step since.ok d)
    · exact absurd (.inr ⟨d, done, hdone, hne⟩) calm

theorem Since.look (since : state.Since completed cells token) {loads : List (ι × α)}
    {probe : Probe ι α} (stage : (state.clients c).stage = some (.look token loads probe))
    (before : (state.clients c).replies = replies)
    (faithful : ¬state.Stirred completed → Faithful cells loads) :
    (state.step c).Reader (completed + (state.completes c).toNat) cells token replies c := by
  have hstep := Client.step_of_stage state.memory stage
  have hself := clients_step_self state c
  have calm (h : ¬(state.step c).Stirred (completed + (state.completes c).toNat)) :
      ¬state.Stirred completed := fun stirred => h (stirred.step since.ok c)
  rw [hstep] at hself
  cases probe with
  | finish =>
    have hreplies : ((state.step c).clients c).replies =
        replies ++ [.read token loads (state.memory.version.hasChanged token)] := by
      rw [hself, ← before]
      rfl
    refine .answered hreplies ?_
    intro hchanged few
    apply faithful
    exact since.not_stirred hchanged (by omega)
  | load cell rest =>
    refine .looking (by rw [hself]; rfl) (by rw [hself]; exact before) ?_
    intro h load hload
    rcases List.mem_append.1 hload with hload | hload
    · exact faithful (calm h) load hload
    · obtain rfl := List.mem_singleton.1 hload
      exact congrFun (since.cells (calm h)) cell
  | ask rest =>
    exact .looking (by rw [hself]; rfl) (by rw [hself]; exact before) fun h => faithful (calm h)

theorem Reader.step (since : state.Since completed cells token)
    (reader : state.Reader completed cells token replies c) (d : κ) :
    (state.step d).Reader (completed + (state.completes d).toNat) cells token replies c := by
  by_cases hd : c = d
  · subst hd
    cases reader with
    | looking stage before faithful => exact since.look stage before faithful
    | @answered loads changed more after faithful =>
      obtain ⟨new, hnew⟩ := (state.clients c).replies_step state.memory
      have hreplies : ((state.step c).clients c).replies =
          replies ++ .read token loads changed :: (more ++ new) := by
        rw [clients_step_self, hnew, after, List.append_assoc]
        rfl
      exact .answered hreplies fun hchanged few => faithful hchanged (by omega)
  · cases reader with
    | looking stage before faithful =>
      refine .looking (by rwa [clients_step_of_ne hd]) (by rwa [clients_step_of_ne hd]) ?_
      exact fun calm => faithful fun h => calm (h.step since.ok d)
    | answered after faithful =>
      refine .answered (by rwa [clients_step_of_ne hd]) ?_
      exact fun hchanged few => faithful hchanged (by omega)

theorem Reader.run (since : state.Since completed cells token)
    (reader : state.Reader completed cells token replies c) (schedule : List κ) :
    (state.run schedule).Reader (completed + state.completions schedule) cells token replies c := by
  induction schedule generalizing state completed with
  | nil => exact reader
  | cons d rest ih =>
    have h := ih (since.step d) (reader.step since d)
    rwa [Nat.add_assoc] at h

/-- Validated reads are a snapshot. A reader takes its token, and some steps of any clients later it
has been answered that the version has not changed since. If fewer changes than the counter can tell
apart were completed in between, then every cell that it loaded had the value that it had when the
token was taken, and at that moment no writer was between its lock and its unlock. -/
theorem validated_reads_are_snapshot {word : UInt32} (rest : (Version.mk word).isBusy = false)
    (cells : ι → α) (tasks : κ → List (Task ι α)) (before during : List κ) (c : κ)
    {taken last : State κ ι α} (htaken : (ofTasks word cells tasks).run before = taken)
    (hlast : taken.run (c :: during) = last) {probe : Probe ι α} {token answeredToken : Token}
    {loads : List (ι × α)} (stage : (taken.clients c).stage = some (.takeToken probe))
    (stable : taken.memory.version.stable? = some token)
    (answered : (last.clients c).replies =
      (taken.clients c).replies ++ [.read answeredToken loads false])
    (few : taken.completions (c :: during) < 2 ^ 30) :
    answeredToken = token ∧
      (∀ cell value, (cell, value) ∈ loads → value = taken.memory.cells cell) ∧
      ∀ d, taken.done? d = none := by
  obtain ⟨hrest, rfl⟩ := Version.stable?_eq_some_iff.1 stable
  have ok : taken.Ok := htaken ▸ (ok_ofTasks rest cells tasks).run before
  have since : taken.Since 0 taken.memory.cells taken.memory.version.word :=
    { ok := ok
      resting := Version.isBusy_eq_false_iff.1 hrest
      counted := by
        rw [← Version.changes_eq]
        exact (Nat.mod_eq_of_lt (Version.changes_lt _)).symm
      cells := fun _ => rfl }
  have hcompletes : taken.completes c = false := by
    rw [completes, stage]
    rfl
  have hself := clients_step_self taken c
  rw [Client.step_of_stage taken.memory stage, Stage.step, stable] at hself
  have reader : (taken.step c).Reader (0 + (taken.completes c).toNat) taken.memory.cells
      taken.memory.version.word (taken.clients c).replies c :=
    .looking (by rw [hself]; rfl) (by rw [hself]; rfl) fun _ _ h => absurd h List.not_mem_nil
  have hreader : last.Reader (taken.completions (c :: during)) taken.memory.cells
      taken.memory.version.word (taken.clients c).replies c := by
    rw [← hlast, completions, ← Nat.zero_add (taken.completes c).toNat]
    exact reader.run (since.step c) during
  cases hreader with
  | looking _ before _ =>
    rw [before] at answered
    simp at answered
  | answered after faithful =>
    rw [after] at answered
    have hreply := List.append_cancel_left answered
    simp only [List.cons.injEq, Reply.read.injEq] at hreply
    obtain ⟨⟨rfl, rfl, rfl⟩, _⟩ := hreply
    exact ⟨rfl, fun cell value h => faithful rfl few _ h, ok.done?_eq_none hrest⟩

/-- The first client stores both cells and marks a change in between. The second takes its token
after that, and the third locks and unlocks for nothing while the second loads the cells. -/
theorem validated_reads_are_snapshot_after_section :
    ∃ taken : State (Fin 3) Bool Nat,
      (ofTasks 0 (fun _ => 0) ![
        [.write true (.store false 5 (.mark (.store true 7 (.finish (by decide)))))],
        [.read (.load false fun _ => .load true fun _ => .finish)],
        [.write false (.finish (by decide))]]).run [0, 0, 0, 0, 0, 0, 0, 0, 0, 1] = taken ∧
      ((taken.run [1, 2, 1, 2, 2, 1, 2, 2, 1]).clients 1).replies =
        [.read 4 [(false, 5), (true, 7)] false] ∧
      (∀ cell value, (cell, value) ∈ [(false, 5), (true, 7)] → value = taken.memory.cells cell) ∧
      ∀ d, taken.done? d = none := by
  refine ⟨_, rfl, rfl, ?_⟩
  have rest : (Version.mk 0).isBusy = false := rfl
  exact (validated_reads_are_snapshot rest _ _ _ [2, 1, 2, 2, 1, 2, 2, 1] 1 rfl rfl rfl rfl rfl
    (by decide)).2

end Step

end State

end Seqlock

end FanoutIndex

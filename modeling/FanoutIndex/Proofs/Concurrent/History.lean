import FanoutIndex.Proofs.Concurrent.Requests

namespace FanoutIndex

variable {w n : Nat} {V : Type}

namespace System

def IsFresh (system : System w n V) : Prop :=
  ∀ (c : Nat) client, system.clients[c]? = some client →
    client.replies = #[] ∧ client.task = none

variable {start : System w n V} {c d r : Nat} {request : Request n V} {reply : Reply V}
  {entry other : Key n × V} {schedule p q : List Nat}

theorem run_snoc (system : System w n V) (schedule : List Nat) (c : Nat) :
    system.run (schedule ++ [c]) = (system.run schedule).step c := by
  rw [run_append, run_cons, run_nil]

theorem begins_snoc_iff : p ++ [c] <+: schedule ++ [d] ↔
    (p = schedule ∧ c = d) ∨ p ++ [c] <+: schedule := by
  rw [List.prefix_concat_iff]
  constructor
  · rintro (h | h)
    · obtain ⟨hp, hc⟩ := List.append_inj' h rfl
      exact .inl ⟨hp, List.singleton_inj.1 hc⟩
    · exact .inr h
  · rintro (⟨rfl, rfl⟩ | h)
    · exact .inl rfl
    · exact .inr h

theorem isFresh_ofRequests (tree : Tree w n V) (requests : List (List (Request n V))) :
    (ofRequests tree requests).IsFresh := by
  intro c client h
  rw [clients_ofRequests] at h
  obtain ⟨_, _, rfl⟩ := Option.map_eq_some_iff.1 h
  exact ⟨rfl, rfl⟩

theorem IsFresh.not_answered (fresh : start.IsFresh) : ¬start.Answered c r request reply := by
  rintro ⟨client, hc, h⟩
  rw [(fresh c client hc).1] at h
  cases h

theorem IsFresh.not_hasWritten (fresh : start.IsFresh) : ¬start.HasWritten c r entry := by
  rintro ⟨client, hc, ⟨reply, h⟩ | ⟨_, stage, h, _⟩⟩
  · rw [(fresh c client hc).1] at h
    cases h
  · rw [(fresh c client hc).2] at h
    cases h

section Run

variable (hw : 0 < w) (wide : w < 2 ^ 29) (ok : start.Ok) (fresh : start.IsFresh)

include hw wide ok

theorem hasWritten_run_snoc : (start.run (schedule ++ [d])).HasWritten c r entry ↔
    (start.run schedule).HasWritten c r entry ∨
      c = d ∧ (start.run schedule).Writes c r entry := by
  rw [run_snoc]
  exact (ok.run wide schedule).hasWritten_moves hw wide (step_moves _ d)

include fresh

/-- The writes that were made are those of the puts that are past their write. -/
theorem exists_writes_iff : (∃ p, p ++ [c] <+: schedule ∧ (start.run p).Writes c r entry) ↔
    (start.run schedule).HasWritten c r entry := by
  induction schedule using List.reverseRecOn with
  | nil => simpa using fresh.not_hasWritten
  | append_singleton schedule d ih =>
    rw [hasWritten_run_snoc hw wide ok, ← ih]
    -- Either the last step makes the write, or an earlier one did.
    constructor
    · rintro ⟨p, hp, hwrites⟩
      rcases begins_snoc_iff.1 hp with ⟨rfl, rfl⟩ | hp
      · exact .inr ⟨rfl, hwrites⟩
      · exact .inl ⟨p, hp, hwrites⟩
    · rintro (⟨p, hp, hwrites⟩ | ⟨rfl, hwrites⟩)
      · exact ⟨p, begins_snoc_iff.2 (.inr hp), hwrites⟩
      · exact ⟨schedule, List.prefix_rfl, hwrites⟩

theorem writes_unique (hp : p ++ [c] <+: schedule) (hq : q ++ [c] <+: schedule)
    (first : (start.run p).Writes c r entry) (second : (start.run q).Writes c r other) : p = q := by
  induction schedule using List.reverseRecOn with
  | nil => simp at hp
  | append_singleton schedule d ih =>
    -- A write in the last step finds the put before its write, so there was none earlier.
    rcases begins_snoc_iff.1 hp with ⟨rfl, rfl⟩ | earlier
    · rcases begins_snoc_iff.1 hq with ⟨rfl, _⟩ | earlier
      · rfl
      · have written := (exists_writes_iff hw wide ok fresh).1 ⟨q, earlier, second⟩
        exact absurd written first.not_hasWritten
    · rcases begins_snoc_iff.1 hq with ⟨rfl, rfl⟩ | early
      · have written := (exists_writes_iff hw wide ok fresh).1 ⟨p, earlier, first⟩
        exact absurd written second.not_hasWritten
      · exact ih earlier early

/-- Every reply was given in a step, and tells what the tree held after it. -/
theorem exists_answer (h : (start.run schedule).Answered c r request reply) :
    ∃ p, p ++ [c] <+: schedule ∧ (start.run p).Serves c r request ∧
      (start.run (p ++ [c])).Answered c r request reply ∧
      request.IsAnswered (start.run (p ++ [c])).tree reply ∧ (start.run p).effect? c = none := by
  induction schedule using List.reverseRecOn with
  | nil => exact absurd h fresh.not_answered
  | append_singleton schedule d ih =>
    have moves := step_moves (start.run schedule) d
    rw [← run_snoc] at moves
    rcases (ok.run wide schedule).answered_moves hw wide moves h with
      hbefore | ⟨rfl, serves, answered, effect⟩
    · obtain ⟨p, hp, hrest⟩ := ih hbefore
      exact ⟨p, begins_snoc_iff.2 (.inr hp), hrest⟩
    · exact ⟨schedule, List.prefix_rfl, serves, h, answered, effect⟩

omit hw fresh

theorem requests_run (c : Nat) : (start.run schedule).clients[c]?.map Client.requests =
    start.clients[c]?.map Client.requests := by
  induction schedule using List.reverseRecOn with
  | nil => rfl
  | append_singleton schedule d ih =>
    rw [run_snoc, ← ih]
    exact (ok.run wide schedule).requests_moves wide (step_moves _ d)

end Run

end System

end FanoutIndex

import FanoutIndex.Proofs.Protocol.Nesting
import FanoutIndex.Proofs.Protocol.Writers

/-!
# What calls cost

An operation spends the events of its script and never gets one back. Each call on a version is
followed here through what it spent: an answer that makes the operation try again costs an event,
and where no event happened the tree is as it was. Nothing is asked of the tree; only what happens
at an event has to keep to the script and to close its brackets.
-/

namespace FanoutIndex

variable {w n : Nat} {V : Type}

namespace Run

/-- One run becomes another by these calls of its own operation, with so many retries. Each retry
is paid for by an event, and what other clients call stands in brackets. -/
structure Spends (run after : Run w n V) (own : List (Call V)) (retries : Nat) : Prop where
  trace : ∃ made,
    after.trace.map Array.toList = run.trace.map (fun before => before.toList ++ made) ∧
      Whole made own
  paid : retries + after.script.length ≤ run.script.length

/-- No event happened on the way from one run to the other. -/
def Undisturbed (run after : Run w n V) : Prop := after.script.length = run.script.length

variable {run mid after : Run w n V} {own more : List (Call V)} {retries others : Nat}

theorem Spends.refl (run : Run w n V) : run.Spends run [] 0 where
  trace := ⟨[], by simp, .nil⟩
  paid := (Nat.zero_add _).le

theorem Spends.trans (first : run.Spends mid own retries) (second : mid.Spends after more others) :
    run.Spends after (own ++ more) (retries + others) where
  trace := by
    obtain ⟨made, htrace, hwhole⟩ := first.trace
    obtain ⟨later, htrace', hwhole'⟩ := second.trace
    refine ⟨made ++ later, ?_, hwhole.append hwhole'⟩
    have h := congrArg (Option.map (· ++ later)) htrace
    rw [htrace']
    simpa [Function.comp_def] using h
  paid := by
    have hfirst := first.paid
    have hsecond := second.paid
    omega

theorem Spends.noting (h : run.Spends after own retries) {call : Call V}
    (whole : Whole [call] more) : run.Spends (after.noted call) (own ++ more) retries where
  trace := by
    obtain ⟨made, htrace, hwhole⟩ := h.trace
    exact ⟨made ++ [call], trace_noted call htrace, hwhole.append whole⟩
  paid := h.paid

theorem Spends.noted (h : run.Spends after own retries) {call : Call V} (mine : call.isOwn = true) :
    run.Spends (after.noted call) (own ++ [call]) retries := h.noting (.single mine)

theorem Spends.tells (h : run.Spends after own retries) {calls : List (Call V)}
    (mine : ∀ call ∈ calls, call.isOwn = true) :
    run.Spends (after.tells calls) (own ++ calls) retries := by
  induction calls generalizing after own with
  | nil =>
    rw [List.append_nil]
    exact h
  | cons call rest ih =>
    have hrest := ih (h.noted (mine call List.mem_cons_self))
      fun c hc => mine c (List.mem_cons_of_mem _ hc)
    rwa [List.append_assoc] at hrest

/-- The operation of another client, between its marks. -/
theorem Spends.bracketed {first last : Call V} (h : (run.noted first).Spends after own retries)
    (whole : ∀ made, Whole made own → Whole (first :: (made ++ [last])) []) :
    run.Spends (after.noted last) [] 0 where
  trace := by
    obtain ⟨made, htrace, hwhole⟩ := h.trace
    have hmade : after.trace.map Array.toList =
        run.trace.map fun before => before.toList ++ first :: made := by
      rw [htrace]
      simp [Run.noted, Function.comp_def]
    exact ⟨_, trace_noted last hmade, whole made hwhole⟩
  paid := (Nat.zero_add _).trans_le ((Nat.le_add_left _ _).trans h.paid)

theorem Spends.withTree (h : run.Spends after own retries) (tree : Tree w n V) :
    run.Spends { after with tree := tree } own retries := ⟨h.trace, h.paid⟩

theorem Spends.shrinks (h : run.Spends after own retries) :
    after.script.length ≤ run.script.length := (Nat.le_add_left _ _).trans h.paid

/-- Where an event happened, one retry more is paid for. -/
theorem Spends.retried (h : run.Spends after own 0) (disturbed : ¬run.Undisturbed after) :
    run.Spends after own 1 where
  trace := h.trace
  paid := by
    have hle := h.shrinks
    rw [Undisturbed] at disturbed
    omega

theorem Spends.undisturbed_iff (first : run.Spends mid own retries)
    (second : mid.Spends after more others) :
    run.Undisturbed after ↔ run.Undisturbed mid ∧ mid.Undisturbed after := by
  have hfirst := first.shrinks
  have hsecond := second.shrinks
  simp only [Undisturbed]
  omega

theorem Spends.retries_eq_zero (h : run.Spends after own retries) (calm : run.Undisturbed after) :
    retries = 0 := by
  have hpaid := h.paid
  rw [Undisturbed] at calm
  omega

end Run

namespace Operation

open Run Protocol

/-- What other clients do at an event spends events only, and stands in brackets. -/
def Fair (react : Reaction w n V) : Prop :=
  ∀ event i run after, exec (react event i) run = some (.ok (), after) → run.Spends after [] 0

variable {react : Reaction w n V} {i : Nat} {run after : Run w n V} {token : Token}

theorem exec_encode_eq_ok {bytes : Bytes} {key : Key n}
    (h : exec (encode bytes) run = some (.ok key, after)) :
    run.tree.encode bytes = .ok key ∧ run = after := by
  rw [exec_encode] at h
  exact Prod.ext_iff.1 (Option.some.inj h)

theorem spends_forM (fair : Fair react) {due : List (Event V)}
    (h : exec (due.forM fun event => react event i) run = some (.ok (), after)) :
    run.Spends after [] 0 := by
  induction due generalizing run with
  | nil =>
    cases h
    exact .refl _
  | cons event rest ih =>
    rw [forM_cons] at h
    obtain ⟨_, mid, hevent, hrest⟩ := exec_bind_eq_ok h
    exact (fair event i run mid hevent).trans (ih hrest)

theorem spends_disturbed (fair : Fair react) {site : Site} {failed : Bool}
    (h : exec (disturbed react site i) run = some (.ok failed, after)) :
    run.Spends after [] 0 ∧ (run.Undisturbed after → failed = false ∧ after.tree = run.tree) := by
  have hlength := Event.length_afterCallOf site run.script
  rw [disturbed, exec_bind_ok (exec_takeDue run site)] at h
  obtain ⟨_, mid, hforM, hend⟩ := exec_bind_eq_ok h
  cases hend
  obtain ⟨htrace, hpaid⟩ := spends_forM fair hforM
  simp only [Nat.zero_add] at hpaid
  refine ⟨⟨htrace, by omega⟩, fun calm => ?_⟩
  rw [Undisturbed] at calm
  have hnone : Event.dueAt site run.script = [] := List.eq_nil_of_length_eq_zero (by omega)
  rw [hnone] at hforM ⊢
  cases hforM
  exact ⟨rfl, rfl⟩

theorem spends_stable (fair : Fair react)
    (h : exec (stable react i) run = some (.ok token, after)) :
    run.Spends after [.stable i token] 0 ∧ (after.tree.node i).version.stable? = some token ∧
      (run.Undisturbed after → after.tree = run.tree) := by
  rw [stable] at h
  obtain ⟨failed, mid, hdisturbed, h⟩ := exec_bind_eq_ok h
  obtain ⟨hspends, hcalm⟩ := spends_disturbed fair hdisturbed
  rw [exec_bind_ok (exec_version mid i)] at h
  cases hword : (mid.tree.node i).version.stable? with
  | none =>
    rw [hword] at h
    cases h
  | some word =>
    rw [hword] at h
    cases h
    exact ⟨hspends.noted rfl, hword, fun calm => (hcalm calm).2⟩

theorem spends_hasChanged (fair : Fair react) {answer : Bool}
    (h : exec (hasChanged react i token) run = some (.ok answer, after))
    (current : (run.tree.node i).version.stable? = some token) :
    run.Spends after [.hasChanged i token answer] answer.toNat ∧
      (answer = false → (after.tree.node i).version.stable? = some token) ∧
      (run.Undisturbed after → after.tree = run.tree) := by
  rw [hasChanged] at h
  obtain ⟨failed, mid, hdisturbed, h⟩ := exec_bind_eq_ok h
  obtain ⟨hspends, hcalm⟩ := spends_disturbed fair hdisturbed
  rw [exec_bind_ok (exec_version mid i)] at h
  obtain ⟨answer', hanswer⟩ :
    ∃ answer', answer' = (failed || (mid.tree.node i).version.hasChanged token) := ⟨_, rfl⟩
  rw [← hanswer] at h
  cases h
  have hnoted := hspends.noted (show (Call.hasChanged i token answer).isOwn = true from rfl)
  refine ⟨?_, ?_, fun calm => (hcalm calm).2⟩
  · cases answer with
    | false => exact hnoted
    | true =>
      refine hnoted.retried fun calm => ?_
      obtain ⟨rfl, htree⟩ := hcalm calm
      rw [htree, Version.hasChanged_of_stable? current] at hanswer
      cases hanswer
  · rintro rfl
    have hsame := Version.hasChanged_eq_false_iff.1 (Bool.or_eq_false_iff.1 hanswer.symm).2
    obtain ⟨hrest, rfl⟩ := Version.stable?_eq_some_iff.1 current
    refine Version.stable?_eq_some_iff.2 ⟨?_, hsame.symm⟩
    rwa [Version.isBusy_eq_false_iff, hsame, ← Version.isBusy_eq_false_iff]

theorem spends_tryLock (fair : Fair react) {lock : Option Lock}
    (h : exec (tryLock react i) run = some (.ok lock, after))
    (current : (run.tree.node i).version.stable? = some token) :
    lock = none ∧ run.Spends after [.tryLock i false] 1 ∨
      lock = some ⟨i⟩ ∧ run.Spends after [.tryLock i true] 0 ∧
        (run.Undisturbed after → (after.tree.node i).version.hasChangedLocked token = false) := by
  rw [tryLock] at h
  obtain ⟨failed, mid, hdisturbed, h⟩ := exec_bind_eq_ok h
  obtain ⟨hspends, hcalm⟩ := spends_disturbed fair hdisturbed
  obtain ⟨hrest, rfl⟩ := Version.stable?_eq_some_iff.1 current
  rw [exec_bind_ok (exec_version mid i)] at h
  cases hlock : if failed then none else (mid.tree.node i).version.tryLock? with
  | none =>
    simp only [hlock] at h
    cases h
    refine .inl ⟨rfl, (hspends.noted rfl).retried fun calm => ?_⟩
    obtain ⟨rfl, htree⟩ := hcalm calm
    simp [htree, Version.tryLock?, hrest] at hlock
  | some version =>
    simp only [hlock] at h
    cases h
    refine .inr ⟨rfl, (hspends.withTree _).noted rfl, fun calm => ?_⟩
    obtain ⟨rfl, htree⟩ := hcalm calm
    simp only [htree, Version.tryLock?, hrest, Bool.false_eq_true, if_false, Option.some.injEq]
      at hlock
    change ((mid.tree.setVersion i version).node i).version.hasChangedLocked _ = false
    rw [htree, ← hlock, Tree.node_setVersion]
    split
    · exact (Version.hasChangedLocked_locked_eq_false_iff hrest).2 rfl
    · -- A node that is not there is never locked.
      rw [Version.hasChangedLocked_eq_false_iff]
      rw [Version.isBusy_eq_false_iff] at hrest
      omega

/-- The owner of a lock is told whether the token is out of date, unless an event happened. -/
theorem spends_hasChangedLocked (fair : Fair react) {answer : Bool}
    (h : exec (hasChangedLocked react ⟨i⟩ token) run = some (.ok answer, after)) :
    run.Spends after [.hasChangedLocked i token answer] 0 ∧
      (answer = false → (after.tree.node i).version.hasChangedLocked token = false) ∧
      (run.Undisturbed after → answer = (run.tree.node i).version.hasChangedLocked token) := by
  rw [hasChangedLocked] at h
  obtain ⟨failed, mid, hdisturbed, h⟩ := exec_bind_eq_ok h
  obtain ⟨hspends, hcalm⟩ := spends_disturbed fair hdisturbed
  rw [exec_bind_ok (exec_version mid i)] at h
  obtain ⟨answer', hanswer⟩ :
    ∃ answer', answer' = (failed || (mid.tree.node i).version.hasChangedLocked token) := ⟨_, rfl⟩
  rw [← hanswer] at h
  cases h
  refine ⟨hspends.noted rfl, fun hno => ?_, fun calm => ?_⟩
  · rw [hno] at hanswer
    exact (Bool.or_eq_false_iff.1 hanswer.symm).2
  · obtain ⟨rfl, htree⟩ := hcalm calm
    rw [hanswer, htree, Bool.false_or]

theorem spends_unlock {lock : Lock} (h : exec (unlock lock) run = some (.ok (), after)) :
    ∃ version, run.Spends after [.unlock lock.node version] 0 := by
  rw [unlock, exec_bind_ok (exec_version run lock.node)] at h
  obtain ⟨version, mid, hunlock, h⟩ := exec_bind_eq_ok h
  obtain ⟨_, rfl⟩ := exec_ofExcept_eq_ok hunlock
  cases h
  exact ⟨version, ((Spends.refl run).withTree _).noted rfl⟩

theorem spends_markInsert {lock : Lock} (h : exec (markInsert lock) run = some (.ok (), after)) :
    ∃ version, run.Spends after [.markInsert lock.node version] 0 := by
  rw [markInsert, exec_bind_ok (exec_version run lock.node)] at h
  obtain ⟨version, mid, hmark, h⟩ := exec_bind_eq_ok h
  obtain ⟨_, rfl⟩ := exec_ofExcept_eq_ok hmark
  cases h
  exact ⟨version, ((Spends.refl run).withTree _).noted rfl⟩

end Operation

end FanoutIndex

import FanoutIndex.Access.Lemmas
import FanoutIndex.Access.Index
import FanoutIndex.Proofs.Scripted.Evolution

/-!
# Calls among events

Between two states of a run that nobody locked, the tree evolves by the changes that the trace
reports, and every change and every forced failure is paid for by an event of the script. Each call
on a version is specified in these terms, for any reaction that keeps to them.
-/

namespace FanoutIndex

variable {w n : Nat} {V : Type}

/-- An event of a script: a forced failure, a counted change, or a put of an accepted key where no
lock is held. -/
def Event.Admissible (width : Nat) (event : Event V) : Prop :=
  match event.disturbance with
  | .fail => True
  | .bump => True
  | .put key _ => key.length ≤ width ∧ event.site ≠ .hasChangedLocked
  | .get _ => False

def ScriptAdmissible (width : Nat) (script : List (Event V)) : Prop :=
  ∀ event ∈ script, event.Admissible width

theorem Event.admissible_afterCall {width : Nat} {event : Event V} (site : Site)
    (h : event.Admissible width) : (event.afterCall site).Admissible width := by
  unfold afterCall
  split_ifs
  · exact h
  · exact h

/-- A failure takes its event out of the script. -/
theorem Event.length_afterCallOf_lt {site : Site} {script : List (Event V)}
    (failed : (dueAt site script).any Event.isFailure = true) :
    (afterCallOf site script).length < script.length := by
  have hlength := length_afterCallOf site script
  obtain ⟨event, hevent, _⟩ := List.any_eq_true.1 failed
  have hpos := List.length_pos_of_mem hevent
  omega

theorem ScriptAdmissible.afterCallOf {width : Nat} {script : List (Event V)} (site : Site)
    (h : ScriptAdmissible width script) :
    ScriptAdmissible width (Event.afterCallOf site script) := by
  intro event hevent
  simp only [Event.afterCallOf, List.mem_map, List.mem_filter] at hevent
  obtain ⟨before, ⟨hmem, _⟩, rfl⟩ := hevent
  exact Event.admissible_afterCall site (h before hmem)

namespace Run

/-- A run on a settled tree whose events are admissible and fewer than the changes that a version
counts. -/
structure Ready (run : Run w n V) : Prop extends run.tree.Settled where
  admissible : ScriptAdmissible run.tree.keyWidth run.script
  few : run.script.length < 2 ^ 30

/-- One run becomes another by calls, with the changes that they report. -/
structure Leads (run after : Run w n V) (calls : List (Call V)) : Prop where
  tree : run.tree.Evolves (changesOf calls) after.tree
  trace : after.trace.map Array.toList = run.trace.map fun made => made.toList ++ calls
  admissible : ∀ width, ScriptAdmissible width run.script → ScriptAdmissible width after.script

/-- Every change is paid for by an event. -/
structure Passes (run after : Run w n V) (calls : List (Call V)) : Prop
    extends run.Leads after calls where
  cost : (changesOf calls).length + after.script.length ≤ run.script.length

variable {run mid after : Run w n V} {calls others : List (Call V)}

theorem Leads.trans (first : run.Leads mid calls) (second : mid.Leads after others) :
    run.Leads after (calls ++ others) where
  tree := by
    rw [changesOf_append]
    exact first.tree.trans second.tree
  trace := by
    have h := congrArg (Option.map (· ++ others)) first.trace
    rw [second.trace]
    simpa [Function.comp_def] using h
  admissible := fun width h => second.admissible width (first.admissible width h)

theorem Leads.ready (h : run.Leads after calls) (ready : run.Ready)
    (shrinks : after.script.length ≤ run.script.length) : after.Ready where
  toSettled := h.tree.settled ready.toSettled
  admissible := by
    rw [h.tree.keyWidth]
    exact h.admissible _ ready.admissible
  few := shrinks.trans_lt ready.few

theorem Leads.lt_size (h : run.Leads after calls) {i : Nat} (hi : i < run.tree.nodes.size) :
    i < after.tree.nodes.size :=
  hi.trans_le (h.tree.size (Nat.zero_lt_of_lt hi)).1

theorem Passes.refl (run : Run w n V) : run.Passes run [] where
  tree := .refl
  trace := by simp
  admissible := fun _ h => h
  cost := by simp [changesOf]

theorem Passes.trans (first : run.Passes mid calls) (second : mid.Passes after others) :
    run.Passes after (calls ++ others) where
  toLeads := first.toLeads.trans second.toLeads
  cost := by
    have hfirst := first.cost
    have hsecond := second.cost
    rw [changesOf_append, List.length_append]
    omega

theorem Passes.shrinks (h : run.Passes after calls) : after.script.length ≤ run.script.length :=
  (Nat.le_add_left _ _).trans h.cost

theorem Passes.ready (h : run.Passes after calls) (ready : run.Ready) : after.Ready :=
  h.toLeads.ready ready h.shrinks

/-- Nodes are created at the expense of events. -/
theorem Passes.bound (h : run.Passes after calls) (size : 0 < run.tree.nodes.size) :
    after.tree.nodes.size + after.script.length ≤ run.tree.nodes.size + run.script.length := by
  have hsize := (h.tree.size size).2
  have hcost := h.cost
  omega

/-- A version that is not as it was has seen a change, which cost an event. -/
theorem Passes.shrinks_of_word_ne (h : run.Passes after calls) {i : Nat}
    (changed : (after.tree.node i).version.word ≠ (run.tree.node i).version.word) :
    after.script.length < run.script.length := by
  have hcost := h.cost
  by_contra hle
  have hnil : changesOf calls = [] := List.eq_nil_of_length_eq_zero (by omega)
  have htree := h.tree
  rw [hnil] at htree
  rw [htree.eq_of_nil] at changed
  exact changed rfl

/-- A version that is as it was vouches for its node. -/
theorem Passes.face_eq (h : run.Passes after calls) (ready : run.Ready) {i : Nat}
    (hi : i < run.tree.nodes.size)
    (same : (after.tree.node i).version.word = (run.tree.node i).version.word) :
    after.tree.layout i = run.tree.layout i := by
  have hcost := h.cost
  have hfew := ready.few
  exact h.tree.face_eq hi (by omega) same

def noted (run : Run w n V) (call : Call V) : Run w n V :=
  { run with trace := run.trace.map (·.push call) }

@[simp]
theorem tree_noted (call : Call V) : (run.noted call).tree = run.tree := rfl

@[simp]
theorem script_noted (call : Call V) : (run.noted call).script = run.script := rfl

def locked (run : Run w n V) (i : Nat) : Run w n V :=
  { run with tree := run.tree.setVersion i (run.tree.node i).version.locked }

theorem tree_locked (run : Run w n V) (i : Nat) :
    (run.locked i).tree = run.tree.setVersion i (run.tree.node i).version.locked := rfl

theorem changesOf_snoc {call : Call V} (quiet : call.change? = none) :
    changesOf (calls ++ [call]) = changesOf calls := by
  simp [changesOf, quiet]

theorem trace_noted (call : Call V)
    (h : after.trace.map Array.toList = run.trace.map fun made => made.toList ++ calls) :
    (after.noted call).trace.map Array.toList =
      run.trace.map fun made => made.toList ++ (calls ++ [call]) := by
  have h := congrArg (Option.map (· ++ [call])) h
  simp only [Option.map_map] at h
  simp only [Run.noted, Option.map_map]
  convert h using 2
  · funext made
    simp
  · funext made
    simp

theorem Leads.noted (h : run.Leads after calls) (call : Call V) (quiet : call.change? = none) :
    run.Leads (after.noted call) (calls ++ [call]) where
  tree := by
    rw [changesOf_snoc quiet]
    exact h.tree
  trace := trace_noted call h.trace
  admissible := h.admissible

theorem Passes.noted (h : run.Passes after calls) (call : Call V) (quiet : call.change? = none) :
    run.Passes (after.noted call) (calls ++ [call]) where
  toLeads := h.toLeads.noted call quiet
  cost := by
    rw [changesOf_snoc quiet]
    exact h.cost

end Run

namespace Operation

open Run

/-- What a reaction keeps to while at most the given number of events is left, the one that it
reacts to included. On a locked node it leaves everything as it is. -/
structure Reacts (react : Reaction w n V) (levels : Nat) : Prop where
  atRest : ∀ (event : Event V) (i : Nat) (run : Run w n V), run.Ready → i < run.tree.nodes.size →
    event.Admissible run.tree.keyWidth → event.site ≠ .hasChangedLocked →
    run.script.length < levels →
    ∃ after calls, (react event i).exec run = some (.ok (), after) ∧ run.Leads after calls ∧
      after.script.length ≤ run.script.length ∧
      (changesOf calls).length + after.script.length + (if event.isFailure then 1 else 0) ≤
        run.script.length + 1
  locked : ∀ (event : Event V) (i : Nat) (run : Run w n V) (width : Nat),
    (run.tree.node i).version.isBusy = true → event.Admissible width →
    event.site = .hasChangedLocked →
    ∃ after calls, (react event i).exec run = some (.ok (), after) ∧ run.Leads after calls ∧
      after.tree = run.tree ∧ after.script = run.script ∧ changesOf calls = []

variable {react : Reaction w n V} {levels i : Nat} {run : Run w n V}

theorem exec_scripted {α : Type} (body : Reaction w n V → Operation w n V α) (run : Run w n V) :
    exec (scripted body) run = exec (body (interfere run.script.length)) run := by
  rw [scripted, exec_bind_ok (exec_eventsLeft run)]

theorem forM_cons (react : Event V → Operation w n V Unit) (event : Event V)
    (rest : List (Event V)) :
    (event :: rest).forM react = react event >>= fun _ => rest.forM react := rfl

theorem exec_forM_atRest (reacts : Reacts react levels) (due : List (Event V)) (ready : run.Ready)
    (hi : i < run.tree.nodes.size) (admissible : ScriptAdmissible run.tree.keyWidth due)
    (free : ∀ event ∈ due, event.site ≠ .hasChangedLocked)
    (depth : run.script.length + due.length ≤ levels) :
    ∃ after calls, (due.forM fun event => react event i).exec run = some (.ok (), after) ∧
      run.Leads after calls ∧ after.script.length ≤ run.script.length ∧
      (changesOf calls).length + after.script.length + due.countP Event.isFailure ≤
        run.script.length + due.length := by
  induction due generalizing run with
  | nil => exact ⟨run, [], rfl, (Passes.refl run).toLeads, Nat.le_refl _, by simp [changesOf]⟩
  | cons event rest ih =>
    rw [List.length_cons] at depth
    obtain ⟨mid, first, hexec, hleads, hshrinks, hcost⟩ := reacts.atRest event i run ready hi
      (admissible event List.mem_cons_self) (free event List.mem_cons_self) (by omega)
    have hwidth : mid.tree.keyWidth = run.tree.keyWidth := hleads.tree.keyWidth
    obtain ⟨after, second, hexec', hleads', hshrinks', hcost'⟩ := ih
      (hleads.ready ready hshrinks) (hleads.lt_size hi)
      (by rw [hwidth]; exact fun e he => admissible e (List.mem_cons_of_mem _ he))
      (fun e he => free e (List.mem_cons_of_mem _ he)) (by omega)
    refine ⟨after, first ++ second, ?_, hleads.trans hleads', by omega, ?_⟩
    · rw [forM_cons, exec_bind_ok hexec]
      exact hexec'
    · rw [changesOf_append, List.length_append, List.countP_cons, List.length_cons]
      omega

theorem exec_forM_locked (run : Run w n V) (reacts : Reacts react levels)
    (due : List (Event V)) {width : Nat}
    (busy : (run.tree.node i).version.isBusy = true) (admissible : ScriptAdmissible width due)
    (held : ∀ event ∈ due, event.site = .hasChangedLocked) :
    ∃ after calls, (due.forM fun event => react event i).exec run = some (.ok (), after) ∧
      run.Leads after calls ∧ after.tree = run.tree ∧ after.script = run.script ∧
      changesOf calls = [] := by
  induction due generalizing run with
  | nil => exact ⟨run, [], rfl, (Passes.refl run).toLeads, rfl, rfl, rfl⟩
  | cons event rest ih =>
    obtain ⟨mid, first, hexec, hleads, htree, hscript, hquiet⟩ := reacts.locked event i run width
      busy (admissible event List.mem_cons_self) (held event List.mem_cons_self)
    obtain ⟨after, second, hexec', hleads', htree', hscript', hquiet'⟩ := ih mid
      (by rw [htree]; exact busy)
      (fun e he => admissible e (List.mem_cons_of_mem _ he))
      (fun e he => held e (List.mem_cons_of_mem _ he))
    refine ⟨after, first ++ second, ?_, hleads.trans hleads', htree'.trans htree,
      hscript'.trans hscript, by rw [changesOf_append, hquiet, hquiet']; rfl⟩
    rw [forM_cons, exec_bind_ok hexec]
    exact hexec'

theorem site_of_mem_dueAt {site : Site} {script : List (Event V)} {event : Event V}
    (h : event ∈ Event.dueAt site script) : event.site = site := by
  simp only [Event.dueAt, List.mem_filter, Event.isDue, Bool.and_eq_true, beq_iff_eq] at h
  exact h.2.1

theorem admissible_dueAt {site : Site} {script : List (Event V)} {width : Nat}
    (h : ScriptAdmissible width script) : ScriptAdmissible width (Event.dueAt site script) :=
  fun event hevent => h event (List.mem_of_mem_filter hevent)

theorem exec_disturbed (react : Reaction w n V) (site : Site) (i : Nat) (run after : Run w n V)
    (h : ((Event.dueAt site run.script).forM fun event => react event i).exec
      { run with script := Event.afterCallOf site run.script } = some (.ok (), after)) :
    exec (disturbed react site i) run =
      some (.ok ((Event.dueAt site run.script).any Event.isFailure), after) := by
  rw [disturbed, exec_bind_ok (exec_takeDue run site), exec_bind_ok h, exec_pure]

/-- The events at a call without a lock: a failure costs an event that changed nothing. -/
theorem exec_disturbed_atRest (reacts : Reacts react levels) (site : Site)
    (free : site ≠ .hasChangedLocked) (ready : run.Ready) (hi : i < run.tree.nodes.size)
    (depth : run.script.length ≤ levels) :
    ∃ failed after calls, exec (disturbed react site i) run = some (.ok failed, after) ∧
      run.Passes after calls ∧
      (failed = true → after.script.length < run.script.length) := by
  have hlength := Event.length_afterCallOf site run.script
  have hready : Ready { run with script := Event.afterCallOf site run.script } :=
    ⟨ready.toSettled, ready.admissible.afterCallOf site,
      (show (Event.afterCallOf site run.script).length ≤ run.script.length by omega).trans_lt
        ready.few⟩
  obtain ⟨after, calls, hexec, hleads, hshrinks, hcost⟩ := exec_forM_atRest reacts
    (Event.dueAt site run.script) hready hi (admissible_dueAt ready.admissible)
    (fun event hevent => by rw [site_of_mem_dueAt hevent]; exact free)
    (by simp only; omega)
  simp only at hshrinks hcost
  refine ⟨_, after, calls, exec_disturbed react site i run after hexec, ⟨⟨hleads.tree,
    hleads.trace, fun width h => hleads.admissible width (h.afterCallOf site)⟩, by omega⟩, ?_⟩
  intro hfailed
  have hpos : 0 < (Event.dueAt site run.script).countP Event.isFailure := by
    rw [List.countP_pos_iff]
    simpa using hfailed
  omega

/-- The events at a call under a lock. -/
theorem exec_disturbed_locked (run : Run w n V) (reacts : Reacts react levels) {width : Nat}
    (admissible : ScriptAdmissible width run.script)
    (busy : (run.tree.node i).version.isBusy = true) :
    ∃ failed after calls,
      exec (disturbed react .hasChangedLocked i) run = some (.ok failed, after) ∧
      run.Leads after calls ∧ after.tree = run.tree ∧ changesOf calls = [] ∧
      after.script.length ≤ run.script.length ∧
      (failed = true → after.script.length < run.script.length) := by
  have hlength := Event.length_afterCallOf .hasChangedLocked run.script
  obtain ⟨after, calls, hexec, hleads, htree, hscript, hquiet⟩ := exec_forM_locked
    { run with script := Event.afterCallOf .hasChangedLocked run.script } reacts
    (Event.dueAt .hasChangedLocked run.script) busy (admissible_dueAt admissible)
    (fun event hevent => site_of_mem_dueAt hevent)
  refine ⟨_, after, calls, exec_disturbed react .hasChangedLocked i run after hexec,
    ⟨hleads.tree, hleads.trace, fun width h => hleads.admissible width (h.afterCallOf _)⟩, htree,
    hquiet, by rw [hscript]; simp only; omega, ?_⟩
  rw [hscript]
  exact Event.length_afterCallOf_lt

end Operation

end FanoutIndex

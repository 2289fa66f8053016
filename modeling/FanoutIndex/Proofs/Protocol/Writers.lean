import FanoutIndex.Proofs.Protocol.Attempts
import FanoutIndex.Proofs.Scripted.Built
import FanoutIndex.Proofs.Tree.Trail

/-!
# Puts follow the write protocol

Forced failures and counted changes leave every layout as it is, so all attempts of a put walk down
the same nodes. Each part of a search is followed here through the calls that it made when it
returned; that it returns is known of all searches already.
-/

namespace FanoutIndex

variable {w n : Nat} {V : Type}

/-- A forced failure, or a change that another client counts. -/
def Event.isNudge (event : Event V) : Bool :=
  match event.disturbance with
  | .fail | .bump => true
  | .put _ _ | .get _ => false

def Nudged (script : List (Event V)) : Prop := ∀ event ∈ script, event.isNudge = true

namespace Nudged

variable {script : List (Event V)}

theorem admissible (h : Nudged script) (width : Nat) : ScriptAdmissible width script := by
  intro event hevent
  have hnudge := h event hevent
  unfold Event.isNudge at hnudge
  unfold Event.Admissible
  cases hcase : event.disturbance <;> simp_all

theorem afterCallOf (h : Nudged script) (site : Site) :
    Nudged (Event.afterCallOf site script) := by
  intro event hevent
  simp only [Event.afterCallOf, List.mem_map, List.mem_filter] at hevent
  obtain ⟨before, ⟨hmem, _⟩, rfl⟩ := hevent
  have hsame : (before.afterCall site).disturbance = before.disturbance := by
    unfold Event.afterCall
    split_ifs <;> rfl
  have hnudge := h before hmem
  unfold Event.isNudge at hnudge ⊢
  rw [hsame]
  exact hnudge

end Nudged

namespace Run

/-- One run becomes another by these calls of its own operation and nudges of other clients. -/
structure Makes (run after : Run w n V) (calls : List (Call V)) : Prop where
  layout : after.tree.layout = run.tree.layout
  size : after.tree.nodes.size = run.tree.nodes.size
  trace : ∃ made,
    after.trace.map Array.toList = run.trace.map (fun before => before.toList ++ made) ∧
      ownCalls made = calls
  nudged : Nudged run.script → Nudged after.script

variable {run mid after : Run w n V} {calls others : List (Call V)} {i : Nat}

theorem Makes.refl (run : Run w n V) : run.Makes run [] where
  layout := rfl
  size := rfl
  trace := ⟨[], by simp, rfl⟩
  nudged := id

theorem Makes.trans (first : run.Makes mid calls) (second : mid.Makes after others) :
    run.Makes after (calls ++ others) where
  layout := second.layout.trans first.layout
  size := second.size.trans first.size
  trace := by
    obtain ⟨made, htrace, rfl⟩ := first.trace
    obtain ⟨more, htrace', rfl⟩ := second.trace
    refine ⟨made ++ more, ?_, ownCalls_append ..⟩
    have h := congrArg (Option.map (· ++ more)) htrace
    rw [htrace']
    simpa [Function.comp_def] using h
  nudged := second.nudged ∘ first.nudged

theorem Makes.noted (h : run.Makes after calls) (call : Call V) :
    run.Makes (after.noted call) (calls ++ ownCalls [call]) where
  layout := h.layout
  size := h.size
  trace := by
    obtain ⟨made, htrace, rfl⟩ := h.trace
    exact ⟨made ++ [call], trace_noted call htrace, ownCalls_append ..⟩
  nudged := h.nudged

theorem Makes.setVersion (h : run.Makes after calls) (i : Nat) (version : Version) :
    run.Makes { after with tree := after.tree.setVersion i version } calls where
  layout := (Tree.layout_setVersion version).trans h.layout
  size := (Tree.size_setVersion version).trans h.size
  trace := h.trace
  nudged := h.nudged

theorem Makes.trailFrom_eq (h : run.Makes after calls) (key : Key n) (i : Nat) :
    after.tree.trailFrom key i = run.tree.trailFrom key i := Tree.trailFrom_congr h.layout key i

theorem eq_locked {version : Version} (h : (run.tree.node i).version = version.locked)
    (hi : i < run.tree.nodes.size) :
    run = Run.locked { run with tree := run.tree.setVersion i version } i := by
  rw [Run.locked]
  simp only [Tree.version_setVersion hi, Tree.setVersion_setVersion]
  rw [← h, Tree.setVersion_version]

end Run

namespace Operation

open Run Protocol

variable {levels i d : Nat} {run after : Run w n V} {key : Key n} {token : Token}

section Nudges

theorem exec_interfere_nudge {event : Event V} (nudge : event.isNudge = true) (levels i : Nat)
    (run : Run w n V) :
    ∃ after, (interfere levels event i).exec run = some (.ok (), after) ∧ run.Makes after [] ∧
      ((run.tree.node i).version.isBusy = true →
        (after.tree.node i).version = (run.tree.node i).version) := by
  obtain ⟨site, call, disturbance⟩ := event
  cases levels with
  | zero => exact ⟨run, rfl, .refl run, fun _ => rfl⟩
  | succ levels =>
    cases disturbance with
    | fail => exact ⟨run, rfl, .refl run, fun _ => rfl⟩
    | bump =>
      cases hrest : (run.tree.node i).version.isBusy with
      | true => exact ⟨_, exec_bump_busy hrest, (Makes.refl run).noted _, fun _ => rfl⟩
      | false =>
        exact ⟨_, exec_bump_atRest hrest, ((Makes.refl run).setVersion i _).noted _,
          fun h => absurd h Bool.false_ne_true⟩
    | put bytes value => cases nudge
    | get bytes => cases nudge

/-- A locked node stays as it is whatever the nudges at a call. -/
theorem exec_disturbed_nudged (levels i : Nat) (site : Site) (nudged : Nudged run.script) :
    ∃ failed after, exec (disturbed (interfere levels) site i) run = some (.ok failed, after) ∧
      run.Makes after [] ∧
      ((run.tree.node i).version.isBusy = true →
        (after.tree.node i).version = (run.tree.node i).version) := by
  have heach (due : List (Event V)) (hdue : Nudged due) (run : Run w n V) :
      ∃ after, (due.forM fun event => interfere levels event i).exec run = some (.ok (), after) ∧
        run.Makes after [] ∧ ((run.tree.node i).version.isBusy = true →
          (after.tree.node i).version = (run.tree.node i).version) := by
    induction due generalizing run with
    | nil => exact ⟨run, rfl, .refl run, fun _ => rfl⟩
    | cons event rest ih =>
      obtain ⟨mid, hexec, hmakes, hheld⟩ :=
        exec_interfere_nudge (hdue event List.mem_cons_self) levels i run
      obtain ⟨after, hexec', hmakes', hheld'⟩ :=
        ih (fun e he => hdue e (List.mem_cons_of_mem _ he)) mid
      refine ⟨after, ?_, hmakes.trans hmakes', fun busy => ?_⟩
      · rw [forM_cons, exec_bind_ok hexec]
        exact hexec'
      · rw [hheld' (by rwa [hheld busy]), hheld busy]
  obtain ⟨after, hexec, hmakes, hheld⟩ := heach (Event.dueAt site run.script)
    (fun event hevent => nudged event (List.mem_of_mem_filter hevent))
    { run with script := Event.afterCallOf site run.script }
  exact ⟨_, after, exec_disturbed _ site i run after hexec,
    ⟨hmakes.layout, hmakes.size, hmakes.trace, fun h => hmakes.nudged (h.afterCallOf site)⟩, hheld⟩

end Nudges

section Calls

theorem makes_stable (nudged : Nudged run.script)
    (h : exec (stable (interfere levels) i) run = some (.ok token, after)) :
    run.Makes after [.stable i token] := by
  obtain ⟨failed, mid, hexec, hmakes, _⟩ := exec_disturbed_nudged levels i .stable nudged
  rw [stable, exec_bind_ok hexec, exec_bind_ok (exec_version mid i)] at h
  cases hword : (mid.tree.node i).version.stable? with
  | none =>
    rw [hword] at h
    cases h
  | some word =>
    rw [hword] at h
    cases h
    exact hmakes.noted _

theorem exec_hasChanged_nudged (levels i : Nat) (token : Token) (nudged : Nudged run.script) :
    ∃ answer after, exec (hasChanged (interfere levels) i token) run = some (.ok answer, after) ∧
      run.Makes after [.hasChanged i token answer] := by
  obtain ⟨failed, mid, hexec, hmakes, _⟩ := exec_disturbed_nudged levels i .hasChanged nudged
  refine ⟨_, _, ?_, hmakes.noted (.hasChanged i token
    (failed || (mid.tree.node i).version.hasChanged token))⟩
  rw [hasChanged, exec_bind_ok hexec, exec_bind_ok (exec_version mid i)]
  rfl

theorem exec_tryLock_nudged (levels : Nat) (nudged : Nudged run.script)
    (hi : i < run.tree.nodes.size) :
    (∃ after, exec (tryLock (interfere levels) i) run = some (.ok none, after) ∧
      run.Makes after [.tryLock i false]) ∨
    ∃ after, ∃ version : Version,
      exec (tryLock (interfere levels) i) run = some (.ok (some ⟨i⟩), after) ∧
      run.Makes after [.tryLock i true] ∧ version.isBusy = false ∧
      (after.tree.node i).version = version.locked := by
  obtain ⟨failed, mid, hexec, hmakes, _⟩ := exec_disturbed_nudged levels i .tryLock nudged
  by_cases hfree : failed = false ∧ (mid.tree.node i).version.isBusy = false
  · obtain ⟨rfl, hrest⟩ := hfree
    refine .inr ⟨_, (mid.tree.node i).version, ?_, (hmakes.setVersion i _).noted (.tryLock i true),
      hrest, Tree.version_setVersion (hmakes.size ▸ hi)⟩
    rw [tryLock, exec_bind_ok hexec, exec_bind_ok (exec_version mid i)]
    simp only [Version.tryLock?, hrest]
    rfl
  · have hnone : (if failed then none else (mid.tree.node i).version.tryLock?) = none := by
      simp only [Version.tryLock?]
      cases failed <;> simp_all
    refine .inl ⟨_, ?_, hmakes.noted (.tryLock i false)⟩
    rw [tryLock, exec_bind_ok hexec, exec_bind_ok (exec_version mid i)]
    simp only [hnone]
    rfl

theorem exec_hasChangedLocked_nudged (levels : Nat) (token : Token) (nudged : Nudged run.script)
    {version : Version} (rest : version.isBusy = false)
    (held : (run.tree.node i).version = version.locked) :
    ∃ answer after,
      exec (hasChangedLocked (interfere levels) ⟨i⟩ token) run = some (.ok answer, after) ∧
      run.Makes after [.hasChangedLocked i token answer] ∧
      (after.tree.node i).version = version.locked ∧ (answer = false → version.word = token) := by
  obtain ⟨failed, mid, hexec, hmakes, hkept⟩ :=
    exec_disturbed_nudged levels i .hasChangedLocked nudged
  have hbusy := Version.isBusy_of_isLocked (Version.isLocked_locked rest)
  rw [held] at hkept
  refine ⟨_, _, ?_, hmakes.noted (.hasChangedLocked i token
    (failed || (mid.tree.node i).version.hasChangedLocked token)), hkept hbusy, fun hno => ?_⟩
  · rw [hasChangedLocked, exec_bind_ok hexec, exec_bind_ok (exec_version mid i)]
    rfl
  · have hword := (Bool.or_eq_false_iff.1 hno).2
    rwa [hkept hbusy, Version.hasChangedLocked_locked_eq_false_iff rest] at hword

end Calls

section Searches

/-- A node is locked as it was when the token was taken, or the attempt is given up. -/
theorem exec_lockUnchanged_nudged (levels : Nat) (token : Token) (nudged : Nudged run.script)
    (hi : i < run.tree.nodes.size) :
    (∃ after retreat, exec (lockUnchanged (interfere levels) i token) run = some (.ok none, after) ∧
      run.Makes after (Retreat.calls i token retreat)) ∨
    ∃ after, exec (lockUnchanged (interfere levels) i token) run = some (.ok (some ⟨i⟩), after) ∧
      run.Makes after (lockCalls i token) ∧ Version.isBusy ⟨token⟩ = false ∧
      (after.tree.node i).version = Version.locked ⟨token⟩ := by
  obtain ⟨answer, asked, hasked, hfirst⟩ := exec_hasChanged_nudged levels i token nudged
  cases answer with
  | true => exact .inl ⟨asked, .changed, exec_lockUnchanged_changed hasked, hfirst⟩
  | false =>
    rcases exec_tryLock_nudged levels (hfirst.nudged nudged) (hfirst.size ▸ hi) with
      ⟨mid, htry, hsecond⟩ | ⟨mid, version, htry, hsecond, hrest, hheld⟩
    · exact .inl ⟨mid, .refused, exec_lockUnchanged_refused hasked htry, hfirst.trans hsecond⟩
    have hpath := hfirst.trans hsecond
    obtain ⟨answer, after, hconfirm, hthird, hheld', hword⟩ :=
      exec_hasChangedLocked_nudged levels token (hpath.nudged nudged) hrest hheld
    have hall := hpath.trans hthird
    cases answer with
    | true =>
      have hunlock : (after.tree.node i).version.unlock = .ok version := by
        rw [hheld', Version.unlock_locked hrest]
      exact .inl ⟨_, .late version,
        exec_lockUnchanged_late hasked htry hconfirm (exec_unlock after hunlock),
        (hall.setVersion i version).noted (.unlock i version)⟩
    | false =>
      -- Confirmed under the lock, the version is that of the token.
      obtain rfl : version = ⟨token⟩ := congrArg Version.mk (hword rfl)
      exact .inr ⟨after, exec_lockUnchanged_held hasked htry hconfirm, hall, hrest, hheld'⟩

theorem makes_scan {rescans : Nat} {found : Route w} (nudged : Nudged run.script)
    (h : exec (scan (interfere levels) key i rescans) run = some (.ok (found, token), after)) :
    found = (run.tree.node i).route key ∧
      ∃ stale, run.Makes after (Visit.calls ⟨i, stale, token⟩) := by
  -- Nudges change versions only, so every scan of the node gives the same route.
  induction rescans generalizing run with
  | zero => cases h
  | succ rescans ih =>
    rw [scan] at h
    obtain ⟨word, mid, hstable, h⟩ := exec_bind_eq_ok h
    have hfirst := makes_stable nudged hstable
    obtain ⟨answer, asked, hasked, hsecond⟩ :=
      exec_hasChanged_nudged levels i word (hfirst.nudged nudged)
    rw [exec_bind_ok (exec_node mid i), exec_bind_ok hasked] at h
    have hboth := hfirst.trans hsecond
    cases answer with
    | true =>
      obtain ⟨rfl, stale, hrest⟩ := ih (hboth.nudged nudged) h
      exact ⟨Node.route_congr key (congrFun hboth.layout i), word :: stale, hboth.trans hrest⟩
    | false =>
      cases h
      exact ⟨Node.route_congr key (congrFun hfirst.layout i), [], hboth⟩

theorem makes_descendFrom {hops : Nat} {answer : Option (Target w)} (nudged : Nudged run.script)
    (hi : i < run.tree.nodes.size)
    (h : exec (descendFrom (interfere levels) key hops i d) run = some (.ok answer, after)) :
    ∃ walk : Walk, walk.nodes = run.tree.trailFrom key i ∧
      ((answer = none ∧ ∃ retreat, run.Makes after (Attempt.calls ⟨walk, retreat⟩)) ∨
        ∃ e, answer = some ⟨⟨walk.last.node⟩, (run.tree.targetFrom key i).2, e⟩ ∧
          run.Makes after (walk.calls ++ lockCalls walk.last.node walk.last.token) ∧
          Version.isBusy ⟨walk.last.token⟩ = false ∧
          (after.tree.node walk.last.node).version = Version.locked ⟨walk.last.token⟩) := by
  -- One node of the trail for each hop. The trail is that of the tree before: no link changes.
  induction hops generalizing run i d with
  | zero => cases h
  | succ hops ih =>
    rw [descendFrom, route] at h
    obtain ⟨⟨found, word⟩, mid, hscan, h⟩ := exec_bind_eq_ok h
    rw [exec_bind_ok (exec_eventsLeft run)] at hscan
    obtain ⟨rfl, stale, hvisit⟩ := makes_scan nudged hscan
    have hmid := hvisit.nudged nudged
    cases hturn : ((run.tree.node i).route key).turn with
    | down child =>
      simp only [hturn] at h
      have hchild := (run.tree.lt_of_turn_down hturn).2
      obtain ⟨htrail, htarget⟩ := Tree.trailFrom_of_down hturn
      obtain ⟨walk, hnodes, hcases⟩ := ih hmid (hvisit.size ▸ hchild) h
      have hlater := Tree.targetFrom_congr hvisit.layout key child
      refine ⟨walk.under ⟨i, stale, word⟩, ?_, hcases.imp ?_ ?_⟩
      · rw [Walk.nodes_under, hnodes, htrail, hvisit.trailFrom_eq]
      · rintro ⟨hnone, retreat, hmakes⟩
        refine ⟨hnone, retreat, ?_⟩
        rw [Attempt.calls, Walk.calls_under, List.append_assoc]
        exact hvisit.trans hmakes
      · rintro ⟨e, htarget', hmakes, hheld⟩
        refine ⟨e, ?_, ?_, hheld⟩
        · rw [htarget', htarget, hlater]
          rfl
        · rw [Walk.calls_under, List.append_assoc]
          exact hvisit.trans hmakes
    | here place =>
      simp only [hturn] at h
      obtain ⟨htrail, htarget⟩ := Tree.trailFrom_of_here hturn
      have hwalk : (Walk.calls ⟨[], ⟨i, stale, word⟩⟩ : List (Call V)) =
          Visit.calls ⟨i, stale, word⟩ := List.append_nil _
      refine ⟨⟨[], ⟨i, stale, word⟩⟩, htrail.symm, ?_⟩
      simp only [Attempt.calls, hwalk, htarget]
      rcases exec_lockUnchanged_nudged levels word hmid (hvisit.size ▸ hi) with
        ⟨after', retreat, hexec, hmakes⟩ | ⟨after', hexec, hmakes, hheld⟩
      · rw [exec_bind_ok hexec] at h
        cases h
        exact .inl ⟨rfl, retreat, hvisit.trans hmakes⟩
      · rw [exec_bind_ok hexec] at h
        cases h
        exact .inr ⟨d, rfl, hvisit.trans hmakes, hheld⟩

theorem makes_attempt {restarts : Nat} {target : Target w} (nudged : Nudged run.script)
    (size : 0 < run.tree.nodes.size)
    (h : exec (attempt (interfere levels) key restarts) run = some (.ok target, after)) :
    ∃ (failed : List Attempt) (walk : Walk) (e : Nat),
      (∀ attempt ∈ failed, attempt.walk.nodes = run.tree.trail key) ∧
      walk.nodes = run.tree.trail key ∧
      target = ⟨⟨walk.last.node⟩, (run.tree.target key).2, e⟩ ∧
      run.Makes after (failed.flatMap Attempt.calls ++
        (walk.calls ++ lockCalls walk.last.node walk.last.token)) ∧
      Version.isBusy ⟨walk.last.token⟩ = false ∧
      (after.tree.node walk.last.node).version = Version.locked ⟨walk.last.token⟩ := by
  induction restarts generalizing run with
  | zero => cases h
  | succ restarts ih =>
    rw [attempt, exec_bind_ok (exec_hopLimit run)] at h
    obtain ⟨answer, mid, hdescend, h⟩ := exec_bind_eq_ok h
    obtain ⟨walk, hnodes, ⟨rfl, retreat, hmakes⟩ | ⟨e, rfl, hend⟩⟩ :=
      makes_descendFrom nudged size hdescend
    · -- The attempt that was given up stands before those that the next one starts.
      obtain ⟨failed, last, e, hfailed, hlast, htarget, hrest, hheld⟩ :=
        ih (hmakes.nudged nudged) (hmakes.size ▸ size) h
      have htrail : mid.tree.trail key = run.tree.trail key := hmakes.trailFrom_eq key root
      rw [htrail] at hfailed hlast
      refine ⟨⟨walk, retreat⟩ :: failed, last, e, ?_, hlast, ?_, ?_, hheld⟩
      · simpa [hnodes] using ⟨rfl, hfailed⟩
      · rw [htarget, Tree.target, Tree.targetFrom_congr hmakes.layout]
        rfl
      · rw [List.flatMap_cons, List.append_assoc]
        exact hmakes.trans hrest
    · cases h
      exact ⟨[], walk, e, fun _ h => absurd h List.not_mem_nil, hnodes, rfl, hend⟩

theorem makes_findLocked {target : Target w} (nudged : Nudged run.script)
    (size : 0 < run.tree.nodes.size)
    (h : exec (findLocked (interfere levels) key) run = some (.ok target, after)) :
    ∃ (failed : List Attempt) (walk : Walk) (e : Nat),
      (∀ attempt ∈ failed, attempt.walk.nodes = run.tree.trail key) ∧
      walk.nodes = run.tree.trail key ∧
      target = ⟨⟨walk.last.node⟩, (run.tree.target key).2, e⟩ ∧
      run.Makes after (failed.flatMap Attempt.calls ++
        (walk.calls ++ lockCalls walk.last.node walk.last.token)) ∧
      Version.isBusy ⟨walk.last.token⟩ = false ∧
      (after.tree.node walk.last.node).version = Version.locked ⟨walk.last.token⟩ := by
  rw [findLocked, exec_bind_ok (exec_eventsLeft run)] at h
  exact makes_attempt nudged size h

theorem last_node_eq {walk : Walk} {tree : Tree w n V} (h : walk.nodes = tree.trail key) :
    walk.last.node = (tree.target key).1 := by
  obtain ⟨above, htrail, _⟩ := tree.exists_trail_eq key
  rw [htrail, Walk.nodes, Walk.visits, List.map_append] at h
  exact List.singleton_inj.1 (List.append_inj_right' h rfl)

end Searches

theorem exec_write_held {place : Place w} (value : V) (d : Nat) (hi : i < run.tree.nodes.size)
    (rest : Version.isBusy ⟨token⟩ = false)
    (held : (run.tree.node i).version = Version.locked ⟨token⟩)
    (hend : (run.tree.layout i).Routes key place.route) :
    ∃ after, exec (underLock ⟨i⟩ (write ⟨⟨i⟩, place, d⟩ key value)) run = some (.ok (), after) ∧
      after.trace.map Array.toList =
        run.trace.map fun made => made.toList ++ writeCalls i token place := by
  let free : Run w n V := { run with tree := run.tree.setVersion i ⟨token⟩ }
  have hversion : (free.tree.node i).version = ⟨token⟩ := Tree.version_setVersion hi
  have hwrite : exec (underLock ⟨i⟩ (write ⟨⟨i⟩, place, d⟩ key value)) (free.locked i) = _ :=
    exec_write_tells free value (by rwa [Tree.size_setVersion]) (by rwa [hversion])
      (by rwa [Tree.layout_setVersion])
  rw [hversion, ← eq_locked held hi] at hwrite
  exact ⟨_, hwrite, free.trace_tells _⟩

variable {tree : Tree w n V} {bytes : Bytes}

/-- A put among forced failures and counted changes follows the protocol: all its attempts walk
down the trail of its key, only the last one gets the lock and writes, and it holds one lock at a
time. -/
theorem put_follows_protocol (built : tree.Built) {script : List (Event V)} (nudged : Nudged script)
    (few : script.length < 2 ^ 30) (accepted : tree.encode bytes = .ok key) (value : V) :
    ∃ (after : Run w n V) (calls : Array (Call V)) (failed : List Attempt) (walk : Walk),
      exec (put bytes value .own) ⟨tree, script, some #[]⟩ = some (.ok (), after) ∧
      after.trace = some calls ∧
      ownCalls calls.toList = putCalls failed walk (tree.target key).2 ∧
      (∀ attempt ∈ failed, attempt.walk.nodes = tree.trail key) ∧
      walk.nodes = tree.trail key ∧ OneLock calls.toList := by
  have ready : Ready ⟨tree, script, some #[]⟩ := ⟨built.settled, nudged.admissible _, few⟩
  obtain ⟨mid, _, j, e, place, _, hfind, _⟩ :=
    exec_findLocked (reacts_interfere script.length) ready (Nat.le_refl _) key
  obtain ⟨failed, walk, d, hfailed, hwalk, htarget, hmakes, hrest, hheld⟩ :=
    makes_findLocked nudged ready.size hfind
  rw [htarget] at hfind
  generalize mid.locked j = found at hfind hmakes hheld
  -- The last walk ends at the target, so that is where the write finds its place.
  have hi : walk.last.node < found.tree.nodes.size := by
    rw [last_node_eq hwalk, hmakes.size]
    exact tree.lt_of_path ready.size (tree.path_target key)
  have hroutes : (found.tree.layout walk.last.node).Routes key (tree.target key).2.route := by
    rw [last_node_eq hwalk, hmakes.layout]
    exact tree.routes_target key
  obtain ⟨after, hwrite, htrace⟩ := exec_write_held value d hi hrest hheld hroutes
  obtain ⟨_, hsame, hmade⟩ := hmakes.trace
  obtain ⟨made, hfound, rfl⟩ := Option.map_eq_some_iff.1 hsame
  rw [hfound] at htrace
  obtain ⟨calls, hcalls, hlist⟩ := Option.map_eq_some_iff.1 htrace
  have hown : ownCalls calls.toList = putCalls failed walk (tree.target key).2 := by
    have hwritten : ownCalls (writeCalls walk.last.node walk.last.token (tree.target key).2 :
        List (Call V)) = writeCalls walk.last.node walk.last.token (tree.target key).2 := by
      cases (tree.target key).2 <;> rfl
    rw [hlist, ownCalls_append, hwritten, hmade, putCalls]
    simp only [List.append_assoc]
  refine ⟨after, calls, failed, walk, ?_, hcalls, hown, hfailed, hwalk, .of_ownCalls ?_⟩
  · rw [put, exec_scripted, putWith, checkGuard, exec_bind_ok (exec_pure _ ()),
      exec_bind_ok (exec_encode_ok accepted), exec_bind_ok hfind]
    exact hwrite
  · rw [hown]
    exact oneLock_put failed walk _

/-- A change is counted while the root is scanned. Then the question before the lock fails, then the
lock, and then a change is counted just before the lock is taken. The fourth attempt writes. -/
theorem put_follows_protocol_nudged :
    ∃ (after : Run 1 1 Nat) (calls : Array (Call Nat)) (failed : List Attempt) (walk : Walk),
      exec (put [97] 7 .own) ⟨.empty 8, [⟨.hasChanged, 1, .bump⟩, ⟨.hasChanged, 3, .fail⟩,
        ⟨.tryLock, 1, .fail⟩, ⟨.tryLock, 2, .bump⟩], some #[]⟩ = some (.ok (), after) ∧
      after.trace = some calls ∧
      ownCalls calls.toList = putCalls failed walk
        ((Tree.empty 8 : Tree 1 1 Nat).target ⟨#v[0x6100000000000000]⟩).2 ∧
      (∀ attempt ∈ failed, attempt.walk.nodes =
        (Tree.empty 8 : Tree 1 1 Nat).trail ⟨#v[0x6100000000000000]⟩) ∧
      walk.nodes = (Tree.empty 8 : Tree 1 1 Nat).trail ⟨#v[0x6100000000000000]⟩ ∧
      OneLock calls.toList := by
  have built : (Tree.empty 8 : Tree 1 1 Nat).Built :=
    .empty (show Tree.ofConfig ({} : Config) = .ok (Tree.empty 8) from rfl)
  exact put_follows_protocol built (by simp [Nudged, Event.isNudge]) (by decide) rfl 7

end Operation

end FanoutIndex

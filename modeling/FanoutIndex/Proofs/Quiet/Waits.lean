import FanoutIndex.Proofs.Quiet.Sessions

namespace FanoutIndex

variable {w n : Nat} {V α β : Type}

namespace Operation

open Run

variable {held : Option Lock}

theorem exec_underLock_none {body : Operation w n V α} {run : Run w n V} (lock : Lock)
    (h : exec body run = none) : exec (underLock lock body) run = none := by
  have houtcome : exec (outcome body) run = none := by
    change (exec body run).map _ = _
    rw [h]
    rfl
  exact exec_bind_none houtcome

section Rows

variable {run : Run w n V}

/-- Looking at items in turn never ends if one of them is waited for and none is refused. -/
theorem exec_mapM_none {items : List α} {look : α → Operation w n V β}
    (each : ∀ a ∈ items, ∀ calls, exec (look a) (run.tells calls) = none ∨
      ∃ b others, exec (look a) (run.tells calls) = some (.ok b, (run.tells calls).tells others))
    (never : ∃ a ∈ items, ∀ calls, exec (look a) (run.tells calls) = none) :
    exec (items.mapM look) run = none := by
  induction items generalizing run with
  | nil =>
    obtain ⟨_, h, _⟩ := never
    cases h
  | cons a rest ih =>
    rw [List.mapM_cons]
    rcases each a List.mem_cons_self [] with hnone | ⟨b, calls, hok⟩
    · exact exec_bind_none hnone
    · refine (exec_bind_ok hok).trans (exec_bind_none (ih ?_ ?_))
      · intro c hc others
        have h := each c (List.mem_cons_of_mem _ hc) (calls ++ others)
        rwa [tells_append] at h
      · obtain ⟨c, hc, hnever⟩ := never
        rcases List.mem_cons.1 hc with rfl | hc
        · cases (hnever []).symm.trans hok
        · refine ⟨c, hc, fun others => ?_⟩
          have h := hnever (calls ++ others)
          rwa [tells_append] at h

/-- Puts in turn never end if one of them is waited for before any is refused. -/
theorem exec_puts_barred (key : α → Bytes) (value : α → V) (items : List α)
    (still : run.script = []) (size : 0 < run.tree.nodes.size)
    (barred : run.tree.BarsOne (items.map fun a => (key a, value a))) :
    exec (items.forM fun a => put (key a) (value a) .own) run = none := by
  induction items generalizing run with
  | nil => exact absurd barred id
  | cons a rest ih =>
    rcases barred with ⟨k, accepted, barred⟩ | ⟨k, accepted, later⟩
    · exact exec_bind_none (exec_put_busy run still accepted barred (value a))
    · -- The put before may be waited for as well, which the premise leaves open.
      by_cases clear : run.tree.Clear k
      · have hput := exec_put_still run still size accepted clear (value a)
        refine (exec_bind_ok hput).trans (ih ((script_tells run _).trans still) ?_ later)
        exact size.trans_le (Tree.size_insert_le k (value a) size).1
      · exact exec_bind_none (exec_put_busy run still accepted clear (value a))

end Rows

section Commands

variable {run : Run w n String} {path : Path} {bytes : Bytes} {key : Key n}

/-- The keys of a series are all refused or none, so a route through a locked node is taken. -/
theorem exec_series_barred {series : Series} {look : Bytes × String → Operation w n String β}
    (barred : ∃ entry ∈ series.entries, run.tree.Bars entry.1)
    (waits : ∀ entry k calls, run.tree.encode entry.1 = .ok k → ¬run.tree.Clear k →
      exec (look entry) (run.tells calls) = none)
    (ends : ∀ entry k calls, run.tree.encode entry.1 = .ok k → run.tree.Clear k →
      ∃ b others, exec (look entry) (run.tells calls) =
        some (.ok b, (run.tells calls).tells others)) :
    exec (series.entries.mapM look) run = none := by
  obtain ⟨entry, hentry, k, accepted, hk⟩ := barred
  refine exec_mapM_none (fun other hother calls => ?_) ⟨entry, hentry, fun calls =>
    waits entry k calls accepted hk⟩
  cases hencode : run.tree.encode other.1 with
  | error fault =>
    cases accepted.symm.trans
      (encode_error_of_length (length_entries_series hother hentry) hencode)
  | ok l =>
    by_cases clear : run.tree.Clear l
    · exact .inr (ends other l calls hencode clear)
    · exact .inl (waits other l calls hencode clear)

theorem exec_bind_anyKey {next : Key n → Operation w n String β}
    (fits : Key.ofBytes n bytes = .ok key) (run : Run w n String) :
    exec (anyKey bytes >>= next) run = exec (next key) run := by
  refine exec_bind_ok ?_
  rw [exec_anyKey, fits]

theorem exec_scripted_bind_none {body : Reaction w n String → Operation w n String α}
    {next : α → Operation w n String β}
    (h : exec (body (interfere run.script.length)) run = none) :
    exec (scripted body >>= next) run = none := by
  apply exec_bind_none
  rw [exec_scripted]
  exact h

theorem exec_countFound_none {series : Series} (still : run.script = [])
    (size : 0 < run.tree.nodes.size) (barred : ∃ entry ∈ series.entries, run.tree.Bars entry.1) :
    exec (countFound series) run = none := by
  rw [countFound]
  refine exec_bind_none (exec_series_barred barred ?_ ?_)
  · intro entry k calls accepted barred
    rw [← tree_tells run calls] at accepted barred
    exact exec_bind_none (exec_get_busy _ ((script_tells run calls).trans still) accepted barred)
  · intro entry k calls accepted clear
    rw [← tree_tells run calls] at accepted clear size
    exact ⟨_, _, exec_bind_ok
      (exec_get_still _ ((script_tells run calls).trans still) size accepted clear)⟩

theorem exec_depthOfSeries_none {series : Series} (still : run.script = [])
    (size : 0 < run.tree.nodes.size) (waits : (Command.depthOfSeries series).Waits run) :
    exec (perform held (.depthOfSeries series)) run = none := by
  rw [perform]
  refine exec_bind_none (exec_series_barred waits ?_ ?_)
  · intro entry k calls accepted barred
    rw [← tree_tells run calls] at accepted barred
    exact exec_depthOf_busy _ ((script_tells run calls).trans still) accepted barred
  · intro entry k calls accepted clear
    rw [← tree_tells run calls] at accepted clear size
    exact ⟨_, _, exec_depthOf_still _ ((script_tells run calls).trans still) size accepted clear⟩

theorem exec_routed_none (still : run.script = []) (waits : (Command.route path bytes).Waits run) :
    exec (perform held (.route path bytes)) run = none := by
  obtain ⟨i, k, ends, fits, busy⟩ := waits
  rw [perform]
  refine (exec_bind_ok ends).trans ((exec_bind_anyKey fits run).trans ?_)
  exact exec_scripted_bind_none (exec_route_busy run still busy)

theorem exec_routesAgree_none {a b : Bytes} (still : run.script = [])
    (waits : (Command.routesAgree path a b).Waits run) :
    exec (perform held (.routesAgree path a b)) run = none := by
  obtain ⟨i, k, l, ends, fits, fits', busy⟩ := waits
  rw [perform]
  refine (exec_bind_ok ends).trans ((exec_bind_anyKey fits run).trans
    ((exec_bind_anyKey fits' run).trans ?_))
  exact exec_scripted_bind_none (exec_route_busy run still busy)

/-- A command that takes a route through a locked node never ends. -/
theorem exec_perform_none {command : Command} (still : run.script = [])
    (size : 0 < run.tree.nodes.size) (waits : command.Waits run) :
    exec (perform held command) run = none := by
  cases command with
  | put key value guard =>
    obtain ⟨rfl, k, accepted, barred⟩ := waits
    rw [perform]
    exact exec_bind_none (exec_put_busy run still accepted barred value)
  | putEach keys value guard =>
    obtain ⟨rfl, barred⟩ := waits
    rw [perform]
    exact exec_bind_none (exec_puts_barred id (fun _ => value) keys still size barred)
  | putSeries series isReversed =>
    rw [perform]
    refine exec_bind_none (exec_puts_barred Prod.fst Prod.snd _ still size ?_)
    rw [List.map_id']
    exact waits
  | get key guard =>
    obtain ⟨rfl, k, accepted, barred⟩ := waits
    rw [perform]
    exact exec_bind_none (exec_get_busy run still accepted barred)
  | depthOf key =>
    obtain ⟨k, accepted, barred⟩ := waits
    rw [perform]
    exact exec_bind_none (exec_depthOf_busy run still accepted barred)
  | getSeries series =>
    rw [perform]
    exact exec_countFound_none still size waits
  | depthOfSeries => exact exec_depthOfSeries_none still size waits
  | find key =>
    obtain ⟨k, fits, barred⟩ := waits
    rw [perform, exec_bind_anyKey fits]
    exact exec_scripted_bind_none (exec_find_busy run still barred)
  | lock key body =>
    obtain ⟨k, fits, barred⟩ := waits
    rw [perform, exec_bind_anyKey fits]
    exact exec_scripted_bind_none (exec_findLocked_busy run still barred)
  | route => exact exec_routed_none still waits
  | routesAgree => exact exec_routesAgree_none still waits
  | _ => exact absurd waits id

end Commands

section Sessions

variable {run : Run w n String}

def SessionWaits (w n : Nat) (commands : List Command) : Prop :=
  ∀ (held : Option Lock) (run : Run w n String), run.Serves held → ¬Unbarred held run commands →
    (performEach held commands).run run = none

theorem sessionWaits_nil : SessionWaits w n [] :=
  fun _ _ _ barred => absurd (fun _ _ _ h => by cases h) barred

theorem answered_none {body : Operation w n String (Answer w)} (h : exec body run = none) :
    (answered body).run run = none := by
  rw [answered, StateT.run_bind]
  change (exec body run).bind _ = none
  rw [h]
  rfl

theorem sessionWaits_cons {command : Command} {rest : List Command}
    (first : ∀ (held : Option Lock) (run : Run w n String), run.Serves held →
      ¬Unbarred held run [command] → exec (perform held command) run = none)
    (others : SessionWaits w n rest) : SessionWaits w n (command :: rest) := by
  intro held run serves barred
  by_cases free : Unbarred held run [command]
  · -- The first command ends, so what waits is among the others.
    obtain ⟨result, mid, hfirst, _⟩ := commandKeeps command held run serves free
    obtain ⟨answer, hanswer⟩ := exec_answered hfirst.ends
    have hrest : (performEach held rest).run mid = none := by
      apply others held mid (serves.next hfirst.still hfirst.shelters)
      intro hfree
      apply barred
      intro lock there nested h
      cases h with
      | here => exact free _ _ _ .here
      | later first h =>
        cases hanswer.symm.trans first
        exact hfree _ _ _ h
      | underTarget fits finds inside => exact free _ _ _ (.underTarget fits finds inside)
      | underNode ends locks inside => exact free _ _ _ (.underNode ends locks inside)
    rw [performEach_cons hanswer, hrest]
    rfl
  · rw [performEach, StateT.run_bind, answered_none (first held run serves free)]
    rfl

theorem exec_lock_none {body : List Command} (inner : SessionWaits w n body) (bytes : Bytes)
    (serves : run.Serves held) (free : ¬(Command.lock bytes body).Waits run)
    (barred : ¬Unbarred held run [.lock bytes body]) :
    exec (perform held (.lock bytes body)) run = none := by
  obtain ⟨lock, there, nested, h, hwaits⟩ : ∃ lock there nested,
      Performs held run [.lock bytes body] (some lock) there nested ∧ nested.Waits there := by
    simpa [Unbarred] using barred
  cases h with
  | here => exact absurd hwaits free
  | later _ h => cases h
  | @underTarget _ _ _ mid _ _ _ _ _ key target fits finds inside =>
    have clear : run.tree.Clear key := by
      by_contra barred
      exact free ⟨key, fits, barred⟩
    have hserves : mid.Serves (some target.lock) := serves.underTarget clear finds
    have hbody := inner _ mid hserves fun hfree => hfree _ _ _ inside hwaits
    rw [perform, exec_bind_anyKey fits, exec_bind_ok finds, exec_bind_ok (exec_describeTarget _ _)]
    exact exec_bind_none (exec_underLock_none _ (exec_liftM_none hbody))

theorem exec_lockNode_none {body : List Command} (inner : SessionWaits w n body) (path : Path)
    (serves : run.Serves held) (barred : ¬Unbarred held run [.lockNode path body]) :
    exec (perform held (.lockNode path body)) run = none := by
  obtain ⟨lock, there, nested, h, hwaits⟩ : ∃ lock there nested,
      Performs held run [.lockNode path body] (some lock) there nested ∧ nested.Waits there := by
    simpa [Unbarred] using barred
  cases h with
  | here => exact absurd hwaits id
  | later _ h => cases h
  | @underNode _ _ _ mid _ _ _ _ _ i lock ends locks inside =>
    have hbody := inner _ mid (serves.underNode ends locks) fun hfree => hfree _ _ _ inside hwaits
    rw [perform]
    refine (exec_bind_ok ends).trans ((exec_bind_ok locks).trans ?_)
    exact exec_bind_none (exec_underLock_none _ (exec_liftM_none hbody))

mutual

theorem exec_perform_barred (command : Command) (held : Option Lock) (run : Run w n String)
    (serves : run.Serves held) (barred : ¬Unbarred held run [command]) :
    exec (perform held command) run = none := by
  by_cases free : command.Waits run
  · exact exec_perform_none serves.still serves.size free
  · cases command with
    | lock key body => exact exec_lock_none (sessionWaits body) key serves free barred
    | lockNode path body => exact exec_lockNode_none (sessionWaits body) path serves barred
    | _ =>
      refine absurd (fun lock there nested h => ?_) barred
      cases h with
      | here => exact free
      | later _ h => cases h

theorem sessionWaits (commands : List Command) : SessionWaits w n commands := by
  cases commands with
  | nil => exact sessionWaits_nil
  | cons command rest =>
    exact sessionWaits_cons (exec_perform_barred command) (sessionWaits rest)

end

/-- A session ends if and only if no command under a lock takes a route through a locked node. -/
theorem performEach_isSome_iff {tree : Tree w n String} (settled : tree.Settled)
    (commands : List Command) :
    ((performEach none commands).run (.quiet tree)).isSome = true ↔
      Unbarred none (.quiet tree) commands := by
  have serves := Run.serves_quiet settled
  constructor
  · intro h
    by_contra barred
    rw [sessionWaits commands none _ serves barred] at h
    cases h
  · intro free
    obtain ⟨answers, after, h, _⟩ := sessionKeeps commands none _ serves free
    rw [h]
    rfl

end Sessions

end Operation

end FanoutIndex

import FanoutIndex.Proofs.Quiet.Writes

/-!
# Sessions

Commands nest: those that lock a node run others under its lock. Each command of a session leaves
the locks of the commands around it as they are and gives its own back, so between the commands of
the outermost level no node is locked. A command that ends with a fault has changed nothing.
-/

namespace FanoutIndex

variable {w n : Nat} {V : Type}

/-- What a command that ended with a fault has left behind: every node in use as it was. Where keys
are put in turn, those before the refused one stay. -/
def Command.Spares (fault : Fault) (run after : Run w n String) : Command → Prop
  | .putEach keys value guard => ∃ done key rest, keys = done ++ key :: rest ∧
    Operation.exec (done.forM fun key => Operation.put key value guard) run =
      some (.ok (), after) ∧
    Operation.exec (Operation.put key value guard) after = some (.error fault, after)
  | _ => run.tree.Intact after.tree

namespace Run

variable {held : Option Lock} {i : Nat}

section Entering

open Operation

variable {run mid : Run w n String}

theorem Serves.underTarget {key : Key n} {target : Target w} (serves : run.Serves held)
    (clear : run.tree.Clear key)
    (finds : exec (scripted fun react => findLocked react key) run = some (.ok target, mid)) :
    mid.Serves (some target.lock) := by
  rw [exec_scripted, exec_findLocked_still run serves.still serves.size clear] at finds
  cases finds
  exact serves.inside (Tree.target_lt serves.size key) (clear _ (run.tree.target_mem_trail key)) _

theorem Serves.underNode {path : Path} {lock : Lock} (serves : run.Serves held)
    (ends : run.Ends path i)
    (locks : exec (scripted fun react => tryLock react i) run = some (.ok (some lock), mid)) :
    mid.Serves (some lock) := by
  rw [exec_scripted] at locks
  cases hbusy : (run.tree.node i).version.isBusy with
  | true =>
    rw [exec_tryLock_busy run serves.still hbusy] at locks
    cases locks
  | false =>
    rw [exec_tryLock_still run serves.still hbusy] at locks
    cases locks
    exact serves.inside (lt_of_walk serves.size ends) hbusy [.tryLock i true]

end Entering

end Run

namespace Operation

open Run

/-- A session performs a command: under which lock, and on which run. -/
inductive Performs : Option Lock → Run w n String → List Command →
    Option Lock → Run w n String → Command → Prop
  | here {held : Option Lock} {run : Run w n String} {command : Command} {rest : List Command} :
    Performs held run (command :: rest) held run command
  | later {held inner : Option Lock} {run mid there : Run w n String} {command nested : Command}
      {rest : List Command} {answer : Answer w}
      (first : (answered (perform held command)).run run = some (answer, mid))
      (others : Performs held mid rest inner there nested) :
    Performs held run (command :: rest) inner there nested
  | underTarget {held inner : Option Lock} {run mid there : Run w n String} {nested : Command}
      {rest body : List Command} {bytes : Bytes} {key : Key n} {target : Target w}
      (fits : Key.ofBytes n bytes = .ok key)
      (finds : exec (scripted fun react => findLocked react key) run = some (.ok target, mid))
      (inside : Performs (some target.lock) mid body inner there nested) :
    Performs held run (.lock bytes body :: rest) inner there nested
  | underNode {held inner : Option Lock} {run mid there : Run w n String} {nested : Command}
      {rest body : List Command} {path : Path} {i : Nat} {lock : Lock} (ends : run.Ends path i)
      (locks : exec (scripted fun react => tryLock react i) run = some (.ok (some lock), mid))
      (inside : Performs (some lock) mid body inner there nested) :
    Performs held run (.lockNode path body :: rest) inner there nested

/-- No command that a session performs under a lock takes a route through a locked node. -/
def Unbarred (held : Option Lock) (run : Run w n String) (commands : List Command) : Prop :=
  ∀ lock there nested, Performs held run commands (some lock) there nested → ¬nested.Waits there

variable {held : Option Lock}

section Unbarred

variable {run mid : Run w n String} {command : Command} {commands rest : List Command}

theorem Performs.append {inner : Option Lock} {there : Run w n String} {nested : Command}
    (h : Performs held run commands inner there nested) (rest : List Command) :
    Performs held run (commands ++ rest) inner there nested := by
  induction h with
  | here => exact .here
  | later first _ ih => exact .later first ih
  | underTarget fits finds inside _ => exact .underTarget fits finds inside
  | underNode ends locks inside _ => exact .underNode ends locks inside

theorem Unbarred.of_append (free : Unbarred held run (commands ++ rest)) :
    Unbarred held run commands :=
  fun lock there nested h => free lock there nested (h.append rest)

theorem Unbarred.head (free : Unbarred held run (command :: rest)) :
    Unbarred held run [command] := fun lock there nested h => free lock there nested (h.append rest)

theorem Unbarred.not_waits (free : Unbarred held run (command :: rest))
    (serves : run.Serves held) : ¬command.Waits run := by
  cases held with
  | none => exact Command.not_waits (serves.outermost rfl) serves.size command
  | some lock => exact free lock run command .here

theorem Unbarred.tail {answer : Answer w} (free : Unbarred held run (command :: rest))
    (first : (answered (perform held command)).run run = some (answer, mid)) :
    Unbarred held mid rest :=
  fun lock there nested h => free lock there nested (.later first h)

end Unbarred

/-- A session runs to its end, under any lock, and keeps the locks of others. -/
def SessionKeeps (w n : Nat) (commands : List Command) : Prop :=
  ∀ (held : Option Lock) (run : Run w n String), run.Serves held → Unbarred held run commands →
    ∃ answers after, (performEach held commands).run run = some (answers, after) ∧
      answers.length = commands.length ∧ after.script = [] ∧ run.tree.Shelters held after.tree

/-- A command does so, and changes nothing in a fault. -/
def CommandKeeps (w n : Nat) (command : Command) : Prop :=
  ∀ (held : Option Lock) (run : Run w n String), run.Serves held → Unbarred held run [command] →
    ∃ result after, Keeps held (perform held command) run result after ∧
      ∀ fault, result = .error fault → command.Spares fault run after

section Scopes

variable {run : Run w n String} {body : List Command} {i : Nat}

theorem exec_describeTarget (target : Target w) (run : Run w n String) :
    exec (describeTarget target) run = some (.ok (.record "WriteTarget"
      [("node", (run.tree.node target.lock.node).described), ("slot", .ofNat target.place.index),
        ("kind", .word target.place.name),
        ("lock", (run.tree.node target.lock.node).version.describedLock)]
      false), run) := rfl

theorem exec_underLock_keeps (keeps : SessionKeeps w n body) (serves : run.Serves held)
    (hi : i < run.tree.nodes.size) (rest : (run.tree.node i).version.isBusy = false)
    (calls : List (Call String))
    (free : Unbarred (some ⟨i⟩) ((run.tells calls).locked i) body) :
    let inner : StateT (Run w n String) Option (List (Answer w)) := performEach (some ⟨i⟩) body
    ∃ answers after, exec (underLock ⟨i⟩ (liftM inner)) ((run.tells calls).locked i) =
      some (.ok answers, after) ∧ after.script = [] ∧ run.tree.Shelters held after.tree := by
  have inside := serves.inside hi rest calls
  obtain ⟨answers, mid, hbody, _, hstill, hshelters⟩ := keeps _ _ inside free
  have hlocked := hshelters.own i rfl (inside.locked i rfl)
  rw [tree_locked, tree_tells] at hshelters
  exact ⟨answers, _, exec_underLock_released (exec_liftM hbody) hlocked, hstill,
    .scope rest hshelters (Version.isBusy_released _)⟩

theorem harmless_lock (bytes : Bytes) (keeps : SessionKeeps w n body) (serves : run.Serves held)
    (free : Unbarred held run [.lock bytes body]) :
    Harmless held (perform held (.lock bytes body)) run := by
  have hkey := exec_anyKey bytes run
  rw [perform]
  cases fits : Key.ofBytes n bytes with
  | error fault =>
    rw [fits] at hkey
    exact (Looks.of_exec (exec_bind_error hkey)).harmless serves.still
  | ok key =>
    rw [fits] at hkey
    have clear : run.tree.Clear key := by
      by_contra barred
      exact free.not_waits serves ⟨key, fits, barred⟩
    have finds := exec_scripted (fun react => findLocked react key) run
    rw [exec_findLocked_still run serves.still serves.size clear] at finds
    obtain ⟨answers, after, hbody, hstill, hshelters⟩ := exec_underLock_keeps keeps serves
      (Tree.target_lt serves.size key) (clear _ (run.tree.target_mem_trail key)) _
      fun lock there nested h => free lock there nested (.underTarget fits finds h)
    refine .of_ok ?_ hstill hshelters
    rw [exec_bind_ok hkey, exec_bind_ok finds, exec_bind_ok (exec_describeTarget _ _),
      exec_bind_ok hbody]
    exact ⟨_, rfl⟩

theorem harmless_lockNode (path : Path) (keeps : SessionKeeps w n body)
    (serves : run.Serves held) (free : Unbarred held run [.lockNode path body]) :
    Harmless held (perform held (.lockNode path body)) run := by
  rw [perform]
  refine harmless_atPath serves fun i ends hi => ?_
  have locks := exec_scripted (fun react => tryLock react i) run
  cases hbusy : (run.tree.node i).version.isBusy with
  | true =>
    rw [exec_tryLock_busy run serves.still hbusy] at locks
    exact .of_ok ⟨_, exec_bind_ok locks⟩ serves.still (.refl _)
  | false =>
    rw [exec_tryLock_still run serves.still hbusy] at locks
    obtain ⟨answers, after, hbody, hstill, hshelters⟩ :=
      exec_underLock_keeps keeps serves hi hbusy [.tryLock i true]
        fun lock there nested h => free lock there nested (.underNode ends locks h)
    exact .of_ok ⟨_, (exec_bind_ok locks).trans (exec_bind_ok hbody)⟩ hstill hshelters

end Scopes

section Induction

theorem length_entries_series {series : Series} {a b : Bytes × String} (ha : a ∈ series.entries)
    (hb : b ∈ series.entries) : a.1.length = b.1.length := by
  simp only [Series.entries, List.mem_map] at ha hb
  obtain ⟨m, _, rfl⟩ := ha
  obtain ⟨m', _, rfl⟩ := hb
  simp [Series.key, unpackWord]

theorem encode_error_of_length {tree : Tree w n V} {a b : Bytes} {fault : Fault}
    (same : a.length = b.length) (refused : tree.encode a = .error fault) :
    tree.encode b = .error fault := by
  rw [Tree.encode] at refused ⊢
  rw [← same]
  split_ifs at refused ⊢
  · rw [Key.ofBytes_eq_error_iff] at refused ⊢
    rwa [← same]
  · exact refused

theorem CommandKeeps.of_harmless {command : Command}
    (plain : ∀ fault (run after : Run w n String), run.tree.Intact after.tree →
      command.Spares fault run after)
    (harmless : ∀ (held : Option Lock) (run : Run w n String), run.Serves held →
      Unbarred held run [command] → Harmless held (perform held command) run) :
    CommandKeeps w n command := by
  intro held run serves free
  obtain ⟨result, after, hkeeps, hfault⟩ := harmless held run serves free
  exact ⟨result, after, hkeeps, fun fault h => plain fault run after (hfault fault h)⟩

theorem commandKeeps_put (key : Bytes) (value : String) (guard : GuardOrigin) :
    CommandKeeps w n (.put key value guard) := by
  refine .of_harmless (fun _ _ _ => id) fun held run serves free => ?_
  rw [perform]
  rcases exec_put_cases serves (free.not_waits serves) value with
    ⟨fault, hput, _⟩ | ⟨_, after, _, _, hput⟩
  · exact (Looks.of_exec (exec_bind_error hput)).harmless serves.still
  · exact .of_ok ⟨_, exec_bind_ok hput.ends⟩ hput.still hput.shelters

theorem Keeps.answerCounters {run after : Run w n String} {body : Operation w n String Unit}
    {result : Except Fault Unit} (h : Keeps held body run result after) :
    ∃ answer : Except Fault (Answer w),
      Keeps held (do body; answerCounters) run answer after ∧
        ∀ fault, answer = .error fault → result = .error fault := by
  cases result with
  | error fault =>
    exact ⟨.error fault, ⟨exec_bind_error h.ends, h.still, h.shelters⟩,
      fun _ hfault => congrArg Except.error (Except.error.inj hfault)⟩
  | ok _ => exact ⟨.ok _, ⟨exec_bind_ok h.ends, h.still, h.shelters⟩, fun _ h => by cases h⟩

theorem commandKeeps_putEach (keys : List Bytes) (value : String) (guard : GuardOrigin) :
    CommandKeeps w n (.putEach keys value guard) := by
  intro held run serves free
  obtain ⟨result, after, hputs, hfault⟩ :=
    exec_puts_cases id (fun _ => value) guard keys serves (free.not_waits serves)
  obtain ⟨answer, hanswer, herror⟩ := hputs.answerCounters
  refine ⟨answer, after, by rwa [perform], fun fault h => ?_⟩
  obtain ⟨done, key, rest, hkeys, hdone, hrefused, _⟩ := hfault fault (herror fault h)
  exact ⟨done, key, rest, hkeys, hdone, hrefused⟩

/-- The keys of a series are all refused or none. -/
theorem commandKeeps_putSeries (series : Series) (isReversed : Bool) :
    CommandKeeps w n (.putSeries series isReversed) := by
  refine .of_harmless (fun _ _ _ => id) fun held run serves free => ?_
  have free' := free.not_waits serves
  rw [perform]
  simp only [Command.Waits] at free'
  generalize hentries : (if isReversed then series.entries.reverse else series.entries) = entries
    at free' ⊢
  have hmem {a : Bytes × String} (ha : a ∈ entries) : a ∈ series.entries := by
    rw [← hentries] at ha
    split_ifs at ha
    · exact List.mem_reverse.1 ha
    · exact ha
  obtain ⟨result, after, hputs, hfault⟩ := exec_puts_cases Prod.fst Prod.snd .own
    entries serves (by simpa using free')
  obtain ⟨answer, hanswer, herror⟩ := hputs.answerCounters
  refine ⟨answer, after, hanswer, fun fault h => ?_⟩
  obtain ⟨done, a, rest, hkeys, hdone, _, hrefused⟩ := hfault fault (herror fault h)
  cases done with
  | nil =>
    obtain rfl : run = after := congrArg Prod.snd (Option.some.inj hdone)
    exact .refl _
  | cons b done =>
    -- The first key was accepted, and the refused one is as long.
    have hlength : a.1.length = b.1.length :=
      length_entries_series (hmem (by simp [hkeys])) (hmem (by simp [hkeys]))
    have hfirst := exec_put_refused (encode_error_of_length hlength (hrefused rfl)) b.2
    cases (exec_bind_error hfirst).symm.trans hdone

theorem commandKeeps_of_isReading {command : Command} (reading : command.isReading = true) :
    CommandKeeps w n command := by
  refine .of_harmless (fun fault run after h => ?_) fun held run serves free => ?_
  · cases command with
    | putEach => cases reading
    | _ => exact h
  · exact (looks_perform held reading serves.still serves.size (free.not_waits serves)).harmless
      serves.still

theorem sessionKeeps_nil : SessionKeeps w n [] :=
  fun _ run serves _ => ⟨[], run, rfl, rfl, serves.still, .refl _⟩

theorem exec_answered {run after : Run w n String} {body : Operation w n String (Answer w)}
    {result : Except Fault (Answer w)} (h : exec body run = some (result, after)) :
    ∃ answer, (answered body).run run = some (answer, after) := by
  rw [answered, StateT.run_bind]
  change ∃ answer, (exec body run).bind _ = some (answer, after)
  rw [h]
  cases result <;> exact ⟨_, rfl⟩

theorem performEach_cons {run mid : Run w n String} {command : Command} {answer : Answer w}
    (first : (answered (perform held command)).run run = some (answer, mid))
    (rest : List Command) : (performEach held (command :: rest)).run run =
      ((performEach held rest).run mid).map fun ended => (answer :: ended.1, ended.2) := by
  rw [performEach, StateT.run_bind, first]
  change ((performEach held rest).run mid).bind _ = _
  cases (performEach held rest).run mid <;> rfl

theorem sessionKeeps_cons {command : Command} {rest : List Command}
    (first : CommandKeeps w n command) (others : SessionKeeps w n rest) :
    SessionKeeps w n (command :: rest) := by
  intro held run serves free
  obtain ⟨result, mid, hfirst, _⟩ := first held run serves free.head
  obtain ⟨answer, hanswer⟩ := exec_answered hfirst.ends
  obtain ⟨answers, after, hothers, hlength, hstill, hshelters⟩ :=
    others held mid (serves.next hfirst.still hfirst.shelters) (free.tail hanswer)
  refine ⟨answer :: answers, after, ?_, congrArg Nat.succ hlength, hstill,
    hfirst.shelters.trans hshelters⟩
  rw [performEach_cons hanswer, hothers]
  rfl

mutual

theorem commandKeeps (command : Command) : CommandKeeps w n command := by
  cases command with
  | put key value guard => exact commandKeeps_put key value guard
  | putEach keys value guard => exact commandKeeps_putEach keys value guard
  | putSeries series isReversed => exact commandKeeps_putSeries series isReversed
  | lock key body =>
    exact .of_harmless (fun _ _ _ => id) fun _ _ => harmless_lock key (sessionKeeps body)
  | lockNode path body =>
    exact .of_harmless (fun _ _ _ => id) fun _ _ => harmless_lockNode path (sessionKeeps body)
  | mark => exact .of_harmless (fun _ _ _ => id) fun _ _ serves _ => harmless_mark serves
  | assign slot key value path =>
    exact .of_harmless (fun _ _ _ => id) fun _ _ serves _ =>
      harmless_assign serves slot key value path
  | hang link entry path =>
    exact .of_harmless (fun _ _ _ => id) fun _ _ serves _ => harmless_hang serves link entry path
  | _ => exact commandKeeps_of_isReading rfl

theorem sessionKeeps (commands : List Command) : SessionKeeps w n commands := by
  cases commands with
  | nil => exact sessionKeeps_nil
  | cons command rest => exact sessionKeeps_cons (commandKeeps command) (sessionKeeps rest)

end

/-- Whatever a session performs is run under the lock that it names. -/
theorem Performs.serves {run there : Run w n String} {commands : List Command}
    {inner : Option Lock} {nested : Command} (h : Performs held run commands inner there nested)
    (serves : run.Serves held) (free : Unbarred held run commands) :
    there.Serves inner ∧ Unbarred inner there [nested] := by
  induction h with
  | here => exact ⟨serves, free.head⟩
  | @later held inner run mid there command nested rest answer first others ih =>
    obtain ⟨result, after, hkeeps, _⟩ :=
      commandKeeps command held run serves free.head
    obtain ⟨told, htold⟩ := exec_answered hkeeps.ends
    obtain rfl : after = mid := congrArg Prod.snd (Option.some.inj (htold.symm.trans first))
    exact ih (serves.next hkeeps.still hkeeps.shelters) (free.tail first)
  | @underTarget held inner run mid there nested rest body bytes key target fits finds inside ih =>
    have clear : run.tree.Clear key := by
      by_contra barred
      exact free.not_waits serves ⟨key, fits, barred⟩
    exact ih (serves.underTarget clear finds) fun lock there nested h =>
      free lock there nested (.underTarget fits finds h)
  | @underNode held inner run mid there nested rest body path i lock ends locks inside ih =>
    exact ih (serves.underNode ends locks) fun lock there nested h =>
      free lock there nested (.underNode ends locks h)

end Induction

/-- Every lock that a session takes is given back before the next command of the outermost level.
No command gives back a lock that it did not take, and one that ends with a fault has changed
nothing but for the puts before the refused one. -/
theorem locks_return_and_faults_spare {tree : Tree w n String} (settled : tree.Settled)
    {commands : List Command} (free : Unbarred none (.quiet tree) commands) :
    (∀ before, before <+: commands → ∃ answers after,
      (performEach none before).run (.quiet tree) = some (answers, after) ∧
        answers.length = before.length ∧ after.tree.AtRest) ∧
    ∀ held run command, Performs none (.quiet tree) commands held run command →
      ∃ result after, exec (perform held command) run = some (result, after) ∧
        run.tree.Shelters held after.tree ∧
        ∀ fault, result = .error fault → command.Spares fault run after := by
  have serves := Run.serves_quiet settled
  constructor
  · rintro before ⟨rest, rfl⟩
    obtain ⟨answers, after, hrun, hlength, _, hshelters⟩ :=
      sessionKeeps before none (.quiet tree) serves free.of_append
    exact ⟨answers, after, hrun, hlength, hshelters.atRest settled.rest⟩
  · intro held run command h
    obtain ⟨hserves, hfree⟩ := h.serves serves free
    obtain ⟨result, after, hkeeps, hspares⟩ := commandKeeps command held run hserves hfree
    exact ⟨result, after, hkeeps.ends, hkeeps.shelters, hspares⟩

/-- Under the lock of the root an entry is written and a node is hung, a lock within a lock is
taken, and some commands are refused. Two of three keys are put after that. -/
theorem locks_return_and_faults_spare_nested : ∃ commands : List Command, commands =
      [.lock [97] [.mark, .assign 0 [97] "a" none, .assign 1 [97] "a" none, .hang 0 none none,
        .hang 0 none none, .lockNode [0] [.mark, .assign 0 [98] "b" (some []),
          .put [98] "b" .foreign]],
      .putEach [[97], [98], List.replicate 9 0] "c" .own] ∧
    (∀ before, before <+: commands → ∃ answers after,
      (performEach none before).run (.quiet (.empty 8 : Tree 1 1 String)) =
        some (answers, after) ∧
        answers.length = before.length ∧ after.tree.AtRest) ∧
    ∀ held run command,
      Performs none (.quiet (.empty 8 : Tree 1 1 String)) commands held run command →
      ∃ result after, exec (perform held command) run = some (result, after) ∧
        run.tree.Shelters held after.tree ∧
        ∀ fault, result = .error fault → command.Spares fault run after := by
  have settled : (Tree.empty 8 : Tree 1 1 String).Settled :=
    ⟨Nat.one_pos, fun i => by rw [Tree.node_empty]; rfl, by decide⟩
  refine ⟨_, rfl, locks_return_and_faults_spare settled ?_⟩
  intro lock there nested h
  rcases h with _ | ⟨_, _ | ⟨_, ⟨⟩⟩⟩ | ⟨_, _, h⟩
  -- Of the commands under the lock of the root none takes a route.
  rcases h with _ | ⟨_, _ | ⟨_, _ | ⟨_, _ | ⟨_, _ | ⟨_, _ | ⟨_, ⟨⟩⟩ | _ | ⟨_, _, h⟩⟩⟩⟩⟩⟩
  iterate 6 exact id
  rcases h with _ | ⟨_, _ | ⟨_, _ | ⟨_, ⟨⟩⟩⟩⟩
  · exact id
  · exact id
  · exact fun h => by cases h.1

end Operation

end FanoutIndex

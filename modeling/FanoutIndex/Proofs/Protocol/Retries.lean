import FanoutIndex.Proofs.Protocol.Rescans
import FanoutIndex.Proofs.Scripted.Quiet

namespace FanoutIndex

variable {w n : Nat} {V : Type}

namespace Operation

open Run Protocol

variable {react : Reaction w n V} {i d : Nat} {run after : Run w n V} {key : Key n}

section Others

variable {value : V}

theorem spends_assign {slot : Nat} {lock : Lock}
    (h : exec (assign i slot key value lock) run = some (.ok (), after)) :
    run.Spends after [] 0 := by
  rw [assign] at h
  split_ifs at h
  · cases h
    exact (Spends.refl run).withTree _
  · cases h
  · cases h

theorem spends_hang {link child : Nat} {lock : Lock}
    (h : exec (hang i link child lock) run = some (.ok (), after)) : run.Spends after [] 0 := by
  rw [hang] at h
  split_ifs at h
  · rw [exec_bind_ok (exec_node run i)] at h
    split_ifs at h
    · cases h
    · cases h
      exact (Spends.refl run).withTree _
  · cases h
  · cases h

theorem spends_write {target : Target w}
    (h : exec (underLock target.lock (write target key value)) run = some (.ok (), after)) :
    ∃ own, run.Spends after own 0 := by
  rw [underLock] at h
  obtain ⟨result, mid, hbody, h⟩ := exec_bind_eq_ok h
  obtain ⟨_, released, hunlock, h⟩ := exec_bind_eq_ok h
  obtain ⟨rfl, rfl⟩ := exec_ofExcept_eq_ok h
  obtain ⟨version, hlast⟩ := spends_unlock hunlock
  have hbody := exec_outcome_eq_ok hbody
  have hwritten : ∃ own, run.Spends mid own 0 := by
    rw [write] at hbody
    cases hplace : target.place with
    | update slot =>
      simp only [hplace] at hbody
      exact ⟨_, spends_assign hbody⟩
    | fill slot =>
      simp only [hplace] at hbody
      obtain ⟨_, marked, hmark, h⟩ := exec_bind_eq_ok hbody
      obtain ⟨version, hfirst⟩ := spends_markInsert hmark
      obtain ⟨_, assigned, hassign, h⟩ := exec_bind_eq_ok h
      cases h
      exact ⟨_, (hfirst.trans (spends_assign hassign)).withTree _⟩
    | attach link =>
      simp only [hplace] at hbody
      obtain ⟨child, created, hcreate, h⟩ := exec_bind_eq_ok hbody
      cases hcreate
      obtain ⟨_, marked, hmark, h⟩ := exec_bind_eq_ok h
      obtain ⟨version, hfirst⟩ := spends_markInsert hmark
      obtain ⟨_, hung, hhang, h⟩ := exec_bind_eq_ok h
      cases h
      have hmarked := ((Spends.refl run).withTree _).trans hfirst
      exact ⟨_, (hmarked.trans (spends_hang hhang)).withTree _⟩
  obtain ⟨own, hown⟩ := hwritten
  exact ⟨_, hown.trans hlast⟩

theorem spends_putWith (fair : Fair react) {bytes : Bytes}
    (h : exec (putWith react bytes value .own) run = some (.ok (), after)) :
    ∃ own retries, run.Spends after own retries := by
  rw [putWith, checkGuard, exec_bind_ok (exec_pure run ())] at h
  obtain ⟨key, mid, hencode, h⟩ := exec_bind_eq_ok h
  obtain ⟨_, rfl⟩ := exec_encode_eq_ok hencode
  obtain ⟨target, found, hfind, h⟩ := exec_bind_eq_ok h
  obtain ⟨failed, walk, place, rfl, _, hfound, _⟩ := spends_findLocked fair hfind
  obtain ⟨own, hwritten⟩ := spends_write h
  exact ⟨_, _, hfound.trans hwritten⟩

/-- By induction on their nesting: what other clients do keeps to the script. -/
theorem fair_interfere (levels : Nat) : Fair (interfere levels : Reaction w n V) := by
  induction levels with
  | zero =>
    rintro event i run after h
    cases h
    exact .refl _
  | succ levels ih =>
    rintro ⟨site, call, disturbance⟩ i run after h
    cases disturbance with
    | fail =>
      cases h
      exact .refl _
    | bump =>
      change exec (bump i) run = _ at h
      rw [bump, exec_bind_ok (exec_version run i)] at h
      cases hlock : (run.tree.node i).version.tryLock? with
      | none =>
        simp only [hlock] at h
        cases h
        exact (Spends.refl run).noting (.bump i false)
      | some locked =>
        simp only [hlock] at h
        obtain ⟨version, mid, hversion, h⟩ := exec_bind_eq_ok h
        obtain ⟨_, rfl⟩ := exec_ofExcept_eq_ok hversion
        cases h
        exact ((Spends.refl run).withTree _).noting (.bump i true)
    | put bytes value =>
      change exec (note _ >>= fun _ => putWith _ _ _ _ >>= fun _ => note _) run = _ at h
      rw [exec_bind_ok (exec_note run _)] at h
      obtain ⟨_, mid, hput, h⟩ := exec_bind_eq_ok h
      cases h
      obtain ⟨own, retries, hspends⟩ := spends_putWith ih hput
      exact hspends.bracketed fun made whole => whole.put bytes value
    | get bytes =>
      change exec (note _ >>= fun _ => getWith _ _ _ >>= fun _ => note _) run = _ at h
      rw [exec_bind_ok (exec_note run _)] at h
      obtain ⟨value, mid, hget, h⟩ := exec_bind_eq_ok h
      cases h
      obtain ⟨key, walk, _, _, hspends, _⟩ := spends_getWith ih hget
      exact hspends.bracketed fun made whole => whole.get bytes value

end Others

/-- How an operation on a key went among the events of a script: which calls were its own, in
attempts that it gave up and a last walk. Each walk starts at the root, each retry answers one
refusal, and the retries are at most the events that happened. Where none did, there is one walk,
which scans each node on the trail of the key once. -/
structure Paid (tree : Tree w n V) (script : List (Event V)) (key : Key n) (after : Run w n V)
    (own : List (Call V)) (failed : List Attempt) (walk : Walk) : Prop where
  calls : ∃ calls, after.trace = some calls ∧ outermost calls.toList = own
  start : StartAtRoot failed walk
  refusals : own.countP Call.isRefusal = retries failed walk
  paid : retries failed walk + after.script.length ≤ script.length
  calm : after.script.length = script.length →
    failed = [] ∧ (∀ visit ∈ walk.visits, visit.stale = []) ∧ walk.nodes = tree.trail key

section Outcomes

variable {tree : Tree w n V} {script : List (Event V)} {own : List (Call V)}
  {failed : List Attempt} {walk : Walk}

theorem Paid.of_spends
    (h : Spends ⟨tree, script, some #[]⟩ after own (retries failed walk))
    (refusals : own.countP Call.isRefusal = retries failed walk) (start : StartAtRoot failed walk)
    (trail : Undisturbed ⟨tree, script, some #[]⟩ after → walk.nodes = tree.trail key) :
    Paid tree script key after own failed walk where
  calls := by
    obtain ⟨made, htrace, hwhole⟩ := h.trace
    obtain ⟨calls, hcalls, hmade⟩ := Option.map_eq_some_iff.1 htrace
    refine ⟨calls, hcalls, ?_⟩
    rw [hmade]
    exact hwhole.outermost_eq
  start := start
  refusals := refusals
  paid := h.paid
  calm := fun calm => by
    have hzero := h.retries_eq_zero calm
    refine ⟨?_, ?_, trail calm⟩
    · cases failed with
      | nil => rfl
      | cons attempt rest =>
        rw [retries_cons] at hzero
        omega
    · exact Walk.rescans_eq_zero_iff.1 (Nat.add_eq_zero_iff.1 hzero).2

/-- A search for the lock of a node comes to its end, and all that it reports is of its last
walk. -/
theorem exec_findLocked_spends (run : Run w n V) (ready : run.Ready) {levels : Nat}
    (depth : run.script.length ≤ levels) (key : Key n) :
    ∃ (after : Run w n V) (failed : List Attempt) (walk : Walk) (place : Place w)
      (calls : List (Call V)),
      exec (findLocked (interfere levels) key) run =
        some (.ok ⟨⟨walk.last.node⟩, place, walk.nodes.length⟩, after.locked walk.last.node) ∧
      run.Passes after calls ∧ after.tree.layout.Path key walk.last.node walk.nodes.length ∧
      (after.tree.layout walk.last.node).Routes key place.route ∧
      (after.tree.node walk.last.node).version.word = walk.last.token ∧
      StartAtRoot failed walk ∧ run.Spends after (lockedCalls failed walk) (retries failed walk) ∧
      (run.Undisturbed after → walk.nodes = run.tree.trail key) := by
  obtain ⟨after, calls, j, e, place, hpass, hfind, path, hend⟩ :=
    exec_findLocked (reacts_interfere levels) ready depth key
  obtain ⟨failed, walk, place', htarget, hstart, hspends, hheld, htrail⟩ :=
    spends_findLocked (fair_interfere levels) hfind
  cases htarget
  have hi := after.tree.lt_of_path (hpass.ready ready).size path
  rw [version_locked hi,
    Version.hasChangedLocked_locked_eq_false_iff ((hpass.ready ready).rest _)] at hheld
  exact ⟨after, failed, walk, place, calls, hfind, hpass, path, hend, hheld, hstart,
    hspends.withTree after.tree, htrail⟩

theorem exec_put_spends (run : Run w n V) (ready : run.Ready) {bytes : Bytes}
    (accepted : run.tree.encode bytes = .ok key) (value : V) :
    ∃ (after : Run w n V) (failed : List Attempt) (walk : Walk) (place : Place w),
      exec (put bytes value .own) run = some (.ok (), after) ∧ StartAtRoot failed walk ∧
      run.Spends after (putCalls failed walk place) (retries failed walk) ∧
      (run.Undisturbed after → walk.nodes = run.tree.trail key) := by
  obtain ⟨mid, failed, walk, place, calls, hfind, hpass, path, hend, hword, hstart, hspends,
    htrail⟩ := exec_findLocked_spends run ready (Nat.le_refl _) key
  have hready := hpass.ready ready
  have hwrite := exec_write_tells (d := walk.nodes.length) mid value
    (mid.tree.lt_of_path hready.size path) (hready.rest _) hend
  rw [hword] at hwrite
  have hmine : ∀ call ∈ (writeCalls walk.last.node walk.last.token place : List (Call V)),
      call.isOwn = true := by
    cases place <;> simp [writeCalls, Call.isOwn]
  refine ⟨{ mid.tells (writeCalls walk.last.node walk.last.token place) with
    tree := mid.tree.change walk.last.node place key value }, failed, walk, place, ?_, hstart, ?_,
    fun calm => htrail ?_⟩
  · rw [put, exec_scripted, putWith, checkGuard, exec_bind_ok (exec_pure run ()),
      exec_bind_ok (exec_encode_ok accepted), exec_bind_ok hfind]
    exact hwrite
  · rw [putCalls_eq]
    exact (hspends.tells hmine).withTree _
  · rwa [Undisturbed, script_tells] at calm

/-- Every search for a lock, look-up and put comes to its end, and it scans a node again or starts
again at the root at most once for each event that happens while it runs. A search for a lock
reports the depth of its node, however often it started again. A key that is refused is refused at
once. -/
theorem retries_are_paid (built : tree.Built)
    (admissible : ScriptAdmissible tree.keyWidth script) (few : script.length < 2 ^ 30) :
    (∀ key : Key n, ∃ (after : Run w n V) (failed : List Attempt) (walk : Walk) (place : Place w),
      exec (scripted fun react => findLocked react key) ⟨tree, script, some #[]⟩ =
        some (.ok ⟨⟨walk.last.node⟩, place, walk.nodes.length⟩, after) ∧
      Paid tree script key after (lockedCalls failed walk) failed walk ∧
      ∀ d, after.tree.layout.HasDepth walk.last.node d ↔ d = walk.nodes.length) ∧
    (∀ (bytes : Bytes) (key : Key n), tree.encode bytes = .ok key →
      (∃ (after : Run w n V) (walk : Walk) (value : Option V),
        exec (get? bytes .own) ⟨tree, script, some #[]⟩ = some (.ok value, after) ∧
        Paid tree script key after walk.calls [] walk) ∧
      ∀ value : V, ∃ (after : Run w n V) (failed : List Attempt) (walk : Walk) (place : Place w),
        exec (put bytes value .own) ⟨tree, script, some #[]⟩ = some (.ok (), after) ∧
        Paid tree script key after (putCalls failed walk place) failed walk) ∧
    ∀ (bytes : Bytes) (fault : Fault), tree.encode bytes = .error fault →
      exec (get? bytes .own) ⟨tree, script, some #[]⟩ =
        some (.error fault, ⟨tree, script, some #[]⟩) ∧
      ∀ value : V, exec (put bytes value .own) ⟨tree, script, some #[]⟩ =
        some (.error fault, ⟨tree, script, some #[]⟩) := by
  have ready : Ready ⟨tree, script, some #[]⟩ := ⟨built.settled, admissible, few⟩
  refine ⟨fun key => ?_, fun bytes key accepted => ⟨?_, fun value => ?_⟩, fun bytes fault refused =>
    ⟨exec_get_refused refused, exec_put_refused refused⟩⟩
  · obtain ⟨after, failed, walk, place, calls, hfind, hpass, path, _, _, hstart, hspends, htrail⟩ :=
      exec_findLocked_spends _ ready (Nat.le_refl script.length) key
    have sound : after.tree.layout.Sound := hpass.tree.sound ready.size built.sound
    refine ⟨after.locked walk.last.node, failed, walk, place, ?_,
      .of_spends (hspends.withTree _) (refusals_locked _ _) hstart htrail, fun d => ?_⟩
    · rw [exec_scripted]
      exact hfind
    · rw [tree_locked, Tree.layout_setVersion]
      exact ⟨fun h => h.depth_unique sound.forest path.hasDepth, fun h => h ▸ path.hasDepth⟩
  · obtain ⟨after, calls, j, e, place, hpass, hget, _⟩ := exec_lookups _ ready accepted
    have hwith := hget
    rw [get?, exec_scripted] at hwith
    obtain ⟨key', walk, hkey, hstart, hspends, htrail⟩ :=
      spends_getWith (fair_interfere script.length) hwith
    obtain rfl : key' = key := Except.ok.inj (hkey.symm.trans accepted)
    refine ⟨after, walk, _, hget, .of_spends (by rwa [retries_nil]) ?_ hstart htrail⟩
    rw [refusals_walk, retries_nil]
  · obtain ⟨after, failed, walk, place, hput, hstart, hspends, htrail⟩ :=
      exec_put_spends _ ready accepted value
    refine ⟨after, failed, walk, place, hput, .of_spends hspends ?_ hstart htrail⟩
    rw [putCalls_eq, List.countP_append, refusals_locked, refusals_write, Nat.add_zero]

/-- While the root is scanned, another client puts its first key and a change is counted. The first
attempt is refused the lock, and a key is put below the root before the second one asks. -/
theorem retries_are_paid_nested_puts :
    ∃ (after : Run 1 1 Nat) (failed : List Attempt) (walk : Walk) (place : Place 1),
      exec (put [99] 3 .own) ⟨.empty 8, [⟨.stable, 1, .put [97] 1⟩, ⟨.hasChanged, 3, .bump⟩,
        ⟨.tryLock, 2, .fail⟩, ⟨.hasChanged, 7, .put [98] 2⟩], some #[]⟩ = some (.ok (), after) ∧
      Paid (.empty 8) [⟨.stable, 1, .put [97] 1⟩, ⟨.hasChanged, 3, .bump⟩, ⟨.tryLock, 2, .fail⟩,
        ⟨.hasChanged, 7, .put [98] 2⟩] ⟨#v[0x6300000000000000]⟩ after
        (putCalls failed walk place) failed walk := by
  have built : (Tree.empty 8 : Tree 1 1 Nat).Built :=
    .empty (show Tree.ofConfig ({} : Config) = .ok (Tree.empty 8) from rfl)
  have admissible : ScriptAdmissible 8 ([⟨.stable, 1, .put [97] 1⟩, ⟨.hasChanged, 3, .bump⟩,
      ⟨.tryLock, 2, .fail⟩, ⟨.hasChanged, 7, .put [98] 2⟩] : List (Event Nat)) := by
    intro event hevent
    simp only [List.mem_cons, List.not_mem_nil, or_false] at hevent
    rcases hevent with rfl | rfl | rfl | rfl
    · exact ⟨by decide, by decide⟩
    · trivial
    · trivial
    · exact ⟨by decide, by decide⟩
  exact ((retries_are_paid built admissible (by decide)).2.1 [99] _ rfl).2 3

end Outcomes

end Operation

end FanoutIndex

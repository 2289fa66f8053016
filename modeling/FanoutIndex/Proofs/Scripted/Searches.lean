import FanoutIndex.Proofs.Scripted.Scans

/-!
# Searches among events

A token that still is the word of its version vouches for the face of its node, and where it is not,
an event was spent. So every search comes to its end, and what it ends with is true of the tree at
that moment.
-/

namespace FanoutIndex

variable {w n : Nat} {V : Type}

namespace Operation

open Run

variable {react : Reaction w n V} {levels i d : Nat} {run : Run w n V} {token : Token} {key : Key n}

section Versions

/-- The events of a script leave what the scans of a node rely on. -/
theorem Reacts.scannable (reacts : Reacts react levels) (i : Nat) :
    Scannable react i
      (fun run => run.Ready ∧ i < run.tree.nodes.size ∧ run.script.length ≤ levels)
      (fun run after => ∃ calls, run.Passes after calls) where
  rest := fun _ ready => ready.1.rest i
  disturbed := by
    rintro site run free ⟨ready, hi, depth⟩
    obtain ⟨failed, after, calls, hexec, hpass, hfailed⟩ :=
      exec_disturbed_atRest reacts site free ready hi depth
    exact ⟨failed, after, hexec, ⟨calls, hpass⟩, hfailed⟩
  keeps := by
    rintro run after ⟨ready, hi, depth⟩ ⟨calls, hpass⟩
    exact ⟨hpass.ready ready, hpass.lt_size hi, hpass.shrinks.trans depth⟩
  trans := by
    rintro run mid after ⟨first, hpass⟩ ⟨second, hpass'⟩
    exact ⟨first ++ second, hpass.trans hpass'⟩
  noted := by
    rintro run after call ⟨calls, hpass⟩ quiet
    exact ⟨calls ++ [call], hpass.noted call quiet⟩
  shrinks := by
    rintro run after ⟨calls, hpass⟩
    exact hpass.shrinks
  spent := by
    rintro run after ⟨calls, hpass⟩ changed
    exact hpass.shrinks_of_word_ne changed
  vouched := by
    rintro run after ⟨ready, hi, _⟩ ⟨calls, hpass⟩ same
    exact hpass.face_eq ready hi same

theorem exec_hasChanged (reacts : Reacts react levels) (ready : run.Ready)
    (hi : i < run.tree.nodes.size) (depth : run.script.length ≤ levels)
    (current : (run.tree.node i).version.word = token) :
    ∃ answer after calls, exec (hasChanged react i token) run = some (.ok answer, after) ∧
      run.Passes after calls ∧
      (answer = true → after.script.length < run.script.length) ∧
      (answer = false → (after.tree.node i).version.word = token) := by
  obtain ⟨answer, after, hexec, ⟨calls, hpass⟩, hend⟩ :=
    (reacts.scannable i).exec_hasChanged ⟨ready, hi, depth⟩ current
  exact ⟨answer, after, calls, hexec, hpass, hend⟩

theorem exec_tryLock (reacts : Reacts react levels) (ready : run.Ready)
    (hi : i < run.tree.nodes.size) (depth : run.script.length ≤ levels) :
    ∃ mid calls, run.Passes mid calls ∧
      (exec (tryLock react i) run = some (.ok none, mid) ∧
          mid.script.length < run.script.length ∨
        exec (tryLock react i) run = some (.ok (some ⟨i⟩), mid.locked i)) := by
  obtain ⟨failed, after, calls, hexec, hpass, hfailed⟩ :=
    exec_disturbed_atRest reacts .tryLock (by simp) ready hi depth
  have hrest : (after.tree.node i).version.isBusy = false := (hpass.ready ready).rest i
  cases failed with
  | true =>
    refine ⟨after.noted (.tryLock i false), _, hpass.noted _ rfl, .inl ⟨?_, hfailed rfl⟩⟩
    rw [tryLock, exec_bind_ok hexec, exec_bind_ok (exec_version after i)]
    rfl
  | false =>
    refine ⟨after.noted (.tryLock i true), _, hpass.noted _ rfl, .inr ?_⟩
    rw [tryLock, exec_bind_ok hexec, exec_bind_ok (exec_version after i)]
    simp only [Version.tryLock?, hrest]
    rfl

/-- Under the lock nothing changes any more, and only a forced failure costs an event. -/
theorem exec_hasChangedLocked (token : Token) (reacts : Reacts react levels) (ready : run.Ready)
    (hi : i < run.tree.nodes.size) :
    ∃ answer after calls,
      exec (hasChangedLocked react ⟨i⟩ token) (run.locked i) =
        some (.ok answer, after.locked i) ∧
      run.Passes after calls ∧ after.tree = run.tree ∧
      (answer = true → after.script.length < run.script.length ∨
        (run.tree.node i).version.word ≠ token) ∧
      (answer = false → (run.tree.node i).version.word = token) := by
  have hrest := ready.rest i
  have hversion : ((run.locked i).tree.node i).version = (run.tree.node i).version.locked := by
    rw [tree_locked, Tree.version_setVersion hi]
  have hbusy : ((run.locked i).tree.node i).version.isBusy = true := by
    rw [hversion]
    exact Version.isBusy_of_isLocked (Version.isLocked_locked hrest)
  have hword : (run.tree.node i).version.locked.hasChangedLocked token = false ↔
      (run.tree.node i).version.word = token :=
    Version.hasChangedLocked_locked_eq_false_iff hrest
  obtain ⟨failed, after, calls, hexec, hleads, htree, hquiet, hshrinks, hfailed⟩ :=
    exec_disturbed_locked (run.locked i) reacts ready.admissible hbusy
  have hafter : after = Run.locked { after with tree := run.tree } i := by
    cases after
    exact congrArg (fun tree => Run.mk tree _ _) htree
  have hpass : run.Passes { after with tree := run.tree } calls :=
    ⟨⟨by rw [hquiet]; exact .refl, hleads.trace, hleads.admissible⟩, by
      rw [hquiet, List.length_nil, Nat.zero_add]
      exact hshrinks⟩
  obtain ⟨answer, hanswer⟩ : ∃ answer, answer =
    (failed || (run.tree.node i).version.locked.hasChangedLocked token) := ⟨_, rfl⟩
  refine ⟨answer, Run.noted { after with tree := run.tree } (.hasChangedLocked i token answer), _,
    ?_, hpass.noted _ rfl, rfl, ?_, ?_⟩
  · rw [hasChangedLocked, exec_bind_ok hexec, exec_bind_ok (exec_version after i), htree, hversion,
      hanswer, hafter]
    rfl
  · rintro rfl
    rcases Bool.or_eq_true_iff.1 hanswer.symm with h | h
    · exact .inl (hfailed h)
    · refine .inr fun hsame => ?_
      rw [hword.2 hsame] at h
      cases h
  · rintro rfl
    exact hword.1 (Bool.or_eq_false_iff.1 hanswer.symm).2

theorem exec_unlock_locked (run : Run w n V) (rest : (run.tree.node i).version.isBusy = false)
    (hi : i < run.tree.nodes.size) :
    exec (unlock ⟨i⟩) (run.locked i) =
      some (.ok (), run.noted (.unlock i (run.tree.node i).version)) := by
  have hversion : ((run.locked i).tree.node i).version = (run.tree.node i).version.locked := by
    rw [tree_locked, Tree.version_setVersion hi]
  rw [unlock, exec_bind_ok (exec_version _ i), hversion, Version.unlock_locked rest,
    exec_bind_ok (exec_ofExcept _ _), exec_bind_ok (exec_setVersion _ i _), exec_note, tree_locked,
    Tree.setVersion_setVersion, Tree.setVersion_version]
  rfl

end Versions

section Routes

theorem exec_route (key : Key n) (reacts : Reacts react levels) (ready : run.Ready)
    (hi : i < run.tree.nodes.size) (depth : run.script.length ≤ levels) :
    ∃ token after calls,
      exec (route react key i) run = some (.ok ((after.tree.node i).route key, token), after) ∧
      run.Passes after calls ∧ (after.tree.node i).version.word = token := by
  obtain ⟨token, after, hexec, ⟨calls, hpass⟩, hword⟩ :=
    (reacts.scannable i).exec_route ⟨ready, hi, depth⟩ key
  exact ⟨token, after, calls, hexec, hpass, hword⟩

section Asking

variable {asked mid confirmed final : Run w n V} {lock : Lock}

theorem exec_lockUnchanged_changed
    (asks : exec (hasChanged react i token) run = some (.ok true, asked)) :
    exec (lockUnchanged react i token) run = some (.ok none, asked) := by
  rw [lockUnchanged, exec_bind_ok asks]
  rfl

theorem exec_lockUnchanged_refused
    (asks : exec (hasChanged react i token) run = some (.ok false, asked))
    (tries : exec (tryLock react i) asked = some (.ok none, mid)) :
    exec (lockUnchanged react i token) run = some (.ok none, mid) := by
  rw [lockUnchanged, exec_bind_ok asks]
  exact exec_bind_ok tries

theorem exec_lockUnchanged_late
    (asks : exec (hasChanged react i token) run = some (.ok false, asked))
    (tries : exec (tryLock react i) asked = some (.ok (some lock), mid))
    (confirms : exec (hasChangedLocked react lock token) mid = some (.ok true, confirmed))
    (gives : exec (unlock lock) confirmed = some (.ok (), final)) :
    exec (lockUnchanged react i token) run = some (.ok none, final) := by
  rw [lockUnchanged, exec_bind_ok asks]
  refine (exec_bind_ok tries).trans ((exec_bind_ok (exec_outcome confirms)).trans ?_)
  exact exec_bind_ok gives

theorem exec_lockUnchanged_held
    (asks : exec (hasChanged react i token) run = some (.ok false, asked))
    (tries : exec (tryLock react i) asked = some (.ok (some lock), mid))
    (confirms : exec (hasChangedLocked react lock token) mid = some (.ok false, confirmed)) :
    exec (lockUnchanged react i token) run = some (.ok (some lock), confirmed) := by
  rw [lockUnchanged, exec_bind_ok asks]
  exact (exec_bind_ok tries).trans (exec_bind_ok (exec_outcome confirms))

end Asking

/-- A node is locked as it was, or an event was spent. -/
theorem exec_lockUnchanged (reacts : Reacts react levels) (ready : run.Ready)
    (hi : i < run.tree.nodes.size) (depth : run.script.length ≤ levels)
    (current : (run.tree.node i).version.word = token) :
    ∃ after calls, run.Passes after calls ∧
      (exec (lockUnchanged react i token) run = some (.ok none, after) ∧
          after.script.length < run.script.length ∨
        exec (lockUnchanged react i token) run = some (.ok (some ⟨i⟩), after.locked i) ∧
          after.tree.layout i = run.tree.layout i) := by
  obtain ⟨answer, asked, first, hasked, hpass, hyes, hno⟩ :=
    exec_hasChanged reacts ready hi depth current
  cases answer with
  | true => exact ⟨asked, first, hpass, .inl ⟨exec_lockUnchanged_changed hasked, hyes rfl⟩⟩
  | false =>
    have hshrinks := hpass.shrinks
    obtain ⟨mid, second, hpass', htry⟩ :=
      exec_tryLock reacts (hpass.ready ready) (hpass.lt_size hi) (hshrinks.trans depth)
    have hpath := hpass.trans hpass'
    rcases htry with ⟨htry, hspent⟩ | htry
    · exact ⟨mid, _, hpath, .inl ⟨exec_lockUnchanged_refused hasked htry, by omega⟩⟩
    -- The lock is taken: what remains is to ask under it, and to give it back if it came too late.
    obtain ⟨answer, after, third, hconfirm, hpass'', htree, hyes', hno'⟩ :=
      exec_hasChangedLocked token reacts (hpath.ready ready) (hpath.lt_size hi)
    have hall := hpath.trans hpass''
    cases answer with
    | true =>
      have hunlock := exec_unlock_locked after ((hall.ready ready).rest i) (hall.lt_size hi)
      refine ⟨_, _, hall.noted (.unlock i (after.tree.node i).version) rfl,
        .inl ⟨exec_lockUnchanged_late hasked htry hconfirm hunlock, ?_⟩⟩
      -- Either an event forced the answer, or one of those before it changed the word.
      have hshrinks' := hpass''.shrinks
      rcases hyes' rfl with hspent | hword
      · have := hpath.shrinks
        exact hspent.trans_le this
      · have := hpath.shrinks_of_word_ne (i := i) (by rwa [current])
        exact hshrinks'.trans_lt this
    | false =>
      refine ⟨after, _, hall, .inr ⟨exec_lockUnchanged_held hasked htry hconfirm, ?_⟩⟩
      have hword := hno' rfl
      rw [htree]
      exact hpath.face_eq ready hi (hword.trans current.symm)

end Routes

section Descents

@[simp]
theorem exec_hopLimit (run : Run w n V) :
    exec (hopLimit : Operation w n V Nat) run =
      some (.ok (run.tree.nodes.size + run.script.length + 1), run) := rfl

section Steps

variable {mid after : Run w n V} {hops child : Nat} {found : Route w} {place : Place w}
  (asks : exec (route react key i) run = some (.ok (found, token), mid))

include asks

theorem exec_findFrom_down (turn : found.turn = .down child) :
    exec (findFrom react key (hops + 1) i d) run =
      exec (findFrom react key hops child (d + 1)) mid := by
  obtain ⟨link, rfl⟩ := turn_eq_down_iff.1 turn
  rw [findFrom, exec_bind_ok asks]

theorem exec_findFrom_here (turn : found.turn = .here place) :
    exec (findFrom react key (hops + 1) i d) run =
      some (.ok ((mid.tree.node i).valueOf place, d), mid) := by
  obtain rfl := turn_eq_here_iff.1 turn
  rw [findFrom, exec_bind_ok asks]
  cases place with
  | update slot => exact exec_bind_ok (exec_node mid i)
  | fill slot => rfl
  | attach link => rfl

theorem exec_descendFrom_down (turn : found.turn = .down child) :
    exec (descendFrom react key (hops + 1) i d) run =
      exec (descendFrom react key hops child (d + 1)) mid := by
  rw [descendFrom, exec_bind_ok asks]
  simp only [turn]

theorem exec_descendFrom_here (turn : found.turn = .here place) {lock : Option Lock}
    (locks : exec (lockUnchanged react i token) mid = some (.ok lock, after)) :
    exec (descendFrom react key (hops + 1) i d) run =
      some (.ok (lock.map fun lock => ⟨lock, place, d⟩), after) := by
  rw [descendFrom, exec_bind_ok asks]
  simp only [turn]
  exact exec_bind_ok locks

end Steps

/-- A reader's way down ends at the place of its key. -/
theorem exec_findFrom (reacts : Reacts react levels) (ready : run.Ready)
    (depth : run.script.length ≤ levels) (path : run.tree.layout.Path key i d) {hops : Nat}
    (enough : run.tree.nodes.size + run.script.length < hops + i) :
    ∃ after calls j e place, run.Passes after calls ∧
      exec (findFrom react key hops i d) run =
        some (.ok ((after.tree.node j).valueOf place, e), after) ∧
      after.tree.layout.Path key j e ∧ (after.tree.layout j).Routes key place.route := by
  induction hops generalizing run i d with
  | zero =>
    have hi := run.tree.lt_of_path ready.size path
    omega
  | succ hops ih =>
    have hi := run.tree.lt_of_path ready.size path
    obtain ⟨token, mid, first, hroute, hpass, _⟩ := exec_route key reacts ready hi depth
    have hroutes : (mid.tree.layout i).Routes key _ := (mid.tree.node i).routes_route key
    have hpath := path.grows (hpass.tree.grows ready.size)
    have hbound := hpass.bound ready.size
    cases hturn : ((mid.tree.node i).route key).turn with
    | down child =>
      obtain ⟨link, hlink⟩ := turn_eq_down_iff.1 hturn
      rw [hlink] at hroutes
      have hlt := mid.tree.lt_of_layout_link hroutes.2
      obtain ⟨after, second, j, e, place, hpass', hexec, hend⟩ := ih (hpass.ready ready)
        (hpass.shrinks.trans depth) (hpath.step hroutes) (by omega)
      exact ⟨after, _, j, e, place, hpass.trans hpass',
        (exec_findFrom_down hroute hturn).trans hexec, hend⟩
    | here place =>
      rw [turn_eq_here_iff.1 hturn] at hroutes
      exact ⟨mid, first, i, d, place, hpass, exec_findFrom_here hroute hturn, hpath, hroutes⟩

theorem exec_find (reacts : Reacts react levels) (ready : run.Ready)
    (depth : run.script.length ≤ levels) (key : Key n) :
    ∃ after calls j e place, run.Passes after calls ∧
      exec (find react key) run = some (.ok ((after.tree.node j).valueOf place, e), after) ∧
      after.tree.layout.Path key j e ∧ (after.tree.layout j).Routes key place.route := by
  rw [find, exec_bind_ok (exec_hopLimit run)]
  exact exec_findFrom reacts ready depth .root (Nat.lt_succ_self _)

/-- A writer's way down ends with the lock of the node that its key has its place in, or an event
was spent. -/
theorem exec_descendFrom (reacts : Reacts react levels) (ready : run.Ready)
    (depth : run.script.length ≤ levels) (path : run.tree.layout.Path key i d) {hops : Nat}
    (enough : run.tree.nodes.size + run.script.length < hops + i) :
    ∃ after calls, run.Passes after calls ∧
      (exec (descendFrom react key hops i d) run = some (.ok none, after) ∧
          after.script.length < run.script.length ∨
        ∃ j e place,
          exec (descendFrom react key hops i d) run =
            some (.ok (some ⟨⟨j⟩, place, e⟩), after.locked j) ∧
          after.tree.layout.Path key j e ∧ (after.tree.layout j).Routes key place.route) := by
  induction hops generalizing run i d with
  | zero =>
    have hi := run.tree.lt_of_path ready.size path
    omega
  | succ hops ih =>
    have hi := run.tree.lt_of_path ready.size path
    obtain ⟨token, mid, first, hroute, hpass, htoken⟩ :=
      exec_route key reacts ready hi depth
    have hready := hpass.ready ready
    have hroutes : (mid.tree.layout i).Routes key _ := (mid.tree.node i).routes_route key
    have hpath := path.grows (hpass.tree.grows ready.size)
    have hbound := hpass.bound ready.size
    have hshrinks := hpass.shrinks
    cases hturn : ((mid.tree.node i).route key).turn with
    | down child =>
      obtain ⟨link, hlink⟩ := turn_eq_down_iff.1 hturn
      rw [hlink] at hroutes
      have hlt := mid.tree.lt_of_layout_link hroutes.2
      obtain ⟨after, second, hpass', hend⟩ :=
        ih hready (hshrinks.trans depth) (hpath.step hroutes) (by omega)
      refine ⟨after, _, hpass.trans hpass', ?_⟩
      rw [exec_descendFrom_down hroute hturn]
      exact hend.imp_left fun h => ⟨h.1, h.2.trans_le hshrinks⟩
    | here place =>
      rw [turn_eq_here_iff.1 hturn] at hroutes
      obtain ⟨after, second, hpass', hlock⟩ := exec_lockUnchanged reacts hready
        (hpass.lt_size hi) (hshrinks.trans depth) htoken
      rcases hlock with ⟨hexec, hspent⟩ | ⟨hexec, hface⟩
      · exact ⟨after, _, hpass.trans hpass', .inl
          ⟨exec_descendFrom_here hroute hturn hexec, hspent.trans_le hshrinks⟩⟩
      · refine ⟨after, _, hpass.trans hpass', .inr ⟨i, d, place,
          exec_descendFrom_here hroute hturn hexec, hpath.grows (hpass'.tree.grows hready.size), ?_⟩⟩
        rwa [hface]

/-- A writer that starts again as often as it has to ends with a lock. -/
theorem exec_attempt (reacts : Reacts react levels) (ready : run.Ready)
    (depth : run.script.length ≤ levels) {restarts : Nat} (enough : run.script.length < restarts) :
    ∃ after calls j e place, run.Passes after calls ∧
      exec (attempt react key restarts) run = some (.ok ⟨⟨j⟩, place, e⟩, after.locked j) ∧
      after.tree.layout.Path key j e ∧ (after.tree.layout j).Routes key place.route := by
  induction restarts generalizing run with
  | zero => omega
  | succ restarts ih =>
    have path : run.tree.layout.Path key _ _ := Layout.Path.root
    obtain ⟨mid, first, hpass, hcase⟩ :=
      exec_descendFrom reacts ready depth path (Nat.lt_succ_self _)
    have hshrinks := hpass.shrinks
    rw [attempt, exec_bind_ok (exec_hopLimit run)]
    rcases hcase with ⟨hexec, hspent⟩ | ⟨j, e, place, hexec, hend⟩
    · obtain ⟨after, second, j, e, place, hpass', hexec', hend⟩ :=
        ih (hpass.ready ready) (hshrinks.trans depth) (by omega)
      refine ⟨after, _, j, e, place, hpass.trans hpass', ?_, hend⟩
      rw [exec_bind_ok hexec]
      exact hexec'
    · refine ⟨mid, first, j, e, place, hpass, ?_, hend⟩
      rw [exec_bind_ok hexec]
      rfl

theorem exec_findLocked (reacts : Reacts react levels) (ready : run.Ready)
    (depth : run.script.length ≤ levels) (key : Key n) :
    ∃ after calls j e place, run.Passes after calls ∧
      exec (findLocked react key) run = some (.ok ⟨⟨j⟩, place, e⟩, after.locked j) ∧
      after.tree.layout.Path key j e ∧ (after.tree.layout j).Routes key place.route := by
  rw [findLocked, exec_bind_ok (exec_eventsLeft run)]
  exact exec_attempt reacts ready depth (Nat.lt_succ_self _)

end Descents

end Operation

end FanoutIndex

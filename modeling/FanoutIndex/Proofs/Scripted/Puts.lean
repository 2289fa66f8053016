import FanoutIndex.Proofs.Key.Padding
import FanoutIndex.Proofs.Scripted.Searches

/-!
# Operations among events

A put that locked its target makes one insertion of the tree as it is then. So the nested puts of a
script are changes like any other, and by induction on their nesting every operation of another
client keeps to what the searches assume of it. A look-up makes no change, and tells what it finds
at the end of its search.
-/

namespace FanoutIndex

variable {w n : Nat} {V : Type}

theorem Tree.exists_encode {tree : Tree w n V} {bytes : Bytes}
    (width : tree.keyWidth ≤ Key.capacity n) (short : bytes.length ≤ tree.keyWidth) :
    ∃ key, tree.encode bytes = .ok key := by
  rw [encode, if_pos short, Key.exists_ofBytes_iff]
  exact short.trans width

/-- A node is hung while a change is marked, and the change is counted when that is undone. -/
theorem Tree.attach_marked {tree : Tree w n V} {i : Nat} (hi : i < tree.nodes.size)
    (link : Fin (w + 1)) (key : Key n) (value : V) (marked : Version) :
    let grown := tree.addNode (.ofEntry key value) (Node.links_ofEntry key value)
    let written :=
      (((grown.setVersion i marked).setLink i link tree.nodes.size).countNode).countEntry
    (written.node i).version = marked ∧ written.setVersion i (tree.node i).version.bumped =
      tree.change i (.attach link) key value := by
  intro grown written
  have younger : i < tree.nodes.size ∧ tree.nodes.size < grown.nodes.size :=
    tree.younger_addNode _ _ hi
  have hversion : ((grown.setLink i link tree.nodes.size).node i).version =
      (tree.node i).version := by
    rw [node_setLink _ younger, if_pos rfl, tree.node_addNode_of_lt _ _ hi]
    rfl
  have hwritten : written =
      (((grown.setLink i link tree.nodes.size).countNode).countEntry).setVersion i marked := by
    change (((grown.setVersion i marked).setLink i link tree.nodes.size).countNode).countEntry = _
    rw [setLink_setVersion younger, countNode_setVersion, countEntry_setVersion]
  constructor
  · rw [hwritten, version_setVersion]
    change i < (grown.setLink i link tree.nodes.size).nodes.size
    rw [size_setLink younger]
    exact younger.1.trans younger.2
  · rw [hwritten, setVersion_setVersion, change, bump, hversion, countNode_setVersion,
      countEntry_setVersion]

namespace Operation

open Run

variable {react : Reaction w n V} {levels i d : Nat} {run : Run w n V} {key : Key n} {value : V}

section Write

variable {version : Version}

theorem exec_markInsert (run : Run w n V)
    (h : (run.tree.node i).version.markInsert = .ok version) :
    exec (markInsert ⟨i⟩) run = some (.ok (),
      { run with tree := run.tree.setVersion i version }.noted (.markInsert i version)) := by
  rw [markInsert, exec_bind_ok (exec_version run i), h, exec_bind_ok (exec_ofExcept _ _)]
  rfl

theorem exec_unlock (run : Run w n V)
    (h : (run.tree.node i).version.unlock = .ok version) :
    exec (unlock ⟨i⟩) run = some (.ok (),
      { run with tree := run.tree.setVersion i version }.noted (.unlock i version)) := by
  rw [unlock, exec_bind_ok (exec_version run i), h, exec_bind_ok (exec_ofExcept _ _)]
  rfl

theorem exec_assign (slot : Fin w) : exec (assign i slot key value ⟨i⟩) run =
    some (.ok (), { run with tree := run.tree.assign i slot key value }) := by
  simp [assign]

theorem exec_hang (run : Run w n V) (i : Nat) (link : Fin (w + 1)) (child : Nat)
    (h : (run.tree.node i).links.get link = none) :
    exec (hang i link child ⟨i⟩) run =
      some (.ok (), { run with tree := run.tree.setLink i link child }) := by
  rw [hang, dif_pos link.isLt, if_pos rfl, exec_bind_ok (exec_node run i), if_neg]
  · rfl
  · simpa [get_eq_getElem] using h

section Scope

variable {α : Type} {body : Operation w n V α} {result : Except Fault α} {after : Run w n V}

/-- What is done under a lock, and the lock given back, however the body ends. -/
theorem exec_underLock (h : exec body run = some (result, after))
    (held : (after.tree.node i).version.unlock = .ok version) :
    exec (underLock ⟨i⟩ body) run = some (result,
      { after with tree := after.tree.setVersion i version }.noted (.unlock i version)) := by
  rw [underLock, exec_bind_ok (exec_outcome h), exec_bind_ok (exec_unlock after held), exec_ofExcept]

theorem exec_underLock_released (h : exec body run = some (result, after))
    (held : (after.tree.node i).version.isLocked = true) :
    exec (underLock ⟨i⟩ body) run = some (result,
      { after with tree := after.tree.setVersion i (after.tree.node i).version.released }.noted
        (.unlock i (after.tree.node i).version.released)) :=
  exec_underLock h (if_pos held)

/-- A fault under a lock goes on to the caller, and leaves the node at rest and the other nodes as
the body left them. -/
theorem exec_underLock_error {fault : Fault} (h : exec body run = some (.error fault, after))
    (hi : i < after.tree.nodes.size) (held : (after.tree.node i).version.isLocked = true) :
    ∃ final, exec (underLock ⟨i⟩ body) run = some (.error fault, final) ∧
      (final.tree.node i).version.isBusy = false ∧
      ∀ j, j ≠ i → final.tree.node j = after.tree.node j := by
  refine ⟨_, exec_underLock_released h held, ?_, fun j other => ?_⟩
  · rw [tree_noted, Tree.version_setVersion hi]
    exact Version.isBusy_released _
  · rw [tree_noted, Tree.node_setVersion, if_neg fun both => other both.1.symm]

end Scope

theorem version_locked (hi : i < run.tree.nodes.size) :
    ((run.locked i).tree.node i).version = (run.tree.node i).version.locked := by
  rw [tree_locked, Tree.version_setVersion hi]

theorem exec_write_update {slot : Fin w} (rest : (run.tree.node i).version.isBusy = false)
    (hi : i < run.tree.nodes.size) :
    exec (underLock ⟨i⟩ (write ⟨⟨i⟩, .update slot, d⟩ key value)) (run.locked i) =
      some (.ok (), { run.noted (.unlock i (run.tree.node i).version) with
        tree := run.tree.change i (.update slot) key value }) := by
  have hassign : exec (write ⟨⟨i⟩, .update slot, d⟩ key value) (run.locked i) = _ :=
    exec_assign slot
  have hheld : (((run.locked i).tree.assign i slot key value).node i).version.unlock =
      .ok (run.tree.node i).version := by
    rw [Tree.version_assign, version_locked hi, Version.unlock_locked rest]
  have htree : ((run.locked i).tree.assign i slot key value).setVersion i
      (run.tree.node i).version = run.tree.change i (.update slot) key value := by
    rw [tree_locked, Tree.assign_setVersion, Tree.setVersion_setVersion, Tree.change,
      ← Tree.version_assign slot, Tree.setVersion_version]
  rw [exec_underLock hassign hheld, htree]
  rfl

theorem exec_write_fill {slot : Fin w} (value : V)
    (rest : (run.tree.node i).version.isBusy = false) (hi : i < run.tree.nodes.size) :
    exec (underLock ⟨i⟩ (write ⟨⟨i⟩, .fill slot, d⟩ key value)) (run.locked i) =
      some (.ok (), { (run.noted (.markInsert i (run.tree.node i).version.marked)).noted
        (.unlock i (run.tree.node i).version.bumped) with
        tree := run.tree.change i (.fill slot) key value }) := by
  have hmark := Version.markInsert_locked rest
  rw [← version_locked hi] at hmark
  generalize hmarked : (run.tree.node i).version.marked = marked at hmark
  have hunlock : marked.unlock = .ok (run.tree.node i).version.bumped := by
    rw [← hmarked, Version.unlock_marked rest]
  have hwrite : exec (write ⟨⟨i⟩, .fill slot, d⟩ key value) (run.locked i) =
      some (.ok (), { run.noted (.markInsert i marked) with
        tree := (((run.locked i).tree.setVersion i marked).assign i slot key value).countEntry }) := by
    rw [write, exec_bind_ok (exec_markInsert _ hmark), exec_bind_ok (exec_assign slot),
      exec_changeTree]
    rfl
  have hheld : (((((run.locked i).tree.setVersion i marked).assign i slot key
      value).countEntry).node i).version.unlock = .ok (run.tree.node i).version.bumped := by
    rw [Tree.node_countEntry, Tree.version_assign, tree_locked, Tree.setVersion_setVersion,
      Tree.version_setVersion hi, hunlock]
  have htree : ((((run.locked i).tree.setVersion i marked).assign i slot key
      value).countEntry).setVersion i (run.tree.node i).version.bumped =
        run.tree.change i (.fill slot) key value := by
    rw [tree_locked, Tree.setVersion_setVersion, Tree.assign_setVersion,
      Tree.countEntry_setVersion, Tree.setVersion_setVersion, Tree.change, Tree.bump,
      Tree.version_assign, Tree.countEntry_setVersion]
  rw [exec_underLock hwrite hheld, htree]
  rfl

theorem exec_write_attach {link : Fin (w + 1)} (value : V)
    (rest : (run.tree.node i).version.isBusy = false) (hi : i < run.tree.nodes.size)
    (empty : (run.tree.layout i).link link = none) :
    exec (underLock ⟨i⟩ (write ⟨⟨i⟩, .attach link, d⟩ key value)) (run.locked i) =
      some (.ok (), { (run.noted (.markInsert i (run.tree.node i).version.marked)).noted
        (.unlock i (run.tree.node i).version.bumped) with
        tree := run.tree.change i (.attach link) key value }) := by
  have hmark := Version.markInsert_locked rest
  generalize hmarked : (run.tree.node i).version.marked = marked at hmark
  have hunlock : marked.unlock = .ok (run.tree.node i).version.bumped := by
    rw [← hmarked, Version.unlock_marked rest]
  have hsize : (run.locked i).tree.nodes.size = run.tree.nodes.size := Tree.size_setVersion _
  obtain ⟨hversion, htree⟩ := Tree.attach_marked hi link key value marked
  have hkept : (run.tree.addNode (.ofEntry key value) (Node.links_ofEntry key value)).node i =
      run.tree.node i := run.tree.node_addNode_of_lt _ _ hi
  have younger := run.tree.younger_addNode (.ofEntry key value) (Node.links_ofEntry key value) hi
  generalize hgrown : run.tree.addNode (.ofEntry key value) (Node.links_ofEntry key value) = grown
    at hversion htree hkept younger
  have hi' : i < grown.nodes.size := younger.1.trans younger.2
  -- The new node leaves the others alone, so it may as well be created before the lock is taken.
  have hcreate : exec (createEntry key value) (run.locked i) = some (.ok run.tree.nodes.size,
      { run with tree := grown.setVersion i (run.tree.node i).version.locked }) := by
    rw [createEntry, exec_create, hsize, tree_locked, Tree.addNode_setVersion hi, hgrown]
    rfl
  have hempty : ((grown.setVersion i marked).node i).links.get link = none := by
    rw [Tree.node_setVersion, if_pos ⟨rfl, hi'⟩, hkept]
    exact empty
  have hwrite : exec (write ⟨⟨i⟩, .attach link, d⟩ key value) (run.locked i) =
      some (.ok (), { run.noted (.markInsert i marked) with
        tree := (((grown.setVersion i marked).setLink i link
          run.tree.nodes.size).countNode).countEntry }) := by
    have hmarked := exec_markInsert
      { run with tree := grown.setVersion i (run.tree.node i).version.locked }
      (by rw [Tree.version_setVersion hi', hmark])
    have hhang := exec_hang ({ run with tree := grown.setVersion i marked }.noted
      (.markInsert i marked)) i link run.tree.nodes.size (by rw [tree_noted]; exact hempty)
    rw [write, exec_bind_ok hcreate, exec_bind_ok hmarked]
    simp only [Tree.setVersion_setVersion]
    rw [exec_bind_ok hhang, exec_changeTree]
    rfl
  rw [exec_underLock hwrite (by rw [hversion, hunlock]), htree]
  rfl

theorem exec_write {place : Place w} (value : V) (ready : run.Ready)
    (path : run.tree.layout.Path key i d) (hend : (run.tree.layout i).Routes key place.route) :
    ∃ after calls, run.Passes after calls ∧ after.tree = run.tree ∧
      exec (underLock ⟨i⟩ (write ⟨⟨i⟩, place, d⟩ key value)) (run.locked i) =
        some (.ok (), { after with tree := after.tree.insert key value }) := by
  have hi := run.tree.lt_of_path ready.size path
  have hrefl := Passes.refl run
  cases place with
  | update slot =>
    refine ⟨_, _, hrefl.noted (.unlock i (run.tree.node i).version) rfl, rfl, ?_⟩
    rw [exec_write_update (ready.rest i) hi, tree_noted, Tree.insert_eq path hend]
  | fill slot =>
    refine ⟨_, _, (hrefl.noted (.markInsert i (run.tree.node i).version.marked) rfl).noted
      (.unlock i (run.tree.node i).version.bumped) rfl, rfl, ?_⟩
    rw [exec_write_fill value (ready.rest i) hi, tree_noted, tree_noted, Tree.insert_eq path hend]
  | attach link =>
    refine ⟨_, _, (hrefl.noted (.markInsert i (run.tree.node i).version.marked) rfl).noted
      (.unlock i (run.tree.node i).version.bumped) rfl, rfl, ?_⟩
    rw [exec_write_attach value (ready.rest i) hi hend.2, tree_noted, tree_noted, Tree.insert_eq path hend]

end Write

theorem exec_encode (run : Run w n V) (bytes : Bytes) :
    exec (encode bytes) run = some (run.tree.encode bytes, run) := by
  rw [encode, exec_bind_ok (exec_tree run), exec_ofExcept]

theorem exec_encode_ok {bytes : Bytes} (accepted : run.tree.encode bytes = .ok key) :
    exec (encode bytes) run = some (.ok key, run) := by
  rw [exec_encode, accepted]

theorem exec_encode_error {bytes : Bytes} {fault : Fault}
    (refused : run.tree.encode bytes = .error fault) :
    exec (encode bytes : Operation w n V (Key n)) run = some (.error fault, run) := by
  rw [exec_encode, refused]

/-- A put makes one insertion, of the tree that the events made until then. -/
theorem exec_putWith (run : Run w n V) (reacts : Reacts react levels) (ready : run.Ready)
    (depth : run.script.length ≤ levels) {bytes : Bytes}
    (accepted : run.tree.encode bytes = .ok key) (value : V) :
    ∃ after calls, run.Passes after calls ∧
      exec (putWith react bytes value .own) run =
        some (.ok (), { after with tree := after.tree.insert key value }) := by
  obtain ⟨mid, first, j, e, place, hpass, hfind, path, hend⟩ :=
    exec_findLocked reacts ready depth key
  obtain ⟨after, second, hpass', htree, hwrite⟩ :=
    exec_write value (hpass.ready ready) path hend
  refine ⟨after, _, hpass.trans hpass', ?_⟩
  rw [putWith, checkGuard, exec_bind_ok (exec_pure run ()),
    exec_bind_ok (exec_encode_ok accepted), exec_bind_ok hfind]
  exact hwrite

theorem exec_bump_atRest (rest : (run.tree.node i).version.isBusy = false) :
    exec (bump i) run =
      some (.ok (), { run with tree := run.tree.bump i }.noted (.bump i true)) := by
  have hlock : (run.tree.node i).version.tryLock? = some (run.tree.node i).version.locked := by
    rw [Version.tryLock?, rest]
    rfl
  have hsection : (run.tree.node i).version.locked.markInsert >>= Version.unlock =
      .ok (run.tree.node i).version.bumped := by
    rw [Version.markInsert_locked rest]
    exact Version.unlock_marked rest
  rw [bump, exec_bind_ok (exec_version run i), hlock]
  simp only [hsection]
  rw [exec_bind_ok (exec_ofExcept _ _), exec_bind_ok (exec_setVersion _ _ _), exec_note]
  rfl

theorem exec_bump_busy (busy : (run.tree.node i).version.isBusy = true) :
    exec (bump i) run = some (.ok (), run.noted (.bump i false)) := by
  have hlock : (run.tree.node i).version.tryLock? = none := by
    rw [Version.tryLock?, busy]
    rfl
  rw [bump, exec_bind_ok (exec_version run i), hlock]
  rfl

theorem exec_interfere_put (reacts : Reacts (interfere levels : Reaction w n V) levels)
    (ready : run.Ready)
    (depth : run.script.length ≤ levels) (site : Site) (call : Nat) {bytes : Bytes}
    (short : bytes.length ≤ run.tree.keyWidth) (value : V) :
    ∃ after calls, exec (interfere (levels + 1) ⟨site, call, .put bytes value⟩ i) run =
        some (.ok (), after) ∧ run.Leads after calls ∧
      after.script.length ≤ run.script.length ∧
      (changesOf calls).length + after.script.length ≤ run.script.length + 1 := by
  obtain ⟨key, accepted⟩ := Tree.exists_encode ready.width short
  have hbegin := (Passes.refl run).noted (.beginPut bytes value) rfl
  obtain ⟨mid, calls, hpass, hput⟩ := exec_putWith (run.noted (.beginPut bytes value))
    reacts (hbegin.ready ready) depth accepted value
  have hboth := hbegin.trans hpass
  have hcost := hboth.cost
  have hchanges : changesOf (([] ++ [Call.beginPut bytes value] ++ calls) ++
      [.endPut bytes value]) = changesOf ([] ++ [.beginPut bytes value] ++ calls) ++
        [.put bytes value] := by
    rw [changesOf_append]
    rfl
  have accepted' : mid.tree.encode bytes = .ok key := by
    rw [Tree.encode, hboth.tree.keyWidth]
    exact accepted
  refine ⟨{ mid with tree := mid.tree.insert key value }.noted (.endPut bytes value), _, ?_,
    ⟨?_, trace_noted _ hboth.trace, hboth.admissible⟩, hboth.shrinks, ?_⟩
  · change exec (note _ >>= fun _ => putWith _ _ _ _ >>= fun _ => note _) run = _
    rw [exec_bind_ok (exec_note run _)]
    exact exec_bind_ok hput
  · rw [hchanges]
    exact .put hboth.tree accepted'
  · rw [hchanges, List.length_append, List.length_singleton]
    change _ + mid.script.length ≤ _
    omega

/-- What other clients do at an event is what the searches assume of it. -/
theorem reacts_interfere (levels : Nat) :
    Reacts (interfere levels : Reaction w n V) levels := by
  induction levels with
  | zero =>
    constructor
    case atRest =>
      intro event i run _ _ _ _ depth
      omega
    case locked =>
      intro event i run width _ _ _
      exact ⟨run, [], rfl, (Passes.refl run).toLeads, rfl, rfl, rfl⟩
  | succ levels ih =>
    constructor
    case atRest =>
      rintro ⟨site, call, disturbance⟩ i run ready hi admissible free depth
      cases disturbance with
      | fail =>
        refine ⟨run, [], rfl, (Passes.refl run).toLeads, Nat.le_refl _, ?_⟩
        simp [changesOf, Event.isFailure]
      | bump =>
        refine ⟨_, [.bump i true], exec_bump_atRest (ready.rest i), ⟨.bump .refl hi, ?_, fun _ h => h⟩,
          Nat.le_refl _, ?_⟩
        · exact trace_noted _ (Passes.refl run).trace
        · simp [changesOf, Call.change?, Event.isFailure, Nat.add_comm]
      | put bytes value =>
        obtain ⟨after, calls, hexec, hleads, hshrinks, hcost⟩ := exec_interfere_put ih ready
          (Nat.lt_succ_iff.1 depth) site call admissible.1 value
        exact ⟨after, calls, hexec, hleads, hshrinks, by simpa [Event.isFailure] using hcost⟩
      | get bytes => exact admissible.elim
    case locked =>
      rintro ⟨site, call, disturbance⟩ i run width busy admissible held
      cases disturbance with
      | fail => exact ⟨run, [], rfl, (Passes.refl run).toLeads, rfl, rfl, rfl⟩
      | bump =>
        exact ⟨_, _, exec_bump_busy busy, (Passes.refl run).toLeads.noted (.bump i false) rfl, rfl,
          rfl, rfl⟩
      | put bytes value => exact absurd held admissible.2
      | get bytes => exact admissible.elim

theorem exec_put (run : Run w n V) (ready : run.Ready) {bytes : Bytes} (accepted : run.tree.encode bytes = .ok key)
    (value : V) :
    ∃ after calls, run.Passes after calls ∧
      exec (put bytes value .own) run =
        some (.ok (), { after with tree := after.tree.insert key value }) := by
  rw [put, exec_scripted]
  exact exec_putWith run (reacts_interfere _) ready (Nat.le_refl _) accepted value

/-- A look-up and a question for the depth among the events of a script end at the place of the
key. -/
theorem exec_lookups (run : Run w n V) (ready : run.Ready) {bytes : Bytes}
    (accepted : run.tree.encode bytes = .ok key) :
    ∃ after calls j e place, run.Passes after calls ∧
      exec (get? bytes .own) run = some (.ok ((after.tree.node j).valueOf place), after) ∧
      exec (depthOf? bytes) run =
        some (.ok (((after.tree.node j).valueOf place).map fun _ => e), after) ∧
      after.tree.layout.Path key j e ∧ (after.tree.layout j).Routes key place.route := by
  obtain ⟨after, calls, j, e, place, hpass, hfind, hend⟩ :=
    exec_find (reacts_interfere run.script.length) ready (Nat.le_refl _) key
  refine ⟨after, calls, j, e, place, hpass, ?_, ?_, hend⟩
  · rw [get?, exec_scripted, getWith, checkGuard,
      exec_bind_ok (exec_pure run ()), exec_bind_ok (exec_encode_ok accepted)]
    exact exec_bind_ok hfind
  · rw [depthOf?, exec_scripted, depthOfWith,
      exec_bind_ok (exec_encode_ok accepted)]
    exact exec_bind_ok hfind

end Operation

end FanoutIndex

import FanoutIndex.Proofs.Scripted.Puts

/-!
# Routes among sections of other clients

Other clients change a node at rest in sections: under its lock they mark a change, write entries
to its slots and hang new nodes under its links as they like, and give the lock back. The node need
not be well formed, before or after. Each section is counted, so a scan that began before it is
repeated, and the route that is given in the end is the one of the contents that the sections left.
-/

namespace FanoutIndex

variable {w n : Nat} {V : Type}

/-- What a section writes to its node. -/
inductive Edit (w n : Nat) (V : Type) where
  /-- An entry, to a slot that may hold another. -/
  | assign (slot : Fin w) (key : Key n) (value : V)
  /-- A new node, with an entry or without, under a link if nothing is there yet. -/
  | hang (link : Fin (w + 1)) (entry : Option (Key n × V))

/-- What the sections of other clients write, by the event and by the run that it happens in. -/
abbrev Writers (w n : Nat) (V : Type) := Event V → Run w n V → List (Edit w n V)

namespace Event

/-- The events of a script that change something. -/
def changes (script : List (Event V)) : Nat := script.countP fun event => !event.isFailure

theorem changes_cons (event : Event V) (rest : List (Event V)) :
    changes (event :: rest) = (if event.isFailure then 0 else 1) + changes rest := by
  rw [changes, List.countP_cons, Nat.add_comm, changes]
  cases event.isFailure <;> rfl

theorem changes_le_length (script : List (Event V)) : changes script ≤ script.length :=
  List.countP_le_length

theorem isFailure_afterCall (site : Site) (event : Event V) :
    (event.afterCall site).isFailure = event.isFailure := by
  rw [afterCall]
  split_ifs <;> rfl

theorem changes_afterCallOf (site : Site) (script : List (Event V)) :
    changes (dueAt site script) + changes (afterCallOf site script) = changes script := by
  induction script with
  | nil => rfl
  | cons event rest ih =>
    have hdue : dueAt site (event :: rest) =
        if event.isDue site then event :: dueAt site rest else dueAt site rest := List.filter_cons
    have hkept : afterCallOf site (event :: rest) =
        if event.isDue site then afterCallOf site rest
        else event.afterCall site :: afterCallOf site rest := by
      cases h : event.isDue site <;> simp [afterCallOf, h]
    rw [hdue, hkept]
    split_ifs
    · rw [changes_cons, changes_cons]
      omega
    · rw [changes_cons, changes_cons, isFailure_afterCall]
      omega

end Event

namespace Tree

/-- What some sections on a node at rest leave of it: each was counted, and without one its face is
as it was. -/
structure Revised (start : Tree w n V) (i count : Nat) (tree : Tree w n V) : Prop where
  known : i < tree.nodes.size
  rest : (tree.node i).version.isBusy = false
  word : (tree.node i).version.word = advanced (start.node i).version.word count
  same : count = 0 → (tree.node i).face = (start.node i).face

variable {start tree final : Tree w n V} {i a b count : Nat}

theorem Revised.refl (hi : i < tree.nodes.size) (rest : (tree.node i).version.isBusy = false) :
    tree.Revised i 0 tree :=
  ⟨hi, rest, (advanced_zero _).symm, fun _ => rfl⟩

theorem Revised.trans (first : start.Revised i a tree) (second : tree.Revised i b final) :
    start.Revised i (a + b) final where
  known := second.known
  rest := second.rest
  word := by rw [second.word, first.word, advanced_add]
  same := by
    intro hnone
    obtain ⟨ha, hb⟩ := Nat.add_eq_zero_iff.1 hnone
    rw [second.same hb, first.same ha]

theorem Revised.one (hi : i < tree.nodes.size) (rest : (start.node i).version.isBusy = false)
    (version : (tree.node i).version = (start.node i).version.bumped) : start.Revised i 1 tree where
  known := hi
  rest := by
    rw [version]
    exact Version.isBusy_bumped rest
  word := by rw [version, advanced_succ, advanced_zero, Version.bumped]
  same := fun h => absurd h Nat.one_ne_zero

/-- As long as the counter has not come round, the word of the version tells whether there was a
section. -/
theorem Revised.eq_zero (h : start.Revised i count tree) (few : count < 2 ^ 30)
    (same : (tree.node i).version.word = (start.node i).version.word) : count = 0 :=
  eq_zero_of_advanced_eq (h.word.symm.trans same) few

end Tree

namespace Operation

def createChild : Option (Key n × V) → Operation w n V Nat
  | none => createEmpty
  | some (key, value) => createEntry key value

def edit (i : Nat) : Edit w n V → Operation w n V Unit
  | .assign slot key value => assign i slot key value ⟨i⟩
  | .hang link entry => do
    if ((← node i).links.get link).isNone then hang i link (← createChild entry) ⟨i⟩

/-- A section of another client, which does nothing if the node is not at rest. -/
def revise (i : Nat) (edits : List (Edit w n V)) : Operation w n V Unit := do
  match (← version i).tryLock? with
  | none => note (.tryLock i false)
  | some locked =>
    setVersion i locked
    note (.tryLock i true)
    underLock ⟨i⟩ do
      markInsert ⟨i⟩
      edits.forM (edit i)

/-- What other clients do at an event on a node that they write to: a failure is left to the call, a
counted change comes without any writes, and whatever else happens is a section. -/
def writing (writers : Writers w n V) : Reaction w n V := fun event i => do
  match event.disturbance with
  | .fail => return
  | .bump => bump i
  | _ => revise i (writers event (← get))

open Run

variable {run : Run w n V} {i : Nat}

theorem exec_get (run : Run w n V) :
    exec (get : Operation w n V (Run w n V)) run = some (.ok run, run) := rfl

theorem exec_createChild (run : Run w n V) (entry : Option (Key n × V)) :
    ∃ (fresh : Node w n V) (bare : ∀ link : Fin (w + 1), fresh.links.get link = none),
      exec (createChild entry) run =
        some (.ok run.tree.nodes.size, { run with tree := run.tree.addNode fresh bare }) := by
  cases entry with
  | none => exact ⟨_, _, exec_create run _ Node.links_empty⟩
  | some entry => exact ⟨_, _, exec_create run _ (Node.links_ofEntry entry.1 entry.2)⟩

theorem exec_edit (change : Edit w n V) (hi : i < run.tree.nodes.size) :
    ∃ tree, exec (edit i change) run = some (.ok (), { run with tree := tree }) ∧
      i < tree.nodes.size ∧ (tree.node i).version = (run.tree.node i).version := by
  cases change with
  | assign slot key value =>
    refine ⟨_, exec_assign slot, ?_, Tree.version_assign slot i⟩
    rwa [Tree.size_assign]
  | hang link entry =>
    cases hlink : (run.tree.node i).links.get link with
    | some child =>
      refine ⟨run.tree, ?_, hi, rfl⟩
      rw [edit, exec_bind_ok (exec_node run i), hlink]
      rfl
    | none =>
      obtain ⟨fresh, bare, hcreate⟩ := exec_createChild run entry
      have hnode := run.tree.node_addNode_of_lt fresh bare hi
      have younger := run.tree.younger_addNode fresh bare hi
      have hhang := exec_hang { run with tree := run.tree.addNode fresh bare } i link
        run.tree.nodes.size (by rw [hnode, hlink])
      refine ⟨(run.tree.addNode fresh bare).setLink i link run.tree.nodes.size, ?_, ?_, ?_⟩
      · rw [edit, exec_bind_ok (exec_node run i), hlink]
        exact (exec_bind_ok hcreate).trans hhang
      · rw [Tree.size_setLink younger]
        exact younger.1.trans younger.2
      · rw [Tree.node_setLink _ younger, if_pos rfl, hnode]
        rfl

theorem exec_forM_edit (run : Run w n V) (edits : List (Edit w n V)) (hi : i < run.tree.nodes.size) :
    ∃ tree, exec (edits.forM (edit i)) run = some (.ok (), { run with tree := tree }) ∧
      i < tree.nodes.size ∧ (tree.node i).version = (run.tree.node i).version := by
  induction edits generalizing run with
  | nil => exact ⟨run.tree, rfl, hi, rfl⟩
  | cons change rest ih =>
    obtain ⟨mid, hexec, hmid, hversion⟩ := exec_edit change hi
    obtain ⟨tree, hexec', hi', hversion'⟩ := ih { run with tree := mid } hmid
    refine ⟨tree, ?_, hi', hversion'.trans hversion⟩
    change exec (edit i change >>= fun _ => rest.forM (edit i)) run = _
    rw [exec_bind_ok hexec]
    exact hexec'

theorem exec_markInsert_locked (run : Run w n V) (hi : i < run.tree.nodes.size)
    (rest : (run.tree.node i).version.isBusy = false) :
    ∃ marked, exec (markInsert ⟨i⟩) (run.locked i) = some (.ok (), marked) ∧
      marked.tree = run.tree.setVersion i (run.tree.node i).version.marked ∧
      marked.script = run.script := by
  have hmark := Version.markInsert_locked rest
  rw [← version_locked hi] at hmark
  refine ⟨_, exec_markInsert (run.locked i) hmark, ?_, rfl⟩
  rw [tree_noted, tree_locked, Tree.setVersion_setVersion]

/-- A section on a node at rest is counted once, when its lock is given back. -/
theorem exec_revise (edits : List (Edit w n V)) (hi : i < run.tree.nodes.size)
    (rest : (run.tree.node i).version.isBusy = false) :
    ∃ after, exec (revise i edits) run = some (.ok (), after) ∧
      run.tree.Revised i 1 after.tree ∧ after.script = run.script := by
  have hlock : (run.tree.node i).version.tryLock? = some (run.tree.node i).version.locked := by
    rw [Version.tryLock?, rest]
    rfl
  obtain ⟨marked, hmark, htree, hscript⟩ :=
    exec_markInsert_locked (run.noted (.tryLock i true)) hi rest
  rw [tree_noted] at htree
  have hsize : i < marked.tree.nodes.size := by rwa [htree, Tree.size_setVersion]
  obtain ⟨tree, hedits, hknown, hkept⟩ := exec_forM_edit marked edits hsize
  -- No write touches the version, so the mark is still there when the lock is given back.
  have hheld : (tree.node i).version.unlock = .ok (run.tree.node i).version.bumped := by
    rw [hkept, htree, Tree.version_setVersion hi, Version.unlock_marked rest]
  have hbody : exec (markInsert ⟨i⟩ >>= fun _ => edits.forM (edit i))
      ((run.noted (.tryLock i true)).locked i) = some (.ok (), { marked with tree := tree }) := by
    rw [exec_bind_ok hmark]
    exact hedits
  obtain ⟨after, hunder, hafter, hleft⟩ : ∃ after,
      exec (underLock ⟨i⟩ (markInsert ⟨i⟩ >>= fun _ => edits.forM (edit i)))
        ((run.noted (.tryLock i true)).locked i) = some (.ok (), after) ∧
      after.tree = tree.setVersion i (run.tree.node i).version.bumped ∧
      after.script = marked.script := ⟨_, exec_underLock hbody hheld, rfl, rfl⟩
  refine ⟨after, ?_, ?_, hleft.trans hscript⟩
  · rw [revise, exec_bind_ok (exec_version run i), hlock]
    exact hunder
  · rw [hafter]
    refine .one ?_ rest (Tree.version_setVersion hknown)
    rwa [Tree.size_setVersion]

theorem exec_writing (writers : Writers w n V) (event : Event V) (hi : i < run.tree.nodes.size)
    (rest : (run.tree.node i).version.isBusy = false) :
    ∃ after, exec (writing writers event i) run = some (.ok (), after) ∧
      run.tree.Revised i (if event.isFailure then 0 else 1) after.tree ∧
      after.script = run.script := by
  obtain ⟨site, call, disturbance⟩ := event
  cases disturbance with
  | fail => exact ⟨run, rfl, .refl hi rest, rfl⟩
  | bump =>
    refine ⟨_, exec_bump_atRest rest, .one ?_ rest ?_, rfl⟩
    · rwa [tree_noted, Tree.size_bump]
    · rw [tree_noted, Tree.node_bump, if_pos ⟨rfl, hi⟩]
      rfl
  | put bytes value =>
    obtain ⟨after, hexec, hend⟩ := exec_revise (writers ⟨site, call, .put bytes value⟩ run) hi rest
    exact ⟨after, (exec_bind_ok (exec_get run)).trans hexec, hend⟩
  | get bytes =>
    obtain ⟨after, hexec, hend⟩ := exec_revise (writers ⟨site, call, .get bytes⟩ run) hi rest
    exact ⟨after, (exec_bind_ok (exec_get run)).trans hexec, hend⟩

theorem exec_forM_writing (writers : Writers w n V) (run : Run w n V) (due : List (Event V))
    (hi : i < run.tree.nodes.size) (rest : (run.tree.node i).version.isBusy = false) :
    ∃ after, exec (due.forM fun event => writing writers event i) run = some (.ok (), after) ∧
      run.tree.Revised i (Event.changes due) after.tree ∧ after.script = run.script := by
  induction due generalizing run with
  | nil => exact ⟨run, rfl, .refl hi rest, rfl⟩
  | cons event others ih =>
    obtain ⟨mid, hexec, hfirst, hscript⟩ := exec_writing writers event hi rest
    obtain ⟨after, hexec', hsecond, hscript'⟩ := ih mid hfirst.known hfirst.rest
    refine ⟨after, ?_, ?_, hscript'.trans hscript⟩
    · rw [forM_cons, exec_bind_ok hexec]
      exact hexec'
    · rw [Event.changes_cons]
      exact hfirst.trans hsecond

/-- What a scan sees of the events at its calls: the sections that they made on its node, each paid
for by an event. -/
structure Meets (i count : Nat) (run after : Run w n V) : Prop where
  tree : run.tree.Revised i count after.tree
  changes : count + Event.changes after.script ≤ Event.changes run.script
  events : count + after.script.length ≤ run.script.length

/-- Sections of other clients leave what the scans of a node rely on. -/
theorem scannable_writing (writers : Writers w n V) (i : Nat) :
    Scannable (writing writers) i
      (fun run => i < run.tree.nodes.size ∧ (run.tree.node i).version.isBusy = false ∧
        Event.changes run.script < 2 ^ 30)
      (fun run after => ∃ count, Meets i count run after) where
  rest := fun _ ready => ready.2.1
  disturbed := by
    rintro site run - ⟨hi, rest, _⟩
    have hlength := Event.length_afterCallOf site run.script
    have hchanges := Event.changes_afterCallOf site run.script
    have hle := Event.changes_le_length (Event.dueAt site run.script)
    obtain ⟨after, hexec, hrevised, hscript⟩ := exec_forM_writing writers
      { run with script := Event.afterCallOf site run.script } (Event.dueAt site run.script) hi rest
    simp only at hscript
    refine ⟨_, after, exec_disturbed _ site i run after hexec,
      ⟨_, hrevised, by rw [hscript]; omega, by rw [hscript]; omega⟩, ?_⟩
    rw [hscript]
    exact Event.length_afterCallOf_lt
  keeps := by
    rintro run after ⟨_, _, few⟩ ⟨count, h⟩
    have hchanges := h.changes
    exact ⟨h.tree.known, h.tree.rest, by omega⟩
  trans := by
    rintro run mid after ⟨a, h⟩ ⟨b, h'⟩
    have hchanges := h.changes
    have hchanges' := h'.changes
    have hevents := h.events
    have hevents' := h'.events
    exact ⟨a + b, h.tree.trans h'.tree, by omega, by omega⟩
  noted := by
    rintro run after call ⟨count, h⟩ -
    exact ⟨count, h.tree, h.changes, h.events⟩
  shrinks := by
    rintro run after ⟨count, h⟩
    exact (Nat.le_add_left _ _).trans h.events
  spent := by
    rintro run after ⟨count, h⟩ changed
    have hevents := h.events
    have hcount : count ≠ 0 := by
      rintro rfl
      exact changed (h.tree.word.trans (Tree.advanced_zero _))
    omega
  vouched := by
    rintro run after ⟨_, _, few⟩ ⟨count, h⟩ same
    have hchanges := h.changes
    -- There are too few sections for the counter to come round to the same word.
    have hcount := h.tree.eq_zero (by omega) same
    exact h.tree.same hcount

/-- A route is current when it is given. Whatever the contents of a node at rest are, and whatever
other clients write to it at the calls of the scan, the route is given, with the word that the
version has then, and it is the one that the slots and links decide then. -/
theorem route_is_current (writers : Writers w n V) (run : Run w n V) {i : Nat}
    (hi : i < run.tree.nodes.size) (unlocked : (run.tree.node i).version.isBusy = false)
    (few : Event.changes run.script < 2 ^ 30) (key : Key n) :
    ∃ way token after, exec (route (writing writers) key i) run = some (.ok (way, token), after) ∧
      (after.tree.node i).version.word = token ∧ (after.tree.node i).face.Routes key way := by
  obtain ⟨token, after, hexec, _, hword⟩ :=
    (scannable_writing writers i).exec_route ⟨hi, unlocked, few⟩ key
  exact ⟨_, token, after, hexec, hword, (after.tree.node i).routes_route key⟩

/-- A vacant slot before an occupied one ends the first scans, until a section fills it with a
greater key and hangs a node before it. -/
theorem route_is_current_filled : ∃ run : Run 2 1 Nat, run =
      ⟨(Tree.empty 8).assign root 1 ⟨#v[3]⟩ 0,
        [⟨.stable, 1, .bump⟩, ⟨.hasChanged, 1, .fail⟩, ⟨.hasChanged, 2, .put [] 0⟩], none⟩ ∧
    (run.tree.node root).route ⟨#v[1]⟩ = .vacant 0 ∧
    ∃ after,
      exec (route (writing fun _ _ => [.assign 0 ⟨#v[4]⟩ 0, .hang 0 none]) ⟨#v[1]⟩ root) run =
        some (.ok (.descend 0 (some 1), 8), after) ∧
      (after.tree.node root).version.word = 8 ∧
      (after.tree.node root).face.Routes ⟨#v[1]⟩ (.descend 0 (some 1)) := by
  refine ⟨_, rfl, rfl, ?_⟩
  obtain ⟨way, token, after, hexec, hword, hroutes⟩ := route_is_current
    (fun _ _ => [.assign 0 ⟨#v[4]⟩ 0, .hang 0 none])
    (⟨(Tree.empty 8).assign root 1 ⟨#v[3]⟩ 0,
      [⟨.stable, 1, .bump⟩, ⟨.hasChanged, 1, .fail⟩, ⟨.hasChanged, 2, .put [] 0⟩], none⟩ :
      Run 2 1 Nat)
    (i := root) (by decide) (by decide) (by decide) ⟨#v[1]⟩
  have hend := congrArg (Option.map Prod.fst) hexec
  change some (Except.ok (Route.descend 0 (some 1), 8)) = some (Except.ok (way, token)) at hend
  cases hend
  exact ⟨after, hexec, hword, hroutes⟩

end Operation

end FanoutIndex

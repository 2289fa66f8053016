import FanoutIndex.Proofs.Protocol.Attempts
import FanoutIndex.Proofs.Tree.Trail

/-!
# Undisturbed searches

Where no event is left, every call is answered by the versions alone. A search that meets only nodes
at rest ends at the target of its key and asks every node on the trail once; one that meets a node
that is not at rest waits for ever, since nobody will give the lock back.
-/

namespace FanoutIndex

variable {w n : Nat} {V : Type}

namespace Tree

variable (tree : Tree w n V)

/-- The calls of an undisturbed scan of a node. -/
def visitCalls (i : Nat) : List (Call V) :=
  Protocol.scanCalls i false (tree.node i).version.word

def walkCallsFrom (key : Key n) (i : Nat) : List (Call V) :=
  (tree.trailFrom key i).flatMap tree.visitCalls

def walkCalls (key : Key n) : List (Call V) := tree.walkCallsFrom key root

def lockCallsAt (i : Nat) : List (Call V) := Protocol.lockCalls i (tree.node i).version.word

/-- No node on the trail of a key is locked. -/
def Clear (key : Key n) : Prop := ∀ i ∈ tree.trail key, (tree.node i).version.isBusy = false

variable {tree}

theorem AtRest.clear (rest : tree.AtRest) (key : Key n) : tree.Clear key := fun i _ => rest i

end Tree

namespace Operation

open Run Protocol

variable {react : Reaction w n V} {run : Run w n V} {key : Key n} {i d e hops : Nat} {token : Token}
  {place : Place w}

section Calls

theorem exec_stable_still (run : Run w n V) (still : run.script = [])
    (rest : (run.tree.node i).version.isBusy = false) :
    exec (stable react i) run = some (.ok (run.tree.node i).version.word,
      run.noted (.stable i (run.tree.node i).version.word)) := by
  rw [stable, exec_bind_ok (exec_disturbed_of_script_nil run react _ _ still),
    exec_bind_ok (exec_version run i)]
  simp only [Version.stable?, rest]
  rfl

theorem exec_stable_busy (run : Run w n V) (still : run.script = [])
    (busy : (run.tree.node i).version.isBusy = true) : exec (stable react i) run = none := by
  rw [stable, exec_bind_ok (exec_disturbed_of_script_nil run react _ _ still),
    exec_bind_ok (exec_version run i)]
  simp only [Version.stable?, busy]
  rfl

theorem exec_hasChanged_still (run : Run w n V) (still : run.script = []) (token : Token) :
    exec (hasChanged react i token) run =
      some (.ok ((run.tree.node i).version.hasChanged token),
        run.noted (.hasChanged i token ((run.tree.node i).version.hasChanged token))) := by
  rw [hasChanged, exec_bind_ok (exec_disturbed_of_script_nil run react _ _ still),
    exec_bind_ok (exec_version run i)]
  rfl

theorem exec_hasChangedLocked_still (run : Run w n V) (still : run.script = []) (i : Nat)
    (token : Token) :
    exec (hasChangedLocked react ⟨i⟩ token) run =
      some (.ok ((run.tree.node i).version.hasChangedLocked token), run.noted
        (.hasChangedLocked i token ((run.tree.node i).version.hasChangedLocked token))) := by
  rw [hasChangedLocked, exec_bind_ok (exec_disturbed_of_script_nil run react _ _ still),
    exec_bind_ok (exec_version run i)]
  rfl

theorem exec_tryLock_still (run : Run w n V) (still : run.script = [])
    (rest : (run.tree.node i).version.isBusy = false) :
    exec (tryLock react i) run = some (.ok (some ⟨i⟩), (run.noted (.tryLock i true)).locked i) := by
  rw [tryLock, exec_bind_ok (exec_disturbed_of_script_nil run react _ _ still),
    exec_bind_ok (exec_version run i)]
  simp only [Bool.false_eq_true, if_false, Version.tryLock?, rest]
  rfl

theorem exec_tryLock_busy (run : Run w n V) (still : run.script = [])
    (busy : (run.tree.node i).version.isBusy = true) :
    exec (tryLock react i) run = some (.ok none, run.noted (.tryLock i false)) := by
  rw [tryLock, exec_bind_ok (exec_disturbed_of_script_nil run react _ _ still),
    exec_bind_ok (exec_version run i)]
  simp only [Bool.false_eq_true, if_false, Version.tryLock?, busy]
  rfl

end Calls

section Routes

theorem exec_route_still (run : Run w n V) (still : run.script = [])
    (rest : (run.tree.node i).version.isBusy = false) :
    exec (route react key i) run =
      some (.ok ((run.tree.node i).route key, (run.tree.node i).version.word),
        run.tells (run.tree.visitCalls i)) := by
  have hsame : (run.tree.node i).version.hasChanged (run.tree.node i).version.word = false :=
    Version.hasChanged_eq_false_iff.2 rfl
  rw [route, exec_bind_ok (exec_eventsLeft run), scan,
    exec_bind_ok (exec_stable_still run still rest), exec_bind_ok (exec_node _ i),
    exec_bind_ok (exec_hasChanged_still (run.noted _) still (run.tree.node i).version.word)]
  simp only [tree_noted, hsame]
  rfl

theorem exec_route_busy (run : Run w n V) (still : run.script = [])
    (busy : (run.tree.node i).version.isBusy = true) : exec (route react key i) run = none := by
  rw [route, exec_bind_ok (exec_eventsLeft run), scan]
  exact exec_bind_none (exec_stable_busy run still busy)

theorem exec_lockUnchanged_still (run : Run w n V) (still : run.script = [])
    (rest : (run.tree.node i).version.isBusy = false) (hi : i < run.tree.nodes.size) :
    exec (lockUnchanged react i (run.tree.node i).version.word) run =
      some (.ok (some ⟨i⟩), (run.tells (run.tree.lockCallsAt i)).locked i) := by
  let asked := run.noted (.hasChanged i (run.tree.node i).version.word false)
  let held := (asked.noted (.tryLock i true)).locked i
  have hsame : (run.tree.node i).version.hasChanged (run.tree.node i).version.word = false :=
    Version.hasChanged_eq_false_iff.2 rfl
  have hconfirmed : (run.tree.node i).version.locked.hasChangedLocked
      (run.tree.node i).version.word = false :=
    (Version.hasChangedLocked_locked_eq_false_iff rest).2 rfl
  have hheld : (held.tree.node i).version = (run.tree.node i).version.locked := version_locked hi
  have hasked : exec (hasChanged react i (run.tree.node i).version.word) run = _ :=
    exec_hasChanged_still run still _
  rw [hsame] at hasked
  have htry : exec (tryLock react i) asked = some (.ok (some ⟨i⟩), held) :=
    exec_tryLock_still asked still rest
  have hconfirm : exec (hasChangedLocked react ⟨i⟩ (run.tree.node i).version.word) held = _ :=
    exec_hasChangedLocked_still held still i _
  rw [hheld, hconfirmed] at hconfirm
  exact exec_lockUnchanged_held hasked htry hconfirm

end Routes

section Descents

theorem walkCallsFrom_of_down {tree : Tree w n V} {child : Nat}
    (h : ((tree.node i).route key).turn = .down child) :
    tree.walkCallsFrom key i = tree.visitCalls i ++ tree.walkCallsFrom key child := by
  rw [Tree.walkCallsFrom, (Tree.trailFrom_of_down h).1, List.flatMap_cons, Tree.walkCallsFrom]

theorem walkCallsFrom_of_here {tree : Tree w n V}
    (h : ((tree.node i).route key).turn = .here place) :
    tree.walkCallsFrom key i = tree.visitCalls i := by
  rw [Tree.walkCallsFrom, (Tree.trailFrom_of_here h).1, List.flatMap_singleton]

theorem exists_down_of_busy {tree : Tree w n V} (free : (tree.node i).version.isBusy = false)
    (busy : ∃ j ∈ tree.trailFrom key i, (tree.node j).version.isBusy = true) :
    ∃ child, ((tree.node i).route key).turn = .down child ∧
      ∃ j ∈ tree.trailFrom key child, (tree.node j).version.isBusy = true := by
  obtain ⟨j, hj, hbusy⟩ := busy
  have hne : j ≠ i := by
    rintro rfl
    cases free.symm.trans hbusy
  cases hturn : ((tree.node i).route key).turn with
  | down child =>
    rw [(Tree.trailFrom_of_down hturn).1] at hj
    exact ⟨child, rfl, j, (List.mem_cons.1 hj).resolve_left hne, hbusy⟩
  | here place =>
    rw [(Tree.trailFrom_of_here hturn).1] at hj
    exact absurd (List.mem_singleton.1 hj) hne

theorem exec_findFrom_still (run : Run w n V) (still : run.script = [])
    (clear : ∀ j ∈ run.tree.trailFrom key i, (run.tree.node j).version.isBusy = false)
    (hi : i < run.tree.nodes.size) (enough : run.tree.nodes.size < hops + i)
    (deep : e + 1 = d + (run.tree.trailFrom key i).length) :
    exec (findFrom react key hops i d) run =
      some (.ok ((run.tree.node (run.tree.targetFrom key i).1).valueOf
        (run.tree.targetFrom key i).2, e), run.tells (run.tree.walkCallsFrom key i)) := by
  -- Links lead to younger nodes, so the hops that are left reach past the nodes that are left.
  induction hops generalizing run i d with
  | zero => omega
  | succ hops ih =>
    cases hturn : ((run.tree.node i).route key).turn with
    | down child =>
      obtain ⟨htrail, htarget⟩ := Tree.trailFrom_of_down hturn
      have hlt := run.tree.lt_of_turn_down hturn
      rw [htrail, List.length_cons] at deep
      rw [htrail] at clear
      rw [exec_findFrom_down (exec_route_still run still (clear i List.mem_cons_self)) hturn,
        htarget, walkCallsFrom_of_down hturn, tells_append]
      have hrest := ih (i := child) (d := d + 1) (run.tells (run.tree.visitCalls i))
        (by rwa [script_tells])
      simp only [tree_tells] at hrest
      exact hrest (fun j hj => clear j (List.mem_cons_of_mem _ hj)) hlt.2 (by omega) (by omega)
    | here place =>
      obtain ⟨htrail, htarget⟩ := Tree.trailFrom_of_here hturn
      rw [htrail, List.length_singleton] at deep
      rw [htrail] at clear
      obtain rfl : e = d := by omega
      rw [exec_findFrom_here (exec_route_still run still (clear i List.mem_cons_self)) hturn,
        htarget, walkCallsFrom_of_here hturn, tree_tells]

/-- A reader that comes to a locked node waits for ever. -/
theorem exec_findFrom_busy (run : Run w n V) (still : run.script = [])
    (busy : ∃ j ∈ run.tree.trailFrom key i, (run.tree.node j).version.isBusy = true) :
    exec (findFrom react key hops i d) run = none := by
  induction hops generalizing run i d with
  | zero => rfl
  | succ hops ih =>
    cases hfree : (run.tree.node i).version.isBusy with
    | true =>
      rw [findFrom]
      exact exec_bind_none (exec_route_busy run still hfree)
    | false =>
      obtain ⟨child, hturn, hbelow⟩ := exists_down_of_busy hfree busy
      rw [exec_findFrom_down (exec_route_still run still hfree) hturn]
      exact ih (run.tells (run.tree.visitCalls i)) (by rwa [script_tells]) (by rwa [tree_tells])

theorem exec_descendFrom_still (run : Run w n V) (still : run.script = [])
    (clear : ∀ j ∈ run.tree.trailFrom key i, (run.tree.node j).version.isBusy = false)
    (hi : i < run.tree.nodes.size) (enough : run.tree.nodes.size < hops + i)
    (deep : e + 1 = d + (run.tree.trailFrom key i).length) :
    exec (descendFrom react key hops i d) run =
      some (.ok (some ⟨⟨(run.tree.targetFrom key i).1⟩, (run.tree.targetFrom key i).2, e⟩),
        (run.tells (run.tree.walkCallsFrom key i ++
          run.tree.lockCallsAt (run.tree.targetFrom key i).1)).locked
            (run.tree.targetFrom key i).1) := by
  induction hops generalizing run i d with
  | zero => omega
  | succ hops ih =>
    cases hturn : ((run.tree.node i).route key).turn with
    | down child =>
      obtain ⟨htrail, htarget⟩ := Tree.trailFrom_of_down hturn
      have hlt := run.tree.lt_of_turn_down hturn
      rw [htrail, List.length_cons] at deep
      rw [htrail] at clear
      rw [exec_descendFrom_down (exec_route_still run still (clear i List.mem_cons_self)) hturn,
        htarget, walkCallsFrom_of_down hturn, List.append_assoc, tells_append]
      have hrest := ih (i := child) (d := d + 1) (run.tells (run.tree.visitCalls i))
        (by rwa [script_tells])
      simp only [tree_tells] at hrest
      exact hrest (fun j hj => clear j (List.mem_cons_of_mem _ hj)) hlt.2 (by omega) (by omega)
    | here place =>
      obtain ⟨htrail, htarget⟩ := Tree.trailFrom_of_here hturn
      rw [htrail, List.length_singleton] at deep
      rw [htrail] at clear
      obtain rfl : e = d := by omega
      have hrest := clear i List.mem_cons_self
      rw [htarget, walkCallsFrom_of_here hturn, tells_append]
      have hlock : exec (lockUnchanged react i _) (run.tells (run.tree.visitCalls i)) = _ :=
        exec_lockUnchanged_still _ (by rwa [script_tells]) (by rwa [tree_tells])
          (by rwa [tree_tells])
      simp only [tree_tells] at hlock
      exact exec_descendFrom_here (exec_route_still run still hrest) hturn hlock

theorem exec_descendFrom_busy (run : Run w n V) (still : run.script = [])
    (busy : ∃ j ∈ run.tree.trailFrom key i, (run.tree.node j).version.isBusy = true) :
    exec (descendFrom react key hops i d) run = none := by
  induction hops generalizing run i d with
  | zero => rfl
  | succ hops ih =>
    cases hfree : (run.tree.node i).version.isBusy with
    | true =>
      rw [descendFrom]
      exact exec_bind_none (exec_route_busy run still hfree)
    | false =>
      obtain ⟨child, hturn, hbelow⟩ := exists_down_of_busy hfree busy
      rw [exec_descendFrom_down (exec_route_still run still hfree) hturn]
      exact ih (run.tells (run.tree.visitCalls i)) (by rwa [script_tells]) (by rwa [tree_tells])

end Descents

section Operations

variable (run : Run w n V) (still : run.script = [])

include still

theorem exec_find_still (size : 0 < run.tree.nodes.size) (clear : run.tree.Clear key) :
    exec (find react key) run =
      some (.ok ((run.tree.node (run.tree.target key).1).valueOf (run.tree.target key).2,
        (run.tree.trail key).length), run.tells (run.tree.walkCalls key)) := by
  rw [find, exec_bind_ok (exec_hopLimit run)]
  exact exec_findFrom_still run still clear size (by simp only [root]; omega) (Nat.add_comm ..)

theorem exec_find_busy (barred : ¬run.tree.Clear key) : exec (find react key) run = none := by
  rw [find, exec_bind_ok (exec_hopLimit run)]
  exact exec_findFrom_busy run still (by simpa [Tree.Clear, Tree.trail] using barred)

theorem exec_get_still {bytes : Bytes} (size : 0 < run.tree.nodes.size)
    (accepted : run.tree.encode bytes = .ok key) (clear : run.tree.Clear key) :
    exec (get? bytes .own) run =
      some (.ok (run.tree.contents key), run.tells (run.tree.walkCalls key)) := by
  rw [get?, exec_scripted, getWith, checkGuard, exec_bind_ok (exec_pure _ ()),
    exec_bind_ok (exec_encode_ok accepted),
    exec_bind_ok (exec_find_still run still size clear)]
  rfl

theorem exec_get_busy {bytes : Bytes} (accepted : run.tree.encode bytes = .ok key)
    (barred : ¬run.tree.Clear key) : exec (get? bytes .own) run = none := by
  rw [get?, exec_scripted, getWith, checkGuard, exec_bind_ok (exec_pure _ ()),
    exec_bind_ok (exec_encode_ok accepted)]
  exact exec_bind_none (exec_find_busy run still barred)

theorem exec_depthOf_still {bytes : Bytes} (size : 0 < run.tree.nodes.size)
    (accepted : run.tree.encode bytes = .ok key) (clear : run.tree.Clear key) :
    exec (depthOf? bytes) run = some (.ok ((run.tree.contents key).map fun _ =>
      (run.tree.trail key).length), run.tells (run.tree.walkCalls key)) := by
  rw [depthOf?, exec_scripted, depthOfWith, exec_bind_ok (exec_encode_ok accepted),
    exec_bind_ok (exec_find_still run still size clear)]
  rfl

theorem exec_depthOf_busy {bytes : Bytes} (accepted : run.tree.encode bytes = .ok key)
    (barred : ¬run.tree.Clear key) : exec (depthOf? bytes) run = none := by
  rw [depthOf?, exec_scripted, depthOfWith, exec_bind_ok (exec_encode_ok accepted)]
  exact exec_bind_none (exec_find_busy run still barred)

theorem exec_findLocked_still (size : 0 < run.tree.nodes.size) (clear : run.tree.Clear key) :
    exec (findLocked react key) run =
      some (.ok ⟨⟨(run.tree.target key).1⟩, (run.tree.target key).2, (run.tree.trail key).length⟩,
        (run.tells (run.tree.walkCalls key ++
          run.tree.lockCallsAt (run.tree.target key).1)).locked (run.tree.target key).1) := by
  have hdescend : exec (descendFrom react key (run.tree.nodes.size + run.script.length + 1) root 1)
      run = _ :=
    exec_descendFrom_still run still clear size (by simp only [root]; omega) (Nat.add_comm ..)
  rw [findLocked, exec_bind_ok (exec_eventsLeft run), attempt, exec_bind_ok (exec_hopLimit run),
    exec_bind_ok hdescend]
  rfl

theorem exec_findLocked_busy (barred : ¬run.tree.Clear key) :
    exec (findLocked react key) run = none := by
  rw [findLocked, exec_bind_ok (exec_eventsLeft run), attempt, exec_bind_ok (exec_hopLimit run)]
  exact exec_bind_none
    (exec_descendFrom_busy run still (by simpa [Tree.Clear, Tree.trail] using barred))

theorem exec_put_still {bytes : Bytes} (size : 0 < run.tree.nodes.size)
    (accepted : run.tree.encode bytes = .ok key) (clear : run.tree.Clear key) (value : V) :
    exec (put bytes value .own) run = some (.ok (),
      { run.tells (run.tree.walkCalls key ++ run.tree.lockCallsAt (run.tree.target key).1 ++
          writeCalls (run.tree.target key).1 (run.tree.node (run.tree.target key).1).version.word
            (run.tree.target key).2) with
        tree := run.tree.insert key value }) := by
  have hwrite := exec_write_tells (d := (run.tree.trail key).length)
    (run.tells (run.tree.walkCalls key ++ run.tree.lockCallsAt (run.tree.target key).1)) value
    (by rw [tree_tells]; exact run.tree.lt_of_path size (run.tree.path_target key))
    (by rw [tree_tells]; exact clear _ (run.tree.target_mem_trail key))
    (by rw [tree_tells]; exact run.tree.routes_target key)
  rw [tree_tells, ← tells_append] at hwrite
  rw [put, exec_scripted, putWith, checkGuard, exec_bind_ok (exec_pure _ ()),
    exec_bind_ok (exec_encode_ok accepted),
    exec_bind_ok (exec_findLocked_still run still size clear)]
  exact hwrite

theorem exec_put_busy {bytes : Bytes} (accepted : run.tree.encode bytes = .ok key)
    (barred : ¬run.tree.Clear key) (value : V) : exec (put bytes value .own) run = none := by
  rw [put, exec_scripted, putWith, checkGuard, exec_bind_ok (exec_pure _ ()),
    exec_bind_ok (exec_encode_ok accepted)]
  exact exec_bind_none (exec_findLocked_busy run still barred)

end Operations

end Operation

end FanoutIndex

import FanoutIndex.Proofs.Quiet.Searches
import FanoutIndex.Proofs.Scripted.Quiet
import FanoutIndex.Session.Perform

namespace FanoutIndex

variable {w n : Nat} {V α β : Type}

namespace Tree

variable (tree : Tree w n V)

/-- The way of an accepted key leads through a locked node. -/
def Bars (bytes : Bytes) : Prop := ∃ key : Key n, tree.encode bytes = .ok key ∧ ¬tree.Clear key

/-- In a row of puts, one whose way leads through a locked node comes before any that is refused. -/
def BarsOne (tree : Tree w n V) : List (Bytes × V) → Prop
  | [] => False
  | (bytes, value) :: rest =>
    tree.Bars bytes ∨ ∃ key, tree.encode bytes = .ok key ∧ (tree.insert key value).BarsOne rest

variable {tree}

theorem clear_of_not_bars {bytes : Bytes} {key : Key n} (free : ¬tree.Bars bytes)
    (accepted : tree.encode bytes = .ok key) : tree.Clear key := by
  by_contra barred
  exact free ⟨key, accepted, barred⟩

theorem AtRest.not_bars (rest : tree.AtRest) (bytes : Bytes) : ¬tree.Bars bytes :=
  fun ⟨key, _, barred⟩ => barred (rest.clear key)

theorem AtRest.not_barsOne (rest : tree.AtRest) (size : 0 < tree.nodes.size)
    (entries : List (Bytes × V)) : ¬tree.BarsOne entries := by
  induction entries generalizing tree with
  | nil => exact id
  | cons entry others ih =>
    rintro (barred | ⟨key, _, barred⟩)
    · exact rest.not_bars _ barred
    · exact ih (rest.insert size) ((size_insert_le key entry.2 size).1.trans_lt' size) barred

end Tree

def Run.Ends (run : Run w n String) (path : Path) (i : Nat) : Prop :=
  Operation.exec (Operation.walk path root) run = some (.ok (some i), run)

/-- A command takes a route through a locked node. -/
def Command.Waits (run : Run w n String) : Command → Prop
  | .put key _ guard => guard = .own ∧ run.tree.Bars key
  | .putEach keys value guard => guard = .own ∧ run.tree.BarsOne (keys.map fun key => (key, value))
  | .putSeries series isReversed =>
    run.tree.BarsOne (if isReversed then series.entries.reverse else series.entries)
  | .get key guard => guard = .own ∧ run.tree.Bars key
  | .depthOf key => run.tree.Bars key
  | .getSeries series | .depthOfSeries series => ∃ entry ∈ series.entries, run.tree.Bars entry.1
  | .find key | .lock key _ => ∃ k : Key n, Key.ofBytes n key = .ok k ∧ ¬run.tree.Clear k
  | .route path key => ∃ (i : Nat) (k : Key n),
    run.Ends path i ∧ Key.ofBytes n key = .ok k ∧ (run.tree.node i).version.isBusy = true
  | .routesAgree path a b => ∃ (i : Nat) (k l : Key n), run.Ends path i ∧
    Key.ofBytes n a = .ok k ∧ Key.ofBytes n b = .ok l ∧ (run.tree.node i).version.isBusy = true
  | _ => False

/-- Where no node is locked, nothing waits. -/
theorem Command.not_waits {run : Run w n String} (rest : run.tree.AtRest)
    (size : 0 < run.tree.nodes.size) (command : Command) : ¬command.Waits run := by
  have hfree (i : Nat) : (run.tree.node i).version.isBusy ≠ true := by simp [rest i]
  cases command with
  | put | get => exact fun h => rest.not_bars _ h.2
  | putEach => exact fun h => rest.not_barsOne size _ h.2
  | putSeries => exact rest.not_barsOne size _
  | depthOf => exact rest.not_bars _
  | getSeries | depthOfSeries => exact fun ⟨_, _, h⟩ => rest.not_bars _ h
  | find | lock => exact fun ⟨k, _, h⟩ => h (rest.clear k)
  | route => exact fun ⟨i, _, _, _, h⟩ => hfree i h
  | routesAgree => exact fun ⟨i, _, _, _, _, _, h⟩ => hfree i h
  | _ => exact id

/-- A command that changes neither the nodes nor their versions. -/
def Command.isReading : Command → Bool
  | .put .. | .putEach .. | .putSeries .. | .lock .. | .lockNode .. | .mark | .assign .. | .hang ..
    => false
  | _ => true

namespace Operation

open Run

/-- An operation ends, and leaves nothing but calls behind. -/
def Looks (body : Operation w n V α) (run : Run w n V) : Prop :=
  ∃ result calls, exec body run = some (result, run.tells calls)

section Looks

variable {run : Run w n V} {body : Operation w n V α} {next : α → Operation w n V β}

theorem Looks.of_exec {result : Except Fault α} (h : exec body run = some (result, run)) :
    Looks body run := ⟨result, [], h⟩

theorem Looks.bind (first : Looks body run)
    (second : ∀ a calls, exec body run = some (.ok a, run.tells calls) →
      Looks (next a) (run.tells calls)) : Looks (body >>= next) run := by
  obtain ⟨result, calls, hfirst⟩ := first
  cases result with
  | error fault => exact ⟨.error fault, calls, exec_bind_error hfirst⟩
  | ok a =>
    obtain ⟨result, others, hsecond⟩ := second a calls hfirst
    refine ⟨result, calls ++ others, ?_⟩
    rw [exec_bind_ok hfirst, hsecond, tells_append]

theorem Looks.scripted {body : Reaction w n V → Operation w n V α}
    (h : ∀ react, Looks (body react) run) : Looks (scripted body) run := by
  rw [Looks, exec_scripted]
  exact h _

theorem looks_pure (a : α) : Looks (pure a) run := .of_exec (exec_pure run a)

theorem looks_ofExcept (result : Except Fault α) : Looks (ofExcept result) run :=
  .of_exec (exec_ofExcept run result)

theorem Looks.mapM {items : List α} {look : α → Operation w n V β}
    (each : ∀ a ∈ items, ∀ calls, Looks (look a) (run.tells calls)) :
    Looks (items.mapM look) run := by
  induction items generalizing run with
  | nil => exact looks_pure []
  | cons a rest ih =>
    rw [List.mapM_cons]
    refine (each a List.mem_cons_self []).bind fun b calls _ => ?_
    refine (ih fun a ha others => ?_).bind fun bs others _ => looks_pure _
    rw [← tells_append]
    exact each a (List.mem_cons_of_mem _ ha) _

end Looks

section Requests

variable {run : Run w n V} {bytes : Bytes} {key : Key n}

theorem looks_get (still : run.script = []) (size : 0 < run.tree.nodes.size) {guard : GuardOrigin}
    (free : ¬(guard = .own ∧ run.tree.Bars bytes)) : Looks (get? bytes guard) run := by
  cases guard with
  | foreign => exact .of_exec (exec_get_foreign run bytes)
  | own =>
    cases h : run.tree.encode bytes with
    | error fault => exact .of_exec (exec_get_refused h)
    | ok key =>
      have clear := Tree.clear_of_not_bars (fun barred => free ⟨rfl, barred⟩) h
      exact ⟨_, _, exec_get_still run still size h clear⟩

theorem looks_depthOf (still : run.script = []) (size : 0 < run.tree.nodes.size)
    (free : ¬run.tree.Bars bytes) : Looks (depthOf? bytes) run := by
  cases h : run.tree.encode bytes with
  | error fault => exact .of_exec (exec_depthOf_refused h)
  | ok key =>
    exact ⟨_, _, exec_depthOf_still run still size h (Tree.clear_of_not_bars free h)⟩

theorem looks_route (still : run.script = []) {i : Nat}
    (rest : (run.tree.node i).version.isBusy = false) :
    Looks (scripted fun react => route react key i) run :=
  .scripted fun _ => ⟨_, _, exec_route_still run still rest⟩

theorem looks_hasChanged (still : run.script = []) (i : Nat) (token : Token) :
    Looks (scripted fun react => hasChanged react i token) run :=
  .scripted fun _ => ⟨_, [_], exec_hasChanged_still run still token⟩

theorem looks_hasChangedLocked (still : run.script = []) (lock : Lock) (token : Token) :
    Looks (scripted fun react => hasChangedLocked react lock token) run :=
  .scripted fun _ => ⟨_, [_], exec_hasChangedLocked_still run still lock.node token⟩

end Requests

section Paths

variable {run : Run w n String} {path : Path} {i : Nat}

theorem exists_exec_walk (run : Run w n String) (path : Path) (i : Nat) :
    ∃ result, exec (walk path i) run = some (result, run) := by
  induction path generalizing i with
  | nil => exact ⟨_, rfl⟩
  | cons link rest ih =>
    rw [walk, exec_bind_ok (exec_node run i)]
    cases h : (run.tree.node i).childAt link with
    | error fault => exact ⟨_, rfl⟩
    | ok child =>
      cases child with
      | none => exact ⟨_, rfl⟩
      | some child => exact ih child

theorem lt_of_walk {j : Nat} (hi : i < run.tree.nodes.size)
    (h : exec (walk path i) run = some (.ok (some j), run)) : j < run.tree.nodes.size := by
  induction path generalizing i with
  | nil => cases h; exact hi
  | cons link rest ih =>
    rw [walk, exec_bind_ok (exec_node run i)] at h
    cases hchild : (run.tree.node i).childAt link with
    | error fault =>
      rw [hchild] at h
      cases h
    | ok child =>
      rw [hchild] at h
      cases child with
      | none => cases h
      | some child =>
        rw [Node.childAt] at hchild
        split_ifs at hchild with hlink
        have hget : (run.tree.node i).links.get ⟨link, hlink⟩ = some child := Except.ok.inj hchild
        exact ih (run.tree.lt_of_link hget).2 h

/-- There is nothing to answer about, or the answer is about the node at the end of the path. -/
theorem exec_atPath_cases (size : 0 < run.tree.nodes.size) (path : Path)
    (answer : Nat → Operation w n String (Answer w)) :
    (∃ result, exec (atPath path answer) run = some (result, run)) ∨
      ∃ i, run.Ends path i ∧ i < run.tree.nodes.size ∧
        exec (atPath path answer) run = exec (answer i) run := by
  obtain ⟨result, hwalk⟩ := exists_exec_walk run path root
  cases result with
  | error fault => exact .inl ⟨_, exec_bind_error hwalk⟩
  | ok i =>
    cases i with
    | none => exact .inl ⟨_, exec_bind_ok hwalk⟩
    | some i => exact .inr ⟨i, hwalk, lt_of_walk size hwalk, exec_bind_ok hwalk⟩

theorem looks_atPath {answer : Nat → Operation w n String (Answer w)}
    (size : 0 < run.tree.nodes.size) (h : ∀ i, run.Ends path i → Looks (answer i) run) :
    Looks (atPath path answer) run := by
  rcases exec_atPath_cases size path answer with ⟨result, hnone⟩ | ⟨i, ends, _, hsome⟩
  · exact .of_exec hnone
  · rw [Looks, hsome]
    exact h i ends

end Paths

section Commands

variable {run : Run w n String} {path : Path} {bytes : Bytes} {series : Series}

theorem exec_anyKey (bytes : Bytes) (run : Run w n String) :
    exec (anyKey bytes) run = some (Key.ofBytes n bytes, run) := exec_ofExcept run _

theorem looks_bind_anyKey {next : Key n → Operation w n String β}
    (h : ∀ key, Key.ofBytes n bytes = .ok key → Looks (next key) run) :
    Looks (anyKey bytes >>= next) run := by
  have hkey := exec_anyKey bytes run
  cases fits : Key.ofBytes n bytes with
  | error fault =>
    rw [fits] at hkey
    exact .of_exec (exec_bind_error hkey)
  | ok key =>
    rw [fits] at hkey
    rw [Looks, exec_bind_ok hkey]
    exact h key fits

theorem looks_series {look : Bytes × String → Operation w n String β} (still : run.script = [])
    (size : 0 < run.tree.nodes.size) (free : ¬∃ entry ∈ series.entries, run.tree.Bars entry.1)
    (each : ∀ entry (there : Run w n String), there.script = [] → 0 < there.tree.nodes.size →
      ¬there.tree.Bars entry.1 → Looks (look entry) there) :
    Looks (series.entries.mapM look) run := by
  refine .mapM fun entry mem calls => each entry _ ?_ ?_ ?_
  · rwa [script_tells]
  · rwa [tree_tells]
  · rw [tree_tells]
    exact fun barred => free ⟨entry, mem, barred⟩

theorem looks_countFound (still : run.script = []) (size : 0 < run.tree.nodes.size)
    (free : ¬∃ entry ∈ series.entries, run.tree.Bars entry.1) :
    Looks (countFound series) run := by
  rw [countFound]
  refine Looks.bind (looks_series still size free ?_) fun _ _ _ => looks_pure _
  intro entry there still size free
  exact (looks_get still size fun h => free h.2).bind fun _ _ _ => looks_pure _

theorem looks_find (held : Option Lock) (still : run.script = []) (size : 0 < run.tree.nodes.size)
    (free : ¬(Command.find bytes).Waits run) : Looks (perform held (.find bytes)) run := by
  rw [perform]
  refine looks_bind_anyKey fun key fits => ?_
  have clear : run.tree.Clear key := by
    by_contra barred
    exact free ⟨key, fits, barred⟩
  refine Looks.bind (.scripted fun react => ?_) fun _ _ _ => .of_exec rfl
  exact ⟨_, _, exec_find_still run still size clear⟩

theorem looks_askLock (held : Option Lock) (still : run.script = [])
    (size : 0 < run.tree.nodes.size) (token : Token) (path : Option Path) :
    Looks (perform held (.askLock token path)) run := by
  rw [perform]
  cases held with
  | none => exact looks_pure _
  | some lock =>
    have hask (i : Nat) : Looks (do
        let hasChanged ← scripted fun react => hasChangedLocked react lock token
        return .lockState hasChanged (lock.node == i)
          (← version lock.node).describedLock : Operation w n String (Answer w)) run :=
      (looks_hasChangedLocked still lock token).bind fun _ _ _ => .of_exec rfl
    cases path with
    | none => exact hask lock.node
    | some path => exact looks_atPath size fun i _ => hask i

theorem looks_routed (held : Option Lock) (still : run.script = [])
    (size : 0 < run.tree.nodes.size) (free : ¬(Command.route path bytes).Waits run) :
    Looks (perform held (.route path bytes)) run := by
  rw [perform]
  refine looks_atPath size fun i ends => looks_bind_anyKey fun key fits => ?_
  have rest : (run.tree.node i).version.isBusy = false := by
    rw [← Bool.not_eq_true]
    exact fun busy => free ⟨i, key, ends, fits, busy⟩
  refine (looks_route still rest).bind fun _ _ _ => ?_
  exact (looks_hasChanged (by rwa [script_tells]) i _).bind fun _ _ _ => looks_pure _

theorem looks_routesAgree (held : Option Lock) {a b : Bytes} (still : run.script = [])
    (size : 0 < run.tree.nodes.size) (free : ¬(Command.routesAgree path a b).Waits run) :
    Looks (perform held (.routesAgree path a b)) run := by
  rw [perform]
  refine looks_atPath size fun i ends => ?_
  refine looks_bind_anyKey fun k fits => looks_bind_anyKey fun l fits' => ?_
  have rest : (run.tree.node i).version.isBusy = false := by
    rw [← Bool.not_eq_true]
    exact fun busy => free ⟨i, k, l, ends, fits, fits', busy⟩
  refine (looks_route still rest).bind fun _ _ _ => ?_
  exact (looks_route (by rwa [script_tells]) (by rwa [tree_tells])).bind fun _ _ _ => looks_pure _

/-- A command that only looks, and meets no lock on its way. -/
theorem looks_perform (held : Option Lock) {command : Command} (reading : command.isReading = true)
    (still : run.script = []) (size : 0 < run.tree.nodes.size) (free : ¬command.Waits run) :
    Looks (perform held command) run := by
  cases command with
  | put | putEach | putSeries | lock | lockNode | mark | assign | hang => cases reading
  | get key guard =>
    rw [perform]
    exact (looks_get still size free).bind fun _ _ _ => looks_pure _
  | getSeries series =>
    rw [perform]
    exact looks_countFound still size free
  | depthOf key =>
    rw [perform]
    exact (looks_depthOf still size free).bind fun _ _ _ => looks_pure _
  | depthOfSeries series =>
    rw [perform]
    exact (looks_series still size free fun _ _ => looks_depthOf).bind fun _ _ _ => looks_pure _
  | info | stats | print | printBounded =>
    rw [perform]
    exact .of_exec rfl
  | check =>
    rw [perform]
    refine Looks.bind (.of_exec (exec_tree run)) fun tree _ _ => ?_
    refine (looks_ofExcept tree.check).bind fun found _ _ => ?_
    cases found <;> exact looks_pure _
  | find => exact looks_find held still size free
  | askLock token path => exact looks_askLock held still size token path
  | node path =>
    rw [perform]
    exact looks_atPath size fun _ _ => .of_exec rfl
  | isOccupied path slot | keyAt path slot | childAt path link | valueAt path slot =>
    rw [perform]
    refine looks_atPath size fun i _ => ?_
    exact Looks.bind (.of_exec (exec_node run i)) fun node _ _ =>
      (looks_ofExcept _).bind fun _ _ _ => looks_pure _
  | route => exact looks_routed held still size free
  | routesAgree => exact looks_routesAgree held still size free
  | hasChanged path token =>
    rw [perform]
    refine looks_atPath size fun i _ => ?_
    exact (looks_hasChanged still i token).bind fun _ _ _ => looks_pure _

end Commands

end Operation

end FanoutIndex

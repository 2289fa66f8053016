import FanoutIndex.Proofs.Scripted.Puts

/-!
# The write protocol

A put is a sequence of attempts. Each walks down from the root and scans every node until a scan is
confirmed; at the last node it asks once more, takes the lock, and asks again under the lock. Where
the answer is that something changed, the attempt is given up with nothing written. The one that is
not given up writes and gives the lock back.
-/

namespace FanoutIndex

variable {w n : Nat} {V : Type}

def Call.isOwn : Call V → Bool
  | .bump _ _ | .beginPut _ _ | .endPut _ _ | .beginGet _ | .endGet _ _ => false
  | _ => true

def ownCalls (calls : List (Call V)) : List (Call V) := calls.filter Call.isOwn

theorem ownCalls_append (calls others : List (Call V)) :
    ownCalls (calls ++ others) = ownCalls calls ++ ownCalls others :=
  List.filter_append ..

namespace Protocol

def scanCalls (node : Nat) (changed : Bool) (token : Token) : List (Call V) :=
  [.stable node token, .hasChanged node token changed]

/-- A node that is scanned until a scan is confirmed. -/
structure Visit where
  node : Nat
  /-- The tokens of the scans that were not confirmed. -/
  stale : List Token
  token : Token

def Visit.calls (visit : Visit) : List (Call V) :=
  visit.stale.flatMap (scanCalls visit.node true) ++ scanCalls visit.node false visit.token

/-- A way down from the root. -/
structure Walk where
  above : List Visit
  last : Visit

namespace Walk

def visits (walk : Walk) : List Visit := walk.above ++ [walk.last]

def nodes (walk : Walk) : List Nat := walk.visits.map Visit.node

def calls (walk : Walk) : List (Call V) := walk.visits.flatMap Visit.calls

/-- The way down from a node to one of its children, and on. -/
def under (visit : Visit) (walk : Walk) : Walk := ⟨visit :: walk.above, walk.last⟩

theorem nodes_under (visit : Visit) (walk : Walk) :
    (walk.under visit).nodes = visit.node :: walk.nodes := rfl

theorem calls_under (visit : Visit) (walk : Walk) :
    ((walk.under visit).calls : List (Call V)) = visit.calls ++ walk.calls := rfl

end Walk

/-- How an attempt is given up. -/
inductive Retreat where
  /-- The node changed after its last scan. -/
  | changed
  /-- The lock was not to be had. -/
  | refused
  /-- The node changed before the lock was taken; this is the version that is given back. -/
  | late (version : Version)

def Retreat.calls (node : Nat) (token : Token) : Retreat → List (Call V)
  | changed => [.hasChanged node token true]
  | refused => [.hasChanged node token false, .tryLock node false]
  | late version =>
    [.hasChanged node token false, .tryLock node true, .hasChangedLocked node token true,
      .unlock node version]

/-- An attempt that is given up at the end of its walk. -/
structure Attempt where
  walk : Walk
  retreat : Retreat

def Attempt.calls (attempt : Attempt) : List (Call V) :=
  attempt.walk.calls ++ attempt.retreat.calls attempt.walk.last.node attempt.walk.last.token

def lockCalls (node : Nat) (token : Token) : List (Call V) :=
  [.hasChanged node token false, .tryLock node true, .hasChangedLocked node token false]

/-- What a put does under its lock: only a new key or a new node is a structural change. -/
def writeCalls (node : Nat) (token : Token) : Place w → List (Call V)
  | .update _ => [.unlock node ⟨token⟩]
  | .fill _ | .attach _ =>
    [.markInsert node (Version.marked ⟨token⟩), .unlock node (Version.bumped ⟨token⟩)]

/-- The calls of a put: attempts that it gave up, and the last walk with the write. -/
def putCalls (failed : List Attempt) (walk : Walk) (place : Place w) : List (Call V) :=
  failed.flatMap Attempt.calls ++ walk.calls ++
    (lockCalls walk.last.node walk.last.token ++ writeCalls walk.last.node walk.last.token place)

section Locks

def heldAfter (held : List Nat) : Call V → List Nat
  | .tryLock node true => node :: held
  | .unlock node _ => held.erase node
  | _ => held

/-- The nodes whose locks are held after some calls. -/
def locksHeld (calls : List (Call V)) : List Nat := calls.foldl heldAfter []

/-- Never two locks at a time, and in the end none. -/
structure OneLock (calls : List (Call V)) : Prop where
  atMostOne : ∀ before, before <+: calls → (locksHeld before).length ≤ 1
  released : locksHeld calls = []

variable {calls others : List (Call V)} {node : Nat} {token : Token}

theorem foldl_heldAfter_of_keeps (keeps : ∀ call ∈ calls, ∀ held, heldAfter held call = held)
    (held : List Nat) : calls.foldl heldAfter held = held := by
  induction calls with
  | nil => rfl
  | cons call rest ih =>
    rw [List.foldl_cons, keeps call List.mem_cons_self]
    exact ih fun c hc => keeps c (List.mem_cons_of_mem _ hc)

theorem locksHeld_ownCalls (calls : List (Call V)) :
    locksHeld (ownCalls calls) = locksHeld calls := by
  rw [locksHeld, ownCalls, List.foldl_filter, locksHeld]
  congr 1
  funext held call
  cases call <;> rfl

/-- The calls of other clients do not matter. -/
theorem OneLock.of_ownCalls (h : OneLock (ownCalls calls)) : OneLock calls where
  atMostOne := by
    intro before hbefore
    rw [← locksHeld_ownCalls]
    exact h.atMostOne _ (hbefore.filter _)
  released := by rw [← locksHeld_ownCalls, h.released]

theorem OneLock.of_keeps (keeps : ∀ call ∈ calls, ∀ held, heldAfter held call = held) :
    OneLock calls where
  atMostOne := by
    intro before hbefore
    have hnone : locksHeld before = [] :=
      foldl_heldAfter_of_keeps (fun call hcall => keeps call (hbefore.subset hcall)) []
    simp [hnone]
  released := foldl_heldAfter_of_keeps keeps []

theorem OneLock.append (first : OneLock calls) (second : OneLock others) :
    OneLock (calls ++ others) := by
  have hrest (later : List (Call V)) : locksHeld (calls ++ later) = locksHeld later := by
    rw [locksHeld, List.foldl_append, ← locksHeld, first.released, locksHeld]
  constructor
  case atMostOne =>
    intro before hbefore
    rcases List.prefix_or_prefix_of_prefix hbefore (List.prefix_append calls others) with
      h | ⟨later, rfl⟩
    · exact first.atMostOne before h
    · rw [hrest]
      exact second.atMostOne later ((List.prefix_append_right_inj calls).1 hbefore)
  case released => rw [hrest, second.released]

theorem OneLock.flatMap {α : Type} {items : List α} {made : α → List (Call V)}
    (each : ∀ item ∈ items, OneLock (made item)) : OneLock (items.flatMap made) := by
  induction items with
  | nil => exact .of_keeps fun _ h => absurd h List.not_mem_nil
  | cons item rest ih =>
    rw [List.flatMap_cons]
    exact (each item List.mem_cons_self).append (ih fun i hi => each i (List.mem_cons_of_mem _ hi))

/-- A lock that is taken, kept over some calls and given back. -/
theorem OneLock.bracket (keeps : ∀ call ∈ calls, ∀ held, heldAfter held call = held)
    (node : Nat) (version : Version) :
    OneLock (.tryLock node true :: (calls ++ [.unlock node version])) where
  atMostOne := by
    intro before hbefore
    rcases List.prefix_cons_iff.1 hbefore with rfl | ⟨inner, rfl, hinner⟩
    · exact Nat.zero_le _
    rcases List.prefix_concat_iff.1 hinner with rfl | hinner
    · have h := foldl_heldAfter_of_keeps keeps [node]
      simp [locksHeld, heldAfter, h]
    · have h : inner.foldl heldAfter [node] = [node] :=
        foldl_heldAfter_of_keeps (fun call hcall => keeps call (hinner.subset hcall)) [node]
      simp [locksHeld, heldAfter, h]
  released := by
    have h := foldl_heldAfter_of_keeps keeps [node]
    simp [locksHeld, heldAfter, h]

theorem oneLock_walk (walk : Walk) : OneLock (walk.calls : List (Call V)) := by
  refine .of_keeps fun call hcall held => ?_
  simp only [Walk.calls, Visit.calls, scanCalls, List.mem_flatMap, List.mem_append, List.mem_cons,
    List.not_mem_nil, or_false] at hcall
  obtain ⟨visit, _, ⟨token, _, rfl | rfl⟩ | rfl | rfl⟩ := hcall <;> rfl

theorem oneLock_retreat (retreat : Retreat) :
    OneLock (retreat.calls node token : List (Call V)) := by
  have hasked (answer : Bool) : OneLock [(.hasChanged node token answer : Call V)] :=
    .of_keeps (by simp [heldAfter])
  cases retreat with
  | changed => exact hasked true
  | refused => exact .of_keeps (by simp [Retreat.calls, heldAfter])
  | late version =>
    have hlate : OneLock
        (.tryLock node true :: ([.hasChangedLocked node token true] ++ [.unlock node version]) :
          List (Call V)) := .bracket (by simp [heldAfter]) node version
    exact (hasked false).append hlate

theorem oneLock_write (place : Place w) :
    OneLock (lockCalls node token ++ writeCalls node token place : List (Call V)) := by
  have hasked : OneLock [(.hasChanged node token false : Call V)] := .of_keeps (by simp [heldAfter])
  have hplain (version : Version) : OneLock
      (.tryLock node true :: ([.hasChangedLocked node token false] ++ [.unlock node version]) :
        List (Call V)) := .bracket (by simp [heldAfter]) node version
  have hmarked (marked version : Version) : OneLock
      (.tryLock node true :: ([.hasChangedLocked node token false, .markInsert node marked] ++
        [.unlock node version]) : List (Call V)) := .bracket (by simp [heldAfter]) node version
  cases place with
  | update slot => exact hasked.append (hplain _)
  | fill slot => exact hasked.append (hmarked _ _)
  | attach link => exact hasked.append (hmarked _ _)

theorem oneLock_put (failed : List Attempt) (walk : Walk) (place : Place w) :
    OneLock (putCalls failed walk place : List (Call V)) := by
  have hfailed : OneLock (failed.flatMap Attempt.calls : List (Call V)) :=
    .flatMap fun attempt _ => (oneLock_walk attempt.walk).append (oneLock_retreat _)
  exact (hfailed.append (oneLock_walk walk)).append (oneLock_write place)

end Locks

end Protocol

namespace Run

def tells (run : Run w n V) (calls : List (Call V)) : Run w n V := calls.foldl noted run

variable (run : Run w n V) (calls others : List (Call V))

theorem tells_append : run.tells (calls ++ others) = (run.tells calls).tells others :=
  List.foldl_append ..

@[simp]
theorem tree_tells : (run.tells calls).tree = run.tree := by
  induction calls generalizing run with
  | nil => rfl
  | cons call rest ih => exact ih (run.noted call)

@[simp]
theorem script_tells : (run.tells calls).script = run.script := by
  induction calls generalizing run with
  | nil => rfl
  | cons call rest ih => exact ih (run.noted call)

theorem trace_tells : (run.tells calls).trace.map Array.toList =
    run.trace.map fun made => made.toList ++ calls := by
  induction calls using List.reverseRecOn with
  | nil => simp [tells]
  | append_singleton calls call ih =>
    rw [tells_append]
    exact trace_noted call ih

theorem tells_some (tree : Tree w n V) (script : List (Event V)) (made : Array (Call V)) :
    tells ⟨tree, script, some made⟩ calls = ⟨tree, script, some (made ++ calls.toArray)⟩ := by
  induction calls generalizing made with
  | nil => simp [tells]
  | cons call rest ih =>
    refine (ih (made.push call)).trans ?_
    simp

theorem tells_quiet (tree : Tree w n V) : (quiet tree).tells calls = quiet tree := by
  induction calls with
  | nil => rfl
  | cons call rest ih => exact ih

end Run

namespace Operation

open Protocol

theorem exec_write_tells {i d : Nat} {place : Place w} {key : Key n} (run : Run w n V) (value : V)
    (hi : i < run.tree.nodes.size) (rest : (run.tree.node i).version.isBusy = false)
    (hend : (run.tree.layout i).Routes key place.route) :
    exec (underLock ⟨i⟩ (write ⟨⟨i⟩, place, d⟩ key value)) (run.locked i) =
      some (.ok (), { run.tells (writeCalls i (run.tree.node i).version.word place) with
        tree := run.tree.change i place key value }) := by
  cases place with
  | update slot => exact exec_write_update rest hi
  | fill slot => exact exec_write_fill value rest hi
  | attach link => exact exec_write_attach value rest hi hend.2

end Operation

end FanoutIndex

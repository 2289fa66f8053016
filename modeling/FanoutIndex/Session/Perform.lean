import FanoutIndex.Session.Answer
import FanoutIndex.Session.Command
import FanoutIndex.Tree.Dump

/-!
# Sessions

Runs commands on an index and collects their answers. A fault is the answer of the command that it
ended, and the session goes on with the index as the fault left it.
-/

namespace FanoutIndex

open Text

namespace Operation

variable {w n : Nat}

def walk : Path → Nat → Operation w n String (Option Nat)
  | [], i => return some i
  | link :: rest, i => do
    match ← ofExcept ((← node i).childAt link) with
    | none => return none
    | some child => walk rest child

/-- Answers about the node at the end of a path. -/
def atPath (path : Path) (answer : Nat → Operation w n String (Answer w)) :
    Operation w n String (Answer w) := do
  match ← walk path root with
  | none => return .noNode
  | some i => answer i

/-- Answers about the node at the end of a path, or about the locked node if no path is given. -/
def atPathOr (lock : Lock) (path : Option Path) (answer : Nat → Operation w n String (Answer w)) :
    Operation w n String (Answer w) :=
  match path with
  | none => answer lock.node
  | some path => atPath path answer

/-- Answers by the lock that is held. -/
def withHeld (held : Option Lock) (answer : Lock → Operation w n String (Answer w)) :
    Operation w n String (Answer w) :=
  match held with
  | none => return .noLock
  | some lock => answer lock

/-- Encodes a key of any width that the key type holds. -/
def anyKey (key : Bytes) : Operation w n String (Key n) := ofExcept (Key.ofBytes n key)

def answerCounters : Operation w n String (Answer w) := do
  let tree ← tree
  return .counters tree.len tree.nodeCount

def describeCursor (cursor : Cursor n) : Operation w n String Described := do
  return .record "Cursor"
    [("root", (← node root).described), ("key", cursor.key.described),
      ("depth", .ofNat cursor.depth)]
    false

def describeTarget (target : Target w) : Operation w n String Described := do
  let node ← node target.lock.node
  return .record "WriteTarget"
    [("node", node.described), ("slot", .ofNat target.place.index),
      ("kind", .word target.place.name), ("lock", node.version.describedLock)]
    false

def answerNode (i : Nat) : Operation w n String (Answer w) := do
  let node ← node i
  let slots := (List.finRange w).map fun slot =>
    ((node.key? slot).map Key.toBytes, node.values.get slot)
  return .node node.occupied slots node.version node.described (node.links.toList.map Option.isSome)

/-- How many keys of a series are there, and how many of these have their own value. -/
def countFound (series : Series) : Operation w n String (Answer w) := do
  let values ← series.entries.mapM fun entry => do
    return ((← get? entry.1 .own), entry.2)
  return .seriesFound (values.countP fun value => value.1.isSome)
    (values.countP fun value => value.1 == some value.2)

/-- Takes a fault for an answer. -/
def answered (body : Operation w n String (Answer w)) :
    StateT (Run w n String) Option (Answer w) := do
  match ← body.run with
  | .ok answer => return answer
  | .error cause => return .fault cause

mutual

/-- Runs one command, under the innermost lock that is held. -/
def perform (held : Option Lock) : Command → Operation w n String (Answer w)
  | .put key value guard => do
    put key value guard
    answerCounters
  | .putEach keys value guard => do
    keys.forM fun key => put key value guard
    answerCounters
  | .putSeries series isReversed => do
    let entries := if isReversed then series.entries.reverse else series.entries
    entries.forM fun entry => put entry.1 entry.2 .own
    answerCounters
  | .get key guard => return .value (← get? key guard)
  | .getSeries series => countFound series
  | .depthOf key => return .depth (← depthOf? key)
  | .depthOfSeries series =>
    return .depths (← series.entries.mapM fun entry => depthOf? entry.1)
  | .info => do
    let tree ← tree
    return .info tree.len tree.nodeCount tree.keyWidth tree.isEmpty tree.described
  | .stats => return .stats (← tree).stats
  | .check => do
    match ← ofExcept (← tree).check with
    | none => return .sound
    | some violation => return .violation violation
  | .print => return .printed (← tree).print
  | .printBounded room => do
    let (result, writer) := BoundedWriter.dump (← tree) room
    return .written writer.taken (result matches .ok _)
  | .find key => do
    let cursor := Cursor.new (← anyKey key)
    let (value, depth) ← scripted fun react => find react cursor.key
    let described ← describeCursor { cursor with depth }
    return .found value cursor.depth depth cursor.key.printable described
  | .lock key body => do
    let key ← anyKey key
    let target ← scripted fun react => findLocked react key
    let described ← describeTarget target
    let answers ← underLock target.lock (performEach (some target.lock) body)
    let cursor ← describeCursor ⟨key, target.depth⟩
    return .locked target described cursor answers (← version target.lock.node).word
  | .lockNode path body => atPath path fun i => do
    match ← scripted fun react => tryLock react i with
    | none => return .notLocked
    | some lock =>
      let answers ← underLock lock (performEach (some lock) body)
      return .lockedNode answers (← version i).word
  | .mark => withHeld held fun lock => do
    markInsert lock
    return .word (← version lock.node).word
  | .askLock token path => withHeld held fun lock => atPathOr lock path fun i => do
    let hasChanged ← scripted fun react => hasChangedLocked react lock token
    return .lockState hasChanged (lock.node == i) (← version lock.node).describedLock
  | .assign slot key value path => withHeld held fun lock => atPathOr lock path fun i => do
    assign i slot (← anyKey key) value lock
    return .word (← version lock.node).word
  | .hang link entry path => withHeld held fun lock => atPathOr lock path fun i => do
    let child ← match entry with
      | none => createEmpty
      | some (key, value) => createEntry (← anyKey key) value
    hang i link child lock
    return .word (← version lock.node).word
  | .node path => atPath path answerNode
  | .isOccupied path slot => atPath path fun i => do
    return .truth (← ofExcept ((← node i).isOccupiedAt slot))
  | .keyAt path slot => atPath path fun i => do
    return .text ((← ofExcept ((← node i).keyAt slot)).map Key.printable)
  | .childAt path link => atPath path fun i => do
    return .truth (← ofExcept ((← node i).childAt link)).isSome
  | .valueAt path slot => atPath path fun i => do
    return .text (← ofExcept ((← node i).valueAt slot))
  | .route path key => atPath path fun i => do
    let key ← anyKey key
    let (route, token) ← scripted fun react => route react key i
    return .routed route token (← scripted fun react => hasChanged react i token)
  | .routesAgree path a b => atPath path fun i => do
    let a ← anyKey a
    let b ← anyKey b
    let (first, _) ← scripted fun react => route react a i
    let (second, _) ← scripted fun react => route react b i
    return .routesAgree (first == second)
  | .hasChanged path token => atPath path fun i => do
    return .truth (← scripted fun react => hasChanged react i token)

/-- Runs commands in turn, under the innermost lock that is held. -/
def performEach (held : Option Lock) :
    List Command → StateT (Run w n String) Option (List (Answer w))
  | [] => return []
  | command :: rest => do
    let answer ← answered (perform held command)
    return answer :: (← performEach held rest)

end

end Operation

namespace Session

variable {w n : Nat}

/-- Runs one command among the events of its script and gives the calls that it made. -/
def step (step : Step) : StateT (Run w n String) Option (Answer w × List (Call String)) := do
  modify fun
    | ⟨tree, _, trace⟩ => ⟨tree, step.script, trace.map fun _ => #[]⟩
  let answer ← Operation.answered (Operation.perform none step.command)
  return (answer, ((← get).trace.getD #[]).toList)

/-- Runs commands in turn, with the calls that each of them made. Nothing is answered if one of them
never ends. -/
def run (steps : List Step) (tree : Tree w n String) :
    Option (List (Answer w × List (Call String))) :=
  (steps.mapM step).run' ⟨tree, [], some #[]⟩

def runQuiet (commands : List Command) (tree : Tree w n String) : Option (List (Answer w)) :=
  (Operation.performEach none commands).run' (.quiet tree)

end Session

end FanoutIndex

import FanoutIndex.Access.Index
import FanoutIndex.Concurrent.System
import FanoutIndex.Tree.Check
import FanoutIndex.Tree.Stats

namespace FanoutIndex

/-- The entries that each client puts, in order. -/
abbrev Workload := List (List (Bytes × String))

structure Survey (n : Nat) where
  len : Nat
  stats : Stats
  nodeCount : Nat
  violation : Option Violation
  /-- The value of every key of the workload, in the order of the keys. -/
  contents : List (Key n × Option String)

namespace Workload

variable {w n : Nat}

def requests (workload : Workload) (tree : Tree w n String) :
    Except Fault (List (List (Request n String))) :=
  workload.mapM fun entries => entries.mapM fun entry => do
    return .put (← tree.encode entry.1) entry.2

/-- Looks every key up in an index that nobody works on. -/
def contents (tree : Tree w n String) (keys : List (Key n)) :
    Option (Except Fault (List (Key n × Option String))) :=
  let action : Operation w n String (List (Key n × Option String)) :=
    keys.mapM fun key => do
      return (key, (← Operation.scripted fun react => Operation.find react key).1)
  (action.exec (.quiet tree)).map (·.1)

def survey (tree : Tree w n String) (keys : List (Key n)) : Option (Except Fault (Survey n)) :=
  (contents tree (Key.sortDistinct keys)).map fun contents => do
    return {
      len := tree.len
      stats := tree.stats
      nodeCount := tree.nodeCount
      violation := ← tree.check
      contents := ← contents }

/-- Runs a workload with clients that take turns, and surveys the index. -/
def perform (workload : Workload) (tree : Tree w n String) : Option (Except Fault (Survey n)) :=
  match workload.requests tree with
  | .error cause => some (.error cause)
  | .ok requests =>
    match (System.ofRequests tree requests).finish with
    | none => none
    | some system =>
      match system.clients.findSome? (·.broken) with
      | some cause => some (.error cause)
      | none => survey system.tree (requests.flatten.map Request.key)

end Workload

end FanoutIndex

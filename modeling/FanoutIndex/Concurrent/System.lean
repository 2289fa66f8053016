import FanoutIndex.Concurrent.Stage

/-!
# Systems of clients

A system is an index and the clients that work on it, each with its requests. One step lets one
client make one access, and a schedule lists the clients in the order of their steps. `System.run`
follows any schedule, and `System.rotate` lets the clients take turns until all requests are
answered.
-/

namespace FanoutIndex

/-- A client: the requests to come, the one under way, and those that are over. -/
structure Client (w n : Nat) (V : Type) where
  todo : List (Request n V)
  task : Option (Request n V × Stage w n V)
  replies : Array (Request n V × Reply V)
  /-- The contract that the client saw broken, which ends its work. -/
  broken : Option Fault

namespace Client

variable {w n : Nat} {V : Type}

def ofRequests (requests : List (Request n V)) : Client w n V := ⟨requests, none, #[], none⟩

def isIdle (client : Client w n V) : Bool := client.task.isNone && client.todo.isEmpty

/-- Takes up the next request, or makes one access for the request under way. -/
def step (client : Client w n V) (tree : Tree w n V) : Client w n V × Tree w n V :=
  match client with
  | ⟨[], none, replies, broken⟩ => (⟨[], none, replies, broken⟩, tree)
  | ⟨request :: todo, none, replies, broken⟩ =>
    (⟨todo, some (request, .start), replies, broken⟩, tree)
  | ⟨todo, some (request, stage), replies, broken⟩ =>
    match stage.step request tree with
    | (.next stage, tree) => (⟨todo, some (request, stage), replies, broken⟩, tree)
    | (.ended reply, tree) => (⟨todo, none, replies.push (request, reply), broken⟩, tree)
    | (.broken cause, tree) => (⟨[], none, replies, some cause⟩, tree)

end Client

structure System (w n : Nat) (V : Type) where
  tree : Tree w n V
  clients : Array (Client w n V)

namespace System

variable {w n : Nat} {V : Type}

def ofRequests (tree : Tree w n V) (requests : List (List (Request n V))) : System w n V :=
  ⟨tree, (requests.map Client.ofRequests).toArray⟩

def step (system : System w n V) (c : Nat) : System w n V :=
  match system with
  | ⟨tree, clients⟩ =>
    if h : c < clients.size then
      let (client, tree) := clients[c].step tree
      ⟨tree, clients.set c client⟩
    else ⟨tree, clients⟩

def run (system : System w n V) (schedule : List Nat) : System w n V := schedule.foldl step system

def isIdle (system : System w n V) : Bool := system.clients.all Client.isIdle

/-- Lets every client make one step, one after the other. -/
def turn (system : System w n V) : System w n V := system.run (List.range system.clients.size)

/-- Lets the clients take turns until all of them are done, for a number of turns at most. -/
def rotate : (turns : Nat) → System w n V → Option (System w n V)
  | 0, system => if system.isIdle then some system else none
  | turns + 1, system => if system.isIdle then some system else rotate turns system.turn

def unanswered (system : System w n V) : Nat :=
  let owed (client : Client w n V) : Nat := client.todo.length + client.task.toList.length
  system.clients.foldl (fun count client => count + owed client) 0

/-- Enough turns for all requests. The accesses of a request that nothing disturbs are bounded by
the nodes there can be, and whatever disturbs it is another request that comes to its end. -/
def turnLimit (system : System w n V) : Nat :=
  let requests := system.unanswered
  let nodes := system.tree.nodes.size + requests
  let accesses := (nodes + 1) * (w * (n + 1) + 4) + n + 20
  4 * (requests + 1) * accesses

/-- The system once all requests are answered by clients that take turns. -/
def finish (system : System w n V) : Option (System w n V) := rotate system.turnLimit system

@[simp]
theorem run_nil (system : System w n V) : system.run [] = system := rfl

@[simp]
theorem run_cons (system : System w n V) (c : Nat) (schedule : List Nat) :
    system.run (c :: schedule) = (system.step c).run schedule := rfl

theorem run_append (system : System w n V) (first second : List Nat) :
    system.run (first ++ second) = (system.run first).run second := by
  simp [run]

end System

end FanoutIndex

import FanoutIndex.Access.Search

namespace FanoutIndex

/-- Which index a guard was entered on. -/
inductive GuardOrigin where
  | own
  | foreign
  deriving DecidableEq, Repr

namespace Operation

variable {w n : Nat} {V : Type}

/-- Refuses a guard of another index. -/
def checkGuard : GuardOrigin → Operation w n V Unit
  | .own => return
  | .foreign => throw .foreignGuard

def encode (key : Bytes) : Operation w n V (Key n) := do ofExcept ((← tree).encode key)

/-- Makes the change of a put at a locked target. -/
def write (target : Target w) (key : Key n) (value : V) : Operation w n V Unit := do
  let lock := target.lock
  match target.place with
  | .update slot => assign lock.node slot key value lock
  | .fill slot =>
    markInsert lock
    assign lock.node slot key value lock
    changeTree (·.countEntry)
  | .attach link =>
    let child ← createEntry key value
    markInsert lock
    hang lock.node link child lock
    changeTree fun tree => tree.countNode.countEntry

section

variable (react : Reaction w n V)

def getWith (key : Bytes) (guard : GuardOrigin) : Operation w n V (Option V) := do
  checkGuard guard
  let key ← encode key
  return (← find react key).1

def depthOfWith (key : Bytes) : Operation w n V (Option Nat) := do
  let key ← encode key
  let (value, depth) ← find react key
  return value.map fun _ => depth

def putWith (key : Bytes) (value : V) (guard : GuardOrigin) : Operation w n V Unit := do
  checkGuard guard
  let key ← encode key
  let target ← findLocked react key
  underLock target.lock (write target key value)

end

/-- What other clients do at an event. Their operations meet the events that are still to come, and
with each level of this nesting at least one event is spent. -/
def interfere : (levels : Nat) → Reaction w n V
  | 0, _, _ => return
  | levels + 1, event, i => do
    match event.disturbance with
    | .fail => return
    | .bump => bump i
    | .put key value =>
      note (.beginPut key value)
      putWith (interfere levels) key value .own
      note (.endPut key value)
    | .get key =>
      note (.beginGet key)
      let value ← getWith (interfere levels) key .own
      note (.endGet key value)

/-- Runs an operation among the events of the script. -/
def scripted {α : Type} (body : Reaction w n V → Operation w n V α) : Operation w n V α := do
  body (interfere (← eventsLeft))

def get? (key : Bytes) (guard : GuardOrigin) : Operation w n V (Option V) :=
  scripted fun react => getWith react key guard

def depthOf? (key : Bytes) : Operation w n V (Option Nat) :=
  scripted fun react => depthOfWith react key

def put (key : Bytes) (value : V) (guard : GuardOrigin) : Operation w n V Unit :=
  scripted fun react => putWith react key value guard

end Operation

end FanoutIndex

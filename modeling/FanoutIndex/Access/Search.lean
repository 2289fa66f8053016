import FanoutIndex.Access.Run

/-!
# Searches

A search walks from the root to the node that is responsible for a key. At every node it takes a
token, decides where the key leads, and asks whether the node changed meanwhile; if so it scans the
node again. A reader ends with the value. A writer ends with the lock of the node that it has to
change: it asks once more before and once after it takes the lock, and where anything moved it
starts again at the root with nothing kept.

Every repeated scan and every new start is caused by an event, so the events still to come bound
them, and the nodes bound the way down.
-/

namespace FanoutIndex

/-- The change that a put has to make at a node. -/
inductive Place (w : Nat) where
  /-- The key is in this slot: replace its value. -/
  | update (slot : Fin w)
  /-- This is the first vacant slot: take it. -/
  | fill (slot : Fin w)
  /-- There is no child under this link: hang a new node there. -/
  | attach (link : Fin (w + 1))
  deriving DecidableEq, Repr

namespace Place

variable {w : Nat}

def index : Place w → Nat
  | update slot => slot
  | fill slot => slot
  | attach link => link

def name : Place w → String
  | update _ => "Update"
  | fill _ => "Fill"
  | attach _ => "Attach"

end Place

/-- The way on from a node: down to a child, or to a place in the node itself. -/
inductive Turn (w : Nat) where
  | down (child : Nat)
  | here (place : Place w)
  deriving DecidableEq, Repr

def Route.turn {w : Nat} : Route w → Turn w
  | .found slot => .here (.update slot)
  | .vacant slot => .here (.fill slot)
  | .descend _ (some child) => .down child
  | .descend link none => .here (.attach link)

/-- A locked node and the change to make there. -/
structure Target (w : Nat) where
  lock : Lock
  place : Place w
  /-- The depth of the node; the root has depth 1. -/
  depth : Nat
  deriving DecidableEq, Repr

structure Cursor (n : Nat) where
  key : Key n
  /-- The depth of the last node visited, and 0 before the first. -/
  depth : Nat
  deriving DecidableEq, Repr

def Cursor.new {n : Nat} (key : Key n) : Cursor n := ⟨key, 0⟩

namespace Operation

variable {w n : Nat} {V : Type} (react : Reaction w n V)

/-- Scans a node until it holds still. -/
def scan (key : Key n) (i : Nat) : (rescans : Nat) → Operation w n V (Route w × Token)
  | 0 => forever
  | rescans + 1 => do
    let token ← stable react i
    let route := (← node i).route key
    if ← hasChanged react i token then scan key i rescans else return (route, token)

/-- Where a key leads in a node, with the token that this was checked against. -/
def route (key : Key n) (i : Nat) : Operation w n V (Route w × Token) := do
  scan react key i ((← eventsLeft) + 1)

/-- Bounds the nodes on a way down. -/
def hopLimit : Operation w n V Nat := return (← tree).nodes.size + (← eventsLeft) + 1

/-- The reader's way down from a node of the given depth. -/
def findFrom (key : Key n) : (hops i depth : Nat) → Operation w n V (Option V × Nat)
  | 0, _, _ => forever
  | hops + 1, i, depth => do
    match (← route react key i).1 with
    | .found slot => return ((← node i).values.get slot, depth)
    | .vacant _ => return (none, depth)
    | .descend _ none => return (none, depth)
    | .descend _ (some child) => findFrom key hops child (depth + 1)

/-- Looks a key up: its value, and the depth of the last node visited. -/
def find (key : Key n) : Operation w n V (Option V × Nat) := do
  findFrom react key (← hopLimit) root 1

/-- Locks a node for a change if it is still as it was when the token was taken. -/
def lockUnchanged (i : Nat) (token : Token) : Operation w n V (Option Lock) := do
  if ← hasChanged react i token then return none
  match ← tryLock react i with
  | none => return none
  | some lock =>
    match ← outcome (hasChangedLocked react lock token) with
    | .ok false => return some lock
    | .ok true =>
      unlock lock
      return none
    | .error fault =>
      unlock lock
      throw fault

/-- The writer's way down from a node of the given depth; no target means to start again. -/
def descendFrom (key : Key n) : (hops i depth : Nat) → Operation w n V (Option (Target w))
  | 0, _, _ => forever
  | hops + 1, i, depth => do
    let (route, token) ← route react key i
    match route.turn with
    | .down child => descendFrom key hops child (depth + 1)
    | .here place =>
      return (← lockUnchanged react i token).map fun lock => ⟨lock, place, depth⟩

/-- Starts at the root until a target is locked. -/
def attempt (key : Key n) : (restarts : Nat) → Operation w n V (Target w)
  | 0 => forever
  | restarts + 1 => do
    match ← descendFrom react key (← hopLimit) root 1 with
    | some target => return target
    | none => attempt key restarts

/-- Locks the node that a put of the key has to change. -/
def findLocked (key : Key n) : Operation w n V (Target w) := do
  attempt react key ((← eventsLeft) + 1)

end Operation

end FanoutIndex

import FanoutIndex.Access.Call
import FanoutIndex.Access.Event
import FanoutIndex.Tree.Basic

/-!
# Runs

An operation acts on a run: a tree, the script of events still to come, and the trace of the calls
made so far. It ends with a value or with a fault, and either way with a run, or it goes on for
ever, which is what a wait for a lock does that nobody will give back.

The calls on versions are the places where events happen. What other clients do at an event is a
parameter here, the reaction, since their operations are made of the same calls.
-/

namespace FanoutIndex

structure Run (w n : Nat) (V : Type) where
  tree : Tree w n V
  script : List (Event V)
  /-- The calls so far, oldest first, if they are to be kept. -/
  trace : Option (Array (Call V))

/-- A tree that nobody else works on. -/
def Run.quiet {w n : Nat} {V : Type} (tree : Tree w n V) : Run w n V := ⟨tree, [], none⟩

abbrev Operation (w n : Nat) (V : Type) := ExceptT Fault (StateT (Run w n V) Option)

/-- What happens at a node when an event is due. -/
abbrev Reaction (w n : Nat) (V : Type) := Event V → Nat → Operation w n V Unit

structure Lock where
  node : Nat
  deriving DecidableEq, Repr

namespace Operation

variable {w n : Nat} {V α : Type}

/-- The end of an operation on a run, unless it goes on for ever. -/
def exec (body : Operation w n V α) (run : Run w n V) : Option (Except Fault α × Run w n V) :=
  body.run.run run

def forever : Operation w n V α := ExceptT.mk fun _ => none

/-- An operation whose fault is an answer. -/
def outcome (body : Operation w n V α) : Operation w n V (Except Fault α) :=
  ExceptT.mk fun run => (body.exec run).map fun (result, run) => (.ok result, run)

def ofExcept (result : Except Fault α) : Operation w n V α :=
  ExceptT.mk fun run => some (result, run)

def eventsLeft : Operation w n V Nat := return (← get).script.length

def tree : Operation w n V (Tree w n V) := return (← get).tree

def node (i : Nat) : Operation w n V (Node w n V) := return (← get).tree.node i

def version (i : Nat) : Operation w n V Version := return (← get).tree.node i |>.version

def changeTree (change : Tree w n V → Tree w n V) : Operation w n V Unit :=
  modify fun
    | ⟨tree, script, trace⟩ => ⟨change tree, script, trace⟩

def setVersion (i : Nat) (version : Version) : Operation w n V Unit :=
  changeTree (·.setVersion i version)

def note (call : Call V) : Operation w n V Unit :=
  modify fun
    | ⟨tree, script, trace⟩ => ⟨tree, script, trace.map (·.push call)⟩

/-- Takes the events that are due at a call out of the script. -/
def takeDue (site : Site) : Operation w n V (List (Event V)) :=
  modifyGet fun
    | ⟨tree, script, trace⟩ =>
      (Event.dueAt site script, ⟨tree, Event.afterCallOf site script, trace⟩)

/-- Another client's structural change of a node: it locks, marks and unlocks, or does nothing if
the node is not at rest. -/
def bump (i : Nat) : Operation w n V Unit := do
  match (← version i).tryLock? with
  | none => note (.bump i false)
  | some locked =>
    setVersion i (← ofExcept (locked.markInsert >>= Version.unlock))
    note (.bump i true)

/-! ### Calls on the version of a node -/

variable (react : Reaction w n V)

/-- Lets the events happen that are due at a call on a node, and tells whether it must fail. -/
def disturbed (site : Site) (i : Nat) : Operation w n V Bool := do
  let due ← takeDue site
  due.forM fun event => react event i
  return due.any Event.isFailure

/-- Waits until a node is at rest and takes a token. -/
def stable (i : Nat) : Operation w n V Token := do
  let _ ← disturbed react .stable i
  match (← version i).stable? with
  | none => forever
  | some token =>
    note (.stable i token)
    return token

def hasChanged (i : Nat) (token : Token) : Operation w n V Bool := do
  let failed ← disturbed react .hasChanged i
  let answer := failed || (← version i).hasChanged token
  note (.hasChanged i token answer)
  return answer

/-- Asks the owner of a lock whether its node had changed before it was locked. -/
def hasChangedLocked (lock : Lock) (token : Token) : Operation w n V Bool := do
  let failed ← disturbed react .hasChangedLocked lock.node
  let answer := failed || (← version lock.node).hasChangedLocked token
  note (.hasChangedLocked lock.node token answer)
  return answer

def tryLock (i : Nat) : Operation w n V (Option Lock) := do
  let failed ← disturbed react .tryLock i
  let version ← version i
  match if failed then none else version.tryLock? with
  | none =>
    note (.tryLock i false)
    return none
  | some version =>
    setVersion i version
    note (.tryLock i true)
    return some ⟨i⟩

/-- Announces a structural change of the locked node. -/
def markInsert (lock : Lock) : Operation w n V Unit := do
  let version ← ofExcept (← version lock.node).markInsert
  setVersion lock.node version
  note (.markInsert lock.node version)

def unlock (lock : Lock) : Operation w n V Unit := do
  let version ← ofExcept (← version lock.node).unlock
  setVersion lock.node version
  note (.unlock lock.node version)

/-- Runs an operation under a lock and gives the lock back, also after a fault. -/
def underLock (lock : Lock) (body : Operation w n V α) : Operation w n V α := do
  let result ← outcome body
  unlock lock
  ofExcept result

/-! ### Changes of a locked node -/

/-- Writes an entry to a slot of a node, for the owner of its lock. -/
def assign (i slot : Nat) (key : Key n) (value : V) (lock : Lock) : Operation w n V Unit :=
  if h : slot < w then
    if lock.node = i then changeTree (·.assign i ⟨slot, h⟩ key value)
    else throw .assignWithoutLock
  else throw (.slotOutOfRange slot w)

/-- Hangs a node under a link of a node, for the owner of its lock. A link is set once. -/
def hang (i link child : Nat) (lock : Lock) : Operation w n V Unit := do
  if h : link < w + 1 then
    if lock.node = i then
      if (← node i).links[link].isSome then throw .linkAlreadySet
      else changeTree (·.setLink i ⟨link, h⟩ child)
    else throw .linkWithoutLock
  else throw (.linkOutOfRange link w)

/-- Creates a node without children and gives its number. -/
def create (node : Node w n V) (bare : ∀ link : Fin (w + 1), node.links.get link = none) :
    Operation w n V Nat :=
  modifyGet fun
    | ⟨tree, script, trace⟩ => (tree.nodes.size, ⟨tree.addNode node bare, script, trace⟩)

def createEntry (key : Key n) (value : V) : Operation w n V Nat :=
  create (.ofEntry key value) (Node.links_ofEntry key value)

def createEmpty : Operation w n V Nat := create .empty Node.links_empty

end Operation

end FanoutIndex

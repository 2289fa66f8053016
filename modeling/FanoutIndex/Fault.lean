namespace FanoutIndex

/-- The contracts that an operation can break. -/
inductive Fault where
  /-- A key has more bytes than its words hold. -/
  | keyBeyondCapacity (length capacity : Nat)
  /-- A key has more bytes than the index was configured for. -/
  | keyBeyondWidth (length width : Nat)
  /-- A guard entered on one index was used on another. -/
  | foreignGuard
  /-- A slot, link or word was read past the end of its row. -/
  | indexOutOfBounds (length index : Nat)
  /-- An entry was to be written to a slot that the node does not have. -/
  | slotOutOfRange (slot width : Nat)
  /-- An entry was to be written without the lock of its node. -/
  | assignWithoutLock
  /-- A child was to be hung under a link that the node does not have. -/
  | linkOutOfRange (link width : Nat)
  /-- A child was to be hung without the lock of its parent. -/
  | linkWithoutLock
  /-- A child was to be hung under a link that has one. -/
  | linkAlreadySet
  /-- A version was to be unlocked that is not locked. -/
  | unlockUnlocked
  /-- A version was to be marked that is not locked. -/
  | markWithoutLock
  /-- A critical section was abandoned by its owner. -/
  | sectionAbandoned
  deriving DecidableEq, Repr

def Fault.message : Fault → String
  | keyBeyondCapacity length capacity =>
    "key length " ++ toString length ++ " exceeds maximum " ++ toString capacity
  | keyBeyondWidth length width =>
    "key length " ++ toString length ++ " exceeds configured width " ++ toString width
  | foreignGuard => "guard belongs to another collector"
  | indexOutOfBounds length index =>
    "index out of bounds: the len is " ++ toString length ++ " but the index is " ++ toString index
  | slotOutOfRange slot width =>
    "slot " ++ toString slot ++ " out of range for width " ++ toString width
  | assignWithoutLock => "assign() without this node's lock"
  | linkOutOfRange link width =>
    "link " ++ toString link ++ " out of range for width " ++ toString width
  | linkWithoutLock => "link_child() without this node's lock"
  | linkAlreadySet => "child links are set once"
  | unlockUnlocked => "unlock() on an unlocked node"
  | markWithoutLock => "mark_insert() without the lock"
  | sectionAbandoned => "section panicked"

end FanoutIndex

import FanoutIndex.Access.Search

/-!
# Stages

When several clients work on one index at once, what is indivisible is not an operation but a single
access: a load, store or exchange of a version word, of one word of a key, of a value or of a link,
or the increment of a counter. A request therefore goes through stages, each of which makes one
access and decides on the next stage by what it read.

The order of accesses is that of the searches and changes that an undisturbed client makes. Writing
a value replaces the old one in one exchange; a key is written word by word.
-/

namespace FanoutIndex

inductive Request (n : Nat) (V : Type) where
  | put (key : Key n) (value : V)
  | get (key : Key n)
  deriving DecidableEq, Repr

inductive Reply (V : Type) where
  | stored
  | found (value : Option V)
  deriving DecidableEq, Repr

namespace Request

variable {n : Nat} {V : Type}

def key : Request n V → Key n
  | put key _ => key
  | get key => key

end Request

/-- The access that a request makes next; `i` is a node and `token` the token taken of it. -/
inductive Stage (w n : Nat) (V : Type) where
  /-- Load the version, again and again until the node is at rest. -/
  | takeToken (i : Nat)
  /-- Load the value of a slot to see whether it is occupied. -/
  | readSlot (i : Nat) (token : Token) (slot : Fin w)
  /-- Load one word of the key in an occupied slot. -/
  | readWord (i : Nat) (token : Token) (slot : Fin w) (index : Fin n)
  /-- Load a link. -/
  | readLink (i : Nat) (token : Token) (link : Fin (w + 1))
  /-- Load the version to see whether the route still holds. -/
  | validate (i : Nat) (token : Token) (route : Route w)
  /-- A reader loads the value that it found. -/
  | readValue (i : Nat) (slot : Fin w)
  /-- A writer loads the version before it tries to lock. -/
  | recheck (i : Nat) (token : Token) (place : Place w)
  /-- Load the version to see whether it can be locked. -/
  | readVersion (i : Nat) (token : Token) (place : Place w)
  /-- Exchange the version for its locked form, unless it has changed. -/
  | swapVersion (i : Nat) (token : Token) (place : Place w) (expected : Version)
  /-- The owner of the lock loads the version to see whether the node had changed. -/
  | confirm (i : Nat) (token : Token) (place : Place w)
  /-- It had: load the version to unlock it, -/
  | readRetreat (i : Nat)
  /-- and store it unlocked. -/
  | storeRetreat (i : Nat) (unlocked : Version)
  /-- Load the version to mark a new entry, -/
  | readMarkFill (i : Nat) (slot : Fin w)
  /-- and store it marked. -/
  | storeMarkFill (i : Nat) (slot : Fin w) (marked : Version)
  /-- Load the version to mark a new child, -/
  | readMarkAttach (i : Nat) (link : Fin (w + 1)) (child : Nat)
  /-- and store it marked. -/
  | storeMarkAttach (i : Nat) (link : Fin (w + 1)) (child : Nat) (marked : Version)
  /-- Store one word of the key. -/
  | storeWord (i : Nat) (slot : Fin w) (isNew : Bool) (index : Fin n) (value : V)
  /-- Exchange the value. -/
  | swapValue (i : Nat) (slot : Fin w) (isNew : Bool) (value : V)
  /-- Load the link to see that nothing hangs there. -/
  | readChild (i : Nat) (link : Fin (w + 1)) (child : Nat)
  /-- Store the link. -/
  | storeChild (i : Nat) (link : Fin (w + 1)) (child : Nat)
  /-- Count the new node. -/
  | countNode (i : Nat)
  /-- Count the new entry. -/
  | countEntry (i : Nat)
  /-- Load the version to unlock it, -/
  | readUnlock (i : Nat)
  /-- and store it unlocked. -/
  | storeUnlock (i : Nat) (unlocked : Version)

/-- Where a request stands after an access. -/
inductive Progress (w n : Nat) (V : Type) where
  | next (stage : Stage w n V)
  | ended (reply : Reply V)
  | broken (cause : Fault)

namespace Stage

variable {w n : Nat} {V : Type}

/-- Every request begins, and begins again, at the root. -/
def start : Stage w n V := .takeToken root

/-- Goes on with a slot, or past the last one with the last link. -/
def scanSlot (i : Nat) (token : Token) (slot : Nat) : Stage w n V :=
  if h : slot < w then .readSlot i token ⟨slot, h⟩ else .readLink i token (Fin.last w)

/-- Goes on with a word of the key in a slot; keys that differ in no word are equal. -/
def scanWord (i : Nat) (token : Token) (slot : Fin w) (index : Nat) : Stage w n V :=
  if h : index < n then .readWord i token slot ⟨index, h⟩ else .validate i token (.found slot)

/-- Goes on with a word of the key to write, and then with the value. -/
def writeWord (i : Nat) (slot : Fin w) (isNew : Bool) (value : V) (index : Nat) : Stage w n V :=
  if h : index < n then .storeWord i slot isNew ⟨index, h⟩ value
  else .swapValue i slot isNew value

def follow (i : Nat) (token : Token) (route : Route w) : Request n V → Progress w n V
  | .get _ =>
    match route with
    | .found slot => .next (.readValue i slot)
    | .vacant _ => .ended (.found none)
    | .descend _ none => .ended (.found none)
    | .descend _ (some child) => .next (.takeToken child)
  | .put _ _ =>
    match route.turn with
    | .down child => .next (.takeToken child)
    | .here place => .next (.recheck i token place)

/-- Begins the change of a node that is locked and confirmed. The node of a new child is made here,
where no other client can see it. -/
def change (i : Nat) (place : Place w) (request : Request n V) (tree : Tree w n V) :
    Progress w n V × Tree w n V :=
  match request with
  | .get _ => (.next (.readUnlock i), tree)
  | .put key value =>
    match place with
    | .update slot => (.next (writeWord i slot false value 0), tree)
    | .fill slot => (.next (.readMarkFill i slot), tree)
    | .attach link =>
      (.next (.readMarkAttach i link tree.nodes.size),
        tree.addNode (.ofEntry key value) (Node.links_ofEntry key value))

def writeEntry (i : Nat) (slot : Fin w) : Request n V → Progress w n V
  | .get _ => .next (.readUnlock i)
  | .put _ value => .next (writeWord i slot true value 0)

/-- Goes on with a version that was computed, or ends with the fault. -/
def withVersion (version : Except Fault Version) (next : Version → Stage w n V) : Progress w n V :=
  match version with
  | .ok version => .next (next version)
  | .error cause => .broken cause

def step (request : Request n V) (stage : Stage w n V) (tree : Tree w n V) :
    Progress w n V × Tree w n V :=
  match stage with
  | .takeToken i =>
    match (tree.node i).version.stable? with
    | none => (.next (.takeToken i), tree)
    | some token => (.next (scanSlot i token 0), tree)
  | .readSlot i token slot =>
    if (tree.node i).isOccupied slot then (.next (scanWord i token slot 0), tree)
    else (.next (.validate i token (.vacant slot)), tree)
  | .readWord i token slot index =>
    match compare (request.key.words.get index) (((tree.node i).keys.get slot).words.get index) with
    | .eq => (.next (scanWord i token slot (index + 1)), tree)
    | .lt => (.next (.readLink i token slot.castSucc), tree)
    | .gt => (.next (scanSlot i token (slot + 1)), tree)
  | .readLink i token link =>
    (.next (.validate i token (.descend link ((tree.node i).links.get link))), tree)
  | .validate i token route =>
    if (tree.node i).version.hasChanged token then (.next (.takeToken i), tree)
    else (follow i token route request, tree)
  | .readValue i slot => (.ended (.found ((tree.node i).values.get slot)), tree)
  | .recheck i token place =>
    if (tree.node i).version.hasChanged token then (.next start, tree)
    else (.next (.readVersion i token place), tree)
  | .readVersion i token place =>
    let version := (tree.node i).version
    if version.isBusy then (.next start, tree)
    else (.next (.swapVersion i token place version), tree)
  | .swapVersion i token place expected =>
    if (tree.node i).version = expected then
      (.next (.confirm i token place), tree.setVersion i expected.locked)
    else (.next start, tree)
  | .confirm i token place =>
    if (tree.node i).version.hasChangedLocked token then (.next (.readRetreat i), tree)
    else change i place request tree
  | .readRetreat i => (withVersion (tree.node i).version.unlock (.storeRetreat i), tree)
  | .storeRetreat i unlocked => (.next start, tree.setVersion i unlocked)
  | .readMarkFill i slot =>
    (withVersion (tree.node i).version.markInsert (.storeMarkFill i slot), tree)
  | .storeMarkFill i slot marked => (writeEntry i slot request, tree.setVersion i marked)
  | .readMarkAttach i link child =>
    (withVersion (tree.node i).version.markInsert (.storeMarkAttach i link child), tree)
  | .storeMarkAttach i link child marked =>
    (.next (.readChild i link child), tree.setVersion i marked)
  | .storeWord i slot isNew index value =>
    (.next (writeWord i slot isNew value (index + 1)),
      tree.setWord i slot index (request.key.words.get index))
  | .swapValue i slot isNew value =>
    (.next (if isNew then .countEntry i else .readUnlock i), tree.setValue i slot value)
  | .readChild i link child =>
    if ((tree.node i).links.get link).isSome then (.broken .linkAlreadySet, tree)
    else (.next (.storeChild i link child), tree)
  | .storeChild i link child => (.next (.countNode i), tree.setLink i link child)
  | .countNode i => (.next (.countEntry i), tree.countNode)
  | .countEntry i => (.next (.readUnlock i), tree.countEntry)
  | .readUnlock i => (withVersion (tree.node i).version.unlock (.storeUnlock i), tree)
  | .storeUnlock i unlocked => (.ended .stored, tree.setVersion i unlocked)

end Stage

end FanoutIndex

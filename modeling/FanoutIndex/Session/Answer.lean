import FanoutIndex.Access.Search
import FanoutIndex.Tree.Check
import FanoutIndex.Tree.Stats

namespace FanoutIndex

open Text

/-- An answer about an index of nodes with `w` slots. -/
inductive Answer (w : Nat) where
  /-- The command broke a contract. -/
  | fault (cause : Fault)
  /-- There is no node at the end of the path. -/
  | noNode
  /-- The command needs a lock and none is held. -/
  | noLock
  /-- The counters after a change. -/
  | counters (len nodeCount : Nat)
  | value (value : Option String)
  /-- How many keys of a series were found, and how many of these with their own value. -/
  | seriesFound (found same : Nat)
  | depth (depth : Option Nat)
  | depths (depths : List (Option Nat))
  | info (len nodeCount keyWidth : Nat) (isEmpty : Bool) (described : Described)
  | stats (stats : Stats)
  | sound
  | violation (violation : Violation)
  | printed (text : String)
  /-- The bytes that a bounded writer took, and whether they are the whole dump. -/
  | written (bytes : List UInt8) (isWhole : Bool)
  /-- The value that a reader's search found, with the depths before and after it, the key and the
  cursor in the end. -/
  | found (value : Option String) (before after : Nat) (key : String) (cursor : Described)
  /-- The target that a writer's search locked, the answers of the commands under the lock, and the
  word of the node after it was given back; the target is described as it was found, and the cursor
  as it is in the end. -/
  | locked (target : Target w) (described cursor : Described) (answers : List (Answer w))
    (after : Token)
  /-- The node was not at rest. -/
  | notLocked
  /-- The answers of the commands under the lock, and the word of the node after it was given
  back. -/
  | lockedNode (answers : List (Answer w)) (after : Token)
  /-- The word of the locked node. -/
  | word (word : Token)
  | lockState (hasChanged isOfNode : Bool) (described : Described)
  /-- Everything about one node: for each slot its key and value, for each link whether there is a
  child. -/
  | node (occupied : Nat) (slots : List (Option Bytes × Option String)) (version : Version)
    (described : Described) (children : List Bool)
  | truth (value : Bool)
  | text (value : Option String)
  /-- Whether two keys lead to the same place. -/
  | routesAgree (value : Bool)
  /-- A route with its token, and whether the token was stale a moment later. -/
  | routed (route : Route w) (token : Token) (hasChanged : Bool)

end FanoutIndex
